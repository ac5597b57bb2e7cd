import Kvs.Core.WorkPool
import Kvs.Server.Consumption
import Kvs.Server.JobExecution
import Kvs.Server.OutputFiles

/-!
# The job threads and the directory

`dispatch_threads` starts threads of `get_file` on one `DIR` stream.  Each takes `directory_mutex`,
reads entries until `entry_files` accepts one, gives the mutex back, opens the two files of the job and
runs it, and comes back for the next entry.  At the end of the stream it leaves; if a file cannot be
opened it calls `pthread_exit` on the spot.

This is a pool of `Core/WorkPool.lean` (`getFile`).  The work on an item is `run_job`, a pass of its
loop at a time, on the table, the backup counter and the files of the directory, which all threads
share.  The name that a job gives its backups points into the storage of the `DIR` stream, where the
`readdir` of another thread may have put anything by then, so it is any string at each pass.

* `job_files_shared_out` — each accepted entry is run by one thread, once, and no two threads have one
  output file open; no entry is left over unless every thread has failed to open a file.
* `getFile_bounded` — how many passes a job takes is bounded by the length of its file, whatever it
  contains.
-/

namespace Kvs

/-! ## Entries -/

/-- The job of an entry of the directory, if `entry_files` accepts it. -/
def acceptEntry (dir entry : CString) : Option (JobFile dir) :=
  match h : entryFiles dir entry with
  | .ok (some (inPath, outPath)) => some ⟨entry, inPath, outPath, h⟩
  | .ok none => none
  | .error _ => none

lemma acceptEntry_eq_some {dir entry : CString} {file : JobFile dir} :
    acceptEntry dir entry = some file ↔ file.name = entry := by
  constructor
  · intro h
    unfold acceptEntry at h
    split at h
    · obtain rfl := Option.some.inj h
      rfl
    · cases h
    · cases h
  · rintro rfl
    unfold acceptEntry
    split
    · rename_i inPath outPath haccepted
      exact congrArg some (JobFile.ext_name rfl)
    · rename_i hnone
      rw [file.accepted] at hnone
      simp at hnone
    · rename_i herror
      rw [file.accepted] at herror
      cases herror

instance (dir : CString) : DecidableEq (JobFile dir) := fun file file' =>
  decidable_of_iff (file.name = file'.name) ⟨JobFile.ext_name, congrArg JobFile.name⟩

/-- Different entries are different jobs. -/
lemma nodup_acceptEntry {dir : CString} {entries : List CString} (h : entries.Nodup) :
    (entries.filterMap (acceptEntry dir)).Nodup := by
  refine h.filterMap ?_
  intro entry entry' file hfile hfile'
  rw [← acceptEntry_eq_some.mp hfile, ← acceptEntry_eq_some.mp hfile']

/-! ## The work on a job -/

/-- What the job threads share: the table, the number of active backups, and the files they have
created in the directory, with their contents. -/
structure JobStore where
  ht : HashTable
  activeBackups : ℕ
  outputs : List Byte → Option (List Byte)

namespace JobStore

variable {dir : CString}

/-- Before the first job. -/
def initial : JobStore where
  ht := .createHashTable
  activeBackups := 0
  outputs := fun _ => none

/-- What a job has written to its output file. -/
def output (store : JobStore) (file : JobFile dir) : Option (List Byte) :=
  store.outputs file.outPath.val.bytes

/-- The output file of a job with other contents. -/
def withOutput (store : JobStore) (file : JobFile dir) (out : List Byte) : JobStore :=
  { store with outputs := Function.update store.outputs file.outPath.val.bytes (some out) }

@[simp] lemma withOutput_ht (store : JobStore) (file : JobFile dir) (out : List Byte) :
    (store.withOutput file out).ht = store.ht := rfl

@[simp] lemma output_withOutput_self (store : JobStore) (file : JobFile dir) (out : List Byte) :
    (store.withOutput file out).output file = some out := Function.update_self ..

/-- **No job writes to the output file of another.** -/
lemma output_withOutput_of_ne {file file' : JobFile dir} (h : file' ≠ file) (store : JobStore)
    (out : List Byte) : (store.withOutput file out).output file' = store.output file' :=
  Function.update_of_ne (fun hpath => h (JobFile.outPath_injective hpath)) ..

/-- Both files of a job opened: the output file is created, or truncated. -/
def openJob (store : JobStore) (file : JobFile dir) (input : Input) (filename : CString) :
    Job × JobStore :=
  (Job.start input store.ht filename store.activeBackups, store.withOutput file [])

/-- A job when its thread goes on: the table and the counter are as the others have left them. -/
def current (store : JobStore) (filename : CString) (job : Job) : Job :=
  { job with
    ht := store.ht
    activeBackups := store.activeBackups
    filename := filename }

/-- What a pass leaves to the other threads. -/
def after (store : JobStore) (file : JobFile dir) (job : Job) : JobStore :=
  { store with
    ht := job.ht
    activeBackups := job.activeBackups }.withOutput file job.out

@[simp] lemma after_ht (store : JobStore) (file : JobFile dir) (job : Job) :
    (store.after file job).ht = job.ht := rfl

@[simp] lemma output_after_self (store : JobStore) (file : JobFile dir) (job : Job) :
    (store.after file job).output file = some job.out := output_withOutput_self ..

lemma output_after_of_ne {file file' : JobFile dir} (h : file' ≠ file) (store : JobStore)
    (job : Job) : (store.after file job).output file' = store.output file' :=
  output_withOutput_of_ne h ..

/-- One pass of the loop of `run_job`, with the status that it returns, if it does. -/
def pass (env : JobEnvironment) (filename : CString) (store : JobStore) (file : JobFile dir)
    (job : Job) : Except Fault (Option ℤ × Job × JobStore) := do
  let (command, job) ← (store.current filename job).next env
  let (status, job) ← job.execute env command
  pure (status, job, store.after file job)

end JobStore

/-- The threads of `get_file` on a directory whose job files have these contents.  The status 1, for
which the thread would end the process, is never returned (`JobStore.pass_status`). -/
def getFile (mem : ℕ → Ptr) (dir : CString) (files : List Byte → Option Input) :
    PoolRules CString (JobFile dir) Job JobStore where
  accept := acceptEntry dir
  starts := fun file store job store' => ∃ input filename,
    files file.inPath.val.bytes = some input ∧ store.openJob file input filename = (job, store')
  works := fun file store job store' next => ∃ env filename status job',
    env.mem = mem ∧ store.pass env filename file job = .ok (status, job', store') ∧
      (status = none ∧ next = some job' ∨ status = some 0 ∧ next = none)

variable {mem : ℕ → Ptr} {dir : CString} {files : List Byte → Option Input}

namespace Job

/-- Only the end of the file ends a job. -/
lemma execute_status {env : JobEnvironment} {job job' : Job} {command : JobCommand}
    {status : Option ℤ} (h : job.execute env command = .ok (status, job')) :
    command ≠ .Eoc ∧ status = none ∨ status = some 0 := by
  cases command with
  | Write pairs =>
      obtain ⟨⟨ht, sent⟩, -, h⟩ := bind_eq_ok.mp h
      exact Or.inl ⟨by simp, (Prod.mk.inj (Except.ok.inj h)).1.symm⟩
  | Read keys =>
      obtain ⟨out, -, h⟩ := bind_eq_ok.mp h
      exact Or.inl ⟨by simp, (Prod.mk.inj (Except.ok.inj h)).1.symm⟩
  | Delete keys =>
      obtain ⟨⟨ht, out, sent⟩, -, h⟩ := bind_eq_ok.mp h
      exact Or.inl ⟨by simp, (Prod.mk.inj (Except.ok.inj h)).1.symm⟩
  | Backup =>
      obtain ⟨hstatus, -⟩ : _ = status ∧ _ := by
        simpa only [execute, pure_eq_ok, Except.ok.injEq, Prod.mk.injEq] using h
      rw [if_neg (kvsBackup_status env _)] at hstatus
      exact Or.inl ⟨by simp, hstatus.symm⟩
  | Eoc => exact Or.inr (Prod.mk.inj (Except.ok.inj h)).1.symm
  | Show | Wait _ | Help | Empty | Rejected =>
      exact Or.inl ⟨by simp, (Prod.mk.inj (Except.ok.inj h)).1.symm⟩

end Job

/-- **A pass** goes round again with less of the file in front of it, or returns 0. -/
lemma JobStore.pass_status {env : JobEnvironment} {filename : CString} {store store' : JobStore}
    {file : JobFile dir} {job job' : Job} {status : Option ℤ}
    (h : store.pass env filename file job = .ok (status, job', store')) :
    status = none ∧ job'.input.length < job.input.length ∨ status = some 0 := by
  obtain ⟨⟨command, job₁⟩, hnext, h⟩ := bind_eq_ok.mp h
  obtain ⟨⟨status₁, job₂⟩, hexecute, h⟩ := bind_eq_ok.mp h
  obtain ⟨rfl, rfl, -⟩ : status₁ = status ∧ job₂ = job' ∧ _ := by simpa using h
  rcases Job.execute_status hexecute with ⟨hcommand, hnone⟩ | hzero
  · left
    refine ⟨hnone, ?_⟩
    rw [(Job.execute_frame hexecute).1]
    exact (readCommand_consumes (Job.next_eq_ok hnext)).resolve_left hcommand
  · exact Or.inr hzero

/-- The passes of a job are bounded by the length of its file. -/
lemma getFile_bounded (mem : ℕ → Ptr) (dir : CString) (files : List Byte → Option Input) :
    (getFile mem dir files).Bounded
      (fun file => ((files file.inPath.val.bytes).getD []).length) (fun job => job.input.length) where
  starts := by
    rintro file store job store' ⟨input, filename, hfile, hopen⟩
    obtain ⟨rfl, -⟩ := Prod.mk.inj hopen
    simp [hfile, Job.start]
  works := by
    rintro file store job store' job'
      ⟨env, filename, status, job₁, -, hpass, ⟨hstatus, hjob⟩ | ⟨-, hnone⟩⟩
    · obtain rfl := Option.some.inj hjob
      rcases JobStore.pass_status hpass with ⟨-, hlt⟩ | hzero
      · exact hlt
      · rw [hstatus] at hzero
        cases hzero
    · cases hnone

/-- A job whose thread can go on, and what it can go on with. -/
lemma getFile_works {env : JobEnvironment} (henv : env.mem = mem) {filename : CString}
    {store store' : JobStore} {file : JobFile dir} {job job' : Job} {status : Option ℤ}
    (h : store.pass env filename file job = .ok (status, job', store')) :
    ∃ next, (getFile mem dir files).works file store job store' next := by
  rcases JobStore.pass_status h with ⟨hstatus, -⟩ | hstatus
  · exact ⟨some job', env, filename, status, job', henv, h, Or.inl ⟨hstatus, rfl⟩⟩
  · exact ⟨none, env, filename, status, job', henv, h, Or.inr ⟨hstatus, rfl⟩⟩

/-! ## Sharing out -/

section Sharing

variable {ι : Type} [DecidableEq ι] {entries : List CString} {store : JobStore}
  {s : Pool ι CString (JobFile dir) Job JobStore}

/-- **The job files are shared out.**  For any number of threads on any directory, whose entries have
different names, whatever the files contain and whichever cannot be opened, in every state that an
interleaving of the threads leads to:

* at most one thread is between the lock and the unlock of `directory_mutex`, so the stream and its
  storage are used by one thread at a time;
* threads that have the same job, or jobs with the same output path, are one thread, with one job;
* the entries read so far are the first of the directory, none of them is still in front of the stream,
  and the job files among them are those that are in the hands of a thread or finished;
* a job file that is finished is in nobody's hands, now and from now on;
* when all threads are gone each job file has been run to its end, or was given up by a thread that could
  not open it and that holds up nobody, unless every one of the threads has given up a file of its own. -/
theorem job_files_shared_out (hnodup : entries.Nodup)
    (h : Reachable (PoolStep (getFile mem dir files)) (Pool.initial entries store) s) :
    (∀ i j, (s.pc i).Critical → (s.pc j).Critical → i = j) ∧
    (∀ i j file file', (s.pc i).item = some file → (s.pc j).item = some file' →
      file.outPath.val.bytes = file'.outPath.val.bytes → i = j ∧ file = file') ∧
    (∃ handed, entries = handed ++ s.stream ∧ (∀ entry ∈ handed, entry ∉ s.stream) ∧
      ∀ file : JobFile dir, file.name ∈ handed ↔
        (∃ i, (s.pc i).item = some file) ∨ s.fate file = .Finished) ∧
    (∀ file, s.fate file = .Finished → ∀ s', Reachable (PoolStep (getFile mem dir files)) s s' →
      s'.fate file = .Finished ∧ ∀ i, (s'.pc i).item ≠ some file) ∧
    ((∀ i, (s.pc i).Gone) → ∀ file : JobFile dir, file.name ∈ entries →
      s.fate file = .Finished ∨ (∃ i, s.pc i = .GivenUp file) ∨
        ∀ i, ∃ file', s.pc i = .GivenUp file') := by
  have hinv := Pool.Inv.run (nodup_acceptEntry hnodup) h
  refine ⟨fun _ _ => hinv.exclusive, ?_, ?_, ?_, ?_⟩
  · intro i j file file' hi hj hpath
    obtain rfl := JobFile.outPath_injective hpath
    exact ⟨hinv.item_unique hi hj, rfl⟩
  · obtain ⟨handed, hentries, hhanded⟩ := hinv.handed_out
    refine ⟨handed, hentries, ?_, ?_⟩
    · intro entry hentry hstream
      rw [hentries] at hnodup
      exact List.disjoint_of_nodup_append hnodup hentry hstream
    · intro file
      rw [← hhanded file]
      constructor
      · exact fun hfile => ⟨_, hfile, acceptEntry_eq_some.mpr rfl⟩
      · rintro ⟨entry, hentry, haccept⟩
        rwa [acceptEntry_eq_some.mp haccept]
  · intro file hfinished s' hrun
    exact hinv.finished_run (nodup_acceptEntry hnodup) hfinished hrun
  · intro hgone file hfile
    exact hinv.shared_out hgone hfile (acceptEntry_eq_some.mpr rfl)

/-- A job in a directory. -/
def soloFile : JobFile (.lit "jobs") := ⟨.lit "a.job", _, _, rfl⟩

/-- Another job there. -/
def otherFile : JobFile (.lit "jobs") := ⟨.lit "b.job", _, _, rfl⟩

/-- Two threads and an empty job.  The one has run it; the other has read past an entry that is no job,
and whatever they do from now on, nobody gets the job again. -/
theorem job_files_shared_out_two : ∃ s : Pool Bool CString (JobFile (.lit "jobs")) Job JobStore,
    s.pc true = .Locking ∧ s.pc false = .Reading ∧ s.stream = [] ∧ s.fate soloFile = .Finished ∧
    (∀ i, (s.pc i).Critical → i = false) ∧
    ∀ s', Reachable (PoolStep (getFile (fun _ => none) (.lit "jobs") fun _ => some [])) s s' →
      ∀ i, (s'.pc i).item ≠ some soloFile := by
  have haccept : acceptEntry (.lit "jobs") (.lit "a.job") = some soloFile :=
    acceptEntry_eq_some.mpr rfl
  have hskip : acceptEntry (.lit "jobs") (.lit "notes") = none := by
    cases hnotes : acceptEntry (.lit "jobs") (.lit "notes") with
    | none => rfl
    | some file =>
        have haccepted := file.accepted
        rw [acceptEntry_eq_some.mp hnotes] at haccepted
        cases haccepted
  have hlock : Reachable (PoolStep (getFile (fun _ => none) (.lit "jobs") fun _ => some []))
      (Pool.initial [.lit "a.job", .lit "notes"] .initial) _ :=
    (Reachable.refl _).tail (.lock true rfl rfl)
  have hunlock := (hlock.tail (.take true rfl rfl haccept)).tail (.unlock true rfl)
  have hopen := hunlock.tail (.start true rfl ⟨[], .lit "a.job", rfl, rfl⟩)
  have hskipped := (hopen.tail (.lock false rfl rfl)).tail (.skip false rfl rfl hskip)
  have hfinish := hskipped.tail (.finish true rfl
    ⟨calmEnvironment, .lit "a.job", some 0, _, rfl, rfl, Or.inr ⟨rfl, rfl⟩⟩)
  have hentries : [CString.lit "a.job", CString.lit "notes"].Nodup := by decide
  obtain ⟨hexclusive, -, -, hnever, -⟩ := job_files_shared_out hentries hfinish
  refine ⟨_, rfl, rfl, rfl, rfl, fun i hi => hexclusive i false hi trivial, ?_⟩
  exact fun s' hrun => (hnever soloFile rfl s' hrun).2

end Sharing

end Kvs
