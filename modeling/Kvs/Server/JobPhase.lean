import Kvs.Server.DirectoryWalk
import Kvs.Server.JobThreads

/-!
# What the job threads leave behind

Seen from the jobs, the threads of `dispatch_threads` are not there: a job is started, gets its passes
one by one, among those of other jobs, and is finished (`Pool.items_reachable`).  So a run of the threads
comes down to a *trace*, an order of the lines of all job files.

* `job_threads_finish` — whatever the files contain, the threads come to an end after a number of steps
  that is known from their lengths, and are not stuck before that.
* `job_phase_trace` — on well-formed files no pass fails, the table holds what the lines of the trace
  lead to, one after the other, and each output file holds what the lines of its job put out there.  The
  trace has each line of a finished job once, in the order of its file.
* `job_phase_independent` — if no two jobs name a key in common, the output files and the values of all
  keys are the same at the end, for any number of threads and any interleaving: each file holds what its
  job writes when it is the only one.
-/

namespace Kvs

/-! ## Traces -/

section Traces

variable {J : Type} [DecidableEq J]

/-- The lines of one job in a trace. -/
def linesIn (file : J) (trace : List (J × Line)) : List Line :=
  (trace.filter fun p => p.1 = file).map Prod.snd

/-- The pairs of the store behind a trace. -/
def contentsAfter (m : Contents) : List (J × Line) → Contents
  | [] => m
  | p :: trace => contentsAfter (p.2.interpret m).1 trace

/-- What the lines of one job put out in a trace. -/
def outputIn (file : J) (m : Contents) : List (J × Line) → List Byte
  | [] => []
  | p :: trace =>
      (if p.1 = file then (p.2.interpret m).2 else []) ++ outputIn file (p.2.interpret m).1 trace

variable {file file' : J} {line : Line} {m : Contents} {trace : List (J × Line)}

lemma linesIn_snoc_self : linesIn file (trace ++ [(file, line)]) = linesIn file trace ++ [line] := by
  simp [linesIn]

lemma linesIn_snoc_of_ne (h : file' ≠ file) :
    linesIn file' (trace ++ [(file, line)]) = linesIn file' trace := by
  simp [linesIn, Ne.symm h]

omit [DecidableEq J] in
lemma contentsAfter_snoc : contentsAfter m (trace ++ [(file, line)])
    = (line.interpret (contentsAfter m trace)).1 := by
  induction trace generalizing m with
  | nil => rfl
  | cons p trace ih => exact ih

lemma outputIn_snoc_self : outputIn file m (trace ++ [(file, line)])
    = outputIn file m trace ++ (line.interpret (contentsAfter m trace)).2 := by
  induction trace generalizing m with
  | nil => simp [outputIn, contentsAfter]
  | cons p trace ih =>
      rw [List.cons_append, outputIn, outputIn, contentsAfter, ih, List.append_assoc]

lemma outputIn_snoc_of_ne (h : file' ≠ file) :
    outputIn file' m (trace ++ [(file, line)]) = outputIn file' m trace := by
  induction trace generalizing m with
  | nil => simp [outputIn, Ne.symm h]
  | cons p trace ih => rw [List.cons_append, outputIn, outputIn, ih]

/-- A job that has no line in a trace puts nothing out. -/
lemma outputIn_eq_nil (h : linesIn file trace = []) : outputIn file m trace = [] := by
  induction trace generalizing m with
  | nil => rfl
  | cons p trace ih =>
      by_cases hp : p.1 = file
      · simp [linesIn, hp] at h
      · have hrest : linesIn file trace = [] := by simpa [linesIn, hp] using h
        rw [outputIn, if_neg hp, List.nil_append, ih hrest]

end Traces

/-! ## Jobs along a trace -/

variable {mem : ℕ → Ptr} {dir : CString} {files : List Byte → Option Input} {entries : List CString}

/-- The files of the jobs consist of these lines, and of nothing else. -/
def HaveLines (files : List Byte → Option Input) (entries : List CString)
    (lines : JobFile dir → List Line) : Prop :=
  ∀ file : JobFile dir, file.name ∈ entries →
    files file.inPath.val.bytes = some ((lines file).flatMap Line.render) ∧
      ∀ line ∈ lines file, line.WellFormed

/-- Where a job is when its lines in the trace have been executed. -/
def FileFollows (lines : List Line) (trace : List (JobFile dir × Line)) (store : JobStore)
    (file : JobFile dir) : ItemState Job → Prop
  | .Untouched => linesIn file trace = [] ∧ store.output file = none
  | .Running job => ∃ todo, lines = linesIn file trace ++ todo ∧
      (∀ line ∈ todo, line.WellFormed) ∧ job.input = todo.flatMap Line.render ∧
      job.out = outputIn file [] trace ∧ store.output file = some (outputIn file [] trace)
  | .Done => linesIn file trace = lines ∧ store.output file = some (outputIn file [] trace)

/-- The jobs and the table where a trace leads them. -/
structure FollowsTrace (lines : JobFile dir → List Line) (s : Items (JobFile dir) Job JobStore)
    (trace : List (JobFile dir × Line)) : Prop where
  holds : s.shared.ht.Holds (contentsAfter [] trace)
  files : ∀ file, FileFollows (lines file) trace s.shared file (s.state file)

variable {lines : JobFile dir → List Line} {trace trace' : List (JobFile dir × Line)}
  {s s' : Items (JobFile dir) Job JobStore} {file : JobFile dir} {job : Job}

/-- A job whose lines in the trace, and whose output file, are as they were. -/
lemma FileFollows.frame {store store' : JobStore} {state : ItemState Job} {lines : List Line}
    (h : FileFollows lines trace store file state)
    (hlines : linesIn file trace' = linesIn file trace)
    (hout : outputIn file [] trace' = outputIn file [] trace)
    (houtput : store'.output file = store.output file) :
    FileFollows lines trace' store' file state := by
  cases state <;> simpa only [FileFollows, hlines, hout, houtput] using h

lemma FollowsTrace.initial (lines : JobFile dir → List Line) :
    FollowsTrace lines (Items.initial .initial) [] :=
  ⟨HashTable.holds_createHashTable, fun _ => ⟨rfl, rfl⟩⟩

/-- One job goes on, by a line or by none. -/
lemma FollowsTrace.set (h : FollowsTrace lines s trace) {state : ItemState Job} {store : JobStore}
    (hholds : store.ht.Holds (contentsAfter [] trace'))
    (hfile : FileFollows (lines file) trace' store file state)
    (hlines : ∀ file', file' ≠ file → linesIn file' trace' = linesIn file' trace)
    (hout : ∀ file', file' ≠ file → outputIn file' [] trace' = outputIn file' [] trace)
    (houtput : ∀ file', file' ≠ file → store.output file' = s.shared.output file') :
    FollowsTrace lines (s.set file state store) trace' := by
  refine ⟨hholds, ?_⟩
  intro file'
  by_cases heq : file' = file
  · subst heq
    simpa [Items.set] using hfile
  · have hothers := (h.files file').frame (hlines file' heq) (hout file' heq) (houtput file' heq)
    simpa [Items.set, Function.update_of_ne heq] using hothers

/-- **A pass over a line.** -/
lemma pass_line {env : JobEnvironment} (hmem : ZeroFilled env.mem) (filename : CString)
    {store : JobStore} {m : Contents} (hholds : store.ht.Holds m) {line : Line} {rest : Input}
    (hline : line.WellFormed) (hinput : job.input = line.render ++ rest) (file : JobFile dir) :
    ∃ job', store.pass env filename file job = .ok (none, job', store.after file job') ∧
      job'.input = rest ∧ job'.out = job.out ++ (line.interpret m).2 ∧
      job'.ht.Holds (line.interpret m).1 := by
  have hfront : (store.current filename job).input = line.render ++ rest := hinput
  have hnext := Job.next_line env hline hfront
  set ahead : Job := { store.current filename job with
    input := rest
    commands := (store.current filename job).commands ++ [line.command] } with hahead
  have hhead : ahead.ht.Holds m := hholds
  obtain ⟨job', hexecute, hholds', hout, hinput', -⟩ := Job.execute_refines hmem hhead hline
  refine ⟨job', ?_, hinput', hout, hholds'⟩
  simp only [JobStore.pass, hnext, ok_bind, hexecute, pure_eq_ok]

/-- **A pass at the end of the file.** -/
lemma pass_eof (env : JobEnvironment) (filename : CString) (store : JobStore)
    (hinput : job.input = []) (file : JobFile dir) :
    ∃ job', store.pass env filename file job = .ok (some 0, job', store.after file job') ∧
      job'.ht = store.ht ∧ job'.out = job.out := by
  have hfront : (store.current filename job).input = [] := hinput
  have hnext := Job.next_eof env hfront
  set ended : Job := { store.current filename job with
    input := []
    commands := (store.current filename job).commands ++ [.Eoc] } with hended
  refine ⟨ended, ?_, rfl, rfl⟩
  simp only [JobStore.pass, hnext, ok_bind, Job.execute, pure_eq_ok]

/-- **No pass fails.** -/
lemma FollowsTrace.pass_ok (hmem : ZeroFilled mem) (h : FollowsTrace lines s trace)
    (hrunning : s.state file = .Running job) {env : JobEnvironment} (henv : env.mem = mem)
    (filename : CString) : ∃ status job',
      s.shared.pass env filename file job = .ok (status, job', s.shared.after file job') := by
  subst henv
  have hfile := h.files file
  rw [hrunning] at hfile
  obtain ⟨todo, hlines, hwell, hinput, hout, houtput⟩ := hfile
  cases todo with
  | nil =>
      obtain ⟨job', hpass, -⟩ := pass_eof env filename s.shared hinput file
      exact ⟨_, _, hpass⟩
  | cons line todo =>
      obtain ⟨job', hpass, -⟩ := pass_line hmem filename h.holds (hwell line (by simp)) hinput file
      exact ⟨_, _, hpass⟩

/-- **Every step follows a trace**, by one line more if a line is executed. -/
lemma FollowsTrace.step (hmem : ZeroFilled mem) (hfiles : HaveLines files entries lines)
    (h : FollowsTrace lines s trace) (hstep : ItemStep (getFile mem dir files) entries s s') :
    ∃ trace', FollowsTrace lines s' trace' := by
  cases hstep with
  | @start file job store hentry huntouched hstart =>
      obtain ⟨entry, hentry, haccept⟩ := hentry
      obtain rfl := acceptEntry_eq_some.mp haccept
      obtain ⟨input, filename, hfile, hopen⟩ := hstart
      obtain ⟨rfl, rfl⟩ := Prod.mk.inj hopen
      obtain ⟨hinput, hwell⟩ := hfiles file hentry
      have hnone := h.files file
      rw [huntouched] at hnone
      have hempty : outputIn file [] trace = [] := outputIn_eq_nil hnone.1
      refine ⟨trace, h.set h.holds ⟨lines file, ?_, hwell, ?_, ?_, ?_⟩ (fun _ _ => rfl)
        (fun _ _ => rfl) fun file' hne => JobStore.output_withOutput_of_ne hne _ _⟩
      · rw [hnone.1, List.nil_append]
      · exact Option.some.inj (hfile.symm.trans hinput)
      · exact hempty.symm
      · rw [JobStore.output_withOutput_self, hempty]
  | @work file job job' store hrunning hwork =>
      obtain ⟨env, filename, status, job₁, rfl, hpass, ⟨rfl, hjob⟩ | ⟨-, hnone⟩⟩ := hwork
      · obtain rfl := Option.some.inj hjob
        have hfile := h.files file
        rw [hrunning] at hfile
        obtain ⟨todo, hlines, hwell, hinput, hout, houtput⟩ := hfile
        cases todo with
        | nil =>
            obtain ⟨job₂, hend, -⟩ := pass_eof env filename s.shared hinput file
            rw [hpass] at hend
            cases hend
        | cons line todo =>
            obtain ⟨job₂, hline, hinput', hout', hholds'⟩ :=
              pass_line hmem filename h.holds (hwell line (by simp)) hinput file
            rw [hpass] at hline
            obtain ⟨rfl, rfl⟩ : job' = job₂ ∧ store = s.shared.after file job₂ := by
              simpa using hline
            refine ⟨trace ++ [(file, line)], h.set ?_ ⟨todo, ?_, ?_, hinput', ?_, ?_⟩
              (fun _ hne => linesIn_snoc_of_ne hne) (fun _ hne => outputIn_snoc_of_ne hne)
              fun file' hne => JobStore.output_after_of_ne hne _ _⟩
            · rw [contentsAfter_snoc]
              exact hholds'
            · rw [linesIn_snoc_self, hlines, List.append_assoc]
              rfl
            · exact fun l hl => hwell l (List.mem_cons_of_mem _ hl)
            · rw [outputIn_snoc_self, hout', hout]
            · rw [JobStore.output_after_self, outputIn_snoc_self, hout', hout]
      · cases hnone
  | @finish file job store hrunning hwork =>
      obtain ⟨env, filename, status, job₁, rfl, hpass, ⟨-, hjob⟩ | ⟨rfl, -⟩⟩ := hwork
      · cases hjob
      · have hfile := h.files file
        rw [hrunning] at hfile
        obtain ⟨todo, hlines, hwell, hinput, hout, houtput⟩ := hfile
        cases todo with
        | nil =>
            obtain ⟨job₂, hend, hht, hout'⟩ := pass_eof env filename s.shared hinput file
            rw [hpass] at hend
            obtain ⟨rfl, rfl⟩ : job₁ = job₂ ∧ store = s.shared.after file job₂ := by
              simpa using hend
            refine ⟨trace, h.set ?_ ⟨?_, ?_⟩ (fun _ _ => rfl) (fun _ _ => rfl)
              fun file' hne => JobStore.output_after_of_ne hne _ _⟩
            · rw [JobStore.after_ht, hht]
              exact h.holds
            · rw [hlines, List.append_nil]
            · rw [JobStore.output_after_self, hout', hout]
        | cons line todo =>
            obtain ⟨job₂, hline, -⟩ :=
              pass_line hmem filename h.holds (hwell line (by simp)) hinput file
            rw [hpass] at hline
            simp at hline

/-- All along a run of the jobs. -/
lemma FollowsTrace.run (hmem : ZeroFilled mem) (hfiles : HaveLines files entries lines)
    (h : Reachable (ItemStep (getFile mem dir files) entries) (Items.initial .initial) s) :
    ∃ trace, FollowsTrace lines s trace :=
  h.invariant (fun s => ∃ trace, FollowsTrace lines s trace) ⟨[], .initial lines⟩
    fun _ _ ⟨_, hfollows⟩ hstep => hfollows.step hmem hfiles hstep

/-! ## Bringing the threads to an end -/

section Threads

variable {ι : Type} [DecidableEq ι] {s : Pool ι CString (JobFile dir) Job JobStore}

/-- The jobs of a pool follow a trace. -/
lemma exists_followsTrace (hmem : ZeroFilled mem) (hnodup : entries.Nodup)
    (hfiles : HaveLines files entries lines)
    (h : Reachable (PoolStep (getFile mem dir files)) (Pool.initial entries .initial) s) :
    ∃ trace, FollowsTrace lines s.items trace :=
  FollowsTrace.run hmem hfiles (Pool.items_reachable (nodup_acceptEntry hnodup) h)

/-- A thread at work has a job that is running. -/
lemma items_state_working
    (h : Reachable (PoolStep (getFile mem dir files)) (Pool.initial entries .initial) s)
    (hnodup : entries.Nodup) {i : ι} (hpc : s.pc i = .Working file job) :
    s.items.state file = .Running job := by
  have hinv := Pool.Inv.run (nodup_acceptEntry hnodup) h
  exact Pool.items_state_with ((hinv.owner i file).mp (congrArg PoolPc.item hpc)) hpc rfl

/-- On well-formed files a thread at work can go on. -/
lemma exists_pass (hmem : ZeroFilled mem) (hnodup : entries.Nodup)
    (hfiles : HaveLines files entries lines)
    (h : Reachable (PoolStep (getFile mem dir files)) (Pool.initial entries .initial) s) {i : ι}
    (hpc : s.pc i = .Working file job) (env : JobEnvironment) (henv : env.mem = mem)
    (filename : CString) : ∃ result, s.shared.pass env filename file job = .ok result := by
  obtain ⟨trace, hfollows⟩ := exists_followsTrace hmem hnodup hfiles h
  obtain ⟨status, job', hpass⟩ :=
    hfollows.pass_ok hmem (items_state_working h hnodup hpc) henv filename
  exact ⟨_, hpass⟩

/-- **Well-formed files can be worked off**: from every state in which no thread has given up there is a
run to one in which all have come to the end of the directory. -/
lemma exists_run_exited [Fintype ι] (hmem : ZeroFilled mem) (hnodup : entries.Nodup)
    (hfiles : HaveLines files entries lines)
    (h : Reachable (PoolStep (getFile mem dir files)) (Pool.initial entries .initial) s)
    (hnone : ∀ i file, s.pc i ≠ .GivenUp file) :
    ∃ s', Reachable (PoolStep (getFile mem dir files)) s s' ∧ ∀ i, s'.pc i = .Exited := by
  have hentries : (entries.filterMap (acceptEntry dir)).Nodup := nodup_acceptEntry hnodup
  refine Pool.exists_run_exited (getFile_bounded mem dir files) hentries ?_ ?_ h hnone
  · intro s i file h hpc
    obtain ⟨entry, hentry, haccept⟩ :=
      (Pool.Inv.run hentries h).mem_entries (congrArg PoolPc.item hpc)
    rw [← acceptEntry_eq_some.mp haccept] at hentry
    exact ⟨_, _, _, file.name, (hfiles file hentry).1, rfl⟩
  · intro s i file job h hpc
    set env : JobEnvironment := ⟨mem, fun _ => [], fun _ => false, 0, dir⟩ with henv
    obtain ⟨result, hpass⟩ := exists_pass hmem hnodup hfiles h hpc env rfl file.name
    obtain ⟨next, hnext⟩ := getFile_works rfl hpass
    exact ⟨result.2.2, next, hnext⟩

/-- **When all threads have come to the end** every job is finished. -/
lemma finished_of_exited [Nonempty ι] (hnodup : entries.Nodup)
    (h : Reachable (PoolStep (getFile mem dir files)) (Pool.initial entries .initial) s)
    (hexited : ∀ i, s.pc i = .Exited) (hfile : file.name ∈ entries) : s.fate file = .Finished := by
  have hinv := Pool.Inv.run (nodup_acceptEntry hnodup) h
  have hgone : ∀ i, (s.pc i).Gone := fun i => by rw [hexited i]; trivial
  rcases hinv.shared_out hgone hfile (acceptEntry_eq_some.mpr rfl) with hfinished | ⟨i, hi⟩ | hall
  · exact hfinished
  · rw [hexited i] at hi
    cases hi
  · obtain ⟨i⟩ := ‹Nonempty ι›
    obtain ⟨file', hi⟩ := hall i
    rw [hexited i] at hi
    cases hi

end Threads

/-! ## Two threads and two jobs -/

/-- What the two jobs do, each with a key of its own. -/
def twoLines (key value key' : Str) (file : JobFile (.lit "jobs")) : List KeyedLine :=
  if file = soloFile then
    [⟨.Write [(key, value)], trivial⟩, ⟨.Read [key], trivial⟩]
  else if file = otherFile then
    [⟨.Read [key'], trivial⟩, ⟨.Delete [key'], trivial⟩]
  else []

/-- Their files. -/
def twoFiles (path : List Byte) : Option Input :=
  if path = soloFile.inPath.val.bytes then some (text "WRITE [(a,1)]\nREAD [a]\n")
  else if path = otherFile.inPath.val.bytes then some (text "READ [b]\nDELETE [b]\n")
  else none

lemma two_entries (file : JobFile (.lit "jobs")) :
    file.name ∈ [CString.lit "a.job", CString.lit "b.job"] ↔ file = soloFile ∨ file = otherFile := by
  rw [List.mem_cons, List.mem_singleton]
  constructor
  · rintro (hname | hname)
    · exact Or.inl (JobFile.ext_name hname)
    · exact Or.inr (JobFile.ext_name hname)
  · rintro (rfl | rfl)
    · exact Or.inl rfl
    · exact Or.inr rfl

section Lines

variable {key value key' : Str} {file file' : JobFile (.lit "jobs")}

lemma twoLines_eq_nil (hfile : file.name ∉ [CString.lit "a.job", CString.lit "b.job"]) :
    twoLines key value key' file = [] := by
  rw [two_entries, not_or] at hfile
  rw [twoLines, if_neg hfile.1, if_neg hfile.2]

/-- Each job names its own key only. -/
lemma twoLines_keys {line : KeyedLine} (hline : line ∈ twoLines key value key' file) {name : CString}
    (hname : name ∈ line.val.keys) :
    file = soloFile ∧ name = key.val ∨ file = otherFile ∧ name = key'.val := by
  by_cases hsolo : file = soloFile
  · rw [twoLines, if_pos hsolo] at hline
    refine Or.inl ⟨hsolo, ?_⟩
    rcases List.mem_pair.mp hline with rfl | rfl
    · exact List.mem_singleton.mp hname
    · exact List.mem_singleton.mp hname
  · rw [twoLines, if_neg hsolo] at hline
    by_cases hother : file = otherFile
    · rw [if_pos hother] at hline
      refine Or.inr ⟨hother, ?_⟩
      rcases List.mem_pair.mp hline with rfl | rfl
      · exact List.mem_singleton.mp hname
      · exact List.mem_singleton.mp hname
    · rw [if_neg hother] at hline
      cases hline

lemma twoLines_disjoint (hkey : key.val ≠ key'.val) (hne : file ≠ file') :
    ∀ line ∈ twoLines key value key' file, ∀ line' ∈ twoLines key value key' file',
      ∀ name ∈ line.val.keys, name ∉ line'.val.keys := by
  intro line hline line' hline' name hname hname'
  rcases twoLines_keys hline hname with ⟨rfl, rfl⟩ | ⟨rfl, rfl⟩
  · rcases twoLines_keys hline' hname' with ⟨rfl, -⟩ | ⟨-, heq⟩
    · exact hne rfl
    · exact hkey heq
  · rcases twoLines_keys hline' hname' with ⟨-, heq⟩ | ⟨rfl, -⟩
    · exact hkey heq.symm
    · exact hne rfl

end Lines

lemma two_haveLines : HaveLines twoFiles [.lit "a.job", .lit "b.job"]
    fun file => (twoLines (.lit "a") (.lit "1") (.lit "b") file).map Subtype.val := by
  intro file hfile
  rcases (two_entries file).mp hfile with rfl | rfl
  · exact ⟨by decide +kernel, by decide +kernel⟩
  · exact ⟨by decide +kernel, by decide +kernel⟩

/-- Both threads have a job under way, and then come to the end of the directory. -/
lemma two_jobs_run : ∃ (s₁ s₂ : Pool Bool CString (JobFile (.lit "jobs")) Job JobStore) (job job' : Job),
    Reachable (PoolStep (getFile (fun _ => none) (.lit "jobs") twoFiles))
      (Pool.initial [.lit "a.job", .lit "b.job"] .initial) s₁ ∧
    s₁.pc true = .Working soloFile job ∧ s₁.pc false = .Working otherFile job' ∧
    Reachable (PoolStep (getFile (fun _ => none) (.lit "jobs") twoFiles)) s₁ s₂ ∧
    ∀ i, s₂.pc i = .Exited := by
  have hzero : ZeroFilled fun _ => none := fun _ => rfl
  have haccept : acceptEntry (.lit "jobs") (.lit "a.job") = some soloFile :=
    acceptEntry_eq_some.mpr rfl
  have haccept' : acceptEntry (.lit "jobs") (.lit "b.job") = some otherFile :=
    acceptEntry_eq_some.mpr rfl
  have hlock : Reachable (PoolStep (getFile (fun _ => none) (.lit "jobs") twoFiles))
      (Pool.initial [.lit "a.job", .lit "b.job"] .initial) _ :=
    (Reachable.refl _).tail (.lock true rfl rfl)
  have hunlock := (hlock.tail (.take true rfl rfl haccept)).tail (.unlock true rfl)
  have hlock' := hunlock.tail (.lock false rfl rfl)
  have hunlock' := (hlock'.tail (.take false rfl rfl haccept')).tail (.unlock false rfl)
  have hopen := hunlock'.tail (.start true rfl ⟨_, .lit "a.job", rfl, rfl⟩)
  have hopen' := hopen.tail (.start false rfl ⟨_, .lit "b.job", rfl, rfl⟩)
  obtain ⟨s₂, hrun, hexited⟩ := exists_run_exited hzero (by decide) two_haveLines hopen' (by
    intro i file
    cases i with
    | true => exact nofun
    | false => exact nofun)
  exact ⟨_, s₂, _, _, hopen', rfl, rfl, hrun, hexited⟩

/-! ## Coming to an end -/

section Threads

variable {ι : Type} [DecidableEq ι] {s : Pool ι CString (JobFile dir) Job JobStore}
  {store : JobStore}

/-- **The job threads come to an end.**  For any number of threads, any directory and any contents of its
files, well formed or not, no run of the threads has more steps than three for each thread and, for each
entry, one, or five more than the bytes of its file.  And as long as some thread is not gone, one of them
can take a step, unless a job has come to a command that fails. -/
theorem job_threads_finish [Fintype ι] (hnodup : entries.Nodup) :
    (∀ n, RunOf (PoolStep (getFile mem dir files)) n (Pool.initial entries store) s →
      n ≤ (getFile mem dir files).streamWeight
        (fun file => ((files file.inPath.val.bytes).getD []).length) entries + 3 * Fintype.card ι) ∧
    (Reachable (PoolStep (getFile mem dir files)) (Pool.initial entries store) s →
      ∀ i, ¬ (s.pc i).Gone → (∃ s', PoolStep (getFile mem dir files) s s') ∨
        ∃ j file job, s.pc j = .Working file job ∧ ∀ env filename, env.mem = mem →
          ∃ fault, s.shared.pass env filename file job = .error fault) := by
  constructor
  · intro n hrun
    exact Pool.steps_le_weight (getFile_bounded mem dir files) hrun
  · intro h i hi
    have hinv := Pool.Inv.run (nodup_acceptEntry hnodup) h
    by_cases hfails : ∃ j file job, s.pc j = .Working file job ∧ ∀ env filename, env.mem = mem →
        ∃ fault, s.shared.pass env filename file job = .error fault
    · exact Or.inr hfails
    · left
      refine hinv.exists_step ?_ hi
      intro j file job hpc
      by_contra hstuck
      refine hfails ⟨j, file, job, hpc, ?_⟩
      intro env filename henv
      cases hpass : s.shared.pass env filename file job with
      | error fault => exact ⟨fault, rfl⟩
      | ok result =>
          obtain ⟨next, hnext⟩ := getFile_works henv hpass
          exact absurd ⟨result.2.2, next, hnext⟩ hstuck

/-- Two threads with a job each.  With both at work one can take a step, and they come to their end after
59 steps at most: three for each thread, five for each entry, and the bytes of the files. -/
theorem job_threads_finish_two :
    ∃ (s₁ s₂ : Pool Bool CString (JobFile (.lit "jobs")) Job JobStore) (n : ℕ),
      (∃ job job', s₁.pc true = .Working soloFile job ∧ s₁.pc false = .Working otherFile job') ∧
      (∃ s', PoolStep (getFile (fun _ => none) (.lit "jobs") twoFiles) s₁ s') ∧
      RunOf (PoolStep (getFile (fun _ => none) (.lit "jobs") twoFiles)) n
        (Pool.initial [.lit "a.job", .lit "b.job"] .initial) s₂ ∧
      (∀ i, s₂.pc i = .Exited) ∧ n ≤ 59 := by
  have hzero : ZeroFilled fun _ => none := fun _ => rfl
  have hnodup : [CString.lit "a.job", CString.lit "b.job"].Nodup := by decide
  obtain ⟨s₁, s₂, job, job', hreach, htrue, hfalse, hrun, hexited⟩ := two_jobs_run
  obtain ⟨n, hsteps⟩ := (hreach.trans hrun).exists_runOf
  refine ⟨s₁, s₂, n, ⟨job, job', htrue, hfalse⟩, ?_, hsteps, hexited, ?_⟩
  · rcases (job_threads_finish hnodup).2 hreach true (by rw [htrue]; exact id) with
      hstep | ⟨j, file, job, hpc, hfails⟩
    · exact hstep
    · obtain ⟨result, hpass⟩ := exists_pass hzero hnodup two_haveLines hreach hpc
        calmEnvironment rfl file.name
      obtain ⟨fault, hfault⟩ := hfails calmEnvironment file.name rfl
      rw [hpass] at hfault
      cases hfault
  · exact (job_threads_finish hnodup).1 n hsteps

end Threads

/-! ## The trace -/

section Threads

variable {ι : Type} [DecidableEq ι] {s : Pool ι CString (JobFile dir) Job JobStore}

/-- **The job threads follow a trace.**  For any number of threads on any directory whose job files are
well formed, from an empty store, whichever files cannot be opened, in every state that an interleaving
of the threads leads to there is an order of lines such that

* the table holds what these lines lead to, executed one after the other as whole commands;
* the lines of each job in it are the first of its file, in their order; of a finished job they are all
  of them, and a job that was given up, or not opened yet, has none, and no output file;
* the output file of every job that has been opened holds what its lines put out there;

and the next pass of a thread at work does not fail. -/
theorem job_phase_trace (hmem : ZeroFilled mem) (hnodup : entries.Nodup)
    {lines : JobFile dir → List Line} (hfiles : HaveLines files entries lines)
    (h : Reachable (PoolStep (getFile mem dir files)) (Pool.initial entries .initial) s) :
    ∃ trace : List (JobFile dir × Line), s.shared.ht.Holds (contentsAfter [] trace) ∧
      (∀ file, linesIn file trace <+: lines file) ∧
      (∀ file, s.fate file = .Finished → linesIn file trace = lines file ∧
        s.shared.output file = some (outputIn file [] trace)) ∧
      (∀ file, s.items.state file = .Untouched →
        linesIn file trace = [] ∧ s.shared.output file = none) ∧
      ∀ i file job, s.pc i = .Working file job →
        s.shared.output file = some (outputIn file [] trace) ∧
        ∀ env filename, env.mem = mem →
          ∃ result, s.shared.pass env filename file job = .ok result := by
  obtain ⟨trace, hfollows⟩ := exists_followsTrace hmem hnodup hfiles h
  refine ⟨trace, hfollows.holds, ?_, ?_, ?_, ?_⟩
  · intro file
    have hfile := hfollows.files file
    cases hstate : s.items.state file with
    | Untouched =>
        rw [hstate] at hfile
        rw [hfile.1]
        exact List.nil_prefix
    | Running job =>
        rw [hstate] at hfile
        obtain ⟨todo, hlines, -⟩ := hfile
        rw [hlines]
        exact List.prefix_append _ _
    | Done =>
        rw [hstate] at hfile
        rw [hfile.1]
  · intro file hfinished
    have hfile := hfollows.files file
    rwa [Pool.items_state_finished hfinished] at hfile
  · intro file huntouched
    have hfile := hfollows.files file
    rwa [huntouched] at hfile
  · intro i file job hpc
    have hfile := hfollows.files file
    rw [items_state_working h hnodup hpc] at hfile
    obtain ⟨todo, -, -, -, -, houtput⟩ := hfile
    exact ⟨houtput, fun env filename henv => exists_pass hmem hnodup hfiles h hpc env henv filename⟩

/-- With both threads at work each of them can execute its next line; and when they have come to the end
there is an order of their four lines that the table and the two output files are the outcome of. -/
theorem job_phase_trace_two :
    ∃ s₁ s₂ : Pool Bool CString (JobFile (.lit "jobs")) Job JobStore,
      (∃ job job', s₁.pc true = .Working soloFile job ∧ s₁.pc false = .Working otherFile job' ∧
        (∃ result, s₁.shared.pass calmEnvironment (.lit "a.job") soloFile job = .ok result) ∧
        ∃ result, s₁.shared.pass calmEnvironment (.lit "b.job") otherFile job' = .ok result) ∧
      (∀ i, s₂.pc i = .Exited) ∧ ∃ trace : List (JobFile (.lit "jobs") × Line),
        s₂.shared.ht.Holds (contentsAfter [] trace) ∧
        linesIn soloFile trace = [.Write [(.lit "a", .lit "1")], .Read [.lit "a"]] ∧
        linesIn otherFile trace = [.Read [.lit "b"], .Delete [.lit "b"]] ∧
        s₂.shared.output soloFile = some (outputIn soloFile [] trace) ∧
        s₂.shared.output otherFile = some (outputIn otherFile [] trace) := by
  have hzero : ZeroFilled fun _ => none := fun _ => rfl
  have hnodup : [CString.lit "a.job", CString.lit "b.job"].Nodup := by decide
  obtain ⟨s₁, s₂, job, job', hreach, htrue, hfalse, hrun, hexited⟩ := two_jobs_run
  obtain ⟨_, -, -, -, -, hpasses⟩ := job_phase_trace hzero hnodup two_haveLines hreach
  obtain ⟨trace, hholds, -, hfinished, -⟩ :=
    job_phase_trace hzero hnodup two_haveLines (hreach.trans hrun)
  have hsolo := hfinished soloFile (finished_of_exited hnodup (hreach.trans hrun) hexited
    ((two_entries _).mpr (Or.inl rfl)))
  have hother := hfinished otherFile (finished_of_exited hnodup (hreach.trans hrun) hexited
    ((two_entries _).mpr (Or.inr rfl)))
  refine ⟨s₁, s₂, ⟨job, job', htrue, hfalse, ?_, ?_⟩, hexited, trace, hholds, hsolo.1, hother.1,
    hsolo.2, hother.2⟩
  · exact (hpasses true soloFile job htrue).2 calmEnvironment (.lit "a.job") rfl
  · exact (hpasses false otherFile job' hfalse).2 calmEnvironment (.lit "b.job") rfl

end Threads

/-! ## Jobs on disjoint keys -/

section Keyed

variable {J : Type} {file : J} {m : DistinctContents}

/-- A trace of lines that all name keys. -/
def plainTrace (trace : List (J × KeyedLine)) : List (J × Line) :=
  trace.map fun p => (p.1, p.2.val)

lemma exists_plainTrace {trace : List (J × Line)} (h : ∀ p ∈ trace, p.2.Keyed) :
    ∃ keyed : List (J × KeyedLine), plainTrace keyed = trace := by
  induction trace with
  | nil => exact ⟨[], rfl⟩
  | cons p trace ih =>
      obtain ⟨keyed, hkeyed⟩ := ih fun q hq => h q (List.mem_cons_of_mem _ hq)
      refine ⟨(p.1, ⟨p.2, h p (by simp)⟩) :: keyed, ?_⟩
      rw [plainTrace, List.map_cons]
      exact congrArg (p :: ·) hkeyed

lemma contentsAfter_plainTrace (trace : List (J × KeyedLine)) :
    contentsAfter m.val (plainTrace trace) = (keyedLines.after m trace).val := by
  induction trace generalizing m with
  | nil => rfl
  | cons p trace ih =>
      show contentsAfter (keyedLines.step p.2 m).1.val (plainTrace trace) = _
      rw [ih]
      rfl

variable [DecidableEq J]

lemma outputIn_plainTrace (trace : List (J × KeyedLine)) :
    outputIn file m.val (plainTrace trace) = keyedLines.outputOf file m trace := by
  induction trace generalizing m with
  | nil => rfl
  | cons p trace ih =>
      show _ ++ outputIn file (keyedLines.step p.2 m).1.val (plainTrace trace) = _
      rw [ih]
      rfl

lemma linesIn_plainTrace (trace : List (J × KeyedLine)) :
    linesIn file (plainTrace trace) = (LocalCommands.program file trace).map Subtype.val := by
  induction trace with
  | nil => rfl
  | cons p trace ih =>
      by_cases hp : p.1 = file
      · subst hp
        rw [LocalCommands.program_cons_self, List.map_cons, ← ih]
        simp [linesIn, plainTrace]
      · rw [LocalCommands.program_cons_of_ne hp, ← ih]
        simp [linesIn, plainTrace, hp]

end Keyed

section Independent

/-- The empty store. -/
def noContents : DistinctContents := ⟨[], List.nodup_nil⟩

variable {ι : Type} [DecidableEq ι] {s : Pool ι CString (JobFile dir) Job JobStore}
  {lines : JobFile dir → List KeyedLine}

/-- **Threads that have all reached the end of the directory** have followed a trace that has all lines
of each job, and nothing else. -/
lemma exists_whole_trace [Nonempty ι] (hmem : ZeroFilled mem) (hnodup : entries.Nodup)
    (hfiles : HaveLines files entries fun file => (lines file).map Subtype.val)
    (hnone : ∀ file : JobFile dir, file.name ∉ entries → lines file = [])
    (h : Reachable (PoolStep (getFile mem dir files)) (Pool.initial entries .initial) s)
    (hexited : ∀ i, s.pc i = .Exited) : ∃ trace : List (JobFile dir × KeyedLine),
      s.shared.ht.Holds (keyedLines.after noContents trace).val ∧
      (∀ file, LocalCommands.program file trace = lines file) ∧
      ∀ file : JobFile dir, file.name ∈ entries →
        s.shared.output file = some (keyedLines.outputOf file noContents trace) := by
  have hinv := Pool.Inv.run (nodup_acceptEntry hnodup) h
  obtain ⟨trace, hfollows⟩ := exists_followsTrace hmem hnodup hfiles h
  have hdone : ∀ file : JobFile dir, file.name ∈ entries → s.items.state file = .Done := fun _ hfile =>
    Pool.items_state_finished (finished_of_exited hnodup h hexited hfile)
  have hlinesIn : ∀ file, linesIn file trace = (lines file).map Subtype.val := by
    intro file
    have hfile := hfollows.files file
    by_cases hmem : file.name ∈ entries
    · rw [hdone file hmem] at hfile
      exact hfile.1
    · have hlisted : s.items.state file = .Untouched := by
        obtain ⟨handed, hentries, hhanded⟩ := hinv.stream
        have hfate : s.fate file = .Listed := by
          by_contra hnot
          obtain ⟨entry, hentry, haccept⟩ := (hhanded file).mp hnot
          refine hmem ?_
          rw [acceptEntry_eq_some.mp haccept, hentries]
          exact List.mem_append_left _ hentry
        simp only [Pool.items, hfate]
      rw [hlisted] at hfile
      rw [hfile.1, hnone file hmem]
      rfl
  have hkeyed : ∀ p ∈ trace, p.2.Keyed := by
    intro p hp
    have hline : p.2 ∈ linesIn p.1 trace := List.mem_map.mpr ⟨p, by simp [hp], rfl⟩
    rw [hlinesIn] at hline
    obtain ⟨line, -, hval⟩ := List.mem_map.mp hline
    exact hval ▸ line.prop
  obtain ⟨keyed, rfl⟩ := exists_plainTrace hkeyed
  refine ⟨keyed, ?_, ?_, ?_⟩
  · rw [← contentsAfter_plainTrace]
    exact hfollows.holds
  · intro file
    refine List.map_injective_iff.mpr Subtype.val_injective ?_
    rw [← linesIn_plainTrace, hlinesIn]
  · intro file hfile
    have hout := hfollows.files file
    rw [hdone file hfile] at hout
    rw [← outputIn_plainTrace]
    exact hout.2

/-- **The outcome does not depend on the threads.**  Take any directory whose job files consist of
well-formed `WRITE`, `READ` and `DELETE` lines, no two jobs naming a key in common, and run it twice: with
any numbers of threads, one at least, with the directory listed in any order, and with any interleaving,
every file being opened.  When all threads are gone, each output file holds the same both times, which is
what its job writes when it is run alone on an empty store, and every key reads the same. -/
theorem job_phase_independent {ι' : Type} [DecidableEq ι'] [Nonempty ι] [Nonempty ι']
    {mem' : ℕ → Ptr} (hmem : ZeroFilled mem) (hmem' : ZeroFilled mem') {entries' : List CString}
    (hnodup : entries.Nodup) (hperm : entries'.Perm entries)
    (hfiles : HaveLines files entries fun file => (lines file).map Subtype.val)
    (hnone : ∀ file : JobFile dir, file.name ∉ entries → lines file = [])
    (hdisjoint : ∀ file file', file ≠ file' → ∀ line ∈ lines file, ∀ line' ∈ lines file',
      ∀ key ∈ line.val.keys, key ∉ line'.val.keys)
    {s' : Pool ι' CString (JobFile dir) Job JobStore}
    (h : Reachable (PoolStep (getFile mem dir files)) (Pool.initial entries .initial) s)
    (h' : Reachable (PoolStep (getFile mem' dir files)) (Pool.initial entries' .initial) s')
    (hexited : ∀ i, s.pc i = .Exited) (hexited' : ∀ i, s'.pc i = .Exited) :
    (∀ file : JobFile dir, file.name ∈ entries → ∀ env filename activeBackups,
      ZeroFilled env.mem → ∃ job, (Job.start (fileOf (lines file)) .createHashTable filename
        activeBackups).runJob env = .ok (0, job) ∧
      s.shared.output file = some job.out ∧ s'.shared.output file = some job.out) ∧
    ∀ key, s.shared.ht.readPair key = s'.shared.ht.readPair key := by
  have hsame : ∀ {name}, name ∈ entries' ↔ name ∈ entries := hperm.mem_iff
  obtain ⟨trace, hholds, hprogram, hout⟩ :=
    exists_whole_trace hmem hnodup hfiles hnone h hexited
  obtain ⟨trace', hholds', hprogram', hout'⟩ :=
    exists_whole_trace hmem' (hperm.nodup_iff.mpr hnodup)
      (fun file hfile => hfiles file (hsame.mp hfile))
      (fun file hfile => hnone file fun hmem => hfile (hsame.mpr hmem)) h' hexited'
  have hseparate : keyedLines.Separate lines := by
    intro file file' hne line hline line' hline' key hkey
    exact hdisjoint file file' hne line hline line' hline' key hkey
  -- in either trace a job puts out what it puts out alone
  have halone : ∀ {trace : List (JobFile dir × KeyedLine)},
      (∀ file, LocalCommands.program file trace = lines file) → ∀ file,
      keyedLines.outputOf file noContents trace = (keyedLines.run noContents (lines file)).2 := by
    intro trace hprogram file
    have hpart : ∀ file, ∀ line ∈ LocalCommands.program file trace, line ∈ lines file :=
      fun file line hline => hprogram file ▸ hline
    rw [(keyedLines.outputOf_separate hseparate hpart file noContents).1, hprogram file]
  constructor
  · intro file hfile env filename activeBackups hzero
    have hwell : ∀ line ∈ lines file, line.val.WellFormed :=
      fun line hline => (hfiles file hfile).2 line.val (List.mem_map_of_mem hline)
    have hempty : HashTable.createHashTable.Holds noContents.val := HashTable.holds_createHashTable
    obtain ⟨job, hrun, hjob⟩ := runJob_alone hzero hempty hwell filename activeBackups
    refine ⟨job, hrun, ?_, ?_⟩
    · rw [hout file hfile, halone hprogram file, hjob]
    · rw [hout' file (hsame.mpr hfile), halone hprogram' file, hjob]
  · exact fun key => hholds.readPair_congr hholds'
      (keyedLines.read_after_eq hseparate hprogram hprogram' noContents key)

/-- Two jobs without a key in common, run by two threads at a time, and by one thread on the directory
listed the other way round. -/
theorem job_phase_independent_two :
    ∃ (s : Pool Bool CString (JobFile (.lit "jobs")) Job JobStore)
      (s' : Pool Unit CString (JobFile (.lit "jobs")) Job JobStore),
      (∀ i, s.pc i = .Exited) ∧ (∀ i, s'.pc i = .Exited) ∧
      s.shared.output soloFile = some (text "[(a,1)]\n") ∧
      s'.shared.output soloFile = some (text "[(a,1)]\n") ∧
      s.shared.output otherFile = some (text "[(b,KVSERROR)]\n[(b,KVSMISSING)]\n") ∧
      s'.shared.output otherFile = some (text "[(b,KVSERROR)]\n[(b,KVSMISSING)]\n") ∧
      ∀ key, s.shared.ht.readPair key = s'.shared.ht.readPair key := by
  have hzero : ZeroFilled fun _ => none := fun _ => rfl
  have hnodup : [CString.lit "a.job", CString.lit "b.job"].Nodup := by decide
  have hswap : [CString.lit "b.job", CString.lit "a.job"].Perm [.lit "a.job", .lit "b.job"] :=
    .swap ..
  obtain ⟨s₁, s, -, -, hreach, -, -, hrun, hexited⟩ := two_jobs_run
  obtain ⟨s', hreach', hexited'⟩ : ∃ s' : Pool Unit CString (JobFile (.lit "jobs")) Job JobStore,
      Reachable (PoolStep (getFile (fun _ => none) (.lit "jobs") twoFiles))
        (Pool.initial [.lit "b.job", .lit "a.job"] .initial) s' ∧ ∀ i, s'.pc i = .Exited :=
    exists_run_exited hzero (hswap.nodup_iff.mpr hnodup)
      (fun file hfile => two_haveLines file (hswap.mem_iff.mp hfile)) (.refl _) fun _ _ => nofun
  obtain ⟨houtputs, hreads⟩ := job_phase_independent hzero hzero hnodup hswap two_haveLines
    (fun file => twoLines_eq_nil) (fun file file' => twoLines_disjoint (by decide))
    (hreach.trans hrun) hreach' hexited hexited'
  obtain ⟨job, hjob, hsolo, hsolo'⟩ := houtputs soloFile ((two_entries _).mpr (Or.inl rfl))
    calmEnvironment (.lit "a.job") 0 fun _ => rfl
  obtain ⟨job', hjob', hother, hother'⟩ := houtputs otherFile ((two_entries _).mpr (Or.inr rfl))
    calmEnvironment (.lit "b.job") 0 fun _ => rfl
  have hout : job.out = text "[(a,1)]\n" := by
    obtain ⟨-, rfl⟩ := Prod.mk.inj (Except.ok.inj hjob)
    rfl
  have hout' : job'.out = text "[(b,KVSERROR)]\n[(b,KVSMISSING)]\n" := by
    obtain ⟨-, rfl⟩ := Prod.mk.inj (Except.ok.inj hjob')
    rfl
  rw [hout] at hsolo hsolo'
  rw [hout'] at hother hother'
  exact ⟨s, s', hexited, hexited', hsolo, hsolo', hother, hother', hreads⟩

end Independent

end Kvs
