import Kvs.Server.DirectoryWalk
import Kvs.Server.FreshKeys

/-!
# The phases of a server

`main` starts the job threads, waits in `dispatch_threads` until all of them are gone, then waits for the
children that make backups, and only then creates the manager threads, which serve clients.  So jobs and
sessions take turns: while there are jobs nobody is subscribed to anything, and while there are sessions
nobody writes or deletes a key.

* `server_never_notifies` — whatever the job files contain and whatever clients ask, no message is ever
  sent to a subscriber, and from the first session on the table is never changed.
-/

namespace Kvs

/-- Where `main` is: in front of `pthread_join`, in front of `wait`, or with its managers at work. -/
inductive MainPc where
  | Joining
  | Draining
  | Serving
  deriving DecidableEq

/-- The main thread and its job threads, whose shared state has the table of the server. -/
structure ServerState (ι : Type) (dir : CString) where
  main : MainPc
  jobs : Pool ι CString (JobFile dir) Job JobStore

namespace ServerState

variable {ι : Type} {dir : CString}

/-- The job threads in front of the directory. -/
def initial (entries : List CString) : ServerState ι dir where
  main := .Joining
  jobs := .initial entries .initial

/-- The table of the server. -/
def table (s : ServerState ι dir) : HashTable := s.jobs.shared.ht

/-- The server with another store. -/
def withStore (s : ServerState ι dir) (store : JobStore) : ServerState ι dir :=
  { s with jobs := { s.jobs with shared := store } }

@[simp] lemma withStore_main (s : ServerState ι dir) (store : JobStore) :
    (s.withStore store).main = s.main := rfl

@[simp] lemma withStore_table (s : ServerState ι dir) (store : JobStore) :
    (s.withStore store).table = store.ht := rfl

end ServerState

section Steps

variable {ι : Type} [DecidableEq ι] {mem : ℕ → Ptr} {dir : CString}
  {files : List Byte → Option Input}

/-- One step: of a job thread, of `main`, or of a manager that serves a request, with whatever is in its
key list by then. -/
inductive ServerStep (mem : ℕ → Ptr) (dir : CString) (files : List Byte → Option Input) :
    ServerState ι dir → ServerState ι dir → Prop
  | job {s} {jobs : Pool ι CString (JobFile dir) Job JobStore} :
      PoolStep (getFile mem dir files) s.jobs jobs → ServerStep mem dir files s { s with jobs := jobs }
  | join {s} : s.main = .Joining → (∀ i, (s.jobs.pc i).Gone) →
      ServerStep mem dir files s { s with main := .Draining }
  | drain {s} : s.main = .Draining → 0 < s.jobs.shared.activeBackups → ServerStep mem dir files s
      (s.withStore { s.jobs.shared with activeBackups := s.jobs.shared.activeBackups - 1 })
  | serve {s} : s.main = .Draining → s.jobs.shared.activeBackups = 0 →
      ServerStep mem dir files s { s with main := .Serving }
  | request {s} {session session' : Session} {resultDisconnect : ℤ} {fdNotification : Fd}
      {request : Request} {replies : List (List Byte)} : s.main = .Serving →
      session.store = s.table →
      session.serve resultDisconnect fdNotification request = .ok (session', replies) →
      ServerStep mem dir files s (s.withStore { s.jobs.shared with ht := session'.store })

end Steps

/-! ## Null heads -/

namespace HashTable

variable {mem : ℕ → Ptr} {ht ht' : HashTable}

/-- New nodes are made of memory with null heads. -/
lemma newHeadNull_of_zeroFilled (hmem : ZeroFilled mem) (ht : HashTable) (call : PairCall) :
    NewHeadNull mem ht call := by
  cases call with
  | WritePair key value => exact fun _ _ => hmem _
  | DeletePair key => trivial

lemma HeadsNull.writePair (hmem : ZeroFilled mem) (h : ht.HeadsNull) {key value : CString}
    {sent : List Notification} (hwrite : ht.writePair mem key value = .ok (ht', sent)) :
    ht'.HeadsNull ∧ sent = [] := by
  rcases h.writePair_cases mem key value with ⟨fault, herror, -⟩ | ⟨ht₁, hok, hiff⟩
  · rw [herror] at hwrite
    cases hwrite
  · obtain ⟨rfl, rfl⟩ : ht₁ = ht' ∧ [] = sent := by simpa using hok.symm.trans hwrite
    exact ⟨hiff.mpr (newHeadNull_of_zeroFilled hmem ht _), rfl⟩

lemma HeadsNull.deletePair (h : ht.HeadsNull) {key : CString} {status : ℤ}
    {sent : List Notification} (hdelete : ht.deletePair key = .ok (status, ht', sent)) :
    ht'.HeadsNull ∧ sent = [] := by
  rcases h.deletePair_cases key with ⟨fault, herror, -⟩ | ⟨status₁, ht₁, hok, hheads⟩
  · rw [herror] at hdelete
    cases hdelete
  · obtain ⟨-, rfl, rfl⟩ : status₁ = status ∧ ht₁ = ht' ∧ [] = sent := by
      simpa using hok.symm.trans hdelete
    exact ⟨hheads, rfl⟩

/-- A `WRITE` tells nobody, by induction over its pairs. -/
lemma HeadsNull.kvsWrite (hmem : ZeroFilled mem) {pairs : List (Str × Str)} {ht : HashTable}
    (h : ht.HeadsNull) {sent : List Notification} (hwrite : ht.kvsWrite mem pairs = .ok (ht', sent)) :
    ht'.HeadsNull ∧ sent = [] := by
  induction pairs generalizing ht sent with
  | nil =>
      obtain ⟨rfl, rfl⟩ : ht = ht' ∧ [] = sent := by simpa [HashTable.kvsWrite] using hwrite
      exact ⟨h, rfl⟩
  | cons p pairs ih =>
      obtain ⟨⟨ht₁, sent₁⟩, hfirst, hwrite⟩ := bind_eq_ok.mp hwrite
      obtain ⟨⟨ht₂, sent₂⟩, hrest, hwrite⟩ := bind_eq_ok.mp hwrite
      obtain ⟨rfl, rfl⟩ : ht₂ = ht' ∧ sent₁ ++ sent₂ = sent := by simpa using hwrite
      obtain ⟨h₁, rfl⟩ := h.writePair hmem hfirst
      exact ih h₁ hrest

/-- Nor does a `DELETE`. -/
lemma HeadsNull.deleteRecords {keys : List Str} {ht : HashTable} {aux aux' : Bool}
    (h : ht.HeadsNull) {out : List Byte} {sent : List Notification}
    (hdelete : ht.deleteRecords aux keys = .ok (ht', aux', out, sent)) :
    ht'.HeadsNull ∧ sent = [] := by
  induction keys generalizing ht aux out sent with
  | nil =>
      obtain ⟨rfl, -, -, rfl⟩ : ht = ht' ∧ aux = aux' ∧ [] = out ∧ [] = sent := by
        simpa [HashTable.deleteRecords] using hdelete
      exact ⟨h, rfl⟩
  | cons key keys ih =>
      obtain ⟨⟨status, ht₁, sent₁⟩, hfirst, hdelete⟩ := bind_eq_ok.mp hdelete
      obtain ⟨⟨ht₂, aux₂, out₂, sent₂⟩, hrest, hdelete⟩ := bind_eq_ok.mp hdelete
      obtain ⟨rfl, rfl, -, rfl⟩ : ht₂ = ht' ∧ aux₂ = aux' ∧ _ ∧ sent₁ ++ sent₂ = sent := by
        simpa using hdelete
      obtain ⟨h₁, rfl⟩ := h.deletePair hfirst
      exact ih h₁ hrest

lemma HeadsNull.kvsDelete {keys : List Str} (h : ht.HeadsNull) {out : List Byte}
    {sent : List Notification} (hdelete : ht.kvsDelete keys = .ok (ht', out, sent)) :
    ht'.HeadsNull ∧ sent = [] := by
  obtain ⟨⟨ht₁, aux, records, sent₁⟩, hrecords, hdelete⟩ := bind_eq_ok.mp hdelete
  obtain ⟨rfl, -, rfl⟩ : ht₁ = ht' ∧ _ ∧ sent₁ = sent := by simpa using hdelete
  exact h.deleteRecords hrecords

lemma HeadsNull.head_of_lookup (h : ht.HeadsNull) {key : CString} {keyNode : KeyNode}
    (hlookup : ht.lookup key = some keyNode) : keyNode.head = none := by
  obtain ⟨index, -, hnode⟩ := tableIndex_of_lookup hlookup
  exact h index keyNode (KeyedList.mem_of_find hnode)

/-- **Nobody gets onto a null list**: the server reads through it. -/
lemma HeadsNull.kvsSubscribe_of_some (h : ht.HeadsNull) {key : CString}
    (hkey : (ht.lookup key).isSome) (fd : Fd) : ht.kvsSubscribe key fd = .error .nullDeref := by
  obtain ⟨keyNode, hlookup⟩ := Option.isSome_iff_exists.mp hkey
  obtain ⟨index, hindex, hnode⟩ := tableIndex_of_lookup hlookup
  rw [kvsSubscribe_of_find hindex hnode, appendListNode, h.head_of_lookup hlookup, Heap.append_none]
  rfl

/-- A subscription that does not fail changes nothing. -/
lemma HeadsNull.kvsSubscribe (h : ht.HeadsNull) {key : CString} {fd : Fd} {status : ℤ}
    (hsubscribe : ht.kvsSubscribe key fd = .ok (status, ht')) : ht' = ht := by
  cases hlookup : ht.lookup key with
  | some keyNode =>
      rw [h.kvsSubscribe_of_some (by rw [hlookup]; rfl)] at hsubscribe
      cases hsubscribe
  | none =>
      obtain ⟨⟨status₁, ht₁⟩, hwrite, hresult⟩ := bind_eq_ok.mp hsubscribe
      obtain ⟨index, hindex, -⟩ := bind_eq_ok.mp hwrite
      rw [lookup_eq hindex] at hlookup
      rw [kvsSubscribe_of_not_find hindex hlookup] at hsubscribe
      exact (Prod.mk.inj (Except.ok.inj hsubscribe)).2.symm

lemma HeadsNull.kvsUnsubscribe (h : ht.HeadsNull) {key : CString} {fd : Fd} {status : ℤ}
    (hunsubscribe : ht.kvsUnsubscribe key fd = .ok (status, ht')) : ht' = ht := by
  cases hlookup : ht.lookup key with
  | some keyNode =>
      rw [kvsUnsubscribe_of_some hlookup (h.head_of_lookup hlookup)] at hunsubscribe
      exact (Prod.mk.inj (Except.ok.inj hunsubscribe)).2.symm
  | none =>
      rcases kvsUnsubscribe_of_none hlookup fd with hok | herror
      · rw [hok] at hunsubscribe
        exact (Prod.mk.inj (Except.ok.inj hunsubscribe)).2.symm
      · rw [herror] at hunsubscribe
        cases hunsubscribe

lemma HeadsNull.unsubscribeKeys {fd : Fd} {keys : List (Row keyNodeSize)} (h : ht.HeadsNull)
    (hkeys : Kvs.unsubscribeKeys fd keys ht = .ok ht') : ht' = ht := by
  induction keys with
  | nil => exact (Except.ok.inj hkeys).symm
  | cons key keys ih =>
      obtain ⟨⟨status, ht₁⟩, hunsubscribe, hrest⟩ := bind_eq_ok.mp hkeys
      obtain rfl := h.kvsUnsubscribe hunsubscribe
      exact ih hrest

end HashTable

namespace Session

variable {s s' : Session} {resultDisconnect : ℤ} {fd : Fd} {request : Request}
  {replies : List (List Byte)}

/-- **A request that does not fail changes nothing in the store.** -/
lemma serve_store (h : s.store.HeadsNull)
    (hserve : s.serve resultDisconnect fd request = .ok (s', replies)) : s'.store = s.store := by
  cases request with
  | Disconnect =>
      obtain ⟨keys, -, hserve⟩ := bind_eq_ok.mp hserve
      obtain ⟨store, hkeys, hserve⟩ := bind_eq_ok.mp hserve
      obtain ⟨rfl, -⟩ : _ = s' ∧ _ := by simpa using hserve
      exact h.unsubscribeKeys hkeys
  | Subscribe key =>
      obtain ⟨keys, -, hserve⟩ := bind_eq_ok.mp hserve
      obtain ⟨⟨result, store⟩, hsubscribe, hserve⟩ := bind_eq_ok.mp hserve
      obtain ⟨rfl, -⟩ : _ = s' ∧ _ := by simpa using hserve
      exact h.kvsSubscribe hsubscribe
  | Unsubscribe key =>
      obtain ⟨keys, -, hserve⟩ := bind_eq_ok.mp hserve
      obtain ⟨⟨result, store⟩, hunsubscribe, hserve⟩ := bind_eq_ok.mp hserve
      obtain ⟨rfl, -⟩ : _ = s' ∧ _ := by simpa using hserve
      exact h.kvsUnsubscribe hunsubscribe

end Session

/-! ## The run -/

/-- A pass over any command keeps the heads null, and tells nobody. -/
lemma Job.execute_headsNull {env : JobEnvironment} (hmem : ZeroFilled env.mem) {job job' : Job}
    {command : JobCommand} {status : Option ℤ} (hheads : job.ht.HeadsNull) (hsent : job.sent = [])
    (h : job.execute env command = .ok (status, job')) : job'.ht.HeadsNull ∧ job'.sent = [] := by
  cases command with
  | Write pairs =>
      obtain ⟨⟨ht, sent⟩, hwrite, h⟩ := bind_eq_ok.mp h
      obtain ⟨-, rfl⟩ : _ ∧ _ = job' := by simpa using h
      obtain ⟨hheads', rfl⟩ := hheads.kvsWrite hmem hwrite
      exact ⟨hheads', by simp [hsent]⟩
  | Delete keys =>
      obtain ⟨⟨ht, out, sent⟩, hdelete, h⟩ := bind_eq_ok.mp h
      obtain ⟨-, rfl⟩ : _ ∧ _ = job' := by simpa using h
      obtain ⟨hheads', rfl⟩ := hheads.kvsDelete hdelete
      exact ⟨hheads', by simp [hsent]⟩
  | Read keys =>
      obtain ⟨out, -, h⟩ := bind_eq_ok.mp h
      obtain ⟨-, rfl⟩ : _ ∧ _ = job' := by simpa using h
      exact ⟨hheads, hsent⟩
  | Backup =>
      obtain ⟨-, rfl⟩ : _ ∧ _ = job' := by
        simpa only [execute, pure_eq_ok, Except.ok.injEq, Prod.mk.injEq] using h
      obtain ⟨hht, -, -, -, hsent'⟩ := kvsBackup_frame env { job with
        activeBackups :=
          if job.activeBackups ≥ env.maxBackups then job.activeBackups else job.activeBackups + 1
        fileBackups := job.fileBackups + 1 }
      refine ⟨?_, hsent'.trans hsent⟩
      rw [hht]
      exact hheads
  | Show | Wait _ | Help | Empty | Rejected | Eoc =>
      obtain ⟨-, rfl⟩ : _ ∧ _ = job' := by simpa [execute] using h
      exact ⟨hheads, hsent⟩

section Runs

variable {ι : Type} [DecidableEq ι] {mem : ℕ → Ptr} {dir : CString}
  {files : List Byte → Option Input} {entries : List CString} {s s' : ServerState ι dir}

/-- The heads are null, and the jobs at work have told nobody anything. -/
def ServerState.Quiet (s : ServerState ι dir) : Prop :=
  s.jobs.Keeps (fun store => store.ht.HeadsNull) fun job => job.sent = []

omit [DecidableEq ι] in
lemma ServerState.quiet_initial (entries : List CString) :
    (ServerState.initial entries : ServerState ι dir).Quiet := by
  refine ⟨HashTable.headsNull_createHashTable, ?_⟩
  intro i file job hpc
  cases hpc

/-- The job threads stay quiet, whatever is in their files. -/
lemma quiet_jobs (hmem : ZeroFilled mem) {jobs jobs' : Pool ι CString (JobFile dir) Job JobStore}
    (h : jobs.Keeps (fun store => store.ht.HeadsNull) fun job => job.sent = [])
    (hstep : PoolStep (getFile mem dir files) jobs jobs') :
    jobs'.Keeps (fun store => store.ht.HeadsNull) fun job => job.sent = [] := by
  refine hstep.keeps ?_ ?_ h
  · rintro file store job store' hheads ⟨input, filename, -, hopen⟩
    obtain ⟨rfl, rfl⟩ := Prod.mk.inj hopen
    exact ⟨hheads, rfl⟩
  · rintro file store job store' next hheads hsent ⟨env, filename, status, job', rfl, hpass, hnext⟩
    obtain ⟨⟨command, job₁⟩, hread, hpass⟩ := bind_eq_ok.mp hpass
    obtain ⟨⟨status₁, job₂⟩, hexecute, hpass⟩ := bind_eq_ok.mp hpass
    obtain ⟨rfl, rfl, rfl⟩ : status₁ = status ∧ job₂ = job' ∧ store.after file job₂ = store' := by
      simpa using hpass
    obtain ⟨hheads₁, hsent₁⟩ : job₁.ht.HeadsNull ∧ job₁.sent = [] := by
      obtain ⟨⟨command', input⟩, -, heq⟩ := bind_eq_ok.mp hread
      obtain ⟨-, rfl⟩ : command' = command ∧ _ = job₁ := by simpa using heq
      exact ⟨hheads, hsent⟩
    obtain ⟨hheads₂, hsent₂⟩ := Job.execute_headsNull hmem hheads₁ hsent₁ hexecute
    refine ⟨hheads₂, ?_⟩
    intro progress hprogress
    rcases hnext with ⟨-, rfl⟩ | ⟨-, rfl⟩
    · obtain rfl := Option.some.inj hprogress
      exact hsent₂
    · cases hprogress

/-- When `main` is past `pthread_join`, no job thread takes a step. -/
def ServerState.JobsGone (s : ServerState ι dir) : Prop :=
  s.main ≠ .Joining → ∀ i, (s.jobs.pc i).Gone

/-- **Every step stays quiet**, and does not change the table once there are managers. -/
lemma ServerState.Quiet.step (hmem : ZeroFilled mem) (h : s.Quiet) (hgone : s.JobsGone)
    (hstep : ServerStep mem dir files s s') :
    s'.Quiet ∧ s'.JobsGone ∧ (s.main = .Serving → s'.main = .Serving ∧ s'.table = s.table) := by
  cases hstep with
  | @job jobs hjob =>
      obtain ⟨i, hi⟩ := hjob.not_gone
      have hmain : s.main = .Joining := by
        by_contra hmain
        exact hi (hgone hmain i)
      refine ⟨quiet_jobs hmem h hjob, fun hpast => absurd hmain hpast, ?_⟩
      intro hserving
      rw [hmain] at hserving
      cases hserving
  | join hmain hall => exact ⟨h, fun _ => hall, fun hserving => by rw [hmain] at hserving; cases hserving⟩
  | drain hmain hpos =>
      exact ⟨h, fun hpast => hgone hpast, fun hserving => ⟨hserving, rfl⟩⟩
  | serve hmain hzero =>
      exact ⟨h, fun _ => hgone (by rw [hmain]; decide), fun _ => ⟨rfl, rfl⟩⟩
  | @request session session' resultDisconnect fd request replies hserving hstore hserve =>
      have hheads : session.store.HeadsNull := hstore ▸ h.1
      have hsame : session'.store = s.table := (Session.serve_store hheads hserve).trans hstore
      refine ⟨⟨?_, h.2⟩, fun hpast => hgone hpast, fun _ => ⟨hserving, hsame⟩⟩
      show session'.store.HeadsNull
      rw [hsame]
      exact h.1

lemma ServerState.quiet_of_reachable (hmem : ZeroFilled mem)
    (h : Reachable (ServerStep mem dir files) (.initial entries) s) : s.Quiet ∧ s.JobsGone :=
  h.invariant (fun s => s.Quiet ∧ s.JobsGone)
    ⟨ServerState.quiet_initial entries, fun hpast => absurd rfl hpast⟩
    fun _ _ hinv hstep => ⟨(hinv.1.step hmem hinv.2 hstep).1, (hinv.1.step hmem hinv.2 hstep).2.1⟩

/-- **No subscriber is ever told anything.**  For any number of job threads, any directory and any
contents of its files, on memory that is zero as `malloc` returns it, and for any clients: in every state
of a server

* no job has sent a message to a subscriber;
* the subscriber list of every key is empty, and a subscription to a key that is there is a read through
  a null pointer;
* if there are managers, then the table is from now on what it is, whatever they are asked. -/
theorem server_never_notifies (hmem : ZeroFilled mem)
    (h : Reachable (ServerStep mem dir files) (.initial entries) s) :
    (∀ i file job, s.jobs.pc i = .Working file job → job.sent = []) ∧
    s.table.HeadsNull ∧
    (∀ key fd, (s.table.lookup key).isSome → s.table.kvsSubscribe key fd = .error .nullDeref) ∧
    (s.main = .Serving → ∀ s', Reachable (ServerStep mem dir files) s s' →
      s'.main = .Serving ∧ s'.table = s.table) := by
  obtain ⟨hquiet, hgone⟩ := ServerState.quiet_of_reachable hmem h
  refine ⟨hquiet.2, hquiet.1, ?_, ?_⟩
  · intro key fd hkey
    exact HashTable.HeadsNull.kvsSubscribe_of_some hquiet.1 hkey fd
  · intro hserving s' hrun
    have hall := hrun.invariant
      (fun s' => (s'.Quiet ∧ s'.JobsGone) ∧ s'.main = .Serving ∧ s'.table = s.table)
      ⟨⟨hquiet, hgone⟩, hserving, rfl⟩ ?_
    · exact hall.2
    · rintro s₁ s₂ ⟨⟨hquiet₁, hgone₁⟩, hserving₁, htable₁⟩ hstep
      obtain ⟨hquiet₂, hgone₂, hkept⟩ := hquiet₁.step hmem hgone₁ hstep
      obtain ⟨hserving₂, htable₂⟩ := hkept hserving₁
      exact ⟨⟨hquiet₂, hgone₂⟩, hserving₂, htable₂.trans htable₁⟩

/-- A job that writes a key. -/
def writeFile (_ : List Byte) : Option Input := some (text "WRITE [(a,1)]\n")

/-- The key is written, and nobody was told.  Its thread gone, a manager serves a request about the key,
whose subscription would be a read through a null pointer, and the table is what it was. -/
theorem server_never_notifies_serving :
    ∃ (s₁ s₂ s₃ : ServerState Unit (.lit "jobs")) (job : Job) (session : Session),
      (Reachable (ServerStep (fun _ => none) (.lit "jobs") writeFile) (.initial [.lit "a.job"]) s₁ ∧
        s₁.jobs.pc () = .Working soloFile job ∧ (s₁.table.lookup (.lit "a")).isSome ∧ job.sent = []) ∧
      (Reachable (ServerStep (fun _ => none) (.lit "jobs") writeFile) (.initial [.lit "a.job"]) s₂ ∧
        s₂.main = .Serving ∧ s₂.table.kvsSubscribe (.lit "a") 5 = .error .nullDeref) ∧
      Session.serve 0 5 ⟨s₂.table, none, .empty⟩ (.Unsubscribe (.lit "a"))
        = .ok (session, [text "41"]) ∧
      ServerStep (fun _ => none) (.lit "jobs") writeFile s₂ s₃ ∧ s₃.table = session.store ∧
      s₃.main = .Serving ∧ s₃.table = s₂.table := by
  have hmem : ZeroFilled fun _ => none := fun _ => rfl
  have haccept : acceptEntry (.lit "jobs") (.lit "a.job") = some soloFile :=
    acceptEntry_eq_some.mpr rfl
  have hlock : Reachable (ServerStep (fun _ => none) (.lit "jobs") writeFile)
      (.initial [.lit "a.job"] : ServerState Unit (.lit "jobs")) _ :=
    (Reachable.refl _).tail (.job (.lock () rfl rfl))
  have hunlock := (hlock.tail (.job (.take () rfl rfl haccept))).tail (.job (.unlock () rfl))
  have hopen := hunlock.tail (.job (.start () rfl ⟨_, .lit "a.job", rfl, rfl⟩))
  have hwrite := hopen.tail (.job (.work () rfl
    ⟨calmEnvironment, .lit "a.job", none, _, rfl, rfl, Or.inl ⟨rfl, rfl⟩⟩))
  have hfinish := hwrite.tail (.job (.finish () rfl
    ⟨calmEnvironment, .lit "a.job", some 0, _, rfl, rfl, Or.inr ⟨rfl, rfl⟩⟩))
  have hleave := ((hfinish.tail (.job (.lock () rfl rfl))).tail (.job (.last () rfl rfl))).tail
    (.job (.leave () rfl))
  obtain ⟨s₂, hserving, hmain, hkey, session, hserve⟩ : ∃ s₂ : ServerState Unit (.lit "jobs"),
      Reachable (ServerStep (fun _ => none) (.lit "jobs") writeFile) (.initial [.lit "a.job"]) s₂ ∧
      s₂.main = .Serving ∧ (s₂.table.lookup (.lit "a")).isSome ∧
      ∃ session, Session.serve 0 5 ⟨s₂.table, none, .empty⟩ (.Unsubscribe (.lit "a"))
        = .ok (session, [text "41"]) :=
    ⟨_, (hleave.tail (.join rfl fun _ => trivial)).tail (.serve rfl rfl), rfl, rfl, _, rfl⟩
  obtain ⟨hsent, -⟩ := server_never_notifies hmem hwrite
  obtain ⟨-, -, hsubscribe, hkept⟩ := server_never_notifies hmem hserving
  have hrequest : ServerStep (fun _ => none) (.lit "jobs") writeFile s₂ _ :=
    .request hmain rfl hserve
  obtain ⟨hmain', htable⟩ := hkept hmain _ ((Reachable.refl _).tail hrequest)
  exact ⟨_, s₂, _, _, session, ⟨hwrite, rfl, rfl, hsent () soloFile _ rfl⟩,
    ⟨hserving, hmain, hsubscribe (.lit "a") 5 hkey⟩, hserve, hrequest, rfl, hmain', htable⟩

end Runs

end Kvs
