import Mathlib.Logic.Function.Basic
import Mathlib.Tactic.Common
import Kvs.Core.Threads

/-!
# Commands under a reader-writer lock

Threads run commands on a shared state.  A command takes the lock, works in small steps, each of
which may read the state, change it and produce output, and gives the lock back when there is
nothing left to do.  A command that only reads shares the lock with its like; any other has it for
itself.  Between two steps of one thread anything the lock allows may happen.

`Commands` is what has to be said about the commands, and it says nothing about threads: what one
step does, that reading commands leave the state alone, and — the one proof obligation of substance
— that a step is a step of the *whole*: what is left of a command before the step is the step's
output and what is left after it.

From this follows serializability (`LockStep.serializable`).  In every reachable state there is an
order of the finished commands, consistent with the order in each thread, in which running them
whole and one at a time gives exactly the outputs they produced.  While nobody writes, the shared
state is the one this order leads to; so what a reading command sees is always the result of whole
commands.
-/

namespace Kvs

/-- Commands `C` on a state `σ`, with the progress of a command in `L` and outputs in `O`. -/
structure Commands (σ C L O ε : Type) where
  reads : C → Bool
  start : C → L
  step : C → σ → L → Except ε (Option (σ × L × List O))
  rest : C → σ → L → Except ε (σ × List O)
  step_reads : ∀ {c s l s' l' out}, reads c = true → step c s l = .ok (some (s', l', out)) → s' = s
  rest_done : ∀ {c s l}, step c s l = .ok none → rest c s l = .ok (s, [])
  rest_step : ∀ {c s l s' l' out}, step c s l = .ok (some (s', l', out)) →
    rest c s l = (rest c s' l').map fun r => (r.1, out ++ r.2)

namespace Commands

variable {σ C L O ε : Type}

/-- A whole command, run by itself. -/
def whole (cmds : Commands σ C L O ε) (c : C) (s : σ) : Except ε (σ × List O) :=
  cmds.rest c s (cmds.start c)

/-- Whole commands one after the other, each with the thread it is from and its output. -/
def Serial {ι : Type} (cmds : Commands σ C L O ε) : σ → List (ι × C × List O) → σ → Prop
  | s, [], t => s = t
  | s, (_, c, out) :: order, t => ∃ u, cmds.whole c s = .ok (u, out) ∧ cmds.Serial u order t

/-- One more command at the end. -/
lemma Serial.snoc {ι : Type} {cmds : Commands σ C L O ε} {i : ι} {c : C} {out : List O} {t u : σ}
    (hlast : cmds.whole c t = .ok (u, out)) {order : List (ι × C × List O)} {s : σ}
    (h : cmds.Serial s order t) : cmds.Serial s (order ++ [(i, c, out)]) u := by
  induction order generalizing s with
  | nil =>
      obtain rfl : s = t := h
      exact ⟨u, hlast, rfl⟩
  | cons entry order ih =>
      obtain ⟨v, hwhole, hrest⟩ := h
      exact ⟨v, hwhole, ih hrest⟩

end Commands

/-- A command in the middle of its work. -/
structure Running (C L O : Type) where
  command : C
  progress : L
  output : List O

/-- A thread: the commands it has not begun, the one that holds the lock for it, and those it has
finished with what they produced. -/
structure Thread (C L O : Type) where
  todo : List C
  running : Option (Running C L O)
  done : List (C × List O)

namespace Thread

variable {C L O : Type}

/-- The lock is taken for the next command. -/
def acquire (t : Thread C L O) (c : C) (start : L) (todo : List C) : Thread C L O where
  todo := todo
  running := some ⟨c, start, []⟩
  done := t.done

/-- The running command has come further. -/
def advance (t : Thread C L O) (r : Running C L O) (progress : L) (out : List O) : Thread C L O :=
  { t with running := some ⟨r.command, progress, r.output ++ out⟩ }

/-- The running command is finished and the lock given back. -/
def release (t : Thread C L O) (r : Running C L O) : Thread C L O :=
  { t with running := none, done := t.done ++ [(r.command, r.output)] }

end Thread

/-- The shared state and the threads.  Who holds the lock can be read off the threads. -/
structure Threads (ι σ C L O : Type) where
  shared : σ
  thread : ι → Thread C L O

/-- The commands of one thread in an order of all. -/
def ofThread {ι C O : Type} [DecidableEq ι] (i : ι) (order : List (ι × C × List O)) :
    List (C × List O) :=
  (order.filter fun e => e.1 = i).map Prod.snd

lemma ofThread_append {ι C O : Type} [DecidableEq ι] (i : ι) (order order' : List (ι × C × List O)) :
    ofThread i (order ++ order') = ofThread i order ++ ofThread i order' := by
  rw [ofThread, List.filter_append, List.map_append]
  rfl

/-- A command of a thread stands somewhere in the order. -/
lemma exists_split_of_mem_ofThread {ι C O : Type} [DecidableEq ι] {i : ι}
    {order : List (ι × C × List O)} {done : C × List O} (h : done ∈ ofThread i order) :
    ∃ before after, order = before ++ (i, done) :: after := by
  obtain ⟨entry, hfiltered, rfl⟩ := List.mem_map.mp h
  obtain ⟨hmem, hi⟩ := List.mem_filter.mp hfiltered
  obtain rfl := of_decide_eq_true hi
  exact List.append_of_mem hmem

namespace Threads

variable {ι σ C L O : Type}

/-- Every thread at the beginning of its program. -/
def initial (s : σ) (program : ι → List C) : Threads ι σ C L O where
  shared := s
  thread := fun i => ⟨program i, none, []⟩

/-- The shared state and one thread replaced. -/
def set [DecidableEq ι] (s : Threads ι σ C L O) (shared : σ) (i : ι) (t : Thread C L O) :
    Threads ι σ C L O where
  shared := shared
  thread := Function.update s.thread i t

variable [DecidableEq ι] {s : Threads ι σ C L O} {shared : σ} {i j : ι} {t : Thread C L O}

@[simp] lemma set_shared : (s.set shared i t).shared = shared := rfl

@[simp] lemma set_thread_self : (s.set shared i t).thread i = t := Function.update_self ..

lemma set_thread_of_ne (hj : j ≠ i) : (s.set shared i t).thread j = s.thread j :=
  Function.update_of_ne hj ..

/-- A running command is that of the thread replaced or of another. -/
lemma running_set {r : Running C L O} (h : ((s.set shared i t).thread j).running = some r) :
    (j = i ∧ t.running = some r) ∨ (j ≠ i ∧ (s.thread j).running = some r) := by
  by_cases hj : j = i
  · subst hj
    rw [set_thread_self] at h
    exact Or.inl ⟨rfl, h⟩
  · rw [set_thread_of_ne hj] at h
    exact Or.inr ⟨hj, h⟩

end Threads

section Locking

variable {ι σ C L O ε : Type} (cmds : Commands σ C L O ε)

/-- The lock may be taken for `c`: nobody holds it, or all that do only read, and so does `c`. -/
def Threads.Admits (s : Threads ι σ C L O) (c : C) : Prop :=
  ∀ j r, (s.thread j).running = some r → cmds.reads c = true ∧ cmds.reads r.command = true

/-- One step of one thread. -/
inductive LockStep [DecidableEq ι] : Threads ι σ C L O → Threads ι σ C L O → Prop
  | acquire {s} (i : ι) {c : C} {todo : List C} : (s.thread i).todo = c :: todo →
      (s.thread i).running = none → s.Admits cmds c →
      LockStep s (s.set s.shared i ((s.thread i).acquire c (cmds.start c) todo))
  | work {s} (i : ι) {r : Running C L O} {shared : σ} {progress : L} {out : List O} :
      (s.thread i).running = some r →
      cmds.step r.command s.shared r.progress = .ok (some (shared, progress, out)) →
      LockStep s (s.set shared i ((s.thread i).advance r progress out))
  | release {s} (i : ι) {r : Running C L O} : (s.thread i).running = some r →
      cmds.step r.command s.shared r.progress = .ok none →
      LockStep s (s.set s.shared i ((s.thread i).release r))

/-! ## The invariant -/

variable [DecidableEq ι]

/-- The finished commands in their serial order, and the state this order leads to.  Completing a
running command on the shared state is running it whole on that state. -/
structure Threads.Inv (program : ι → List C) (s₀ : σ) (s : Threads ι σ C L O)
    (order : List (ι × C × List O)) (base : σ) : Prop where
  serial : cmds.Serial s₀ order base
  completes : ∀ i r, (s.thread i).running = some r → cmds.whole r.command base
    = (cmds.rest r.command s.shared r.progress).map fun x => (x.1, r.output ++ x.2)
  committed : (∀ i r, (s.thread i).running = some r → cmds.reads r.command = true) → s.shared = base
  exclusive : ∀ i j r r', (s.thread i).running = some r → (s.thread j).running = some r' → i ≠ j →
    cmds.reads r.command = true ∧ cmds.reads r'.command = true
  finished : ∀ i, ofThread i order = (s.thread i).done
  program : ∀ i, (s.thread i).done.map Prod.fst ++ (s.thread i).running.toList.map Running.command
    ++ (s.thread i).todo = program i

namespace Threads.Inv

variable {cmds} {program : ι → List C} {s₀ base : σ} {s s' : Threads ι σ C L O}
  {order : List (ι × C × List O)}

lemma initial : (Threads.initial s₀ program : Threads ι σ C L O).Inv cmds program s₀ [] s₀ where
  serial := rfl
  completes := fun _ _ h => absurd h (by simp [Threads.initial])
  committed := fun _ => rfl
  exclusive := fun _ _ _ _ h => absurd h (by simp [Threads.initial])
  finished := fun _ => rfl
  program := fun _ => rfl

/-- While one thread holds the lock for reading, nobody writes. -/
lemma committed_of_reader (h : s.Inv cmds program s₀ order base) {i : ι} {r : Running C L O}
    (hrunning : (s.thread i).running = some r) (hreads : cmds.reads r.command = true) :
    s.shared = base := by
  refine h.committed fun j r' hr' => ?_
  by_cases hj : j = i
  · subst hj
    obtain rfl : r = r' := Option.some.inj (hrunning.symm.trans hr')
    exact hreads
  · exact (h.exclusive j i r' r hr' hrunning hj).1

/-- A thread replaced by one that has finished the same commands, and whose program is the same. -/
lemma program_set (h : s.Inv cmds program s₀ order base) {shared : σ} {i : ι} {t : Thread C L O}
    (ht : t.done.map Prod.fst ++ t.running.toList.map Running.command ++ t.todo
      = (s.thread i).done.map Prod.fst ++ (s.thread i).running.toList.map Running.command
        ++ (s.thread i).todo) (j : ι) :
    ((s.set shared i t).thread j).done.map Prod.fst
      ++ ((s.set shared i t).thread j).running.toList.map Running.command
      ++ ((s.set shared i t).thread j).todo = program j := by
  by_cases hj : j = i
  · subst hj
    rw [set_thread_self, ht]
    exact h.program j
  · rw [set_thread_of_ne hj]
    exact h.program j

lemma finished_set (h : s.Inv cmds program s₀ order base) {shared : σ} {i : ι} {t : Thread C L O}
    (ht : t.done = (s.thread i).done) (j : ι) :
    ofThread j order = ((s.set shared i t).thread j).done := by
  rw [h.finished j]
  by_cases hj : j = i
  · subst hj
    rw [set_thread_self, ht]
  · rw [set_thread_of_ne hj]

/-- The lock is taken on a state that whole commands have left. -/
lemma acquire (h : s.Inv cmds program s₀ order base) {i : ι} {c : C} {todo : List C}
    (htodo : (s.thread i).todo = c :: todo) (hidle : (s.thread i).running = none)
    (hadmits : s.Admits cmds c) :
    (s.set s.shared i ((s.thread i).acquire c (cmds.start c) todo)).Inv cmds program s₀ order
      base := by
  have hbase : s.shared = base := h.committed fun j r hr => (hadmits j r hr).2
  refine ⟨h.serial, fun j r hr => ?_, fun _ => hbase, fun j k r r' hr hr' hne => ?_,
    h.finished_set rfl, h.program_set ?_⟩
  · rcases running_set hr with ⟨-, hr⟩ | ⟨-, hr⟩
    · obtain rfl := Option.some.inj hr
      rw [set_shared, hbase, Commands.whole]
      cases cmds.rest c base (cmds.start c) <;> rfl
    · exact h.completes j r hr
  · rcases running_set hr with ⟨hj, hj'⟩ | ⟨-, hj'⟩
    · obtain rfl := Option.some.inj hj'
      rcases running_set hr' with ⟨hk, -⟩ | ⟨-, hk'⟩
      · exact absurd (hj.trans hk.symm) hne
      · exact hadmits k r' hk'
    · rcases running_set hr' with ⟨-, hk'⟩ | ⟨-, hk'⟩
      · obtain rfl := Option.some.inj hk'
        exact (hadmits j r hj').symm
      · exact h.exclusive j k r r' hj' hk' hne
  · rw [htodo, hidle]
    simp [Thread.acquire]

/-- A step of a command changes the state only for itself. -/
lemma work (h : s.Inv cmds program s₀ order base) {i : ι} {r : Running C L O} {shared : σ}
    {progress : L} {out : List O} (hrunning : (s.thread i).running = some r)
    (hstep : cmds.step r.command s.shared r.progress = .ok (some (shared, progress, out))) :
    (s.set shared i ((s.thread i).advance r progress out)).Inv cmds program s₀ order base := by
  have hothers : ∀ {j r'}, j ≠ i → (s.thread j).running = some r' → shared = s.shared :=
    fun hj hr' => cmds.step_reads (h.exclusive _ i _ r hr' hrunning hj).2 hstep
  -- the commands that run are the same before and after
  have hback : ∀ {j r'}, ((s.set shared i ((s.thread i).advance r progress out)).thread j).running
      = some r' → ∃ r'', (s.thread j).running = some r'' ∧ r''.command = r'.command := by
    intro j r' hr'
    rcases running_set hr' with ⟨rfl, hr'⟩ | ⟨-, hr'⟩
    · obtain rfl := Option.some.inj hr'
      exact ⟨r, hrunning, rfl⟩
    · exact ⟨r', hr', rfl⟩
  refine ⟨h.serial, fun j r' hr' => ?_, fun hreads => ?_, fun j k r' r'' hr' hr'' hne => ?_,
    h.finished_set rfl, h.program_set ?_⟩
  · rcases running_set hr' with ⟨-, hr'⟩ | ⟨hj, hr'⟩
    · obtain rfl := Option.some.inj hr'
      rw [h.completes i r hrunning, cmds.rest_step hstep, set_shared]
      cases cmds.rest r.command shared progress <;> simp [Except.map, List.append_assoc]
    · rw [set_shared, hothers hj hr']
      exact h.completes j r' hr'
  · have hread : cmds.reads r.command = true :=
      hreads i ⟨r.command, progress, r.output ++ out⟩ (by rw [set_thread_self]; rfl)
    rw [set_shared, cmds.step_reads hread hstep]
    exact h.committed_of_reader hrunning hread
  · obtain ⟨x, hx, hcommand⟩ := hback hr'
    obtain ⟨x', hx', hcommand'⟩ := hback hr''
    rw [← hcommand, ← hcommand']
    exact h.exclusive j k x x' hx hx' hne
  · rw [hrunning]
    rfl

/-- **A command that gives the lock back** is the next of the serial order. -/
lemma release (h : s.Inv cmds program s₀ order base) {i : ι} {r : Running C L O}
    (hrunning : (s.thread i).running = some r)
    (hstep : cmds.step r.command s.shared r.progress = .ok none) :
    (s.set s.shared i ((s.thread i).release r)).Inv cmds program s₀
      (order ++ [(i, r.command, r.output)]) s.shared := by
  have hwhole : cmds.whole r.command base = .ok (s.shared, r.output) := by
    rw [h.completes i r hrunning, cmds.rest_done hstep]
    simp [Except.map]
  have hback : ∀ {j r'}, ((s.set s.shared i ((s.thread i).release r)).thread j).running = some r' →
      j ≠ i ∧ (s.thread j).running = some r' := by
    intro j r' hr'
    rcases running_set hr' with ⟨-, hr'⟩ | hr'
    · cases hr'
    · exact hr'
  refine ⟨h.serial.snoc hwhole, fun j r' hr' => ?_, fun _ => rfl,
    fun j k r' r'' hr' hr'' hne => ?_, fun j => ?_, h.program_set ?_⟩
  · -- whoever else holds the lock reads
    obtain ⟨hj, hr'⟩ := hback hr'
    have hbase := h.committed_of_reader hr' (h.exclusive j i r' r hr' hrunning hj).1
    have hcompletes := h.completes j r' hr'
    rwa [← hbase] at hcompletes
  · exact h.exclusive j k r' r'' (hback hr').2 (hback hr'').2 hne
  · rw [ofThread_append, h.finished j]
    by_cases hj : j = i
    · subst hj
      rw [set_thread_self]
      simp [ofThread, Thread.release]
    · rw [set_thread_of_ne hj]
      simp [ofThread, Ne.symm hj]
  · rw [hrunning]
    simp [Thread.release]

/-- Every step keeps the invariant, for a longer order if a command is finished by it. -/
lemma step (h : s.Inv cmds program s₀ order base) (hstep : LockStep cmds s s') :
    ∃ order' base', s'.Inv cmds program s₀ order' base' := by
  cases hstep with
  | acquire i htodo hidle hadmits => exact ⟨order, base, h.acquire htodo hidle hadmits⟩
  | work i hrunning hwork => exact ⟨order, base, h.work hrunning hwork⟩
  | release i hrunning hend => exact ⟨_, _, h.release hrunning hend⟩

end Threads.Inv

/-! ## Serializability -/

variable {cmds} {program : ι → List C} {s₀ : σ} {s : Threads ι σ C L O}

/-- **Serializability.**  The finished commands have a serial order, consistent with the program of
each thread.  While nobody writes the shared state is what this order leads to, and in particular
whenever somebody reads. -/
theorem LockStep.serializable (h : Reachable (LockStep cmds) (Threads.initial s₀ program) s) :
    ∃ order base, cmds.Serial s₀ order base ∧
      (∀ i, ofThread i order = (s.thread i).done) ∧
      (∀ i, (s.thread i).done.map Prod.fst ++ (s.thread i).running.toList.map Running.command
        ++ (s.thread i).todo = program i) ∧
      ((∀ i r, (s.thread i).running = some r → cmds.reads r.command = true) → s.shared = base) ∧
      ∀ i r, (s.thread i).running = some r → cmds.reads r.command = true → s.shared = base := by
  obtain ⟨order, base, hinv⟩ := h.invariant
    (fun s => ∃ order base, s.Inv cmds program s₀ order base)
    ⟨[], s₀, Threads.Inv.initial⟩ fun _ _ ⟨_, _, hinv⟩ hstep => hinv.step hstep
  exact ⟨order, base, hinv.serial, hinv.finished, hinv.program, hinv.committed,
    fun _ _ hrunning hreads => hinv.committed_of_reader hrunning hreads⟩

/-! ## Safety -/

/-- What the state, the running commands and those still to come satisfy. -/
structure Threads.Safe (good : σ → Prop) (valid : C → L → Prop) (start : C → L)
    (s : Threads ι σ C L O) : Prop where
  shared : good s.shared
  running : ∀ i r, (s.thread i).running = some r → valid r.command r.progress
  todo : ∀ i, ∀ c ∈ (s.thread i).todo, valid c (start c)

/-- The next step of a command succeeds, and keeps what it relies on. -/
def Commands.Succeeds (cmds : Commands σ C L O ε) (good : σ → Prop) (valid : C → L → Prop) : Prop :=
  ∀ {c s l}, good s → valid c l → ∃ result, cmds.step c s l = .ok result ∧
    ∀ s' l' out, result = some (s', l', out) → good s' ∧ valid c l'

variable {good : σ → Prop} {valid : C → L → Prop}

/-- One thread replaced by a safe one. -/
lemma Threads.Safe.set (h : s.Safe good valid cmds.start) {shared : σ} {i : ι} {t : Thread C L O}
    (hshared : good shared) (hrunning : ∀ r, t.running = some r → valid r.command r.progress)
    (htodo : ∀ c ∈ t.todo, valid c (cmds.start c)) :
    (s.set shared i t).Safe good valid cmds.start := by
  refine ⟨hshared, fun j r hr => ?_, fun j c hc => ?_⟩
  · rcases Threads.running_set hr with ⟨-, hr⟩ | ⟨-, hr⟩
    · exact hrunning r hr
    · exact h.running j r hr
  · by_cases hj : j = i
    · subst hj
      rw [Threads.set_thread_self] at hc
      exact htodo c hc
    · rw [Threads.set_thread_of_ne hj] at hc
      exact h.todo j c hc

/-- **No fault.**  If the steps of the commands succeed on good states and keep them good, then no
step of a reachable state fails. -/
theorem LockStep.no_fault (hsucceeds : cmds.Succeeds good valid) (hgood : good s₀)
    (hvalid : ∀ i, ∀ c ∈ program i, valid c (cmds.start c))
    (h : Reachable (LockStep cmds) (Threads.initial s₀ program) s) :
    good s.shared ∧ ∀ i r, (s.thread i).running = some r →
      ∃ result, cmds.step r.command s.shared r.progress = .ok result := by
  have hsafe : s.Safe good valid cmds.start := by
    refine h.invariant (fun s => s.Safe good valid cmds.start)
      ⟨hgood, fun _ _ hr => absurd hr (by simp [Threads.initial]), hvalid⟩ fun s s' hsafe hlock => ?_
    cases hlock with
    | acquire i htodo hidle hadmits =>
        refine hsafe.set hsafe.shared (fun r hr => ?_) fun c hc => ?_
        · obtain rfl := Option.some.inj hr
          exact hsafe.todo i _ (by rw [htodo]; simp)
        · exact hsafe.todo i c (by rw [htodo]; exact List.mem_cons_of_mem _ hc)
    | work i hrunning hwork =>
        obtain ⟨result, hresult, hnext⟩ := hsucceeds hsafe.shared (hsafe.running i _ hrunning)
        obtain ⟨hgood', hvalid'⟩ := hnext _ _ _ (Except.ok.inj (hresult.symm.trans hwork))
        refine hsafe.set hgood' (fun r hr => ?_) (hsafe.todo i)
        obtain rfl := Option.some.inj hr
        exact hvalid'
    | release i hrunning hend =>
        exact hsafe.set hsafe.shared (fun r hr => by cases hr) (hsafe.todo i)
  refine ⟨hsafe.shared, fun i r hrunning => ?_⟩
  obtain ⟨result, hresult, -⟩ := hsucceeds hsafe.shared (hsafe.running i r hrunning)
  exact ⟨result, hresult⟩

end Locking

end Kvs
