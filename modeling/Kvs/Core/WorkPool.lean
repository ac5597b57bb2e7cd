import Mathlib.Algebra.BigOperators.Group.Finset.Piecewise
import Mathlib.Data.Fintype.Card
import Kvs.Core.Threads

/-!
# Threads that share out a stream

Some threads read one stream of entries, under one mutex.  A thread that finds an entry of use gives
the mutex back and works on it, step by step and together with the others on a shared state; then it
takes the mutex for the next one.  At the end of the stream it leaves.  A thread that cannot start on
what it has taken gives up, the item and itself.

`PoolRules` says which entries are of use and what the work is.  Nothing more is known of it, and what
is proved here is about the sharing out:

* `Pool.Inv` — the mutex is with the thread that is between lock and unlock, and each item is either
  listed still, or in the hands of one thread, or finished.
* `Pool.Inv.shared_out` — when all threads are gone every item is finished or given up, unless every
  thread has given up.
* `PoolStep.weight_lt` — if the work on each item comes to an end, so does the pool, after a number of
  steps that is known at the beginning.
* `Pool.Inv.exists_step` — it is never stuck before that, if the work is not, and if every item can be
  started all threads can get to the end of the stream (`Pool.exists_run_exited`).
* `Pool.items_reachable` — who does what does not matter for what is done: seen from the items, a pool
  is a system without threads, in which an item is started, worked on and finished once (`ItemStep`).
-/

namespace Kvs

/-- Where a thread of the pool is: in front of the mutex, holding it in front of the next entry or
with an entry of use, in front of its item or at work on it, holding the mutex at the end of the
stream, or gone, with nothing to do or with an item it could not start on. -/
inductive PoolPc (J L : Type) where
  | Locking
  | Reading
  | Holding (item : J)
  | Starting (item : J)
  | Working (item : J) (progress : L)
  | Leaving
  | Exited
  | GivenUp (item : J)

namespace PoolPc

variable {J L : Type}

/-- Between lock and unlock. -/
def Critical : PoolPc J L → Prop
  | Locking => False
  | Reading => True
  | Holding _ => True
  | Starting _ => False
  | Working _ _ => False
  | Leaving => True
  | Exited => False
  | GivenUp _ => False

/-- The item in a thread's hands. -/
def item : PoolPc J L → Option J
  | Locking => none
  | Reading => none
  | Holding item => some item
  | Starting item => some item
  | Working item _ => some item
  | Leaving => none
  | Exited => none
  | GivenUp item => some item

/-- At the end of the stream. -/
def AtEnd : PoolPc J L → Prop
  | Leaving => True
  | Exited => True
  | _ => False

/-- The thread takes no more steps. -/
def Gone : PoolPc J L → Prop
  | Exited => True
  | GivenUp _ => True
  | _ => False

end PoolPc

/-- What has become of an item. -/
inductive Fate (ι : Type) where
  | Listed
  | With (i : ι)
  | Finished

/-- The entries nobody has read, who holds the mutex, where the threads are and what they share.  The
fates of the items are a record of the run, which no thread looks at. -/
structure Pool (ι E J L σ : Type) where
  stream : List E
  mutex : Option ι
  pc : ι → PoolPc J L
  fate : J → Fate ι
  shared : σ

/-- Which entries are of use, how the work on an item may start, and how it may go on: with the progress
made, or with none when the item is done. -/
structure PoolRules (E J L σ : Type) where
  accept : E → Option J
  starts : J → σ → L → σ → Prop
  works : J → σ → L → σ → Option L → Prop

namespace Pool

variable {ι E J L σ : Type}

/-- The threads in front of a stream. -/
def initial (entries : List E) (shared : σ) : Pool ι E J L σ where
  stream := entries
  mutex := none
  pc := fun _ => .Locking
  fate := fun _ => .Listed
  shared := shared

/-- A thread at its next program point. -/
def moveTo [DecidableEq ι] (s : Pool ι E J L σ) (i : ι) (pc : PoolPc J L) : ι → PoolPc J L :=
  Function.update s.pc i pc

/-- An item at its next stage. -/
def mark [DecidableEq J] (s : Pool ι E J L σ) (item : J) (fate : Fate ι) : J → Fate ι :=
  Function.update s.fate item fate

section Moving

variable {s : Pool ι E J L σ} {i j : ι} {pc : PoolPc J L} {item item' : J} {fate : Fate ι}

@[simp] lemma moveTo_self [DecidableEq ι] : s.moveTo i pc i = pc := Function.update_self ..

lemma moveTo_of_ne [DecidableEq ι] (h : j ≠ i) : s.moveTo i pc j = s.pc j :=
  Function.update_of_ne h ..

@[simp] lemma mark_self [DecidableEq J] : s.mark item fate item = fate := Function.update_self ..

lemma mark_of_ne [DecidableEq J] (h : item' ≠ item) : s.mark item fate item' = s.fate item' :=
  Function.update_of_ne h ..

end Moving

end Pool

section Steps

variable {ι E J L σ : Type}

/-- One step of one thread. -/
inductive PoolStep [DecidableEq ι] [DecidableEq J] (rules : PoolRules E J L σ) :
    Pool ι E J L σ → Pool ι E J L σ → Prop
  | lock {s} (i : ι) : s.pc i = .Locking → s.mutex = none →
      PoolStep rules s { s with mutex := some i, pc := s.moveTo i .Reading }
  | skip {s} (i : ι) {e : E} {rest : List E} : s.pc i = .Reading → s.stream = e :: rest →
      rules.accept e = none → PoolStep rules s { s with stream := rest }
  | take {s} (i : ι) {e : E} {rest : List E} {item : J} : s.pc i = .Reading →
      s.stream = e :: rest → rules.accept e = some item → PoolStep rules s
        { s with stream := rest, pc := s.moveTo i (.Holding item), fate := s.mark item (.With i) }
  | unlock {s} (i : ι) {item : J} : s.pc i = .Holding item →
      PoolStep rules s { s with mutex := none, pc := s.moveTo i (.Starting item) }
  | giveUp {s} (i : ι) {item : J} : s.pc i = .Starting item →
      PoolStep rules s { s with pc := s.moveTo i (.GivenUp item) }
  | start {s} (i : ι) {item : J} {progress : L} {shared : σ} : s.pc i = .Starting item →
      rules.starts item s.shared progress shared →
      PoolStep rules s { s with pc := s.moveTo i (.Working item progress), shared := shared }
  | work {s} (i : ι) {item : J} {progress progress' : L} {shared : σ} :
      s.pc i = .Working item progress → rules.works item s.shared progress shared (some progress') →
      PoolStep rules s { s with pc := s.moveTo i (.Working item progress'), shared := shared }
  | finish {s} (i : ι) {item : J} {progress : L} {shared : σ} : s.pc i = .Working item progress →
      rules.works item s.shared progress shared none → PoolStep rules s
        { s with pc := s.moveTo i .Locking, fate := s.mark item .Finished, shared := shared }
  | last {s} (i : ι) : s.pc i = .Reading → s.stream = [] →
      PoolStep rules s { s with pc := s.moveTo i .Leaving }
  | leave {s} (i : ι) : s.pc i = .Leaving →
      PoolStep rules s { s with mutex := none, pc := s.moveTo i .Exited }

/-! ## The mutex and the items -/

variable {rules : PoolRules E J L σ} {entries : List E} {s s' : Pool ι E J L σ}

/-- The mutex is with the thread between lock and unlock; the entries read so far are those in front of
the stream, and their items are the ones no longer listed; each of these is with the thread whose hands
it is in, if it is with one; and who is at the end has seen the end. -/
structure Pool.Inv (rules : PoolRules E J L σ) (entries : List E) (s : Pool ι E J L σ) : Prop where
  mutex : ∀ i, (s.pc i).Critical ↔ s.mutex = some i
  stream : ∃ handed, entries = handed ++ s.stream ∧
    ∀ item, s.fate item ≠ .Listed ↔ ∃ e ∈ handed, rules.accept e = some item
  owner : ∀ i item, (s.pc i).item = some item ↔ s.fate item = .With i
  atEnd : ∀ i, (s.pc i).AtEnd → s.stream = []

namespace Pool.Inv

lemma initial (rules : PoolRules E J L σ) (entries : List E) (shared : σ) :
    (Pool.initial entries shared : Pool ι E J L σ).Inv rules entries := by
  refine ⟨?_, ⟨[], rfl, ?_⟩, ?_, ?_⟩
  · intro i
    simp [Pool.initial, PoolPc.Critical]
  · intro item
    simp [Pool.initial]
  · intro i item
    simp [Pool.initial, PoolPc.item]
  · intro i hend
    exact hend.elim

/-- The next item has not been taken before. -/
lemma listed (h : s.Inv rules entries) (hnodup : (entries.filterMap rules.accept).Nodup) {e : E}
    {rest : List E} {item : J} (hstream : s.stream = e :: rest) (haccept : rules.accept e = some item) :
    s.fate item = .Listed := by
  obtain ⟨handed, rfl, hhanded⟩ := h.stream
  by_contra hnot
  obtain ⟨e', he', haccept'⟩ := (hhanded item).mp hnot
  rw [hstream, List.filterMap_append, List.filterMap_cons_some haccept] at hnodup
  have hmem : item ∈ handed.filterMap rules.accept := List.mem_filterMap.mpr ⟨e', he', haccept'⟩
  exact (List.disjoint_of_nodup_append hnodup) hmem (by simp)

/-- While there are entries, nobody is at the end. -/
lemma not_atEnd (h : s.Inv rules entries) {e : E} {rest : List E} (hstream : s.stream = e :: rest)
    (j : ι) : ¬ (s.pc j).AtEnd := by
  intro hend
  rw [h.atEnd j hend] at hstream
  cases hstream

variable [DecidableEq ι] {i : ι} {pc pc' : PoolPc J L} {item : J}

/-- The mutex is taken. -/
lemma critical_lock (h : s.Inv rules entries) (hfree : s.mutex = none) (hpc' : pc'.Critical) (j : ι) :
    (s.moveTo i pc' j).Critical ↔ some i = some j := by
  by_cases hj : j = i
  · subst hj
    simp [hpc']
  · have hfree' : ¬ (s.pc j).Critical := by
      rw [h.mutex j, hfree]
      simp
    simp [moveTo_of_ne hj, hfree', Ne.symm hj]

/-- The mutex stays where it is. -/
lemma critical_keep (h : s.Inv rules entries) (hpc : s.pc i = pc) (hsame : pc'.Critical ↔ pc.Critical)
    (j : ι) : (s.moveTo i pc' j).Critical ↔ s.mutex = some j := by
  rw [← h.mutex j]
  by_cases hj : j = i
  · subst hj
    rw [moveTo_self, hpc, hsame]
  · rw [moveTo_of_ne hj]

/-- The mutex is given back. -/
lemma critical_unlock (h : s.Inv rules entries) (hpc : s.pc i = pc) (hcritical : pc.Critical)
    (hpc' : ¬ pc'.Critical) (j : ι) : (s.moveTo i pc' j).Critical ↔ none = some j := by
  by_cases hj : j = i
  · subst hj
    simp [hpc']
  · have hheld : s.mutex = some i := (h.mutex i).mp (hpc ▸ hcritical)
    have hother : ¬ (s.pc j).Critical := by
      rw [h.mutex j, hheld]
      simpa using Ne.symm hj
    simp [moveTo_of_ne hj, hother]

/-- A thread moves on with what it has in its hands. -/
lemma owner_keep (h : s.Inv rules entries) (hpc : s.pc i = pc) (hsame : pc'.item = pc.item) (j : ι)
    (item : J) : (s.moveTo i pc' j).item = some item ↔ s.fate item = .With j := by
  rw [← h.owner j item]
  by_cases hj : j = i
  · subst hj
    rw [moveTo_self, hpc, hsame]
  · rw [moveTo_of_ne hj]

/-- A thread takes an item that was listed. -/
lemma owner_take [DecidableEq J] (h : s.Inv rules entries) (hpc : s.pc i = pc) (hnone : pc.item = none)
    (hpc' : pc'.item = some item) (hlisted : s.fate item = .Listed) (j : ι) (item' : J) :
    (s.moveTo i pc' j).item = some item' ↔ s.mark item (.With i) item' = .With j := by
  by_cases hj : j = i
  · subst hj
    rw [moveTo_self, hpc']
    by_cases hitem : item' = item
    · simp [hitem]
    · have hnot : s.fate item' ≠ .With j := by
        rw [ne_eq, ← h.owner j item', hpc, hnone]
        simp
      simp [mark_of_ne hitem, hnot, Ne.symm hitem]
  · rw [moveTo_of_ne hj, h.owner j item']
    by_cases hitem : item' = item
    · simp [hitem, hlisted, Ne.symm hj]
    · rw [mark_of_ne hitem]

/-- A thread is done with its item. -/
lemma owner_finish [DecidableEq J] (h : s.Inv rules entries) (hpc : s.pc i = pc)
    (hitem : pc.item = some item) (hpc' : pc'.item = none) (j : ι) (item' : J) :
    (s.moveTo i pc' j).item = some item' ↔ s.mark item .Finished item' = .With j := by
  have hwith : s.fate item = .With i := by
    rw [← h.owner i item, hpc, hitem]
  by_cases hj : j = i
  · subst hj
    rw [moveTo_self, hpc']
    by_cases hitem' : item' = item
    · simp [hitem']
    · have hnot : s.fate item' ≠ .With j := by
        rw [ne_eq, ← h.owner j item', hpc, hitem]
        simpa using Ne.symm hitem'
      simp [mark_of_ne hitem', hnot]
  · rw [moveTo_of_ne hj, h.owner j item']
    by_cases hitem' : item' = item
    · simp [hitem', hwith, Ne.symm hj]
    · rw [mark_of_ne hitem']

lemma atEnd_keep (h : s.Inv rules entries) (hpc' : pc'.AtEnd → s.stream = []) (j : ι)
    (hend : (s.moveTo i pc' j).AtEnd) : s.stream = [] := by
  by_cases hj : j = i
  · subst hj
    rw [moveTo_self] at hend
    exact hpc' hend
  · rw [moveTo_of_ne hj] at hend
    exact h.atEnd j hend

/-- **Every step keeps the invariant.** -/
lemma step [DecidableEq J] (h : s.Inv rules entries) (hnodup : (entries.filterMap rules.accept).Nodup)
    (hstep : PoolStep rules s s') : s'.Inv rules entries := by
  obtain ⟨handed, hentries, hhanded⟩ := h.stream
  cases hstep with
  | lock i hpc hfree =>
      exact ⟨h.critical_lock hfree trivial, h.stream, h.owner_keep hpc rfl, h.atEnd_keep nofun⟩
  | @skip i e rest hpc hstream haccept =>
      refine ⟨h.mutex, ⟨handed ++ [e], by simp [hentries, hstream], ?_⟩, h.owner, ?_⟩
      · intro item
        rw [hhanded item]
        simp [haccept]
      · intro j hend
        exact absurd hend (h.not_atEnd hstream j)
  | @take i e rest item hpc hstream haccept =>
      have hlisted := h.listed hnodup hstream haccept
      refine ⟨h.critical_keep hpc Iff.rfl, ⟨handed ++ [e], by simp [hentries, hstream], ?_⟩,
        h.owner_take hpc rfl rfl hlisted, ?_⟩
      · intro item'
        by_cases hitem : item' = item
        · subst hitem
          simp [haccept]
        · show s.mark item (.With i) item' ≠ .Listed ↔ _
          rw [mark_of_ne hitem, hhanded item']
          simp [haccept, Ne.symm hitem]
      · intro j hend
        have hholding : (PoolPc.Holding item : PoolPc J L).AtEnd → s.stream = [] := False.elim
        exact absurd (h.atEnd_keep hholding j hend) (by simp [hstream])
  | unlock i hpc =>
      exact ⟨h.critical_unlock hpc trivial (fun hcritical => hcritical), h.stream,
        h.owner_keep hpc rfl, h.atEnd_keep nofun⟩
  | giveUp i hpc =>
      exact ⟨h.critical_keep hpc Iff.rfl, h.stream, h.owner_keep hpc rfl, h.atEnd_keep nofun⟩
  | start i hpc hstart =>
      exact ⟨h.critical_keep hpc Iff.rfl, h.stream, h.owner_keep hpc rfl, h.atEnd_keep nofun⟩
  | work i hpc hwork =>
      exact ⟨h.critical_keep hpc Iff.rfl, h.stream, h.owner_keep hpc rfl, h.atEnd_keep nofun⟩
  | @finish i item progress shared hpc hwork =>
      refine ⟨h.critical_keep hpc Iff.rfl, ⟨handed, hentries, ?_⟩, h.owner_finish hpc rfl rfl,
        h.atEnd_keep nofun⟩
      have hwith : s.fate item = .With i := by
        rw [← h.owner i item, hpc]
        rfl
      intro item'
      by_cases hitem : item' = item
      · subst hitem
        simp [← hhanded, hwith]
      · show s.mark item .Finished item' ≠ .Listed ↔ _
        rw [mark_of_ne hitem, hhanded item']
  | last i hpc hstream =>
      exact ⟨h.critical_keep hpc Iff.rfl, h.stream, h.owner_keep hpc rfl,
        h.atEnd_keep fun _ => hstream⟩
  | leave i hpc =>
      exact ⟨h.critical_unlock hpc trivial (fun hcritical => hcritical), h.stream,
        h.owner_keep hpc rfl, h.atEnd_keep fun _ => h.atEnd i (hpc ▸ trivial)⟩

/-- **All along a run**, the entries being of use for different items. -/
theorem run [DecidableEq J] {shared : σ} (hnodup : (entries.filterMap rules.accept).Nodup)
    (h : Reachable (PoolStep rules) (Pool.initial entries shared) s) : s.Inv rules entries :=
  h.invariant (fun s => s.Inv rules entries) (.initial rules entries shared)
    fun _ _ hinv hstep => hinv.step hnodup hstep

/-! ## What comes of it -/

omit [DecidableEq ι]

/-- **Mutual exclusion.** -/
lemma exclusive (h : s.Inv rules entries) {i j : ι} (hi : (s.pc i).Critical)
    (hj : (s.pc j).Critical) : i = j := by
  have hheld := (h.mutex i).mp hi
  rw [(h.mutex j).mp hj] at hheld
  exact (Option.some.inj hheld).symm

/-- **An item is in the hands of one thread.** -/
lemma item_unique (h : s.Inv rules entries) {i j : ι} {item : J} (hi : (s.pc i).item = some item)
    (hj : (s.pc j).item = some item) : i = j := by
  have hwith := (h.owner i item).mp hi
  rw [(h.owner j item).mp hj] at hwith
  exact (Fate.With.inj hwith).symm

/-- **At the end.**  If there is a thread that has not given up, every item has been handed out. -/
lemma shared_out (h : s.Inv rules entries) (hgone : ∀ i, (s.pc i).Gone) {e : E} {item : J}
    (he : e ∈ entries) (haccept : rules.accept e = some item) :
    s.fate item = .Finished ∨ (∃ i, s.pc i = .GivenUp item) ∨ ∀ i, ∃ item', s.pc i = .GivenUp item' := by
  obtain ⟨handed, hentries, hhanded⟩ := h.stream
  cases hfate : s.fate item with
  | Finished => exact Or.inl rfl
  | With i =>
      have hitem := (h.owner i item).mpr hfate
      have hi := hgone i
      cases hpc : s.pc i with
      | GivenUp item' =>
          rw [hpc] at hitem
          obtain rfl : item' = item := Option.some.inj hitem
          exact Or.inr (Or.inl ⟨i, hpc⟩)
      | Exited =>
          rw [hpc] at hitem
          cases hitem
      | Locking | Reading | Holding _ | Starting _ | Working _ _ | Leaving =>
          rw [hpc] at hi
          exact hi.elim
  | Listed =>
      refine Or.inr (Or.inr ?_)
      intro i
      have hi := hgone i
      cases hpc : s.pc i with
      | GivenUp item' => exact ⟨item', rfl⟩
      | Exited =>
          -- it has seen the end, so the item has been handed out
          have hend := h.atEnd i (by rw [hpc]; trivial)
          rw [hend, List.append_nil] at hentries
          have hmem : e ∈ handed := hentries ▸ he
          exact absurd hfate ((hhanded item).mpr ⟨e, hmem, haccept⟩)
      | Locking | Reading | Holding _ | Starting _ | Working _ _ | Leaving =>
          rw [hpc] at hi
          exact hi.elim

/-- **An item that is finished stays so**, and nobody has it. -/
lemma finished_step [DecidableEq ι] [DecidableEq J] (h : s.Inv rules entries)
    (hnodup : (entries.filterMap rules.accept).Nodup) {item : J} (hfinished : s.fate item = .Finished)
    (hstep : PoolStep rules s s') : s'.fate item = .Finished := by
  cases hstep with
  | @take i e rest item' hpc hstream haccept =>
      have hne : item ≠ item' := by
        rintro rfl
        rw [h.listed hnodup hstream haccept] at hfinished
        cases hfinished
      exact (mark_of_ne hne).trans hfinished
  | @finish i item' progress shared hpc hwork =>
      by_cases hitem : item = item'
      · subst hitem
        exact mark_self
      · exact (mark_of_ne hitem).trans hfinished
  | lock | skip | unlock | giveUp | start | work | last | leave => exact hfinished

lemma finished_run [DecidableEq ι] [DecidableEq J] (h : s.Inv rules entries)
    (hnodup : (entries.filterMap rules.accept).Nodup) {item : J} (hfinished : s.fate item = .Finished)
    (hrun : Reachable (PoolStep rules) s s') :
    s'.fate item = .Finished ∧ ∀ i, (s'.pc i).item ≠ some item := by
  obtain ⟨hinv, hstill⟩ := hrun.invariant (fun s => s.Inv rules entries ∧ s.fate item = .Finished)
    ⟨h, hfinished⟩ fun _ _ hs hstep => ⟨hs.1.step hnodup hstep, hs.1.finished_step hnodup hs.2 hstep⟩
  refine ⟨hstill, ?_⟩
  intro i hi
  rw [(hinv.owner i item).mp hi] at hstill
  cases hstill

/-- **The entries read so far** are the first of the stream, and their items are in the hands of a thread
or finished. -/
lemma handed_out (h : s.Inv rules entries) : ∃ handed, entries = handed ++ s.stream ∧
    ∀ item, (∃ e ∈ handed, rules.accept e = some item) ↔
      (∃ i, (s.pc i).item = some item) ∨ s.fate item = .Finished := by
  obtain ⟨handed, hentries, hhanded⟩ := h.stream
  refine ⟨handed, hentries, ?_⟩
  intro item
  rw [← hhanded item]
  constructor
  · intro hnot
    cases hfate : s.fate item with
    | Listed => exact absurd hfate hnot
    | With i => exact Or.inl ⟨i, (h.owner i item).mpr hfate⟩
    | Finished => exact Or.inr rfl
  · rintro (⟨i, hi⟩ | hfinished)
    · rw [(h.owner i item).mp hi]
      exact nofun
    · rw [hfinished]
      exact nofun

/-- **Never stuck.**  Until all threads are gone one of them can take a step, if those at work can and
those with an item can start, and then nobody has to give up. -/
theorem exists_step_on [DecidableEq ι] [DecidableEq J] (h : s.Inv rules entries)
    (hstart : ∀ i item, s.pc i = .Starting item →
      ∃ progress shared, rules.starts item s.shared progress shared)
    (hwork : ∀ i item progress, s.pc i = .Working item progress →
      ∃ shared next, rules.works item s.shared progress shared next)
    {i : ι} (hi : ¬ (s.pc i).Gone) :
    ∃ s', PoolStep rules s s' ∧ ∀ j item, s'.pc j = .GivenUp item → s.pc j = .GivenUp item := by
  have hmoved : ∀ {i : ι} {pc' : PoolPc J L}, (∀ item, pc' ≠ .GivenUp item) →
      ∀ j item, s.moveTo i pc' j = .GivenUp item → s.pc j = .GivenUp item := by
    intro i pc' hpc' j item hj
    by_cases heq : j = i
    · subst heq
      rw [moveTo_self] at hj
      exact absurd hj (hpc' item)
    · rwa [moveTo_of_ne heq] at hj
  -- a thread inside the critical section can always go on
  have hcritical : ∀ j, (s.pc j).Critical →
      ∃ s', PoolStep rules s s' ∧ ∀ k item, s'.pc k = .GivenUp item → s.pc k = .GivenUp item := by
    intro j hj
    cases hpc : s.pc j with
    | Reading =>
        cases hstream : s.stream with
        | nil => exact ⟨_, .last j hpc hstream, hmoved nofun⟩
        | cons e rest =>
            cases haccept : rules.accept e with
            | none => exact ⟨_, .skip j hpc hstream haccept, fun _ _ hk => hk⟩
            | some item => exact ⟨_, .take j hpc hstream haccept, hmoved nofun⟩
    | Holding item => exact ⟨_, .unlock j hpc, hmoved nofun⟩
    | Leaving => exact ⟨_, .leave j hpc, hmoved nofun⟩
    | Locking | Starting _ | Working _ _ | Exited | GivenUp _ =>
        rw [hpc] at hj
        exact hj.elim
  cases hpc : s.pc i with
  | Locking =>
      cases hmutex : s.mutex with
      | none => exact ⟨_, .lock i hpc hmutex, hmoved nofun⟩
      | some j => exact hcritical j ((h.mutex j).mpr hmutex)
  | Starting item =>
      obtain ⟨progress, shared, hstarts⟩ := hstart i item hpc
      exact ⟨_, .start i hpc hstarts, hmoved nofun⟩
  | Working item progress =>
      obtain ⟨shared, next, hnext⟩ := hwork i item progress hpc
      cases next with
      | none => exact ⟨_, .finish i hpc hnext, hmoved nofun⟩
      | some progress' => exact ⟨_, .work i hpc hnext, hmoved nofun⟩
  | Reading | Holding _ | Leaving => exact hcritical i (by rw [hpc]; trivial)
  | Exited | GivenUp _ =>
      rw [hpc] at hi
      exact absurd trivial hi

/-- Nor is it stuck if some cannot start, for these can give up. -/
theorem exists_step [DecidableEq ι] [DecidableEq J] (h : s.Inv rules entries)
    (hwork : ∀ i item progress, s.pc i = .Working item progress →
      ∃ shared next, rules.works item s.shared progress shared next)
    {i : ι} (hi : ¬ (s.pc i).Gone) : ∃ s', PoolStep rules s s' := by
  by_cases hstarting : ∃ j item, s.pc j = .Starting item
  · obtain ⟨j, item, hj⟩ := hstarting
    exact ⟨_, .giveUp j hj⟩
  · obtain ⟨s', hstep, -⟩ :=
      h.exists_step_on (fun j item hj => absurd ⟨j, item, hj⟩ hstarting) hwork hi
    exact ⟨s', hstep⟩

end Pool.Inv

/-- Who is gone takes no step. -/
lemma PoolStep.not_gone [DecidableEq ι] [DecidableEq J] (hstep : PoolStep rules s s') :
    ∃ i, ¬ (s.pc i).Gone := by
  cases hstep with
  | lock i hpc | skip i hpc | take i hpc | unlock i hpc | giveUp i hpc | start i hpc | work i hpc
  | finish i hpc | last i hpc | leave i hpc => exact ⟨i, by rw [hpc]; exact id⟩

/-! ## What the work keeps -/

/-- The shared state has one property, and the progress on every item another. -/
def Pool.Keeps (P : σ → Prop) (Q : L → Prop) (s : Pool ι E J L σ) : Prop :=
  P s.shared ∧ ∀ i item progress, s.pc i = .Working item progress → Q progress

/-- A thread moves on, with progress of the kind if it has any. -/
lemma Pool.Keeps.moveTo [DecidableEq ι] {P : σ → Prop} {Q : L → Prop} (h : s.Keeps P Q) {i : ι}
    {pc' : PoolPc J L} (hmoved : s'.pc = s.moveTo i pc') (hshared : P s'.shared)
    (hprogress : ∀ item progress, pc' = .Working item progress → Q progress) : s'.Keeps P Q := by
  refine ⟨hshared, ?_⟩
  intro j item progress hpc
  rw [hmoved] at hpc
  by_cases hj : j = i
  · subst hj
    rw [Pool.moveTo_self] at hpc
    exact hprogress item progress hpc
  · rw [Pool.moveTo_of_ne hj] at hpc
    exact h.2 j item progress hpc

/-- **What the work keeps, the pool keeps.** -/
theorem PoolStep.keeps [DecidableEq ι] [DecidableEq J] {P : σ → Prop} {Q : L → Prop}
    (hstarts : ∀ {item shared progress shared'}, P shared →
      rules.starts item shared progress shared' → P shared' ∧ Q progress)
    (hworks : ∀ {item shared progress shared' next}, P shared → Q progress →
      rules.works item shared progress shared' next → P shared' ∧ ∀ progress' ∈ next, Q progress')
    (h : s.Keeps P Q) (hstep : PoolStep rules s s') : s'.Keeps P Q := by
  cases hstep with
  | start i hpc hstart =>
      obtain ⟨hshared, hprogress⟩ := hstarts h.1 hstart
      refine h.moveTo rfl hshared ?_
      rintro _ _ hworking
      obtain ⟨-, rfl⟩ := PoolPc.Working.inj hworking
      exact hprogress
  | work i hpc hwork =>
      obtain ⟨hshared, hprogress⟩ := hworks h.1 (h.2 i _ _ hpc) hwork
      refine h.moveTo rfl hshared ?_
      rintro _ _ hworking
      obtain ⟨-, rfl⟩ := PoolPc.Working.inj hworking
      exact hprogress _ rfl
  | finish i hpc hwork => exact h.moveTo rfl (hworks h.1 (h.2 i _ _ hpc) hwork).1 nofun
  | skip i hpc hstream haccept => exact h
  | lock i hpc hfree => exact h.moveTo rfl h.1 nofun
  | take i hpc hstream haccept => exact h.moveTo rfl h.1 nofun
  | unlock i hpc => exact h.moveTo rfl h.1 nofun
  | giveUp i hpc => exact h.moveTo rfl h.1 nofun
  | last i hpc hstream => exact h.moveTo rfl h.1 nofun
  | leave i hpc => exact h.moveTo rfl h.1 nofun

/-! ## It comes to an end -/

/-- The work on an item is bounded: what is left of it goes down. -/
structure PoolRules.Bounded (rules : PoolRules E J L σ) (size : J → ℕ) (left : L → ℕ) : Prop where
  starts : ∀ {item shared progress shared'}, rules.starts item shared progress shared' →
    left progress ≤ size item
  works : ∀ {item shared progress shared' progress'},
    rules.works item shared progress shared' (some progress') → left progress' < left progress

section Weight

variable (rules : PoolRules E J L σ) (size : J → ℕ) (left : L → ℕ)

/-- The steps a thread takes before it is in front of the mutex again, and three for leaving. -/
def PoolPc.weight : PoolPc J L → ℕ
  | Locking => 3
  | Reading => 2
  | Holding item => size item + 6
  | Starting item => size item + 5
  | Working _ progress => left progress + 4
  | Leaving => 1
  | Exited => 0
  | GivenUp _ => 0

/-- The steps that an entry takes. -/
def PoolRules.entryWeight (e : E) : ℕ :=
  match rules.accept e with
  | none => 1
  | some item => size item + 5

/-- The steps that a stream takes. -/
def PoolRules.streamWeight : List E → ℕ
  | [] => 0
  | e :: rest => rules.entryWeight size e + streamWeight rest

/-- The steps that are left, at most. -/
def Pool.weight [Fintype ι] (s : Pool ι E J L σ) : ℕ :=
  rules.streamWeight size s.stream + ∑ i, (s.pc i).weight size left

variable {rules size left} [Fintype ι] [DecidableEq ι] {i : ι} {pc pc' : PoolPc J L}

/-- A thread moves, and with what becomes of the stream it leaves less. -/
lemma Pool.weight_move (hpc : s.pc i = pc) (hmoved : s'.pc = s.moveTo i pc')
    (hless : rules.streamWeight size s'.stream + pc'.weight size left
      < rules.streamWeight size s.stream + pc.weight size left) :
    s'.weight rules size left < s.weight rules size left := by
  have hothers : ∑ j ∈ Finset.univ.erase i, (s.moveTo i pc' j).weight size left
      = ∑ j ∈ Finset.univ.erase i, (s.pc j).weight size left :=
    Finset.sum_congr rfl fun j hj => by rw [Pool.moveTo_of_ne (Finset.ne_of_mem_erase hj)]
  rw [Pool.weight, Pool.weight, hmoved,
    ← Finset.add_sum_erase Finset.univ (fun j => (s.moveTo i pc' j).weight size left)
      (Finset.mem_univ i),
    ← Finset.add_sum_erase Finset.univ (fun j => (s.pc j).weight size left) (Finset.mem_univ i),
    hothers, Pool.moveTo_self, hpc]
  omega

/-- **Every step leaves less.** -/
lemma PoolStep.weight_lt [DecidableEq J] (hbounded : rules.Bounded size left)
    (hstep : PoolStep rules s s') : s'.weight rules size left < s.weight rules size left := by
  cases hstep with
  | lock i hpc hfree => exact Pool.weight_move hpc rfl (by simp [PoolPc.weight])
  | skip i hpc hstream haccept =>
      simp only [Pool.weight, hstream, PoolRules.streamWeight, PoolRules.entryWeight, haccept]
      omega
  | take i hpc hstream haccept =>
      refine Pool.weight_move hpc rfl ?_
      simp only [hstream, PoolRules.streamWeight, PoolRules.entryWeight, haccept, PoolPc.weight]
      omega
  | unlock i hpc => exact Pool.weight_move hpc rfl (by simp [PoolPc.weight])
  | giveUp i hpc => exact Pool.weight_move hpc rfl (by simp [PoolPc.weight])
  | start i hpc hstart =>
      have hle := hbounded.starts hstart
      refine Pool.weight_move hpc rfl ?_
      simp only [PoolPc.weight]
      omega
  | work i hpc hwork =>
      have hlt := hbounded.works hwork
      refine Pool.weight_move hpc rfl ?_
      simp only [PoolPc.weight]
      omega
  | finish i hpc hwork =>
      refine Pool.weight_move hpc rfl ?_
      simp only [PoolPc.weight]
      omega
  | last i hpc hstream => exact Pool.weight_move hpc rfl (by simp [PoolPc.weight])
  | leave i hpc => exact Pool.weight_move hpc rfl (by simp [PoolPc.weight])

omit [DecidableEq ι] in
lemma Pool.weight_initial (entries : List E) (shared : σ) :
    (Pool.initial entries shared : Pool ι E J L σ).weight rules size left
      = rules.streamWeight size entries + 3 * Fintype.card ι := by
  simp [Pool.weight, Pool.initial, PoolPc.weight, mul_comm]

/-- **The pool comes to an end**: however the steps of the threads are ordered, there are no more of
them than this. -/
theorem Pool.steps_le_weight [DecidableEq J] (hbounded : rules.Bounded size left) {n : ℕ}
    {shared : σ} (h : RunOf (PoolStep rules) n (Pool.initial entries shared) s) :
    n ≤ rules.streamWeight size entries + 3 * Fintype.card ι := by
  have hle := h.length_le (Pool.weight rules size left) fun _ _ hstep => hstep.weight_lt hbounded
  rw [Pool.weight_initial] at hle
  omega

/-- **The pool can be brought to its end.**  If in every state that it comes to the items can be started
and worked on, then from each of these states in which nobody has given up there is a run to one in which
all threads have seen the end of the stream. -/
theorem Pool.exists_run_exited [DecidableEq J] (hbounded : rules.Bounded size left)
    (hnodup : (entries.filterMap rules.accept).Nodup) {shared : σ}
    (hstart : ∀ (s : Pool ι E J L σ) i item,
      Reachable (PoolStep rules) (Pool.initial entries shared) s → s.pc i = .Starting item →
      ∃ progress shared', rules.starts item s.shared progress shared')
    (hwork : ∀ (s : Pool ι E J L σ) i item progress,
      Reachable (PoolStep rules) (Pool.initial entries shared) s → s.pc i = .Working item progress →
      ∃ shared' next, rules.works item s.shared progress shared' next)
    (h : Reachable (PoolStep rules) (Pool.initial entries shared) s)
    (hnone : ∀ i item, s.pc i ≠ .GivenUp item) :
    ∃ s', Reachable (PoolStep rules) s s' ∧ ∀ i, s'.pc i = .Exited := by
  have hnext : ∀ s : Pool ι E J L σ,
      (Reachable (PoolStep rules) (Pool.initial entries shared) s ∧ ∀ i item, s.pc i ≠ .GivenUp item) →
      (∀ i, s.pc i = .Exited) ∨ ∃ s', PoolStep rules s s' ∧
        (Reachable (PoolStep rules) (Pool.initial entries shared) s' ∧
          ∀ i item, s'.pc i ≠ .GivenUp item) ∧
        s'.weight rules size left < s.weight rules size left := by
    rintro s ⟨h, hnone⟩
    by_cases hall : ∀ i, s.pc i = .Exited
    · exact Or.inl hall
    · right
      obtain ⟨i, hi⟩ := not_forall.mp hall
      have hgone : ¬ (s.pc i).Gone := by
        intro hgone
        cases hpc : s.pc i with
        | Exited => exact hi hpc
        | GivenUp item => exact hnone i item hpc
        | Locking | Reading | Holding _ | Starting _ | Working _ _ | Leaving =>
            rw [hpc] at hgone
            exact hgone.elim
      obtain ⟨s', hstep, hsame⟩ := (Pool.Inv.run hnodup h).exists_step_on
        (fun j item => hstart s j item h) (fun j item progress => hwork s j item progress h) hgone
      refine ⟨s', hstep, ⟨h.tail hstep, ?_⟩, hstep.weight_lt hbounded⟩
      exact fun j item hj => hnone j item (hsame j item hj)
  obtain ⟨s', hrun, -, hexited⟩ := Reachable.exists_end _ _ _ hnext ⟨h, hnone⟩
  exact ⟨s', hrun, hexited⟩

end Weight

/-! ## Without the threads -/

/-- How far the work on an item has come. -/
inductive ItemState (L : Type) where
  | Untouched
  | Running (progress : L)
  | Done

/-- The items and what they share. -/
structure Items (J L σ : Type) where
  state : J → ItemState L
  shared : σ

/-- Nothing done so far. -/
def Items.initial (shared : σ) : Items J L σ where
  state := fun _ => .Untouched
  shared := shared

/-- The items with one of them, and the shared state, changed. -/
def Items.set [DecidableEq J] (s : Items J L σ) (item : J) (state : ItemState L) (shared : σ) :
    Items J L σ where
  state := Function.update s.state item state
  shared := shared

/-- One step of the work on one item. -/
inductive ItemStep [DecidableEq J] (rules : PoolRules E J L σ) (entries : List E) :
    Items J L σ → Items J L σ → Prop
  | start {s : Items J L σ} {item : J} {progress : L} {shared : σ} :
      (∃ e ∈ entries, rules.accept e = some item) → s.state item = .Untouched →
      rules.starts item s.shared progress shared →
      ItemStep rules entries s (s.set item (.Running progress) shared)
  | work {s : Items J L σ} {item : J} {progress progress' : L} {shared : σ} :
      s.state item = .Running progress →
      rules.works item s.shared progress shared (some progress') →
      ItemStep rules entries s (s.set item (.Running progress') shared)
  | finish {s : Items J L σ} {item : J} {progress : L} {shared : σ} :
      s.state item = .Running progress →
      rules.works item s.shared progress shared none →
      ItemStep rules entries s (s.set item .Done shared)

namespace Pool

/-- What a thread has done of the item it has. -/
def progress : PoolPc J L → ItemState L
  | .Working _ progress => .Running progress
  | _ => .Untouched

/-- A pool seen from its items. -/
def items (s : Pool ι E J L σ) : Items J L σ where
  state := fun item =>
    match s.fate item with
    | .Listed => .Untouched
    | .With i => progress (s.pc i)
    | .Finished => .Done
  shared := s.shared

section Views

variable {s s' : Pool ι E J L σ} {i : ι} {item : J}

lemma items_state_with {pc : PoolPc J L} {state : ItemState L} (h : s.fate item = .With i)
    (hpc : s.pc i = pc) (hstate : progress pc = state) : s.items.state item = state := by
  simp only [items, h, hpc, hstate]

lemma items_state_finished (h : s.fate item = .Finished) : s.items.state item = .Done := by
  simp only [items, h]

variable [DecidableEq ι] {pc pc' : PoolPc J L}

/-- A thread that moves with no progress made is not seen. -/
lemma items_moveTo_same (hpc : s.pc i = pc) (hpcs : s'.pc = s.moveTo i pc')
    (hfates : s'.fate = s.fate) (hshared : s'.shared = s.shared)
    (hprogress : progress pc' = progress pc) : s'.items = s.items := by
  have hprogresses : ∀ j, progress (s.moveTo i pc' j) = progress (s.pc j) := by
    intro j
    by_cases hj : j = i
    · subst hj
      rw [moveTo_self, hprogress, hpc]
    · rw [moveTo_of_ne hj]
  simp only [items, hpcs, hfates, hshared, hprogresses]

variable [DecidableEq J]

/-- A thread changes the state of the item in its hands, and of no other. -/
lemma Inv.items_moveTo (h : s.Inv rules entries) {state : ItemState L} (hpc : s.pc i = pc)
    (hmine : ∀ item', pc.item = some item' → item' = item) (hpcs : s'.pc = s.moveTo i pc')
    (hfates : ∀ item', item' ≠ item → s'.fate item' = s.fate item')
    (hstate : s'.items.state item = state) : s'.items = s.items.set item state s'.shared := by
  have hstates : s'.items.state = Function.update s.items.state item state := by
    funext item'
    by_cases heq : item' = item
    · subst heq
      rw [Function.update_self, hstate]
    · rw [Function.update_of_ne heq]
      simp only [items, hpcs, hfates item' heq]
      cases hfate : s.fate item' with
      | Listed => rfl
      | Finished => rfl
      | With j =>
          -- it is with another thread
          have hj : j ≠ i := by
            rintro rfl
            exact heq (hmine item' (hpc ▸ (h.owner j item').mpr hfate))
          simp only [moveTo_of_ne hj]
  exact congrArg (fun state => (⟨state, s'.shared⟩ : Items J L σ)) hstates

omit [DecidableEq ι] [DecidableEq J] in
/-- An item in a thread's hands has been in the stream. -/
lemma Inv.mem_entries (h : s.Inv rules entries) (hitem : (s.pc i).item = some item) :
    ∃ e ∈ entries, rules.accept e = some item := by
  obtain ⟨handed, hentries, hhanded⟩ := h.stream
  have hwith := (h.owner i item).mp hitem
  obtain ⟨e, he, haccept⟩ := (hhanded item).mp (by simp [hwith])
  exact ⟨e, hentries ▸ List.mem_append_left _ he, haccept⟩

/-- **A step of the pool is one of the items**, or it is not seen. -/
theorem Inv.items_step (h : s.Inv rules entries) (hnodup : (entries.filterMap rules.accept).Nodup)
    (hstep : PoolStep rules s s') : s'.items = s.items ∨ ItemStep rules entries s.items s'.items := by
  cases hstep with
  | lock i hpc hfree => exact Or.inl (items_moveTo_same hpc rfl rfl rfl rfl)
  | skip i hpc hstream haccept => exact Or.inl rfl
  | @take i e rest item hpc hstream haccept =>
      left
      have huntouched : s.items.state item = .Untouched := by
        simp only [items, h.listed hnodup hstream haccept]
      rw [h.items_moveTo hpc nofun rfl (fun item' hne => mark_of_ne hne)
        (items_state_with mark_self moveTo_self rfl), Items.set]
      exact congrArg (fun state => (⟨state, s.shared⟩ : Items J L σ))
        (Function.update_eq_self_iff.mpr huntouched.symm)
  | unlock i hpc => exact Or.inl (items_moveTo_same hpc rfl rfl rfl rfl)
  | giveUp i hpc => exact Or.inl (items_moveTo_same hpc rfl rfl rfl rfl)
  | @start i item progress shared hpc hstart =>
      right
      have hitem : (s.pc i).item = some item := congrArg PoolPc.item hpc
      have hwith := (h.owner i item).mp hitem
      have huntouched := items_state_with hwith hpc rfl
      have hset : items { s with pc := s.moveTo i (.Working item progress), shared := shared }
          = s.items.set item (.Running progress) shared :=
        h.items_moveTo hpc (fun _ hmine => (Option.some.inj hmine).symm) rfl (fun _ _ => rfl)
          (items_state_with hwith moveTo_self rfl)
      rw [hset]
      exact .start (h.mem_entries hitem) huntouched hstart
  | @work i item progress progress' shared hpc hwork =>
      right
      have hwith := (h.owner i item).mp (congrArg PoolPc.item hpc)
      have hrunning := items_state_with hwith hpc rfl
      have hset : items { s with pc := s.moveTo i (.Working item progress'), shared := shared }
          = s.items.set item (.Running progress') shared :=
        h.items_moveTo hpc (fun _ hmine => (Option.some.inj hmine).symm) rfl (fun _ _ => rfl)
          (items_state_with hwith moveTo_self rfl)
      rw [hset]
      exact .work hrunning hwork
  | @finish i item progress shared hpc hwork =>
      right
      have hwith := (h.owner i item).mp (congrArg PoolPc.item hpc)
      have hrunning := items_state_with hwith hpc rfl
      have hset : items { s with
          pc := s.moveTo i .Locking
          fate := s.mark item .Finished
          shared := shared } = s.items.set item .Done shared :=
        h.items_moveTo hpc (fun _ hmine => (Option.some.inj hmine).symm) rfl
          (fun item' hne => mark_of_ne hne) (items_state_finished mark_self)
      rw [hset]
      exact .finish hrunning hwork
  | last i hpc hstream => exact Or.inl (items_moveTo_same hpc rfl rfl rfl rfl)
  | leave i hpc => exact Or.inl (items_moveTo_same hpc rfl rfl rfl rfl)

/-- **A run of the pool is one of the items.** -/
theorem items_reachable {shared : σ} (hnodup : (entries.filterMap rules.accept).Nodup)
    (h : Reachable (PoolStep rules) (Pool.initial entries shared : Pool ι E J L σ) s) :
    Reachable (ItemStep rules entries) (Items.initial shared) s.items := by
  have hboth : s.Inv rules entries ∧ Reachable (ItemStep rules entries) (Items.initial shared)
      s.items := by
    refine h.invariant (fun s => s.Inv rules entries ∧ Reachable (ItemStep rules entries)
      (Items.initial shared) s.items) ⟨.initial rules entries shared, .refl _⟩ ?_
    rintro s s' ⟨hinv, hreach⟩ hstep
    refine ⟨hinv.step hnodup hstep, ?_⟩
    rcases hinv.items_step hnodup hstep with hsame | hstep
    · rw [hsame]
      exact hreach
    · exact hreach.tail hstep
  exact hboth.2

end Views

end Pool

end Steps

end Kvs
