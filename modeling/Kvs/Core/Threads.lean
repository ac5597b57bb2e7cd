import Mathlib.Algebra.BigOperators.Group.Finset.Piecewise
import Mathlib.Algebra.Order.BigOperators.Group.Finset
import Mathlib.Data.Fintype.Card
import Mathlib.Logic.Relation

/-!
# Runs and thread counts

What every argument about runs starts with, of interleaved threads and of one thread alone.

* **The invariant rule.**  What holds of the initial state and is kept by every step holds of every
  state a run reaches (`Reachable.invariant`).  A step here is any step of any thread, so the rule
  covers all interleavings at once.  Restricting the relation to the steps that satisfy a condition
  gives the rule for runs whose steps all do.
* **Where runs end.**  A measure that every step lowers bounds the length of a run (`RunOf.length_le`);
  one that some step lowers leads to an end (`Reachable.exists_end`).
* **What holds all along.**  A system executes one command after the other, and a command may fail,
  which ends the run.  A property should hold in every state of it (`Always`), and a step may keep the
  property or spoil it, depending on the state in front of it (`EachStep`).  `always_iff_eachStep`: one
  is the other, if a step keeps the property exactly when it meets the condition.
* **Counting.**  How many of finitely many threads are at a program point satisfying a predicate
  (`threadCount`), and what becomes of the count when one of them moves (`threadCount_update`).
  Invariants of semaphores and counters are equations between such counts.
-/

namespace Kvs

section Runs

variable {σ : Type} {step : σ → σ → Prop} {init s : σ}

/-- The states that runs from `init` come through. -/
def Reachable (step : σ → σ → Prop) (init s : σ) : Prop := Relation.ReflTransGen step init s

/-- **Invariant rule.** -/
theorem Reachable.invariant (h : Reachable step init s) (inv : σ → Prop) (hinit : inv init)
    (hstep : ∀ s s', inv s → step s s' → inv s') : inv s := by
  induction h with
  | refl => exact hinit
  | tail _ hlast ih => exact hstep _ _ ih hlast

lemma Reachable.refl (s : σ) : Reachable step s s := Relation.ReflTransGen.refl

lemma Reachable.tail {s' : σ} (h : Reachable step init s) (hstep : step s s') :
    Reachable step init s' :=
  Relation.ReflTransGen.tail h hstep

lemma Reachable.trans {s' : σ} (h : Reachable step init s) (h' : Reachable step s s') :
    Reachable step init s' :=
  Relation.ReflTransGen.trans h h'

/-- Runs of steps of one kind are runs of steps of a wider kind. -/
lemma Reachable.mono {step' : σ → σ → Prop} (h : Reachable step init s)
    (hsub : ∀ s s', step s s' → step' s s') : Reachable step' init s :=
  Relation.ReflTransGen.mono hsub _ _ h

/-- A run of so many steps. -/
inductive RunOf (step : σ → σ → Prop) : ℕ → σ → σ → Prop
  | refl (s : σ) : RunOf step 0 s s
  | tail {n : ℕ} {s s' s'' : σ} : RunOf step n s s' → step s' s'' → RunOf step (n + 1) s s''

/-- **Runs end** if every step leaves less to do. -/
theorem RunOf.length_le {n : ℕ} {s' : σ} (h : RunOf step n s s') (measure : σ → ℕ)
    (hdecreases : ∀ s s', step s s' → measure s' < measure s) : n + measure s' ≤ measure s := by
  induction h with
  | refl s => omega
  | tail _ hlast ih =>
      have hlt := hdecreases _ _ hlast
      omega

/-- A run has so many steps. -/
lemma Reachable.exists_runOf {s' : σ} (h : Reachable step s s') : ∃ n, RunOf step n s s' := by
  induction h with
  | refl => exact ⟨0, .refl s⟩
  | tail _ hlast ih =>
      obtain ⟨n, hrun⟩ := ih
      exact ⟨n + 1, hrun.tail hlast⟩

/-- **Runs can be brought to an end**, by induction over what is left to do, if in every good state that
is no end some step leaves less and a good state. -/
theorem Reachable.exists_end (good final : σ → Prop) (measure : σ → ℕ)
    (hnext : ∀ s, good s → final s ∨ ∃ s', step s s' ∧ good s' ∧ measure s' < measure s)
    (hs : good s) : ∃ s', Reachable step s s' ∧ good s' ∧ final s' := by
  obtain ⟨n, hn⟩ : ∃ n, measure s < n := ⟨_, Nat.lt_succ_self _⟩
  induction n generalizing s with
  | zero => exact absurd hn (Nat.not_lt_zero _)
  | succ n ih =>
      rcases hnext s hs with hfinal | ⟨s', hstep, hs', hless⟩
      · exact ⟨s, .refl s, hs, hfinal⟩
      · obtain ⟨s'', hrun, hs'', hfinal⟩ := ih hs' (by omega)
        exact ⟨s'', Relation.ReflTransGen.head hstep hrun, hs'', hfinal⟩

end Runs

section Commands

variable {σ γ ε : Type}

/-- A property of every state of a run, the first one included. -/
def Always (step : σ → γ → Except ε σ) (P : σ → Prop) : σ → List γ → Prop
  | s, [] => P s
  | s, c :: cs => P s ∧ ∀ s', step s c = .ok s' → Always step P s' cs

/-- A condition on every step of a run. -/
def EachStep (step : σ → γ → Except ε σ) (Q : σ → γ → Prop) : σ → List γ → Prop
  | _, [] => True
  | s, c :: cs => Q s c ∧ ∀ s', step s c = .ok s' → EachStep step Q s' cs

variable {step : σ → γ → Except ε σ} {P : σ → Prop} {Q : σ → γ → Prop} {s : σ}

lemma Always.start {cs : List γ} (h : Always step P s cs) : P s := by
  cases cs with
  | nil => exact h
  | cons c cs => exact h.1

/-- **The rule for runs**, by induction over the commands. -/
theorem always_iff_eachStep (hkeep : ∀ s c s', P s → Q s c → step s c = .ok s' → P s')
    (hspoil : ∀ s c, P s → ¬ Q s c → ∃ s', step s c = .ok s' ∧ ¬ P s') (hs : P s) (cs : List γ) :
    Always step P s cs ↔ EachStep step Q s cs := by
  induction cs generalizing s with
  | nil => exact ⟨fun _ => trivial, fun _ => hs⟩
  | cons c cs ih =>
      constructor
      · rintro ⟨-, h⟩
        have hq : Q s c := by
          by_contra hq
          obtain ⟨s', hstep, hspoilt⟩ := hspoil s c hs hq
          exact hspoilt (h s' hstep).start
        refine ⟨hq, ?_⟩
        intro s' hstep
        exact (ih (hkeep s c s' hs hq hstep)).mp (h s' hstep)
      · rintro ⟨hq, h⟩
        refine ⟨hs, ?_⟩
        intro s' hstep
        exact (ih (hkeep s c s' hs hq hstep)).mpr (h s' hstep)

end Commands

section Counting

variable {ι P : Type} [Fintype ι]

/-- How many threads are where `p` holds. -/
def threadCount (p : P → Bool) (pc : ι → P) : ℕ := ∑ i, (p (pc i)).toNat

lemma threadCount_const_false {p : P → Bool} {b : P} (h : p b = false) :
    threadCount p (fun _ : ι => b) = 0 := by
  simp [threadCount, h]

/-- No more than there are. -/
lemma threadCount_le_card (p : P → Bool) (pc : ι → P) : threadCount p pc ≤ Fintype.card ι := by
  have hone : ∀ i ∈ (Finset.univ : Finset ι), (p (pc i)).toNat ≤ 1 := fun i _ => Bool.toNat_le _
  simpa [threadCount] using Finset.sum_le_card_nsmul Finset.univ _ 1 hone

variable [DecidableEq ι]

/-- One thread counted apart. -/
lemma threadCount_split (p : P → Bool) (pc : ι → P) (i : ι) :
    threadCount p pc = (p (pc i)).toNat + ∑ j ∈ Finset.univ.erase i, (p (pc j)).toNat :=
  (Finset.add_sum_erase Finset.univ (fun j => (p (pc j)).toNat) (Finset.mem_univ i)).symm

/-- **One thread moves**: the count loses what it counted before and gains what it counts now. -/
lemma threadCount_update (p : P → Bool) (pc : ι → P) (i : ι) (b : P) :
    threadCount p (Function.update pc i b) + (p (pc i)).toNat
      = threadCount p pc + (p b).toNat := by
  have hothers : ∑ j ∈ Finset.univ.erase i, (p (Function.update pc i b j)).toNat
      = ∑ j ∈ Finset.univ.erase i, (p (pc j)).toNat :=
    Finset.sum_congr rfl fun j hj => by rw [Function.update_of_ne (Finset.ne_of_mem_erase hj)]
  rw [threadCount_split p (Function.update pc i b) i, threadCount_split p pc i, hothers,
    Function.update_self]
  omega

/-- A thread that is there is counted. -/
lemma threadCount_pos {p : P → Bool} {pc : ι → P} {i : ι} (h : p (pc i) = true) :
    0 < threadCount p pc := by
  rw [threadCount_split p pc i, h, Bool.toNat_true]
  omega

end Counting

end Kvs
