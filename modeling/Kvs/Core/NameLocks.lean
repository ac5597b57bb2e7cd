import Mathlib.Data.Set.Basic
import Mathlib.Data.Set.Insert
import Mathlib.Logic.Function.Basic
import Mathlib.Tactic.Common

/-!
# Names as locks

A name that can only be created where there is none yet is a lock: of all the processes that try, one
succeeds, and it has the name to itself until it removes it.  If it goes away without removing it,
nobody can take the lock again.

* `NameMove` — what a process does to the names there are and to those it holds.
* `Exclusive` — whatever is held exists and has one holder.  Every move keeps that.
* `Orphaned` — a name without a holder.  It stays one for ever (`Orphaned.move`).
* `Accounted` — every name was there from the beginning or is held.  Moves that let go of nothing that
  stays keep that (`Accounted.move`).
-/

namespace Kvs

section Names

variable {ρ π : Type}

/-- One process creates a name that is new, removes one it holds, does something else, or is gone. -/
inductive NameMove (names held : Set ρ) : Set ρ → Set ρ → Prop
  | create {r : ρ} : r ∉ names → NameMove names held (insert r names) (insert r held)
  | remove {r : ρ} : r ∈ held → NameMove names held (names \ {r}) (held \ {r})
  | keep : NameMove names held names held
  | leave : NameMove names held names ∅

/-- What is held exists, and nobody else holds it. -/
structure Exclusive (names : Set ρ) (holds : π → Set ρ) : Prop where
  exist : ∀ p, ∀ r ∈ holds p, r ∈ names
  unique : ∀ p q r, r ∈ holds p → r ∈ holds q → p = q

/-- A name that nobody holds. -/
def Orphaned (names : Set ρ) (holds : π → Set ρ) (r : ρ) : Prop := r ∈ names ∧ ∀ p, r ∉ holds p

/-- Every name is one of `base` or held. -/
def Accounted (base names : Set ρ) (holds : π → Set ρ) : Prop :=
  ∀ r, r ∈ names ↔ r ∈ base ∨ ∃ p, r ∈ holds p

lemma Exclusive.nothing (names : Set ρ) : Exclusive names fun _ : π => (∅ : Set ρ) :=
  ⟨fun _ _ hr => hr.elim, fun _ _ _ hr => hr.elim⟩

lemma Accounted.nothing (base : Set ρ) : Accounted base base fun _ : π => (∅ : Set ρ) :=
  fun _ => ⟨Or.inl, fun h => h.elim id fun ⟨_, hr⟩ => hr.elim⟩

variable {base names names' held' : Set ρ} {holds : π → Set ρ} {r : ρ} [DecidableEq π]

/-- One process holds other names now: they exist, and none of them is anybody else's. -/
lemma Exclusive.update (h : Exclusive names holds) {p : π} (hown : ∀ r ∈ held', r ∈ names')
    (hothers : ∀ q, q ≠ p → ∀ r ∈ holds q, r ∈ names' ∧ r ∉ held') :
    Exclusive names' (Function.update holds p held') := by
  constructor
  · intro q r hr
    by_cases hq : q = p
    · subst hq
      rw [Function.update_self] at hr
      exact hown r hr
    · rw [Function.update_of_ne hq] at hr
      exact (hothers q hq r hr).1
  · intro q q' r hr hr'
    by_cases hq : q = p
    · by_cases hq' : q' = p
      · rw [hq, hq']
      · rw [hq, Function.update_self] at hr
        rw [Function.update_of_ne hq'] at hr'
        exact absurd hr (hothers q' hq' r hr').2
    · rw [Function.update_of_ne hq] at hr
      by_cases hq' : q' = p
      · rw [hq', Function.update_self] at hr'
        exact absurd hr' (hothers q hq r hr).2
      · rw [Function.update_of_ne hq'] at hr'
        exact h.unique q q' r hr hr'

/-- **Every move keeps the locks exclusive.** -/
theorem Exclusive.move (h : Exclusive names holds) {p : π}
    (hmove : NameMove names (holds p) names' held') :
    Exclusive names' (Function.update holds p held') := by
  have hothers : ∀ q, q ≠ p → ∀ r ∈ holds q, r ∈ names ∧ r ∉ holds p :=
    fun q hq r hr => ⟨h.exist q r hr, fun hp => hq (h.unique q p r hr hp)⟩
  cases hmove with
  | @create c hnew =>
      refine h.update (fun r hr => hr.imp id (h.exist p r)) fun q hq r hr => ?_
      obtain ⟨hname, hp⟩ := hothers q hq r hr
      refine ⟨Or.inr hname, ?_⟩
      rintro (rfl | hr')
      · exact hnew hname
      · exact hp hr'
  | @remove c hc =>
      refine h.update (fun r hr => ⟨h.exist p r hr.1, hr.2⟩) fun q hq r hr => ?_
      obtain ⟨hname, hp⟩ := hothers q hq r hr
      refine ⟨⟨hname, ?_⟩, fun hr' => hp hr'.1⟩
      rintro rfl
      exact hp hc
  | keep =>
      rw [Function.update_eq_self]
      exact h
  | leave => exact h.update (fun r hr => hr.elim) fun q hq r hr => ⟨h.exist q r hr, id⟩

/-- **A name without a holder is lost**: nobody can create it, and nobody removes it. -/
theorem Orphaned.move (h : Orphaned names holds r) {p : π}
    (hmove : NameMove names (holds p) names' held') :
    Orphaned names' (Function.update holds p held') r := by
  obtain ⟨hr, hnone⟩ := h
  have hmoved : r ∈ names' ∧ r ∉ held' := by
    cases hmove with
    | @create c hnew =>
        refine ⟨Or.inr hr, ?_⟩
        rintro (rfl | hheld)
        · exact hnew hr
        · exact hnone p hheld
    | @remove c hc =>
        refine ⟨⟨hr, ?_⟩, fun hheld => hnone p hheld.1⟩
        rintro rfl
        exact hnone p hc
    | keep => exact ⟨hr, hnone p⟩
    | leave => exact ⟨hr, id⟩
  refine ⟨hmoved.1, fun q => ?_⟩
  by_cases hq : q = p
  · subst hq
    rw [Function.update_self]
    exact hmoved.2
  · rw [Function.update_of_ne hq]
    exact hnone q

/-- The names held after a move: the mover's and the others'. -/
lemma exists_mem_update_iff {p : π} : (∃ q, r ∈ Function.update holds p held' q) ↔
    r ∈ held' ∨ ∃ q, q ≠ p ∧ r ∈ holds q := by
  constructor
  · rintro ⟨q, hr⟩
    by_cases hq : q = p
    · rw [hq, Function.update_self] at hr
      exact Or.inl hr
    · rw [Function.update_of_ne hq] at hr
      exact Or.inr ⟨q, hq, hr⟩
  · rintro (hr | ⟨q, hq, hr⟩)
    · exact ⟨p, by rwa [Function.update_self]⟩
    · exact ⟨q, by rwa [Function.update_of_ne hq]⟩

/-- **What is removed before it is let go leaves nothing behind.** -/
theorem Accounted.move (h : Accounted base names holds) (hexclusive : Exclusive names holds)
    (hbase : ∀ r ∈ base, Orphaned names holds r) {p : π}
    (hmove : NameMove names (holds p) names' held')
    (htidy : ∀ r ∈ holds p, r ∈ held' ∨ r ∉ names') :
    Accounted base names' (Function.update holds p held') := by
  intro r
  have hafter : (∃ q, r ∈ Function.update holds p held' q) ↔
      r ∈ held' ∨ ∃ q, q ≠ p ∧ r ∈ holds q := exists_mem_update_iff
  have hbefore : (∃ q, r ∈ holds q) ↔ r ∈ holds p ∨ ∃ q, q ≠ p ∧ r ∈ holds q := by
    have hself := Function.update_eq_self p holds
    rw [← exists_mem_update_iff, hself]
  have hr := h r
  rw [hbefore] at hr
  rw [hafter]
  cases hmove with
  | @create c hnew =>
      rw [Set.mem_insert_iff, Set.mem_insert_iff, hr]
      constructor
      · rintro (hc | hb | hp | hq)
        exacts [Or.inr (Or.inl (Or.inl hc)), Or.inl hb, Or.inr (Or.inl (Or.inr hp)),
          Or.inr (Or.inr hq)]
      · rintro (hb | (hc | hp) | hq)
        exacts [Or.inr (Or.inl hb), Or.inl hc, Or.inr (Or.inr (Or.inl hp)),
          Or.inr (Or.inr (Or.inr hq))]
  | @remove c hc =>
      -- the name removed is not of the base, and nobody else's
      have hb : r ∈ base → r ≠ c := by
        rintro hmem rfl
        exact (hbase r hmem).2 p hc
      have hq : (∃ q, q ≠ p ∧ r ∈ holds q) → r ≠ c := by
        rintro ⟨q, hq, hmem⟩ rfl
        exact hq (hexclusive.unique q p r hmem hc)
      constructor
      · rintro ⟨hname, hne⟩
        rcases hr.mp hname with hmem | hmem | hmem
        exacts [Or.inl hmem, Or.inr (Or.inl ⟨hmem, hne⟩), Or.inr (Or.inr hmem)]
      · rintro (hmem | hmem | hmem)
        exacts [⟨hr.mpr (Or.inl hmem), hb hmem⟩, ⟨hr.mpr (Or.inr (Or.inl hmem.1)), hmem.2⟩,
          ⟨hr.mpr (Or.inr (Or.inr hmem)), hq hmem⟩]
  | keep => exact hr
  | leave =>
      have hnone : r ∉ holds p := by
        intro hmem
        rcases htidy r hmem with hheld | hgone
        · exact hheld.elim
        · exact hgone (hexclusive.exist p r hmem)
      rw [hr]
      constructor
      · rintro (hmem | hmem | hmem)
        exacts [Or.inl hmem, absurd hmem hnone, Or.inr (Or.inr hmem)]
      · rintro (hmem | hmem | hmem)
        exacts [Or.inl hmem, hmem.elim, Or.inr (Or.inr hmem)]

end Names

end Kvs
