import Kvs.Core.LinkedHeap

/-!
# Blocks with one owner

A program that allocates a block for each of some pointers it keeps, and frees the block before it
drops the pointer, neither frees a block twice nor loses one.  `Heap.OwnedBy h owner` is the
discipline as an invariant: `owner i` is the pointer kept in place `i`, null if there is none, and the
live blocks are exactly those that some place points to, no two places to the same.

* Allocating for an empty place (`OwnedBy.alloc`) and freeing what a place points to
  (`OwnedBy.release`) keep it.
* The blocks of the other places stay what they were (`OwnedBy.release_other`).
* When no place points anywhere the heap is empty (`OwnedBy.dead`).
-/

namespace Kvs.Heap

variable {α ι : Type}

/-- Each live block belongs to one of the pointers, and each pointer to a live block. -/
structure OwnedBy (h : Heap α) (owner : ι → Ptr) : Prop where
  unique : ∀ i j a, owner i = some a → owner j = some a → i = j
  exact : ∀ a, (∃ c, h.cells a = some c) ↔ ∃ i, owner i = some a

lemma ownedBy_empty : (Heap.empty : Heap α).OwnedBy fun _ : ι => none where
  unique := fun _ _ _ hi => by cases hi
  exact := fun a => by simp [Heap.empty]

namespace OwnedBy

variable {h : Heap α} {owner : ι → Ptr} {i j : ι} {a b : ℕ}

/-- What a place points to is there. -/
lemma live (hown : h.OwnedBy owner) (hi : owner i = some a) : ∃ c, h.cells a = some c :=
  (hown.exact a).mpr ⟨i, hi⟩

/-- Nothing is left. -/
lemma dead (hown : h.OwnedBy owner) (hnone : ∀ i, owner i = none) (a : ℕ) : h.cells a = none := by
  cases hc : h.cells a with
  | none => rfl
  | some c =>
      obtain ⟨i, hi⟩ := (hown.exact a).mp ⟨c, hc⟩
      rw [hnone i] at hi
      cases hi

/-- Freeing the block of one place leaves those of the others. -/
lemma release_other (hown : h.OwnedBy owner) (hi : owner i = some a) (hj : owner j = some b)
    (hne : j ≠ i) : (h.release a).cells b = h.cells b := by
  refine release_cells_of_ne ?_
  rintro rfl
  exact hne (hown.unique j i b hj hi)

variable [DecidableEq ι]

/-- **Freeing** what a place points to. -/
lemma release (hown : h.OwnedBy owner) (hi : owner i = some a) :
    (h.release a).OwnedBy (Function.update owner i none) where
  unique := by
    intro j k b hj hk
    by_cases hji : j = i
    · rw [hji, Function.update_self] at hj
      cases hj
    by_cases hki : k = i
    · rw [hki, Function.update_self] at hk
      cases hk
    rw [Function.update_of_ne hji] at hj
    rw [Function.update_of_ne hki] at hk
    exact hown.unique j k b hj hk
  exact := by
    intro b
    by_cases hb : b = a
    · subst hb
      rw [release_cells_self]
      constructor
      · rintro ⟨c, hc⟩
        cases hc
      · rintro ⟨j, hj⟩
        by_cases hji : j = i
        · rw [hji, Function.update_self] at hj
          cases hj
        · rw [Function.update_of_ne hji] at hj
          exact absurd (hown.unique j i b hj hi) hji
    · rw [release_cells_of_ne hb, hown.exact b]
      constructor
      · rintro ⟨j, hj⟩
        have hji : j ≠ i := by
          rintro rfl
          exact hb (Option.some.inj (hj.symm.trans hi))
        exact ⟨j, by rwa [Function.update_of_ne hji]⟩
      · rintro ⟨j, hj⟩
        by_cases hji : j = i
        · rw [hji, Function.update_self] at hj
          cases hj
        · exact ⟨j, by rwa [Function.update_of_ne hji] at hj⟩

/-- **Allocating** a block for a place that has none. -/
lemma alloc (hown : h.OwnedBy owner) (hi : owner i = none) (c : Cell α) :
    (h.alloc c).OwnedBy (Function.update owner i (some h.bound)) where
  unique := by
    have hfresh : ∀ k, owner k ≠ some h.bound := by
      intro k hk
      obtain ⟨c', hc'⟩ := hown.live hk
      exact lt_irrefl _ (lt_bound hc')
    intro j k b hj hk
    by_cases hji : j = i
    · by_cases hki : k = i
      · rw [hji, hki]
      · rw [hji, Function.update_self] at hj
        rw [Function.update_of_ne hki, ← hj] at hk
        exact absurd hk (hfresh k)
    · rw [Function.update_of_ne hji] at hj
      by_cases hki : k = i
      · rw [hki, Function.update_self, ← hj] at hk
        exact absurd hk.symm (hfresh j)
      · rw [Function.update_of_ne hki] at hk
        exact hown.unique j k b hj hk
  exact := by
    intro b
    by_cases hb : b = h.bound
    · subst hb
      exact ⟨fun _ => ⟨i, Function.update_self ..⟩, fun _ => ⟨c, h.alloc_cells_self c⟩⟩
    · have hcells : (h.alloc c).cells b = h.cells b := if_neg hb
      rw [hcells, hown.exact b]
      constructor
      · rintro ⟨j, hj⟩
        have hji : j ≠ i := by
          rintro rfl
          rw [hi] at hj
          cases hj
        exact ⟨j, by rwa [Function.update_of_ne hji]⟩
      · rintro ⟨j, hj⟩
        by_cases hji : j = i
        · rw [hji, Function.update_self] at hj
          exact absurd (Option.some.inj hj).symm hb
        · exact ⟨j, by rwa [Function.update_of_ne hji] at hj⟩

end OwnedBy

end Kvs.Heap
