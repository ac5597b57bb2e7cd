import Mathlib.Data.List.Perm.Subperm
import Mathlib.Data.List.Nodup
import Mathlib.Logic.Function.Basic
import Mathlib.Tactic.Common

/-!
# Keyed lists

A list whose entries carry a key each is the simplest finite map there is: look for the first
entry of a key, change it in place, drop it, or put a new one in front.  This file collects what
these four operations do to each other and to the rest of the list, for any type of entries and
any key function.

Four groups:

* **lookup after update** — `find` of the key just changed, and of every other key;
* **the entry in its place** — the operations on a list split at the entry they find;
* **keys** — updates in place keep the keys, removal takes one away, so distinct keys stay
  distinct;
* **transport** — each operation commutes with selecting the entries whose keys satisfy a
  predicate, and with translating entries without touching their keys.  This is what relates a
  map split over several lists to one list holding all of it.
-/

namespace Kvs.KeyedList

variable {α β κ : Type} [DecidableEq κ] (key : α → κ)

/-- The first entry of a key. -/
def find (k : κ) (l : List α) : Option α := l.find? fun a => key a = k

/-- The list with the first entry of a key replaced by its image under `f`. -/
def modify (k : κ) (f : α → α) : List α → List α
  | [] => []
  | a :: l => if key a = k then f a :: l else a :: modify k f l

/-- The list without the first entry of a key. -/
def erase (k : κ) (l : List α) : List α := l.eraseP fun a => key a = k

variable {key} {k k' : κ} {f : α → α} {a : α} {l : List α}

lemma find_cons : find key k (a :: l) = if key a = k then some a else find key k l := by
  by_cases h : key a = k <;> simp [find, h]

lemma erase_cons : erase key k (a :: l) = if key a = k then l else a :: erase key k l := by
  by_cases h : key a = k <;> simp [erase, h]

lemma key_of_find (h : find key k l = some a) : key a = k := by
  simpa using List.find?_some h

lemma mem_of_find (h : find key k l = some a) : a ∈ l := List.mem_of_find?_eq_some h

lemma find_eq_none_iff : find key k l = none ↔ k ∉ l.map key := by
  simp [find, List.find?_eq_none]

lemma find_isSome_iff : (find key k l).isSome ↔ k ∈ l.map key := by
  rw [← not_iff_not, ← find_eq_none_iff]
  simp

/-- With distinct keys an entry that is there is found. -/
lemma find_eq_some_iff (hl : (l.map key).Nodup) : find key k l = some a ↔ a ∈ l ∧ key a = k := by
  constructor
  · intro h
    exact ⟨mem_of_find h, key_of_find h⟩
  · rintro ⟨hmem, rfl⟩
    induction l with
    | nil => cases hmem
    | cons b l ih =>
        rw [List.map_cons, List.nodup_cons] at hl
        rcases List.mem_cons.mp hmem with rfl | hmem
        · simp [find_cons]
        · have hne : key b ≠ key a := by
            intro heq
            exact hl.1 (heq ▸ List.mem_map_of_mem hmem)
          rw [find_cons, if_neg hne, ih hl.2 hmem]

/-! ## Lookup after update -/

lemma find_modify_self (key : α → κ) (f : α → α) (hf : ∀ a, key (f a) = key a) :
    find key k (modify key k f l) = (find key k l).map f := by
  induction l with
  | nil => rfl
  | cons a l ih =>
      by_cases h : key a = k
      · simp [modify, find_cons, h, hf]
      · simp [modify, find_cons, h, ih]

lemma find_modify_of_ne (key : α → κ) (f : α → α) (hf : ∀ a, key (f a) = key a)
    (hne : k' ≠ k) :
    find key k' (modify key k f l) = find key k' l := by
  induction l with
  | nil => rfl
  | cons a l ih =>
      by_cases h : key a = k
      · simp [modify, find_cons, h, hf, hne.symm]
      · simp [modify, find_cons, h, ih]

lemma find_erase_self (hl : (l.map key).Nodup) : find key k (erase key k l) = none := by
  induction l with
  | nil => rfl
  | cons a l ih =>
      rw [List.map_cons, List.nodup_cons] at hl
      by_cases h : key a = k
      · subst h
        simpa [erase_cons, find_eq_none_iff] using hl.1
      · simp [erase_cons, find_cons, h, ih hl.2]

lemma find_erase_of_ne (hne : k' ≠ k) : find key k' (erase key k l) = find key k' l := by
  induction l with
  | nil => rfl
  | cons a l ih =>
      by_cases h : key a = k
      · simp [erase_cons, find_cons, h, hne.symm]
      · simp [erase_cons, find_cons, h, ih]

lemma erase_of_find_none (h : find key k l = none) : erase key k l = l :=
  List.eraseP_of_forall_not fun a ha hk => by
    have hk : key a = k := by simpa using hk
    exact find_eq_none_iff.mp h (List.mem_map.mpr ⟨a, ha, hk⟩)

lemma modify_of_find_none (h : find key k l = none) : modify key k f l = l := by
  induction l with
  | nil => rfl
  | cons a l ih =>
      rw [find_cons] at h
      split_ifs at h with hk
      rw [modify, if_neg hk, ih h]

lemma mem_of_mem_erase (h : a ∈ erase key k l) : a ∈ l := List.mem_of_mem_eraseP h

lemma mem_modify {b : α} (h : b ∈ modify key k f l) : b ∈ l ∨ ∃ a ∈ l, key a = k ∧ b = f a := by
  induction l with
  | nil => exact Or.inl h
  | cons a l ih =>
      by_cases hk : key a = k
      · rw [modify, if_pos hk] at h
        rcases List.mem_cons.mp h with rfl | h
        · exact Or.inr ⟨a, by simp, hk, rfl⟩
        · exact Or.inl (List.mem_cons_of_mem _ h)
      · rw [modify, if_neg hk] at h
        rcases List.mem_cons.mp h with rfl | h
        · exact Or.inl (by simp)
        · rcases ih h with h | ⟨c, hc, hck, rfl⟩
          · exact Or.inl (List.mem_cons_of_mem _ h)
          · exact Or.inr ⟨c, List.mem_cons_of_mem _ hc, hck, rfl⟩

/-! ## The entry in its place

When the first entry of a key is known with what is in front of it, the three operations are plain
list surgery.
-/

section Split

variable {front back : List α} (hfront : ∀ b ∈ front, key b ≠ k)
include hfront

lemma find_split (ha : key a = k) : find key k (front ++ a :: back) = some a := by
  induction front with
  | nil => rw [List.nil_append, find_cons, if_pos ha]
  | cons b front ih =>
      rw [List.cons_append, find_cons, if_neg (hfront b (by simp))]
      exact ih fun c hc => hfront c (List.mem_cons_of_mem _ hc)

lemma modify_split (ha : key a = k) :
    modify key k f (front ++ a :: back) = front ++ f a :: back := by
  induction front with
  | nil => rw [List.nil_append, modify, if_pos ha, List.nil_append]
  | cons b front ih =>
      rw [List.cons_append, modify, if_neg (hfront b (by simp)),
        ih fun c hc => hfront c (List.mem_cons_of_mem _ hc), List.cons_append]

lemma erase_split (ha : key a = k) : erase key k (front ++ a :: back) = front ++ back := by
  induction front with
  | nil => rw [List.nil_append, erase_cons, if_pos ha, List.nil_append]
  | cons b front ih =>
      rw [List.cons_append, erase_cons, if_neg (hfront b (by simp)),
        ih fun c hc => hfront c (List.mem_cons_of_mem _ hc), List.cons_append]

end Split

/-! ## Keys -/

lemma map_key_modify (key : α → κ) (f : α → α) (hf : ∀ a, key (f a) = key a) :
    (modify key k f l).map key = l.map key := by
  induction l with
  | nil => rfl
  | cons a l ih =>
      by_cases h : key a = k
      · simp [modify, h, hf]
      · simp [modify, h, ih]

lemma nodup_erase (hl : (l.map key).Nodup) : ((erase key k l).map key).Nodup :=
  hl.sublist (List.eraseP_sublist.map key)

/-- With distinct keys, removing the first entry of a key removes every one. -/
lemma erase_eq_filter (hl : (l.map key).Nodup) : erase key k l = l.filter fun a => key a ≠ k := by
  induction l with
  | nil => rfl
  | cons a l ih =>
      rw [List.map_cons, List.nodup_cons] at hl
      by_cases h : key a = k
      · have hrest : l.filter (fun a => key a ≠ k) = l := by
          refine List.filter_eq_self.mpr fun b hb => ?_
          have hne : key b ≠ k := by
            rintro rfl
            exact hl.1 (h ▸ List.mem_map_of_mem hb)
          simpa using hne
        rw [erase_cons, if_pos h, List.filter_cons_of_neg (by simpa using h), hrest]
      · rw [erase_cons, if_neg h, List.filter_cons_of_pos (by simpa using h), ih hl.2]

/-! ## Transport -/

/-- Looking a key up among the entries selected by their keys. -/
lemma find_filter (key : α → κ) (p : κ → Bool) (hk : p k = true) :
    find key k (l.filter fun a => p (key a)) = find key k l := by
  induction l with
  | nil => rfl
  | cons a l ih =>
      by_cases h : key a = k
      · simp [find_cons, h, hk]
      · by_cases hp : p (key a) = true <;> simp [find_cons, h, hp, ih]

lemma filter_modify (key : α → κ) (p : κ → Bool) (f : α → α) (hf : ∀ a, key (f a) = key a) :
    (modify key k f l).filter (fun a => p (key a))
      = modify key k f (l.filter fun a => p (key a)) := by
  induction l with
  | nil => rfl
  | cons a l ih =>
      by_cases h : key a = k
      · by_cases hp : p k = true
        · simp [modify, h, hp, hf]
        · have hnone : find key k (l.filter fun a => p (key a)) = none := by
            rw [find_eq_none_iff]
            intro hmem
            obtain ⟨b, hb, rfl⟩ := List.mem_map.mp hmem
            exact hp (List.mem_filter.mp hb).2
          simp [modify, h, hp, hf, modify_of_find_none hnone]
      · by_cases hp : p (key a) = true <;> simp [modify, h, hp, ih]

lemma filter_erase (key : α → κ) (p : κ → Bool) (hl : (l.map key).Nodup) :
    (erase key k l).filter (fun a => p (key a)) = erase key k (l.filter fun a => p (key a)) := by
  induction l with
  | nil => rfl
  | cons a l ih =>
      rw [List.map_cons, List.nodup_cons] at hl
      by_cases h : key a = k
      · have hnone : find key k (l.filter fun a => p (key a)) = none := by
          rw [find_eq_none_iff]
          intro hmem
          obtain ⟨b, hb, hbk⟩ := List.mem_map.mp hmem
          exact hl.1 (List.mem_map.mpr ⟨b, (List.mem_filter.mp hb).1, by rw [hbk, h]⟩)
        by_cases hp : p (key a) = true
        · rw [erase_cons, if_pos h, List.filter_cons, if_pos hp, erase_cons, if_pos h]
        · rw [erase_cons, if_pos h, List.filter_cons, if_neg hp, erase_of_find_none hnone]
      · by_cases hp : p (key a) = true
        · rw [erase_cons, if_neg h, List.filter_cons, if_pos hp, List.filter_cons, if_pos hp,
            erase_cons, if_neg h, ih hl.2]
        · rw [erase_cons, if_neg h, List.filter_cons, if_neg hp, List.filter_cons, if_neg hp,
            ih hl.2]

/-- Translating the entries without touching their keys. -/
lemma find_map (key : α → κ) (key' : β → κ) (g : α → β) (hg : ∀ a, key' (g a) = key a) :
    find key' k (l.map g) = (find key k l).map g := by
  induction l with
  | nil => rfl
  | cons a l ih =>
      by_cases h : key a = k
      · simp [find_cons, hg, h]
      · simp [find_cons, hg, h, ih]

lemma map_modify (key : α → κ) (key' : β → κ) (g : α → β) (f : α → α) (f' : β → β)
    (hg : ∀ a, key' (g a) = key a) (hf : ∀ a, g (f a) = f' (g a)) :
    (modify key k f l).map g = modify key' k f' (l.map g) := by
  induction l with
  | nil => rfl
  | cons a l ih =>
      by_cases h : key a = k
      · simp [modify, hg, h, hf]
      · simp [modify, hg, h, ih]

lemma map_erase (key : α → κ) (key' : β → κ) (g : α → β) (hg : ∀ a, key' (g a) = key a) :
    (erase key k l).map g = erase key' k (l.map g) := by
  induction l with
  | nil => rfl
  | cons a l ih =>
      by_cases h : key a = k
      · simp [erase_cons, hg, h]
      · simp [erase_cons, hg, h, ih]

end Kvs.KeyedList
