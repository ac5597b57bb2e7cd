import Mathlib.Data.Set.Basic
import Mathlib.Data.Fintype.Card
import Mathlib.Tactic.Common
import Kvs.Core.CString

/-!
# Singly linked lists in a heap

The lists of a C program are cells reached through `next` pointers, and what goes wrong with them
goes wrong at the pointers: a list head passed by value, a cell freed while something still points
to it, a loop that reads `current->next` when `current` is null.  None of this is visible on
mathematical lists, so the loops are written here over an explicit `Heap` and connected to lists
by a predicate.

* `Heap α` — the allocated cells by address.  Addresses are handed out once and never again, so a
  pointer to a freed cell stays stale for ever; a field keeps the unused addresses empty.
* `walk`, `append`, `unlink`, `freeList` — the four loops such lists are used with.  A null or
  stale pointer is a `Fault`, and so is going round a cycle.
* `Chain h p l` — following `next` from `p` meets exactly the cells of `l`, in order, and ends.
  Chains are unique (`Chain.unique`), visit no cell twice (`Chain.nodup`), and so are never longer
  than the heap (`Chain.length_le`), which is why the loops terminate on them.
* The specification of each loop on a chain, and the frame rule `Chain.congr`: a chain only
  depends on its own cells.
* `Ends h p` — a list ends; it depends on the pointers alone (`Ends.congr`), and it is what a removal
  that never stops needs (`unlink_never_iff`).
-/

namespace Kvs

/-- A pointer: the address of a cell, or null. -/
abbrev Ptr := Option ℕ

/-- A list cell: a payload and the pointer to the next cell. -/
structure Cell (α : Type) where
  data : α
  next : Ptr

/-- The cells allocated and not yet freed.  `bound` is the next address to hand out. -/
structure Heap (α : Type) where
  cells : ℕ → Option (Cell α)
  bound : ℕ
  unallocated : ∀ a, bound ≤ a → cells a = none

namespace Heap

variable {α : Type}

/-! ## Cells -/

/-- The heap before any allocation. -/
def empty : Heap α where
  cells := fun _ => none
  bound := 0
  unallocated := fun _ _ => rfl

/-- Reading `*p`. -/
def load (h : Heap α) : Ptr → Except Fault (Cell α)
  | none => .error .nullDeref
  | some a =>
      match h.cells a with
      | none => .error .wildPointer
      | some c => .ok c

/-- Writing to a field of a live cell; nothing happens at a dead address, which every caller has
read from before. -/
def modify (h : Heap α) (a : ℕ) (f : Cell α → Cell α) : Heap α where
  cells := fun b => if b = a then (h.cells b).map f else h.cells b
  bound := h.bound
  unallocated := fun b hb => by simp [h.unallocated b hb]

/-- `malloc` of a cell, with the fields it is then given. -/
def alloc (h : Heap α) (c : Cell α) : Heap α where
  cells := fun b => if b = h.bound then some c else h.cells b
  bound := h.bound + 1
  unallocated := fun b hb => by
    rw [if_neg (by omega)]
    exact h.unallocated b (by omega)

/-- The heap without the cell at `a`. -/
def release (h : Heap α) (a : ℕ) : Heap α where
  cells := fun b => if b = a then none else h.cells b
  bound := h.bound
  unallocated := fun b hb => by simp [h.unallocated b hb]

/-- `free`: nothing to do for the null pointer, a fault for a cell that is not live. -/
def free (h : Heap α) : Ptr → Except Fault (Heap α)
  | none => .ok h
  | some a =>
      match h.cells a with
      | none => .error .wildPointer
      | some _ => .ok (h.release a)

lemma load_some {h : Heap α} {a : ℕ} {c : Cell α} (hc : h.cells a = some c) :
    h.load (some a) = .ok c := by
  simp [load, hc]

lemma cells_of_load {h : Heap α} {a : ℕ} {c : Cell α} (hload : h.load (some a) = .ok c) :
    h.cells a = some c := by
  rw [load] at hload
  cases hc : h.cells a with
  | none => simp [hc] at hload
  | some c' =>
      rw [hc] at hload
      exact congrArg some (Except.ok.inj hload)

lemma free_some {h : Heap α} {a : ℕ} {c : Cell α} (hc : h.cells a = some c) :
    h.free (some a) = .ok (h.release a) := by
  simp [free, hc]

lemma modify_cells_of_ne {h : Heap α} {a b : ℕ} (f : Cell α → Cell α) (hne : b ≠ a) :
    (h.modify a f).cells b = h.cells b := if_neg hne

lemma modify_cells_self {h : Heap α} {a : ℕ} {c : Cell α} (f : Cell α → Cell α)
    (hc : h.cells a = some c) : (h.modify a f).cells a = some (f c) := by
  simp [modify, hc]

@[simp] lemma release_cells_self (h : Heap α) (a : ℕ) : (h.release a).cells a = none := if_pos rfl

lemma release_cells_of_ne {h : Heap α} {a b : ℕ} (hne : b ≠ a) :
    (h.release a).cells b = h.cells b := if_neg hne

lemma lt_bound {h : Heap α} {a : ℕ} {c : Cell α} (hc : h.cells a = some c) : a < h.bound := by
  by_contra hle
  rw [h.unallocated a (by omega)] at hc
  cases hc

/-! ## The four loops

Each takes the number of iterations it may make.  One more than the addresses handed out is
enough for any list that ends, and a list that outlasts it goes round in a circle.
-/

/-- `while (current != NULL) { …; current = current->next; }`, collecting the payloads. -/
def walkLoop (h : Heap α) : ℕ → Ptr → Except Fault (List α)
  | _, none => .ok []
  | 0, some _ => .error .diverged
  | fuel + 1, some a => do
      let current ← h.load (some a)
      let rest ← walkLoop h fuel current.next
      pure (current.data :: rest)

/-- Traversal of a whole list. -/
def walk (h : Heap α) (p : Ptr) : Except Fault (List α) := walkLoop h (h.bound + 1) p

/-- `while (current->next != NULL) current = current->next;` -/
def lastLoop (h : Heap α) : ℕ → Ptr → Except Fault ℕ
  | _, none => .error .nullDeref
  | 0, some _ => .error .diverged
  | fuel + 1, some a => do
      let current ← h.load (some a)
      match current.next with
      | none => pure a
      | some b => lastLoop h fuel (some b)

/-- A new cell behind the last one of the list. -/
def append (h : Heap α) (p : Ptr) (d : α) : Except Fault (Heap α) := do
  let last ← lastLoop h (h.bound + 1) p
  pure ((h.alloc ⟨d, none⟩).modify last fun c => { c with next := some h.bound })

/-- The search of a removal.  `visit` is the loop condition run on the payload of the current
cell: what it leaves in the cell, and whether the loop goes on. -/
def unlinkLoop (visit : α → α × Bool) :
    ℕ → Heap α → Ptr → Ptr → Except Fault (Heap α × Ptr × Ptr)
  | _, h, previous, none => .ok (h, previous, none)
  | 0, _, _, some _ => .error .diverged
  | fuel + 1, h, previous, some a => do
      let current ← h.load (some a)
      let h := h.modify a fun c => { c with data := (visit c.data).1 }
      if (visit current.data).2 then unlinkLoop visit fuel h (some a) current.next
      else pure (h, previous, some a)

/-- Removal of the cell at which the search stops.  The head pointer is the callee's own copy:
unlinking the first cell frees it and leaves the caller's head as it was. -/
def unlink (visit : α → α × Bool) (h : Heap α) (p : Ptr) : Except Fault (Heap α) := do
  let (h, previous, current) ← unlinkLoop visit (h.bound + 1) h none p
  match current with
  | none => pure h
  | some a => do
      let c ← h.load (some a)
      match previous with
      | none => h.free (some a)
      | some b => (h.modify b fun c' => { c' with next := c.next }).free (some a)

/-- `while (current != NULL) { next = current->next; free(current); current = next; }`, collecting
the payloads on the way. -/
def freeListLoop : ℕ → Heap α → Ptr → Except Fault (List α × Heap α)
  | _, h, none => .ok ([], h)
  | 0, _, some _ => .error .diverged
  | fuel + 1, h, some a => do
      let current ← h.load (some a)
      let h ← h.free (some a)
      let (rest, h) ← freeListLoop fuel h current.next
      pure (current.data :: rest, h)

/-- Freeing a whole list. -/
def freeList (h : Heap α) (p : Ptr) : Except Fault (List α × Heap α) :=
  freeListLoop (h.bound + 1) h p

@[simp] lemma walk_none (h : Heap α) : h.walk none = .ok [] := by simp [walk, walkLoop]

@[simp] lemma append_none (h : Heap α) (d : α) : h.append none d = .error .nullDeref := rfl

@[simp] lemma unlink_none (visit : α → α × Bool) (h : Heap α) : h.unlink visit none = .ok h := rfl

@[simp] lemma freeList_none (h : Heap α) : h.freeList none = .ok ([], h) := by
  simp [freeList, freeListLoop]

/-- Every loop that is given a stale pointer reads through it. -/
lemma load_stale {h : Heap α} {a : ℕ} (hc : h.cells a = none) :
    h.load (some a) = .error .wildPointer := by
  simp [load, hc]

lemma walk_stale {h : Heap α} {a : ℕ} (hc : h.cells a = none) :
    h.walk (some a) = .error .wildPointer := by
  simp only [walk, walkLoop, load_stale hc]
  rfl

lemma append_stale {h : Heap α} {a : ℕ} (d : α) (hc : h.cells a = none) :
    h.append (some a) d = .error .wildPointer := by
  simp only [append, lastLoop, load_stale hc]
  rfl

lemma unlink_stale {h : Heap α} {a : ℕ} (visit : α → α × Bool) (hc : h.cells a = none) :
    h.unlink visit (some a) = .error .wildPointer := by
  simp only [unlink, unlinkLoop, load_stale hc]
  rfl

lemma freeList_stale {h : Heap α} {a : ℕ} (hc : h.cells a = none) :
    h.freeList (some a) = .error .wildPointer := by
  simp only [freeList, freeListLoop, load_stale hc]
  rfl

/-! ## Chains -/

/-- Following `next` from `p` meets exactly the cells of the list and then null. -/
def Chain (h : Heap α) : Ptr → List (ℕ × α) → Prop
  | p, [] => p = none
  | p, (a, d) :: l => p = some a ∧ ∃ q, h.cells a = some ⟨d, q⟩ ∧ Chain h q l

@[simp] lemma chain_nil {h : Heap α} {p : Ptr} : h.Chain p [] ↔ p = none := Iff.rfl

/-- What a pointer leads to is determined by the heap. -/
lemma Chain.unique {h : Heap α} {l l' : List (ℕ × α)} {p : Ptr} (hl : h.Chain p l)
    (hl' : h.Chain p l') : l = l' := by
  induction l generalizing l' p with
  | nil =>
      cases l' with
      | nil => rfl
      | cons c' l' => simp [chain_nil.mp hl, Chain] at hl'
  | cons c l ih =>
      obtain ⟨a, d⟩ := c
      obtain ⟨rfl, q, hq, htail⟩ := hl
      cases l' with
      | nil => simp at hl'
      | cons c' l' =>
          obtain ⟨a', d'⟩ := c'
          obtain ⟨ha, q', hq', htail'⟩ := hl'
          obtain rfl : a = a' := Option.some.inj ha
          rw [hq] at hq'
          obtain ⟨rfl, rfl⟩ : d = d' ∧ q = q' := by simpa using hq'
          rw [ih htail htail']

/-- A suffix of a chain hangs from each of its cells. -/
lemma Chain.suffix {h : Heap α} {a : ℕ} {d : α} {l : List (ℕ × α)} {p : Ptr}
    (hl : h.Chain p l) (hmem : (a, d) ∈ l) : ∃ l', h.Chain (some a) l' ∧ l' <:+ l := by
  induction l generalizing p with
  | nil => cases hmem
  | cons c l ih =>
      rcases List.mem_cons.mp hmem with rfl | hmem
      · exact ⟨_, hl.1 ▸ hl, List.suffix_refl _⟩
      · obtain ⟨-, q, -, htail⟩ := hl
        obtain ⟨l', hl', hsuf⟩ := ih htail hmem
        exact ⟨l', hl', hsuf.trans (List.suffix_cons _ _)⟩

/-- A chain visits no cell twice: the chain from the second visit would be the chain from the
first, only shorter. -/
lemma Chain.nodup {h : Heap α} {l : List (ℕ × α)} {p : Ptr} (hl : h.Chain p l) :
    (l.map Prod.fst).Nodup := by
  induction l generalizing p with
  | nil => simp
  | cons c l ih =>
      obtain ⟨a, d⟩ := c
      obtain ⟨rfl, q, hq, htail⟩ := hl
      rw [List.map_cons, List.nodup_cons]
      refine ⟨?_, ih htail⟩
      intro hmem
      obtain ⟨⟨b, e⟩, hbe, rfl⟩ := List.mem_map.mp hmem
      obtain ⟨l', hl', hsuf⟩ := htail.suffix hbe
      have heq : l' = (b, d) :: l := hl'.unique ⟨rfl, q, hq, htail⟩
      have hlen := hsuf.length_le
      rw [heq, List.length_cons] at hlen
      omega

lemma Chain.live {h : Heap α} {a : ℕ} {l : List (ℕ × α)} {p : Ptr} (hl : h.Chain p l)
    (hmem : a ∈ l.map Prod.fst) : ∃ c, h.cells a = some c := by
  induction l generalizing p with
  | nil => cases hmem
  | cons c l ih =>
      obtain ⟨-, q, hq, htail⟩ := hl
      rcases List.mem_cons.mp hmem with rfl | hmem
      · exact ⟨_, hq⟩
      · exact ih htail hmem

/-- A chain is no longer than the heap has addresses. -/
lemma Chain.length_le {h : Heap α} {l : List (ℕ × α)} {p : Ptr} (hl : h.Chain p l) :
    l.length ≤ h.bound := by
  have hsub : l.map Prod.fst ⊆ List.range h.bound := fun a ha => by
    obtain ⟨c, hc⟩ := hl.live ha
    exact List.mem_range.mpr (lt_bound hc)
  have hle := (hl.nodup.subperm hsub).length_le
  simpa using hle

/-- **Frame rule.**  A chain only depends on its own cells. -/
lemma Chain.congr {h h' : Heap α} {l : List (ℕ × α)} {p : Ptr} (hl : h.Chain p l)
    (hsame : ∀ a ∈ l.map Prod.fst, h'.cells a = h.cells a) : h'.Chain p l := by
  induction l generalizing p with
  | nil => exact hl
  | cons c l ih =>
      obtain ⟨hp, q, hq, htail⟩ := hl
      refine ⟨hp, q, ?_, ih htail fun b hb => hsame b (List.mem_cons_of_mem _ hb)⟩
      rw [hsame c.1 (by simp), hq]

/-! ## The loops on chains -/

lemma walkLoop_of_chain {h : Heap α} {l : List (ℕ × α)} {p : Ptr} {fuel : ℕ}
    (hl : h.Chain p l) (hfuel : l.length ≤ fuel) : walkLoop h fuel p = .ok (l.map Prod.snd) := by
  induction l generalizing p fuel with
  | nil =>
      rw [chain_nil.mp hl]
      cases fuel with
      | zero => rfl
      | succ fuel => rfl
  | cons c l ih =>
      obtain ⟨rfl, q, hq, htail⟩ := hl
      cases fuel with
      | zero => simp at hfuel
      | succ fuel =>
          have hrest := ih htail (Nat.le_of_succ_le_succ hfuel)
          simp [walkLoop, load_some hq, hrest]

/-- Traversal reads the payloads in order. -/
lemma walk_of_chain {h : Heap α} {l : List (ℕ × α)} {p : Ptr} (hl : h.Chain p l) :
    h.walk p = .ok (l.map Prod.snd) :=
  walkLoop_of_chain hl (Nat.le_succ_of_le hl.length_le)

/-! ## Cells added behind and taken in front -/

/-- A new cell touches no chain. -/
lemma Chain.alloc {h : Heap α} {l : List (ℕ × α)} {p : Ptr} (hl : h.Chain p l) (c : Cell α) :
    (h.alloc c).Chain p l :=
  hl.congr fun a ha => by
    obtain ⟨c', hc'⟩ := hl.live ha
    exact if_neg (lt_bound hc').ne

lemma alloc_cells_self (h : Heap α) (c : Cell α) : (h.alloc c).cells h.bound = some c := if_pos rfl

/-- Linking a single cell behind the last one. -/
lemma Chain.snoc {h : Heap α} {a b : ℕ} {d e : α} (hb : h.cells b = some ⟨e, none⟩)
    {l : List (ℕ × α)} {p : Ptr} (hl : h.Chain p (l ++ [(a, d)]))
    (hfresh : b ∉ (l ++ [(a, d)]).map Prod.fst) :
    (h.modify a fun c => { c with next := some b }).Chain p (l ++ [(a, d), (b, e)]) := by
  induction l generalizing p with
  | nil =>
      obtain ⟨hp, q, hq, rfl⟩ := hl
      have hba : b ≠ a := by simpa using hfresh
      refine ⟨hp, some b, ?_, rfl, none, ?_, rfl⟩
      · rw [modify_cells_self _ hq]
      · rw [modify_cells_of_ne _ hba, hb]
  | cons c l ih =>
      obtain ⟨a', d'⟩ := c
      have hnodup := hl.nodup
      obtain ⟨hp, q, hq, htail⟩ := hl
      have hne : a' ≠ a := by
        rw [List.cons_append, List.map_cons, List.nodup_cons] at hnodup
        exact fun heq => hnodup.1 (by simp [heq])
      refine ⟨hp, q, ?_, ih htail fun hmem => hfresh (List.mem_cons_of_mem _ hmem)⟩
      rw [modify_cells_of_ne _ hne, hq]

/-- The next address to hand out is in no chain. -/
lemma Chain.bound_not_mem {h : Heap α} {l : List (ℕ × α)} {p : Ptr} (hl : h.Chain p l) :
    h.bound ∉ l.map Prod.fst := by
  intro hmem
  obtain ⟨c, hc⟩ := hl.live hmem
  exact absurd (lt_bound hc) (lt_irrefl _)

/-- What is in the last cell of a chain. -/
lemma Chain.last_cell {h : Heap α} {a : ℕ} {d : α} {l : List (ℕ × α)} {p : Ptr}
    (hl : h.Chain p (l ++ [(a, d)])) : h.cells a = some ⟨d, none⟩ := by
  induction l generalizing p with
  | nil =>
      obtain ⟨-, q, hq, rfl⟩ := hl
      exact hq
  | cons c l ih =>
      obtain ⟨-, q, -, htail⟩ := hl
      exact ih htail

/-- A cell that is the last one of a chain is the last one of every chain it is in. -/
lemma Chain.last_of_mem {h : Heap α} {a : ℕ} {d : α} {l l' : List (ℕ × α)} {p q : Ptr}
    (hl : h.Chain p (l ++ [(a, d)])) (hl' : h.Chain q l') (hmem : a ∈ l'.map Prod.fst) :
    ∃ front, l' = front ++ [(a, d)] := by
  obtain ⟨⟨b, e⟩, hbe, rfl⟩ := List.mem_map.mp hmem
  obtain ⟨end', hend, front, hfront⟩ := hl'.suffix hbe
  have hlast : h.Chain (some b) [(b, d)] := ⟨rfl, none, hl.last_cell, rfl⟩
  obtain rfl := hend.unique hlast
  exact ⟨front, hfront.symm⟩

/-- The search for the last cell finds it. -/
lemma lastLoop_of_chain {h : Heap α} {a : ℕ} {d : α} {l : List (ℕ × α)} {p : Ptr} {fuel : ℕ}
    (hl : h.Chain p (l ++ [(a, d)])) (hfuel : l.length < fuel) : lastLoop h fuel p = .ok a := by
  induction l generalizing p fuel with
  | nil =>
      obtain ⟨rfl, q, hq, rfl⟩ := hl
      cases fuel with
      | zero => simp at hfuel
      | succ fuel => simp [lastLoop, load_some hq]
  | cons c l ih =>
      obtain ⟨rfl, q, hq, htail⟩ := hl
      cases fuel with
      | zero => simp at hfuel
      | succ fuel =>
          have hrest := ih htail (Nat.lt_of_succ_lt_succ hfuel)
          cases q with
          | none =>
              rw [lastLoop] at hrest
              cases hrest
          | some b => simp [lastLoop, load_some hq, hrest]

/-- **Appending to a list that is not empty.**  Every list that ends with the cell that was the last
one ends with the new cell now, and every other list is as it was. -/
lemma append_of_chain {h : Heap α} {a : ℕ} {d : α} {l : List (ℕ × α)} {p : Ptr}
    (hl : h.Chain p (l ++ [(a, d)])) (e : α) :
    ∃ h', h.append p e = .ok h' ∧ ∀ q l', h.Chain q l' →
      h'.Chain q (if a ∈ l'.map Prod.fst then l' ++ [(h.bound, e)] else l') := by
  have hlength : l.length < h.bound + 1 := by
    have hle := hl.length_le
    rw [List.length_append] at hle
    omega
  have happend : h.append p e = .ok ((h.alloc ⟨e, none⟩).modify a
      fun c => { c with next := some h.bound }) := by
    simp only [append, lastLoop_of_chain hl hlength, ok_bind, pure_eq_ok]
  refine ⟨_, happend, ?_⟩
  intro q l' hl'
  have hold := hl'.alloc ⟨e, none⟩
  split_ifs with hmem
  · obtain ⟨front, rfl⟩ := hl.last_of_mem hl' hmem
    rw [List.append_assoc]
    exact hold.snoc (h.alloc_cells_self ⟨e, none⟩) hl'.bound_not_mem
  · refine hold.congr ?_
    intro b hb
    have hba : b ≠ a := fun heq => hmem (by rwa [heq] at hb)
    exact modify_cells_of_ne _ hba

/-- A new cell in front of a chain. -/
lemma Chain.push {h : Heap α} {l : List (ℕ × α)} {p : Ptr} (hl : h.Chain p l) (d : α) :
    (h.alloc ⟨d, p⟩).Chain (some h.bound) ((h.bound, d) :: l) :=
  ⟨rfl, p, h.alloc_cells_self ⟨d, p⟩, hl.alloc ⟨d, p⟩⟩

/-! ## Changes inside a chain -/

/-- A cell of a chain with what comes behind it. -/
lemma Chain.split {h : Heap α} {front back : List (ℕ × α)} {a : ℕ} {d : α} {p : Ptr}
    (hl : h.Chain p (front ++ (a, d) :: back)) :
    ∃ q, h.cells a = some ⟨d, q⟩ ∧ h.Chain q back := by
  induction front generalizing p with
  | nil =>
      obtain ⟨-, q, hq, htail⟩ := hl
      exact ⟨q, hq, htail⟩
  | cons c front ih =>
      obtain ⟨-, q, -, htail⟩ := hl
      exact ih htail

/-- Another payload for one of the cells. -/
lemma Chain.modify_data {h : Heap α} {front back : List (ℕ × α)} {a : ℕ} {d : α} {p : Ptr}
    (hl : h.Chain p (front ++ (a, d) :: back)) (f : α → α) :
    (h.modify a fun c => { c with data := f c.data }).Chain p (front ++ (a, f d) :: back) := by
  induction front generalizing p with
  | nil =>
      have hnodup := hl.nodup
      rw [List.nil_append, List.map_cons, List.nodup_cons] at hnodup
      obtain ⟨hp, q, hq, htail⟩ := hl
      refine ⟨hp, q, modify_cells_self _ hq, htail.congr ?_⟩
      intro b hb
      have hba : b ≠ a := fun heq => hnodup.1 (by rwa [heq] at hb)
      exact modify_cells_of_ne _ hba
  | cons c front ih =>
      obtain ⟨b, e⟩ := c
      have hnodup := hl.nodup
      obtain ⟨hp, q, hq, htail⟩ := hl
      have hba : b ≠ a := by
        rw [List.cons_append, List.map_cons, List.nodup_cons] at hnodup
        exact fun heq => hnodup.1 (by simp [heq])
      refine ⟨hp, q, ?_, ih htail⟩
      rw [modify_cells_of_ne _ hba, hq]

/-- A cell bypassed by the one in front of it. -/
lemma Chain.bypass {h : Heap α} {front back : List (ℕ × α)} {a b : ℕ} {d e : α} {p q : Ptr}
    (hl : h.Chain p (front ++ (b, e) :: (a, d) :: back)) (hq : h.cells a = some ⟨d, q⟩) :
    (h.modify b fun c => { c with next := q }).Chain p (front ++ (b, e) :: back) := by
  induction front generalizing p with
  | nil =>
      have hnodup := hl.nodup
      obtain ⟨hp, q', hq', htail⟩ := hl
      obtain ⟨rfl, q'', hq'', hback⟩ := htail
      obtain rfl : q'' = q := by
        rw [hq] at hq''
        simpa using hq''.symm
      refine ⟨hp, q'', modify_cells_self _ hq', hback.congr ?_⟩
      intro c hc
      have hcb : c ≠ b := by
        rw [List.nil_append, List.map_cons, List.nodup_cons] at hnodup
        exact fun heq => hnodup.1 (List.mem_cons_of_mem _ (by rwa [heq] at hc))
      exact modify_cells_of_ne _ hcb
  | cons c front ih =>
      obtain ⟨a', d'⟩ := c
      have hnodup := hl.nodup
      obtain ⟨hp, q', hq', htail⟩ := hl
      have hne : a' ≠ b := by
        rw [List.cons_append, List.map_cons, List.nodup_cons] at hnodup
        exact fun heq => hnodup.1 (by simp [heq])
      refine ⟨hp, q', ?_, ih htail⟩
      rw [modify_cells_of_ne _ hne, hq']

/-- Freeing the first cell leaves the rest. -/
lemma Chain.release {h : Heap α} {a : ℕ} {d : α} {l : List (ℕ × α)} {p q : Ptr}
    (hl : h.Chain p ((a, d) :: l)) (hq : h.cells a = some ⟨d, q⟩) : (h.release a).Chain q l := by
  have hnodup := hl.nodup
  obtain ⟨-, q', hq', htail⟩ := hl
  obtain rfl : q' = q := by
    rw [hq] at hq'
    simpa using hq'.symm
  rw [List.map_cons, List.nodup_cons] at hnodup
  refine htail.congr fun b hb => ?_
  have hne : b ≠ a := fun heq => hnodup.1 (by rwa [heq] at hb)
  exact release_cells_of_ne hne

/-- The loop that frees as it goes, by induction over the list: it reads the payloads in order, and
afterwards the cells of the list are gone and every other cell is as it was. -/
lemma freeListLoop_of_chain {h : Heap α} {l : List (ℕ × α)} {p : Ptr} {fuel : ℕ}
    (hl : h.Chain p l) (hfuel : l.length ≤ fuel) :
    ∃ h', freeListLoop fuel h p = .ok (l.map Prod.snd, h') ∧
      ∀ a, h'.cells a = if a ∈ l.map Prod.fst then none else h.cells a := by
  induction l generalizing h p fuel with
  | nil =>
      rw [chain_nil.mp hl]
      cases fuel with
      | zero => exact ⟨h, rfl, by simp⟩
      | succ fuel => exact ⟨h, rfl, by simp⟩
  | cons c l ih =>
      obtain ⟨a, d⟩ := c
      obtain ⟨rfl, q, hq, htail⟩ := hl
      cases fuel with
      | zero => simp at hfuel
      | succ fuel =>
          have hfirst : h.Chain (some a) ((a, d) :: l) := ⟨rfl, q, hq, htail⟩
          obtain ⟨h', hloop, hcells⟩ := ih (hfirst.release hq) (Nat.le_of_succ_le_succ hfuel)
          refine ⟨h', ?_, ?_⟩
          · simp [freeListLoop, load_some hq, free_some hq, hloop]
          · intro b
            rw [hcells b]
            by_cases hba : b = a
            · simp [hba]
            · simp only [release_cells_of_ne hba, List.map_cons, List.mem_cons, hba, false_or]

/-- **Freeing a list** frees each of its cells, once, and no other. -/
lemma freeList_of_chain {h : Heap α} {l : List (ℕ × α)} {p : Ptr} (hl : h.Chain p l) :
    ∃ h', h.freeList p = .ok (l.map Prod.snd, h') ∧
      ∀ a, h'.cells a = if a ∈ l.map Prod.fst then none else h.cells a :=
  freeListLoop_of_chain hl (Nat.le_succ_of_le hl.length_le)

/-- The search that never stops, by induction over the list: it comes to the end, and has changed the
payloads on the way. -/
lemma unlinkLoop_never {visit : α → α × Bool} (hvisit : ∀ d, (visit d).2 = true) {h : Heap α}
    {l : List (ℕ × α)} {p : Ptr} {fuel : ℕ} (hl : h.Chain p l) (hfuel : l.length ≤ fuel)
    (previous : Ptr) :
    ∃ h' previous', unlinkLoop visit fuel h previous p = .ok (h', previous', none) ∧
      h'.Chain p (l.map fun c => (c.1, (visit c.2).1)) ∧
      ∀ a, a ∉ l.map Prod.fst → h'.cells a = h.cells a := by
  induction l generalizing h p fuel previous with
  | nil =>
      rw [chain_nil.mp hl]
      cases fuel with
      | zero => exact ⟨h, previous, rfl, rfl, fun _ _ => rfl⟩
      | succ fuel => exact ⟨h, previous, rfl, rfl, fun _ _ => rfl⟩
  | cons c l ih =>
      obtain ⟨a, d⟩ := c
      have hnodup := hl.nodup
      rw [List.map_cons, List.nodup_cons] at hnodup
      obtain ⟨rfl, q, hq, htail⟩ := hl
      cases fuel with
      | zero => simp at hfuel
      | succ fuel =>
          set visited := h.modify a fun c => { c with data := (visit c.data).1 } with hvisited
          have hrest : visited.Chain q l := by
            refine htail.congr ?_
            intro b hb
            have hba : b ≠ a := fun heq => hnodup.1 (by rwa [heq] at hb)
            exact modify_cells_of_ne _ hba
          obtain ⟨h', previous', hloop, hchain, hother⟩ :=
            ih hrest (Nat.le_of_succ_le_succ hfuel) (some a)
          refine ⟨h', previous', ?_, ⟨rfl, q, ?_, hchain⟩, ?_⟩
          · simp only [unlinkLoop, load_some hq, ok_bind, hvisit d, if_true, ← hvisited, hloop]
          · rw [hother a hnodup.1, hvisited, modify_cells_self _ hq]
          · intro b hb
            rw [List.map_cons, List.mem_cons, not_or] at hb
            rw [hother b hb.2, hvisited, modify_cells_of_ne _ hb.1]

/-- **A removal that never stops** takes no cell out. -/
lemma unlink_never {visit : α → α × Bool} (hvisit : ∀ d, (visit d).2 = true) {h : Heap α}
    {l : List (ℕ × α)} {p : Ptr} (hl : h.Chain p l) :
    ∃ h', h.unlink visit p = .ok h' ∧ h'.Chain p (l.map fun c => (c.1, (visit c.2).1)) ∧
      ∀ a, a ∉ l.map Prod.fst → h'.cells a = h.cells a := by
  obtain ⟨h', previous', hloop, hchain, hother⟩ :=
    unlinkLoop_never hvisit hl (Nat.le_succ_of_le hl.length_le) none
  refine ⟨h', ?_, hchain, hother⟩
  simp only [unlink, hloop, ok_bind, pure_eq_ok]

/-- **A removal that stops at the first cell** frees it, and no other, and the head pointer stays. -/
lemma unlink_first {visit : α → α × Bool} {h : Heap α} {a : ℕ} {c : Cell α}
    (hc : h.cells a = some c) (hstop : (visit c.data).2 = false) :
    ∃ h', h.unlink visit (some a) = .ok h' ∧ h'.cells a = none ∧
      ∀ b, b ≠ a → h'.cells b = h.cells b := by
  set visited := h.modify a fun c => { c with data := (visit c.data).1 } with hvisited
  have hlive : visited.cells a = some { c with data := (visit c.data).1 } :=
    modify_cells_self _ hc
  have hloop : unlinkLoop visit (h.bound + 1) h none (some a) = .ok (visited, none, some a) := by
    simp [unlinkLoop, load_some hc, hstop, hvisited]
  refine ⟨visited.release a, ?_, visited.release_cells_self a, ?_⟩
  · simp only [unlink, hloop, ok_bind, load_some hlive, free_some hlive]
  · intro b hb
    rw [release_cells_of_ne hb, hvisited, modify_cells_of_ne _ hb]

/-! ## Links

A removal that never stops overwrites payloads and changes no pointer.  Whether it comes to an end is
a matter of the pointers alone.
-/

/-- The pointer in the cell at an address, if there is a cell. -/
def link (h : Heap α) (a : ℕ) : Option Ptr := (h.cells a).map Cell.next

/-- Following `next` from `p` comes to an end. -/
def Ends (h : Heap α) (p : Ptr) : Prop := ∃ l, h.Chain p l

lemma link_eq_none {h : Heap α} {a : ℕ} : h.link a = none ↔ h.cells a = none :=
  Option.map_eq_none_iff

lemma link_modify (h : Heap α) (a : ℕ) {f : Cell α → Cell α} (hf : ∀ c, (f c).next = c.next)
    (b : ℕ) : (h.modify a f).link b = h.link b := by
  by_cases hb : b = a
  · subst hb
    simp [link, Heap.modify, Function.comp_def, hf]
  · simp only [link, modify_cells_of_ne f hb]

lemma ends_none (h : Heap α) : h.Ends none := ⟨[], rfl⟩

lemma ends_some {h : Heap α} {a : ℕ} :
    h.Ends (some a) ↔ ∃ q, h.link a = some q ∧ h.Ends q := by
  constructor
  · rintro ⟨l, hl⟩
    cases l with
    | nil => cases hl
    | cons c l =>
        obtain ⟨ha, q, hq, htail⟩ := hl
        obtain rfl := Option.some.inj ha
        exact ⟨q, by simp [link, hq], l, htail⟩
  · rintro ⟨q, hq, l, hl⟩
    obtain ⟨c, hc, rfl⟩ := Option.map_eq_some_iff.mp hq
    exact ⟨(a, c.data) :: l, rfl, c.next, hc, hl⟩

/-- Only the pointers matter. -/
lemma Ends.congr {h h' : Heap α} {p : Ptr} (hsame : ∀ a, h'.link a = h.link a) (hends : h.Ends p) :
    h'.Ends p := by
  obtain ⟨l, hl⟩ := hends
  induction l generalizing p with
  | nil => exact ⟨[], hl⟩
  | cons c l ih =>
      obtain ⟨rfl, q, hq, htail⟩ := hl
      refine ends_some.mpr ⟨q, ?_, ih htail⟩
      rw [hsame, link, hq]
      rfl

/-- A search that never stops has come to the end of a list, and changed no pointer. -/
lemma unlinkLoop_never_ends {visit : α → α × Bool} (hvisit : ∀ d, (visit d).2 = true) {fuel : ℕ}
    {h h' : Heap α} {previous p previous' current : Ptr}
    (hrun : unlinkLoop visit fuel h previous p = .ok (h', previous', current)) :
    current = none ∧ h.Ends p ∧ ∀ a, h'.link a = h.link a := by
  induction fuel generalizing h previous p with
  | zero =>
      cases p with
      | none =>
          obtain ⟨rfl, -, rfl⟩ : h = h' ∧ previous = previous' ∧ none = current := by
            simpa [unlinkLoop] using hrun
          exact ⟨rfl, h.ends_none, fun _ => rfl⟩
      | some a => simp [unlinkLoop] at hrun
  | succ fuel ih =>
      cases p with
      | none =>
          obtain ⟨rfl, -, rfl⟩ : h = h' ∧ previous = previous' ∧ none = current := by
            simpa [unlinkLoop] using hrun
          exact ⟨rfl, h.ends_none, fun _ => rfl⟩
      | some a =>
          obtain ⟨c, hload, hrun⟩ := bind_eq_ok.mp hrun
          rw [if_pos (hvisit c.data)] at hrun
          obtain ⟨hcurrent, hends, hlinks⟩ := ih hrun
          have hsame := h.link_modify a (f := fun c => { c with data := (visit c.data).1 })
            fun _ => rfl
          have hcell : h.link a = some c.next := by simp [link, cells_of_load hload]
          refine ⟨hcurrent, ends_some.mpr ⟨c.next, hcell, ?_⟩, fun b => (hlinks b).trans (hsame b)⟩
          exact hends.congr fun b => (hsame b).symm

/-- **A removal that never stops** goes through exactly if the list ends. -/
lemma unlink_never_iff {visit : α → α × Bool} (hvisit : ∀ d, (visit d).2 = true) {h : Heap α}
    {p : Ptr} : (∃ h', h.unlink visit p = .ok h') ↔ h.Ends p := by
  constructor
  · rintro ⟨h', hrun⟩
    obtain ⟨⟨h₁, previous, current⟩, hloop, -⟩ := bind_eq_ok.mp hrun
    exact (unlinkLoop_never_ends hvisit hloop).2.1
  · rintro ⟨l, hl⟩
    obtain ⟨h', hrun, -⟩ := unlink_never hvisit hl
    exact ⟨h', hrun⟩

/-- It leaves every pointer as it was. -/
lemma unlink_never_link {visit : α → α × Bool} (hvisit : ∀ d, (visit d).2 = true) {h h' : Heap α}
    {p : Ptr} (hrun : h.unlink visit p = .ok h') (a : ℕ) : h'.link a = h.link a := by
  obtain ⟨⟨h₁, previous, current⟩, hloop, hrun⟩ := bind_eq_ok.mp hrun
  obtain ⟨rfl, -, hlinks⟩ := unlinkLoop_never_ends hvisit hloop
  obtain rfl := Except.ok.inj hrun
  exact hlinks a

/-! ## What a removal leaves

A removal that takes the wrong cell, or changes the payloads it passes, cannot be described by the
list it should leave.  What can be said of it is said cell by cell, for those that stay.
-/

/-- If there is a cell at the address, its payload is of the given kind. -/
def Carries (h : Heap α) (a : ℕ) (kind : α → Prop) : Prop :=
  ∀ c, h.cells a = some c → kind c.data

section Carries

variable {h h' : Heap α} {a : ℕ} {kind : α → Prop}

/-- Changes that keep the kind of every payload. -/
lemma Carries.modify (hcell : h.Carries a kind) (b : ℕ) {f : Cell α → Cell α}
    (hf : ∀ c, kind c.data → kind (f c).data) : (h.modify b f).Carries a kind := by
  intro c hc
  by_cases hab : a = b
  · subst hab
    simp only [Heap.modify, if_true, Option.map_eq_some_iff] at hc
    obtain ⟨c₀, hc₀, rfl⟩ := hc
    exact hf c₀ (hcell c₀ hc₀)
  · rw [modify_cells_of_ne f hab] at hc
    exact hcell c hc

lemma Carries.release (hcell : h.Carries a kind) (b : ℕ) : (h.release b).Carries a kind := by
  intro c hc
  by_cases hab : a = b
  · simp [hab] at hc
  · rw [release_cells_of_ne hab] at hc
    exact hcell c hc

lemma Carries.free (hcell : h.Carries a kind) {p : Ptr} (hfree : h.free p = .ok h') :
    h'.Carries a kind := by
  cases p with
  | none =>
      obtain rfl := Except.ok.inj hfree
      exact hcell
  | some b =>
      rw [Heap.free] at hfree
      split at hfree
      · cases hfree
      · obtain rfl := Except.ok.inj hfree
        exact hcell.release b

/-- The search, if `visit` keeps the kind. -/
lemma Carries.unlinkLoop {visit : α → α × Bool} (hvisit : ∀ d, kind d → kind (visit d).1)
    {fuel : ℕ} (hcell : h.Carries a kind) {previous p previous' current : Ptr}
    (hrun : Heap.unlinkLoop visit fuel h previous p = .ok (h', previous', current)) :
    h'.Carries a kind := by
  induction fuel generalizing h previous p with
  | zero =>
      cases p with
      | none =>
          obtain ⟨rfl, -⟩ : h = h' ∧ previous = previous' ∧ none = current := by
            simpa [Heap.unlinkLoop] using hrun
          exact hcell
      | some b => simp [Heap.unlinkLoop] at hrun
  | succ fuel ih =>
      cases p with
      | none =>
          obtain ⟨rfl, -⟩ : h = h' ∧ previous = previous' ∧ none = current := by
            simpa [Heap.unlinkLoop] using hrun
          exact hcell
      | some b =>
          obtain ⟨c, -, hrun⟩ := bind_eq_ok.mp hrun
          have hvisited : (h.modify b fun c => { c with data := (visit c.data).1 }).Carries a kind :=
            hcell.modify b fun c hc => hvisit c.data hc
          split_ifs at hrun
          · exact ih hvisited hrun
          · obtain ⟨rfl, -⟩ : h.modify b (fun c => { c with data := (visit c.data).1 }) = h' ∧
              previous = previous' ∧ some b = current := by simpa using hrun
            exact hvisited

/-- The unlinking of the cell at which the search has stopped. -/
lemma Carries.unlink_of_loop {visit : α → α × Bool} {p : Ptr} (hrun : h.unlink visit p = .ok h')
    (hloop : ∀ {h₁ : Heap α} {previous current : Ptr},
      Heap.unlinkLoop visit (h.bound + 1) h none p = .ok (h₁, previous, current) →
        h₁.Carries a kind) :
    h'.Carries a kind := by
  obtain ⟨⟨h₁, previous, current⟩, hsearch, hrun⟩ := bind_eq_ok.mp hrun
  have hcell := hloop hsearch
  cases current with
  | none =>
      obtain rfl := Except.ok.inj hrun
      exact hcell
  | some b =>
      obtain ⟨c, -, hrun⟩ := bind_eq_ok.mp hrun
      cases previous with
      | none => exact hcell.free hrun
      | some b' =>
          have hlinked : (h₁.modify b' fun c' => { c' with next := c.next }).Carries a kind :=
            hcell.modify b' fun _ hc => hc
          exact hlinked.free hrun

/-- A removal keeps the kind of a payload if `visit` does. -/
lemma Carries.unlink {visit : α → α × Bool} (hvisit : ∀ d, kind d → kind (visit d).1)
    (hcell : h.Carries a kind) {p : Ptr} (hrun : h.unlink visit p = .ok h') :
    h'.Carries a kind :=
  unlink_of_loop hrun fun hloop => hcell.unlinkLoop hvisit hloop

/-- The first cell of a list is visited, whatever happens then. -/
lemma carries_unlink_first {visit : α → α × Bool} (hvisit : ∀ d, kind (visit d).1)
    (hrun : h.unlink visit (some a) = .ok h') : h'.Carries a kind := by
  refine Carries.unlink_of_loop hrun ?_
  intro h₁ previous current hloop
  obtain ⟨c, -, hloop⟩ := bind_eq_ok.mp hloop
  have hfirst : (h.modify a fun c => { c with data := (visit c.data).1 }).Carries a kind := by
    intro c' hc'
    simp only [Heap.modify, if_true, Option.map_eq_some_iff] at hc'
    obtain ⟨c₀, -, rfl⟩ := hc'
    exact hvisit c₀.data
  split_ifs at hloop
  · exact hfirst.unlinkLoop (fun d _ => hvisit d) hloop
  · obtain ⟨rfl, -⟩ : h.modify a (fun c => { c with data := (visit c.data).1 }) = h₁ ∧
      none = previous ∧ some a = current := by simpa using hloop
    exact hfirst

/-- A list that begins with such a cell is read, if it can be read, with such a payload. -/
lemma Carries.walk (hcell : h.Carries a kind) {data : List α} (hwalk : h.walk (some a) = .ok data) :
    ∃ d ∈ data, kind d := by
  obtain ⟨c, hload, hwalk⟩ := bind_eq_ok.mp hwalk
  obtain ⟨rest, -, hwalk⟩ := bind_eq_ok.mp hwalk
  obtain rfl := Except.ok.inj hwalk
  exact ⟨c.data, by simp, hcell c (cells_of_load hload)⟩

end Carries

end Heap

end Kvs
