import Mathlib.Data.List.ReduceOption
import Kvs.Server.FanOut

/-!
# Clearing all subscriptions

`sigusr1` of `main.c` closes the descriptors of the sessions and then frees every subscriber list of
the table.  Its inner loop frees a cell and goes on with `node->head->next`, not `subs->next`: the
cell it takes the next one from is always the first of the list, and from the second round on that
has been freed (`clearList_long`).

So it clears the table if and only if no list has a second cell (`sigusr1_clears_iff`).

The `kvs_table` it means is not the store's.  `operations.h` declares it `static`, so that `main.c` has
a variable of its own, and nothing assigns that one; it is a parameter here.
-/

namespace Kvs

/-- `t_fifoData`: what a session has open, -1 where there is none. -/
structure FifoData where
  fdResponse : Fd
  fdNotification : Fd

/-! ## The loops -/

/-- `while (subs != NULL) { subs = node->head->next; free(prev); prev = subs; }` -/
def clearListLoop (head : Ptr) : ℕ → Heap Fd → Ptr → Ptr → Except Fault (Heap Fd)
  | _, h, _, none => .ok h
  | 0, _, _, some _ => .error .diverged
  | fuel + 1, h, prev, some _ => do
      let first ← h.load head
      let subs := first.next
      let h ← h.free prev
      clearListLoop head fuel h subs subs

/-- The subscriber list of a node. -/
def clearList (h : Heap Fd) (head : Ptr) : Except Fault (Heap Fd) :=
  clearListLoop head (h.bound + 1) h head head

/-- A node without its list. -/
def KeyNode.cleared (node : KeyNode) : KeyNode := { node with head := none }

/-- The nodes of a chain. -/
def clearChain : Heap Fd → List KeyNode → Except Fault (Heap Fd × List KeyNode)
  | h, [] => pure (h, [])
  | h, node :: chain => do
      let h ← clearList h node.head
      let (h, chain) ← clearChain h chain
      pure (h, node.cleared :: chain)

/-- Some of the chains of the table. -/
def clearChains : List (Fin tableSize) → HashTable → Except Fault HashTable
  | [], ht => pure ht
  | i :: is, ht => do
      let (subs, chain) ← clearChain ht.subs (ht.table i)
      clearChains is { ht.setChain i chain with subs := subs }

/-- The descriptors of the sessions that are closed, in order. -/
def closedFds (fifos : List FifoData) : List Fd :=
  fifos.flatMap fun fifo =>
    if fifo.fdNotification = -1 then [] else [fifo.fdNotification, fifo.fdResponse]

/-- `sigusr1`: the descriptors it closes, and the table after it. -/
def sigusr1 (fifos : List FifoData) (kvsTable : Option HashTable) :
    Except Fault (List Fd × HashTable) :=
  match kvsTable with
  | none => .error .nullDeref
  | some ht => do
      let ht ← clearChains (List.finRange tableSize) ht
      pure (closedFds fifos, ht)

/-! ## What they should do -/

namespace HashTable

/-- The cell is in the subscriber list of a node. -/
def Subscribes (ht : HashTable) (a : ℕ) : Prop :=
  ∃ i, ∃ node ∈ ht.table i, ∃ cells, ht.subs.Chain node.head cells ∧ a ∈ cells.map Prod.fst

/-- The handler returns, having read and freed no cell that was freed before; every cell of a
subscriber list is gone and no other, and each node is where it was, with its key and its value and no
list. -/
def Cleared (ht : HashTable) (fifos : List FifoData) : Prop :=
  ∃ ht', sigusr1 fifos (some ht) = .ok (closedFds fifos, ht') ∧
    (∀ i, ht'.table i = (ht.table i).map KeyNode.cleared) ∧
    (∀ a, ht.Subscribes a → ht'.subs.cells a = none) ∧
    ∀ a, ¬ ht.Subscribes a → ht'.subs.cells a = ht.subs.cells a

/-- The list heads of some of the chains, in the order of the loops. -/
def heads (ht : HashTable) (is : List (Fin tableSize)) : List Ptr :=
  is.flatMap fun i => (ht.table i).map KeyNode.head

/-- No list has a second cell, and no two have the same first. -/
structure SingleSubscribers (ht : HashTable) : Prop where
  single : ∀ i, ∀ node ∈ ht.table i, ∀ a, node.head = some a →
    ∃ d, ht.subs.cells a = some ⟨d, none⟩
  separate : (ht.heads (List.finRange tableSize)).reduceOption.Nodup

end HashTable

/-! ## One list -/

lemma clearList_none (h : Heap Fd) : clearList h none = .ok h := by
  simp [clearList, clearListLoop]

/-- The only cell of a list is freed. -/
lemma clearList_single {h : Heap Fd} {a : ℕ} {d : Fd} (hcell : h.cells a = some ⟨d, none⟩) :
    clearList h (some a) = .ok (h.release a) := by
  simp only [clearList, clearListLoop, Heap.load_some hcell, Heap.free_some hcell, ok_bind]

/-- From a list with a second cell the first is read when it is gone. -/
lemma clearList_long {h : Heap Fd} {a b : ℕ} {d : Fd} (hcell : h.cells a = some ⟨d, some b⟩) :
    clearList h (some a) = .error .wildPointer := by
  obtain ⟨fuel, hfuel⟩ := Nat.exists_eq_succ_of_ne_zero (Nat.ne_zero_of_lt (Heap.lt_bound hcell))
  simp only [clearList, hfuel, clearListLoop, Heap.load_some hcell, Heap.free_some hcell, ok_bind,
    Heap.load_stale (h.release_cells_self a), error_bind]

lemma clearList_stale {h : Heap Fd} {a : ℕ} (hcell : h.cells a = none) :
    clearList h (some a) = .error .wildPointer := by
  simp only [clearList, clearListLoop, Heap.load_stale hcell, error_bind]

/-- **One list**: it has no cell, or a single one that is freed. -/
lemma clearList_eq_ok {h h' : Heap Fd} {head : Ptr} (hclear : clearList h head = .ok h') :
    (head = none ∧ h' = h) ∨
      ∃ a d, head = some a ∧ h.cells a = some ⟨d, none⟩ ∧ h' = h.release a := by
  cases head with
  | none =>
      rw [clearList_none] at hclear
      exact Or.inl ⟨rfl, (Except.ok.inj hclear).symm⟩
  | some a =>
      cases hcell : h.cells a with
      | none =>
          rw [clearList_stale hcell] at hclear
          cases hclear
      | some cell =>
          obtain ⟨d, next⟩ := cell
          cases next with
          | none =>
              rw [clearList_single hcell] at hclear
              exact Or.inr ⟨a, d, rfl, hcell, (Except.ok.inj hclear).symm⟩
          | some b =>
              rw [clearList_long hcell] at hclear
              cases hclear

/-! ## All lists -/

/-- One list after the other. -/
def clearLists : Heap Fd → List Ptr → Except Fault (Heap Fd)
  | h, [] => pure h
  | h, head :: heads => do
      let h ← clearList h head
      clearLists h heads

lemma clearLists_append (h : Heap Fd) (heads heads' : List Ptr) :
    clearLists h (heads ++ heads') = clearLists h heads >>= fun h => clearLists h heads' := by
  induction heads generalizing h with
  | nil => rfl
  | cons head heads ih =>
      simp only [List.cons_append, clearLists]
      cases clearList h head with
      | error e => rfl
      | ok h₁ => exact ih h₁

/-- A chain is its lists. -/
lemma clearChain_eq (h : Heap Fd) (chain : List KeyNode) :
    clearChain h chain = (clearLists h (chain.map KeyNode.head)).map
      fun h => (h, chain.map KeyNode.cleared) := by
  induction chain generalizing h with
  | nil => rfl
  | cons node chain ih =>
      simp only [clearChain, List.map_cons, clearLists]
      cases clearList h node.head with
      | error e => rfl
      | ok h₁ =>
          simp only [ok_bind, ih]
          cases clearLists h₁ (chain.map KeyNode.head) with
          | error e => rfl
          | ok h₂ => rfl

/-- Chains are their lists. -/
lemma clearChains_eq {is : List (Fin tableSize)} (his : is.Nodup) (ht : HashTable) :
    clearChains is ht = (clearLists ht.subs (ht.heads is)).map fun subs =>
      { ht with
        table := fun i => if i ∈ is then (ht.table i).map KeyNode.cleared else ht.table i
        subs := subs } := by
  induction is generalizing ht with
  | nil => simp [clearChains, HashTable.heads, clearLists, Except.map]
  | cons i is ih =>
      obtain ⟨hi, his⟩ := List.nodup_cons.mp his
      have hheads : ht.heads (i :: is) = (ht.table i).map KeyNode.head ++ ht.heads is := rfl
      rw [clearChains, clearChain_eq, hheads, clearLists_append]
      cases clearLists ht.subs ((ht.table i).map KeyNode.head) with
      | error e => rfl
      | ok subs =>
          set ht₁ : HashTable :=
            { ht.setChain i ((ht.table i).map KeyNode.cleared) with subs := subs } with hht₁
          have hother : ∀ j ∈ is, ht₁.table j = ht.table j := by
            intro j hj
            have hji : j ≠ i := fun heq => hi (by rwa [heq] at hj)
            exact Function.update_of_ne hji _ _
          have hsame : ht₁.heads is = ht.heads is := by
            refine List.flatMap_congr ?_
            intro j hj
            rw [hother j hj]
          have htable : (fun j => if j ∈ is then (ht₁.table j).map KeyNode.cleared else ht₁.table j)
              = fun j => if j ∈ i :: is then (ht.table j).map KeyNode.cleared else ht.table j := by
            funext j
            by_cases hj : j ∈ is
            · rw [if_pos hj, if_pos (List.mem_cons_of_mem _ hj), hother j hj]
            · rw [if_neg hj]
              by_cases hji : j = i
              · subst hji
                rw [if_pos (by simp)]
                exact Function.update_self _ _ _
              · rw [if_neg (by simp [hj, hji])]
                exact Function.update_of_ne hji _ _
          have hrest := ih his ht₁
          rw [hsame, htable] at hrest
          exact hrest

/-- What is left when the lists could be cleared. -/
lemma clearLists_cells {h h' : Heap Fd} {heads : List Ptr} (hclear : clearLists h heads = .ok h')
    (a : ℕ) : h'.cells a = if some a ∈ heads then none else h.cells a := by
  induction heads generalizing h with
  | nil =>
      obtain rfl := Except.ok.inj hclear
      simp
  | cons head heads ih =>
      obtain ⟨h₁, hfirst, hrest⟩ := bind_eq_ok.mp hclear
      rw [ih hrest]
      rcases clearList_eq_ok hfirst with ⟨rfl, rfl⟩ | ⟨b, d, rfl, hcell, rfl⟩
      · simp
      · by_cases hab : a = b
        · simp [hab]
        · simp [hab, Heap.release_cells_of_ne hab]

/-- A list with a single cell in front. -/
lemma clearLists_cons_some {h : Heap Fd} {b : ℕ} {heads : List Ptr} :
    (∃ h', clearLists h (some b :: heads) = .ok h') ↔
      (∃ d, h.cells b = some ⟨d, none⟩) ∧ ∃ h', clearLists (h.release b) heads = .ok h' := by
  constructor
  · rintro ⟨h', hclear⟩
    obtain ⟨h₁, hfirst, hrest⟩ := bind_eq_ok.mp hclear
    rcases clearList_eq_ok hfirst with ⟨hnone, -⟩ | ⟨c, d, hc, hcell, rfl⟩
    · cases hnone
    · obtain rfl := Option.some.inj hc
      exact ⟨⟨d, hcell⟩, h', hrest⟩
  · rintro ⟨⟨d, hcell⟩, h', hrest⟩
    exact ⟨h', by simp only [clearLists, clearList_single hcell, ok_bind, hrest]⟩

/-- Once a cell is freed, the lists behind have a single cell each if they had and it is not theirs. -/
lemma single_release_iff {h : Heap Fd} {b : ℕ} {heads : List Ptr} :
    (∀ a, some a ∈ heads → ∃ d, (h.release b).cells a = some ⟨d, none⟩) ↔
      some b ∉ heads ∧ ∀ a, some a ∈ heads → ∃ d, h.cells a = some ⟨d, none⟩ := by
  constructor
  · intro hsingle
    have hfresh : some b ∉ heads := by
      intro hmem
      obtain ⟨d, hcell⟩ := hsingle b hmem
      simp at hcell
    refine ⟨hfresh, ?_⟩
    intro a hmem
    have hab : a ≠ b := fun heq => hfresh (by rwa [heq] at hmem)
    rw [← Heap.release_cells_of_ne hab]
    exact hsingle a hmem
  · rintro ⟨hfresh, hsingle⟩ a hmem
    have hab : a ≠ b := fun heq => hfresh (by rwa [heq] at hmem)
    rw [Heap.release_cells_of_ne hab]
    exact hsingle a hmem

/-- **Lists can be cleared** if none has a second cell and no two have the same first, by induction
over the lists. -/
lemma clearLists_iff {h : Heap Fd} {heads : List Ptr} :
    (∃ h', clearLists h heads = .ok h') ↔
      (∀ a, some a ∈ heads → ∃ d, h.cells a = some ⟨d, none⟩) ∧ heads.reduceOption.Nodup := by
  induction heads generalizing h with
  | nil => simp [clearLists]
  | cons head heads ih =>
      cases head with
      | none =>
          simp only [clearLists, clearList_none, ok_bind, ih, List.mem_cons, reduceCtorEq, false_or,
            List.reduceOption_cons_of_none]
      | some b =>
          rw [clearLists_cons_some, ih, single_release_iff, List.reduceOption_cons_of_some,
            List.nodup_cons, List.reduceOption_mem_iff]
          simp only [List.mem_cons, Option.some.injEq, forall_eq_or_imp]
          tauto

/-! ## The handler -/

namespace HashTable

variable {ht : HashTable}

lemma mem_heads {head : Ptr} :
    head ∈ ht.heads (List.finRange tableSize) ↔ ∃ i, ∃ node ∈ ht.table i, node.head = head := by
  simp [heads]

/-- With single subscribers the cells of the lists are their heads. -/
lemma SingleSubscribers.subscribes_iff (h : ht.SingleSubscribers) {a : ℕ} :
    ht.Subscribes a ↔ some a ∈ ht.heads (List.finRange tableSize) := by
  rw [mem_heads]
  constructor
  · rintro ⟨i, node, hnode, cells, hchain, hmem⟩
    refine ⟨i, node, hnode, ?_⟩
    cases cells with
    | nil => cases hmem
    | cons first cells =>
        obtain ⟨b, e⟩ := first
        obtain ⟨hhead, q, hcell, hrest⟩ := hchain
        obtain ⟨d, hsingle⟩ := h.single i node hnode b hhead
        rw [hcell] at hsingle
        obtain ⟨rfl, rfl⟩ : e = d ∧ q = none := by simpa using hsingle
        cases cells with
        | nil =>
            obtain rfl : a = b := by simpa using hmem
            exact hhead
        | cons second cells => cases hrest.1
  · rintro ⟨i, node, hnode, hhead⟩
    obtain ⟨d, hcell⟩ := h.single i node hnode a hhead
    exact ⟨i, node, hnode, [(a, d)], ⟨hhead, none, hcell, rfl⟩, by simp⟩

/-- What the handler does to the table. -/
lemma sigusr1_eq (fifos : List FifoData) (ht : HashTable) :
    sigusr1 fifos (some ht) = (clearLists ht.subs (ht.heads (List.finRange tableSize))).map
      fun subs => (closedFds fifos, { ht with
        table := fun i => (ht.table i).map KeyNode.cleared
        subs := subs }) := by
  rw [sigusr1, clearChains_eq (List.nodup_finRange tableSize)]
  simp only [List.mem_finRange, if_true]
  cases clearLists ht.subs (ht.heads (List.finRange tableSize)) with
  | error e => rfl
  | ok subs => rfl

/-- **Exactly when the handler clears all subscriptions.**  On every table: if and only if no
subscriber list has a second cell, and no two nodes have the same first cell. -/
theorem sigusr1_clears_iff (fifos : List FifoData) (ht : HashTable) :
    ht.Cleared fifos ↔ ht.SingleSubscribers := by
  constructor
  · rintro ⟨ht', hrun, -⟩
    rw [sigusr1_eq] at hrun
    cases hclear : clearLists ht.subs (ht.heads (List.finRange tableSize)) with
    | error e =>
        rw [hclear] at hrun
        cases hrun
    | ok subs =>
        obtain ⟨hsingle, hseparate⟩ := clearLists_iff.mp ⟨subs, hclear⟩
        refine ⟨?_, hseparate⟩
        intro i node hnode a hhead
        exact hsingle a (mem_heads.mpr ⟨i, node, hnode, hhead⟩)
  · intro h
    have hsingle : ∀ a, some a ∈ ht.heads (List.finRange tableSize) →
        ∃ d, ht.subs.cells a = some ⟨d, none⟩ := by
      intro a hmem
      obtain ⟨i, node, hnode, hhead⟩ := mem_heads.mp hmem
      exact h.single i node hnode a hhead
    obtain ⟨subs, hclear⟩ := clearLists_iff.mpr ⟨hsingle, h.separate⟩
    have hcells := clearLists_cells hclear
    refine ⟨_, (sigusr1_eq fifos ht).trans (by rw [hclear]; rfl), fun _ => rfl, ?_, ?_⟩
    · intro a ha
      rw [h.subscribes_iff] at ha
      exact (hcells a).trans (if_pos ha)
    · intro a ha
      rw [h.subscribes_iff] at ha
      exact (hcells a).trans (if_neg ha)

/-- A key with one subscriber, and one with none. -/
theorem sigusr1_clears_one : sharedTable.Cleared [] := by
  have hnodes : ∀ i, ∀ node ∈ sharedTable.table i, node ∈ sharedNodes := by
    intro i node hnode
    have hchain : node ∈ if i = ⟨0, by decide⟩ then sharedNodes else [] := hnode
    split_ifs at hchain
    · exact hchain
    · cases hchain
  refine (sigusr1_clears_iff [] sharedTable).mpr ⟨?_, by decide⟩
  intro i node hnode a hhead
  rcases mem_sharedNodes.mp (hnodes i node hnode) with rfl | rfl
  · cases hhead
  · obtain rfl := Option.some.inj hhead
    exact ⟨7, rfl⟩

/-- A key with two subscribers. -/
theorem sigusr1_clears_not_two :
    sigusr1 [] (some heardTable) = .error .wildPointer ∧
      ¬ ∀ (fifos : List FifoData) (ht : HashTable), ht.WellSubscribed → ht.Cleared fifos := by
  have hfault : sigusr1 [] (some heardTable) = .error .wildPointer := rfl
  refine ⟨hfault, ?_⟩
  intro h
  obtain ⟨ht', hrun, -⟩ := h [] heardTable heardTable_wellSubscribed
  rw [hfault] at hrun
  cases hrun

end HashTable

end Kvs
