import Kvs.Server.FiniteMap
import Kvs.Server.TableRefinement

/-!
# The table in memory refines the table of lists

Each operation of `kvs.c` keeps the correspondence of `TableRefinement.lean`, and does in memory what
the same operation of `Table.lean` does on lists.  An overwrite changes one node and one string
(`Represents.overwrite`), a new key puts a node with two strings in front of its chain
(`Represents.push`), and a deletion relinks the chain (`Represents.relink`) and frees the node with
its strings (`Represents.free_unlinked`).

* `memory_refines_table` — any sequence of calls returns the same in memory and on lists, and if one of
  them has a fault it is the same call and the same fault.  So the chains and strings have no fault of
  their own: what can go wrong is what goes wrong in `Table.lean`, the index `-1`, the buffers on the
  stack and the subscriber lists.
* `memory_refines_map` — with `FiniteMap.lean` this goes down from the map of the keys to the pointers.
* `free_table_frees_all` — after any sequence of calls `free_table` frees every node and every string,
  each once.  It leaves the subscriber lists where they are.
-/

namespace Kvs

open Heap

namespace TableMemory.Represents

variable {mm : TableMemory} {ht : HashTable} {stored : Fin tableSize → List StoredNode}
  {key : CString} {i : Fin tableSize} {front back : List StoredNode} {r : StoredNode} {next : Ptr}

/-! ## Writing -/

/-- The node with a new value, in memory and in the list. -/
def rewritten (r : StoredNode) (copy : Ptr) (value : CString) : StoredNode where
  address := r.address
  fields := { r.fields with value := copy }
  keyNode := r.keyNode.withValue value

/-- **The value of a node replaced**: the old string is freed and the new one allocated. -/
lemma overwrite (h : mm.Represents ht stored) (hfound : FoundAt mm (stored i) key front r back next)
    (value : CString) :
    ∃ strings, mm.strings.free r.fields.value = .ok strings ∧
      (strings.alloc ⟨value, none⟩).string r.fields.key = .ok key ∧
      TableMemory.Represents
        { mm with
          nodes := mm.nodes.modify r.address
            fun c => { c with data := { c.data with value := some strings.bound } }
          strings := strings.alloc ⟨value, none⟩ }
        (ht.setChain i (overwriteValue key value (ht.table i)))
        (Function.update stored i (front ++ rewritten r (some strings.bound) value :: back)) := by
  have hmem := hfound.mem
  have hrest : ∀ x ∈ front ++ back, x ∈ stored i := by
    intro x hx
    rw [hfound.split]
    exact mem_middle.mpr (Or.inr hx)
  have hr := h.shown i r hmem
  obtain ⟨v, hv, hvc⟩ := hr.value
  have hvalue : nodeStrings mm.nodes (r.address, .Value) = some v := (h.place hmem .Value).trans hv
  have hkey := (hr.key.release h.owned (h.place hmem .Key) hvalue (by simp)).alloc ⟨value, none⟩
  have hfreed := h.owned.release hvalue
  -- what the nodes other than this one show is as before
  have hstay : ∀ j, ∀ x ∈ stored j, x.address ≠ r.address →
      x.ShownIn ((mm.strings.release v).alloc ⟨value, none⟩) := by
    intro j x hx hne
    exact ((h.shown j x hx).release h.owned (h.place hx) hvalue hne).alloc _
  have hne := h.address_ne hfound.split
  refine ⟨mm.strings.release v, by rw [hv, free_some hvc], ?_, ?_⟩
  · rw [← hfound.name]
    exact hkey.string
  refine h.setChain ?_ ?_ ?_ ?_ ?_ ?_ ?_ ?_ h.subs h.nodes
  · have hlist : overwriteValue key value (ht.table i)
        = (front ++ rewritten r (some (mm.strings.release v).bound) value :: back).map
            StoredNode.keyNode := by
      rw [overwriteValue, h.lists i, hfound.split, List.map_append, List.map_cons,
        KeyedList.modify_split _ hfound.name, List.map_append, List.map_cons]
      · rfl
      · intro keyNode hkeyNode
        obtain ⟨x, hx, rfl⟩ := List.mem_map.mp hkeyNode
        exact hfound.before x hx
    rw [← hlist]
    rfl
  · have hchain := h.chains i
    rw [hfound.split, List.map_append, List.map_cons] at hchain
    rw [List.map_append, List.map_cons]
    exact hchain.modify_data fun fields => { fields with value := some mm.strings.bound }
  · intro j hj
    refine (h.chains j).congr fun a ha => ?_
    have hother := h.not_mem_other hmem hj
    exact modify_cells_of_ne _ fun heq => hother (heq ▸ ha)
  · intro x hx
    rcases mem_middle.mp hx with rfl | hx
    · exact ⟨hkey, holdsText_strdup _ value, hr.head⟩
    · exact hstay i x (hrest x hx) (hne x hx)
  · intro j hj x hx
    exact hstay j x hx (h.apart_ne hmem j hj x hx).symm
  · intro x hx j hj r' hr'
    rcases mem_middle.mp hx with rfl | hx
    · exact h.apart_ne hmem j hj r' hr'
    · exact h.apart_ne (hrest x hx) j hj r' hr'
  · intro a c hc
    obtain ⟨c', hc'⟩ : ∃ c', mm.nodes.cells a = some c' := by
      by_cases ha : a = r.address
      · exact ⟨_, ha ▸ hfound.cell⟩
      · exact ⟨c, (modify_cells_of_ne _ ha).symm.trans hc⟩
    obtain ⟨j, x, hx, haddress⟩ := h.linked a c' hc'
    by_cases hj : j = i
    · left
      rw [hj, hfound.split] at hx
      rcases mem_middle.mp hx with rfl | hx
      · exact ⟨_, mem_middle.mpr (Or.inl rfl), haddress⟩
      · exact ⟨x, mem_middle.mpr (Or.inr hx), haddress⟩
    · exact Or.inr ⟨j, hj, x, hx, haddress⟩
  · rw [nodeStrings_modify_value _ _ hfound.cell]
    have hnew := hfreed.alloc (Function.update_self ..) ⟨value, none⟩
    rwa [Function.update_idem] at hnew

/-- What is at a new node. -/
def newNode (mm : TableMemory) (key value : CString) (head : Ptr) : StoredNode where
  address := mm.nodes.bound
  fields := ⟨some mm.strings.bound, some (mm.strings.bound + 1), head⟩
  keyNode := ⟨key, value, head⟩

/-- **A new node in front of a chain**, with its two strings. -/
lemma push (h : mm.Represents ht stored) (i : Fin tableSize) (key value : CString) (head : Ptr) :
    TableMemory.Represents
      { mm with
        table := Function.update mm.table i (some mm.nodes.bound)
        nodes := mm.nodes.alloc ⟨(newNode mm key value head).fields, mm.table i⟩
        strings := (mm.strings.alloc ⟨key, none⟩).alloc ⟨value, none⟩ }
      { ht.setChain i (⟨key, value, head⟩ :: ht.table i) with nodes := ht.nodes + 1 }
      (Function.update stored i (newNode mm key value head :: stored i)) := by
  have hstay : ∀ j, ∀ x ∈ stored j,
      x.ShownIn ((mm.strings.alloc ⟨key, none⟩).alloc ⟨value, none⟩) := by
    intro j x hx
    exact ((h.shown j x hx).alloc _).alloc _
  have hold : ∀ j, ∀ x ∈ stored j, x.address < mm.nodes.bound := by
    intro j x hx
    obtain ⟨c, hc⟩ := (h.chains j).live
      (List.mem_map_of_mem (f := Prod.fst) (List.mem_map_of_mem (f := StoredNode.cell) hx))
    exact lt_bound hc
  refine h.setChain ?_ ?_ ?_ ?_ ?_ ?_ ?_ ?_ h.subs ?_
  · rw [List.map_cons, ← h.lists i]
    rfl
  · show Chain _ (Function.update mm.table i (some mm.nodes.bound) i) _
    rw [Function.update_self]
    exact (h.chains i).push _
  · intro j hj
    show Chain _ (Function.update mm.table i (some mm.nodes.bound) j) _
    rw [Function.update_of_ne hj]
    exact (h.chains j).alloc _
  · intro x hx
    rcases List.mem_cons.mp hx with rfl | hx
    · exact ⟨(holdsText_strdup mm.strings key).alloc _, holdsText_strdup _ value, rfl⟩
    · exact hstay i x hx
  · intro j _ x hx
    exact hstay j x hx
  · intro x hx j hj r' hr'
    rcases List.mem_cons.mp hx with rfl | hx
    · exact (hold j r' hr').ne'
    · exact h.apart_ne hx j hj r' hr'
  · intro a c hc
    by_cases ha : a = mm.nodes.bound
    · exact Or.inl ⟨_, List.mem_cons_self, ha.symm⟩
    · have hc' : mm.nodes.cells a = some c := (if_neg ha).symm.trans hc
      obtain ⟨j, x, hx, haddress⟩ := h.linked a c hc'
      by_cases hj : j = i
      · subst hj
        exact Or.inl ⟨x, List.mem_cons_of_mem _ hx, haddress⟩
      · exact Or.inr ⟨j, hj, x, hx, haddress⟩
  · show OwnedBy _ (nodeStrings (mm.nodes.alloc ⟨⟨_, _, _⟩, _⟩))
    rw [nodeStrings_alloc]
    have hkey := h.owned.alloc (nodeStrings_bound mm.nodes .Key) ⟨key, none⟩
    refine hkey.alloc ?_ ⟨value, none⟩
    rw [Function.update_of_ne (by simp), nodeStrings_bound]
  · show mm.nodes.bound + 1 = ht.nodes + 1
    rw [h.nodes]

/-! ## Deleting -/

/-- The node is out of its chain, and the others are where they were. -/
structure Unlinked (mm mm' : TableMemory) (stored : Fin tableSize → List StoredNode)
    (i : Fin tableSize) (front : List StoredNode) (r : StoredNode) (back : List StoredNode)
    (next : Ptr) : Prop where
  chain : mm'.nodes.Chain (mm'.table i) ((front ++ back).map StoredNode.cell)
  others : ∀ j, j ≠ i → mm'.nodes.Chain (mm'.table j) ((stored j).map StoredNode.cell)
  cell : mm'.nodes.cells r.address = some ⟨r.fields, next⟩
  live : ∀ a c, mm'.nodes.cells a = some c → ∃ c', mm.nodes.cells a = some c'
  pointers : nodeStrings mm'.nodes = nodeStrings mm.nodes
  bound : mm'.nodes.bound = mm.nodes.bound
  strings : mm'.strings = mm.strings

/-- What `delete_pair` does to the links: the node is the first of its chain, or not. -/
lemma relink (h : mm.Represents ht stored) (hfound : FoundAt mm (stored i) key front r back next) :
    Unlinked mm (mm.relink i (lastPtr none front) next) stored i front r back next := by
  have hchain := h.chains i
  rw [hfound.split] at hchain
  rcases List.eq_nil_or_concat front with rfl | ⟨front', b, rfl⟩
  · rw [List.nil_append, List.map_cons] at hchain
    obtain ⟨-, q, hq, hback⟩ := hchain
    obtain rfl : q = next := by
      have hsame := hq.symm.trans hfound.cell
      simpa using hsame
    refine ⟨?_, ?_, hfound.cell, fun a c hc => ⟨c, hc⟩, rfl, rfl, rfl⟩
    · show Chain _ (Function.update mm.table i q i) _
      rw [Function.update_self]
      exact hback
    · intro j hj
      show Chain _ (Function.update mm.table i q j) _
      rw [Function.update_of_ne hj]
      exact h.chains j
  · have hlast : lastPtr none (front' ++ [b]) = some b.address := by
      rw [lastPtr, List.foldl_append]
      rfl
    rw [List.concat_eq_append] at hfound hchain ⊢
    rw [hlast]
    have hb : b ∈ stored i := by
      rw [hfound.split]
      simp
    have hbr : b.address ≠ r.address := h.address_ne hfound.split b (by simp)
    refine ⟨?_, ?_, ?_, ?_, nodeStrings_modify_next _ _ _, rfl, rfl⟩
    · rw [List.append_assoc, List.singleton_append, List.map_append, List.map_cons] at hchain ⊢
      exact hchain.bypass hfound.cell
    · intro j hj
      refine (h.chains j).congr fun a ha => ?_
      have hother := h.not_mem_other hb hj
      exact modify_cells_of_ne _ fun heq => hother (heq ▸ ha)
    · exact (modify_cells_of_ne _ hbr.symm).trans hfound.cell
    · intro a c hc
      by_cases ha : a = b.address
      · have hbc := (h.chains i).live
          (List.mem_map_of_mem (f := Prod.fst) (List.mem_map_of_mem (f := StoredNode.cell) hb))
        exact ha ▸ hbc
      · exact ⟨c, (modify_cells_of_ne _ ha).symm.trans hc⟩

/-- Subscriber lists have no part in it. -/
lemma Unlinked.withSubs {mm' : TableMemory} (h : Unlinked mm mm' stored i front r back next)
    (subs : Heap Fd) : Unlinked mm { mm' with subs := subs } stored i front r back next :=
  ⟨h.chain, h.others, h.cell, h.live, h.pointers, h.bound, h.strings⟩

/-- **Freeing an unlinked node.** -/
lemma free_unlinked (h : mm.Represents ht stored) (hsplit : stored i = front ++ r :: back)
    {mm₁ : TableMemory} (hunlinked : Unlinked mm mm₁ stored i front r back next) (ht' : HashTable)
    (htable : ht'.table = Function.update ht.table i ((front ++ back).map StoredNode.keyNode))
    (hsubs : mm₁.subs = ht'.subs) (hnodes : ht'.nodes = ht.nodes) :
    ∃ mm', mm₁.freeNode r.address r.fields = .ok mm' ∧
      mm'.Represents ht' (Function.update stored i (front ++ back)) := by
  have hmem : r ∈ stored i := by
    rw [hsplit]
    exact mem_middle.mpr (Or.inl rfl)
  have hrest : ∀ x ∈ front ++ back, x ∈ stored i := by
    intro x hx
    rw [hsplit]
    exact mem_middle.mpr (Or.inr hx)
  have hne := h.address_ne hsplit
  have howned : mm₁.strings.OwnedBy (nodeStrings mm₁.nodes) := by
    rw [hunlinked.strings, hunlinked.pointers]
    exact h.owned
  obtain ⟨mm', hfree, htables, hsame, hcells, howned', hstay⟩ :=
    freeNode_of_owned howned hunlinked.cell (hunlinked.strings ▸ h.shown i r hmem)
  have hshown : ∀ j, ∀ x ∈ stored j, x.address ≠ r.address → x.ShownIn mm'.strings := by
    intro j x hx hxr
    refine hstay x hxr ?_ (hunlinked.strings ▸ h.shown j x hx)
    intro field
    rw [hunlinked.pointers]
    exact h.place hx field
  refine ⟨mm', hfree, h.setChain htable ?_ ?_ ?_ ?_ ?_ ?_ howned' (hsame.trans hsubs) ?_⟩
  · rw [htables, hcells]
    refine hunlinked.chain.congr fun a ha => release_cells_of_ne ?_
    obtain ⟨c, hc, rfl⟩ := List.mem_map.mp ha
    obtain ⟨x, hx, rfl⟩ := List.mem_map.mp hc
    exact hne x hx
  · intro j hj
    rw [htables, hcells]
    refine (hunlinked.others j hj).congr fun a ha => release_cells_of_ne ?_
    have hother := h.not_mem_other hmem hj
    exact fun heq => hother (heq ▸ ha)
  · intro x hx
    exact hshown i x (hrest x hx) (hne x hx)
  · intro j hj x hx
    exact hshown j x hx (h.apart_ne hmem j hj x hx).symm
  · intro x hx
    exact h.apart_ne (hrest x hx)
  · intro a c hc
    rw [hcells] at hc
    have ha : a ≠ r.address := by
      rintro rfl
      rw [release_cells_self] at hc
      cases hc
    rw [release_cells_of_ne ha] at hc
    obtain ⟨c', hc'⟩ := hunlinked.live a c hc
    obtain ⟨j, x, hx, haddress⟩ := h.linked a c' hc'
    by_cases hj : j = i
    · rw [hj, hsplit] at hx
      rcases mem_middle.mp hx with rfl | hx
      · exact absurd haddress.symm ha
      · exact Or.inl ⟨x, hx, haddress⟩
    · exact Or.inr ⟨j, hj, x, hx, haddress⟩
  · rw [hcells, hnodes, ← h.nodes]
    exact hunlinked.bound

/-- The list after the removal. -/
lemma unlinkNode_eq (h : mm.Represents ht stored)
    (hfound : FoundAt mm (stored i) key front r back next) :
    Function.update ht.table i (unlinkNode key (ht.table i))
      = Function.update ht.table i ((front ++ back).map StoredNode.keyNode) := by
  rw [unlinkNode, h.lists i, hfound.split, List.map_append, List.map_cons,
    KeyedList.erase_split _ hfound.name, List.map_append]
  intro keyNode hkeyNode
  obtain ⟨x, hx, rfl⟩ := List.mem_map.mp hkeyNode
  exact hfound.before x hx

/-! ## Reading -/

/-- A string allocated and freed again leaves nothing behind. -/
lemma copied (h : mm.Represents ht stored) (s : CString) :
    TableMemory.Represents
      { mm with strings := (mm.strings.alloc ⟨s, none⟩).release mm.strings.bound } ht stored := by
  have hcells : ((mm.strings.alloc ⟨s, none⟩).release mm.strings.bound).cells
      = mm.strings.cells := by
    funext a
    by_cases ha : a = mm.strings.bound
    · rw [ha, release_cells_self, mm.strings.unallocated _ le_rfl]
    · rw [release_cells_of_ne ha]
      exact if_neg ha
  have htext : ∀ {p : Ptr} {t : CString}, mm.strings.HoldsText p t →
      ((mm.strings.alloc ⟨s, none⟩).release mm.strings.bound).HoldsText p t := by
    rintro p t ⟨a, hp, ha⟩
    exact ⟨a, hp, by rw [hcells, ha]⟩
  refine ⟨h.chains, h.lists, ?_, h.apart, h.linked, ⟨h.owned.unique, ?_⟩, h.subs, h.nodes⟩
  · intro j x hx
    have hshown := h.shown j x hx
    exact ⟨htext hshown.key, htext hshown.value, hshown.head⟩
  · intro a
    rw [hcells]
    exact h.owned.exact a

end TableMemory.Represents

/-! ## Every operation does the same -/

/-- What `write_subscription` and `delete_subscription` have in common: the search, and an operation on
the subscriber list of the node. -/
def TableMemory.updateSubscribers (mm : TableMemory) (operation : Heap Fd → Ptr → Except Fault (Heap Fd))
    (key : CString) : Except Fault (ℤ × TableMemory) := do
  let index ← tableIndex (hash key)
  let (_, found) ← mm.search key index
  match found with
  | some (_, keyNode) => do
      let subs ← operation mm.subs keyNode.data.head
      pure (1, { mm with subs })
  | none => pure (0, mm)

/-- The same on the table of lists. -/
def HashTable.updateSubscribers (ht : HashTable) (operation : Heap Fd → Ptr → Except Fault (Heap Fd))
    (key : CString) : Except Fault (ℤ × HashTable) := do
  let index ← tableIndex (hash key)
  match findNode key (ht.table index) with
  | some keyNode => do
      let subs ← operation ht.subs keyNode.head
      pure (1, { ht with subs := subs })
  | none => pure (0, ht)

namespace TableMemory.Simulates

variable {mm : TableMemory} {ht : HashTable}

/-- The same status or messages, and states that correspond. -/
theorem writePair (mem : ℕ → Ptr) (h : mm.Simulates ht) (key value : CString) :
    SameOutcome (fun x y => x.1.Simulates y.1 ∧ x.2 = y.2) (mm.writePair mem key value)
      (ht.writePair mem key value) := by
  obtain ⟨stored, h⟩ := h
  cases hi : tableIndex (hash key) with
  | error fault =>
      simp only [TableMemory.writePair, HashTable.writePair, hi, error_bind, sameOutcome_error]
  | ok i =>
      rcases h.search key i with ⟨⟨last, hrun⟩, hnone⟩ | ⟨front, r, back, next, hfound, hrun, hnode⟩
      · have hhead : mem ht.nodes = mem mm.nodes.bound := by rw [h.nodes]
        rw [HashTable.writePair_of_not_find hi hnone, hhead]
        simp only [TableMemory.writePair, hi, ok_bind, hrun, Heap.strdup, pure_eq_ok,
          sameOutcome_ok]
        exact ⟨⟨_, h.push i key value _⟩, trivial⟩
      · obtain ⟨strings, hfree, hname, hrep⟩ := h.overwrite hfound value
        have hstored := (holdsText_strdup strings value).string
        have hmemory : mm.writePair mem key value = (do
            let buffer ← sprintf writeBufferSize (pairText key value)
            let fds ← mm.subs.walk r.fields.head
            pure ({ mm with
              nodes := mm.nodes.modify r.address
                fun c => { c with data := { c.data with value := some strings.bound } }
              strings := strings.alloc ⟨value, none⟩ },
              fds.map fun fd => ⟨fd, buffer⟩)) := by
          simp only [TableMemory.writePair, hi, ok_bind, hrun, hfree, Heap.strdup, hname, hstored]
        have hwalk : mm.subs.walk r.fields.head = ht.subs.walk r.keyNode.head := by
          rw [h.subs, (h.shown i r hfound.mem).head]
        have hlists : ht.writePair mem key value = (do
            let buffer ← sprintf writeBufferSize (pairText key value)
            let fds ← ht.subs.walk r.keyNode.head
            pure (ht.setChain i (overwriteValue key value (ht.table i)),
              fds.map fun fd => ⟨fd, buffer⟩)) := by
          simp only [HashTable.writePair, hi, ok_bind, hnode, hfound.name, HashTable.notify,
            bind_assoc, pure_bind]
        rw [hmemory, hlists, hwalk]
        refine (SameOutcome.refl _).bind ?_
        rintro buffer _ rfl
        refine (SameOutcome.refl _).bind ?_
        rintro fds _ rfl
        exact ⟨⟨_, hrep⟩, rfl⟩

/-- What is read is a copy, and it is its caller's. -/
theorem readPair (h : mm.Simulates ht) (key : CString) :
    SameOutcome (fun x y => x.1 = y ∧ x.2.Simulates ht)
      (do let (result, mm) ← mm.readPair key
          TableCall.takeResult result mm)
      (ht.readPair key) := by
  obtain ⟨stored, h⟩ := h
  cases hi : tableIndex (hash key) with
  | error fault =>
      simp only [TableMemory.readPair, HashTable.readPair, hi, error_bind, sameOutcome_error]
  | ok i =>
      rcases h.search key i with ⟨⟨last, hrun⟩, hnone⟩ | ⟨front, r, back, next, hfound, hrun, hnode⟩
      · simp only [TableMemory.readPair, HashTable.readPair, hi, ok_bind, hrun, hnone, pure_eq_ok,
          TableCall.takeResult, Option.map_none, sameOutcome_ok]
        exact ⟨trivial, stored, h⟩
      · have hvalue := (h.shown i r hfound.mem).value.string
        have hcopy := holdsText_strdup mm.strings r.keyNode.value
        have hfree := free_some (mm.strings.alloc_cells_self ⟨r.keyNode.value, none⟩)
        simp only [TableMemory.readPair, HashTable.readPair, hi, ok_bind, hrun, hnode, hvalue,
          Heap.strdup, pure_eq_ok, TableCall.takeResult, hcopy.string, hfree, Option.map_some,
          sameOutcome_ok]
        exact ⟨trivial, stored, h.copied r.keyNode.value⟩

/-- The same status and messages, and states that correspond. -/
theorem deletePair (h : mm.Simulates ht) (key : CString) :
    SameOutcome (fun x y => x.1 = y.1 ∧ x.2.1.Simulates y.2.1 ∧ x.2.2 = y.2.2) (mm.deletePair key)
      (ht.deletePair key) := by
  obtain ⟨stored, h⟩ := h
  cases hi : tableIndex (hash key) with
  | error fault =>
      simp only [TableMemory.deletePair, HashTable.deletePair, hi, error_bind, sameOutcome_error]
  | ok i =>
      rcases h.search key i with ⟨⟨last, hrun⟩, hnone⟩ | ⟨front, r, back, next, hfound, hrun, hnode⟩
      · rw [HashTable.deletePair_of_not_find hi hnone]
        simp only [TableMemory.deletePair, hi, ok_bind, hrun, pure_eq_ok, sameOutcome_ok]
        exact ⟨trivial, ⟨stored, h⟩, trivial⟩
      · have hr := h.shown i r hfound.mem
        have hmemory : mm.deletePair key = (do
            let buffer ← sprintf deleteBufferSize (deletedText key)
            let freed ← mm.subs.freeList r.fields.head
            let mm' ← freeNode { mm.relink i (lastPtr none front) next with subs := freed.2 }
              r.address r.fields
            pure (0, mm', freed.1.map fun fd => (⟨fd, buffer⟩ : Notification))) := by
          simp only [TableMemory.deletePair, hi, ok_bind, hrun, hr.key.string, hfound.name]
        have hlists : ht.deletePair key = (do
            let buffer ← sprintf deleteBufferSize (deletedText key)
            let freed ← ht.subs.freeList r.keyNode.head
            pure (0, { ht.setChain i (unlinkNode key (ht.table i)) with subs := freed.2 },
              freed.1.map fun fd => (⟨fd, buffer⟩ : Notification))) := by
          simp only [HashTable.deletePair, hi, ok_bind, hnode, hfound.name]
        have hfreeList : mm.subs.freeList r.fields.head = ht.subs.freeList r.keyNode.head := by
          rw [h.subs, hr.head]
        rw [hmemory, hlists, hfreeList]
        refine (SameOutcome.refl _).bind ?_
        rintro buffer _ rfl
        refine (SameOutcome.refl _).bind ?_
        rintro ⟨fds, subs⟩ _ rfl
        obtain ⟨mm', hfree, hrep⟩ := h.free_unlinked hfound.split
          ((h.relink hfound).withSubs subs)
          { ht.setChain i (unlinkNode key (ht.table i)) with subs := subs }
          (h.unlinkNode_eq hfound) rfl rfl
        simp only [hfree, ok_bind, pure_eq_ok, sameOutcome_ok]
        exact ⟨trivial, ⟨_, hrep⟩, trivial⟩

/-- The loops over the subscriber list of a node are given the same pointer. -/
lemma withSubs {stored : Fin tableSize → List StoredNode} (h : mm.Represents ht stored)
    (subs : Heap Fd) : TableMemory.Simulates { mm with subs := subs } { ht with subs := subs } :=
  ⟨stored, h.chains, h.lists, h.shown, h.apart, h.linked, h.owned, rfl, h.nodes⟩

/-- **A search, and an operation on the list of the node that it finds.** -/
theorem updateSubscribers (h : mm.Simulates ht) (operation : Heap Fd → Ptr → Except Fault (Heap Fd))
    (key : CString) :
    SameOutcome (SameResult TableMemory.Simulates) (mm.updateSubscribers operation key)
      (ht.updateSubscribers operation key) := by
  obtain ⟨stored, h⟩ := h
  cases hi : tableIndex (hash key) with
  | error fault =>
      simp only [TableMemory.updateSubscribers, HashTable.updateSubscribers, hi, error_bind,
        sameOutcome_error]
  | ok i =>
      rcases h.search key i with ⟨⟨last, hrun⟩, hnone⟩ | ⟨front, r, back, next, hfound, hrun, hnode⟩
      · simp only [TableMemory.updateSubscribers, HashTable.updateSubscribers, hi, ok_bind, hrun,
          hnone, pure_eq_ok, sameOutcome_ok]
        exact ⟨rfl, stored, h⟩
      · simp only [TableMemory.updateSubscribers, HashTable.updateSubscribers, hi, ok_bind, hrun,
          hnode, h.subs, (h.shown i r hfound.mem).head]
        refine (SameOutcome.refl _).bind ?_
        rintro subs _ rfl
        exact ⟨rfl, withSubs h subs⟩

theorem writeSubscription (h : mm.Simulates ht) (key : CString) (fd : Fd) :
    SameOutcome (SameResult TableMemory.Simulates) (mm.writeSubscription key fd)
      (ht.writeSubscription key fd) :=
  h.updateSubscribers (fun subs head => appendListNode subs head fd) key

theorem deleteSubscription (h : mm.Simulates ht) (key : CString) (fd : Fd) :
    SameOutcome (SameResult TableMemory.Simulates) (mm.deleteSubscription key fd)
      (ht.deleteSubscription key fd) :=
  h.updateSubscribers (fun subs head => deleteListNode subs head fd) key

end TableMemory.Simulates

/-! ## The traversals -/

/-- The loop of `kvs_show` reads a chain to its end. -/
lemma TableMemory.showLoop_of_chain {mm : TableMemory} {chain : List StoredNode} {p : Ptr}
    {fuel : ℕ} (hchain : mm.nodes.Chain p (chain.map StoredNode.cell))
    (hshown : ∀ r ∈ chain, r.ShownIn mm.strings) (hfuel : chain.length ≤ fuel) :
    mm.showLoop fuel p = .ok ((chain.map StoredNode.keyNode).flatMap HashTable.showRecord) := by
  induction chain generalizing p fuel with
  | nil =>
      rw [Heap.chain_nil.mp hchain]
      cases fuel with
      | zero => rfl
      | succ fuel => rfl
  | cons r chain ih =>
      obtain ⟨rfl, q, hq, htail⟩ := hchain
      cases fuel with
      | zero => simp at hfuel
      | succ fuel =>
          have hr := hshown r (by simp)
          have hload : mm.nodes.load (some r.address) = .ok ⟨r.fields, q⟩ := load_some hq
          have hrest := ih htail (fun x hx => hshown x (List.mem_cons_of_mem _ hx))
            (Nat.le_of_succ_le_succ hfuel)
          show mm.showLoop (fuel + 1) (some r.address) = _
          simp only [TableMemory.showLoop, hload, ok_bind, hr.key.string, hr.value.string, hrest,
            pure_eq_ok, List.map_cons, List.flatMap_cons, HashTable.showRecord]

namespace TableMemory.Represents

variable {mm : TableMemory} {ht : HashTable} {stored : Fin tableSize → List StoredNode}

lemma showChains (h : mm.Represents ht stored) (is : List (Fin tableSize)) :
    mm.showChains is = .ok (is.flatMap fun i => (ht.table i).flatMap HashTable.showRecord) := by
  induction is with
  | nil => rfl
  | cons i is ih =>
      have hlength := (h.chains i).length_le
      rw [List.length_map] at hlength
      have hloop := TableMemory.showLoop_of_chain (h.chains i) (h.shown i)
        (Nat.le_succ_of_le hlength)
      simp only [TableMemory.showChains, hloop, ok_bind, ih, pure_eq_ok, List.flatMap_cons,
        h.lists i]

/-- `kvs_show` shows what the lists hold. -/
lemma kvsShow (h : mm.Represents ht stored) : mm.kvsShow = .ok ht.kvsShow :=
  h.showChains (List.finRange tableSize)

end TableMemory.Represents

/-! ## Runs -/

/-- One call. -/
lemma TableCall.onMemory_same (mem : ℕ → Ptr) (mm : TableMemory) (ht : HashTable) (call : TableCall)
    (h : mm.Simulates ht) :
    SameOutcome (SameResult TableMemory.Simulates) (call.onMemory mem mm) (call.onTable mem ht) := by
  cases call with
  | Write key value =>
      refine (h.writePair mem key value).bind ?_
      rintro ⟨mm', sent⟩ ⟨ht', _⟩ ⟨hstate, rfl⟩
      exact ⟨rfl, hstate⟩
  | Read key =>
      show SameOutcome _ (mm.readPair key >>= _) _
      have hread := h.readPair key
      refine (bind_assoc (mm.readPair key) _ _ ▸ hread.bind ?_ : _)
      rintro ⟨value, mm'⟩ _ ⟨rfl, hstate⟩
      exact ⟨rfl, hstate⟩
  | Delete key =>
      refine (h.deletePair key).bind ?_
      rintro ⟨status, mm', sent⟩ ⟨_, ht', _⟩ ⟨rfl, hstate, rfl⟩
      exact ⟨rfl, hstate⟩
  | Subscribe key fd =>
      refine (h.writeSubscription key fd).bind ?_
      rintro ⟨status, mm'⟩ ⟨_, ht'⟩ ⟨rfl, hstate⟩
      exact ⟨rfl, hstate⟩
  | Unsubscribe key fd =>
      refine (h.deleteSubscription key fd).bind ?_
      rintro ⟨status, mm'⟩ ⟨_, ht'⟩ ⟨rfl, hstate⟩
      exact ⟨rfl, hstate⟩
  | Show =>
      obtain ⟨stored, h⟩ := h
      simp only [TableCall.onMemory, TableCall.onTable, h.kvsShow, ok_bind, pure_eq_ok,
        sameOutcome_ok]
      exact ⟨rfl, stored, h⟩

/-- **The table in memory refines the table of lists.** -/
theorem memory_refines_table (mem : ℕ → Ptr) (calls : List TableCall) :
    SameOutcome (SameResult TableMemory.Simulates)
      (runCalls (TableCall.onMemory mem) .createHashTable calls)
      (runCalls (TableCall.onTable mem) .createHashTable calls) :=
  SameOutcome.runCalls (TableCall.onMemory_same mem) TableMemory.simulates_createHashTable calls

/-! ## Down from the map -/

/-- The call that an operation of the finite map is. -/
def TableOp.call : TableOp → TableCall
  | .Write key value => .Write key value
  | .Read key => .Read key
  | .Delete key => .Delete key

/-- What comes out of it when there are no subscribers. -/
def TableResult.silent : TableResult → CallResult
  | .Written => .Written []
  | .Value value => .Value value
  | .Deleted status => .Deleted status []

/-- One operation of the map, as a call on lists. -/
lemma TableOp.onTable_refines {mem : ℕ → Ptr} (hmem : ZeroFilled mem) {ht : HashTable} {m : Contents}
    (h : ht.Holds m) (op : TableOp) (hkey : op.key.StartsAlnum) (hfit : op.MessageFits m.read) :
    ∃ ht' m', op.call.onTable mem ht = .ok ((op.result m.read).silent, ht') ∧ ht'.Holds m' ∧
      m'.read = op.apply m.read := by
  cases op with
  | Write key value =>
      have hk : key.StartsAlnum := hkey
      obtain ⟨ht', hrun, hholds⟩ := h.writePair hmem hk hfit
      refine ⟨ht', _, ?_, hholds, m.read_write key value⟩
      simp only [call, TableCall.onTable, hrun, ok_bind, pure_eq_ok, result, TableResult.silent]
  | Read key =>
      have hk : key.StartsAlnum := hkey
      refine ⟨ht, m, ?_, h, rfl⟩
      simp only [call, TableCall.onTable, h.readPair hk, ok_bind, pure_eq_ok, result,
        TableResult.silent]
  | Delete key =>
      have hk : key.StartsAlnum := hkey
      obtain ⟨ht', hrun, hholds⟩ := h.deletePair hk hfit
      refine ⟨ht', _, ?_, hholds, h.distinct.read_delete key⟩
      simp only [call, TableCall.onTable, hrun, ok_bind, pure_eq_ok, result, TableResult.silent]

/-- Runs of them, by induction over the operations. -/
lemma runCalls_onTable_refines {mem : ℕ → Ptr} (hmem : ZeroFilled mem) {ht : HashTable}
    {m : Contents} (h : ht.Holds m) {ops : List TableOp} (hkeys : ∀ op ∈ ops, op.key.StartsAlnum)
    (hfits : MessagesFit m.read ops) :
    ∃ ht' m', runCalls (TableCall.onTable mem) ht (ops.map TableOp.call)
        = .ok ((resultsOn m.read ops).map TableResult.silent, ht') ∧ ht'.Holds m' ∧
      m'.read = valuesAfter m.read ops := by
  induction ops generalizing ht m with
  | nil => exact ⟨ht, m, rfl, h, rfl⟩
  | cons op ops ih =>
      obtain ⟨hfit, hfits⟩ := hfits
      obtain ⟨ht₁, m₁, hrun, h₁, hread⟩ := op.onTable_refines hmem h (hkeys op (by simp)) hfit
      obtain ⟨ht₂, m₂, hruns, h₂, hreads⟩ :=
        ih h₁ (fun o ho => hkeys o (List.mem_cons_of_mem _ ho)) (by rwa [hread])
      refine ⟨ht₂, m₂, ?_, h₂, by rw [hreads, hread]; rfl⟩
      simp only [List.map_cons, runCalls, hrun, ok_bind, hruns, pure_eq_ok, resultsOn, hread]

/-- **The table in memory refines a finite map.**  Under the conditions of the table of lists no call
of a run meets a null or stale pointer or frees a block twice; each returns what the map returns, and
afterwards every key reads as the map says. -/
theorem memory_refines_map {mem : ℕ → Ptr} (hmem : ZeroFilled mem) {ops : List TableOp}
    (hkeys : ∀ op ∈ ops, op.key.StartsAlnum) (hfits : MessagesFit (fun _ => none) ops) :
    ∃ mm, runCalls (TableCall.onMemory mem) .createHashTable (ops.map TableOp.call)
        = .ok ((resultsOn (fun _ => none) ops).map TableResult.silent, mm) ∧
      ∀ key : CString, key.StartsAlnum → ∃ mm', TableCall.onMemory mem mm (.Read key)
        = .ok (.Value (valuesAfter (fun _ => none) ops key), mm') := by
  obtain ⟨ht, m, hrun, h, hread⟩ :=
    runCalls_onTable_refines hmem HashTable.holds_createHashTable hkeys hfits
  have hsame := SameOutcome.runCalls (TableCall.onMemory_same mem)
    TableMemory.simulates_createHashTable (ops.map TableOp.call)
  obtain ⟨⟨results, mm⟩, hmm, rfl, hstate⟩ := hsame.of_ok hrun
  refine ⟨mm, hmm, fun key hkey => ?_⟩
  have hone : TableCall.onTable mem ht (.Read key)
      = .ok (.Value (valuesAfter (fun _ => none) ops key), ht) := by
    have hread : m.read = valuesAfter (fun _ => none) ops := hread
    simp only [TableCall.onTable, h.readPair hkey, ok_bind, pure_eq_ok, hread]
  obtain ⟨⟨result, mm'⟩, hcall, rfl, -⟩ := (TableCall.onMemory_same mem mm ht _ hstate).of_ok hone
  exact ⟨mm', hcall⟩

/-- Two keys of one chain, an overwrite and the deletion of the node behind the first. -/
theorem memory_refines_map_small :
    ∃ mm, runCalls (TableCall.onMemory fun _ => none) .createHashTable
        [.Write (.lit "a") (.lit "x"), .Write (.lit "0") (.lit "y"), .Write (.lit "a") (.lit "z"),
          .Delete (.lit "a"), .Read (.lit "0")]
      = .ok ([.Written [], .Written [], .Written [], .Deleted 0 [], .Value (some (.lit "y"))], mm) := by
  obtain ⟨mm, hrun, -⟩ := memory_refines_map (fun _ => rfl)
    (show ∀ op ∈ ([.Write (.lit "a") (.lit "x"), .Write (.lit "0") (.lit "y"),
      .Write (.lit "a") (.lit "z"), .Delete (.lit "a"), .Read (.lit "0")] : List TableOp),
      op.key.StartsAlnum by decide)
    (by simp only [MessagesFit, TableOp.MessageFits]; decide)
  exact ⟨mm, hrun.trans (by congr 1)⟩

/-! ## The end -/

namespace TableMemory

/-- Freeing a node has nothing to do with the chain heads. -/
lemma freeNode_table (mm : TableMemory) (table : Fin tableSize → Ptr) (a : ℕ) (fields : NodeFields) :
    freeNode { mm with table := table } a fields
      = (mm.freeNode a fields).map fun mm' => { mm' with table := table } := by
  simp only [freeNode]
  cases mm.strings.free fields.key with
  | error fault => rfl
  | ok strings =>
      simp only [ok_bind]
      cases strings.free fields.value with
      | error fault => rfl
      | ok strings =>
          simp only [ok_bind]
          cases mm.nodes.free (some a) <;> rfl

/-- The loop of `free_table` over a chain: the nodes are freed as the first of what is left. -/
lemma freeLoop_of_represents {mm : TableMemory} {table : Fin tableSize → Ptr} {i : Fin tableSize}
    {p : Ptr} {ht : HashTable} {stored : Fin tableSize → List StoredNode} {fuel : ℕ}
    (h : Represents { mm with table := Function.update table i p } ht stored)
    (hfuel : (stored i).length ≤ fuel) :
    ∃ mm' ht', freeLoop fuel mm p = .ok mm' ∧ mm'.table = mm.table ∧ mm'.subs = mm.subs ∧
      Represents { mm' with table := Function.update table i none } ht'
        (Function.update stored i []) := by
  generalize hl : stored i = l at hfuel
  induction l generalizing mm p ht stored fuel with
  | nil =>
      have hp := h.chains i
      rw [hl] at hp
      obtain rfl : p = none := by
        rw [← Function.update_self i p table]
        exact hp
      refine ⟨mm, ht, ?_, rfl, rfl, ?_⟩
      · cases fuel <;> rfl
      · rw [← hl, Function.update_eq_self]
        exact h
  | cons r back ih =>
      cases fuel with
      | zero => simp at hfuel
      | succ fuel =>
          have hchain := h.chains i
          rw [hl] at hchain
          obtain ⟨hp, q, hq, -⟩ := hchain
          obtain rfl : p = some r.address := by
            rw [← hp]
            exact (Function.update_self i p table).symm
          have hfound : FoundAt { mm with table := Function.update table i (some r.address) }
              (stored i) r.keyNode.key [] r back q :=
            ⟨hl, fun x hx => absurd hx (by simp), rfl, hq⟩
          obtain ⟨mm₁, hfree, hrep⟩ := h.free_unlinked hl (h.relink hfound)
            (ht.setChain i (back.map StoredNode.keyNode)) rfl h.subs rfl
          rw [List.nil_append] at hrep
          -- apart from the chain heads this is the node that the loop frees
          have htable : relink { mm with table := Function.update table i (some r.address) } i
              (lastPtr none []) q = { mm with table := Function.update table i q } := by
            show TableMemory.mk _ _ _ _ = _
            rw [Function.update_idem]
          rw [htable, freeNode_table] at hfree
          cases hloop : mm.freeNode r.address r.fields with
          | error fault =>
              rw [hloop] at hfree
              cases hfree
          | ok mm₂ =>
              rw [hloop] at hfree
              obtain rfl := Except.ok.inj hfree
              have hsame : mm₂.table = mm.table ∧ mm₂.subs = mm.subs := by
                obtain ⟨strings, -, hloop⟩ := bind_eq_ok.mp hloop
                obtain ⟨strings', -, hloop⟩ := bind_eq_ok.mp hloop
                obtain ⟨nodes, -, hloop⟩ := bind_eq_ok.mp hloop
                obtain rfl := Except.ok.inj hloop
                exact ⟨rfl, rfl⟩
              obtain ⟨mm', ht', hrun, htables, hsubs, hlast⟩ := ih hrep
                (Function.update_self ..) (Nat.le_of_succ_le_succ hfuel)
              refine ⟨mm', ht', ?_, htables.trans hsame.1, hsubs.trans hsame.2, ?_⟩
              · have hload : mm.nodes.load (some r.address) = .ok ⟨r.fields, q⟩ := load_some hq
                simp only [freeLoop, hload, ok_bind, hloop, hrun]
              · rwa [Function.update_idem] at hlast

/-- The chains of `free_table`, by induction over those that are left. -/
lemma freeChains_of_represents {mm : TableMemory} {table : Fin tableSize → Ptr} {ht : HashTable}
    {stored : Fin tableSize → List StoredNode} {is : List (Fin tableSize)}
    (h : Represents { mm with table := table } ht stored) (hsame : ∀ i ∈ is, table i = mm.table i)
    (hnodup : is.Nodup) :
    ∃ mm' table' ht' stored', mm.freeChains is = .ok mm' ∧ mm'.subs = mm.subs ∧
      Represents { mm' with table := table' } ht' stored' ∧ (∀ i ∈ is, stored' i = []) ∧
      ∀ j, j ∉ is → stored' j = stored j := by
  induction is generalizing mm table ht stored with
  | nil => exact ⟨mm, table, ht, stored, rfl, rfl, h, by simp, fun _ _ => rfl⟩
  | cons i is ih =>
      obtain ⟨hi, hnodup⟩ := List.nodup_cons.mp hnodup
      have hlength := (h.chains i).length_le
      rw [List.length_map] at hlength
      have hfirst : Represents { mm with table := Function.update table i (mm.table i) } ht stored := by
        rw [← hsame i (by simp), Function.update_eq_self]
        exact h
      obtain ⟨mm₁, ht₁, hloop, htables, hsubs, hrep⟩ :=
        freeLoop_of_represents hfirst (Nat.le_succ_of_le hlength)
      obtain ⟨mm', table', ht', stored', hrest, hsubs', hlast, hempty, hother⟩ := ih hrep (by
        intro j hj
        have hji : j ≠ i := fun heq => hi (heq ▸ hj)
        rw [Function.update_of_ne hji, hsame j (List.mem_cons_of_mem _ hj), htables]) hnodup
      refine ⟨mm', table', ht', stored', ?_, hsubs'.trans hsubs, hlast, ?_, ?_⟩
      · simp only [freeChains, hloop, ok_bind, hrest]
      · intro j hj
        rcases List.mem_cons.mp hj with rfl | hj
        · rw [hother j hi, Function.update_self]
        · exact hempty j hj
      · intro j hj
        rw [List.mem_cons, not_or] at hj
        rw [hother j hj.2, Function.update_of_ne hj.1]

/-- What `free_table` leaves of a table. -/
lemma Represents.freeTable {mm : TableMemory} {ht : HashTable}
    {stored : Fin tableSize → List StoredNode} (h : mm.Represents ht stored) :
    ∃ mm', mm.freeTable = .ok mm' ∧ (∀ a, mm'.nodes.cells a = none) ∧
      (∀ a, mm'.strings.cells a = none) ∧ mm'.subs = mm.subs := by
  have hall : Represents { mm with table := mm.table } ht stored := h
  obtain ⟨mm', table', ht', stored', hrun, hsubs, hlast, hempty, -⟩ :=
    freeChains_of_represents hall (fun _ _ => rfl) (List.nodup_finRange tableSize)
  have hnodes : ∀ a, mm'.nodes.cells a = none := by
    intro a
    cases hc : mm'.nodes.cells a with
    | none => rfl
    | some c =>
        obtain ⟨i, r, hr, -⟩ := hlast.linked a c hc
        rw [hempty i (List.mem_finRange i)] at hr
        cases hr
  refine ⟨mm', hrun, hnodes, hlast.owned.dead ?_, hsubs⟩
  rintro ⟨a, field⟩
  show (mm'.nodes.cells a).bind _ = none
  rw [hnodes a]
  rfl

end TableMemory

/-- **Nothing of the table outlives `free_table`** but the subscriber lists. -/
theorem free_table_frees_all {mem : ℕ → Ptr} {calls : List TableCall} {results : List CallResult}
    {mm : TableMemory}
    (hrun : runCalls (TableCall.onMemory mem) .createHashTable calls = .ok (results, mm)) :
    ∃ mm', mm.freeTable = .ok mm' ∧ (∀ a, mm'.nodes.cells a = none) ∧
      (∀ a, mm'.strings.cells a = none) ∧ mm'.subs = mm.subs := by
  have hsame := SameOutcome.runCalls (TableCall.onMemory_same mem)
    TableMemory.simulates_createHashTable calls
  obtain ⟨⟨_, ht⟩, -, -, stored, h⟩ := hsame.ok_of hrun
  exact h.freeTable

/-- A pair written, overwritten and read. -/
theorem free_table_frees_all_small :
    ∃ mm mm', runCalls (TableCall.onMemory fun _ => none) .createHashTable
        [.Write (.lit "a") (.lit "x"), .Write (.lit "a") (.lit "z"), .Read (.lit "a")]
      = .ok ([.Written [], .Written [], .Value (some (.lit "z"))], mm) ∧
      mm.freeTable = .ok mm' ∧ ∀ a, mm'.strings.cells a = none := by
  obtain ⟨mm, hrun⟩ : ∃ mm, runCalls (TableCall.onMemory fun _ => none) .createHashTable
      [.Write (.lit "a") (.lit "x"), .Write (.lit "a") (.lit "z"), .Read (.lit "a")]
    = .ok ([.Written [], .Written [], .Value (some (.lit "z"))], mm) := ⟨_, rfl⟩
  obtain ⟨mm', hfree, -, hstrings, -⟩ := free_table_frees_all hrun
  exact ⟨mm, mm', hrun, hfree, hstrings⟩

end Kvs
