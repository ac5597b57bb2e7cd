import Kvs.Core.Ownership
import Kvs.Server.TableMemory

/-!
# What the table in memory has to do with lists

`TableMemory.Represents mm ht stored` is the invariant of `kvs.c` as its authors must have had it in
mind.  `stored i` is chain `i` with, for each node, its address, what is in memory there, and the node
of `Table.lean` that it is.

* From each chain head the nodes of the list are met in order, and no node is in two chains.
* Read through its key and value pointers a node is the one of the list.
* **Nothing is lost.**  Every node that is allocated is in a chain, and every string that is allocated
  belongs to one field of one node (`nodeStrings`, an instance of `Core/Ownership.lean`).

The search of a chain comes to what `findNode` finds in the list (`Represents.search`).  The rest of
the file is what the operations are made of: one chain replaced (`Represents.setChain`), and a node
freed with its strings (`TableMemory.freeNode_of_owned`).
-/

namespace Kvs

open Heap

/-! ## The correspondence -/

/-- A node of a chain: its address, what is in memory there, and the node of `Table.lean` that it is. -/
structure StoredNode where
  address : ℕ
  fields : NodeFields
  keyNode : KeyNode

def StoredNode.cell (r : StoredNode) : ℕ × NodeFields := (r.address, r.fields)

/-- The two strings a node has. -/
inductive StringField where
  | Key
  | Value
  deriving DecidableEq

/-- The pointer to one of them. -/
def NodeFields.string (fields : NodeFields) : StringField → Ptr
  | .Key => fields.key
  | .Value => fields.value

/-- The pointer leads to a block with the string. -/
def Heap.HoldsText (strings : Heap CString) (p : Ptr) (s : CString) : Prop :=
  ∃ a, p = some a ∧ strings.cells a = some ⟨s, none⟩

/-- Read through its pointers a node is the one of the list. -/
structure StoredNode.ShownIn (r : StoredNode) (strings : Heap CString) : Prop where
  key : strings.HoldsText r.fields.key r.keyNode.key
  value : strings.HoldsText r.fields.value r.keyNode.value
  head : r.fields.head = r.keyNode.head

/-- The string pointers of the nodes that are allocated. -/
def nodeStrings (nodes : Heap NodeFields) (place : ℕ × StringField) : Ptr :=
  (nodes.cells place.1).bind fun c => c.data.string place.2

/-- **The memory represents the lists.**  From each chain head the nodes of the list are met, every
node that is allocated is in one chain, and every string that is allocated belongs to one field of
one node. -/
structure TableMemory.Represents (mm : TableMemory) (ht : HashTable)
    (stored : Fin tableSize → List StoredNode) : Prop where
  chains : ∀ i, mm.nodes.Chain (mm.table i) ((stored i).map StoredNode.cell)
  lists : ∀ i, ht.table i = (stored i).map StoredNode.keyNode
  shown : ∀ i, ∀ r ∈ stored i, r.ShownIn mm.strings
  apart : ∀ i j, ∀ r ∈ stored i, ∀ r' ∈ stored j, r.address = r'.address → i = j
  linked : ∀ a c, mm.nodes.cells a = some c → ∃ i, ∃ r ∈ stored i, r.address = a
  owned : mm.strings.OwnedBy (nodeStrings mm.nodes)
  subs : mm.subs = ht.subs
  nodes : mm.nodes.bound = ht.nodes

/-- The memory represents the table, wherever the nodes are. -/
def TableMemory.Simulates (mm : TableMemory) (ht : HashTable) : Prop :=
  ∃ stored, mm.Represents ht stored

lemma TableMemory.simulates_createHashTable :
    TableMemory.createHashTable.Simulates HashTable.createHashTable := by
  refine ⟨fun _ => [], fun _ => rfl, fun _ => rfl, ?_, ?_, ?_, Heap.ownedBy_empty, rfl, rfl⟩
  · intro i r hr
    cases hr
  · intro i j r hr
    cases hr
  · intro a c hc
    cases hc

/-! ## Strings -/

section Strings

variable {strings : Heap CString} {p : Ptr} {s : CString}

lemma Heap.HoldsText.string (h : strings.HoldsText p s) : strings.string p = .ok s := by
  obtain ⟨a, rfl, hc⟩ := h
  simp only [Heap.string, load_some hc, ok_bind, pure_eq_ok]

lemma Heap.HoldsText.alloc (h : strings.HoldsText p s) (c : Cell CString) :
    (strings.alloc c).HoldsText p s := by
  obtain ⟨a, rfl, hc⟩ := h
  refine ⟨a, rfl, ?_⟩
  have hne : a ≠ strings.bound := (lt_bound hc).ne
  rw [← hc]
  exact if_neg hne

lemma Heap.holdsText_strdup (strings : Heap CString) (s : CString) :
    (strings.alloc ⟨s, none⟩).HoldsText (some strings.bound) s :=
  ⟨strings.bound, rfl, strings.alloc_cells_self ⟨s, none⟩⟩

/-- A string is not lost when that of another place is freed. -/
lemma Heap.HoldsText.release {owner : ℕ × StringField → Ptr} (h : strings.HoldsText p s)
    (hown : strings.OwnedBy owner) {place place' : ℕ × StringField} {a : ℕ}
    (hplace : owner place = p) (hplace' : owner place' = some a) (hne : place ≠ place') :
    (strings.release a).HoldsText p s := by
  obtain ⟨b, rfl, hc⟩ := h
  exact ⟨b, rfl, (hown.release_other hplace' hplace hne).trans hc⟩

end Strings

/-! ## The pointers of the nodes -/

section Pointers

variable (nodes : Heap NodeFields) (a : ℕ)

/-- Links are not among them. -/
lemma nodeStrings_modify_next (q : Ptr) :
    nodeStrings (nodes.modify a fun c => { c with next := q }) = nodeStrings nodes := by
  funext ⟨b, field⟩
  by_cases hb : b = a
  · cases hc : nodes.cells b <;> simp [nodeStrings, Heap.modify, hb ▸ hc, hb]
  · simp only [nodeStrings, modify_cells_of_ne _ hb]

lemma nodeStrings_modify_value {c : Cell NodeFields} (hc : nodes.cells a = some c) (p : Ptr) :
    nodeStrings (nodes.modify a fun c => { c with data := { c.data with value := p } })
      = Function.update (nodeStrings nodes) (a, .Value) p := by
  funext ⟨b, field⟩
  by_cases hb : b = a
  · subst hb
    cases field with
    | Key =>
        rw [Function.update_of_ne (by simp)]
        simp only [nodeStrings, modify_cells_self _ hc, hc]
        rfl
    | Value =>
        rw [Function.update_self]
        simp only [nodeStrings, modify_cells_self _ hc]
        rfl
  · rw [Function.update_of_ne (by simp [hb])]
    simp only [nodeStrings, modify_cells_of_ne _ hb]

lemma nodeStrings_alloc (key value head next : Ptr) :
    nodeStrings (nodes.alloc ⟨⟨key, value, head⟩, next⟩)
      = Function.update (Function.update (nodeStrings nodes) (nodes.bound, .Key) key)
          (nodes.bound, .Value) value := by
  funext ⟨b, field⟩
  by_cases hb : b = nodes.bound
  · subst hb
    cases field with
    | Key =>
        rw [Function.update_of_ne (by simp), Function.update_self]
        simp only [nodeStrings, alloc_cells_self]
        rfl
    | Value =>
        rw [Function.update_self]
        simp only [nodeStrings, alloc_cells_self]
        rfl
  · rw [Function.update_of_ne (by simp [hb]), Function.update_of_ne (by simp [hb])]
    simp only [nodeStrings, Heap.alloc, if_neg hb]

lemma nodeStrings_release :
    nodeStrings (nodes.release a)
      = Function.update (Function.update (nodeStrings nodes) (a, .Key) none) (a, .Value) none := by
  funext ⟨b, field⟩
  by_cases hb : b = a
  · subst hb
    cases field with
    | Key =>
        rw [Function.update_of_ne (by simp), Function.update_self]
        simp only [nodeStrings, release_cells_self]
        rfl
    | Value =>
        rw [Function.update_self]
        simp only [nodeStrings, release_cells_self]
        rfl
  · rw [Function.update_of_ne (by simp [hb]), Function.update_of_ne (by simp [hb])]
    simp only [nodeStrings, release_cells_of_ne hb]

/-- A node that is not there has no strings. -/
lemma nodeStrings_bound (field : StringField) : nodeStrings nodes (nodes.bound, field) = none := by
  simp only [nodeStrings, nodes.unallocated nodes.bound le_rfl, Option.bind_none]

end Pointers

/-! ## The search -/

/-- The last node of those passed, or where the search came from. -/
def lastPtr (previous : Ptr) (front : List StoredNode) : Ptr :=
  front.foldl (fun _ r => some r.address) previous

/-- The search stops at a node: it is the first of its chain with the key. -/
structure FoundAt (mm : TableMemory) (chain : List StoredNode) (key : CString)
    (front : List StoredNode) (r : StoredNode) (back : List StoredNode) (next : Ptr) : Prop where
  split : chain = front ++ r :: back
  before : ∀ x ∈ front, x.keyNode.key ≠ key
  name : r.keyNode.key = key
  cell : mm.nodes.cells r.address = some ⟨r.fields, next⟩

/-- An element in the middle of a list, or one of the others. -/
lemma mem_middle {x r : StoredNode} {front back : List StoredNode} :
    x ∈ front ++ r :: back ↔ x = r ∨ x ∈ front ++ back := by
  rw [List.perm_middle.mem_iff, List.mem_cons]

lemma FoundAt.mem {mm : TableMemory} {chain front back : List StoredNode} {key : CString}
    {r : StoredNode} {next : Ptr} (h : FoundAt mm chain key front r back next) : r ∈ chain := by
  rw [h.split]
  exact mem_middle.mpr (Or.inl rfl)

/-- What a search over a chain comes to: the end, or the first node of the key. -/
lemma searchLoop_of_chain {mm : TableMemory} (key : CString) {chain : List StoredNode} {p : Ptr}
    {fuel : ℕ} (hchain : mm.nodes.Chain p (chain.map StoredNode.cell))
    (hshown : ∀ r ∈ chain, r.ShownIn mm.strings) (hfuel : chain.length ≤ fuel) (previous : Ptr) :
    ((∀ r ∈ chain, r.keyNode.key ≠ key) ∧
        ∃ last, mm.searchLoop key fuel previous p = .ok (last, none)) ∨
      ∃ front r back next, FoundAt mm chain key front r back next ∧
        mm.searchLoop key fuel previous p
          = .ok (lastPtr previous front, some (r.address, ⟨r.fields, next⟩)) := by
  induction chain generalizing p fuel previous with
  | nil =>
      rw [Heap.chain_nil.mp hchain]
      left
      refine ⟨fun r hr => absurd hr (by simp), previous, ?_⟩
      cases fuel with
      | zero => rfl
      | succ fuel => rfl
  | cons r chain ih =>
      obtain ⟨rfl, q, hq, htail⟩ := hchain
      cases fuel with
      | zero => simp at hfuel
      | succ fuel =>
          have hname : mm.strings.string r.fields.key = .ok r.keyNode.key :=
            (hshown r (by simp)).key.string
          have hload : mm.nodes.load (some r.address) = .ok ⟨r.fields, q⟩ := load_some hq
          have hstep : mm.searchLoop key (fuel + 1) previous (some r.address)
              = if r.keyNode.key = key then .ok (previous, some (r.address, ⟨r.fields, q⟩))
                else mm.searchLoop key fuel (some r.address) q := by
            simp only [TableMemory.searchLoop, hload, ok_bind, hname, pure_eq_ok]
          by_cases hkey : r.keyNode.key = key
          · right
            refine ⟨[], r, chain, q, ⟨rfl, fun x hx => absurd hx (by simp), hkey, hq⟩, ?_⟩
            rw [hstep, if_pos hkey]
            rfl
          · rw [hstep, if_neg hkey]
            rcases ih htail (fun x hx => hshown x (List.mem_cons_of_mem _ hx))
              (Nat.le_of_succ_le_succ hfuel) (some r.address) with ⟨hnone, hrun⟩ | hfound
            · left
              refine ⟨?_, hrun⟩
              intro x hx
              rcases List.mem_cons.mp hx with rfl | hx
              · exact hkey
              · exact hnone x hx
            · obtain ⟨front, x, back, next, hfound, hrun⟩ := hfound
              right
              refine ⟨r :: front, x, back, next, ⟨?_, ?_, hfound.name, hfound.cell⟩, hrun⟩
              · rw [hfound.split, List.cons_append]
              · intro y hy
                rcases List.mem_cons.mp hy with rfl | hy
                · exact hkey
                · exact hfound.before y hy

namespace TableMemory.Represents

variable {mm : TableMemory} {ht : HashTable} {stored : Fin tableSize → List StoredNode}
  {key : CString} {i : Fin tableSize}

/-- The search of a chain, in memory and in the list. -/
lemma search (h : mm.Represents ht stored) (key : CString) (i : Fin tableSize) :
    ((∃ last, mm.search key i = .ok (last, none)) ∧ findNode key (ht.table i) = none) ∨
      ∃ front r back next, FoundAt mm (stored i) key front r back next ∧
        mm.search key i = .ok (lastPtr none front, some (r.address, ⟨r.fields, next⟩)) ∧
        findNode key (ht.table i) = some r.keyNode := by
  have hlength := (h.chains i).length_le
  rw [List.length_map] at hlength
  rcases searchLoop_of_chain key (h.chains i) (h.shown i) (Nat.le_succ_of_le hlength) none
    with ⟨hnone, hrun⟩ | ⟨front, r, back, next, hfound, hrun⟩
  · left
    refine ⟨hrun, ?_⟩
    rw [findNode, h.lists i, KeyedList.find_eq_none_iff, List.map_map]
    intro hmem
    obtain ⟨r, hr, hkey⟩ := List.mem_map.mp hmem
    exact hnone r hr hkey
  · right
    refine ⟨front, r, back, next, hfound, hrun, ?_⟩
    rw [findNode, h.lists i, hfound.split, List.map_append, List.map_cons]
    refine KeyedList.find_split ?_ hfound.name
    intro keyNode hkeyNode
    obtain ⟨x, hx, rfl⟩ := List.mem_map.mp hkeyNode
    exact hfound.before x hx

/-- A node of the lists is in memory, and its pointers are among those of the nodes. -/
lemma place (h : mm.Represents ht stored) {r : StoredNode} (hr : r ∈ stored i) (field : StringField) :
    nodeStrings mm.nodes (r.address, field) = r.fields.string field := by
  obtain ⟨front, back, hsplit⟩ := List.append_of_mem hr
  have hchain := h.chains i
  rw [hsplit, List.map_append, List.map_cons] at hchain
  obtain ⟨q, hq, -⟩ := hchain.split
  simp only [nodeStrings, hq, Option.bind_some]

/-- A node of one chain is in no other. -/
lemma not_mem_other (h : mm.Represents ht stored) {r : StoredNode} (hr : r ∈ stored i)
    {j : Fin tableSize} (hj : j ≠ i) : r.address ∉ ((stored j).map StoredNode.cell).map Prod.fst := by
  intro hmem
  obtain ⟨c, hc, haddress⟩ := List.mem_map.mp hmem
  obtain ⟨r', hr', rfl⟩ := List.mem_map.mp hc
  exact hj (h.apart j i r' hr' r hr haddress)

/-- A node is in its chain only once. -/
lemma address_ne (h : mm.Represents ht stored) {front back : List StoredNode} {r : StoredNode}
    (hsplit : stored i = front ++ r :: back) : ∀ x ∈ front ++ back, x.address ≠ r.address := by
  have hnodup := (h.chains i).nodup
  rw [hsplit, List.map_append, List.map_cons, List.map_append, List.map_cons,
    List.nodup_middle, ← List.map_append, ← List.map_append, List.nodup_cons] at hnodup
  intro x hx heq
  refine hnodup.1 (List.mem_map.mpr ⟨x.cell, List.mem_map_of_mem hx, heq⟩)

/-- **One chain replaced.**  The others are as they were, and so are their strings. -/
lemma setChain (h : mm.Represents ht stored) {l : List StoredNode} {mm' : TableMemory}
    {ht' : HashTable} (htable : ht'.table = Function.update ht.table i (l.map StoredNode.keyNode))
    (hchain : mm'.nodes.Chain (mm'.table i) (l.map StoredNode.cell))
    (hothers : ∀ j, j ≠ i → mm'.nodes.Chain (mm'.table j) ((stored j).map StoredNode.cell))
    (hshown : ∀ r ∈ l, r.ShownIn mm'.strings)
    (hshowns : ∀ j, j ≠ i → ∀ r ∈ stored j, r.ShownIn mm'.strings)
    (hapart : ∀ r ∈ l, ∀ j, j ≠ i → ∀ r' ∈ stored j, r.address ≠ r'.address)
    (hlinked : ∀ a c, mm'.nodes.cells a = some c →
      (∃ r ∈ l, r.address = a) ∨ ∃ j, j ≠ i ∧ ∃ r ∈ stored j, r.address = a)
    (howned : mm'.strings.OwnedBy (nodeStrings mm'.nodes)) (hsubs : mm'.subs = ht'.subs)
    (hnodes : mm'.nodes.bound = ht'.nodes) :
    mm'.Represents ht' (Function.update stored i l) where
  chains := (Function.forall_update_iff stored
    fun j chain => mm'.nodes.Chain (mm'.table j) (chain.map StoredNode.cell)).mpr ⟨hchain, hothers⟩
  lists := by
    refine (Function.forall_update_iff stored
      fun j chain => ht'.table j = chain.map StoredNode.keyNode).mpr ⟨?_, ?_⟩
    · rw [htable, Function.update_self]
    · intro j hj
      rw [htable, Function.update_of_ne hj, h.lists j]
  shown := (Function.forall_update_iff stored
    fun _ chain => ∀ r ∈ chain, r.ShownIn mm'.strings).mpr ⟨hshown, hshowns⟩
  apart := by
    intro j k r hr r' hr' haddress
    by_cases hj : j = i
    · by_cases hk : k = i
      · rw [hj, hk]
      · rw [hj, Function.update_self] at hr
        rw [Function.update_of_ne hk] at hr'
        exact absurd haddress (hapart r hr k hk r' hr')
    · rw [Function.update_of_ne hj] at hr
      by_cases hk : k = i
      · rw [hk, Function.update_self] at hr'
        exact absurd haddress.symm (hapart r' hr' j hj r hr)
      · rw [Function.update_of_ne hk] at hr'
        exact h.apart j k r hr r' hr' haddress
  linked := by
    intro a c hc
    rcases hlinked a c hc with ⟨r, hr, haddress⟩ | ⟨j, hj, r, hr, haddress⟩
    · exact ⟨i, r, by rwa [Function.update_self], haddress⟩
    · exact ⟨j, r, by rwa [Function.update_of_ne hj], haddress⟩
  owned := howned
  subs := hsubs
  nodes := hnodes

/-- Nodes of different chains have different addresses. -/
lemma apart_ne (h : mm.Represents ht stored) {r : StoredNode} (hr : r ∈ stored i) :
    ∀ j, j ≠ i → ∀ r' ∈ stored j, r.address ≠ r'.address := by
  intro j hj r' hr' haddress
  exact hj (h.apart i j r hr r' hr' haddress).symm

end TableMemory.Represents

/-! ## Strings that stay -/

section Staying

variable {strings : Heap CString} {owner : ℕ × StringField → Ptr} {r : StoredNode}

lemma StoredNode.ShownIn.alloc (h : r.ShownIn strings) (c : Cell CString) :
    r.ShownIn (strings.alloc c) where
  key := h.key.alloc c
  value := h.value.alloc c
  head := h.head

/-- A node keeps its strings when another one loses one. -/
lemma StoredNode.ShownIn.release (h : r.ShownIn strings) (hown : strings.OwnedBy owner)
    (hplace : ∀ field, owner (r.address, field) = r.fields.string field) {a s : ℕ}
    {field : StringField} (hs : owner (a, field) = some s) (hne : r.address ≠ a) :
    r.ShownIn (strings.release s) where
  key := h.key.release hown (hplace .Key) hs (by simp [hne])
  value := h.value.release hown (hplace .Value) hs (by simp [hne])
  head := h.head

end Staying

/-- **Freeing a node** with its two strings, whatever links there are to it. -/
lemma TableMemory.freeNode_of_owned {mm : TableMemory} {r : StoredNode} {next : Ptr}
    (howned : mm.strings.OwnedBy (nodeStrings mm.nodes))
    (hcell : mm.nodes.cells r.address = some ⟨r.fields, next⟩) (hshown : r.ShownIn mm.strings) :
    ∃ mm', mm.freeNode r.address r.fields = .ok mm' ∧ mm'.table = mm.table ∧ mm'.subs = mm.subs ∧
      mm'.nodes = mm.nodes.release r.address ∧ mm'.strings.OwnedBy (nodeStrings mm'.nodes) ∧
      ∀ x : StoredNode, x.address ≠ r.address →
        (∀ field, nodeStrings mm.nodes (x.address, field) = x.fields.string field) →
        x.ShownIn mm.strings → x.ShownIn mm'.strings := by
  obtain ⟨k, hk, hkc⟩ := hshown.key
  obtain ⟨v, hv, hvc⟩ := hshown.value
  have hkey : nodeStrings mm.nodes (r.address, .Key) = some k := by
    simp only [nodeStrings, hcell, Option.bind_some, NodeFields.string, hk]
  have hvalue : nodeStrings mm.nodes (r.address, .Value) = some v := by
    simp only [nodeStrings, hcell, Option.bind_some, NodeFields.string, hv]
  have hfirst := howned.release hkey
  have hvalue' : Function.update (nodeStrings mm.nodes) (r.address, .Key) none (r.address, .Value)
      = some v := by
    rw [Function.update_of_ne (by simp), hvalue]
  have hvc' : (mm.strings.release k).cells v = some ⟨r.keyNode.value, none⟩ :=
    (howned.release_other hkey hvalue (by simp)).trans hvc
  have hsecond := hfirst.release hvalue'
  refine ⟨{ mm with nodes := mm.nodes.release r.address,
                    strings := (mm.strings.release k).release v }, ?_, rfl, rfl, rfl, ?_, ?_⟩
  · simp only [TableMemory.freeNode, hk, hv, free_some hkc, free_some hvc', free_some hcell, ok_bind,
      pure_eq_ok]
  · show ((mm.strings.release k).release v).OwnedBy (nodeStrings (mm.nodes.release r.address))
    rw [nodeStrings_release]
    exact hsecond
  · intro x hne hplace hx
    refine (hx.release howned hplace hkey hne).release hfirst ?_ hvalue' hne
    intro field
    rw [Function.update_of_ne (by simp [hne]), hplace field]

end Kvs
