import Kvs.Server.Table

/-!
# One list behind the chains

The table keeps its nodes in 26 chains, but nothing an operation does depends on that: it works on
the chain of its key, and only keys of that chain are there to be found.  `HashTable.Lists ht m`
says so.  `m` is one list of all the nodes, the most recently created first, and chain `i` is the
part of `m` whose keys belong there.

The four things an operation can do to a chain — look a key up, change its node, put a new node in
front, unlink one — are the same thing done to `m` (`Lists.findNode_eq`, `Lists.modify`,
`Lists.cons`, `Lists.erase`).  Everything later about the contents of the table is about `m`.
-/

namespace Kvs

/-! ## Keys and chains -/

/-- An ASCII letter or digit. -/
def isAlnum (c : Byte) : Bool :=
  (48 ≤ c.toNat ∧ c.toNat ≤ 57) ∨ (65 ≤ c.toNat ∧ c.toNat ≤ 90) ∨ (97 ≤ c.toNat ∧ c.toNat ≤ 122)

/-- The keys the table has a chain for. -/
def CString.StartsAlnum (key : CString) : Prop := isAlnum key.first = true

instance (key : CString) : Decidable key.StartsAlnum :=
  inferInstanceAs (Decidable (isAlnum key.first = true))

/-- The chain a key belongs to, if there is one. -/
def slot (key : CString) : Option (Fin tableSize) :=
  match tableIndex (hash key) with
  | .ok i => some i
  | .error _ => none

lemma slot_eq_some {key : CString} {i : Fin tableSize} :
    slot key = some i ↔ tableIndex (hash key) = .ok i := by
  unfold slot
  cases h : tableIndex (hash key) <;> simp

lemma tableIndex_of_lt {index : ℤ} (h0 : 0 ≤ index) (h : index < 26) :
    ∃ i, tableIndex index = .ok i :=
  ⟨⟨index.toNat, by simp only [tableSize]; omega⟩, dif_pos ⟨h0, by simp only [tableSize]; omega⟩⟩

lemma tableIndex_of_startsAlnum {key : CString} (h : key.StartsAlnum) :
    ∃ i, tableIndex (hash key) = .ok i := by
  have hc : isAlnum key.first = true := h
  simp only [isAlnum, decide_eq_true_eq] at hc
  refine tableIndex_of_lt ?_ ?_
  all_goals
    simp only [hash, tolower]
    split_ifs <;> omega

/-- The other keys have no chain: the index `-1` is outside the table. -/
lemma tableIndex_of_not_startsAlnum {key : CString} (h : ¬ key.StartsAlnum) :
    tableIndex (hash key) = .error .badIndex := by
  have hc : ¬ isAlnum key.first = true := h
  simp only [isAlnum, decide_eq_true_eq] at hc
  have hash_eq : hash key = -1 := by
    simp only [hash, tolower]
    split_ifs <;> omega
  rw [hash_eq]
  rfl

/-- Only such keys have a chain. -/
lemma startsAlnum_of_tableIndex {key : CString} {index : Fin tableSize}
    (h : tableIndex (hash key) = .ok index) : key.StartsAlnum := by
  by_contra hkey
  rw [tableIndex_of_not_startsAlnum hkey] at h
  cases h

/-! ## The representation invariant -/

/-- The nodes of `m` whose keys belong in chain `i`. -/
def nodesOf (m : List KeyNode) (i : Fin tableSize) : List KeyNode :=
  m.filter fun keyNode => slot keyNode.key = some i

/-- The chains are the parts of `m`; each key occurs once and has a chain. -/
structure HashTable.Lists (ht : HashTable) (m : List KeyNode) : Prop where
  chains : ∀ i, ht.table i = nodesOf m i
  distinct : (m.map KeyNode.key).Nodup
  placed : ∀ keyNode ∈ m, keyNode.key.StartsAlnum

/-- The same without a list behind the chains: each chain has its own keys, and each of them once. -/
def HashTable.Chained (ht : HashTable) : Prop :=
  ∀ i, ((ht.table i).map KeyNode.key).Nodup ∧ ∀ keyNode ∈ ht.table i, slot keyNode.key = some i

lemma HashTable.lists_createHashTable : HashTable.createHashTable.Lists [] where
  chains := fun _ => rfl
  distinct := List.nodup_nil
  placed := fun _ h => absurd h (by simp)

namespace HashTable.Lists

variable {ht : HashTable} {m m' : List KeyNode} {key : CString} {i : Fin tableSize}

/-- Only the chains matter: neither the subscriber lists nor the allocation counter do. -/
lemma of_table {ht' : HashTable} (h : ht.Lists m) (hsame : ht'.table = ht.table) :
    ht'.Lists m where
  chains := fun j => by rw [hsame, h.chains]
  distinct := h.distinct
  placed := h.placed

/-- Searching the key's chain is searching the whole list. -/
lemma findNode_eq (h : ht.Lists m) (hi : tableIndex (hash key) = .ok i) :
    findNode key (ht.table i) = KeyedList.find KeyNode.key key m := by
  rw [findNode, h.chains]
  exact KeyedList.find_filter KeyNode.key (fun k => decide (slot k = some i))
    (by simp [slot_eq_some.mpr hi])

/-- A chain replaced by what the new list wants there, the other chains by nothing new. -/
lemma setChain (h : ht.Lists m) {chain : List KeyNode} (hchain : chain = nodesOf m' i)
    (hother : ∀ j, j ≠ i → nodesOf m' j = nodesOf m j) (hdistinct : (m'.map KeyNode.key).Nodup)
    (hplaced : ∀ keyNode ∈ m', keyNode.key.StartsAlnum) : (ht.setChain i chain).Lists m' where
  chains := fun j => by
    by_cases hj : j = i
    · subst hj
      simpa [HashTable.setChain] using hchain
    · simpa [HashTable.setChain, Function.update_of_ne hj, hother j hj] using h.chains j
  distinct := hdistinct
  placed := hplaced

/-- A key is in no chain but its own. -/
lemma find_nodesOf_of_ne (hi : tableIndex (hash key) = .ok i) {j : Fin tableSize} (hj : j ≠ i) :
    KeyedList.find KeyNode.key key (nodesOf m j) = none := by
  rw [KeyedList.find_eq_none_iff]
  intro hmem
  obtain ⟨keyNode, hnode, rfl⟩ := List.mem_map.mp hmem
  have hslot : slot keyNode.key = some j := by simpa using (List.mem_filter.mp hnode).2
  exact hj (Option.some.inj (hslot.symm.trans (slot_eq_some.mpr hi)))

/-- Changing the node of a key, its key apart. -/
lemma modify (h : ht.Lists m) (hi : tableIndex (hash key) = .ok i) (f : KeyNode → KeyNode)
    (hf : ∀ keyNode, (f keyNode).key = keyNode.key) :
    (ht.setChain i (KeyedList.modify KeyNode.key key f (ht.table i))).Lists
      (KeyedList.modify KeyNode.key key f m) := by
  have hpart : ∀ j, nodesOf (KeyedList.modify KeyNode.key key f m) j
      = KeyedList.modify KeyNode.key key f (nodesOf m j) :=
    fun j => KeyedList.filter_modify KeyNode.key (fun k => decide (slot k = some j)) f hf
  refine h.setChain (by rw [hpart, h.chains]) (fun j hj => ?_) ?_ fun keyNode hnode => ?_
  · rw [hpart, KeyedList.modify_of_find_none (find_nodesOf_of_ne hi hj)]
  · rw [KeyedList.map_key_modify _ f hf]
    exact h.distinct
  · rcases KeyedList.mem_modify hnode with hnode | ⟨old, hold, _, rfl⟩
    · exact h.placed keyNode hnode
    · rw [hf]
      exact h.placed old hold

/-- A new node in front of its chain. -/
lemma cons (h : ht.Lists m) {keyNode : KeyNode} (hi : tableIndex (hash keyNode.key) = .ok i)
    (hkey : keyNode.key.StartsAlnum) (hnew : KeyedList.find KeyNode.key keyNode.key m = none) :
    (ht.setChain i (keyNode :: ht.table i)).Lists (keyNode :: m) := by
  have hslot : slot keyNode.key = some i := slot_eq_some.mpr hi
  refine h.setChain ?_ (fun j hj => ?_) ?_ fun node hnode => ?_
  · rw [nodesOf, List.filter_cons, if_pos (by simpa using hslot), h.chains, nodesOf]
  · have hno : ¬ slot keyNode.key = some j :=
      fun hj' => hj (Option.some.inj (hj'.symm.trans hslot))
    rw [nodesOf, List.filter_cons, if_neg (by simpa using hno), nodesOf]
  · exact List.nodup_cons.mpr ⟨KeyedList.find_eq_none_iff.mp hnew, h.distinct⟩
  · rcases List.mem_cons.mp hnode with rfl | hnode
    · exact hkey
    · exact h.placed node hnode

/-- Unlinking the node of a key. -/
lemma erase (h : ht.Lists m) (hi : tableIndex (hash key) = .ok i) :
    (ht.setChain i (unlinkNode key (ht.table i))).Lists (KeyedList.erase KeyNode.key key m) := by
  have hpart : ∀ j, nodesOf (KeyedList.erase KeyNode.key key m) j
      = KeyedList.erase KeyNode.key key (nodesOf m j) :=
    fun j => KeyedList.filter_erase KeyNode.key (fun k => decide (slot k = some j)) h.distinct
  refine h.setChain (by rw [hpart, unlinkNode, h.chains]) (fun j hj => ?_)
    (KeyedList.nodup_erase h.distinct) fun keyNode hnode =>
      h.placed keyNode (KeyedList.mem_of_mem_erase hnode)
  rw [hpart, KeyedList.erase_of_find_none (find_nodesOf_of_ne hi hj)]

/-- Seen chain by chain. -/
lemma chained (h : ht.Lists m) : ht.Chained := by
  intro i
  rw [h.chains]
  constructor
  · exact h.distinct.sublist (List.filter_sublist.map KeyNode.key)
  · intro keyNode hnode
    simpa using (List.mem_filter.mp hnode).2

end HashTable.Lists

end Kvs
