import Kvs.Server.Batches
import Kvs.Server.FreshKeys

/-!
# What a `DELETE` reports

`kvs_delete` asks for each key of its batch while it takes the keys away, so a key that occurs twice
is there the first time and missing the second.  The outcome does not need the loop to be told:

* the table is left without the keys of the batch, every other node where it was (`without`);
* the keys reported are those at the positions of `missed`, where a key was not in the table to begin
  with or has occurred before.

`kvsDelete_batch` says so, for any table whose chains are in order and have no subscribers.
-/

namespace Kvs

namespace HashTable

/-! ## Tables and batches -/

/-- The keys that are in the table. -/
def presentKeys (ht : HashTable) : List CString :=
  (List.finRange tableSize).flatMap fun i => (ht.table i).map KeyNode.key

/-- The table without the nodes of some keys. -/
def without (ht : HashTable) (keys : List CString) : HashTable :=
  { ht with table := fun i => (ht.table i).filter fun keyNode => keyNode.key ∉ keys }

/-- The keys at those positions of a batch where the key was not in the table at the start, or has
occurred earlier in the batch. -/
def missed (ht : HashTable) (keys : List Str) : List Str :=
  ((List.finRange keys.length).filter fun i =>
    (keys.get i).val ∉ ht.presentKeys ∨ keys.get i ∈ keys.take i).map keys.get

variable {ht : HashTable} {key : CString} {keys : List CString} {i : Fin tableSize}

lemma mem_presentKeys : key ∈ ht.presentKeys ↔ ∃ i, key ∈ (ht.table i).map KeyNode.key := by
  simp only [presentKeys, List.mem_flatMap, List.mem_finRange, true_and]

lemma mem_presentKeys_without :
    key ∈ (ht.without keys).presentKeys ↔ key ∈ ht.presentKeys ∧ key ∉ keys := by
  simp only [mem_presentKeys, without, List.mem_map, List.mem_filter, decide_eq_true_eq]
  constructor
  · rintro ⟨i, keyNode, ⟨hnode, hkeys⟩, rfl⟩
    exact ⟨⟨i, keyNode, hnode, rfl⟩, hkeys⟩
  · rintro ⟨⟨i, keyNode, hnode, rfl⟩, hkeys⟩
    exact ⟨i, keyNode, ⟨hnode, hkeys⟩, rfl⟩

lemma Chained.without (h : ht.Chained) (keys : List CString) : (ht.without keys).Chained := by
  intro i
  constructor
  · exact (h i).1.sublist (List.filter_sublist.map KeyNode.key)
  · intro keyNode hnode
    exact (h i).2 keyNode (List.mem_filter.mp hnode).1

lemma HeadsNull.without (h : ht.HeadsNull) (keys : List CString) : (ht.without keys).HeadsNull := by
  intro i keyNode hnode
  exact h i keyNode (List.mem_filter.mp hnode).1

lemma without_nil (ht : HashTable) : ht.without [] = ht := by
  simp [without]

lemma without_cons (ht : HashTable) (key : CString) (keys : List CString) :
    (ht.without [key]).without keys = ht.without (key :: keys) := by
  simp only [without, List.filter_filter, mk.injEq, and_true]
  funext i
  refine List.filter_congr fun keyNode _ => ?_
  simp [Bool.and_comm]

/-- A key is looked for in the one chain it can be in. -/
lemma Chained.find_isSome_iff (h : ht.Chained) (hi : tableIndex (hash key) = .ok i) :
    (findNode key (ht.table i)).isSome ↔ key ∈ ht.presentKeys := by
  rw [findNode, KeyedList.find_isSome_iff, mem_presentKeys]
  constructor
  · intro hmem
    exact ⟨i, hmem⟩
  · rintro ⟨j, hmem⟩
    obtain ⟨keyNode, hnode, rfl⟩ := List.mem_map.mp hmem
    obtain rfl : i = j :=
      Option.some.inj ((slot_eq_some.mpr hi).symm.trans ((h j).2 keyNode hnode))
    exact hmem

/-- Unlinking a node takes its key out of the table, and nothing else. -/
lemma Chained.setChain_unlink (h : ht.Chained) (hi : tableIndex (hash key) = .ok i) :
    ht.setChain i (unlinkNode key (ht.table i)) = ht.without [key] := by
  simp only [HashTable.setChain, HashTable.without, mk.injEq, and_true]
  funext j
  by_cases hj : j = i
  · subst hj
    rw [Function.update_self, unlinkNode, KeyedList.erase_eq_filter (h j).1]
    simp
  · rw [Function.update_of_ne hj]
    refine (List.filter_eq_self.mpr fun keyNode hnode => ?_).symm
    have hne : keyNode.key ≠ key := by
      rintro rfl
      exact hj (Option.some.inj (((h j).2 keyNode hnode).symm.trans (slot_eq_some.mpr hi)))
    simpa using hne

lemma without_of_not_mem (h : key ∉ ht.presentKeys) : ht.without [key] = ht := by
  have htable : (ht.without [key]).table = ht.table := by
    funext j
    refine List.filter_eq_self.mpr fun keyNode hnode => ?_
    have hne : keyNode.key ≠ key := by
      rintro rfl
      exact h (mem_presentKeys.mpr ⟨j, List.mem_map_of_mem hnode⟩)
    simpa using hne
  exact congrArg (fun table => { ht with table := table }) htable

/-! ## One key -/

/-- **`delete_pair`** on a table in order without subscribers. -/
lemma Chained.deletePair (h : ht.Chained) (hheads : ht.HeadsNull) (key : Str)
    (hkey : key.val.StartsAlnum) : ht.deletePair key.val
      = .ok (if key.val ∈ ht.presentKeys then 0 else 1, ht.without [key.val], []) := by
  obtain ⟨i, hi⟩ := tableIndex_of_startsAlnum hkey
  have hpresent := h.find_isSome_iff hi
  cases hnode : findNode key.val (ht.table i) with
  | some keyNode =>
      rw [hnode] at hpresent
      have hhead : keyNode.head = none := hheads i keyNode (KeyedList.mem_of_find hnode)
      rw [deletePair_of_find hi hnode (deletedText_fits key), hhead, Heap.freeList_none,
        if_pos (hpresent.mp rfl), ← h.setChain_unlink hi]
      rfl
  | none =>
      rw [hnode] at hpresent
      have habsent : key.val ∉ ht.presentKeys := by
        intro hmem
        cases hpresent.mpr hmem
      rw [deletePair_of_not_find hi hnode, if_neg habsent, without_of_not_mem habsent]

/-! ## The positions reported -/

/-- What the rest of a batch reports is decided by the table without its first key. -/
lemma missed_cons (ht : HashTable) (key : Str) (keys : List Str) :
    ht.missed (key :: keys) = (if key.val ∈ ht.presentKeys then [] else [key])
      ++ (ht.without [key.val]).missed keys := by
  have hrest : ∀ i : Fin keys.length,
      ((keys.get i).val ∉ (ht.without [key.val]).presentKeys ∨ keys.get i ∈ keys.take i) ↔
        ((keys.get i).val ∉ ht.presentKeys ∨ keys.get i ∈ (key :: keys).take i.succ) := by
    intro i
    rw [mem_presentKeys_without, List.mem_singleton, Subtype.ext_iff.symm]
    simp only [Fin.val_succ, List.take_succ_cons, List.mem_cons]
    tauto
  have hfilter : ((List.finRange keys.length).map Fin.succ).filter (fun i =>
        ((key :: keys).get i).val ∉ ht.presentKeys ∨ (key :: keys).get i ∈ (key :: keys).take i)
      = ((List.finRange keys.length).filter fun i =>
        (keys.get i).val ∉ (ht.without [key.val]).presentKeys ∨ keys.get i ∈ keys.take i).map
          Fin.succ := by
    rw [List.filter_map]
    refine congrArg (List.map Fin.succ) (List.filter_congr fun i _ => ?_)
    simp only [Function.comp_apply, decide_eq_decide]
    exact (hrest i).symm
  have hmap : ((ht.without [key.val]).missed keys)
      = (((List.finRange keys.length).filter fun i =>
        (keys.get i).val ∉ (ht.without [key.val]).presentKeys ∨ keys.get i ∈ keys.take i).map
          Fin.succ).map (key :: keys).get := by
    rw [List.map_map]
    rfl
  show ((List.finRange (keys.length + 1)).filter _).map _ = _
  rw [List.finRange_succ, List.filter_cons, hfilter, hmap]
  by_cases hpresent : key.val ∈ ht.presentKeys
  · simp [hpresent]
  · simp [hpresent]

/-- Nothing is reported if and only if every key was there and none is repeated. -/
lemma missed_eq_nil_iff (ht : HashTable) (keys : List Str) :
    ht.missed keys = [] ↔ (∀ key ∈ keys, key.val ∈ ht.presentKeys) ∧ keys.Nodup := by
  induction keys generalizing ht with
  | nil => simp [missed]
  | cons key keys ih =>
      rw [missed_cons, List.append_eq_nil_iff, ih, List.nodup_cons, List.forall_mem_cons]
      constructor
      · rintro ⟨hkey, hrest, hnodup⟩
        have hpresent : key.val ∈ ht.presentKeys := by
          by_contra habsent
          rw [if_neg habsent] at hkey
          cases hkey
        refine ⟨⟨hpresent, ?_⟩, ?_, hnodup⟩
        · intro other hother
          exact (mem_presentKeys_without.mp (hrest other hother)).1
        · intro hmem
          exact (mem_presentKeys_without.mp (hrest key hmem)).2 (by simp)
      · rintro ⟨⟨hpresent, hrest⟩, hnew, hnodup⟩
        refine ⟨if_pos hpresent, ?_, hnodup⟩
        intro other hother
        refine mem_presentKeys_without.mpr ⟨hrest other hother, ?_⟩
        rw [List.mem_singleton]
        intro heq
        exact hnew (Subtype.ext heq ▸ hother)

/-- The loop of `kvs_delete`, by induction over the batch: the table loses a key at a time, and the
bracket is out once there is something behind it. -/
lemma Chained.deleteRecords (h : ht.Chained) (hheads : ht.HeadsNull) (aux : Bool) {keys : List Str}
    (hkeys : ∀ key ∈ keys, key.val.StartsAlnum) :
    ht.deleteRecords aux keys
      = .ok (ht.without (keys.map Subtype.val), aux || (ht.missed keys != []),
          (if aux || ht.missed keys == [] then [] else text "[")
            ++ (ht.missed keys).flatMap (fun key : Str => record (missingText key.val)), []) := by
  induction keys generalizing ht aux with
  | nil => simp [HashTable.deleteRecords, missed, without_nil]
  | cons key keys ih =>
      have hrest := fun aux' => ih (h.without [key.val]) (hheads.without [key.val]) aux'
        fun k hk => hkeys k (List.mem_cons_of_mem _ hk)
      simp only [HashTable.deleteRecords, h.deletePair hheads key (hkeys key (by simp)), ok_bind,
        deleteRecord, missed_cons, without_cons, List.map_cons] at hrest ⊢
      by_cases hpresent : key.val ∈ ht.presentKeys
      · simp [hpresent, hrest]
      · cases aux
        · simp [hpresent, hrest]
        · simp [hpresent, hrest]

/-! ## The batch -/

/-- **A `DELETE` with missing and repeated keys.**  It leaves the nodes whose key is not in the batch,
in their chains and in their order, and writes nothing if every key was there and none is repeated;
otherwise a record, cut at 39 bytes, for each position where a key was missing to begin with or had
occurred before, between brackets. -/
theorem kvsDelete_batch (hchained : ht.Chained) (hheads : ht.HeadsNull) {keys : List Str}
    (hkeys : ∀ key ∈ keys, key.val.StartsAlnum) :
    ht.kvsDelete keys = .ok (ht.without (keys.map Subtype.val),
      if (∀ key ∈ keys, key.val ∈ ht.presentKeys) ∧ keys.Nodup then []
      else text "[" ++ (ht.missed keys).flatMap (fun key : Str => (missingText key.val).take 39)
        ++ text "]\n", []) := by
  have hrecord : (fun key : Str => record (missingText key.val))
      = fun key : Str => (missingText key.val).take 39 := rfl
  simp only [kvsDelete, hchained.deleteRecords hheads false hkeys, ok_bind, pure_eq_ok, hrecord,
    ← missed_eq_nil_iff, closeRecords]
  by_cases hnone : ht.missed keys = []
  · simp [hnone]
  · simp [hnone]

/-- Two keys of one chain. -/
def twoKeys : HashTable where
  table := fun i => if i.val = 0 then [⟨.lit "a", .lit "x", none⟩, ⟨.lit "0", .lit "y", none⟩] else []
  subs := Heap.empty
  nodes := 2

/-- One of them is deleted twice, with a key in between that is not there. -/
theorem kvsDelete_batch_repeated :
    (twoKeys.kvsDelete [Str.lit "0", Str.lit "b", Str.lit "0"]).map (fun result => result.2.1)
      = .ok (text "[(b,KVSMISSING)(0,KVSMISSING)]\n") := by
  have hchained : twoKeys.Chained := by
    unfold Chained
    decide +kernel
  have hheads : twoKeys.HeadsNull := by
    unfold HeadsNull
    decide +kernel
  rw [kvsDelete_batch hchained hheads (by decide +kernel)]
  exact congrArg Except.ok (by decide +kernel)

end HashTable

end Kvs
