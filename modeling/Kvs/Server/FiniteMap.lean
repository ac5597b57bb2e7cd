import Kvs.Server.Representation

/-!
# The hash table refines a finite map

A reader of the store wants to know nothing about nodes: a key has a value or it has none.  The
abstract map is kept here as `Contents`, the pairs in order of creation with the newest first,
because that is also the order in which `SHOW` meets them.

`HashTable.Holds ht m` says that the table represents `m`: the nodes behind its chains
(`Representation.lean`) carry the pairs of `m`, and none of them has a subscriber.  Each of the
three operations keeps it (`Holds.writePair`, `Holds.deletePair`) and answers as the map does
(`Holds.readPair`), and `hashTable_refines_map` follows by induction over the calls.

The messages of `write_pair` and `delete_pair` are formatted into buffers of fixed size, so the
refinement needs them to fit.  `MessagesFit` says so of a whole run, only where a message is
formatted at all.
-/

namespace Kvs

/-! ## The abstract map -/

/-- The pairs of a store, the most recently created first. -/
abbrev Contents := List (CString × CString)

namespace Contents

def read (m : Contents) (key : CString) : Option CString :=
  (KeyedList.find Prod.fst key m).map Prod.snd

/-- A pair with its value replaced. -/
def withValue (value : CString) (p : CString × CString) : CString × CString := (p.1, value)

/-- An existing key keeps its place, a new one goes in front. -/
def write (m : Contents) (key value : CString) : Contents :=
  if (m.read key).isSome then KeyedList.modify Prod.fst key (withValue value) m
  else (key, value) :: m

def delete (m : Contents) (key : CString) : Contents := KeyedList.erase Prod.fst key m

/-- Each key once. -/
def Distinct (m : Contents) : Prop := (m.map Prod.fst).Nodup

variable {m : Contents} {key key' value : CString}

lemma read_isSome_iff : (m.read key).isSome ↔ key ∈ m.map Prod.fst := by
  rw [read, Option.isSome_map, KeyedList.find_isSome_iff]

lemma read_write_self : (m.write key value).read key = some value := by
  unfold write
  split_ifs with h
  · rw [read, Option.isSome_map] at h
    obtain ⟨p, hp⟩ := Option.isSome_iff_exists.mp h
    rw [read, KeyedList.find_modify_self _ (withValue value) fun _ => rfl, hp]
    rfl
  · simp [read, KeyedList.find_cons]

lemma read_write_of_ne (hne : key' ≠ key) : (m.write key value).read key' = m.read key' := by
  unfold write
  split_ifs with h
  · rw [read, KeyedList.find_modify_of_ne _ (withValue value) (fun _ => rfl) hne, read]
  · simp [read, KeyedList.find_cons, hne.symm]

lemma read_delete_self (hm : m.Distinct) : (m.delete key).read key = none := by
  rw [read, delete, KeyedList.find_erase_self hm]
  rfl

lemma read_delete_of_ne (hne : key' ≠ key) : (m.delete key).read key' = m.read key' := by
  rw [read, delete, KeyedList.find_erase_of_ne hne, read]

lemma Distinct.write (hm : m.Distinct) : (m.write key value).Distinct := by
  unfold Contents.write
  split_ifs with h
  · rw [Distinct, KeyedList.map_key_modify _ (withValue value) fun _ => rfl]
    exact hm
  · rw [read_isSome_iff] at h
    exact List.nodup_cons.mpr ⟨h, hm⟩

lemma Distinct.mem_iff_read (hm : m.Distinct) : (key, value) ∈ m ↔ m.read key = some value := by
  rw [read, Option.map_eq_some_iff]
  constructor
  · intro hmem
    exact ⟨(key, value), (KeyedList.find_eq_some_iff hm).mpr ⟨hmem, rfl⟩, rfl⟩
  · rintro ⟨⟨key', value'⟩, hfind, rfl⟩
    obtain ⟨hmem, rfl⟩ := (KeyedList.find_eq_some_iff hm).mp hfind
    exact hmem

lemma Distinct.delete (hm : m.Distinct) : (m.delete key).Distinct := KeyedList.nodup_erase hm

end Contents

/-! ## The refinement -/

def KeyNode.pair (keyNode : KeyNode) : CString × CString := (keyNode.key, keyNode.value)

/-- The table holds the pairs of `m`, and nobody has subscribed. -/
structure HashTable.HoldsNodes (ht : HashTable) (nodes : List KeyNode) (m : Contents) : Prop where
  lists : ht.Lists nodes
  pairs : nodes.map KeyNode.pair = m
  unsubscribed : ∀ keyNode ∈ nodes, keyNode.head = none

/-- The table represents `m`, by whatever nodes. -/
def HashTable.Holds (ht : HashTable) (m : Contents) : Prop := ∃ nodes, ht.HoldsNodes nodes m

lemma HashTable.holds_createHashTable : HashTable.createHashTable.Holds [] :=
  ⟨[], HashTable.lists_createHashTable, rfl, fun _ h => absurd h (by simp)⟩

namespace HashTable.HoldsNodes

variable {ht : HashTable} {nodes : List KeyNode} {m : Contents} {key value : CString}
  {i : Fin tableSize}

/-- The value of a key in the map is the one in its node. -/
lemma read_eq (h : ht.HoldsNodes nodes m) (hi : tableIndex (hash key) = .ok i) :
    m.read key = (findNode key (ht.table i)).map KeyNode.value := by
  rw [h.lists.findNode_eq hi, ← h.pairs, Contents.read,
    KeyedList.find_map KeyNode.key Prod.fst KeyNode.pair fun _ => rfl, Option.map_map]
  rfl

lemma distinct (h : ht.HoldsNodes nodes m) : m.Distinct := by
  have hmap : (nodes.map KeyNode.pair).map Prod.fst = nodes.map KeyNode.key := by
    rw [List.map_map]
    rfl
  rw [← h.pairs, Contents.Distinct, hmap]
  exact h.lists.distinct

/-- The node of a key that is in the map: it is one of the table's, and has no subscribers. -/
lemma of_find (h : ht.HoldsNodes nodes m) (hi : tableIndex (hash key) = .ok i) {keyNode : KeyNode}
    (hnode : findNode key (ht.table i) = some keyNode) :
    (m.read key).isSome ∧ keyNode.head = none := by
  have hfind := h.lists.findNode_eq hi
  rw [hnode] at hfind
  refine ⟨?_, h.unsubscribed keyNode (KeyedList.mem_of_find hfind.symm)⟩
  rw [h.read_eq hi, hnode]
  rfl

/-- A key that has no node is not in the map. -/
lemma of_not_find (h : ht.HoldsNodes nodes m) (hi : tableIndex (hash key) = .ok i)
    (hnode : findNode key (ht.table i) = none) :
    ¬ (m.read key).isSome ∧ KeyedList.find KeyNode.key key nodes = none := by
  have hfind := h.lists.findNode_eq hi
  rw [hnode] at hfind
  refine ⟨?_, hfind.symm⟩
  rw [h.read_eq hi, hnode]
  simp

end HashTable.HoldsNodes

namespace HashTable.Holds

variable {ht : HashTable} {m : Contents} {key value : CString}

lemma distinct (h : ht.Holds m) : m.Distinct := by
  obtain ⟨nodes, h⟩ := h
  exact h.distinct

/-- **`write_pair`** on a key that has a chain, its message fitting if there is one. -/
theorem writePair {mem : ℕ → Ptr} (hmem : ZeroFilled mem) (h : ht.Holds m)
    (hkey : key.StartsAlnum)
    (hfit : (m.read key).isSome → (pairText key value).length < writeBufferSize) :
    ∃ ht', HashTable.writePair mem ht key value = .ok (ht', []) ∧ ht'.Holds (m.write key value) := by
  obtain ⟨nodes, h⟩ := h
  obtain ⟨i, hi⟩ := tableIndex_of_startsAlnum hkey
  cases hnode : findNode key (ht.table i) with
  | some keyNode =>
      obtain ⟨hsome, hhead⟩ := h.of_find hi hnode
      refine ⟨ht.setChain i (overwriteValue key value (ht.table i)), ?_,
        ⟨_, h.lists.modify hi (.withValue value) fun _ => rfl, ?_, fun node hmem' => ?_⟩⟩
      · rw [HashTable.writePair_of_find hi hnode (hfit hsome), hhead, HashTable.notify_none]
        rfl
      · rw [KeyedList.map_modify KeyNode.key Prod.fst KeyNode.pair (.withValue value)
          (Contents.withValue value) (fun _ => rfl) (fun _ => rfl), h.pairs, Contents.write, if_pos hsome]
      · rcases KeyedList.mem_modify hmem' with hmem' | ⟨old, hold, _, rfl⟩
        · exact h.unsubscribed node hmem'
        · exact h.unsubscribed old hold
  | none =>
      obtain ⟨hnone, hfind⟩ := h.of_not_find hi hnode
      set fresh : KeyNode := ⟨key, value, mem ht.nodes⟩
      have hcons : (ht.setChain i (fresh :: ht.table i)).Lists (fresh :: nodes) :=
        h.lists.cons hi hkey hfind
      refine ⟨{ ht.setChain i (fresh :: ht.table i) with nodes := ht.nodes + 1 },
        HashTable.writePair_of_not_find hi hnode,
        ⟨fresh :: nodes, hcons.of_table rfl, ?_, fun node hmem' => ?_⟩⟩
      · rw [Contents.write, if_neg hnone, List.map_cons, h.pairs]
        rfl
      · rcases List.mem_cons.mp hmem' with rfl | hmem'
        · exact hmem _
        · exact h.unsubscribed node hmem'

/-- **`read_pair`** answers as the map does. -/
theorem readPair (h : ht.Holds m) (hkey : key.StartsAlnum) :
    ht.readPair key = .ok (m.read key) := by
  obtain ⟨nodes, h⟩ := h
  obtain ⟨i, hi⟩ := tableIndex_of_startsAlnum hkey
  simp only [HashTable.readPair, hi, ok_bind, pure_eq_ok, h.read_eq hi]

/-- **`delete_pair`** on a key that has a chain, its message fitting if there is one. -/
theorem deletePair (h : ht.Holds m) (hkey : key.StartsAlnum)
    (hfit : (m.read key).isSome → (deletedText key).length < deleteBufferSize) :
    ∃ ht', ht.deletePair key = .ok (if (m.read key).isSome then 0 else 1, ht', [])
      ∧ ht'.Holds (m.delete key) := by
  obtain ⟨nodes, h⟩ := h
  obtain ⟨i, hi⟩ := tableIndex_of_startsAlnum hkey
  have hpairs : (KeyedList.erase KeyNode.key key nodes).map KeyNode.pair = m.delete key := by
    rw [KeyedList.map_erase KeyNode.key Prod.fst KeyNode.pair fun _ => rfl, h.pairs]
    rfl
  cases hnode : findNode key (ht.table i) with
  | some keyNode =>
      obtain ⟨hsome, hhead⟩ := h.of_find hi hnode
      refine ⟨ht.setChain i (unlinkNode key (ht.table i)), ?_, ⟨_, h.lists.erase hi, hpairs,
        fun node hmem => h.unsubscribed node (KeyedList.mem_of_mem_erase hmem)⟩⟩
      rw [HashTable.deletePair_of_find hi hnode (hfit hsome), hhead, Heap.freeList_none,
        if_pos hsome]
      rfl
  | none =>
      obtain ⟨hnone, hfind⟩ := h.of_not_find hi hnode
      have hgone : KeyedList.erase KeyNode.key key nodes = nodes := KeyedList.erase_of_find_none hfind
      refine ⟨ht, ?_, ⟨nodes, h.lists, by rw [← hpairs, hgone], h.unsubscribed⟩⟩
      rw [HashTable.deletePair_of_not_find hi hnode, if_neg hnone]

end HashTable.Holds

/-! ## Runs of table operations -/

/-- One call of the table. -/
inductive TableOp where
  | Write (key value : CString)
  | Read (key : CString)
  | Delete (key : CString)
  deriving DecidableEq

/-- What a call returns. -/
inductive TableResult where
  | Written
  | Value (value : Option CString)
  | Deleted (status : ℤ)
  deriving DecidableEq

namespace TableOp

def key : TableOp → CString
  | Write key _ => key
  | Read key => key
  | Delete key => key

/-- The call on the table. -/
def run (mem : ℕ → Ptr) (ht : HashTable) : TableOp → Except Fault (TableResult × HashTable)
  | Write key value => do
      let (ht, _) ← ht.writePair mem key value
      pure (.Written, ht)
  | Read key => do
      let value ← ht.readPair key
      pure (.Value value, ht)
  | Delete key => do
      let (status, ht, _) ← ht.deletePair key
      pure (.Deleted status, ht)

/-- The call on a map from keys to values. -/
def apply (valueOf : CString → Option CString) : TableOp → CString → Option CString
  | Write key value => Function.update valueOf key (some value)
  | Read _ => valueOf
  | Delete key => Function.update valueOf key none

/-- What the call returns on a map. -/
def result (valueOf : CString → Option CString) : TableOp → TableResult
  | Write _ _ => .Written
  | Read key => .Value (valueOf key)
  | Delete key => .Deleted (if (valueOf key).isSome then 0 else 1)

/-- The message formatted by an overwrite or by the deletion of a key that is there fits the
buffer on the stack. -/
def MessageFits (valueOf : CString → Option CString) : TableOp → Prop
  | Write key value => (valueOf key).isSome → (pairText key value).length < writeBufferSize
  | Read _ => True
  | Delete key => (valueOf key).isSome → (deletedText key).length < deleteBufferSize

end TableOp

/-- A sequence of calls on the table, with what each returned. -/
def runTableOps (mem : ℕ → Ptr) (ht : HashTable) :
    List TableOp → Except Fault (List TableResult × HashTable)
  | [] => pure ([], ht)
  | op :: ops => do
      let (result, ht) ← op.run mem ht
      let (results, ht) ← runTableOps mem ht ops
      pure (result :: results, ht)

/-- The value of each key after a sequence of calls: that of its last write, unless it has been
deleted since. -/
def valuesAfter (valueOf : CString → Option CString) (ops : List TableOp) :
    CString → Option CString :=
  ops.foldl TableOp.apply valueOf

/-- What a sequence of calls returns on a map. -/
def resultsOn (valueOf : CString → Option CString) : List TableOp → List TableResult
  | [] => []
  | op :: ops => op.result valueOf :: resultsOn (op.apply valueOf) ops

/-- Every message formatted in a sequence of calls fits its buffer. -/
def MessagesFit (valueOf : CString → Option CString) : List TableOp → Prop
  | [] => True
  | op :: ops => op.MessageFits valueOf ∧ MessagesFit (op.apply valueOf) ops

lemma Contents.read_write (m : Contents) (key value : CString) :
    (m.write key value).read = Function.update m.read key (some value) := by
  funext k
  by_cases hk : k = key
  · rw [hk, Contents.read_write_self, Function.update_self]
  · rw [Contents.read_write_of_ne hk, Function.update_of_ne hk]

lemma Contents.Distinct.read_delete {m : Contents} (hm : m.Distinct) (key : CString) :
    (m.delete key).read = Function.update m.read key none := by
  funext k
  by_cases hk : k = key
  · rw [hk, Contents.read_delete_self hm, Function.update_self]
  · rw [Contents.read_delete_of_ne hk, Function.update_of_ne hk]

/-- **One call refines the map.** -/
lemma TableOp.run_refines {mem : ℕ → Ptr} (hmem : ZeroFilled mem) {ht : HashTable} {m : Contents}
    (h : ht.Holds m) (op : TableOp) (hkey : op.key.StartsAlnum) (hfit : op.MessageFits m.read) :
    ∃ ht' m', op.run mem ht = .ok (op.result m.read, ht') ∧ ht'.Holds m'
      ∧ m'.read = op.apply m.read := by
  cases op with
  | Write key value =>
      have hk : key.StartsAlnum := hkey
      obtain ⟨ht', hrun, hholds⟩ := h.writePair hmem hk hfit
      refine ⟨ht', _, ?_, hholds, m.read_write key value⟩
      simp only [TableOp.run, hrun, ok_bind, pure_eq_ok, TableOp.result]
  | Read key =>
      have hk : key.StartsAlnum := hkey
      refine ⟨ht, m, ?_, h, rfl⟩
      simp only [TableOp.run, h.readPair hk, ok_bind, pure_eq_ok, TableOp.result]
  | Delete key =>
      have hk : key.StartsAlnum := hkey
      obtain ⟨ht', hrun, hholds⟩ := h.deletePair hk hfit
      refine ⟨ht', _, ?_, hholds, h.distinct.read_delete key⟩
      simp only [TableOp.run, hrun, ok_bind, pure_eq_ok, TableOp.result]

/-- **A run refines the map**, by induction over the calls. -/
lemma runTableOps_refines {mem : ℕ → Ptr} (hmem : ZeroFilled mem) {ht : HashTable} {m : Contents}
    (h : ht.Holds m) {ops : List TableOp} (hkeys : ∀ op ∈ ops, op.key.StartsAlnum)
    (hfits : MessagesFit m.read ops) :
    ∃ ht' m', runTableOps mem ht ops = .ok (resultsOn m.read ops, ht') ∧ ht'.Holds m'
      ∧ m'.read = valuesAfter m.read ops := by
  induction ops generalizing ht m with
  | nil => exact ⟨ht, m, rfl, h, rfl⟩
  | cons op ops ih =>
      obtain ⟨hfit, hfits⟩ := hfits
      obtain ⟨ht₁, m₁, hrun, h₁, hread⟩ := op.run_refines hmem h (hkeys op (by simp)) hfit
      obtain ⟨ht₂, m₂, hruns, h₂, hreads⟩ :=
        ih h₁ (fun o ho => hkeys o (List.mem_cons_of_mem _ ho)) (by rwa [hread])
      refine ⟨ht₂, m₂, ?_, h₂, by rw [hreads, hread]; rfl⟩
      simp only [runTableOps, hrun, ok_bind, hruns, pure_eq_ok, resultsOn, hread]

/-- The result of a run is a table of the invariant, so one more call on one key leaves every
other key as it reads. -/
lemma TableOp.run_frame {mem : ℕ → Ptr} (hmem : ZeroFilled mem) {ht : HashTable} {m : Contents}
    (h : ht.Holds m) (op : TableOp) (hkey : op.key.StartsAlnum) (hfit : op.MessageFits m.read) :
    ∃ res ht', op.run mem ht = .ok (res, ht') ∧
      ∀ k, k.StartsAlnum → k ≠ op.key → ht'.readPair k = ht.readPair k := by
  obtain ⟨ht', m', hrun, h', hread⟩ := op.run_refines hmem h hkey hfit
  refine ⟨_, ht', hrun, fun k hk hne => ?_⟩
  rw [h'.readPair hk, h.readPair hk, hread]
  cases op with
  | Write key value => exact congrArg _ (Function.update_of_ne hne _ _)
  | Read key => rfl
  | Delete key => exact congrArg _ (Function.update_of_ne hne _ _)

/-- **The hash table refines a finite map.**  From a new table, any sequence of calls whose keys
start with an ASCII letter or digit and whose messages fit their buffers returns what the map
returns, call by call; afterwards every key reads as the map says, and one more call changes what
no other key reads. -/
theorem hashTable_refines_map (mem : ℕ → Ptr) (hmem : ZeroFilled mem) (ops : List TableOp)
    (hkeys : ∀ op ∈ ops, op.key.StartsAlnum) (hfit : MessagesFit (fun _ => none) ops) :
    ∃ ht, runTableOps mem .createHashTable ops = .ok (resultsOn (fun _ => none) ops, ht)
      ∧ (∀ k, k.StartsAlnum → ht.readPair k = .ok (valuesAfter (fun _ => none) ops k))
      ∧ ∀ op : TableOp, op.key.StartsAlnum → op.MessageFits (valuesAfter (fun _ => none) ops) →
          ∃ res ht', op.run mem ht = .ok (res, ht') ∧
            ∀ k, k.StartsAlnum → k ≠ op.key → ht'.readPair k = ht.readPair k := by
  obtain ⟨ht, m, hrun, h, hread⟩ :=
    runTableOps_refines hmem HashTable.holds_createHashTable hkeys hfit
  have hread : m.read = valuesAfter (fun _ => none) ops := hread
  refine ⟨ht, hrun, fun k hk => by rw [h.readPair hk, hread], fun op hop hopfit => ?_⟩
  exact op.run_frame hmem h hop (by rwa [hread])

/-- The run of a small store: two keys of one chain, an overwrite and a deletion. -/
theorem hashTable_refines_map_small :
    ∃ ht, runTableOps (fun _ => none) .createHashTable
        [.Write (.lit "a") (.lit "x"), .Write (.lit "0") (.lit "y"), .Write (.lit "a") (.lit "z"),
          .Delete (.lit "0"), .Read (.lit "a")]
      = .ok ([.Written, .Written, .Written, .Deleted 0, .Value (some (.lit "z"))], ht) := by
  obtain ⟨ht, hrun, _⟩ := hashTable_refines_map (fun _ => none) (fun _ => rfl)
    [.Write (.lit "a") (.lit "x"), .Write (.lit "0") (.lit "y"), .Write (.lit "a") (.lit "z"),
      .Delete (.lit "0"), .Read (.lit "a")] (by decide)
    (by simp only [MessagesFit, TableOp.MessageFits]; decide)
  exact ⟨ht, hrun.trans (by congr 1)⟩

/-- A value of 100 bytes. -/
def longValue : CString where
  bytes := List.replicate 100 (char 'x')
  nulFree := fun h => absurd (List.eq_of_mem_replicate h) (by decide)

/-- Without the bound on the messages the refinement fails: overwriting a key with a value of 100
bytes formats 104 bytes into the 90 of `write_pair`'s buffer. -/
theorem hashTable_refines_map_overflows :
    ¬ ∀ (mem : ℕ → Ptr) (ops : List TableOp), ZeroFilled mem →
        (∀ op ∈ ops, op.key.StartsAlnum) →
        ∃ ht, runTableOps mem .createHashTable ops = .ok (resultsOn (fun _ => none) ops, ht)
          ∧ ∀ k, k.StartsAlnum → ht.readPair k = .ok (valuesAfter (fun _ => none) ops k) := by
  intro h
  obtain ⟨ht, hrun, _⟩ := h (fun _ => none)
    [.Write (.lit "a") longValue, .Write (.lit "a") longValue] (fun _ => rfl) (by decide)
  obtain ⟨ht₁, hfirst⟩ : ∃ ht₁, HashTable.createHashTable.writePair (fun _ => none) (.lit "a")
      longValue = .ok (ht₁, []) := ⟨_, rfl⟩
  have hsecond : ht₁.writePair (fun _ => none) (.lit "a") longValue = .error .outOfBounds := by
    obtain ⟨rfl, -⟩ := Prod.mk.inj (Except.ok.inj hfirst)
    refine HashTable.writePair_overflow (i := ⟨0, by decide⟩) rfl rfl ?_
    simp only [pairText, longValue, List.length_append, List.length_replicate]
    decide
  simp only [runTableOps, TableOp.run, hfirst, ok_bind, pure_eq_ok, hsecond, error_bind] at hrun
  cases hrun

end Kvs
