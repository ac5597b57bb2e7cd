import Kvs.Core.Threads
import Kvs.Server.Session

/-!
# Keys nobody has subscribed to

A node is made by `write_pair`, which sets its key, its value and its link, and not its subscriber
list head.  Nobody can have subscribed to a key that is new, so the head should be null: `write_pair`
reads it when the key is overwritten, `delete_pair` when it is deleted, and both follow it.

It is whatever `malloc` returned.  As long as a run makes and removes nodes and does nothing else, no
head ever changes, so they are all null, all along, exactly if each node was null when it was made
(`fresh_keys_unheard_iff`).
-/

namespace Kvs

/-! ## Runs of two functions -/

/-- A call of one of the functions that make nodes and remove them. -/
inductive PairCall where
  | WritePair (key value : CString)
  | DeletePair (key : CString)

namespace PairCall

/-- The call on the table, with what it writes to descriptors. -/
def run (mem : ℕ → Ptr) (ht : HashTable) :
    PairCall → Except Fault (HashTable × List Notification)
  | WritePair key value => ht.writePair mem key value
  | DeletePair key => do
      let (_, ht, sent) ← ht.deletePair key
      pure (ht, sent)

/-- The table behind it. -/
def step (mem : ℕ → Ptr) (ht : HashTable) (call : PairCall) : Except Fault HashTable := do
  let (ht, _) ← call.run mem ht
  pure ht

end PairCall

namespace HashTable

/-- Every node has an empty subscriber list. -/
def HeadsNull (ht : HashTable) : Prop := ∀ i, ∀ keyNode ∈ ht.table i, keyNode.head = none

/-- Whatever is called, nothing is sent and no pointer followed: a call can fail only because its key
has no chain, or its message no room in the buffer. -/
def Quiet (mem : ℕ → Ptr) (ht : HashTable) : Prop :=
  ∀ call : PairCall, match call.run mem ht with
    | .ok (_, sent) => sent = []
    | .error fault => fault = .badIndex ∨ fault = .outOfBounds

/-- A node that the call makes, if it makes one, is made of memory that holds a null head. -/
def NewHeadNull (mem : ℕ → Ptr) (ht : HashTable) : PairCall → Prop
  | .WritePair key _ => key.StartsAlnum → ht.lookup key = none → mem ht.nodes = none
  | .DeletePair _ => True

/-! ## The calls on null heads -/

variable {mem : ℕ → Ptr} {ht ht' : HashTable}

lemma HeadsNull.setChain (h : ht.HeadsNull) (index : Fin tableSize) {chain : List KeyNode}
    (hchain : ∀ keyNode ∈ chain, keyNode.head = none) : (ht.setChain index chain).HeadsNull := by
  intro i keyNode hnode
  by_cases hi : i = index
  · subst hi
    refine hchain keyNode ?_
    simpa [HashTable.setChain] using hnode
  · refine h i keyNode ?_
    simpa [HashTable.setChain, Function.update_of_ne hi] using hnode

/-- Overwriting a key with a null head tells nobody. -/
lemma writePair_of_head_none {key value : CString} {keyNode : KeyNode} {index : Fin tableSize}
    (hindex : tableIndex (hash key) = .ok index)
    (hnode : findNode key (ht.table index) = some keyNode) (hhead : keyNode.head = none) :
    ht.writePair mem key value = .error .outOfBounds ∨ ht.writePair mem key value
      = .ok (ht.setChain index (overwriteValue key value (ht.table index)), []) := by
  by_cases hfits : (pairText key value).length < writeBufferSize
  · right
    rw [writePair_of_find hindex hnode hfits, hhead, notify_none]
    rfl
  · left
    exact writePair_overflow hindex hnode (Nat.le_of_not_lt hfits)

/-- Deleting a key with a null head tells nobody, and frees no cell. -/
lemma deletePair_of_head_none {key : CString} {keyNode : KeyNode} {index : Fin tableSize}
    (hindex : tableIndex (hash key) = .ok index)
    (hnode : findNode key (ht.table index) = some keyNode) (hhead : keyNode.head = none) :
    ht.deletePair key = .error .outOfBounds ∨ ht.deletePair key
      = .ok (0, ht.setChain index (unlinkNode key (ht.table index)), []) := by
  by_cases hfits : (deletedText key).length < deleteBufferSize
  · right
    rw [deletePair_of_find hindex hnode hfits, hhead, Heap.freeList_none]
    rfl
  · left
    exact deletePair_overflow hindex hnode (Nat.le_of_not_lt hfits)

/-- **Writing a pair.**  An overwrite keeps the heads, and a new node brings the one it was made
with. -/
lemma HeadsNull.writePair_cases (h : ht.HeadsNull) (mem : ℕ → Ptr) (key value : CString) :
    (∃ fault, ht.writePair mem key value = .error fault ∧
        (fault = .badIndex ∨ fault = .outOfBounds) ∧ NewHeadNull mem ht (.WritePair key value)) ∨
      ∃ ht', ht.writePair mem key value = .ok (ht', []) ∧
        (ht'.HeadsNull ↔ NewHeadNull mem ht (.WritePair key value)) := by
  by_cases hkey : key.StartsAlnum
  · obtain ⟨index, hindex⟩ := tableIndex_of_startsAlnum hkey
    have hlookup : ht.lookup key = findNode key (ht.table index) := lookup_eq hindex
    cases hnode : findNode key (ht.table index) with
    | some keyNode =>
        have hfound : NewHeadNull mem ht (.WritePair key value) := by
          intro _ hnone
          rw [hlookup, hnode] at hnone
          cases hnone
        rcases writePair_of_head_none hindex hnode (h index keyNode (KeyedList.mem_of_find hnode)) with
          hwrite | hwrite
        · left
          exact ⟨_, hwrite, Or.inr rfl, hfound⟩
        · right
          refine ⟨_, hwrite, fun _ => hfound, fun _ => h.setChain index ?_⟩
          intro node hmem
          rcases KeyedList.mem_modify hmem with hsame | ⟨old, hold, -, rfl⟩
          · exact h index node hsame
          · exact h index old hold
    | none =>
        right
        refine ⟨_, writePair_of_not_find hindex hnode, ?_, ?_⟩
        · intro hheads _ _
          have hfirst := hheads index ⟨key, value, mem ht.nodes⟩ (by simp [HashTable.setChain])
          exact hfirst
        · intro hnew
          have hword := hnew hkey (hlookup.trans hnode)
          refine h.setChain index ?_
          intro node hmem
          rcases List.mem_cons.mp hmem with rfl | hmem
          · exact hword
          · exact h index node hmem
  · left
    refine ⟨.badIndex, ?_, Or.inl rfl, fun halnum => absurd halnum hkey⟩
    simp only [writePair, tableIndex_of_not_startsAlnum hkey, error_bind]

/-- **Deleting a pair** leaves nodes that were there. -/
lemma HeadsNull.deletePair_cases (h : ht.HeadsNull) (key : CString) :
    (∃ fault, ht.deletePair key = .error fault ∧ (fault = .badIndex ∨ fault = .outOfBounds)) ∨
      ∃ status ht', ht.deletePair key = .ok (status, ht', []) ∧ ht'.HeadsNull := by
  by_cases hkey : key.StartsAlnum
  · obtain ⟨index, hindex⟩ := tableIndex_of_startsAlnum hkey
    cases hnode : findNode key (ht.table index) with
    | some keyNode =>
        rcases deletePair_of_head_none hindex hnode (h index keyNode (KeyedList.mem_of_find hnode)) with
          hdelete | hdelete
        · left
          exact ⟨_, hdelete, Or.inr rfl⟩
        · right
          refine ⟨_, _, hdelete, h.setChain index ?_⟩
          intro node hmem
          exact h index node (KeyedList.mem_of_mem_erase hmem)
    | none =>
        right
        exact ⟨1, ht, deletePair_of_not_find hindex hnode, h⟩
  · left
    refine ⟨.badIndex, ?_, Or.inl rfl⟩
    simp only [deletePair, tableIndex_of_not_startsAlnum hkey, error_bind]

/-- **Either call.** -/
lemma HeadsNull.run_cases (h : ht.HeadsNull) (mem : ℕ → Ptr) (call : PairCall) :
    (∃ fault, call.run mem ht = .error fault ∧ (fault = .badIndex ∨ fault = .outOfBounds) ∧
        NewHeadNull mem ht call) ∨
      ∃ ht', call.run mem ht = .ok (ht', []) ∧ (ht'.HeadsNull ↔ NewHeadNull mem ht call) := by
  cases call with
  | WritePair key value => exact h.writePair_cases mem key value
  | DeletePair key =>
      rcases h.deletePair_cases key with ⟨fault, hdelete, hfault⟩ | ⟨status, ht', hdelete, hheads⟩
      · left
        refine ⟨fault, ?_, hfault, trivial⟩
        simp only [PairCall.run, hdelete, error_bind]
      · right
        refine ⟨ht', ?_, fun _ => trivial, fun _ => hheads⟩
        simp only [PairCall.run, hdelete, ok_bind, pure_eq_ok]

/-- Null heads are never followed. -/
lemma HeadsNull.quiet (h : ht.HeadsNull) (mem : ℕ → Ptr) : ht.Quiet mem := by
  intro call
  rcases h.run_cases mem call with ⟨fault, hrun, hfault, -⟩ | ⟨ht', hrun, -⟩
  · rw [hrun]
    exact hfault
  · rw [hrun]

lemma headsNull_createHashTable : createHashTable.HeadsNull := by
  intro i keyNode hnode
  cases hnode

end HashTable

/-! ## Exactly when new keys are unheard of -/

/-- **Exactly when a new key has no subscribers.**  For every contents of the memory that `malloc`
returns and every sequence of `write_pair` and `delete_pair` from the empty table: in all its states
every subscriber list head is null, and no call sends anything or follows a pointer, if and only if
each call that makes a node makes it of memory that happens to hold a null head. -/
theorem fresh_keys_unheard_iff (mem : ℕ → Ptr) (calls : List PairCall) :
    Always (PairCall.step mem) (fun ht => ht.HeadsNull ∧ ht.Quiet mem) .createHashTable calls ↔
      EachStep (PairCall.step mem) (HashTable.NewHeadNull mem) .createHashTable calls := by
  refine always_iff_eachStep ?_ ?_
    ⟨HashTable.headsNull_createHashTable, HashTable.headsNull_createHashTable.quiet mem⟩ calls
  · rintro ht call ht' ⟨hheads, -⟩ hnew hstep
    rcases hheads.run_cases mem call with ⟨fault, hrun, -, -⟩ | ⟨ht₁, hrun, hiff⟩
    · simp only [PairCall.step, hrun, error_bind] at hstep
      cases hstep
    · simp only [PairCall.step, hrun, ok_bind, pure_eq_ok] at hstep
      obtain rfl := Except.ok.inj hstep
      exact ⟨hiff.mpr hnew, (hiff.mpr hnew).quiet mem⟩
  · rintro ht call ⟨hheads, -⟩ hnot
    rcases hheads.run_cases mem call with ⟨fault, -, -, hnew⟩ | ⟨ht₁, hrun, hiff⟩
    · exact absurd hnew hnot
    · refine ⟨ht₁, ?_, fun h => hnot (hiff.mp h.1)⟩
      simp only [PairCall.step, hrun, ok_bind, pure_eq_ok]

/-- A new key in memory that holds a word other than null: the next write and the next deletion of the
key follow it. -/
theorem new_node_head_followed : ∃ (mem : ℕ → Ptr) (ht : HashTable),
    PairCall.step mem .createHashTable (.WritePair (.lit "a") (.lit "x")) = .ok ht ∧
      ¬ ht.HeadsNull ∧
      (PairCall.WritePair (.lit "a") (.lit "y")).run mem ht = .error .wildPointer ∧
      (PairCall.DeletePair (.lit "a")).run mem ht = .error .wildPointer := by
  refine ⟨fun _ => some 0, _, rfl, ?_, rfl, rfl⟩
  intro h
  have hhead := h ⟨0, by decide⟩ ⟨.lit "a", .lit "x", some 0⟩ (by decide)
  cases hhead

end Kvs
