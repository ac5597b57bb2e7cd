import Kvs.Core.KeyedList
import Kvs.Server.LinkedLists

/-!
# The hash table

`kvs.c`: a table of 26 chains, a key in the chain of its first letter.  The chains belong to the
table alone and are lists here; the subscriber lists that hang from their nodes are shared with
the sessions through pointers and stay in a heap.

`writePair` initialises three of the four fields of the node it allocates.  The fourth, the
subscriber list head, is whatever `malloc` left there: `mem n` is the word found in the `n`-th
node allocated, and `ZeroFilled mem` says that it is always null.
-/

namespace Kvs

def tableSize : ℕ := 26

/-- `KeyNode`, without its `next` link. -/
structure KeyNode where
  key : CString
  value : CString
  head : Ptr
  deriving DecidableEq

/-- The table with what it points to: the chains, the subscriber lists, and how many nodes have
been allocated so far. -/
structure HashTable where
  table : Fin tableSize → List KeyNode
  subs : Heap Fd
  nodes : ℕ

/-- A message a notification descriptor is sent. -/
structure Notification where
  fd : Fd
  message : List Byte
  deriving DecidableEq

/-- `malloc` returns memory whose list head word is null. -/
def ZeroFilled (mem : ℕ → Ptr) : Prop := ∀ n, mem n = none

/-! ## The hash -/

/-- `tolower` of the C locale. -/
def tolower (c : Byte) : ℤ := if 65 ≤ c.toNat ∧ c.toNat ≤ 90 then c.toNat + 32 else c.toNat

/-- Letters count from `'a'`, digits from `'0'`, and anything else is `-1`. -/
def hash (key : CString) : ℤ :=
  let firstLetter := tolower key.first
  if 97 ≤ firstLetter ∧ firstLetter ≤ 122 then firstLetter - 97
  else if 48 ≤ firstLetter ∧ firstLetter ≤ 57 then firstLetter - 48
  else -1

/-- The chain `ht->table[index]`; no caller looks at the result of `hash` first. -/
def tableIndex (index : ℤ) : Except Fault (Fin tableSize) :=
  if h : 0 ≤ index ∧ index.toNat < tableSize then .ok ⟨index.toNat, h.2⟩ else .error .badIndex

/-! ## Texts -/

/-- `"(%s,%s)"`. -/
def pairText (key value : CString) : List Byte :=
  text "(" ++ key.bytes ++ text "," ++ value.bytes ++ text ")"

/-- `"(%s,DELETED)"`. -/
def deletedText (key : CString) : List Byte := text "(" ++ key.bytes ++ text ",DELETED)"

/-- Size of the buffer in which `write_pair` formats its message. -/
def writeBufferSize : ℕ := 90

/-- Size of the buffer in which `delete_pair` formats its message. -/
def deleteBufferSize : ℕ := 52

/-! ## The operations -/

/-- The node of a key in a chain: the first one met. -/
def findNode (key : CString) (chain : List KeyNode) : Option KeyNode :=
  KeyedList.find KeyNode.key key chain

/-- A node with its value replaced. -/
def KeyNode.withValue (value : CString) (keyNode : KeyNode) : KeyNode :=
  { keyNode with value := value }

/-- The chain with the value of that node replaced. -/
def overwriteValue (key value : CString) (chain : List KeyNode) : List KeyNode :=
  KeyedList.modify KeyNode.key key (KeyNode.withValue value) chain

/-- The chain with that node unlinked. -/
def unlinkNode (key : CString) (chain : List KeyNode) : List KeyNode :=
  KeyedList.erase KeyNode.key key chain

namespace HashTable

/-- `create_hash_table`, the `malloc` succeeding. -/
def createHashTable : HashTable where
  table := fun _ => []
  subs := Heap.empty
  nodes := 0

/-- The table with one chain replaced. -/
def setChain (ht : HashTable) (index : Fin tableSize) (chain : List KeyNode) : HashTable :=
  { ht with table := Function.update ht.table index chain }

/-- The `write_all` of the same text to each subscriber in list order.  A write that fails is
reported and the next subscriber is served, so what is collected are the attempts. -/
def notify (ht : HashTable) (head : Ptr) (buffer : List Byte) :
    Except Fault (List Notification) := do
  let fds ← ht.subs.walk head
  pure (fds.map fun fd => ⟨fd, buffer⟩)

/-- `write_pair`; it always returns 0. -/
def writePair (mem : ℕ → Ptr) (ht : HashTable) (key value : CString) :
    Except Fault (HashTable × List Notification) := do
  let index ← tableIndex (hash key)
  match findNode key (ht.table index) with
  | some keyNode => do
      let buffer ← sprintf writeBufferSize (pairText keyNode.key value)
      let sent ← ht.notify keyNode.head buffer
      pure (ht.setChain index (overwriteValue key value (ht.table index)), sent)
  | none =>
      let keyNode : KeyNode := ⟨key, value, mem ht.nodes⟩
      pure ({ ht.setChain index (keyNode :: ht.table index) with nodes := ht.nodes + 1 }, [])

/-- `read_pair`: a copy of the value, null when there is none. -/
def readPair (ht : HashTable) (key : CString) : Except Fault (Option CString) := do
  let index ← tableIndex (hash key)
  pure ((findNode key (ht.table index)).map KeyNode.value)

/-- `delete_pair`: 0 when the node was there and is gone, 1 when there was none.  The subscriber
cells are freed as the list is walked. -/
def deletePair (ht : HashTable) (key : CString) :
    Except Fault (ℤ × HashTable × List Notification) := do
  let index ← tableIndex (hash key)
  match findNode key (ht.table index) with
  | some keyNode => do
      let buffer ← sprintf deleteBufferSize (deletedText keyNode.key)
      let (fds, subs) ← ht.subs.freeList keyNode.head
      let sent := fds.map fun fd => (⟨fd, buffer⟩ : Notification)
      pure (0, { ht.setChain index (unlinkNode key (ht.table index)) with subs := subs }, sent)
  | none => pure (1, ht, [])

/-- `write_subscription`: 1 when the key is there, 0 when it is not. -/
def writeSubscription (ht : HashTable) (key : CString) (fdNotification : Fd) :
    Except Fault (ℤ × HashTable) := do
  let index ← tableIndex (hash key)
  match findNode key (ht.table index) with
  | some keyNode => do
      let subs ← appendListNode ht.subs keyNode.head fdNotification
      pure (1, { ht with subs := subs })
  | none => pure (0, ht)

/-- `delete_subscription`: 1 when the key is there, 0 when it is not. -/
def deleteSubscription (ht : HashTable) (key : CString) (fdNotification : Fd) :
    Except Fault (ℤ × HashTable) := do
  let index ← tableIndex (hash key)
  match findNode key (ht.table index) with
  | some keyNode => do
      let subs ← deleteListNode ht.subs keyNode.head fdNotification
      pure (1, { ht with subs := subs })
  | none => pure (0, ht)

/-! ## What a call does

Once the chain of the key has been searched there is one thing each call can do, apart from what
the buffer on the stack and the subscriber list make of it. -/

variable {mem : ℕ → Ptr} {ht : HashTable} {key value : CString} {i : Fin tableSize}
  {keyNode : KeyNode}

@[simp] lemma notify_none (ht : HashTable) (buffer : List Byte) : ht.notify none buffer = .ok [] := by
  simp only [notify, Heap.walk_none, ok_bind, pure_eq_ok, List.map_nil]

/-- An overwrite tells the subscribers of the node. -/
lemma writePair_of_find (hi : tableIndex (hash key) = .ok i)
    (hnode : findNode key (ht.table i) = some keyNode)
    (hfits : (pairText key value).length < writeBufferSize) :
    ht.writePair mem key value = (ht.notify keyNode.head (pairText key value)).map
      fun sent => (ht.setChain i (overwriteValue key value (ht.table i)), sent) := by
  have hname : keyNode.key = key := KeyedList.key_of_find hnode
  simp only [writePair, hi, ok_bind, hnode, hname, sprintf_of_lt hfits]
  rfl

/-- A message too long for its buffer is stored all the same. -/
lemma writePair_overflow (hi : tableIndex (hash key) = .ok i)
    (hnode : findNode key (ht.table i) = some keyNode)
    (hlong : writeBufferSize ≤ (pairText key value).length) :
    ht.writePair mem key value = .error .outOfBounds := by
  have hname : keyNode.key = key := KeyedList.key_of_find hnode
  simp only [writePair, hi, ok_bind, hnode, hname, sprintf_of_le hlong, error_bind]

/-- A new node comes first in its chain, with the head that was in its memory. -/
lemma writePair_of_not_find (hi : tableIndex (hash key) = .ok i)
    (hnode : findNode key (ht.table i) = none) :
    ht.writePair mem key value = .ok ({ ht.setChain i
      (⟨key, value, mem ht.nodes⟩ :: ht.table i) with nodes := ht.nodes + 1 }, []) := by
  simp only [writePair, hi, ok_bind, hnode, pure_eq_ok]

/-- A deletion tells the subscribers of the node as it frees their cells. -/
lemma deletePair_of_find (hi : tableIndex (hash key) = .ok i)
    (hnode : findNode key (ht.table i) = some keyNode)
    (hfits : (deletedText key).length < deleteBufferSize) :
    ht.deletePair key = (ht.subs.freeList keyNode.head).map fun freed =>
      (0, { ht.setChain i (unlinkNode key (ht.table i)) with subs := freed.2 },
        freed.1.map fun fd => ⟨fd, deletedText key⟩) := by
  have hname : keyNode.key = key := KeyedList.key_of_find hnode
  simp only [deletePair, hi, ok_bind, hnode, hname, sprintf_of_lt hfits]
  rfl

lemma deletePair_overflow (hi : tableIndex (hash key) = .ok i)
    (hnode : findNode key (ht.table i) = some keyNode)
    (hlong : deleteBufferSize ≤ (deletedText key).length) :
    ht.deletePair key = .error .outOfBounds := by
  have hname : keyNode.key = key := KeyedList.key_of_find hnode
  simp only [deletePair, hi, ok_bind, hnode, hname, sprintf_of_le hlong, error_bind]

lemma deletePair_of_not_find (hi : tableIndex (hash key) = .ok i)
    (hnode : findNode key (ht.table i) = none) : ht.deletePair key = .ok (1, ht, []) := by
  simp only [deletePair, hi, ok_bind, hnode, pure_eq_ok]

lemma writeSubscription_of_find (hi : tableIndex (hash key) = .ok i)
    (hnode : findNode key (ht.table i) = some keyNode) (fd : Fd) :
    ht.writeSubscription key fd = (appendListNode ht.subs keyNode.head fd).map
      fun subs => (1, { ht with subs := subs }) := by
  simp only [writeSubscription, hi, ok_bind, hnode]
  rfl

lemma writeSubscription_of_not_find (hi : tableIndex (hash key) = .ok i)
    (hnode : findNode key (ht.table i) = none) (fd : Fd) :
    ht.writeSubscription key fd = .ok (0, ht) := by
  simp only [writeSubscription, hi, ok_bind, hnode, pure_eq_ok]

lemma deleteSubscription_of_find (hi : tableIndex (hash key) = .ok i)
    (hnode : findNode key (ht.table i) = some keyNode) (fd : Fd) :
    ht.deleteSubscription key fd = (deleteListNode ht.subs keyNode.head fd).map
      fun subs => (1, { ht with subs := subs }) := by
  simp only [deleteSubscription, hi, ok_bind, hnode]
  rfl

lemma deleteSubscription_of_not_find (hi : tableIndex (hash key) = .ok i)
    (hnode : findNode key (ht.table i) = none) (fd : Fd) :
    ht.deleteSubscription key fd = .ok (0, ht) := by
  simp only [deleteSubscription, hi, ok_bind, hnode, pure_eq_ok]

end HashTable

end Kvs
