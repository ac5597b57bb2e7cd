import Kvs.Core.SameOutcome
import Kvs.Server.Operations

/-!
# The hash table in memory

`Table.lean` has the chains of the table as lists.  In `kvs.c` they are `KeyNode` cells reached through
pointers, and the key and the value of a node are pointers too, to strings that `strdup` has
allocated.  This file is `kvs.c` once more, at that level.

* `TableMemory` — the array of chain heads, the nodes, the strings and the subscriber lists, each kind
  of block in a heap of its own.
* `search` — the loop over a chain that all five operations begin with.  It compares through the key
  pointer of each node.
* `writePair`, `readPair`, `deletePair`, `writeSubscription`, `deleteSubscription` — as in `kvs.c`,
  every `free` a fault if the block is gone.  `readPair` returns a pointer to a copy that is its
  caller's to free.
* `kvsShow` and `freeTable` — the two traversals of everything.

What these have to do with the lists is in `TableRefinement.lean`.
-/

namespace Kvs

/-! ## Memory -/

/-- The fields of a `KeyNode`, without its `next` link. -/
structure NodeFields where
  key : Ptr
  value : Ptr
  head : Ptr

/-- The chain heads and the four kinds of block. -/
structure TableMemory where
  table : Fin tableSize → Ptr
  nodes : Heap NodeFields
  strings : Heap CString
  subs : Heap Fd

/-- `strdup`: a block with a copy of the string.  The blocks are cells without a link. -/
def Heap.strdup (strings : Heap CString) (s : CString) : Heap CString × Ptr :=
  (strings.alloc ⟨s, none⟩, some strings.bound)

/-- The string a pointer leads to. -/
def Heap.string (strings : Heap CString) (p : Ptr) : Except Fault CString := do
  let block ← strings.load p
  pure block.data

namespace TableMemory

/-- `create_hash_table`, the `malloc` succeeding. -/
def createHashTable : TableMemory where
  table := fun _ => none
  nodes := Heap.empty
  strings := Heap.empty
  subs := Heap.empty

/-! ## The search -/

/-- `while (keyNode != NULL) { if (strcmp(keyNode->key, key) == 0) …; previous = keyNode;
keyNode = keyNode->next; }`: the node in front of the one at which it stops, and that one with what
it holds. -/
def searchLoop (mm : TableMemory) (key : CString) :
    ℕ → Ptr → Ptr → Except Fault (Ptr × Option (ℕ × Cell NodeFields))
  | _, previous, none => .ok (previous, none)
  | 0, _, some _ => .error .diverged
  | fuel + 1, previous, some a => do
      let keyNode ← mm.nodes.load (some a)
      let name ← mm.strings.string keyNode.data.key
      if name = key then pure (previous, some (a, keyNode))
      else searchLoop mm key fuel (some a) keyNode.next

/-- The search from the head of a chain. -/
def search (mm : TableMemory) (key : CString) (index : Fin tableSize) :
    Except Fault (Ptr × Option (ℕ × Cell NodeFields)) :=
  mm.searchLoop key (mm.nodes.bound + 1) none (mm.table index)

/-! ## The operations -/

/-- `write_pair`; it always returns 0. -/
def writePair (mem : ℕ → Ptr) (mm : TableMemory) (key value : CString) :
    Except Fault (TableMemory × List Notification) := do
  let index ← tableIndex (hash key)
  let (_, found) ← mm.search key index
  match found with
  | some (a, keyNode) => do
      let strings ← mm.strings.free keyNode.data.value
      let (strings, copy) := strings.strdup value
      let nodes := mm.nodes.modify a fun c => { c with data := { c.data with value := copy } }
      let name ← strings.string keyNode.data.key
      let stored ← strings.string copy
      let buffer ← sprintf writeBufferSize (pairText name stored)
      let fds ← mm.subs.walk keyNode.data.head
      pure ({ mm with nodes, strings }, fds.map fun fd => ⟨fd, buffer⟩)
  | none =>
      let (strings, keyCopy) := mm.strings.strdup key
      let (strings, valueCopy) := strings.strdup value
      let nodes := mm.nodes.alloc ⟨⟨keyCopy, valueCopy, mem mm.nodes.bound⟩, mm.table index⟩
      let table := Function.update mm.table index (some mm.nodes.bound)
      pure ({ mm with table, nodes, strings }, [])

/-- `read_pair`: a copy of the value, null when there is none. -/
def readPair (mm : TableMemory) (key : CString) : Except Fault (Ptr × TableMemory) := do
  let index ← tableIndex (hash key)
  let (_, found) ← mm.search key index
  match found with
  | some (_, keyNode) => do
      let value ← mm.strings.string keyNode.data.value
      let (strings, copy) := mm.strings.strdup value
      pure (copy, { mm with strings })
  | none => pure (none, mm)

/-- A node taken out of its chain: the link to it, in the table or in the node in front, leads to the
node behind. -/
def relink (mm : TableMemory) (index : Fin tableSize) (previous next : Ptr) : TableMemory :=
  match previous with
  | none => { mm with table := Function.update mm.table index next }
  | some b => { mm with nodes := mm.nodes.modify b fun c => { c with next := next } }

/-- `free(keyNode->key); free(keyNode->value); free(keyNode);` -/
def freeNode (mm : TableMemory) (a : ℕ) (fields : NodeFields) : Except Fault TableMemory := do
  let strings ← mm.strings.free fields.key
  let strings ← strings.free fields.value
  let nodes ← mm.nodes.free (some a)
  pure { mm with nodes, strings }

/-- `delete_pair`: 0 when the node was there and is gone, 1 when there was none. -/
def deletePair (mm : TableMemory) (key : CString) :
    Except Fault (ℤ × TableMemory × List Notification) := do
  let index ← tableIndex (hash key)
  let (previous, found) ← mm.search key index
  match found with
  | some (a, keyNode) => do
      let name ← mm.strings.string keyNode.data.key
      let buffer ← sprintf deleteBufferSize (deletedText name)
      let (fds, subs) ← mm.subs.freeList keyNode.data.head
      let mm := { mm.relink index previous keyNode.next with subs := subs }
      let mm ← mm.freeNode a keyNode.data
      pure (0, mm, fds.map fun fd => ⟨fd, buffer⟩)
  | none => pure (1, mm, [])

/-- `write_subscription`: 1 when the key is there, 0 when it is not. -/
def writeSubscription (mm : TableMemory) (key : CString) (fdNotification : Fd) :
    Except Fault (ℤ × TableMemory) := do
  let index ← tableIndex (hash key)
  let (_, found) ← mm.search key index
  match found with
  | some (_, keyNode) => do
      let subs ← appendListNode mm.subs keyNode.data.head fdNotification
      pure (1, { mm with subs })
  | none => pure (0, mm)

/-- `delete_subscription`: 1 when the key is there, 0 when it is not. -/
def deleteSubscription (mm : TableMemory) (key : CString) (fdNotification : Fd) :
    Except Fault (ℤ × TableMemory) := do
  let index ← tableIndex (hash key)
  let (_, found) ← mm.search key index
  match found with
  | some (_, keyNode) => do
      let subs ← deleteListNode mm.subs keyNode.data.head fdNotification
      pure (1, { mm with subs })
  | none => pure (0, mm)

/-! ## The traversals -/

/-- The loop of `kvs_show` over one chain. -/
def showLoop (mm : TableMemory) : ℕ → Ptr → Except Fault (List Byte)
  | _, none => .ok []
  | 0, some _ => .error .diverged
  | fuel + 1, some a => do
      let keyNode ← mm.nodes.load (some a)
      let name ← mm.strings.string keyNode.data.key
      let value ← mm.strings.string keyNode.data.value
      let rest ← showLoop mm fuel keyNode.next
      pure (record (showText name value) ++ rest)

/-- The chains of `kvs_show`. -/
def showChains (mm : TableMemory) : List (Fin tableSize) → Except Fault (List Byte)
  | [] => .ok []
  | i :: is => do
      let lines ← mm.showLoop (mm.nodes.bound + 1) (mm.table i)
      let rest ← showChains mm is
      pure (lines ++ rest)

/-- `kvs_show`. -/
def kvsShow (mm : TableMemory) : Except Fault (List Byte) := mm.showChains (List.finRange tableSize)

/-- The loop of `free_table` over one chain. -/
def freeLoop : ℕ → TableMemory → Ptr → Except Fault TableMemory
  | _, mm, none => .ok mm
  | 0, _, some _ => .error .diverged
  | fuel + 1, mm, some a => do
      let keyNode ← mm.nodes.load (some a)
      let mm ← mm.freeNode a keyNode.data
      freeLoop fuel mm keyNode.next

/-- The chains of `free_table`. -/
def freeChains (mm : TableMemory) : List (Fin tableSize) → Except Fault TableMemory
  | [] => .ok mm
  | i :: is => do
      let mm ← freeLoop (mm.nodes.bound + 1) mm (mm.table i)
      freeChains mm is

/-- `free_table`, apart from the table itself, and what is left.  Nothing reads the chain heads again,
which still point to where the nodes were. -/
def freeTable (mm : TableMemory) : Except Fault TableMemory := mm.freeChains (List.finRange tableSize)

end TableMemory

/-! ## Calls -/

/-- A call of `operations.c` for one key, or for the whole table. -/
inductive TableCall where
  | Write (key value : CString)
  | Read (key : CString)
  | Delete (key : CString)
  | Subscribe (key : CString) (fdNotification : Fd)
  | Unsubscribe (key : CString) (fdNotification : Fd)
  | Show

/-- What comes out of one. -/
inductive CallResult where
  | Written (sent : List Notification)
  | Value (value : Option CString)
  | Deleted (status : ℤ) (sent : List Notification)
  | Status (status : ℤ)
  | Shown (out : List Byte)
  deriving DecidableEq

namespace TableCall

/-- The call on lists. -/
def onTable (mem : ℕ → Ptr) (ht : HashTable) : TableCall → Except Fault (CallResult × HashTable)
  | Write key value => do
      let (ht, sent) ← ht.writePair mem key value
      pure (.Written sent, ht)
  | Read key => do
      let value ← ht.readPair key
      pure (.Value value, ht)
  | Delete key => do
      let (status, ht, sent) ← ht.deletePair key
      pure (.Deleted status sent, ht)
  | Subscribe key fd => do
      let (status, ht) ← ht.writeSubscription key fd
      pure (.Status status, ht)
  | Unsubscribe key fd => do
      let (status, ht) ← ht.deleteSubscription key fd
      pure (.Status status, ht)
  | Show => pure (.Shown ht.kvsShow, ht)

/-- What `kvs_read` does with the pointer from `read_pair`: it reads the string, if there is one, and
frees it. -/
def takeResult (result : Ptr) (mm : TableMemory) : Except Fault (Option CString × TableMemory) :=
  match result with
  | none => .ok (none, mm)
  | some a => do
      let value ← mm.strings.string (some a)
      let strings ← mm.strings.free (some a)
      pure (some value, { mm with strings })

/-- The call in memory. -/
def onMemory (mem : ℕ → Ptr) (mm : TableMemory) :
    TableCall → Except Fault (CallResult × TableMemory)
  | Write key value => do
      let (mm, sent) ← mm.writePair mem key value
      pure (.Written sent, mm)
  | Read key => do
      let (result, mm) ← mm.readPair key
      let (value, mm) ← takeResult result mm
      pure (.Value value, mm)
  | Delete key => do
      let (status, mm, sent) ← mm.deletePair key
      pure (.Deleted status sent, mm)
  | Subscribe key fd => do
      let (status, mm) ← mm.writeSubscription key fd
      pure (.Status status, mm)
  | Unsubscribe key fd => do
      let (status, mm) ← mm.deleteSubscription key fd
      pure (.Status status, mm)
  | Show => do
      let out ← mm.kvsShow
      pure (.Shown out, mm)

end TableCall

end Kvs
