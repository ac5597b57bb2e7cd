import Kvs.Server.Table

/-!
# The operations on the store

`operations.c` on an initialised store: batches of table calls under the table lock, and what they
write to the output file of the job that asked for them.  Every record goes through a buffer of
`MAX_STRING_SIZE` bytes, so a `READ`, `DELETE` or `SHOW` record longer than 39 bytes is cut there.
What the operations print on the terminal is left out.
-/

namespace Kvs

/-! ## Records -/

/-- `"(%s,KVSERROR)"`. -/
def errorText (key : CString) : List Byte := text "(" ++ key.bytes ++ text ",KVSERROR)"

/-- `"(%s,KVSMISSING)"`. -/
def missingText (key : CString) : List Byte := text "(" ++ key.bytes ++ text ",KVSMISSING)"

/-- `"(%s, %s)\n"`. -/
def showText (key value : CString) : List Byte :=
  text "(" ++ key.bytes ++ text ", " ++ value.bytes ++ text ")\n"

/-- A record as it comes out of the buffer it is formatted in. -/
def record (formatted : List Byte) : List Byte := snprintf maxStringSize formatted

/-- The record of a key that was looked up. -/
def readText (key : CString) : Option CString → List Byte
  | none => errorText key
  | some value => pairText key value

namespace HashTable

/-! ## Batches -/

/-- `kvs_write`; it returns 0 whatever happens to the pairs. -/
def kvsWrite (mem : ℕ → Ptr) (ht : HashTable) :
    List (Str × Str) → Except Fault (HashTable × List Notification)
  | [] => pure (ht, [])
  | (key, value) :: pairs => do
      let (ht, sent) ← ht.writePair mem key value
      let (ht, rest) ← kvsWrite mem ht pairs
      pure (ht, sent ++ rest)

/-- The loop of `kvs_read`: one record for each key. -/
def readRecords (ht : HashTable) : List Str → Except Fault (List Byte)
  | [] => pure []
  | key :: keys => do
      let result ← ht.readPair key
      let rest ← readRecords ht keys
      pure (record (readText key result) ++ rest)

/-- `kvs_read`: the bytes written to the output file. -/
def kvsRead (ht : HashTable) (keys : List Str) : Except Fault (List Byte) := do
  let records ← ht.readRecords keys
  pure (text "[" ++ records ++ text "]\n")

/-- One pass of the loop of `kvs_delete`, given whether the opening bracket is out: the bracket
goes out with the first record. -/
def deleteRecord (aux : Bool) (key : CString) (status : ℤ) : Bool × List Byte :=
  if status ≠ 0 then (true, (if aux then [] else text "[") ++ record (missingText key))
  else (aux, [])

/-- The loop of `kvs_delete`. -/
def deleteRecords (ht : HashTable) (aux : Bool) :
    List Str → Except Fault (HashTable × Bool × List Byte × List Notification)
  | [] => pure (ht, aux, [], [])
  | key :: keys => do
      let (status, ht, sent) ← ht.deletePair key
      let (aux, out) := deleteRecord aux key.val status
      let (ht, aux, rest, sents) ← deleteRecords ht aux keys
      pure (ht, aux, out ++ rest, sent ++ sents)

/-- The closing bracket of `kvs_delete`, if there is one to close. -/
def closeRecords (aux : Bool) : List Byte := if aux then text "]\n" else []

/-- `kvs_delete`: the table, the bytes written to the output file, the messages sent. -/
def kvsDelete (ht : HashTable) (keys : List Str) :
    Except Fault (HashTable × List Byte × List Notification) := do
  let (ht, aux, records, sent) ← ht.deleteRecords false keys
  pure (ht, records ++ closeRecords aux, sent)

/-- The line of one node. -/
def showRecord (keyNode : KeyNode) : List Byte := record (showText keyNode.key keyNode.value)

/-- `kvs_show`: a line for each node, chain by chain. -/
def kvsShow (ht : HashTable) : List Byte :=
  (List.finRange tableSize).flatMap fun i => (ht.table i).flatMap showRecord

/-! ## Subscriptions -/

/-- `kvs_subscribe`: 0 when the key is not in the table, 1 otherwise. -/
def kvsSubscribe (ht : HashTable) (key : CString) (fdNotification : Fd) :
    Except Fault (ℤ × HashTable) := do
  let (status, ht) ← ht.writeSubscription key fdNotification
  pure (if status = 0 then 0 else 1, ht)

/-- `kvs_unsubscribe`: 0 when `delete_subscription` returned 0, 1 otherwise. -/
def kvsUnsubscribe (ht : HashTable) (key : CString) (fdNotification : Fd) :
    Except Fault (ℤ × HashTable) := do
  let (status, ht) ← ht.deleteSubscription key fdNotification
  pure (if status = 0 then 0 else 1, ht)

section

variable {ht : HashTable} {key : CString} {keyNode : KeyNode} {i : Fin tableSize}

lemma kvsSubscribe_of_find (hi : tableIndex (hash key) = .ok i)
    (hnode : findNode key (ht.table i) = some keyNode) (fd : Fd) :
    ht.kvsSubscribe key fd = (appendListNode ht.subs keyNode.head fd).map
      fun subs => (1, { ht with subs := subs }) := by
  rw [kvsSubscribe, writeSubscription_of_find hi hnode]
  cases appendListNode ht.subs keyNode.head fd <;> rfl

lemma kvsSubscribe_of_not_find (hi : tableIndex (hash key) = .ok i)
    (hnode : findNode key (ht.table i) = none) (fd : Fd) : ht.kvsSubscribe key fd = .ok (0, ht) := by
  rw [kvsSubscribe, writeSubscription_of_not_find hi hnode]
  rfl

lemma kvsUnsubscribe_of_find (hi : tableIndex (hash key) = .ok i)
    (hnode : findNode key (ht.table i) = some keyNode) (fd : Fd) :
    ht.kvsUnsubscribe key fd = (deleteListNode ht.subs keyNode.head fd).map
      fun subs => (1, { ht with subs := subs }) := by
  rw [kvsUnsubscribe, deleteSubscription_of_find hi hnode]
  cases deleteListNode ht.subs keyNode.head fd <;> rfl

lemma kvsUnsubscribe_of_not_find (hi : tableIndex (hash key) = .ok i)
    (hnode : findNode key (ht.table i) = none) (fd : Fd) :
    ht.kvsUnsubscribe key fd = .ok (0, ht) := by
  rw [kvsUnsubscribe, deleteSubscription_of_not_find hi hnode]
  rfl

end

/-! ## Backups -/

/-- One piece of a backup record: as much of `src` as the buffer has room for, one byte kept for
the terminator. -/
def appendPiece (aux src : List Byte) : List Byte := aux ++ src.take (maxStringSize - aux.length - 1)

/-- A backup record: the pieces of `showText`, copied one after the other. -/
def backupRecord (keyNode : KeyNode) : List Byte :=
  [keyNode.key.bytes, text ", ", keyNode.value.bytes, text ")\n"].foldl appendPiece (text "(")

/-- What the child of `kvs_backup` writes to the backup file. -/
def backupBytes (ht : HashTable) : List Byte :=
  (List.finRange tableSize).flatMap fun i => (ht.table i).flatMap backupRecord

end HashTable

/-- `strtok(name, ".")`: the first run of bytes other than dots, if there is one.  The name itself
is cut there too. -/
def strtok (name : CString) : Option CString :=
  match name.bytes.dropWhile (· = char '.') with
  | [] => none
  | b :: bs => some (.ofBuffer ((b :: bs).takeWhile (· ≠ char '.')))

/-- What `printf` prints for a string pointer. -/
def printedString : Option CString → List Byte
  | some s => s.bytes
  | none => text "(null)"

/-- Size of the path buffer of `kvs_backup`. -/
def backupNameSize : ℕ := 50

/-- `"%s/%s-%ld.bck"`, cut to the path buffer. -/
def backupName (directory : CString) (jobFilename : CString) (numBackup : ℕ) : List Byte :=
  snprintf backupNameSize (directory.bytes ++ text "/" ++ printedString (strtok jobFilename)
    ++ text "-" ++ text (toString numBackup) ++ text ".bck")

/-- The job name after `strtok` has put its NUL into it: the first dot behind the token becomes
the terminator, leading dots stay. -/
def strtokRest (name : CString) : CString :=
  .ofBuffer (name.bytes.takeWhile (· = char '.')
    ++ (name.bytes.dropWhile (· = char '.')).takeWhile (· ≠ char '.'))

end Kvs
