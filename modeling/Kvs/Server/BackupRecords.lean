import Kvs.Common.Reads
import Kvs.Server.Operations

/-!
# Backups are shows

`kvs_show` formats each pair with one `snprintf`.  The child of `kvs_backup` may not: it comes from a
`fork` in a process with threads, so it copies the pieces of a record one after the other with
`strn_memcpy`, counts the bytes in a `size_t`, and gives each piece the room that is left but for
the terminator.  `backupLine` is that code as it stands, over a buffer that holds anything to begin
with and with arithmetic modulo 2^64.

The counter stays at 39 or below (`copyPieces_filled`), so the subtraction never wraps around, every
store is inside the buffer, and what is in front of the counter is the whole record cut at 39
bytes.  That is what `snprintf` leaves, so the two files are the same (`backup_equals_show`).
-/

namespace Kvs

/-! ## A record, piece by piece -/

/-- A number as a `size_t`. -/
def sizeT (n : ℤ) : ℕ := (n % (ulongMax + 1)).toNat

lemma sizeT_natCast {n : ℕ} (h : n ≤ ulongMax) : sizeT n = n := by
  simp only [ulongMax] at h
  simp only [sizeT, ulongMax]
  omega

/-- `strn_memcpy(dest + offset, src, n)`: the bytes of `src` before its terminator, `n` of them at
most, and how many. -/
def strnMemcpy (dest : List Byte) (offset : ℕ) (src : List Byte) (n : ℕ) :
    Except Fault (List Byte × ℕ) := do
  let dest ← storeAt dest offset (src.take n)
  pure (dest, (src.take n).length)

/-- The contents of a `char[MAX_STRING_SIZE]`. -/
abbrev AuxBuffer := { aux : List Byte // aux.length = maxStringSize }

/-- The locals of the loop. -/
structure RecordBuffer where
  aux : List Byte
  numBytesCopied : ℕ

namespace RecordBuffer

/-- `MAX_STRING_SIZE - num_bytes_copied - 1`. -/
def room (b : RecordBuffer) : ℕ := sizeT (maxStringSize - b.numBytesCopied - 1)

/-- `num_bytes_copied += strn_memcpy(aux + num_bytes_copied, src, …)`. -/
def copyPiece (b : RecordBuffer) (src : List Byte) : Except Fault RecordBuffer := do
  let (aux, copied) ← strnMemcpy b.aux b.numBytesCopied src b.room
  pure ⟨aux, sizeT (b.numBytesCopied + copied)⟩

/-- The copies, one after the other. -/
def copyPieces (b : RecordBuffer) : List (List Byte) → Except Fault RecordBuffer
  | [] => pure b
  | src :: pieces => do
      let b ← b.copyPiece src
      copyPieces b pieces

end RecordBuffer

/-- `aux[0] = '('`. -/
def startRecord (stale : AuxBuffer) : Except Fault RecordBuffer := do
  let aux ← storeAt stale.val 0 (text "(")
  pure ⟨aux, 1⟩

/-- What is copied behind it. -/
def recordPieces (keyNode : KeyNode) : List (List Byte) :=
  [keyNode.key.bytes, text ", ", keyNode.value.bytes, text ")\n"]

/-- The body of the loop: what `write_str` writes for a node. -/
def backupLine (stale : AuxBuffer) (keyNode : KeyNode) : Except Fault (List Byte) := do
  let b ← startRecord stale
  let b ← b.copyPieces (recordPieces keyNode)
  let aux ← storeAt b.aux b.numBytesCopied [0]
  let s ← readBuffer aux
  pure s.bytes

/-- The loop, with what the buffer holds at each node. -/
def backupLines (stale : ℕ → AuxBuffer) : ℕ → List KeyNode → Except Fault (List Byte)
  | _, [] => pure []
  | n, keyNode :: nodes => do
      let line ← backupLine (stale n) keyNode
      let rest ← backupLines stale (n + 1) nodes
      pure (line ++ rest)

/-- What the child writes to the backup file, chain by chain. -/
def HashTable.backupWrites (ht : HashTable) (stale : ℕ → AuxBuffer) : Except Fault (List Byte) :=
  backupLines stale 0 ((List.finRange tableSize).flatMap ht.table)

/-! ## One piece -/

/-- A buffer in which some bytes have been put, 39 at most. -/
def filled (stale : AuxBuffer) (copied : List Byte) : RecordBuffer where
  aux := storedIn stale.val copied
  numBytesCopied := copied.length

@[simp] lemma filled_aux (stale : AuxBuffer) (copied : List Byte) :
    (filled stale copied).aux = storedIn stale.val copied := rfl

@[simp] lemma filled_numBytesCopied (stale : AuxBuffer) (copied : List Byte) :
    (filled stale copied).numBytesCopied = copied.length := rfl

variable {stale : AuxBuffer} {copied : List Byte}

/-- The room that is left, as a number: nothing wraps around. -/
lemma filled_room (h : copied.length < maxStringSize) :
    (filled stale copied).room = maxStringSize - copied.length - 1 := by
  simp only [maxStringSize] at h
  simp only [RecordBuffer.room, filled, sizeT, maxStringSize, ulongMax]
  omega

lemma appendPiece_length_lt (h : copied.length < maxStringSize) (src : List Byte) :
    (HashTable.appendPiece copied src).length < maxStringSize := by
  simp only [HashTable.appendPiece, List.length_append, List.length_take]
  omega

/-- **One copy** stays inside the buffer. -/
lemma copyPiece_filled (h : copied.length < maxStringSize) (src : List Byte) :
    (filled stale copied).copyPiece src
      = .ok (filled stale (HashTable.appendPiece copied src)) := by
  have hlength := appendPiece_length_lt h src
  have hstore : storeAt (storedIn stale.val copied) copied.length
      (src.take (maxStringSize - copied.length - 1))
        = .ok (storedIn stale.val (HashTable.appendPiece copied src)) := by
    refine storeAt_storedIn ?_
    rw [stale.prop]
    exact hlength.le
  have hcount : sizeT (copied.length + (src.take (maxStringSize - copied.length - 1)).length)
      = (HashTable.appendPiece copied src).length := by
    have hle : (HashTable.appendPiece copied src).length ≤ ulongMax := by
      simp only [maxStringSize] at hlength
      simp only [ulongMax]
      omega
    rw [← sizeT_natCast hle, HashTable.appendPiece, List.length_append, Int.natCast_add]
  rw [RecordBuffer.copyPiece, filled_room h]
  simp only [strnMemcpy, filled, hstore, ok_bind, pure_eq_ok, hcount]

/-- **All copies**, by induction over the pieces. -/
lemma copyPieces_filled (stale : AuxBuffer) (h : copied.length < maxStringSize)
    (pieces : List (List Byte)) :
    (filled stale copied).copyPieces pieces
        = .ok (filled stale (pieces.foldl HashTable.appendPiece copied)) ∧
      (pieces.foldl HashTable.appendPiece copied).length < maxStringSize := by
  induction pieces generalizing copied with
  | nil => exact ⟨rfl, h⟩
  | cons src pieces ih =>
      obtain ⟨hrest, hlength⟩ := ih (appendPiece_length_lt h src)
      refine ⟨?_, hlength⟩
      simp only [RecordBuffer.copyPieces, copyPiece_filled h, ok_bind, hrest, List.foldl_cons]

lemma startRecord_eq (stale : AuxBuffer) :
    startRecord stale = .ok (filled stale (text "(")) := by
  have hstore : storeAt (storedIn stale.val []) ([] : List Byte).length (text "(")
      = .ok (storedIn stale.val ([] ++ text "(")) := by
    refine storeAt_storedIn ?_
    rw [stale.prop]
    decide
  rw [storedIn_nil] at hstore
  simp only [startRecord, List.length_nil] at hstore ⊢
  rw [hstore]
  rfl

/-! ## One cut -/

/-- A piece behind a text that was cut is the longer text, cut. -/
lemma appendPiece_cut (formatted src : List Byte) :
    HashTable.appendPiece (record formatted) src = record (formatted ++ src) := by
  simp only [HashTable.appendPiece, record, snprintf, maxStringSize, List.take_append,
    List.length_take]
  congr 2
  omega

lemma foldl_appendPiece (formatted : List Byte) (pieces : List (List Byte)) :
    pieces.foldl HashTable.appendPiece (record formatted) = record (formatted ++ pieces.flatten) := by
  induction pieces generalizing formatted with
  | nil => simp
  | cons src pieces ih =>
      rw [List.foldl_cons, appendPiece_cut, ih, List.flatten_cons, List.append_assoc]

/-- The pieces of a record make up the line of a `SHOW`. -/
lemma foldl_recordPieces (keyNode : KeyNode) :
    (recordPieces keyNode).foldl HashTable.appendPiece (text "(") = HashTable.showRecord keyNode := by
  have hfirst : record (text "(") = text "(" := by decide
  have hpieces := foldl_appendPiece (text "(") (recordPieces keyNode)
  rw [hfirst] at hpieces
  rw [hpieces]
  simp [recordPieces, HashTable.showRecord, showText]

/-- The record of `Operations.lean`, which says in one line what the copies come to. -/
lemma backupRecord_eq_showRecord (keyNode : KeyNode) :
    HashTable.backupRecord keyNode = HashTable.showRecord keyNode := foldl_recordPieces keyNode

/-- No NUL gets into a line. -/
lemma showRecord_nulFree (keyNode : KeyNode) : (0 : Byte) ∉ HashTable.showRecord keyNode := by
  intro h
  have hmem : (0 : Byte) ∈ showText keyNode.key keyNode.value := List.mem_of_mem_take h
  have htexts : (0 : Byte) ∉ text "(" ∧ (0 : Byte) ∉ text ", " ∧ (0 : Byte) ∉ text ")\n" := by
    decide
  simp only [showText, List.mem_append] at hmem
  rcases hmem with (((hmem | hmem) | hmem) | hmem) | hmem
  · exact htexts.1 hmem
  · exact keyNode.key.nulFree hmem
  · exact htexts.2.1 hmem
  · exact keyNode.value.nulFree hmem
  · exact htexts.2.2 hmem

/-- **A line of the backup** is a line of the `SHOW`: the terminator goes behind the copied bytes,
and `write_str` stops there. -/
lemma backupLine_eq (stale : AuxBuffer) (keyNode : KeyNode) :
    backupLine stale keyNode = .ok (HashTable.showRecord keyNode) := by
  have hstart : (text "(").length < maxStringSize := by decide
  obtain ⟨hcopies, hlength⟩ := copyPieces_filled stale hstart (recordPieces keyNode)
  rw [foldl_recordPieces] at hcopies hlength
  set line := HashTable.showRecord keyNode with hline
  have hterminate : storeAt (storedIn stale.val line) line.length [0]
      = .ok (storedIn stale.val (line ++ [0])) := by
    refine storeAt_storedIn ?_
    rw [stale.prop, List.length_append]
    exact hlength
  have hread : readBuffer (storedIn stale.val (line ++ [0]))
      = .ok ⟨line, showRecord_nulFree keyNode⟩ := by
    rw [readBuffer, if_pos (by simp [storedIn])]
    have hstored : storedIn stale.val (line ++ [0])
        = line ++ 0 :: stale.val.drop (line ++ [0]).length := by simp [storedIn]
    rw [hstored]
    exact congrArg Except.ok (CString.ofBuffer_append_nul ⟨line, showRecord_nulFree keyNode⟩ _)
  simp only [backupLine, startRecord_eq, ok_bind, hcopies, filled_aux, filled_numBytesCopied,
    hterminate, hread, pure_eq_ok]

/-- All lines, by induction over the nodes. -/
lemma backupLines_eq (stale : ℕ → AuxBuffer) (n : ℕ) (nodes : List KeyNode) :
    backupLines stale n nodes = .ok (nodes.flatMap HashTable.showRecord) := by
  induction nodes generalizing n with
  | nil => rfl
  | cons keyNode nodes ih =>
      simp only [backupLines, backupLine_eq, ok_bind, ih, pure_eq_ok, List.flatMap_cons]

/-! ## Whole files -/

/-- **A backup equals a `SHOW`.**  For every table, with keys and values of any length, and whatever
is in the buffer to begin with: the child writes what `kvs_show` writes, which is also the contents
that a backup of a job has.  And at each point of the copying of a record, in front of any of the
four pieces and behind the last, the counter is 39 at most and the room is what the subtraction says
as a number. -/
theorem backup_equals_show (stale : ℕ → AuxBuffer) (ht : HashTable) :
    ht.backupWrites stale = .ok ht.kvsShow ∧ ht.backupBytes = ht.kvsShow ∧
      ∀ (keyNode : KeyNode) (n k : ℕ), ∃ b b', startRecord (stale n) = .ok b ∧
        b.copyPieces ((recordPieces keyNode).take k) = .ok b' ∧ b'.numBytesCopied ≤ 39 ∧
          (b'.room : ℤ) = maxStringSize - b'.numBytesCopied - 1 := by
  refine ⟨?_, ?_, ?_⟩
  · rw [HashTable.backupWrites, backupLines_eq, List.flatMap_assoc]
    rfl
  · have hrecord : HashTable.backupRecord = HashTable.showRecord :=
      funext backupRecord_eq_showRecord
    rw [HashTable.backupBytes, hrecord]
    rfl
  · intro keyNode n k
    have hstart : (text "(").length < maxStringSize := by decide
    obtain ⟨hcopies, hlength⟩ :=
      copyPieces_filled (stale n) hstart ((recordPieces keyNode).take k)
    refine ⟨_, _, startRecord_eq (stale n), hcopies, Nat.le_of_lt_succ hlength, ?_⟩
    rw [filled_room hlength, filled_numBytesCopied]
    omega

end Kvs
