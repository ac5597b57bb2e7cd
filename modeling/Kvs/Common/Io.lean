import Kvs.Core.CString

/-!
# Reading from a FIFO and writing to one

`read_all` of `src/common/io.c`, one `read` at a time, so that writers can come, write and go in
between.  A `read` returns what is there, up to the count asked for, possibly less; nothing when the
FIFO is empty and no writer has it open; and it waits when it is empty and one has.  `read_all`
stores what it gets behind what it has, and returns 1 with the last byte it was asked for or 0 when
a `read` returns nothing.

Signals are left out: no `read` is interrupted or fails, so the third result, -1, is not returned.
Of a `write_all` there is only what it sends when it returns 1; `Transfers.lean` has both functions with
everything that can happen to them.
-/

namespace Kvs

/-- Bytes written and not read, the writers that have the FIFO open, and whether any ever had. -/
structure Fifo where
  pending : List Byte
  writers : ℕ
  met : Bool

namespace Fifo

/-- `open` for writing. -/
def openWriter (fifo : Fifo) : Fifo := { fifo with writers := fifo.writers + 1, met := true }

/-- `close` by a writer. -/
def closeWriter (fifo : Fifo) : Fifo := { fifo with writers := fifo.writers - 1 }

/-- A write that is short enough to be atomic. -/
def write (fifo : Fifo) (bytes : List Byte) : Fifo :=
  { fifo with pending := fifo.pending ++ bytes }

/-- What a `read` of `count` bytes can return, and the FIFO after it. -/
inductive Read : Fifo → ℕ → List Byte → Fifo → Prop
  | data {fifo count} (n : ℕ) : 0 < n → n ≤ count → n ≤ fifo.pending.length →
      Read fifo count (fifo.pending.take n) { fifo with pending := fifo.pending.drop n }
  | endOfFile {fifo count} : fifo.pending = [] → fifo.writers = 0 → Read fifo count [] fifo

/-- A read takes from the front. -/
lemma Read.pending {fifo fifo' : Fifo} {count : ℕ} {data : List Byte}
    (h : Read fifo count data fifo') : fifo.pending = data ++ fifo'.pending := by
  cases h with
  | data n hpos hcount hlength => exact (List.take_append_drop n _).symm
  | endOfFile hempty hwriters => exact (List.nil_append _).symm

/-- What is read is not empty when there is something to read. -/
lemma take_ne_nil {fifo : Fifo} {n : ℕ} (hpos : 0 < n) (hlength : n ≤ fifo.pending.length) :
    fifo.pending.take n ≠ [] := by
  rw [Ne, ← List.length_eq_zero_iff, List.length_take]
  omega

end Fifo

/-! ## `write_all` -/

/-- The bytes that `write_all(fd, buffer, size)` sends. -/
def writeAll (buffer : List Byte) (size : ℕ) : List Byte := buffer.take size

/-! ## Storing -/

/-- A store of some bytes at an offset of a buffer. -/
def storeAt (buffer : List Byte) (offset : ℕ) (data : List Byte) : Except Fault (List Byte) :=
  if offset + data.length ≤ buffer.length then
    .ok (buffer.take offset ++ data ++ buffer.drop (offset + data.length))
  else .error .outOfBounds

lemma storeAt_of_lt {buffer data : List Byte} {offset : ℕ}
    (h : buffer.length < offset + data.length) :
    storeAt buffer offset data = .error .outOfBounds := if_neg (by omega)

/-- A store that fits keeps the buffer's size and what stands before it. -/
lemma storeAt_of_le {buffer data : List Byte} {offset : ℕ}
    (h : offset + data.length ≤ buffer.length) :
    ∃ buffer', storeAt buffer offset data = .ok buffer' ∧ buffer'.length = buffer.length ∧
      buffer'.take (offset + data.length) = buffer.take offset ++ data := by
  have htake : (buffer.take offset).length = offset := by
    rw [List.length_take]
    omega
  refine ⟨_, if_pos h, ?_, ?_⟩
  · rw [List.length_append, List.length_append, htake, List.length_drop]
    omega
  · rw [List.take_left' (by rw [List.length_append, htake])]

/-! ## `read_all` -/

/-- `read_all` in its loop, or with its result. -/
inductive ReadAll where
  | Reading (bytesRead : ℕ)
  | Returned (result : ℤ)
  deriving DecidableEq

/-- The rest of an iteration, once `read` has returned. -/
def readAllStep (size : ℕ) (buffer : List Byte) (bytesRead : ℕ) (data : List Byte) :
    Except Fault (List Byte × ReadAll) :=
  if data = [] then pure (buffer, .Returned 0)
  else do
    let buffer ← storeAt buffer bytesRead data
    let bytesRead := bytesRead + data.length
    pure (buffer, if bytesRead < size then .Reading bytesRead else .Returned 1)

@[simp] lemma readAllStep_nil (size : ℕ) (buffer : List Byte) (bytesRead : ℕ) :
    readAllStep size buffer bytesRead [] = .ok (buffer, .Returned 0) := rfl

end Kvs
