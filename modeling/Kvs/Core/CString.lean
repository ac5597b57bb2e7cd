import Mathlib.Data.List.TakeWhile
import Mathlib.Tactic.Common

/-!
# Bytes, C strings and the bounded copies

What a C program does to memory is either defined or it is not.  `Fault` names the ways in which
it is not — a store outside its object, a read through a null or stale pointer, an index outside
an array, a loop that never ends — and every fallible operation of the development returns in
`Except Fault`, so that a result `.ok` says that none of them happened.

* `CString` — a byte string with no NUL in it.  A `char` buffer *read as a string* is
  `CString.ofBuffer`: the bytes before the first NUL.
* `CString.Fits` and `Row` — a string that has room, terminator included, in a buffer of a given
  size.  `strcpy` is the only way to make one, and it faults on what does not fit.
* `sprintf`, `snprintf`, `strncpy` — the formatted and the bounded copies.  `sprintf` trusts its
  caller and faults past the end of the buffer; `snprintf` cuts one byte short of it.
-/

namespace Kvs

/-! ## Undefined behaviour -/

/-- The ways in which a C program leaves the behaviour the language defines. -/
inductive Fault where
  | nullDeref
  | wildPointer
  | outOfBounds
  | badIndex
  | diverged
  deriving DecidableEq, Repr

section Sequencing

variable {α β : Type}

@[simp] lemma ok_bind (a : α) (f : α → Except Fault β) : (Except.ok a >>= f) = f a := rfl

@[simp] lemma error_bind (e : Fault) (f : α → Except Fault β) :
    (Except.error e >>= f) = .error e := rfl

@[simp] lemma pure_eq_ok (a : α) : (pure a : Except Fault α) = .ok a := rfl

/-- A sequence of operations that ends well began well. -/
lemma bind_eq_ok {x : Except Fault α} {f : α → Except Fault β} {b : β} :
    x >>= f = .ok b ↔ ∃ a, x = .ok a ∧ f a = .ok b := by
  cases x <;> simp

end Sequencing

/-! ## Bytes and strings -/

/-- A `char`.  Its sign is never looked at: every comparison of the source is with an ASCII
constant, and bytes from 128 on fall outside each of its ranges whichever way they are read. -/
abbrev Byte := UInt8

/-- The bytes of a string constant of the source. -/
def text (s : String) : List Byte := s.toList.map Char.toUInt8

/-- A character constant of the source. -/
abbrev char (c : Char) : Byte := c.toUInt8

/-- A string as `strcmp` sees it: bytes without a NUL among them. -/
structure CString where
  bytes : List Byte
  nulFree : (0 : Byte) ∉ bytes
  deriving DecidableEq

namespace CString

@[ext] theorem ext {s t : CString} (h : s.bytes = t.bytes) : s = t := by
  cases s
  cases t
  simpa using h

/-- `strlen`. -/
def length (s : CString) : ℕ := s.bytes.length

/-- A buffer read as a string: the bytes before the first NUL. -/
def ofBuffer (buffer : List Byte) : CString where
  bytes := buffer.takeWhile (· ≠ 0)
  nulFree := fun h => by simpa using List.mem_takeWhile_imp h

/-- A string constant of the source. -/
def lit (s : String) : CString := ofBuffer (text s)

/-- The first byte, the terminator for the empty string. -/
def first (s : CString) : Byte := s.bytes.headD 0

lemma ofBuffer_bytes_of_nulFree {buffer : List Byte} (h : (0 : Byte) ∉ buffer) :
    (ofBuffer buffer).bytes = buffer := by
  refine List.takeWhile_eq_self_iff.mpr fun b hb => ?_
  simpa using fun h0 : b = 0 => h (h0 ▸ hb)

/-- A terminated string is read back whole, whatever stands in the buffer behind it. -/
lemma ofBuffer_append_nul (s : CString) (stale : List Byte) :
    ofBuffer (s.bytes ++ 0 :: stale) = s := by
  refine CString.ext ?_
  have hs : s.bytes.takeWhile (fun b => decide (b ≠ 0)) = s.bytes :=
    ofBuffer_bytes_of_nulFree s.nulFree
  show (s.bytes ++ 0 :: stale).takeWhile (fun b => decide (b ≠ 0)) = s.bytes
  rw [List.takeWhile_append, hs]
  simp

lemma ofBuffer_bytes (s : CString) : ofBuffer s.bytes = s :=
  CString.ext (ofBuffer_bytes_of_nulFree s.nulFree)

/-- A string starts as its buffer does. -/
lemma ofBuffer_first (buffer : List Byte) : (ofBuffer buffer).first = buffer.headD 0 := by
  show (buffer.takeWhile (· ≠ 0)).headD 0 = buffer.headD 0
  cases buffer with
  | nil => rfl
  | cons c buffer =>
      by_cases hc : c = 0
      · simp [hc]
      · simp [hc]

lemma ofBuffer_length_le (buffer : List Byte) : (ofBuffer buffer).length ≤ buffer.length :=
  (List.takeWhile_prefix _).length_le

/-- One string behind the other. -/
instance : Append CString where
  append s t := ⟨s.bytes ++ t.bytes, fun h => (List.mem_append.mp h).elim s.nulFree t.nulFree⟩

@[simp] lemma bytes_append (s t : CString) : (s ++ t).bytes = s.bytes ++ t.bytes := rfl

lemma length_append (s t : CString) : (s ++ t).length = s.length + t.length :=
  List.length_append

/-- Room for the string and its terminator in a buffer of `size` bytes. -/
def Fits (size : ℕ) (s : CString) : Prop := s.length < size

instance (size : ℕ) (s : CString) : Decidable (s.Fits size) :=
  inferInstanceAs (Decidable (s.length < size))

end CString

/-- The contents of a `char[size]` that holds a string. -/
abbrev Row (size : ℕ) := { s : CString // s.Fits size }

/-- The bytes of such an array that was all zero before the string was put there. -/
def Row.contents {size : ℕ} (row : Row size) : List Byte :=
  row.val.bytes ++ List.replicate (size - row.val.length) 0

/-- A `char` array used as a string.  Without a terminator in it the reading goes on behind it. -/
def readBuffer (buffer : List Byte) : Except Fault CString :=
  if 0 ∈ buffer then .ok (.ofBuffer buffer) else .error .outOfBounds

/-! ## The bounded copies -/

/-- `strcpy` into a `char[size]`: a fault when the terminator falls outside. -/
def strcpy (size : ℕ) (src : CString) : Except Fault (Row size) :=
  if h : src.Fits size then .ok ⟨src, h⟩ else .error .outOfBounds

/-- `strcat` behind the string in a `char[size]`. -/
def strcat (size : ℕ) (dest src : CString) : Except Fault (Row size) :=
  if h : (dest ++ src).Fits size then .ok ⟨dest ++ src, h⟩ else .error .outOfBounds

/-- `sprintf` into a `char[size]`, given the formatted bytes. -/
def sprintf (size : ℕ) (formatted : List Byte) : Except Fault (List Byte) :=
  if formatted.length < size then .ok formatted else .error .outOfBounds

/-- `snprintf` into a `char[size]`, given the formatted bytes. -/
def snprintf (size : ℕ) (formatted : List Byte) : List Byte := formatted.take (size - 1)

/-- The `size` bytes that `strncpy(dest, src, size)` stores: the string cut at `size`, filled up
with NULs when it is shorter.  No terminator when it is not. -/
def strncpy (size : ℕ) (src : CString) : List Byte :=
  src.bytes.take size ++ List.replicate (size - src.length) 0

lemma strcpy_of_fits {size : ℕ} {src : CString} (h : src.Fits size) :
    strcpy size src = .ok ⟨src, h⟩ := dif_pos h

lemma strcat_of_fits {size : ℕ} {dest src : CString} (h : (dest ++ src).Fits size) :
    strcat size dest src = .ok ⟨dest ++ src, h⟩ := dif_pos h

lemma sprintf_of_lt {size : ℕ} {formatted : List Byte} (h : formatted.length < size) :
    sprintf size formatted = .ok formatted := if_pos h

lemma sprintf_of_le {size : ℕ} {formatted : List Byte} (h : size ≤ formatted.length) :
    sprintf size formatted = .error .outOfBounds := if_neg (by omega)

/-- A name shorter than the field survives the copy. -/
lemma ofBuffer_strncpy {size : ℕ} {src : CString} (h : src.Fits size) :
    CString.ofBuffer (strncpy size src) = src := by
  have hlt : src.bytes.length < size := h
  obtain ⟨n, hn⟩ : ∃ n, size - src.length = n + 1 := ⟨size - src.length - 1, by
    simp only [CString.length]; omega⟩
  rw [strncpy, List.take_of_length_le (by omega), hn, List.replicate_succ]
  exact CString.ofBuffer_append_nul src _

/-- A name that fits its field is read back from it. -/
lemma readBuffer_strncpy {size : ℕ} {src : CString} (h : src.Fits size) :
    readBuffer (strncpy size src) = .ok src := by
  have hlt : src.length < size := h
  have hmem : (0 : Byte) ∈ strncpy size src := by
    rw [strncpy, List.mem_append, List.mem_replicate]
    right
    exact ⟨by omega, rfl⟩
  rw [readBuffer, if_pos hmem, ofBuffer_strncpy h]

/-- A name that fills its field runs on behind it. -/
lemma readBuffer_strncpy_of_not_fits {size : ℕ} {src : CString} (h : ¬ src.Fits size) :
    readBuffer (strncpy size src) = .error .outOfBounds := by
  have hle : size ≤ src.length := Nat.le_of_not_lt h
  have hmem : (0 : Byte) ∉ strncpy size src := by
    rw [strncpy, Nat.sub_eq_zero_of_le hle, List.replicate_zero, List.append_nil]
    intro hzero
    exact src.nulFree (List.mem_of_mem_take hzero)
  rw [readBuffer, if_neg hmem]

/-- A name survives in a field exactly if its terminator does. -/
lemma readBuffer_strncpy_iff {size : ℕ} {src : CString} :
    readBuffer (strncpy size src) = .ok src ↔ src.Fits size := by
  constructor
  · intro h
    by_contra hfits
    rw [readBuffer_strncpy_of_not_fits hfits] at h
    cases h
  · exact readBuffer_strncpy

end Kvs
