import Kvs.Core.CString

/-!
# Constants shared by client and server

`src/common/constants.h` and the bounds of `src/server/constants.h`.
-/

namespace Kvs

/-- Sessions served at once, and the capacity of the queue of waiting clients. -/
def maxSessionCount : ℕ := 8

/-- Size of a key or value buffer, terminator included. -/
def maxStringSize : ℕ := 40

/-- Pairs a `WRITE` may be given; the parsers stop one short of it. -/
def maxWriteSize : ℕ := 256

/-- Size of a path buffer for the files of a job. -/
def maxJobFileNameSize : ℕ := 256

/-- Width of a path field of the connect message, and of a path buffer in the queue. -/
def maxPipePathLength : ℕ := 40

/-- `UINT_MAX`. -/
def uintMax : ℕ := 4294967295

/-- `ULONG_MAX`. -/
def ulongMax : ℕ := 18446744073709551615

/-- The contents of a `char[MAX_STRING_SIZE]` holding a key or a value. -/
abbrev Str := Row maxStringSize

/-- A short string constant in such a buffer. -/
def Str.lit (s : String) (h : (CString.lit s).Fits maxStringSize := by decide) : Str :=
  ⟨.lit s, h⟩

end Kvs
