import Kvs.Common.Constants

/-!
# The job parser

`src/server/parser.c`, over the bytes of a job file that are still to be read.  The file offset is
the only state the parser has: a function that consumes one byte too many takes it away from
whatever is parsed next.

Three outcomes are told apart everywhere: a command is *accepted*, it is *rejected* and the line
is skipped with `cleanup`, or the parser stores outside a buffer and nothing is said about what
follows (`Fault.outOfBounds`).  The last happens in two places: `readString` writes its terminator
behind the buffer when no delimiter shows up in time, and `readUint` has room for fifteen digits
and checks nothing.
-/

namespace Kvs

/-- The bytes of a job file still to be read. -/
abbrev Input := List Byte

inductive Command where
  | CmdWrite
  | CmdRead
  | CmdDelete
  | CmdShow
  | CmdWait
  | CmdBackup
  | CmdHelp
  | CmdEmpty
  | CmdInvalid
  | Eoc
  deriving DecidableEq, Repr

/-! ## Strings and numbers -/

/-- `while (i < max)` of `read_string`, with the characters stored so far.  The result is the
delimiter met (0 for a comma, 1 for a parenthesis, 2 for a bracket, -1 for none), the characters
and the rest of the input. -/
def readStringLoop (max : ℕ) : List Byte → Input → Except Fault (ℤ × List Byte × Input)
  | buffer, [] => if buffer.length < max then .ok (-1, buffer, []) else .error .outOfBounds
  | buffer, ch :: input =>
      if buffer.length < max then
        if ch = char ' ' then .ok (-1, buffer, input)
        else if ch = char ',' then .ok (0, buffer, input)
        else if ch = char ')' then .ok (1, buffer, input)
        else if ch = char ']' then .ok (2, buffer, input)
        else readStringLoop max (buffer ++ [ch]) input
      else .error .outOfBounds

/-- `read_string` into a `char[max]`.  The loop that runs to `max` stores the terminator at
`buffer[max]`. -/
def readString (max : ℕ) (input : Input) : Except Fault (ℤ × List Byte × Input) :=
  readStringLoop max [] input

/-- A byte that `read_uint` takes for a digit. -/
def isDigit (c : Byte) : Bool := char '0' ≤ c ∧ c ≤ char '9'

/-- Size of the digit buffer of `read_uint`. -/
def uintBufferSize : ℕ := 16

/-- `while (1)` of `read_uint`: the digits stored, the byte that ended them (none at end of file)
and the rest of the input. -/
def readUintLoop : List Byte → Input → Except Fault (List Byte × Option Byte × Input)
  | digits, [] => .ok (digits, none, [])
  | digits, ch :: input =>
      if digits.length < uintBufferSize then
        if isDigit ch then readUintLoop (digits ++ [ch]) input
        else .ok (digits, some ch, input)
      else .error .outOfBounds

/-- A byte that `strtoul` skips in front of a number. -/
def isSpace (c : Byte) : Bool := c = char ' ' ∨ (9 ≤ c.toNat ∧ c.toNat ≤ 13)

/-- The digits `strtoul` converts, up to the first byte that is none. -/
def strtoulDigits (value : ℕ) : List Byte → Except Fault ℕ
  | [] => .error .outOfBounds
  | c :: buf => if isDigit c then strtoulDigits (10 * value + (c.toNat - 48)) buf else .ok value

/-- `strtoul(buf, NULL, 10)`: leading space, a sign, digits; saturated at `ULONG_MAX`.  A buffer
in which nothing stops the conversion is read past its end. -/
def strtoul (buf : List Byte) : Except Fault ℕ :=
  match buf.dropWhile isSpace with
  | [] => .error .outOfBounds
  | c :: rest =>
      if c = char '-' then do
        let value ← strtoulDigits 0 rest
        pure (if value > ulongMax then ulongMax else (ulongMax + 1 - value) % (ulongMax + 1))
      else do
        let value ← strtoulDigits 0 (if c = char '+' then rest else c :: rest)
        pure (min value ulongMax)

/-- `read_uint`, given the bytes its buffer holds to begin with: the value unless it is too large,
the byte after the number (NUL at end of file) and the rest of the input.  At end of file the
digits are left without a terminator. -/
def readUint (stale : List Byte) (input : Input) : Except Fault (Option ℕ × Byte × Input) := do
  let (digits, stop, input) ← readUintLoop [] input
  let buf := match stop with
    | none => digits ++ stale.drop digits.length
    | some _ => digits ++ 0 :: stale.drop (digits.length + 1)
  let ul ← strtoul buf
  pure (if ul > uintMax then none else some ul, stop.getD 0, input)

/-! ## Commands -/

/-- `cleanup`: everything up to and including the next newline. -/
def cleanup : Input → Input
  | [] => []
  | ch :: input => if ch = char '\n' then input else cleanup input

/-- A keyword read in one piece and compared. -/
def keyword (word : List Byte) (next : Input → Command × Input) (input : Input) :
    Command × Input :=
  if input.take word.length = word then next (input.drop word.length)
  else (.CmdInvalid, cleanup (input.drop word.length))

/-- A command without arguments is followed by a newline or by the end of the file. -/
def bare (command : Command) : Input → Command × Input
  | [] => (command, [])
  | ch :: input => if ch = char '\n' then (command, input) else (.CmdInvalid, cleanup input)

lemma bare_fst (command : Command) (input : Input) :
    (bare command input).1 = command ∨ (bare command input).1 = .CmdInvalid := by
  cases input with
  | nil => exact Or.inl rfl
  | cons ch input =>
      rw [bare]
      split_ifs
      · exact Or.inl rfl
      · exact Or.inr rfl

/-- `get_next`.  `WAIT ` and `WRITE ` share the first read: what is not the one is read one byte
further and compared with the other. -/
def getNext : Input → Command × Input
  | [] => (.Eoc, [])
  | ch :: input =>
      if ch = char 'W' then
        if (ch :: input).take 5 = text "WAIT " then (.CmdWait, input.drop 4)
        else keyword (text "WRITE ") (fun input => (.CmdWrite, input)) (ch :: input)
      else if ch = char 'R' then
        keyword (text "READ ") (fun input => (.CmdRead, input)) (ch :: input)
      else if ch = char 'D' then
        keyword (text "DELETE ") (fun input => (.CmdDelete, input)) (ch :: input)
      else if ch = char 'S' then keyword (text "SHOW") (bare .CmdShow) (ch :: input)
      else if ch = char 'B' then keyword (text "BACKUP") (bare .CmdBackup) (ch :: input)
      else if ch = char 'H' then keyword (text "HELP") (bare .CmdHelp) (ch :: input)
      else if ch = char '#' then (.CmdEmpty, cleanup input)
      else if ch = char '\n' then (.CmdEmpty, input)
      else (.CmdInvalid, cleanup input)

/-- `parse_pair`: a rejected pair has its line skipped here. -/
def parsePair (input : Input) : Except Fault (Option (CString × CString) × Input) := do
  let (output, key, input) ← readString maxStringSize input
  if output ≠ 0 then pure (none, cleanup input)
  else do
    let (output, value, input) ← readString maxStringSize input
    if output ≠ 1 then pure (none, cleanup input)
    else pure (some (.ofBuffer key, .ofBuffer value), input)

/-- `while (num_pairs < max_pairs)` of `parse_write`, with the room left in the arrays: the pairs,
unless the command is rejected on the way. -/
def parseWriteLoop : ℕ → Input → Except Fault (Option (List (Str × Str)) × Input)
  | 0, input => pure (some [], input)
  | room + 1, input => do
      let (pair, input) ← parsePair input
      match pair with
      | none => pure (none, cleanup input)
      | some (key, value) => do
          let key ← strcpy maxStringSize key
          let value ← strcpy maxStringSize value
          match input with
          | [] => pure (none, [])
          | ch :: input =>
              if ch = char ']' then pure (some [(key, value)], input)
              else if ch = char '(' then do
                let (pairs, input) ← parseWriteLoop room input
                pure (pairs.map fun pairs => (key, value) :: pairs, input)
              else pure (none, cleanup input)

/-- The end of a list command: the array must have room left, and the line must end here.  The
items are dropped otherwise, which is how the parsers return 0. -/
def endOfList {α : Type} (maxItems : ℕ) (items : List α) (input : Input) : List α × Input :=
  if items.length = maxItems then ([], cleanup input)
  else match input with
    | [] => ([], [])
    | ch :: input =>
        if ch = char '\n' ∨ ch = 0 then (items, input) else ([], cleanup input)

/-- `parse_write`; an empty list is the return value 0. -/
def parseWrite (maxPairs : ℕ) : Input → Except Fault (List (Str × Str) × Input)
  | [] => pure ([], [])
  | ch :: input =>
      if ch ≠ char '[' then pure ([], cleanup input)
      else match input with
        | [] => pure ([], [])
        | ch :: input =>
            if ch ≠ char '(' then pure ([], cleanup input)
            else do
              let (pairs, input) ← parseWriteLoop maxPairs input
              match pairs with
              | none => pure ([], input)
              | some pairs => pure (endOfList maxPairs pairs input)

/-- `while (num_keys < max_keys)` of `parse_read_delete`. -/
def parseKeysLoop : ℕ → Input → Except Fault (Option (List Str) × Input)
  | 0, input => pure (some [], input)
  | room + 1, input => do
      let (output, key, input) ← readString maxStringSize input
      if output < 0 ∨ output = 1 then pure (none, cleanup input)
      else do
        let key ← strcpy maxStringSize (.ofBuffer key)
        if output = 2 then pure (some [key], input)
        else do
          let (keys, input) ← parseKeysLoop room input
          pure (keys.map fun keys => key :: keys, input)

/-- `parse_read_delete`; an empty list is the return value 0. -/
def parseReadDelete (maxKeys : ℕ) : Input → Except Fault (List Str × Input)
  | [] => pure ([], [])
  | ch :: input =>
      if ch ≠ char '[' then pure ([], cleanup input)
      else do
        let (keys, input) ← parseKeysLoop maxKeys input
        match keys with
        | none => pure ([], input)
        | some keys => pure (endOfList maxKeys keys input)

/-- `parse_wait`, given what the digit buffer holds at each of its two uses and whether a thread
identifier is asked for: the status, the delay and the identifier. -/
def parseWait (stale stale' : List Byte) (threadId : Bool) (input : Input) :
    Except Fault (ℤ × Option ℕ × Option ℕ × Input) := do
  let (delay, ch, input) ← readUint stale input
  if delay = none then pure (-1, none, none, cleanup input)
  else if ch = char ' ' then
    if threadId = false then pure (0, delay, none, cleanup input)
    else do
      let (thread, ch, input) ← readUint stale' input
      if thread = none ∨ (ch ≠ char '\n' ∧ ch ≠ 0) then pure (-1, delay, thread, cleanup input)
      else pure (1, delay, thread, input)
  else if ch = char '\n' ∨ ch = 0 then pure (0, delay, none, input)
  else pure (-1, delay, none, cleanup input)

end Kvs
