import Kvs.Server.Parser

/-!
# The client's parser

The arguments of the client's commands, from `src/client/parser.c`, over the bytes of its standard
input that are still to be read.  The file starts with copies of the server's `read_string`,
`read_uint` and `cleanup`, the same to the letter, so `readString`, `readUint` and `cleanup` stand
for them here.  The two parsers behind them are not copies:

* `parse_list` is `parse_read_delete`, with another test behind the loop;
* `parse_delay` is `parse_wait`, with no test at all.
-/

namespace Kvs

/-- `while (num_keys < max_keys)` of `parse_list`, with the room left in the array and the value
`output` has: the keys and the last `output`, unless the command is rejected on the way. -/
def parseListLoop : ℕ → ℤ → Input → Except Fault (Option (List Str × ℤ) × Input)
  | 0, output, input => pure (some ([], output), input)
  | room + 1, _, input => do
      let (output, key, input) ← readString maxStringSize input
      if output < 0 ∨ output = 1 then pure (none, cleanup input)
      else do
        let key ← strcpy maxStringSize (.ofBuffer key)
        if output = 2 then pure (some ([key], output), input)
        else do
          let (list, input) ← parseListLoop room output input
          pure (list.map fun (keys, output) => (key :: keys, output), input)

/-- `parse_list`; an empty list is the return value 0. -/
def parseList (maxKeys : ℕ) : Input → Except Fault (List Str × Input)
  | [] => pure ([], [])
  | ch :: input =>
      if ch ≠ char '[' then pure ([], cleanup input)
      else do
        let (list, input) ← parseListLoop maxKeys 2 input
        match list with
        | none => pure ([], input)
        | some (keys, output) =>
            -- an array that is full is given back when the bracket was met all the same
            if keys.length = maxKeys ∧ output ≠ 2 then pure ([], cleanup input)
            else match input with
              | [] => pure ([], [])
              | ch :: input =>
                  if ch = char '\n' ∨ ch = 0 then pure (keys, input) else pure ([], cleanup input)

/-- `parse_delay`, given what the digit buffer holds: the status and the delay.  The byte that
ended the number is not looked at. -/
def parseDelay (stale : List Byte) (input : Input) : Except Fault (ℤ × Option ℕ × Input) := do
  let (delay, _, input) ← readUint stale input
  if delay = none then pure (-1, none, cleanup input) else pure (0, delay, input)

end Kvs
