import Kvs.Server.ListGrammar
import Kvs.Server.Representation

/-!
# The lines of a job file

`Line` is the syntax the `HELP` text describes, as data: a command with its items, a comment, an
empty line.  `Line.render` writes a line down, `Line.WellFormed` is what a line must satisfy to be
read back, and `readCommand_render` is the round trip: in front of a rendered line `readCommand`
returns its command and stops right behind its newline, whatever follows.

The lists of a line are lists of the grammar in `ListGrammar.lean`, item by item, and what the parsers
make of them is known from there.
-/

namespace Kvs

/-! ## Syntax -/

/-- A line of a job file.  The delay of a `WAIT` is kept as it is written, leading zeros and all. -/
inductive Line where
  | Write (pairs : List (Str × Str))
  | Read (keys : List Str)
  | Delete (keys : List Str)
  | Show
  | Wait (digits : List Byte)
  | Backup
  | Help
  | Comment (bytes : List Byte)
  | Empty
  deriving DecidableEq

/-- A key or a value that can be written between delimiters on a line. -/
def Str.Token (s : Str) : Prop := Plain s.val.bytes ∧ char '\n' ∉ s.val.bytes

instance (s : Str) : Decidable s.Token :=
  inferInstanceAs (Decidable (Plain s.val.bytes ∧ char '\n' ∉ s.val.bytes))

/-- A key: a token the table has a chain for. -/
def Str.Key (s : Str) : Prop := s.Token ∧ s.val.StartsAlnum

instance (s : Str) : Decidable s.Key := inferInstanceAs (Decidable (s.Token ∧ s.val.StartsAlnum))

/-- Between 1 and 255 items. -/
def ItemCount {α : Type} (items : List α) : Prop := items ≠ [] ∧ items.length < maxWriteSize

instance {α : Type} [DecidableEq α] (items : List α) : Decidable (ItemCount items) :=
  inferInstanceAs (Decidable (items ≠ [] ∧ items.length < maxWriteSize))

namespace Line

def WellFormed : Line → Prop
  | Write pairs => ItemCount pairs ∧ ∀ p ∈ pairs, p.1.Key ∧ p.2.Token
  | Read keys => ItemCount keys ∧ ∀ key ∈ keys, key.Key
  | Delete keys => ItemCount keys ∧ ∀ key ∈ keys, key.Key
  | Show => True
  | Wait digits => digits ≠ [] ∧ Digits digits ∧ digits.length < uintBufferSize ∧
      decimal digits ≤ uintMax
  | Backup => True
  | Help => True
  | Comment bytes => char '\n' ∉ bytes
  | Empty => True

instance : ∀ line : Line, Decidable line.WellFormed
  | Write pairs => inferInstanceAs (Decidable (ItemCount pairs ∧ ∀ p ∈ pairs, p.1.Key ∧ p.2.Token))
  | Read keys => inferInstanceAs (Decidable (ItemCount keys ∧ ∀ key ∈ keys, key.Key))
  | Delete keys => inferInstanceAs (Decidable (ItemCount keys ∧ ∀ key ∈ keys, key.Key))
  | Show => inferInstanceAs (Decidable True)
  | Wait digits => inferInstanceAs (Decidable (digits ≠ [] ∧ Digits digits ∧
      digits.length < uintBufferSize ∧ decimal digits ≤ uintMax))
  | Backup => inferInstanceAs (Decidable True)
  | Help => inferInstanceAs (Decidable True)
  | Comment bytes => inferInstanceAs (Decidable (char '\n' ∉ bytes))
  | Empty => inferInstanceAs (Decidable True)

/-- The keys of a list, separated by commas. -/
def keysText : List Str → List Byte
  | [] => []
  | [key] => key.val.bytes
  | key :: keys => key.val.bytes ++ char ',' :: keysText keys

/-- The bytes of a line, newline included. -/
def render : Line → List Byte
  | Write pairs => text "WRITE [" ++ pairs.flatMap (fun p => pairText p.1.val p.2.val) ++ text "]\n"
  | Read keys => text "READ [" ++ keysText keys ++ text "]\n"
  | Delete keys => text "DELETE [" ++ keysText keys ++ text "]\n"
  | Show => text "SHOW\n"
  | Wait digits => text "WAIT " ++ digits ++ text "\n"
  | Backup => text "BACKUP\n"
  | Help => text "HELP\n"
  | Comment bytes => text "#" ++ bytes ++ text "\n"
  | Empty => text "\n"

/-- What `run_job` executes for the line. -/
def command : Line → JobCommand
  | Write pairs => .Write pairs
  | Read keys => .Read keys
  | Delete keys => .Delete keys
  | Show => .Show
  | Wait digits => .Wait (decimal digits)
  | Backup => .Backup
  | Help => .Help
  | Comment _ => .Empty
  | Empty => .Empty

lemma render_ne_nil (line : Line) : line.render ≠ [] := by
  cases line <;> simp [render, text]

end Line

/-! ## Items read back -/

lemma Str.bytes_length_lt (s : Str) : s.val.bytes.length < maxStringSize := s.prop

/-- A key or a value of a line is stored as it is written. -/
lemma Str.Token.exists_token {s : Str} (hs : s.Token) :
    ∃ token : Kvs.Token, token.str = s ∧ token.val = s.val.bytes := by
  refine ⟨⟨s.val.bytes, hs.1, s.bytes_length_lt⟩, ?_, rfl⟩
  exact Subtype.ext (CString.ofBuffer_bytes s.val)

/-- The pairs of a line, as tokens. -/
lemma exists_pairsText {pairs : List (Str × Str)} (hpairs : ∀ p ∈ pairs, p.1.Token ∧ p.2.Token) :
    ∃ tokens : List (Token × Token), tokens.map Token.strs = pairs ∧
      Token.pairsText tokens = pairs.flatMap fun p => pairText p.1.val p.2.val := by
  induction pairs with
  | nil => exact ⟨[], rfl, rfl⟩
  | cons p pairs ih =>
      obtain ⟨key, value⟩ := p
      have hfirst := hpairs (key, value) (by simp)
      obtain ⟨keyToken, hkey, hkeyBytes⟩ := hfirst.1.exists_token
      obtain ⟨valueToken, hvalue, hvalueBytes⟩ := hfirst.2.exists_token
      obtain ⟨tokens, htokens, htext⟩ := ih fun q hq => hpairs q (List.mem_cons_of_mem _ hq)
      refine ⟨(keyToken, valueToken) :: tokens, ?_, ?_⟩
      · simp only [List.map_cons, Token.strs, hkey, hvalue, htokens]
      · rw [List.flatMap_cons, ← htext]
        simp [Token.pairsText, hkeyBytes, hvalueBytes, pairText, text, char]

/-- The keys of a line, as tokens. -/
lemma exists_keysText {keys : List Str} (hkeys : ∀ key ∈ keys, key.Token) :
    ∃ tokens : List Token, tokens.map Token.str = keys ∧
      Token.keysText tokens = Line.keysText keys := by
  induction keys with
  | nil => exact ⟨[], rfl, rfl⟩
  | cons key keys ih =>
      obtain ⟨token, hkey, hbytes⟩ := (hkeys key (by simp)).exists_token
      obtain ⟨tokens, htokens, htext⟩ := ih fun k hk => hkeys k (List.mem_cons_of_mem _ hk)
      refine ⟨token :: tokens, by rw [List.map_cons, hkey, htokens], ?_⟩
      -- a comma only if another key follows
      cases tokens with
      | nil =>
          obtain rfl : keys = [] := htokens.symm
          exact hbytes
      | cons token' tokens =>
          obtain ⟨key', keys', rfl⟩ : ∃ key' keys', keys = key' :: keys' := ⟨_, _, htokens.symm⟩
          rw [Token.keysText_cons_cons, htext, hbytes]
          rfl

lemma parseWait_digits (stale : List Byte) {digits : List Byte} (hdigits : Digits digits)
    (hlen : digits.length < uintBufferSize) (hmax : decimal digits ≤ uintMax) (rest : Input) :
    parseWait stale stale false (digits ++ char '\n' :: rest)
      = .ok (0, some (decimal digits), none, rest) := by
  have hmin : min (decimal digits) ulongMax = decimal digits := by
    simp only [uintMax, ulongMax] at hmax ⊢
    omega
  have hread : readUint stale (digits ++ char '\n' :: rest)
      = .ok (some (decimal digits), char '\n', rest) := by
    rw [readUint_digits hdigits (by decide) hlen, hmin, if_neg (by omega)]
  simp only [parseWait, hread, ok_bind, pure_eq_ok]
  rfl

/-! ## The round trip -/

/-- **A well-formed line is read back.**  `readCommand` returns the command of the line and leaves
exactly what comes after it. -/
theorem readCommand_render {line : Line} (h : line.WellFormed) (stale : List Byte) (rest : Input) :
    readCommand stale (line.render ++ rest) = .ok (line.command, rest) := by
  cases line with
  | Write pairs =>
      obtain ⟨⟨hne, hlen⟩, hpairs⟩ := h
      obtain ⟨tokens, rfl, htext⟩ :=
        exists_pairsText fun p hp => ⟨(hpairs p hp).1.1, (hpairs p hp).2⟩
      rw [List.length_map] at hlen
      have hshape : (Line.Write (tokens.map Token.strs)).render ++ rest
          = text "WRITE [" ++ (Token.pairsText tokens ++ char ']' :: char '\n' :: rest) := by
        simp only [Line.render, htext, List.append_assoc]
        rfl
      rw [hshape]
      exact readCommand_write stale (by simpa using hne) hlen (Or.inl rfl) rest
  | Read keys =>
      obtain ⟨⟨hne, hlen⟩, hkeys⟩ := h
      obtain ⟨tokens, rfl, htext⟩ := exists_keysText fun key hkey => (hkeys key hkey).1
      rw [List.length_map] at hlen
      have hshape : (Line.Read (tokens.map Token.str)).render ++ rest
          = text "READ [" ++ (Token.keysText tokens ++ char ']' :: char '\n' :: rest) := by
        simp only [Line.render, htext, List.append_assoc]
        rfl
      rw [hshape]
      exact readCommand_read stale (by simpa using hne) hlen (Or.inl rfl) rest
  | Delete keys =>
      obtain ⟨⟨hne, hlen⟩, hkeys⟩ := h
      obtain ⟨tokens, rfl, htext⟩ := exists_keysText fun key hkey => (hkeys key hkey).1
      rw [List.length_map] at hlen
      have hshape : (Line.Delete (tokens.map Token.str)).render ++ rest
          = text "DELETE [" ++ (Token.keysText tokens ++ char ']' :: char '\n' :: rest) := by
        simp only [Line.render, htext, List.append_assoc]
        rfl
      rw [hshape]
      exact readCommand_delete stale (by simpa using hne) hlen (Or.inl rfl) rest
  | Wait digits =>
      obtain ⟨-, hdigits, hlen, hmax⟩ := h
      have hparse := parseWait_digits stale hdigits hlen hmax rest
      have hnext : getNext ((Line.Wait digits).render ++ rest)
          = (.CmdWait, digits ++ char '\n' :: rest) := by
        simp only [Line.render, List.append_assoc]
        rfl
      simp only [readCommand, hnext, hparse, ok_bind, pure_eq_ok, Line.command]
      rfl
  | Comment bytes =>
      have hskip : cleanup (bytes ++ char '\n' :: rest) = rest := cleanup_line h
      have hnext : getNext ((Line.Comment bytes).render ++ rest)
          = (.CmdEmpty, cleanup (bytes ++ char '\n' :: rest)) := by
        simp only [Line.render, List.append_assoc]
        rfl
      simp only [readCommand, hnext, hskip, pure_eq_ok, Line.command]
  | Show => rfl
  | Backup => rfl
  | Help => rfl
  | Empty => rfl

end Kvs
