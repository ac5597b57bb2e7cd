import Kvs.Server.RunJob
import Kvs.Server.Tokens

/-!
# The grammar of the list commands

`WRITE`, `READ` and `DELETE` take a list.  The parsers find its end while they store its items, byte
by byte, in three nested loops; here is what they accept, as a text.  A list is items between `[` and
`]`, up to 255 of them, and a newline or a NUL; an item is made of tokens, and a token is up to 39
bytes none of which is a space, a comma, a closing parenthesis or a bracket.  Anything else may be
in a token: a newline, an opening parenthesis, nothing at all, and NULs, behind which nothing of it
is stored (`Token.str`).

Every statement is an equivalence: no other text is accepted, and each of these is.
-/

namespace Kvs

/-! ## Tokens -/

/-- A key or a value as it stands in a job file. -/
abbrev Token := { bytes : List Byte // Plain bytes ∧ bytes.length < maxStringSize }

namespace Token

/-- The string that is stored for it. -/
def str (token : Token) : Str :=
  ⟨.ofBuffer token.val, lt_of_le_of_lt (CString.ofBuffer_length_le _) token.prop.2⟩

lemma strcpy_eq (token : Token) : strcpy maxStringSize (.ofBuffer token.val) = .ok token.str :=
  strcpy_of_fits token.str.prop

/-- `(key,value)(key,value)…` -/
def pairsText (pairs : List (Token × Token)) : List Byte :=
  pairs.flatMap fun p => char '(' :: (p.1.val ++ char ',' :: (p.2.val ++ [char ')']))

/-- `key,key,…` -/
def keysText : List Token → List Byte
  | [] => []
  | [key] => key.val
  | key :: keys => key.val ++ char ',' :: keysText keys

/-- The strings of a pair. -/
def strs (p : Token × Token) : Str × Str := (p.1.str, p.2.str)

@[simp] lemma pairsText_nil : pairsText [] = [] := rfl

lemma pairsText_cons_append (p : Token × Token) (pairs : List (Token × Token)) (rest : Input) :
    pairsText (p :: pairs) ++ rest
      = char '(' :: (p.1.val ++ char ',' :: (p.2.val ++ char ')' :: (pairsText pairs ++ rest))) := by
  simp [pairsText]

lemma keysText_cons_cons (key key' : Token) (keys : List Token) :
    keysText (key :: key' :: keys) = key.val ++ char ',' :: keysText (key' :: keys) := rfl

end Token

/-! ## One token -/

/-- Each delimiter has a code of its own. -/
lemma delimiterCode_injective {d e : Byte} (hd : isDelimiter d = true) (he : isDelimiter e = true)
    (h : delimiterCode d = delimiterCode e) : d = e := by
  simp only [isDelimiter, decide_eq_true_eq] at hd he
  rcases hd with rfl | rfl | rfl | rfl <;> rcases he with rfl | rfl | rfl | rfl <;>
    first | rfl | exact absurd h (by decide)

lemma Token.readString_eq (token : Token) {d : Byte} (hd : isDelimiter d = true) (rest : Input) :
    readString maxStringSize (token.val ++ d :: rest) = .ok (delimiterCode d, token.val, rest) :=
  readString_token hd token.prop.1 token.prop.2

/-- `read_string` reports a delimiter if and only if there is a token in front of one. -/
lemma readString_iff {d : Byte} (hd : isDelimiter d = true) (hspace : delimiterCode d ≠ -1)
    {input bytes rest : List Byte} :
    readString maxStringSize input = .ok (delimiterCode d, bytes, rest) ↔
      ∃ token : Token, bytes = token.val ∧ input = token.val ++ d :: rest := by
  constructor
  · intro h
    obtain ⟨hplain, hlen, ⟨hcode, -, -⟩ | ⟨e, he, hcode, hinput⟩⟩ := readString_eq_ok h
    · exact absurd hcode hspace
    · rw [← delimiterCode_injective hd he hcode] at hinput
      exact ⟨⟨bytes, hplain, hlen⟩, rfl, hinput⟩
  · rintro ⟨token, rfl, rfl⟩
    exact token.readString_eq hd rest

/-- A code that is no error and no bracket is that of a comma. -/
lemma readString_comma {input bytes rest : List Byte} {code : ℤ}
    (h : readString maxStringSize input = .ok (code, bytes, rest)) (hbad : ¬ (code < 0 ∨ code = 1))
    (hclose : code ≠ 2) : code = delimiterCode (char ',') := by
  obtain ⟨-, -, ⟨rfl, -⟩ | ⟨d, hd, rfl, -⟩⟩ := readString_eq_ok h
  · exact absurd (Or.inl (by decide)) hbad
  · simp only [isDelimiter, decide_eq_true_eq] at hd
    rcases hd with rfl | rfl | rfl | rfl
    · exact absurd (Or.inl (by decide)) hbad
    · rfl
    · exact absurd (Or.inr (by decide)) hbad
    · exact absurd (by decide) hclose

/-- `parse_pair`, behind the opening parenthesis. -/
lemma parsePair_iff {input rest : Input} {pair : CString × CString} :
    parsePair input = .ok (some pair, rest) ↔ ∃ p : Token × Token,
      pair = (.ofBuffer p.1.val, .ofBuffer p.2.val) ∧
        input = p.1.val ++ char ',' :: (p.2.val ++ char ')' :: rest) := by
  have hcomma : isDelimiter (char ',') = true := by decide
  have hparen : isDelimiter (char ')') = true := by decide
  constructor
  · intro h
    simp only [parsePair, bind_eq_ok] at h
    obtain ⟨⟨output, key, input₁⟩, hkey, h⟩ := h
    dsimp only at h
    by_cases houtput : output ≠ 0
    · rw [if_pos houtput] at h
      simp at h
    · rw [if_neg houtput] at h
      obtain rfl : output = delimiterCode (char ',') := not_not.mp houtput
      obtain ⟨⟨output', value, input₂⟩, hvalue, h⟩ := by simpa only [bind_eq_ok] using h
      by_cases houtput' : output' ≠ 1
      · rw [if_pos houtput'] at h
        simp at h
      · rw [if_neg houtput'] at h
        obtain rfl : output' = delimiterCode (char ')') := not_not.mp houtput'
        obtain ⟨rfl, rfl⟩ : (CString.ofBuffer key, CString.ofBuffer value) = pair ∧ input₂ = rest := by
          simpa using h
        obtain ⟨key, rfl, rfl⟩ := (readString_iff hcomma (by decide)).mp hkey
        obtain ⟨value, rfl, rfl⟩ := (readString_iff hparen (by decide)).mp hvalue
        exact ⟨(key, value), rfl, rfl⟩
  · rintro ⟨⟨key, value⟩, rfl, rfl⟩
    have hkey := key.readString_eq hcomma (value.val ++ char ')' :: rest)
    have hvalue := value.readString_eq hparen rest
    simp only [parsePair, hkey, ok_bind, hvalue, pure_eq_ok]
    rfl

/-! ## The loops -/

/-- One turn of the loop of `parse_write`, behind the opening parenthesis: a pair, and then the
bracket, or a parenthesis and another turn. -/
lemma parseWriteLoop_succ_iff {room : ℕ} {input rest : Input} {items : List (Str × Str)} :
    parseWriteLoop (room + 1) input = .ok (some items, rest) ↔ ∃ (p : Token × Token) (behind : Input),
      input = p.1.val ++ char ',' :: (p.2.val ++ char ')' :: behind) ∧
        ((behind = char ']' :: rest ∧ items = [Token.strs p]) ∨
          ∃ behind' tail, behind = char '(' :: behind' ∧ items = Token.strs p :: tail ∧
            parseWriteLoop room behind' = .ok (some tail, rest)) := by
  constructor
  · intro h
    simp only [parseWriteLoop, bind_eq_ok] at h
    obtain ⟨⟨pair, input₁⟩, hpair, h⟩ := h
    cases pair with
    | none => simp at h
    | some pair =>
        obtain ⟨p, rfl, rfl⟩ := parsePair_iff.mp hpair
        refine ⟨p, input₁, rfl, ?_⟩
        simp only [Token.strcpy_eq, ok_bind] at h
        cases input₁ with
        | nil => simp at h
        | cons ch input₂ =>
            dsimp only at h
            split_ifs at h with hclose hopen
            · obtain ⟨rfl, rfl⟩ : [(p.1.str, p.2.str)] = items ∧ input₂ = rest := by simpa using h
              left
              exact ⟨by rw [hclose], rfl⟩
            · obtain ⟨⟨items', input₃⟩, hrest, h⟩ := by simpa only [bind_eq_ok] using h
              obtain ⟨⟨tail, rfl, rfl⟩, rfl⟩ : (∃ tail, items' = some tail ∧
                  (p.1.str, p.2.str) :: tail = items) ∧ input₃ = rest := by simpa using h
              right
              exact ⟨input₂, tail, by rw [hopen], rfl, hrest⟩
            · simp at h
  · rintro ⟨p, behind, rfl, h⟩
    have hpair : parsePair (p.1.val ++ char ',' :: (p.2.val ++ char ')' :: behind))
        = .ok (some (.ofBuffer p.1.val, .ofBuffer p.2.val), behind) :=
      parsePair_iff.mpr ⟨p, rfl, rfl⟩
    rcases h with ⟨rfl, rfl⟩ | ⟨behind', tail, rfl, rfl, hrest⟩
    · simp [parseWriteLoop, hpair, Token.strcpy_eq, Token.strs]
    · have hbracket : char '(' ≠ char ']' := by decide
      simp only [parseWriteLoop, hpair, ok_bind, Token.strcpy_eq, if_neg hbracket, if_true, hrest,
        pure_eq_ok, Option.map_some, Token.strs]

/-- One turn of the loop of `parse_read_delete`: a key, and then the bracket, or a comma and another
turn. -/
lemma parseKeysLoop_succ_iff {room : ℕ} {input rest : Input} {items : List Str} :
    parseKeysLoop (room + 1) input = .ok (some items, rest) ↔ ∃ key : Token,
      (input = key.val ++ char ']' :: rest ∧ items = [key.str]) ∨
        ∃ behind tail, input = key.val ++ char ',' :: behind ∧ items = key.str :: tail ∧
          parseKeysLoop room behind = .ok (some tail, rest) := by
  have hcomma : isDelimiter (char ',') = true := by decide
  have hbracket : isDelimiter (char ']') = true := by decide
  constructor
  · intro h
    simp only [parseKeysLoop, bind_eq_ok] at h
    obtain ⟨⟨output, bytes, input₁⟩, htoken, h⟩ := h
    dsimp only at h
    split_ifs at h with hbad hclose
    · simp at h
    · obtain rfl : output = delimiterCode (char ']') := hclose
      obtain ⟨key, rfl, rfl⟩ := (readString_iff hbracket (by decide)).mp htoken
      simp only [Token.strcpy_eq, ok_bind] at h
      obtain ⟨rfl, rfl⟩ : [key.str] = items ∧ input₁ = rest := by simpa using h
      exact ⟨key, Or.inl ⟨rfl, rfl⟩⟩
    · -- the only code left is that of a comma
      obtain rfl := readString_comma htoken hbad hclose
      obtain ⟨key, rfl, rfl⟩ := (readString_iff hcomma (by decide)).mp htoken
      simp only [Token.strcpy_eq, ok_bind] at h
      obtain ⟨⟨items', input₂⟩, hrest, h⟩ := by simpa only [bind_eq_ok] using h
      obtain ⟨⟨tail, rfl, rfl⟩, rfl⟩ : (∃ tail, items' = some tail ∧ key.str :: tail = items)
          ∧ input₂ = rest := by simpa using h
      exact ⟨key, Or.inr ⟨input₁, tail, rfl, rfl, hrest⟩⟩
  · rintro ⟨key, ⟨rfl, rfl⟩ | ⟨behind, tail, rfl, rfl, hrest⟩⟩
    · have hkey := key.readString_eq hbracket rest
      simp only [parseKeysLoop, hkey, ok_bind, Token.strcpy_eq]
      rfl
    · have hkey := key.readString_eq hcomma behind
      have hcode : ¬ (delimiterCode (char ',') < 0 ∨ delimiterCode (char ',') = 1) := by decide
      have htwo : ¬ delimiterCode (char ',') = 2 := by decide
      simp only [parseKeysLoop, hkey, ok_bind, if_neg hcode, Token.strcpy_eq, if_neg htwo, hrest,
        pure_eq_ok, Option.map_some]

lemma parseWriteLoop_length {room : ℕ} {input rest : Input} {items : List (Str × Str)}
    (h : parseWriteLoop room input = .ok (some items, rest)) : items.length ≤ room := by
  induction room generalizing input items with
  | zero =>
      obtain ⟨rfl, -⟩ : [] = items ∧ input = rest := by simpa [parseWriteLoop] using h
      simp
  | succ room ih =>
      obtain ⟨p, behind, -, ⟨-, rfl⟩ | ⟨behind', tail, -, rfl, hrest⟩⟩ := parseWriteLoop_succ_iff.mp h
      · simp
      · exact Nat.succ_le_succ (ih hrest)

lemma parseKeysLoop_length {room : ℕ} {input rest : Input} {items : List Str}
    (h : parseKeysLoop room input = .ok (some items, rest)) : items.length ≤ room := by
  induction room generalizing input items with
  | zero =>
      obtain ⟨rfl, -⟩ : [] = items ∧ input = rest := by simpa [parseKeysLoop] using h
      simp
  | succ room ih =>
      obtain ⟨key, ⟨-, rfl⟩ | ⟨behind, tail, -, rfl, hrest⟩⟩ := parseKeysLoop_succ_iff.mp h
      · simp
      · exact Nat.succ_le_succ (ih hrest)

/-- The loop of `parse_write`, behind the opening parenthesis, by induction over the room: it ends
at a bracket with room left if and only if there are pairs up to it. -/
lemma parseWriteLoop_iff {room : ℕ} {input rest : Input} {items : List (Str × Str)}
    (hroom : items.length < room) :
    parseWriteLoop room input = .ok (some items, rest) ↔ ∃ pairs : List (Token × Token),
      items = pairs.map Token.strs ∧ char '(' :: input = Token.pairsText pairs ++ char ']' :: rest := by
  induction room generalizing input items with
  | zero => exact absurd hroom (Nat.not_lt_zero _)
  | succ room ih =>
    rw [parseWriteLoop_succ_iff]
    constructor
    · rintro ⟨p, behind, rfl, ⟨rfl, rfl⟩ | ⟨behind', tail, rfl, rfl, hrest⟩⟩
      · refine ⟨[p], rfl, ?_⟩
        rw [Token.pairsText_cons_append, Token.pairsText_nil, List.nil_append]
      · obtain ⟨pairs, rfl, hshape⟩ := (ih (Nat.lt_of_succ_lt_succ hroom)).mp hrest
        refine ⟨p :: pairs, rfl, ?_⟩
        rw [Token.pairsText_cons_append, ← hshape]
    · rintro ⟨pairs, rfl, hshape⟩
      cases pairs with
      | nil =>
          have hbracket : char '(' ≠ char ']' := by decide
          exact absurd (List.cons.inj hshape).1 hbracket
      | cons p pairs =>
          rw [Token.pairsText_cons_append] at hshape
          refine ⟨p, _, (List.cons.inj hshape).2, ?_⟩
          cases pairs with
          | nil =>
              left
              exact ⟨rfl, rfl⟩
          | cons q pairs =>
              right
              refine ⟨_, (q :: pairs).map Token.strs, Token.pairsText_cons_append q pairs _, rfl, ?_⟩
              exact (ih (Nat.lt_of_succ_lt_succ hroom)).mpr
                ⟨q :: pairs, rfl, (Token.pairsText_cons_append q pairs _).symm⟩

/-- The loop of `parse_read_delete`, behind the opening bracket, by induction over the room. -/
lemma parseKeysLoop_iff {room : ℕ} {input rest : Input} {items : List Str}
    (hroom : items.length < room) :
    parseKeysLoop room input = .ok (some items, rest) ↔ ∃ keys : List Token, keys ≠ [] ∧
      items = keys.map Token.str ∧ input = Token.keysText keys ++ char ']' :: rest := by
  induction room generalizing input items with
  | zero => exact absurd hroom (Nat.not_lt_zero _)
  | succ room ih =>
    rw [parseKeysLoop_succ_iff]
    constructor
    · rintro ⟨key, ⟨rfl, rfl⟩ | ⟨behind, tail, rfl, rfl, hrest⟩⟩
      · exact ⟨[key], by simp, rfl, rfl⟩
      · obtain ⟨keys, hne, rfl, rfl⟩ := (ih (Nat.lt_of_succ_lt_succ hroom)).mp hrest
        refine ⟨key :: keys, by simp, rfl, ?_⟩
        cases keys with
        | nil => exact absurd rfl hne
        | cons key' keys =>
            rw [Token.keysText_cons_cons, List.append_assoc, List.cons_append]
    · rintro ⟨keys, hne, rfl, rfl⟩
      cases keys with
      | nil => exact absurd rfl hne
      | cons key keys =>
          refine ⟨key, ?_⟩
          cases keys with
          | nil =>
              left
              exact ⟨rfl, rfl⟩
          | cons key' keys =>
              right
              refine ⟨Token.keysText (key' :: keys) ++ char ']' :: rest, (key' :: keys).map Token.str,
                ?_, rfl, ?_⟩
              · rw [Token.keysText_cons_cons, List.append_assoc, List.cons_append]
              · exact (ih (Nat.lt_of_succ_lt_succ hroom)).mpr ⟨key' :: keys, by simp, rfl, rfl⟩

/-! ## The parsers -/

/-- A byte that may come behind a list. -/
def EndsLine (c : Byte) : Prop := c = char '\n' ∨ c = 0

instance (c : Byte) : Decidable (EndsLine c) := inferInstanceAs (Decidable (c = char '\n' ∨ c = 0))

lemma endOfList_iff {α : Type} {maxItems : ℕ} {items kept : List α} {input rest : Input}
    (hkept : kept ≠ []) : endOfList maxItems items input = (kept, rest) ↔
      items = kept ∧ items.length ≠ maxItems ∧ ∃ c, EndsLine c ∧ input = c :: rest := by
  constructor
  · intro h
    unfold endOfList at h
    split_ifs at h with hmax
    · exact absurd (Prod.mk.inj h).1.symm hkept
    · cases input with
      | nil => exact absurd (Prod.mk.inj h).1.symm hkept
      | cons c input =>
          dsimp only at h
          split_ifs at h with hend
          · obtain ⟨rfl, rfl⟩ := Prod.mk.inj h
            exact ⟨rfl, hmax, c, hend, rfl⟩
          · exact absurd (Prod.mk.inj h).1.symm hkept
  · rintro ⟨rfl, hmax, c, hend, rfl⟩
    rw [endOfList, if_neg hmax]
    exact if_pos hend

/-- **What `parse_write` accepts.** -/
theorem parseWrite_iff {maxPairs : ℕ} {input rest : Input} {items : List (Str × Str)}
    (hitems : items ≠ []) : parseWrite maxPairs input = .ok (items, rest) ↔
      ∃ (pairs : List (Token × Token)) (c : Byte), items = pairs.map Token.strs ∧
        pairs.length < maxPairs ∧ EndsLine c ∧
        input = char '[' :: (Token.pairsText pairs ++ char ']' :: c :: rest) := by
  constructor
  · intro h
    match input, h with
    | [], h =>
        obtain ⟨rfl, -⟩ : [] = items ∧ [] = rest := by simpa [parseWrite] using h
        exact absurd rfl hitems
    | [ch], h =>
        obtain ⟨rfl, -⟩ : [] = items ∧ [] = rest := by
          simp only [parseWrite] at h
          split_ifs at h <;> simpa [cleanup] using h
        exact absurd rfl hitems
    | ch :: ch' :: input, h =>
        simp only [parseWrite] at h
        split_ifs at h with hopen hparen
        · obtain ⟨rfl, -⟩ : [] = items ∧ cleanup (ch' :: input) = rest := by simpa using h
          exact absurd rfl hitems
        · obtain ⟨rfl, -⟩ : [] = items ∧ cleanup input = rest := by simpa using h
          exact absurd rfl hitems
        · obtain ⟨⟨items', input₁⟩, hloop, h⟩ := by simpa only [bind_eq_ok] using h
          cases items' with
          | none =>
              obtain ⟨rfl, -⟩ : [] = items ∧ input₁ = rest := by simpa using h
              exact absurd rfl hitems
          | some items' =>
              have hend : endOfList maxPairs items' input₁ = (items, rest) := by simpa using h
              obtain ⟨rfl, hmax, c, hc, rfl⟩ := (endOfList_iff hitems).mp hend
              have hlt := lt_of_le_of_ne (parseWriteLoop_length hloop) hmax
              obtain ⟨pairs, rfl, hshape⟩ := (parseWriteLoop_iff hlt).mp hloop
              rw [List.length_map] at hlt
              refine ⟨pairs, c, rfl, hlt, hc, ?_⟩
              rw [← hshape, not_not.mp hopen, not_not.mp hparen]
  · rintro ⟨pairs, c, rfl, hmax, hc, rfl⟩
    have hlt : (pairs.map Token.strs).length < maxPairs := by rwa [List.length_map]
    cases pairs with
    | nil => exact absurd rfl hitems
    | cons p pairs =>
        have hloop : parseWriteLoop maxPairs (p.1.val ++ char ',' :: (p.2.val ++ char ')' ::
              (Token.pairsText pairs ++ char ']' :: c :: rest)))
            = .ok (some ((p :: pairs).map Token.strs), c :: rest) :=
          (parseWriteLoop_iff hlt).mpr ⟨p :: pairs, rfl, (Token.pairsText_cons_append p pairs _).symm⟩
        have hend : endOfList maxPairs ((p :: pairs).map Token.strs) (c :: rest)
            = ((p :: pairs).map Token.strs, rest) :=
          (endOfList_iff hitems).mpr ⟨rfl, hlt.ne, c, hc, rfl⟩
        rw [Token.pairsText_cons_append]
        simp only [parseWrite, ne_eq, not_true_eq_false, if_false, hloop, ok_bind, hend, pure_eq_ok]

/-- **What `parse_read_delete` accepts.** -/
theorem parseReadDelete_iff {maxKeys : ℕ} {input rest : Input} {items : List Str}
    (hitems : items ≠ []) : parseReadDelete maxKeys input = .ok (items, rest) ↔
      ∃ (keys : List Token) (c : Byte), items = keys.map Token.str ∧ keys.length < maxKeys ∧
        EndsLine c ∧ input = char '[' :: (Token.keysText keys ++ char ']' :: c :: rest) := by
  constructor
  · intro h
    cases input with
    | nil =>
        obtain ⟨rfl, -⟩ : [] = items ∧ [] = rest := by simpa [parseReadDelete] using h
        exact absurd rfl hitems
    | cons ch input =>
        simp only [parseReadDelete] at h
        split_ifs at h with hopen
        · obtain ⟨rfl, -⟩ : [] = items ∧ cleanup input = rest := by simpa using h
          exact absurd rfl hitems
        · obtain ⟨⟨items', input₁⟩, hloop, h⟩ := by simpa only [bind_eq_ok] using h
          cases items' with
          | none =>
              obtain ⟨rfl, -⟩ : [] = items ∧ input₁ = rest := by simpa using h
              exact absurd rfl hitems
          | some items' =>
              have hend : endOfList maxKeys items' input₁ = (items, rest) := by simpa using h
              obtain ⟨rfl, hmax, c, hc, rfl⟩ := (endOfList_iff hitems).mp hend
              have hlt := lt_of_le_of_ne (parseKeysLoop_length hloop) hmax
              obtain ⟨keys, -, rfl, rfl⟩ := (parseKeysLoop_iff hlt).mp hloop
              rw [List.length_map] at hlt
              exact ⟨keys, c, rfl, hlt, hc, by rw [not_not.mp hopen]⟩
  · rintro ⟨keys, c, rfl, hmax, hc, rfl⟩
    have hlt : (keys.map Token.str).length < maxKeys := by rwa [List.length_map]
    have hne : keys ≠ [] := fun h => hitems (by rw [h, List.map_nil])
    have hloop : parseKeysLoop maxKeys (Token.keysText keys ++ char ']' :: c :: rest)
        = .ok (some (keys.map Token.str), c :: rest) :=
      (parseKeysLoop_iff hlt).mpr ⟨keys, hne, rfl, rfl⟩
    have hend : endOfList maxKeys (keys.map Token.str) (c :: rest) = (keys.map Token.str, rest) :=
      (endOfList_iff hitems).mpr ⟨rfl, hlt.ne, c, hc, rfl⟩
    simp only [parseReadDelete, ne_eq, not_true_eq_false, if_false, hloop, ok_bind, hend, pure_eq_ok]

/-! ## Text without NULs -/

namespace Token

/-- A token without a NUL is stored as it stands. -/
lemma str_bytes {token : Token} (hnul : (0 : Byte) ∉ token.val) : token.str.val.bytes = token.val :=
  CString.ofBuffer_bytes_of_nulFree hnul

/-- The bytes of a pair. -/
def texts (p : Token × Token) : List Byte × List Byte := (p.1.val, p.2.val)

lemma not_mem_pairsText {pairs : List (Token × Token)} (hnul : (0 : Byte) ∉ pairsText pairs) :
    ∀ p ∈ pairs, (0 : Byte) ∉ p.1.val ∧ (0 : Byte) ∉ p.2.val := by
  intro p hp
  simp only [pairsText, List.mem_flatMap, not_exists, not_and] at hnul
  have hpair := hnul p hp
  simp only [List.mem_cons, List.mem_append, not_or] at hpair
  exact ⟨hpair.2.1, hpair.2.2.2.1⟩

lemma not_mem_keysText {keys : List Token} (hnul : (0 : Byte) ∉ keysText keys) :
    ∀ key ∈ keys, (0 : Byte) ∉ key.val := by
  induction keys with
  | nil => simp
  | cons key keys ih =>
      cases keys with
      | nil => simpa [keysText] using hnul
      | cons key' keys =>
          rw [keysText_cons_cons, List.mem_append, List.mem_cons, not_or, not_or] at hnul
          intro other hother
          rcases List.mem_cons.mp hother with rfl | hmem
          · exact hnul.1
          · exact ih hnul.2.2 other hmem

/-- The strings stored for pairs without NULs are their bytes, and no other strings are. -/
lemma map_strs_eq_iff {pairs : List (Token × Token)} {items : List (Str × Str)}
    (hnul : ∀ p ∈ pairs, (0 : Byte) ∉ p.1.val ∧ (0 : Byte) ∉ p.2.val) :
    items = pairs.map strs ↔
      items.map (fun item => (item.1.val.bytes, item.2.val.bytes)) = pairs.map texts := by
  have hbytes : (pairs.map strs).map (fun item => (item.1.val.bytes, item.2.val.bytes))
      = pairs.map texts := by
    rw [List.map_map]
    refine List.map_congr_left fun p hp => ?_
    show (p.1.str.val.bytes, p.2.str.val.bytes) = (p.1.val, p.2.val)
    rw [str_bytes (hnul p hp).1, str_bytes (hnul p hp).2]
  have hinjective : Function.Injective
      fun item : Str × Str => (item.1.val.bytes, item.2.val.bytes) := by
    intro item item' h
    obtain ⟨hkey, hvalue⟩ := Prod.mk.inj h
    exact Prod.ext (Subtype.ext (CString.ext hkey)) (Subtype.ext (CString.ext hvalue))
  constructor
  · rintro rfl
    exact hbytes
  · intro h
    rw [← hbytes] at h
    exact hinjective.list_map h

end Token

/-- In a text only a newline ends a line. -/
lemma EndsLine.eq_newline {c : Byte} (hc : EndsLine c) (hnul : c ≠ 0) : c = char '\n' :=
  hc.resolve_right hnul

/-- **The grammar of `WRITE`.**  In a text, `parse_write` returns a count other than zero if and
only if a list of one to 255 pairs and a newline come next, and then it has stored these pairs and
consumed that much. -/
theorem parseWrite_text_iff {input : Input} (hnul : (0 : Byte) ∉ input) (items : List (Str × Str))
    (rest : Input) :
    parseWrite maxWriteSize input = .ok (items, rest) ∧ items.length ≠ 0 ↔
      ∃ pairs : List (Token × Token), 1 ≤ pairs.length ∧ pairs.length ≤ 255 ∧
        items.map (fun item => (item.1.val.bytes, item.2.val.bytes)) = pairs.map Token.texts ∧
        input = char '[' :: (Token.pairsText pairs ++ char ']' :: char '\n' :: rest) := by
  constructor
  · rintro ⟨h, hlength⟩
    have hitems : items ≠ [] := fun hnil => hlength (by rw [hnil, List.length_nil])
    obtain ⟨pairs, c, rfl, hmax, hc, rfl⟩ := (parseWrite_iff hitems).mp h
    simp only [List.mem_cons, List.mem_append, not_or] at hnul
    have hpairs := Token.not_mem_pairsText hnul.2.1
    rw [List.length_map] at hlength
    refine ⟨pairs, by omega, Nat.le_of_lt_succ hmax, (Token.map_strs_eq_iff hpairs).mp rfl, ?_⟩
    rw [hc.eq_newline (Ne.symm hnul.2.2.2.1)]
  · rintro ⟨pairs, hmin, hmax, hitems, rfl⟩
    simp only [List.mem_cons, List.mem_append, not_or] at hnul
    obtain rfl := (Token.map_strs_eq_iff (Token.not_mem_pairsText hnul.2.1)).mpr hitems
    have hlength : (pairs.map Token.strs).length ≠ 0 := by
      rw [List.length_map]
      omega
    have hne : pairs.map Token.strs ≠ [] := fun hnil => hlength (by rw [hnil, List.length_nil])
    exact ⟨(parseWrite_iff hne).mpr
      ⟨pairs, char '\n', rfl, Nat.lt_succ_of_le hmax, Or.inl rfl, rfl⟩, hlength⟩

/-- One pair. -/
theorem parseWrite_text_pair : ∃ items : List (Str × Str),
    parseWrite maxWriteSize (text "[(a,b)]\nSHOW") = .ok (items, text "SHOW") ∧ items.length ≠ 0 := by
  let pair : Token × Token := (⟨text "a", by decide +kernel⟩, ⟨text "b", by decide +kernel⟩)
  refine ⟨[Token.strs pair], (parseWrite_text_iff (by decide) _ _).mpr ⟨[pair], ?_, ?_, ?_, ?_⟩⟩
  · decide
  · decide
  · rfl
  · rfl

/-! ## The commands -/

lemma keyword_eq {word : List Byte} {next : Input → Command × Input} {input after : Input}
    {command : Command} (hcommand : command ≠ .CmdInvalid)
    (h : keyword word next input = (command, after)) :
    ∃ behind, input = word ++ behind ∧ next behind = (command, after) := by
  rw [keyword] at h
  split_ifs at h with hword
  · have hinput := List.take_append_drop word.length input
    rw [hword] at hinput
    exact ⟨input.drop word.length, hinput.symm, h⟩
  · exact absurd (Prod.mk.inj h).1.symm hcommand

lemma bare_command {word input after : Input} {command command' : Command}
    (h : keyword word (bare command) input = (command', after)) :
    command' = command ∨ command' = .CmdInvalid := by
  by_cases hinvalid : command' = .CmdInvalid
  · exact Or.inr hinvalid
  · obtain ⟨behind, -, hbare⟩ := keyword_eq hinvalid h
    have hfound := bare_fst command behind
    rwa [hbare] at hfound

/-- The keyword of a list command, if it is one. -/
def listKeyword : Command → Option (List Byte)
  | .CmdWrite => some (text "WRITE ")
  | .CmdRead => some (text "READ ")
  | .CmdDelete => some (text "DELETE ")
  | _ => none

/-- `get_next` returns a list command behind its keyword, and nowhere else. -/
lemma getNext_list_iff {command : Command} {word : List Byte} (hword : listKeyword command = some word)
    {input after : Input} : getNext input = (command, after) ↔ input = word ++ after := by
  have hinvalid : command ≠ .CmdInvalid := by
    rintro rfl
    cases hword
  have hother : ∀ {command' : Command} {rest rest' : Input}, listKeyword command' = none →
      (command', rest) ≠ (command, rest') := by
    rintro command' rest rest' hnone heq
    rw [(Prod.mk.inj heq).1, hword] at hnone
    cases hnone
  have hkeyword : ∀ {command' : Command} {word' : List Byte} {input : Input},
      listKeyword command' = some word' →
      keyword word' (fun input => (command', input)) input = (command, after) →
      input = word ++ after := by
    intro command' word' input hword' h
    obtain ⟨behind, rfl, hbehind⟩ := keyword_eq hinvalid h
    obtain ⟨rfl, rfl⟩ := Prod.mk.inj hbehind
    rw [Option.some.inj (hword'.symm.trans hword)]
  have hbare : ∀ {command' : Command} {word' input : Input}, listKeyword command' = none →
      keyword word' (bare command') input ≠ (command, after) := by
    intro command' word' input hnone h
    rcases bare_command h with rfl | rfl
    · rw [hnone] at hword
      cases hword
    · exact absurd rfl hinvalid
  constructor
  · intro h
    cases input with
    | nil => exact absurd h (hother rfl)
    | cons ch input =>
        rw [getNext] at h
        split_ifs at h
        · exact absurd h (hother rfl)
        · exact hkeyword rfl h
        · exact hkeyword rfl h
        · exact hkeyword rfl h
        · exact absurd h (hbare rfl)
        · exact absurd h (hbare rfl)
        · exact absurd h (hbare rfl)
        · exact absurd h (hother rfl)
        · exact absurd h (hother rfl)
        · exact absurd h (hother rfl)
  · rintro rfl
    cases command with
    | CmdWrite | CmdRead | CmdDelete =>
        obtain rfl := Option.some.inj hword
        rfl
    | _ => cases hword

section Lists

variable (stale : List Byte) {pairs : List (Token × Token)} {keys : List Token} {c : Byte}

/-- A list in front of the parser is a command. -/
lemma readCommand_write (hne : pairs ≠ []) (hlen : pairs.length < maxWriteSize) (hc : EndsLine c)
    (rest : Input) :
    readCommand stale (text "WRITE [" ++ (Token.pairsText pairs ++ char ']' :: c :: rest))
      = .ok (.Write (pairs.map Token.strs), rest) := by
  have hitems : pairs.map Token.strs ≠ [] := by simpa using hne
  have hnext : getNext (text "WRITE [" ++ (Token.pairsText pairs ++ char ']' :: c :: rest))
      = (.CmdWrite, char '[' :: (Token.pairsText pairs ++ char ']' :: c :: rest)) :=
    (getNext_list_iff rfl).mpr rfl
  have hparse : parseWrite maxWriteSize
        (char '[' :: (Token.pairsText pairs ++ char ']' :: c :: rest))
      = .ok (pairs.map Token.strs, rest) :=
    (parseWrite_iff hitems).mpr ⟨pairs, c, rfl, hlen, hc, rfl⟩
  simp only [readCommand, hnext, hparse, ok_bind, pure_eq_ok, unlessEmpty_of_ne_nil _ hitems]

lemma parseReadDelete_list (hne : keys ≠ []) (hlen : keys.length < maxWriteSize) (hc : EndsLine c)
    (rest : Input) :
    keys.map Token.str ≠ [] ∧ parseReadDelete maxWriteSize
        (char '[' :: (Token.keysText keys ++ char ']' :: c :: rest))
      = .ok (keys.map Token.str, rest) := by
  have hitems : keys.map Token.str ≠ [] := by simpa using hne
  exact ⟨hitems, (parseReadDelete_iff hitems).mpr ⟨keys, c, rfl, hlen, hc, rfl⟩⟩

lemma readCommand_read (hne : keys ≠ []) (hlen : keys.length < maxWriteSize) (hc : EndsLine c)
    (rest : Input) :
    readCommand stale (text "READ [" ++ (Token.keysText keys ++ char ']' :: c :: rest))
      = .ok (.Read (keys.map Token.str), rest) := by
  obtain ⟨hitems, hparse⟩ := parseReadDelete_list hne hlen hc rest
  have hnext : getNext (text "READ [" ++ (Token.keysText keys ++ char ']' :: c :: rest))
      = (.CmdRead, char '[' :: (Token.keysText keys ++ char ']' :: c :: rest)) :=
    (getNext_list_iff rfl).mpr rfl
  simp only [readCommand, hnext, hparse, ok_bind, pure_eq_ok, unlessEmpty_of_ne_nil _ hitems]

lemma readCommand_delete (hne : keys ≠ []) (hlen : keys.length < maxWriteSize) (hc : EndsLine c)
    (rest : Input) :
    readCommand stale (text "DELETE [" ++ (Token.keysText keys ++ char ']' :: c :: rest))
      = .ok (.Delete (keys.map Token.str), rest) := by
  obtain ⟨hitems, hparse⟩ := parseReadDelete_list hne hlen hc rest
  have hnext : getNext (text "DELETE [" ++ (Token.keysText keys ++ char ']' :: c :: rest))
      = (.CmdDelete, char '[' :: (Token.keysText keys ++ char ']' :: c :: rest)) :=
    (getNext_list_iff rfl).mpr rfl
  simp only [readCommand, hnext, hparse, ok_bind, pure_eq_ok, unlessEmpty_of_ne_nil _ hitems]

end Lists

end Kvs
