import Kvs.Client.Lists
import Kvs.Server.ListGrammar
import Kvs.Server.Numbers

/-!
# Where the parsers store

`read_string` and `read_uint` fill buffers of fixed size with as many bytes as the input brings.
Their stores are listed here one by one, each with the index it goes to, and so are the places in
the input at which the parsers of server and client call the two functions.

The bound holds for every token that is short enough, and for no other.  A loop of `read_string`
that a delimiter ends stores its terminator inside the buffer; a loop that runs to `max` stores it
at `buffer[max]`.  `read_uint` has no bound at all.  `ParserUse.stores_inside_iff` turns this into a
condition on the text for each parser, and `readString_ok_iff` and `readUintLoop_ok_iff` say that
these are the stores the model faults at.
-/

namespace Kvs

/-! ## The stores of the two readers -/

/-- A store into a buffer. -/
structure Store where
  size : ℕ
  index : ℕ
  deriving DecidableEq, Repr

def Store.Inside (store : Store) : Prop := store.index < store.size

instance (store : Store) : Decidable store.Inside :=
  inferInstanceAs (Decidable (store.index < store.size))

/-- The stores of `read_string` with `i` characters stored: each byte of the token, and the
terminator unless a space or the end of the file comes first. -/
def readStringStores (max : ℕ) : ℕ → Input → List Store
  | i, [] => if i < max then [] else [⟨max, i⟩]
  | i, ch :: input =>
      if i < max then
        if ch = char ' ' then []
        else if ch = char ',' ∨ ch = char ')' ∨ ch = char ']' then [⟨max, i⟩]
        else ⟨max, i⟩ :: readStringStores max (i + 1) input
      else [⟨max, i⟩]

/-- The stores of `read_uint` with `i` digits stored: every byte is read into the buffer, and the
one that is no digit is overwritten by the terminator. -/
def readUintStores : ℕ → Input → List Store
  | _, [] => []
  | i, ch :: input =>
      ⟨uintBufferSize, i⟩ ::
        if isDigit ch then readUintStores (i + 1) input else [⟨uintBufferSize, i⟩]

/-! ## Short tokens and short numbers -/

/-- A byte of a token. -/
def isPlain (c : Byte) : Bool := !isDelimiter c

/-- Fewer than `max` bytes stand in front of the next delimiter, or of the end. -/
def TokenFits (max : ℕ) (input : Input) : Prop := (input.takeWhile isPlain).length < max

/-- Up to fifteen digits come next, or sixteen at the end of the file. -/
def NumberFits (input : Input) : Prop :=
  (input.takeWhile isDigit).length < uintBufferSize ∨
    ((input.takeWhile isDigit).length = uintBufferSize ∧ input.dropWhile isDigit = [])

instance (max : ℕ) (input : Input) : Decidable (TokenFits max input) :=
  inferInstanceAs (Decidable (_ < _))

instance (input : Input) : Decidable (NumberFits input) := inferInstanceAs (Decidable (_ ∨ _))

/-- A delimiter ends the token with at most the terminator stored. -/
lemma readStringStores_stop {max i : ℕ} {c : Byte} (hc : isDelimiter c = true) (hi : i < max)
    (rest : Input) : ∀ store ∈ readStringStores max i (c :: rest), store.Inside := by
  simp only [isDelimiter, decide_eq_true_eq] at hc
  rw [readStringStores, if_pos hi]
  intro store hstore
  split_ifs at hstore with hspace hother
  · simp at hstore
  · obtain rfl : store = ⟨max, i⟩ := by simpa using hstore
    exact hi
  · exact absurd hc (not_or.mpr ⟨hspace, hother⟩)

lemma readStringStores_store {max i : ℕ} {c : Byte} (hc : isDelimiter c = false) (hi : i < max)
    (rest : Input) : readStringStores max i (c :: rest)
      = ⟨max, i⟩ :: readStringStores max (i + 1) rest := by
  simp only [isDelimiter, decide_eq_false_iff_not, not_or] at hc
  obtain ⟨hspace, hother⟩ := hc
  rw [readStringStores, if_pos hi, if_neg hspace, if_neg (by simpa only [not_or] using hother)]

/-- The stores of `read_string` stay inside if and only if the token ends in time, by induction over
the input. -/
lemma readStringStores_inside_iff {max : ℕ} (i : ℕ) (input : Input) :
    (∀ store ∈ readStringStores max i input, store.Inside) ↔
      i + (input.takeWhile isPlain).length < max := by
  induction input generalizing i with
  | nil =>
      rw [readStringStores]
      by_cases hi : i < max
      · simp [hi]
      · simp [hi, Store.Inside]
  | cons c input ih =>
      by_cases hi : i < max
      · cases hc : isDelimiter c with
        | true =>
            rw [List.takeWhile_cons_of_neg (by simp [isPlain, hc]), List.length_nil, Nat.add_zero]
            exact ⟨fun _ => hi, fun _ => readStringStores_stop hc hi input⟩
        | false =>
            have hstore : (⟨max, i⟩ : Store).Inside := hi
            rw [readStringStores_store hc hi, List.takeWhile_cons_of_pos (by simp [isPlain, hc]),
              List.length_cons, List.forall_mem_cons, ih]
            constructor
            · rintro ⟨-, hlt⟩
              omega
            · intro hlt
              exact ⟨hstore, by omega⟩
      · have hout : ¬ (⟨max, i⟩ : Store).Inside := hi
        rw [readStringStores, if_neg hi]
        constructor
        · intro hall
          exact absurd (hall _ (by simp)) hout
        · intro hlt
          omega

/-- The stores of `read_uint`, by induction over the input. -/
lemma readUintStores_inside_iff {i : ℕ} (hi : i ≤ uintBufferSize) (input : Input) :
    (∀ store ∈ readUintStores i input, store.Inside) ↔
      i + (input.takeWhile isDigit).length < uintBufferSize ∨
        (i + (input.takeWhile isDigit).length = uintBufferSize ∧ input.dropWhile isDigit = []) := by
  induction input generalizing i with
  | nil =>
      simp only [readUintStores, List.takeWhile_nil, List.dropWhile_nil, List.length_nil]
      constructor
      · intro _
        rcases Nat.lt_or_eq_of_le hi with hlt | heq
        · exact Or.inl hlt
        · exact Or.inr ⟨heq, trivial⟩
      · intro _
        simp
  | cons c input ih =>
      rw [readUintStores, List.forall_mem_cons]
      cases hc : isDigit c with
      | true =>
          rw [if_pos rfl, List.takeWhile_cons_of_pos hc, List.dropWhile_cons_of_pos hc,
            List.length_cons]
          by_cases hlt : i < uintBufferSize
          · have hstore : (⟨uintBufferSize, i⟩ : Store).Inside := hlt
            have harith : i + 1 + (input.takeWhile isDigit).length
                = i + ((input.takeWhile isDigit).length + 1) := by omega
            rw [ih hlt, harith]
            exact ⟨fun h => h.2, fun h => ⟨hstore, h⟩⟩
          · have hout : ¬ (⟨uintBufferSize, i⟩ : Store).Inside := hlt
            constructor
            · rintro ⟨hstore, -⟩
              exact absurd hstore hout
            · rintro (h | ⟨h, -⟩) <;> omega
      | false =>
          rw [List.takeWhile_cons_of_neg (by simp [hc]), List.dropWhile_cons_of_neg (by simp [hc])]
          simp [Store.Inside]

/-! ## The stores are those of the model -/

/-- `read_string` ends well if and only if all its stores are inside. -/
lemma readStringLoop_ok_iff {max : ℕ} (buffer : List Byte) (input : Input) :
    (∃ r, readStringLoop max buffer input = .ok r) ↔
      ∀ store ∈ readStringStores max buffer.length input, store.Inside := by
  rw [readStringStores_inside_iff]
  induction input generalizing buffer with
  | nil =>
      rw [readStringLoop]
      by_cases hlen : buffer.length < max
      · simp [hlen]
      · simp [hlen]
  | cons c input ih =>
      by_cases hlen : buffer.length < max
      · cases hc : isDelimiter c with
        | true =>
            rw [readStringLoop_stop input hc hlen,
              List.takeWhile_cons_of_neg (by simp [isPlain, hc])]
            simp [hlen]
        | false =>
            rw [readStringLoop_store input hc hlen, ih,
              List.takeWhile_cons_of_pos (by simp [isPlain, hc]), List.length_append,
              List.length_singleton, List.length_cons]
            omega
      · rw [readStringLoop, if_neg hlen]
        constructor
        · rintro ⟨r, hr⟩
          cases hr
        · intro hlt
          omega

lemma readString_ok_iff {max : ℕ} (input : Input) :
    (∃ r, readString max input = .ok r) ↔
      ∀ store ∈ readStringStores max 0 input, store.Inside :=
  readStringLoop_ok_iff [] input

/-- The loop of `read_uint` ends well if and only if all its stores are inside. -/
lemma readUintLoop_ok_iff {digits : List Byte} (hlen : digits.length ≤ uintBufferSize)
    (input : Input) : (∃ r, readUintLoop digits input = .ok r) ↔
      ∀ store ∈ readUintStores digits.length input, store.Inside := by
  induction input generalizing digits with
  | nil => simp [readUintLoop, readUintStores]
  | cons c input ih =>
      rw [readUintLoop, readUintStores, List.forall_mem_cons]
      by_cases hlt : digits.length < uintBufferSize
      · have hstore : (⟨uintBufferSize, digits.length⟩ : Store).Inside := hlt
        rw [if_pos hlt]
        split_ifs with hc
        · have hsucc : (digits ++ [c]).length = digits.length + 1 := by simp
          rw [ih (by omega), hsucc]
          exact ⟨fun h => ⟨hstore, h⟩, fun h => h.2⟩
        · simp [hstore]
      · have hout : ¬ (⟨uintBufferSize, digits.length⟩ : Store).Inside := hlt
        rw [if_neg hlt]
        constructor
        · rintro ⟨r, hr⟩
          cases hr
        · rintro ⟨hstore, -⟩
          exact absurd hstore hout

lemma readStringStores_tokenFits {max : ℕ} (input : Input) :
    (∀ store ∈ readStringStores max 0 input, store.Inside) ↔ TokenFits max input := by
  rw [readStringStores_inside_iff, Nat.zero_add, TokenFits]

lemma readUintStores_numberFits (input : Input) :
    (∀ store ∈ readUintStores 0 input, store.Inside) ↔ NumberFits input := by
  rw [readUintStores_inside_iff (Nat.zero_le _), Nat.zero_add, NumberFits]

/-! ## The calls -/

/-- Where `parse_pair` calls `read_string`: for the key, and behind a comma for the value. -/
def pairCalls (input : Input) : List Input :=
  input :: match readString maxStringSize input with
    | .ok (output, _, rest) => if output ≠ 0 then [] else [rest]
    | .error _ => []

/-- The calls in the loop of `parse_write`. -/
def writeLoopCalls : ℕ → Input → List Input
  | 0, _ => []
  | room + 1, input =>
      pairCalls input ++ match parsePair input with
        | .ok (some _, ch :: rest) => if ch = char '(' then writeLoopCalls room rest else []
        | _ => []

def writeCalls (maxPairs : ℕ) : Input → List Input
  | ch :: ch' :: input => if ch = char '[' ∧ ch' = char '(' then writeLoopCalls maxPairs input else []
  | _ => []

/-- The calls in the loops of `parse_read_delete` and `parse_list`. -/
def keysLoopCalls : ℕ → Input → List Input
  | 0, _ => []
  | room + 1, input =>
      input :: match readString maxStringSize input with
        | .ok (output, _, rest) =>
            if output < 0 ∨ output = 1 ∨ output = 2 then [] else keysLoopCalls room rest
        | .error _ => []

def keysCalls (maxKeys : ℕ) : Input → List Input
  | [] => []
  | ch :: input => if ch = char '[' then keysLoopCalls maxKeys input else []

/-- Where `parse_wait` calls `read_uint`: for the delay, and behind a space for the thread. -/
def waitCalls (stale : List Byte) (threadId : Bool) (input : Input) : List Input :=
  input :: match readUint stale input with
    | .ok (some _, ch, rest) => if ch = char ' ' ∧ threadId = true then [rest] else []
    | _ => []

/-- The functions of the two parsers that read strings or numbers. -/
inductive ParserUse where
  | parsePair
  | parseWrite (maxPairs : ℕ)
  | parseReadDelete (maxKeys : ℕ)
  | parseWait (threadId : Bool)
  | parseList (maxKeys : ℕ)
  | parseDelay
  deriving DecidableEq, Repr

/-- Every store that `read_string` and `read_uint` make for it. -/
def ParserUse.stores (stale : List Byte) (input : Input) : ParserUse → List Store
  | .parsePair => (pairCalls input).flatMap (readStringStores maxStringSize 0)
  | .parseWrite maxPairs => (writeCalls maxPairs input).flatMap (readStringStores maxStringSize 0)
  | .parseReadDelete maxKeys => (keysCalls maxKeys input).flatMap (readStringStores maxStringSize 0)
  | .parseWait threadId => (waitCalls stale threadId input).flatMap (readUintStores 0)
  | .parseList maxKeys => (keysCalls maxKeys input).flatMap (readStringStores maxStringSize 0)
  | .parseDelay => readUintStores 0 input

/-! ## The texts that fit -/

/-- Key and value of the pair that comes next are short enough, as far as they are read. -/
def PairFits (input : Input) : Prop :=
  TokenFits maxStringSize input ∧ ∀ (key : Token) (rest : Input),
    input = key.val ++ char ',' :: rest → TokenFits maxStringSize rest

/-- Behind every opening parenthesis of a list that is read, a pair that fits. -/
def WriteFits (maxPairs : ℕ) (input : Input) : Prop :=
  ∀ (pairs : List (Token × Token)) (rest : Input), pairs.length < maxPairs →
    input = char '[' :: (Token.pairsText pairs ++ char '(' :: rest) → PairFits rest

/-- Keys and the commas behind them. -/
def Token.keysCommas (keys : List Token) : List Byte :=
  keys.flatMap fun key => key.val ++ [char ',']

/-- Behind the bracket and behind every comma of a list that is read, a key that fits. -/
def KeysFit (maxKeys : ℕ) (input : Input) : Prop :=
  ∀ (keys : List Token) (rest : Input), keys.length < maxKeys →
    input = char '[' :: (Token.keysCommas keys ++ rest) → TokenFits maxStringSize rest

/-- A delay that fits, and behind a space a thread identifier that does, if one is asked for. -/
def WaitFits (threadId : Bool) (input : Input) : Prop :=
  NumberFits input ∧ ∀ digits rest : List Byte, Digits digits → decimal digits ≤ uintMax →
    input = digits ++ char ' ' :: rest → threadId = true → NumberFits rest

/-- Every token and every number that is read is short enough for its buffer. -/
def ParserUse.Fits (input : Input) : ParserUse → Prop
  | .parsePair => PairFits input
  | .parseWrite maxPairs => WriteFits maxPairs input
  | .parseReadDelete maxKeys => KeysFit maxKeys input
  | .parseWait threadId => WaitFits threadId input
  | .parseList maxKeys => KeysFit maxKeys input
  | .parseDelay => NumberFits input

/-! ## The calls and the texts -/

lemma pairCalls_fit_iff (input : Input) :
    (∀ call ∈ pairCalls input, TokenFits maxStringSize call) ↔ PairFits input := by
  have hcomma : isDelimiter (char ',') = true := by decide
  rw [pairCalls, List.forall_mem_cons, PairFits]
  refine and_congr_right fun _ => ?_
  constructor
  · rintro hcalls key rest rfl
    have hread := key.readString_eq hcomma rest
    rw [hread] at hcalls
    dsimp only at hcalls
    rw [if_neg (by decide)] at hcalls
    exact hcalls rest (by simp)
  · intro hfits call hcall
    cases hread : readString maxStringSize input with
    | error e => simp [hread] at hcall
    | ok r =>
        obtain ⟨output, bytes, rest⟩ := r
        rw [hread] at hcall
        dsimp only at hcall
        split_ifs at hcall with houtput
        · simp at hcall
        · obtain rfl : call = rest := by simpa using hcall
          obtain rfl : output = delimiterCode (char ',') := not_not.mp houtput
          obtain ⟨key, -, hinput⟩ := (readString_iff hcomma (by decide)).mp hread
          exact hfits key call hinput

/-- Pairs and an opening parenthesis start with a parenthesis. -/
lemma Token.pairsText_open (pairs : List (Token × Token)) (rest : Input) :
    ∃ behind, pairsText pairs ++ char '(' :: rest = char '(' :: behind := by
  cases pairs with
  | nil => exact ⟨rest, rfl⟩
  | cons p pairs => exact ⟨_, pairsText_cons_append p pairs _⟩

/-- The loop of `parse_write`, behind an opening parenthesis, by induction over the room. -/
lemma writeLoopCalls_fit_iff (room : ℕ) (input : Input) :
    (∀ call ∈ writeLoopCalls room input, TokenFits maxStringSize call) ↔
      ∀ (pairs : List (Token × Token)) (rest : Input), pairs.length < room →
        char '(' :: input = Token.pairsText pairs ++ char '(' :: rest → PairFits rest := by
  induction room generalizing input with
  | zero => simp [writeLoopCalls]
  | succ room ih =>
      rw [writeLoopCalls, List.forall_mem_append, pairCalls_fit_iff]
      constructor
      · rintro ⟨hpair, hmore⟩ pairs rest hlt hshape
        cases pairs with
        | nil =>
            obtain rfl : input = rest := by simpa using hshape
            exact hpair
        | cons p pairs =>
            rw [Token.pairsText_cons_append] at hshape
            obtain ⟨behind, hbehind⟩ := Token.pairsText_open pairs rest
            rw [hbehind] at hshape
            have hparse := parsePair_iff.mpr ⟨p, rfl, (List.cons.inj hshape).2⟩
            rw [hparse] at hmore
            dsimp only at hmore
            rw [if_pos rfl] at hmore
            exact (ih behind).mp hmore pairs rest (Nat.lt_of_succ_lt_succ hlt) hbehind.symm
      · intro hfits
        refine ⟨hfits [] input (Nat.succ_pos _) rfl, ?_⟩
        intro call hcall
        match hparse : parsePair input with
        | .ok (some pair, ch :: behind) =>
            rw [hparse] at hcall
            dsimp only at hcall
            split_ifs at hcall with hch
            · obtain rfl := hch
              obtain ⟨p, -, rfl⟩ := parsePair_iff.mp hparse
              refine (ih behind).mpr ?_ call hcall
              intro pairs rest hlt hshape
              refine hfits (p :: pairs) rest (Nat.succ_lt_succ hlt) ?_
              rw [Token.pairsText_cons_append, ← hshape]
            · simp at hcall
        | .ok (some pair, []) => simp [hparse] at hcall
        | .ok (none, behind) => simp [hparse] at hcall
        | .error e => simp [hparse] at hcall

lemma writeCalls_fit_iff (maxPairs : ℕ) (input : Input) :
    (∀ call ∈ writeCalls maxPairs input, TokenFits maxStringSize call) ↔
      WriteFits maxPairs input := by
  match input with
  | [] => simp [writeCalls, WriteFits]
  | [ch] =>
      refine ⟨fun _ pairs rest _ hshape => ?_, fun _ => by simp [writeCalls]⟩
      obtain ⟨behind, hbehind⟩ := Token.pairsText_open pairs rest
      rw [hbehind] at hshape
      simp at hshape
  | ch :: ch' :: input =>
      rw [writeCalls]
      split_ifs with hopen
      · obtain ⟨rfl, rfl⟩ := hopen
        rw [writeLoopCalls_fit_iff, WriteFits]
        simp only [List.cons.injEq, true_and]
      · refine ⟨fun _ pairs rest _ hshape => ?_, fun _ => by simp⟩
        obtain ⟨behind, hbehind⟩ := Token.pairsText_open pairs rest
        rw [hbehind] at hshape
        simp only [List.cons.injEq] at hshape
        exact absurd ⟨hshape.1, hshape.2.1⟩ hopen

/-- The loops of `parse_read_delete` and `parse_list`, by induction over the room. -/
lemma keysLoopCalls_fit_iff (room : ℕ) (input : Input) :
    (∀ call ∈ keysLoopCalls room input, TokenFits maxStringSize call) ↔
      ∀ (keys : List Token) (rest : Input), keys.length < room →
        input = Token.keysCommas keys ++ rest → TokenFits maxStringSize rest := by
  have hcomma : isDelimiter (char ',') = true := by decide
  induction room generalizing input with
  | zero => simp [keysLoopCalls]
  | succ room ih =>
      rw [keysLoopCalls, List.forall_mem_cons]
      constructor
      · rintro ⟨hfirst, hmore⟩ keys rest hlt hshape
        cases keys with
        | nil =>
            obtain rfl : input = rest := by simpa [Token.keysCommas] using hshape
            exact hfirst
        | cons key keys =>
            have hinput : input = key.val ++ char ',' :: (Token.keysCommas keys ++ rest) := by
              simpa [Token.keysCommas] using hshape
            have hread := key.readString_eq hcomma (Token.keysCommas keys ++ rest)
            rw [hinput, hread] at hmore
            dsimp only at hmore
            rw [if_neg (by decide)] at hmore
            exact (ih _).mp hmore keys rest (Nat.lt_of_succ_lt_succ hlt) rfl
      · intro hfits
        refine ⟨hfits [] input (Nat.succ_pos _) rfl, ?_⟩
        intro call hcall
        cases hread : readString maxStringSize input with
        | error e => simp [hread] at hcall
        | ok r =>
            obtain ⟨output, bytes, behind⟩ := r
            rw [hread] at hcall
            dsimp only at hcall
            split_ifs at hcall with houtput
            · simp at hcall
            · obtain ⟨hbad, hclose⟩ : ¬ (output < 0 ∨ output = 1) ∧ output ≠ 2 := by
                simpa only [or_assoc, not_or, and_assoc] using houtput
              obtain rfl := readString_comma hread hbad hclose
              obtain ⟨key, -, rfl⟩ := (readString_iff hcomma (by decide)).mp hread
              refine (ih behind).mpr ?_ call hcall
              rintro keys rest hlt rfl
              refine hfits (key :: keys) rest (Nat.succ_lt_succ hlt) ?_
              simp [Token.keysCommas]

lemma keysCalls_fit_iff (maxKeys : ℕ) (input : Input) :
    (∀ call ∈ keysCalls maxKeys input, TokenFits maxStringSize call) ↔ KeysFit maxKeys input := by
  cases input with
  | nil => simp [keysCalls, KeysFit]
  | cons ch input =>
      rw [keysCalls]
      split_ifs with hopen
      · obtain rfl := hopen
        rw [keysLoopCalls_fit_iff, KeysFit]
        simp only [List.cons.injEq, true_and]
      · refine ⟨fun _ keys rest _ hshape => ?_, fun _ => by simp⟩
        exact absurd (List.cons.inj hshape).1 hopen

/-- A number that fits and a space are read as far as the space. -/
lemma readUint_space {stale digits rest : List Byte} (hdigits : Digits digits)
    (hfits : NumberFits (digits ++ char ' ' :: rest)) :
    readUint stale (digits ++ char ' ' :: rest) = .ok (asUint (decimal digits), char ' ', rest) := by
  have hspace : isDigit (char ' ') = false := by decide
  have hlen : digits.length < uintBufferSize := by
    rw [NumberFits, takeWhile_digits hdigits hspace, dropWhile_digits hdigits hspace] at hfits
    exact hfits.resolve_right fun h => absurd h.2 (by simp)
  exact readUint_number hdigits hspace hlen

lemma waitCalls_fit_iff (stale : List Byte) (threadId : Bool) (input : Input) :
    (∀ call ∈ waitCalls stale threadId input, NumberFits call) ↔ WaitFits threadId input := by
  rw [waitCalls, List.forall_mem_cons, WaitFits]
  refine and_congr_right fun hfirst => ?_
  constructor
  · rintro hcalls digits rest hdigits hvalue rfl hthread
    have hsome : asUint (decimal digits) = some (decimal digits) := if_neg (by omega)
    rw [readUint_space hdigits hfirst, hsome] at hcalls
    exact hcalls rest (by simp [hthread])
  · intro hfits call hcall
    match hread : readUint stale input with
    | .ok (some value, ch, rest) =>
        rw [hread] at hcall
        dsimp only at hcall
        split_ifs at hcall with hspace
        · obtain rfl : call = rest := by simpa using hcall
          obtain ⟨rfl, hthread⟩ := hspace
          rcases readUint_eq_ok hread with ⟨-, hzero, -⟩ | ⟨digits, hdigits, -, hvalue, rfl⟩
          · exact absurd hzero (by decide)
          · have hsmall : ¬ uintMax < decimal digits := by
              rw [← asUint_eq_none_iff, ← hvalue]
              simp
            exact hfits digits call hdigits (not_lt.mp hsmall) rfl hthread
        · simp at hcall
    | .ok (none, ch, rest) => simp [hread] at hcall
    | .error e => simp [hread] at hcall

/-! ## The calls are those of the model -/

lemma readString_fits_iff (input : Input) :
    (∃ r, readString maxStringSize input = .ok r) ↔ TokenFits maxStringSize input := by
  rw [readString_ok_iff, readStringStores_tokenFits]

/-- A token that was read is copied as well. -/
lemma strcpy_readString {input bytes rest : List Byte} {code : ℤ}
    (h : readString maxStringSize input = .ok (code, bytes, rest)) :
    ∃ key, strcpy maxStringSize (.ofBuffer bytes) = .ok key := by
  obtain ⟨hplain, hlen, -⟩ := readString_eq_ok h
  exact ⟨_, Token.strcpy_eq ⟨bytes, hplain, hlen⟩⟩

lemma parsePair_ok_iff (input : Input) : (∃ r, parsePair input = .ok r) ↔
    ∀ call ∈ pairCalls input, TokenFits maxStringSize call := by
  rw [pairCalls, List.forall_mem_cons, ← readString_fits_iff]
  cases hkey : readString maxStringSize input with
  | error e => simp [parsePair, hkey]
  | ok r =>
      obtain ⟨output, bytes, rest⟩ := r
      dsimp only
      by_cases houtput : output ≠ 0
      · simp [parsePair, hkey, houtput]
      · simp only [parsePair, hkey, ok_bind, if_neg houtput, List.forall_mem_singleton,
          ← readString_fits_iff]
        cases readString maxStringSize rest with
        | error e => simp
        | ok r =>
            obtain ⟨output', bytes', rest'⟩ := r
            simp only [ok_bind]
            split_ifs <;> simp

/-- The loop of `parse_write` ends well if and only if every token it reads fits. -/
lemma parseWriteLoop_ok_iff (room : ℕ) (input : Input) : (∃ r, parseWriteLoop room input = .ok r) ↔
    ∀ call ∈ writeLoopCalls room input, TokenFits maxStringSize call := by
  induction room generalizing input with
  | zero => simp [parseWriteLoop, writeLoopCalls]
  | succ room ih =>
      rw [writeLoopCalls, List.forall_mem_append, ← parsePair_ok_iff]
      cases hparse : parsePair input with
      | error e => simp [parseWriteLoop, hparse]
      | ok r =>
          obtain ⟨pair, behind⟩ := r
          cases pair with
          | none => simp [parseWriteLoop, hparse]
          | some pair =>
              obtain ⟨p, rfl, -⟩ := parsePair_iff.mp hparse
              simp only [parseWriteLoop, hparse, ok_bind, Token.strcpy_eq]
              cases behind with
              | nil => simp
              | cons ch behind =>
                  dsimp only
                  split_ifs with hclose hopen hopen
                  · rw [hclose] at hopen
                    exact absurd hopen (by decide)
                  · simp
                  · rw [← ih behind]
                    cases parseWriteLoop room behind with
                    | error e => simp
                    | ok r => simp
                  · simp

/-- The loop of `parse_read_delete` ends well if and only if every token it reads fits. -/
lemma parseKeysLoop_ok_iff (room : ℕ) (input : Input) : (∃ r, parseKeysLoop room input = .ok r) ↔
    ∀ call ∈ keysLoopCalls room input, TokenFits maxStringSize call := by
  induction room generalizing input with
  | zero => simp [parseKeysLoop, keysLoopCalls]
  | succ room ih =>
      rw [keysLoopCalls, List.forall_mem_cons, ← readString_fits_iff]
      cases hread : readString maxStringSize input with
      | error e => simp [parseKeysLoop, hread]
      | ok r =>
          obtain ⟨output, bytes, rest⟩ := r
          obtain ⟨key, hkey⟩ := strcpy_readString hread
          simp only [parseKeysLoop, hread, ok_bind, hkey]
          by_cases hbad : output < 0 ∨ output = 1
          · have hstop : output < 0 ∨ output = 1 ∨ output = 2 := hbad.imp_right Or.inl
            simp [hbad, hstop]
          · by_cases hclose : output = 2
            · simp [hclose]
            · have hmore : ¬ (output < 0 ∨ output = 1 ∨ output = 2) := by
                rw [← or_assoc]
                exact not_or.mpr ⟨hbad, hclose⟩
              rw [if_neg hbad, if_neg hclose, if_neg hmore, ← ih rest]
              cases parseKeysLoop room rest with
              | error e => simp
              | ok r => simp

/-- **No store, no fault.**  The parsers of strings end well exactly when all stores that are listed
for them stay inside. -/
theorem parseWrite_ok_iff (maxPairs : ℕ) (input : Input) :
    (∃ r, parseWrite maxPairs input = .ok r) ↔
      ∀ call ∈ writeCalls maxPairs input, TokenFits maxStringSize call := by
  match input with
  | [] => simp [parseWrite, writeCalls]
  | [ch] =>
      simp only [parseWrite, writeCalls]
      split_ifs <;> simp
  | ch :: ch' :: input =>
      rw [writeCalls]
      split_ifs with hopen
      · obtain ⟨rfl, rfl⟩ := hopen
        rw [← parseWriteLoop_ok_iff]
        simp only [parseWrite, ne_eq, not_true_eq_false, if_false]
        cases parseWriteLoop maxPairs input with
        | error e => simp
        | ok r =>
            obtain ⟨pairs, behind⟩ := r
            cases pairs with
            | none => simp
            | some pairs => simp
      · by_cases hbracket : ch = char '['
        · have hparen : ch' ≠ char '(' := fun h => hopen ⟨hbracket, h⟩
          simp [parseWrite, hbracket, hparen]
        · simp [parseWrite, hbracket]

lemma parseReadDelete_ok_iff (maxKeys : ℕ) (input : Input) :
    (∃ r, parseReadDelete maxKeys input = .ok r) ↔
      ∀ call ∈ keysCalls maxKeys input, TokenFits maxStringSize call := by
  cases input with
  | nil => simp [parseReadDelete, keysCalls]
  | cons ch input =>
      rw [keysCalls]
      split_ifs with hopen
      · rw [← parseKeysLoop_ok_iff]
        simp only [parseReadDelete, ne_eq, hopen, not_true_eq_false, if_false]
        cases parseKeysLoop maxKeys input with
        | error e => simp
        | ok r =>
            obtain ⟨keys, behind⟩ := r
            cases keys with
            | none => simp
            | some keys => simp
      · simp [parseReadDelete, hopen]

lemma parseList_ok_iff (maxKeys : ℕ) (input : Input) :
    (∃ r, parseList maxKeys input = .ok r) ↔
      ∀ call ∈ keysCalls maxKeys input, TokenFits maxStringSize call := by
  cases input with
  | nil => simp [parseList, keysCalls]
  | cons ch input =>
      rw [keysCalls]
      split_ifs with hopen
      · rw [← parseKeysLoop_ok_iff, parseListLoop_keys maxKeys 2]
        simp only [parseList, ne_eq, hopen, not_true_eq_false, if_false]
        cases parseListLoop maxKeys 2 input with
        | error e => simp [Except.map]
        | ok r =>
            obtain ⟨list, behind⟩ := r
            cases list with
            | none => simp [Except.map]
            | some list =>
                simp only [ok_bind, Except.map]
                split_ifs
                · simp
                · cases behind with
                  | nil => simp
                  | cons c behind =>
                      dsimp only
                      split_ifs <;> simp
      · simp [parseList, hopen]

/-- A number that was read fits its buffer. -/
lemma readUint_ok_fits {stale : List Byte} {input : Input} {r : Option ℕ × Byte × Input}
    (h : readUint stale input = .ok r) : NumberFits input := by
  simp only [readUint, bind_eq_ok] at h
  obtain ⟨loop, hloop, -⟩ := h
  rw [← readUintStores_numberFits, ← List.length_nil, ← readUintLoop_ok_iff (Nat.zero_le _)]
  exact ⟨loop, hloop⟩

lemma parseDelay_ok_fits {stale : List Byte} {input : Input} {r : ℤ × Option ℕ × Input}
    (h : parseDelay stale input = .ok r) : NumberFits input := by
  simp only [parseDelay, bind_eq_ok] at h
  obtain ⟨number, hread, -⟩ := h
  exact readUint_ok_fits hread

lemma parseWait_ok_fits {stale stale' : List Byte} {threadId : Bool} {input : Input}
    {r : ℤ × Option ℕ × Option ℕ × Input} (h : parseWait stale stale' threadId input = .ok r) :
    ∀ call ∈ waitCalls stale threadId input, NumberFits call := by
  simp only [parseWait, bind_eq_ok] at h
  obtain ⟨⟨delay, ch, rest⟩, hread, h⟩ := h
  rw [waitCalls, List.forall_mem_cons]
  refine ⟨readUint_ok_fits hread, ?_⟩
  intro call hcall
  rw [hread] at hcall
  cases delay with
  | none => simp at hcall
  | some delay =>
      dsimp only at hcall h
      split_ifs at hcall with hspace
      · obtain rfl : call = rest := by simpa using hcall
        rw [if_neg (by simp), if_pos hspace.1, if_neg (by simp [hspace.2])] at h
        obtain ⟨thread, hthread, -⟩ := bind_eq_ok.mp h
        exact readUint_ok_fits hthread
      · simp at hcall

/-- **Where the stores go.**  For each of the six functions and every input, all stores stay inside
their buffers if and only if every token and every number that is read is short enough. -/
theorem ParserUse.stores_inside_iff (use : ParserUse) (stale : List Byte) (input : Input) :
    (∀ store ∈ use.stores stale input, store.Inside) ↔ use.Fits input := by
  cases use with
  | parsePair =>
      simp only [stores, Fits, List.forall_mem_flatMap, readStringStores_tokenFits,
        pairCalls_fit_iff]
  | parseWrite maxPairs =>
      simp only [stores, Fits, List.forall_mem_flatMap, readStringStores_tokenFits,
        writeCalls_fit_iff]
  | parseReadDelete maxKeys =>
      simp only [stores, Fits, List.forall_mem_flatMap, readStringStores_tokenFits,
        keysCalls_fit_iff]
  | parseWait threadId =>
      simp only [stores, Fits, List.forall_mem_flatMap, readUintStores_numberFits,
        waitCalls_fit_iff]
  | parseList maxKeys =>
      simp only [stores, Fits, List.forall_mem_flatMap, readStringStores_tokenFits,
        keysCalls_fit_iff]
  | parseDelay => simp only [stores, Fits, readUintStores_numberFits]

/-- A key of forty bytes has its terminator stored behind the buffer. -/
theorem readDelete_store_outside : ¬ ∀ store ∈ (ParserUse.parseReadDelete maxWriteSize).stores []
    (char '[' :: (List.replicate 40 (char 'a') ++ text "]\n")), store.Inside := by
  decide +kernel

end Kvs
