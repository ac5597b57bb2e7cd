import Kvs.Server.Parser

/-!
# What the readers of the parser consume

Nothing about a job line can be said before it is known how far each reader moves the file offset.
The three readers of `parser.c` are described here by the shape of the input in front of them:

* `cleanup` goes to the first newline and past it;
* `readString` takes a token — bytes none of which is a delimiter — and the delimiter behind it;
* `readUint` takes digits and the byte behind them.

For the last two there is a rule in each direction.  Forwards, the reader applied to an input of
the expected shape returns its parts; backwards, an input the reader succeeds on *has* that shape
(`readString_eq_ok`, `readUintLoop_eq_ok`).  A newline is not a delimiter: a token may run over it.
-/

namespace Kvs

/-! ## Lines -/

/-- An input either holds no newline or splits at the first one. -/
lemma exists_line (input : Input) : char '\n' ∉ input ∨
    ∃ line next, char '\n' ∉ line ∧ input = line ++ char '\n' :: next := by
  induction input with
  | nil =>
      left
      simp
  | cons ch input ih =>
      by_cases hch : ch = char '\n'
      · right
        exact ⟨[], input, by simp, by simp [hch]⟩
      · rcases ih with hno | ⟨line, next, hline, rfl⟩
        · left
          simpa [Ne.symm hch] using hno
        · right
          exact ⟨ch :: line, next, by simpa [Ne.symm hch] using hline, by simp⟩

lemma cleanup_line {line next : Input} (h : char '\n' ∉ line) :
    cleanup (line ++ char '\n' :: next) = next := by
  induction line with
  | nil => simp [cleanup]
  | cons ch line ih =>
      have hch : ch ≠ char '\n' := by
        intro heq
        exact h (by simp [heq])
      have hline : char '\n' ∉ line := by
        intro hmem
        exact h (List.mem_cons_of_mem _ hmem)
      simp [cleanup, hch, ih hline]

lemma cleanup_of_not_mem {input : Input} (h : char '\n' ∉ input) : cleanup input = [] := by
  induction input with
  | nil => rfl
  | cons ch input ih =>
      have hch : ch ≠ char '\n' := by
        intro heq
        exact h (by simp [heq])
      have hrest : char '\n' ∉ input := by
        intro hmem
        exact h (List.mem_cons_of_mem _ hmem)
      simp [cleanup, hch, ih hrest]

lemma cleanup_length_le (input : Input) : (cleanup input).length ≤ input.length := by
  induction input with
  | nil => simp [cleanup]
  | cons ch input ih =>
      rw [cleanup]
      split_ifs
      · simp
      · exact ih.trans (by simp)

/-- A cleanup of anything takes something away. -/
lemma cleanup_length_lt {input : Input} (h : input ≠ []) :
    (cleanup input).length < input.length := by
  cases input with
  | nil => exact absurd rfl h
  | cons ch input =>
      rw [cleanup]
      split_ifs
      · simp
      · exact Nat.lt_succ_of_le (cleanup_length_le input)

/-! ## Tokens -/

/-- The bytes that end a token. -/
def isDelimiter (c : Byte) : Bool :=
  c = char ' ' ∨ c = char ',' ∨ c = char ')' ∨ c = char ']'

/-- What `read_string` returns when it meets a delimiter. -/
def delimiterCode (c : Byte) : ℤ :=
  if c = char ' ' then -1 else if c = char ',' then 0 else if c = char ')' then 1 else 2

/-- Only a comma is reported as 0. -/
lemma delimiterCode_ne_zero {c : Byte} (hc : isDelimiter c = true) (hne : c ≠ char ',') :
    delimiterCode c ≠ 0 := by
  simp only [isDelimiter, decide_eq_true_eq] at hc
  rcases hc with rfl | rfl | rfl | rfl
  · decide
  · exact absurd rfl hne
  · decide
  · decide

/-- Only a closing parenthesis is reported as 1. -/
lemma delimiterCode_ne_one {c : Byte} (hc : isDelimiter c = true) (hne : c ≠ char ')') :
    delimiterCode c ≠ 1 := by
  simp only [isDelimiter, decide_eq_true_eq] at hc
  rcases hc with rfl | rfl | rfl | rfl
  · decide
  · decide
  · exact absurd rfl hne
  · decide

/-- No delimiter among the bytes. -/
def Plain (bytes : List Byte) : Prop := ∀ c ∈ bytes, isDelimiter c = false

instance (bytes : List Byte) : Decidable (Plain bytes) :=
  inferInstanceAs (Decidable (∀ c ∈ bytes, isDelimiter c = false))

lemma Plain.tail {c : Byte} {bytes : List Byte} (h : Plain (c :: bytes)) : Plain bytes := by
  intro b hb
  exact h b (List.mem_cons_of_mem _ hb)

/-- One iteration on a byte that ends the token. -/
lemma readStringLoop_stop {max : ℕ} {buffer : List Byte} {c : Byte} (rest : Input)
    (hc : isDelimiter c = true) (hlen : buffer.length < max) :
    readStringLoop max buffer (c :: rest) = .ok (delimiterCode c, buffer, rest) := by
  simp only [isDelimiter, decide_eq_true_eq] at hc
  rw [readStringLoop, if_pos hlen, delimiterCode]
  rcases hc with rfl | rfl | rfl | rfl <;> rfl

/-- One iteration on a byte of the token. -/
lemma readStringLoop_store {max : ℕ} {buffer : List Byte} {c : Byte} (rest : Input)
    (hc : isDelimiter c = false) (hlen : buffer.length < max) :
    readStringLoop max buffer (c :: rest) = readStringLoop max (buffer ++ [c]) rest := by
  simp only [isDelimiter, decide_eq_false_iff_not, not_or] at hc
  obtain ⟨h₁, h₂, h₃, h₄⟩ := hc
  rw [readStringLoop, if_pos hlen, if_neg h₁, if_neg h₂, if_neg h₃, if_neg h₄]

/-- **Forwards.**  A token and a delimiter are taken, both. -/
lemma readStringLoop_token {max : ℕ} {d : Byte} {rest : Input} (hd : isDelimiter d = true)
    {token buffer : List Byte} (hplain : Plain token)
    (hlen : buffer.length + token.length < max) :
    readStringLoop max buffer (token ++ d :: rest)
      = .ok (delimiterCode d, buffer ++ token, rest) := by
  induction token generalizing buffer with
  | nil =>
      rw [List.nil_append, readStringLoop_stop rest hd (by simpa using hlen), List.append_nil]
  | cons c token ih =>
      rw [List.length_cons] at hlen
      have hlen' : (buffer ++ [c]).length + token.length < max := by
        rw [List.length_append, List.length_singleton]
        omega
      rw [List.cons_append, readStringLoop_store _ (hplain c (by simp)) (by omega),
        ih hplain.tail hlen', List.append_assoc, List.singleton_append]

lemma readString_token {max : ℕ} {d : Byte} {token rest : List Byte} (hd : isDelimiter d = true)
    (hplain : Plain token) (hlen : token.length < max) :
    readString max (token ++ d :: rest) = .ok (delimiterCode d, token, rest) :=
  readStringLoop_token hd hplain (by simpa using hlen)

/-- What stands in front of the reader when the loop ends well. -/
lemma readStringLoop_eq_ok {max : ℕ} {input buffer : List Byte} {code : ℤ}
    {stored rest : List Byte} (h : readStringLoop max buffer input = .ok (code, stored, rest)) :
    ∃ token, Plain token ∧ stored = buffer ++ token ∧ stored.length < max ∧
      ((code = -1 ∧ input = token ∧ rest = []) ∨
        ∃ d, isDelimiter d = true ∧ code = delimiterCode d ∧ input = token ++ d :: rest) := by
  induction input generalizing buffer with
  | nil =>
      rw [readStringLoop] at h
      split_ifs at h with hlen
      obtain ⟨rfl, rfl, rfl⟩ : -1 = code ∧ buffer = stored ∧ [] = rest := by simpa using h
      exact ⟨[], fun _ hc => absurd hc (by simp), by simp, hlen, Or.inl ⟨rfl, rfl, rfl⟩⟩
  | cons c input ih =>
      by_cases hlen : buffer.length < max
      · cases hc : isDelimiter c with
        | true =>
            rw [readStringLoop_stop input hc hlen] at h
            obtain ⟨rfl, rfl, rfl⟩ :
              delimiterCode c = code ∧ buffer = stored ∧ input = rest := by simpa using h
            exact ⟨[], fun _ hc => absurd hc (by simp), by simp, hlen,
              Or.inr ⟨c, hc, rfl, rfl⟩⟩
        | false =>
            rw [readStringLoop_store input hc hlen] at h
            obtain ⟨token, hplain, rfl, hlt, hshape⟩ := ih h
            refine ⟨c :: token, ?_, by simp, hlt, ?_⟩
            · intro b hb
              rcases List.mem_cons.mp hb with rfl | hb
              · exact hc
              · exact hplain b hb
            · rcases hshape with ⟨hcode, rfl, hrest⟩ | ⟨d, hd, hcode, rfl⟩
              · exact Or.inl ⟨hcode, rfl, hrest⟩
              · exact Or.inr ⟨d, hd, hcode, rfl⟩
      · rw [readStringLoop, if_neg hlen] at h
        cases h

/-- **Backwards.**  A string that was read ended at a delimiter or at the end of the file. -/
lemma readString_eq_ok {max : ℕ} {input : Input} {code : ℤ} {token rest : List Byte}
    (h : readString max input = .ok (code, token, rest)) :
    Plain token ∧ token.length < max ∧
      ((code = -1 ∧ input = token ∧ rest = []) ∨
        ∃ d, isDelimiter d = true ∧ code = delimiterCode d ∧ input = token ++ d :: rest) := by
  obtain ⟨token', hplain, hstored, hlen, hshape⟩ := readStringLoop_eq_ok h
  obtain rfl : token = token' := by simpa using hstored
  exact ⟨hplain, hlen, hshape⟩

/-- Two splits at a delimiter behind a plain token are the same split. -/
lemma token_unique {d e : Byte} {a b x y : List Byte} (hd : isDelimiter d = true)
    (he : isDelimiter e = true) (ha : Plain a) (hb : Plain b) (h : a ++ d :: x = b ++ e :: y) :
    a = b ∧ d = e ∧ x = y := by
  induction a generalizing b with
  | nil =>
      cases b with
      | nil => simpa using h
      | cons c b =>
          obtain ⟨rfl, -⟩ : d = c ∧ _ := by simpa using h
          simp [hb d (by simp)] at hd
  | cons c a ih =>
      cases b with
      | nil =>
          obtain ⟨rfl, -⟩ : c = e ∧ _ := by simpa using h
          simp [ha c (by simp)] at he
      | cons c' b =>
          rw [List.cons_append, List.cons_append] at h
          obtain ⟨rfl, htail⟩ := List.cons.inj h
          obtain ⟨rfl, rfl, rfl⟩ := ih ha.tail hb.tail htail
          exact ⟨rfl, rfl, rfl⟩

/-! ## Numbers -/

/-- The digits are digits. -/
def Digits (digits : List Byte) : Prop := ∀ c ∈ digits, isDigit c = true

instance (digits : List Byte) : Decidable (Digits digits) :=
  inferInstanceAs (Decidable (∀ c ∈ digits, isDigit c = true))

/-- The number written by some digits. -/
def decimal (digits : List Byte) : ℕ :=
  digits.foldl (fun value c => 10 * value + (c.toNat - 48)) 0

lemma Digits.tail {c : Byte} {digits : List Byte} (h : Digits (c :: digits)) : Digits digits := by
  intro b hb
  exact h b (List.mem_cons_of_mem _ hb)

lemma isDigit_iff {c : Byte} : isDigit c = true ↔ 48 ≤ c.toNat ∧ c.toNat ≤ 57 := by
  simp only [isDigit, decide_eq_true_eq, UInt8.le_iff_toNat_le]
  rfl

lemma readUintLoop_digits {c : Byte} {rest : Input} (hc : isDigit c = false)
    {digits buffer : List Byte} (hdigits : Digits digits)
    (hlen : buffer.length + digits.length < uintBufferSize) :
    readUintLoop buffer (digits ++ c :: rest) = .ok (buffer ++ digits, some c, rest) := by
  induction digits generalizing buffer with
  | nil =>
      rw [List.nil_append, readUintLoop, if_pos (by simpa using hlen), if_neg (by simp [hc]),
        List.append_nil]
  | cons b digits ih =>
      rw [List.length_cons] at hlen
      have hlen' : (buffer ++ [b]).length + digits.length < uintBufferSize := by
        rw [List.length_append, List.length_singleton]
        omega
      rw [List.cons_append, readUintLoop, if_pos (by omega), if_pos (hdigits b (by simp)),
        ih hdigits.tail hlen',
        List.append_assoc, List.singleton_append]

lemma readUintLoop_eq_ok {input buffer digits : List Byte} {stop : Option Byte} {rest : Input}
    (h : readUintLoop buffer input = .ok (digits, stop, rest)) :
    ∃ taken, Digits taken ∧ digits = buffer ++ taken ∧
      ((stop = none ∧ input = taken ∧ rest = []) ∨
        ∃ c, stop = some c ∧ isDigit c = false ∧ input = taken ++ c :: rest) := by
  induction input generalizing buffer with
  | nil =>
      obtain ⟨rfl, rfl, rfl⟩ : buffer = digits ∧ none = stop ∧ [] = rest := by
        simpa [readUintLoop] using h
      exact ⟨[], fun _ hc => absurd hc (by simp), by simp, Or.inl ⟨rfl, rfl, rfl⟩⟩
  | cons b input ih =>
      rw [readUintLoop] at h
      split_ifs at h with hlen hb
      · obtain ⟨taken, htaken, rfl, hshape⟩ := ih h
        refine ⟨b :: taken, ?_, by simp, ?_⟩
        · intro a ha
          rcases List.mem_cons.mp ha with rfl | ha
          · exact hb
          · exact htaken a ha
        · rcases hshape with ⟨hstop, rfl, hrest⟩ | ⟨c, hstop, hc, rfl⟩
          · exact Or.inl ⟨hstop, rfl, hrest⟩
          · exact Or.inr ⟨c, hstop, hc, rfl⟩
      · obtain ⟨rfl, rfl, rfl⟩ : buffer = digits ∧ some b = stop ∧ input = rest := by
          simpa using h
        exact ⟨[], fun _ hc => absurd hc (by simp), by simp,
          Or.inr ⟨b, rfl, by simpa using hb, rfl⟩⟩

lemma strtoulDigits_digits {c : Byte} {rest : List Byte} (hc : isDigit c = false)
    {digits : List Byte} {value : ℕ} (hdigits : Digits digits) :
    strtoulDigits value (digits ++ c :: rest)
      = .ok (digits.foldl (fun value c => 10 * value + (c.toNat - 48)) value) := by
  induction digits generalizing value with
  | nil => simp [strtoulDigits, hc]
  | cons b digits ih =>
      rw [List.cons_append, strtoulDigits, if_pos (hdigits b (by simp)), ih hdigits.tail,
        List.foldl_cons]

/-- A digit is no space and no sign: a conversion that starts at one starts with it. -/
lemma strtoul_digit {b : Byte} (hb : isDigit b = true) (rest : List Byte) :
    strtoul (b :: rest)
      = (strtoulDigits 0 (b :: rest) >>= fun value => pure (min value ulongMax)) := by
  rw [isDigit_iff] at hb
  have hspace : isSpace b = false := by
    simp only [isSpace, decide_eq_false_iff_not, not_or]
    refine ⟨fun h => ?_, by omega⟩
    rw [h] at hb
    exact absurd hb (by decide)
  have hminus : b ≠ char '-' := by
    intro h
    rw [h] at hb
    exact absurd hb (by decide)
  have hplus : b ≠ char '+' := by
    intro h
    rw [h] at hb
    exact absurd hb (by decide)
  rw [strtoul, List.dropWhile_cons_of_neg (by simp [hspace])]
  simp only [hminus, if_false, hplus]

/-- Some digits and a byte that is none are converted to the number of the digits, or to the largest
there is. -/
lemma strtoul_stop {c : Byte} {digits stale : List Byte} (hdigits : Digits digits)
    (hne : digits ≠ []) (hc : isDigit c = false) :
    strtoul (digits ++ c :: stale) = .ok (min (decimal digits) ulongMax) := by
  have hconv : strtoulDigits 0 (digits ++ c :: stale) = .ok (decimal digits) :=
    strtoulDigits_digits hc hdigits
  cases digits with
  | nil => exact absurd rfl hne
  | cons b digits =>
      rw [List.cons_append] at hconv ⊢
      rw [strtoul_digit (hdigits b (by simp)), hconv, ok_bind, pure_eq_ok]

/-- A terminated buffer of digits, or of none. -/
lemma strtoul_digits {digits stale : List Byte} (hdigits : Digits digits) :
    strtoul (digits ++ 0 :: stale) = .ok (min (decimal digits) ulongMax) := by
  by_cases hne : digits = []
  · rw [hne]
    rfl
  · exact strtoul_stop hdigits hne (by decide)

/-- `readUint` in front of some digits and a byte that is none. -/
lemma readUint_digits {stale digits rest : List Byte} {c : Byte} (hdigits : Digits digits)
    (hc : isDigit c = false) (hlen : digits.length < uintBufferSize) :
    readUint stale (digits ++ c :: rest)
      = .ok (if min (decimal digits) ulongMax > uintMax then none
          else some (min (decimal digits) ulongMax), c, rest) := by
  have hloop : readUintLoop [] (digits ++ c :: rest) = .ok ([] ++ digits, some c, rest) :=
    readUintLoop_digits hc hdigits (by simpa using hlen)
  simp only [readUint, hloop, ok_bind, List.nil_append, strtoul_digits hdigits, pure_eq_ok,
    Option.getD_some]

end Kvs
