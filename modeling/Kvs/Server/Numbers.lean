import Kvs.Server.Tokens
import Mathlib.Tactic.Ring

/-!
# Numbers and the bytes behind them

`read_uint` collects digits in a buffer of sixteen bytes that nobody has cleared.  When another byte
ends the digits, a NUL is stored in its place and `strtoul` sees the digits and nothing else.  When
the file ends them, nothing is stored, and `strtoul` goes on into what the stack held before:

* `readUint_digits` — behind digits and another byte, the number is that of the digits;
* `readUint_end` — at the end of the file, it is that of the digits and of the `leftover` ones;
* `readUint_overflow` — sixteen digits leave no room for the byte behind them.

`parseWait_number_iff` says for which contents of the buffer `WAIT` reads the number written.
-/

namespace Kvs

/-! ## Digits and what stands behind them -/

/-- An input is digits, or digits and a byte that is none. -/
lemma exists_digits (input : Input) :
    Digits input ∨ ∃ digits c next, Digits digits ∧ isDigit c = false ∧
      input = digits ++ c :: next := by
  have hsplit := List.takeWhile_append_dropWhile (p := isDigit) (l := input)
  have hdigits : Digits (input.takeWhile isDigit) := fun _ hc => List.mem_takeWhile_imp hc
  cases hbehind : input.dropWhile isDigit with
  | nil =>
      rw [hbehind, List.append_nil] at hsplit
      rw [hsplit] at hdigits
      exact Or.inl hdigits
  | cons c next =>
      have hc := List.head_dropWhile_not isDigit (l := input) (by simp [hbehind])
      rw [hbehind] at hsplit
      exact Or.inr ⟨input.takeWhile isDigit, c, next, hdigits, by simpa [hbehind] using hc,
        hsplit.symm⟩

lemma takeWhile_digits {digits next : List Byte} {c : Byte} (hdigits : Digits digits)
    (hc : isDigit c = false) : (digits ++ c :: next).takeWhile isDigit = digits := by
  rw [List.takeWhile_append_of_pos hdigits, List.takeWhile_cons_of_neg (by simp [hc]),
    List.append_nil]

lemma dropWhile_digits {digits next : List Byte} {c : Byte} (hdigits : Digits digits)
    (hc : isDigit c = false) : (digits ++ c :: next).dropWhile isDigit = c :: next := by
  rw [List.dropWhile_append_of_pos hdigits, List.dropWhile_cons_of_neg (by simp [hc])]

/-! ## Decimal numbers -/

lemma decimal_foldl (digits : List Byte) (value : ℕ) :
    digits.foldl (fun value c => 10 * value + (c.toNat - 48)) value
      = 10 ^ digits.length * value + decimal digits := by
  induction digits generalizing value with
  | nil => simp [decimal]
  | cons c digits ih =>
      have hc : decimal (c :: digits) = 10 ^ digits.length * (c.toNat - 48) + decimal digits := by
        rw [decimal, List.foldl_cons, ih, Nat.mul_zero, Nat.zero_add]
      rw [List.foldl_cons, ih, hc, List.length_cons, pow_succ]
      ring

lemma decimal_append (digits more : List Byte) :
    decimal (digits ++ more) = 10 ^ more.length * decimal digits + decimal more := by
  rw [decimal, List.foldl_append, decimal_foldl]
  rfl

/-- More digits make no smaller number. -/
lemma decimal_le_append (digits more : List Byte) : decimal digits ≤ decimal (digits ++ more) := by
  have hpos : 0 < 10 ^ more.length := pow_pos (by decide) _
  rw [decimal_append]
  calc decimal digits ≤ 10 ^ more.length * decimal digits := Nat.le_mul_of_pos_left _ hpos
    _ ≤ 10 ^ more.length * decimal digits + decimal more := Nat.le_add_right _ _

lemma decimal_eq_zero_iff {digits : List Byte} (hdigits : Digits digits) :
    decimal digits = 0 ↔ ∀ c ∈ digits, c = char '0' := by
  induction digits with
  | nil => simp [decimal]
  | cons c digits ih =>
      have hc := isDigit_iff.mp (hdigits c (by simp))
      have hzero : c.toNat - 48 = 0 ↔ c = char '0' := by
        rw [← UInt8.toNat_inj]
        have hchar : (char '0').toNat = 48 := rfl
        omega
      have hcons : decimal (c :: digits)
          = 10 ^ digits.length * (c.toNat - 48) + decimal digits := by
        rw [← List.singleton_append, decimal_append]
        simp [decimal]
      rw [hcons, Nat.add_eq_zero_iff, ih hdigits.tail, Nat.mul_eq_zero, hzero]
      simp

/-- More digits make the same number only behind zeros, and then only zeros do. -/
lemma decimal_append_eq_iff {digits more : List Byte} (hdigits : Digits digits)
    (hmore : Digits more) : decimal (digits ++ more) = decimal digits ↔
      more = [] ∨ ∀ c ∈ digits ++ more, c = char '0' := by
  have hall : Digits (digits ++ more) := by
    intro c hc
    exact (List.mem_append.mp hc).elim (hdigits c) (hmore c)
  constructor
  · intro heq
    by_cases hne : more = []
    · exact Or.inl hne
    · right
      have hpos : 0 < more.length := List.length_pos_iff.mpr hne
      have hten : 10 ≤ 10 ^ more.length := Nat.le_self_pow hpos.ne' 10
      have hsum := heq
      rw [decimal_append] at hsum
      have hle : 10 * decimal digits ≤ 10 ^ more.length * decimal digits :=
        Nat.mul_le_mul_right _ hten
      have hzero : decimal digits = 0 := by omega
      rw [← decimal_eq_zero_iff hall, heq, hzero]
  · rintro (rfl | hzeros)
    · rw [List.append_nil]
    · have hprefix : ∀ c ∈ digits, c = char '0' := by
        intro c hc
        exact hzeros c (List.mem_append_left _ hc)
      rw [(decimal_eq_zero_iff hall).mpr hzeros, (decimal_eq_zero_iff hdigits).mpr hprefix]

/-! ## The digit buffer -/

/-- The bytes in the digit buffer before anything is stored there. -/
abbrev UintBuffer := { buf : List Byte // buf.length = uintBufferSize }

/-- The digits that stand in the buffer behind its first `n` bytes. -/
def leftover (buf : UintBuffer) (n : ℕ) : List Byte := (buf.val.drop n).takeWhile isDigit

/-- Something behind the first `n` bytes stops a conversion. -/
def StopsBehind (buf : UintBuffer) (n : ℕ) : Prop := ∃ c ∈ buf.val.drop n, isDigit c = false

instance (buf : UintBuffer) (n : ℕ) : Decidable (StopsBehind buf n) :=
  inferInstanceAs (Decidable (∃ c ∈ buf.val.drop n, isDigit c = false))

lemma leftover_digits (buf : UintBuffer) (n : ℕ) : Digits (leftover buf n) :=
  fun _ hc => List.mem_takeWhile_imp hc

/-- What stands behind the digits, if something stops them. -/
lemma StopsBehind.drop_eq {buf : UintBuffer} {n : ℕ} (h : StopsBehind buf n) :
    ∃ c rest, isDigit c = false ∧ buf.val.drop n = leftover buf n ++ c :: rest := by
  obtain ⟨c, hmem, hc⟩ := h
  have hsplit := List.takeWhile_append_dropWhile (p := isDigit) (l := buf.val.drop n)
  cases hbehind : (buf.val.drop n).dropWhile isDigit with
  | nil =>
      have hall := List.dropWhile_eq_nil_iff.mp hbehind c hmem
      rw [hc] at hall
      cases hall
  | cons b rest =>
      have hb : isDigit b = false := by
        have hhead := List.head_dropWhile_not isDigit (l := buf.val.drop n) (by simp [hbehind])
        simpa [hbehind] using hhead
      rw [hbehind] at hsplit
      exact ⟨b, rest, hb, hsplit.symm⟩

/-- Digits to the end of the buffer and no end to the conversion. -/
lemma strtoul_overread {digits : List Byte} (hdigits : Digits digits) :
    strtoul digits = .error .outOfBounds := by
  have hconv : ∀ (rest : List Byte) (value : ℕ), Digits rest →
      strtoulDigits value rest = .error .outOfBounds := by
    intro rest
    induction rest with
    | nil =>
        intro value _
        rfl
    | cons c rest ih =>
        intro value hrest
        rw [strtoulDigits, if_pos (hrest c (by simp))]
        exact ih _ hrest.tail
  cases digits with
  | nil => rfl
  | cons b digits => rw [strtoul_digit (hdigits b (by simp)), hconv _ _ hdigits, error_bind]

/-! ## `read_uint` -/

/-- The loop at the end of the file. -/
lemma readUintLoop_end {digits buffer : List Byte} (hdigits : Digits digits)
    (hlen : buffer.length + digits.length ≤ uintBufferSize) :
    readUintLoop buffer digits = .ok (buffer ++ digits, none, []) := by
  induction digits generalizing buffer with
  | nil => rw [readUintLoop, List.append_nil]
  | cons b digits ih =>
      rw [List.length_cons] at hlen
      have hlen' : (buffer ++ [b]).length + digits.length ≤ uintBufferSize := by
        rw [List.length_append, List.length_singleton]
        omega
      rw [readUintLoop, if_pos (by omega), if_pos (hdigits b (by simp)), ih hdigits.tail hlen',
        List.append_assoc, List.singleton_append]

/-- Sixteen digits and another byte: the byte is read into the place behind the buffer. -/
lemma readUintLoop_overflow {digits buffer rest : List Byte} (hdigits : Digits digits)
    (hrest : rest ≠ []) (hlen : uintBufferSize ≤ buffer.length + digits.length) :
    readUintLoop buffer (digits ++ rest) = .error .outOfBounds := by
  induction digits generalizing buffer with
  | nil =>
      cases rest with
      | nil => exact absurd rfl hrest
      | cons c rest =>
          rw [List.length_nil] at hlen
          rw [List.nil_append, readUintLoop, if_neg (by omega)]
  | cons b digits ih =>
      rw [List.length_cons] at hlen
      have hlen' : uintBufferSize ≤ (buffer ++ [b]).length + digits.length := by
        rw [List.length_append, List.length_singleton]
        omega
      rw [List.cons_append, readUintLoop]
      split_ifs with hroom hb
      · exact ih hdigits.tail hlen'
      · exact absurd (hdigits b (by simp)) hb
      · rfl

/-- What `read_uint` makes of a number. -/
def asUint (value : ℕ) : Option ℕ := if value > uintMax then none else some value

lemma asUint_min (value : ℕ) :
    (if min value ulongMax > uintMax then none else some (min value ulongMax)) = asUint value := by
  have hmax : uintMax < ulongMax := by decide
  unfold asUint
  by_cases hvalue : value > uintMax
  · rw [if_pos (lt_min hvalue hmax), if_pos hvalue]
  · rw [min_eq_left (by omega)]

lemma asUint_eq_none_iff {value : ℕ} : asUint value = none ↔ uintMax < value := by
  unfold asUint
  split_ifs with h <;> simp [h]

/-- Digits and a byte that is none. -/
lemma readUint_number {stale digits rest : List Byte} {c : Byte} (hdigits : Digits digits)
    (hc : isDigit c = false) (hlen : digits.length < uintBufferSize) :
    readUint stale (digits ++ c :: rest) = .ok (asUint (decimal digits), c, rest) := by
  rw [readUint_digits hdigits hc hlen, asUint_min]

lemma readUint_overflow {stale digits rest : List Byte} (hdigits : Digits digits)
    (hrest : rest ≠ []) (hlen : uintBufferSize ≤ digits.length) :
    readUint stale (digits ++ rest) = .error .outOfBounds := by
  have hloop : readUintLoop [] (digits ++ rest) = .error .outOfBounds :=
    readUintLoop_overflow hdigits hrest (by simpa using hlen)
  simp only [readUint, hloop, error_bind]

/-- Digits at the end of the file, and what stops them in the buffer. -/
lemma readUint_end {buf : UintBuffer} {digits : List Byte} (hdigits : Digits digits)
    (hne : digits ≠ []) (hstops : StopsBehind buf digits.length) :
    readUint buf.val digits
      = .ok (asUint (decimal (digits ++ leftover buf digits.length)), 0, []) := by
  have hlen : digits.length ≤ uintBufferSize := by
    by_contra hlong
    obtain ⟨c, hmem, -⟩ := hstops
    rw [List.drop_of_length_le (by rw [buf.prop]; omega)] at hmem
    cases hmem
  have hloop : readUintLoop [] digits = .ok ([] ++ digits, none, []) :=
    readUintLoop_end hdigits (by simpa using hlen)
  have hall : Digits (digits ++ leftover buf digits.length) := by
    intro c hc
    exact (List.mem_append.mp hc).elim (hdigits c) (leftover_digits buf _ c)
  obtain ⟨c, rest, hc, hdrop⟩ := hstops.drop_eq
  have hconv : strtoul (digits ++ (leftover buf digits.length ++ c :: rest))
      = .ok (min (decimal (digits ++ leftover buf digits.length)) ulongMax) := by
    rw [← List.append_assoc]
    exact strtoul_stop hall (by simp [hne]) hc
  simp only [readUint, hloop, ok_bind, List.nil_append, hdrop, hconv, pure_eq_ok, asUint_min,
    Option.getD_none]

/-- Digits at the end of the file, and nothing in the buffer that stops them. -/
lemma readUint_overread {buf : UintBuffer} {digits : List Byte} (hdigits : Digits digits)
    (hstops : ¬ StopsBehind buf digits.length) :
    readUint buf.val digits = .error .outOfBounds := by
  by_cases hlen : digits.length ≤ uintBufferSize
  · have hloop : readUintLoop [] digits = .ok ([] ++ digits, none, []) :=
      readUintLoop_end hdigits (by simpa using hlen)
    have hall : Digits (digits ++ buf.val.drop digits.length) := by
      intro c hc
      rcases List.mem_append.mp hc with hc | hc
      · exact hdigits c hc
      · by_contra hdigit
        exact hstops ⟨c, hc, by simpa using hdigit⟩
    simp only [readUint, hloop, ok_bind, List.nil_append, strtoul_overread hall, error_bind]
  · -- the seventeenth digit is read into the place behind the buffer
    have hsplit := List.take_append_drop uintBufferSize digits
    have hdrop : digits.drop uintBufferSize ≠ [] := by
      intro hnil
      rw [List.drop_eq_nil_iff] at hnil
      exact hlen hnil
    have htake : Digits (digits.take uintBufferSize) := by
      intro c hc
      exact hdigits c (List.mem_of_mem_take hc)
    rw [← hsplit]
    refine readUint_overflow htake hdrop ?_
    rw [List.length_take]
    omega

/-- **Backwards.**  What stood in front of `read_uint` when it ended well. -/
lemma readUint_eq_ok {stale : List Byte} {input rest : Input} {value : Option ℕ} {ch : Byte}
    (h : readUint stale input = .ok (value, ch, rest)) :
    (Digits input ∧ ch = 0 ∧ rest = []) ∨ ∃ digits, Digits digits ∧ isDigit ch = false ∧
      value = asUint (decimal digits) ∧ input = digits ++ ch :: rest := by
  rcases exists_digits input with hdigits | ⟨digits, c, next, hdigits, hc, rfl⟩
  · simp only [readUint, bind_eq_ok] at h
    obtain ⟨⟨digits, stop, behind⟩, hloop, ul, -, hresult⟩ := h
    obtain ⟨taken, -, -, ⟨rfl, -, rfl⟩ | ⟨c, -, hc, rfl⟩⟩ := readUintLoop_eq_ok hloop
    · obtain ⟨-, rfl, rfl⟩ : _ ∧ 0 = ch ∧ [] = rest := by simpa using hresult
      exact Or.inl ⟨hdigits, rfl, rfl⟩
    · have hdigit := hdigits c (by simp)
      rw [hc] at hdigit
      cases hdigit
  · by_cases hlen : digits.length < uintBufferSize
    · rw [readUint_number hdigits hc hlen] at h
      obtain ⟨rfl, rfl, rfl⟩ : asUint (decimal digits) = value ∧ c = ch ∧ next = rest := by
        simpa using h
      exact Or.inr ⟨digits, hdigits, hc, rfl, rfl⟩
    · rw [readUint_overflow hdigits (by simp) (not_lt.mp hlen)] at h
      cases h

/-- Digits that are read as they are written, if something stops them: the buffer holds them, and the
value fits. -/
abbrev Number :=
  { digits : List Byte // Digits digits ∧ digits.length < uintBufferSize ∧ decimal digits ≤ uintMax }

/-! ## `WAIT` -/

/-- The end of the file, or a newline and what comes behind it. -/
def lineEnd : Option Input → Input
  | none => []
  | some next => char '\n' :: next

/-- The number is read: it is the delay, or it is too large and rejected. -/
def ReadsWait (digits : List Byte) (parsed : Except Fault (ℤ × Option ℕ × Option ℕ × Input)) :
    Prop :=
  ∃ status delay thread rest, parsed = .ok (status, delay, thread, rest) ∧
    if decimal digits ≤ uintMax then status = 0 ∧ delay = some (decimal digits) else status = -1

/-- The contents of the digit buffer do no harm when nothing is stored behind the digits: something
there stops the conversion, and before that come no more digits, or only zeros behind zeros, unless
the number is too large anyway. -/
def Harmless (buf : UintBuffer) (digits : List Byte) : Prop :=
  StopsBehind buf digits.length ∧ (uintMax < decimal digits ∨ leftover buf digits.length = [] ∨
    ∀ c ∈ digits ++ leftover buf digits.length, c = char '0')

instance (buf : UintBuffer) (digits : List Byte) : Decidable (Harmless buf digits) :=
  inferInstanceAs (Decidable (_ ∧ _))

/-- `parse_wait` behind a number that ends the line. -/
lemma parseWait_of_uint {stale stale' : List Byte} {threadId : Bool} {input rest : Input}
    {value : ℕ} {ch : Byte} (h : readUint stale input = .ok (asUint value, ch, rest))
    (hch : ch = char '\n' ∨ ch = 0) :
    parseWait stale stale' threadId input = .ok (if uintMax < value then
      (-1, none, none, cleanup rest) else (0, some value, none, rest)) := by
  have hspace : ch ≠ char ' ' := by
    rintro rfl
    exact absurd hch (by decide)
  by_cases hvalue : uintMax < value
  · have hnone := asUint_eq_none_iff.mpr hvalue
    simp only [parseWait, h, ok_bind, hnone, if_true, pure_eq_ok, if_pos hvalue]
  · have hsome : asUint value = some value := if_neg hvalue
    simp only [parseWait, h, ok_bind, hsome, reduceCtorEq, if_false, if_neg hspace, if_pos hch,
      pure_eq_ok, if_neg hvalue]

/-- What `parse_wait` returns for a number is right for the digits when the number is theirs, or
when both are too large. -/
lemma readsWait_iff {digits : List Byte} {value : ℕ} {rest rest' : Input} :
    ReadsWait digits (.ok (if uintMax < value then (-1, none, none, rest')
        else (0, some value, none, rest))) ↔
      value = decimal digits ∨ (uintMax < value ∧ uintMax < decimal digits) := by
  unfold ReadsWait
  by_cases hvalue : uintMax < value
  · by_cases hdecimal : decimal digits ≤ uintMax
    · have hne : value ≠ decimal digits := by omega
      simp [hvalue, hdecimal, hne]
    · have hlt : uintMax < decimal digits := by omega
      simp [hvalue, hdecimal, hlt]
  · by_cases hdecimal : decimal digits ≤ uintMax
    · simp [hvalue, hdecimal]
    · have hne : value ≠ decimal digits := by omega
      simp [hvalue, hdecimal, hne]

/-- **`WAIT` and the stack.**  A delay of up to fifteen digits is read as it is written if and only
if a newline ends it or the digit buffer, as it was found, does no harm. -/
theorem parseWait_number_iff {digits : List Byte} (hdigits : Digits digits)
    (hpos : 1 ≤ digits.length) (hlen : digits.length ≤ 15) (buf buf' : UintBuffer)
    (ending : Option Input) :
    ReadsWait digits (parseWait buf.val buf'.val false (digits ++ lineEnd ending)) ↔
      ending ≠ none ∨ Harmless buf digits := by
  have hne : digits ≠ [] := List.length_pos_iff.mp hpos
  cases ending with
  | some next =>
      have hread : readUint buf.val (digits ++ lineEnd (some next))
          = .ok (asUint (decimal digits), char '\n', next) :=
        readUint_number hdigits (by decide) (Nat.lt_succ_of_le hlen)
      rw [parseWait_of_uint hread (Or.inl rfl), readsWait_iff]
      simp
  | none =>
      rw [lineEnd, List.append_nil]
      by_cases hstops : StopsBehind buf digits.length
      · rw [parseWait_of_uint (readUint_end hdigits hne hstops) (Or.inr rfl), readsWait_iff,
          decimal_append_eq_iff hdigits (leftover_digits buf _)]
        have hle := decimal_le_append digits (leftover buf digits.length)
        constructor
        · rintro (hsame | ⟨-, hlarge⟩)
          · exact Or.inr ⟨hstops, Or.inr hsame⟩
          · exact Or.inr ⟨hstops, Or.inl hlarge⟩
        · rintro (hending | ⟨-, hlarge | hsame⟩)
          · exact absurd rfl hending
          · exact Or.inr ⟨lt_of_lt_of_le hlarge hle, hlarge⟩
          · exact Or.inl hsame
      · have hread := readUint_overread hdigits hstops
        constructor
        · rintro ⟨status, delay, thread, rest, hparsed, -⟩
          simp [parseWait, hread] at hparsed
        · rintro (hending | ⟨hyes, -⟩)
          · exact absurd rfl hending
          · exact absurd hyes hstops

/-- The digit buffer as an earlier `WAIT 12345` has left it. -/
def earlierNumber : UintBuffer := ⟨text "12345" ++ List.replicate 11 0, rfl⟩

/-- Then `WAIT 5` on the last line, without a newline, waits 52345 ms. -/
theorem parseWait_stale_digits :
    ¬ ReadsWait (text "5") (parseWait earlierNumber.val earlierNumber.val false (text "5")) := by
  have hparsed : parseWait earlierNumber.val earlierNumber.val false (text "5")
      = .ok (0, some 52345, none, []) := by decide +kernel
  rw [hparsed]
  rintro ⟨status, delay, thread, rest, heq, hread⟩
  rw [if_pos (by decide)] at hread
  obtain ⟨-, rfl, -⟩ : 0 = status ∧ some 52345 = delay ∧ _ := by simpa using heq
  exact absurd hread.2 (by decide)

theorem parseWait_number_iff_five :
    ReadsWait (text "5") (parseWait earlierNumber.val earlierNumber.val false
        (text "5" ++ lineEnd none)) ↔
      (none : Option Input) ≠ none ∨ Harmless earlierNumber (text "5") :=
  parseWait_number_iff (by decide +kernel) (by decide) (by decide) earlierNumber earlierNumber none

end Kvs
