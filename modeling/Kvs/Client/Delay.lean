import Kvs.Client.Parser
import Kvs.Server.Numbers
import Kvs.Server.Recovery

/-!
# The line of a `DELAY`

A `DELAY` should take the rest of its line, and succeed when that is a number.  `parse_delay` hands
the work to `read_uint` and looks neither at the byte that ended the number nor at whether there was
one, as `parse_wait` does on the server.  What it gets right is less than it seems
(`parseDelay_line_iff`):

* a number that fits and a newline;
* a number that is too large, if the `cleanup` that follows finds something to skip or nothing to
  lose — behind a newline it takes the next line with it;
* at the end of the file, whatever the bytes that `read_uint` finds in its buffer happen to give.
-/

namespace Kvs

/-! ## What a line says -/

/-- The rest of the line is a number that fits in an `unsigned int`. -/
def DelayLine (input : Input) : Prop :=
  lineOf input ≠ [] ∧ Digits (lineOf input) ∧ decimal (lineOf input) ≤ uintMax

instance (input : Input) : Decidable (DelayLine input) := inferInstanceAs (Decidable (_ ∧ _ ∧ _))

/-- The status says whether the rest of the line is a number, and the line is consumed. -/
def TakesLine (input : Input) (parsed : Except Fault (ℤ × Option ℕ × Input)) : Prop :=
  ∃ delay, parsed = .ok (if DelayLine input then 0 else -1, delay, afterLine input)

/-- At the end of the file the digit buffer gives the right answer for `digits`. -/
def RightAtEnd (buf : UintBuffer) (digits : List Byte) : Prop :=
  if digits = [] then ∃ value, strtoul buf.val = .ok value ∧ uintMax < value
  else StopsBehind buf digits.length ∧ (uintMax < decimal digits ∨
    decimal (digits ++ leftover buf digits.length) ≤ uintMax)

/-- Where `parse_delay` takes one line and says what is on it: by the digits in front of the parser
and what stands behind them. -/
def DelayTaken (buf : UintBuffer) (input : Input) : Prop :=
  match input.dropWhile isDigit with
  | [] => RightAtEnd buf input
  | c :: next => (input.takeWhile isDigit).length ≤ 15 ∧
      if c = char '\n' then input.takeWhile isDigit ≠ [] ∧
        (decimal (input.takeWhile isDigit) ≤ uintMax ∨ next = [])
      else uintMax < decimal (input.takeWhile isDigit)

/-! ## Digits and what stands behind them -/

lemma Digits.not_mem_newline {digits : List Byte} (hdigits : Digits digits) :
    char '\n' ∉ digits := by
  intro hmem
  have hnewline := hdigits _ hmem
  revert hnewline
  decide

/-- The line goes on behind the digits unless they are followed by a newline. -/
lemma delayLine_stop_iff {digits next : List Byte} {c : Byte} (hdigits : Digits digits)
    (hc : isDigit c = false) : DelayLine (digits ++ c :: next) ↔
      c = char '\n' ∧ digits ≠ [] ∧ decimal digits ≤ uintMax := by
  rw [DelayLine, lineOf_append hdigits.not_mem_newline]
  by_cases hnewline : c = char '\n'
  · obtain rfl := hnewline
    rw [lineOf_newline, List.append_nil]
    constructor
    · rintro ⟨hne, -, hle⟩
      exact ⟨rfl, hne, hle⟩
    · rintro ⟨-, hne, hle⟩
      exact ⟨hne, hdigits, hle⟩
  · have hmem : c ∈ digits ++ lineOf (c :: next) := by
      rw [lineOf, List.takeWhile_cons_of_pos (by simpa using hnewline)]
      simp
    constructor
    · rintro ⟨-, hall, -⟩
      rw [hall c hmem] at hc
      cases hc
    · rintro ⟨heq, -⟩
      exact absurd heq hnewline

lemma delayLine_end_iff {digits : List Byte} (hdigits : Digits digits) :
    DelayLine digits ↔ digits ≠ [] ∧ decimal digits ≤ uintMax := by
  have hline : lineOf digits = digits := by
    simpa [lineOf] using lineOf_append hdigits.not_mem_newline []
  rw [DelayLine, hline]
  constructor
  · rintro ⟨hne, -, hle⟩
    exact ⟨hne, hle⟩
  · rintro ⟨hne, hle⟩
    exact ⟨hne, hdigits, hle⟩

/-! ## What `parse_delay` returns -/

lemma parseDelay_of_uint {stale : List Byte} {input rest : Input} {value : ℕ} {ch : Byte}
    (h : readUint stale input = .ok (asUint value, ch, rest)) :
    parseDelay stale input
      = .ok (if uintMax < value then (-1, none, cleanup rest) else (0, some value, rest)) := by
  by_cases hvalue : uintMax < value
  · have hnone := asUint_eq_none_iff.mpr hvalue
    simp only [parseDelay, h, ok_bind, hnone, if_true, pure_eq_ok, if_pos hvalue]
  · have hsome : asUint value = some value := if_neg hvalue
    simp only [parseDelay, h, ok_bind, hsome, reduceCtorEq, if_false, pure_eq_ok, if_neg hvalue]

lemma parseDelay_of_error {stale : List Byte} {input : Input} {e : Fault}
    (h : readUint stale input = .error e) : parseDelay stale input = .error e := by
  simp only [parseDelay, h, error_bind]

/-- A value that is too large, or not: what has to hold for the answer to be right. -/
lemma takesLine_iff {input rest : Input} {value : ℕ} :
    TakesLine input (.ok (if uintMax < value then (-1, none, cleanup rest)
        else (0, some value, rest))) ↔
      if uintMax < value then ¬ DelayLine input ∧ cleanup rest = afterLine input
      else DelayLine input ∧ rest = afterLine input := by
  unfold TakesLine
  by_cases hvalue : uintMax < value
  · by_cases hline : DelayLine input
    · simp [hvalue, hline]
    · simp [hvalue, hline]
  · by_cases hline : DelayLine input
    · simp [hvalue, hline]
    · simp [hvalue, hline]

/-- Behind a number on its own line nothing is skipped that should not be. -/
lemma cleanup_eq_self_iff {rest : Input} : cleanup rest = rest ↔ rest = [] := by
  constructor
  · intro heq
    by_contra hne
    have hlt := cleanup_length_lt hne
    rw [heq] at hlt
    exact lt_irrefl _ hlt
  · rintro rfl
    rfl

/-- At the end of the file. -/
lemma takesLine_end_iff (buf : UintBuffer) {digits : List Byte} (hdigits : Digits digits) :
    TakesLine digits (parseDelay buf.val digits) ↔ RightAtEnd buf digits := by
  have hafter : afterLine digits = [] := by
    simpa [afterLine] using afterLine_append hdigits.not_mem_newline []
  have hline := delayLine_end_iff hdigits
  unfold RightAtEnd
  by_cases hne : digits = []
  · rw [if_pos hne]
    obtain rfl := hne
    cases hconv : strtoul buf.val with
    | error e =>
        have hread : readUint buf.val [] = .error e := by
          simp [readUint, readUintLoop, hconv]
        rw [parseDelay_of_error hread]
        simp [TakesLine]
    | ok value =>
        have hread : readUint buf.val [] = .ok (asUint value, 0, []) := by
          simp [readUint, readUintLoop, hconv, asUint]
        have hno : ¬ DelayLine [] := fun hyes => (hline.mp hyes).1 rfl
        rw [parseDelay_of_uint hread, takesLine_iff]
        by_cases hvalue : uintMax < value
        · simp [hvalue, hno, hafter, cleanup]
        · simp [hvalue, hno]
  · rw [if_neg hne]
    by_cases hstops : StopsBehind buf digits.length
    · rw [parseDelay_of_uint (readUint_end hdigits hne hstops), takesLine_iff, hline, hafter]
      have hle := decimal_le_append digits (leftover buf digits.length)
      by_cases hvalue : uintMax < decimal (digits ++ leftover buf digits.length)
      · simp [hvalue, hne, hstops, cleanup]
      · have hdecimal : decimal digits ≤ uintMax := by omega
        simp only [hvalue, if_false, hne, ne_eq, not_false_eq_true, true_and, hstops, hdecimal]
        simp [not_lt.mp hvalue]
    · rw [parseDelay_of_error (readUint_overread hdigits hstops)]
      simp [TakesLine, hstops]

/-- In front of another byte. -/
lemma takesLine_stop_iff (buf : UintBuffer) {digits next : List Byte} {c : Byte}
    (hdigits : Digits digits) (hc : isDigit c = false) :
    TakesLine (digits ++ c :: next) (parseDelay buf.val (digits ++ c :: next)) ↔
      digits.length ≤ 15 ∧ if c = char '\n' then digits ≠ [] ∧ (decimal digits ≤ uintMax ∨ next = [])
        else uintMax < decimal digits := by
  by_cases hlen : digits.length ≤ 15
  · have hread : readUint buf.val (digits ++ c :: next) = .ok (asUint (decimal digits), c, next) :=
      readUint_number hdigits hc (Nat.lt_succ_of_le hlen)
    rw [parseDelay_of_uint hread, takesLine_iff, delayLine_stop_iff hdigits hc,
      afterLine_append hdigits.not_mem_newline]
    by_cases hnewline : c = char '\n'
    · obtain rfl := hnewline
      rw [afterLine_newline, cleanup_eq_self_iff]
      by_cases hvalue : uintMax < decimal digits
      · have hpos : digits ≠ [] := by
          rintro rfl
          exact absurd hvalue (by decide)
        simp [hvalue, hlen, hpos]
      · have hle := not_lt.mp hvalue
        simp [hvalue, hle, hlen]
    · have hafter : afterLine (c :: next) = cleanup next := by
        rw [afterLine_eq_cleanup, cleanup, if_neg hnewline]
      rw [hafter]
      by_cases hvalue : uintMax < decimal digits
      · simp [hvalue, hlen, hnewline]
      · simp [hvalue, hnewline]
  · have hread : readUint buf.val (digits ++ c :: next) = .error .outOfBounds :=
      readUint_overflow hdigits (by simp) (not_le.mp hlen)
    rw [parseDelay_of_error hread]
    simp [TakesLine, hlen]

/-- **What `DELAY` does to its line.**  It takes the rest of the line and says whether that is a
number exactly where `DelayTaken` says. -/
theorem parseDelay_line_iff (buf : UintBuffer) (input : Input) :
    TakesLine input (parseDelay buf.val input) ↔ DelayTaken buf input := by
  rcases exists_digits input with hdigits | ⟨digits, c, next, hdigits, hc, rfl⟩
  · have hbehind : input.dropWhile isDigit = [] := List.dropWhile_eq_nil_iff.mpr hdigits
    rw [takesLine_end_iff buf hdigits, DelayTaken, hbehind]
  · rw [takesLine_stop_iff buf hdigits hc, DelayTaken, dropWhile_digits hdigits hc,
      takeWhile_digits hdigits hc]

/-- `DELAY 5x` waits 5 ms. -/
theorem parseDelay_trailing_text :
    ¬ TakesLine (text "5x\n") (parseDelay earlierNumber.val (text "5x\n")) := by
  have hparsed : parseDelay earlierNumber.val (text "5x\n") = .ok (0, some 5, text "\n") := by
    decide +kernel
  rw [hparsed]
  rintro ⟨delay, heq⟩
  rw [if_neg (by decide +kernel)] at heq
  obtain ⟨hstatus, -⟩ := Prod.mk.inj (Except.ok.inj heq)
  exact absurd hstatus (by decide)

end Kvs
