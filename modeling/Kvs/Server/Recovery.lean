import Kvs.Server.Consumption

/-!
# What a malformed line costs

A rejected command should cost its line and nothing else: the parser stops behind the newline and
the next command starts on the next line.  It does not always, because `cleanup` skips to the *next*
newline, wherever the offset is when it is called.  It takes a second line whenever the newline of
the first has been consumed before — by a keyword read of fixed length, by a token running over the
end of the line, as the byte that ended a number, or by another `cleanup`.

`Recovers` is the exact condition on the input under which this does not happen, and
`rejected_costs_line_iff` the equivalence.  The proof follows each function of the parser along a
line `line ++ '\n' :: next` with something behind it: either its input is still `OnLine` when it
stops, or it is `Past` the beginning of the next line, and then no later step comes back.
-/

namespace Kvs

/-! ## The condition -/

/-- The bytes of the current line. -/
def lineOf (input : Input) : Input := input.takeWhile (· ≠ char '\n')

/-- The input behind the newline of the current line. -/
def afterLine (input : Input) : Input := (input.dropWhile (· ≠ char '\n')).tail

/-- A list of keys whose rejection is noticed on the line: no bracket to begin with, or a byte that
ends the list, or more keys than there is room for. -/
def KeysRecover (maxKeys : ℕ) : Input → Prop
  | [] => False
  | ch :: line => ch ≠ char '[' ∨ (∃ c ∈ line, isDelimiter c = true ∧ c ≠ char ',')
      ∨ maxKeys ≤ line.count (char ',')

/-- Behind the opening parenthesis of a pair: each pair is complete and something follows it on the
line, until that is no parenthesis or the room is used up. -/
def PairsRecover : ℕ → Input → Prop
  | 0, _ => True
  | room + 1, line => ∃ key value rest,
      line = key ++ char ',' :: (value ++ char ')' :: rest) ∧ Plain key ∧ Plain value ∧
        rest ≠ [] ∧ ∀ line', rest = char '(' :: line' → PairsRecover room line'

/-- A list of pairs whose rejection is noticed on the line, and only once. -/
def WriteRecovers (maxPairs : ℕ) : Input → Prop
  | [] => False
  | [ch] => ch ≠ char '['
  | ch :: ch' :: line => ch ≠ char '[' ∨ ch' ≠ char '(' ∨ PairsRecover maxPairs line

/-- How many bytes `get_next` reads at once before it compares them with a keyword. -/
def keywordLength : Input → ℕ
  | [] => 0
  | ch :: _ =>
      if ch = char 'W' then 6
      else if ch = char 'R' then 5
      else if ch = char 'D' then 7
      else if ch = char 'S' then 4
      else if ch = char 'B' then 6
      else if ch = char 'H' then 4
      else 0

/-- A line whose rejection is noticed before its newline is consumed. -/
def LineRecovers (line : Input) : Prop :=
  if line.take 5 = text "WAIT " then ∃ c ∈ line.drop 5, isDigit c = false
  else if line.take 6 = text "WRITE " then WriteRecovers maxWriteSize (line.drop 6)
  else if line.take 5 = text "READ " then KeysRecover maxWriteSize (line.drop 5)
  else if line.take 7 = text "DELETE " then KeysRecover maxWriteSize (line.drop 7)
  else keywordLength line ≤ line.length

/-- The last line of a file has no next line to take; any other must recover. -/
def Recovers (input : Input) : Prop := afterLine input = [] ∨ LineRecovers (lineOf input)

/-! ## On the line and past it -/

section Lines

variable {next : Input}

/-- The newline of the current line is still ahead. -/
def OnLine (next rest : Input) : Prop := ∃ line, char '\n' ∉ line ∧ rest = line ++ char '\n' :: next

/-- Part of the next line is gone. -/
def Past (next rest : Input) : Prop := rest.length < next.length

lemma OnLine.cleanup {rest : Input} (h : OnLine next rest) : Kvs.cleanup rest = next := by
  obtain ⟨line, hline, rfl⟩ := h
  exact cleanup_line hline

lemma Past.cleanup {rest : Input} (h : Past next rest) : Past next (Kvs.cleanup rest) :=
  (cleanup_length_le rest).trans_lt h

lemma Past.suffix {rest rest' : Input} (h : Past next rest) (hsuffix : rest' <:+ rest) :
    Past next rest' :=
  hsuffix.length_le.trans_lt h

/-- A cleanup that starts at the beginning of the next line takes it. -/
lemma past_cleanup_next (hnext : next ≠ []) : Past next (Kvs.cleanup next) :=
  cleanup_length_lt hnext

lemma past_nil (hnext : next ≠ []) : Past next [] := List.length_pos_of_ne_nil hnext

lemma not_past_next : ¬ Past next next := lt_irrefl _

lemma onLine_cons {ch : Byte} {line : Input} (h : char '\n' ∉ ch :: line) :
    ch ≠ char '\n' ∧ char '\n' ∉ line :=
  ⟨fun heq => h (by simp [heq]), fun hmem => h (List.mem_cons_of_mem _ hmem)⟩

/-- A parser that decides where it stops by a property of the line: behind the newline where the
line recovers, beyond it where it does not. -/
def StopsAt (next : Input) (recovers : Prop) (rest : Input) : Prop :=
  (recovers → rest = next) ∧ (¬ recovers → Past next rest)

/-- The same of a parser that may also accept, and is on the line then. -/
def StopsOn (next : Input) (recovers rejected : Prop) (rest : Input) : Prop :=
  (recovers → (rejected ∧ rest = next) ∨ (¬ rejected ∧ OnLine next rest)) ∧
    (¬ recovers → Past next rest)

/-! ## The readers along a line -/

/-- **A token along a line.**  Either its delimiter is on the line, or the token takes the newline
with it and the reader is past. -/
lemma readString_line {max : ℕ} (hnext : next ≠ []) {line rest : Input} {code : ℤ}
    {token : List Byte} (h : readString max (line ++ char '\n' :: next) = .ok (code, token, rest)) :
    (∃ d line', isDelimiter d = true ∧ code = delimiterCode d ∧ Plain token ∧
        line = token ++ d :: line' ∧ rest = line' ++ char '\n' :: next) ∨
      (Plain line ∧ Past next rest) := by
  obtain ⟨hplain, -, ⟨-, hinput, rfl⟩ | ⟨d, hd, hcode, hinput⟩⟩ := readString_eq_ok h
  · refine Or.inr ⟨fun c hc => hplain c ?_, past_nil hnext⟩
    rw [← hinput]
    exact List.mem_append_left _ hc
  · have hne : d ≠ char '\n' := fun heq => by rw [heq] at hd; exact absurd hd (by decide)
    rcases List.append_eq_append_iff.mp hinput with ⟨taken, rfl, hrest⟩ | ⟨line', rfl, hrest⟩
    · -- the token runs over the end of the line
      have hplain' : Plain line := fun c hc => hplain c (List.mem_append_left _ hc)
      cases taken with
      | nil =>
          obtain ⟨heq, -⟩ : char '\n' = d ∧ _ := by simpa using hrest
          exact absurd heq.symm hne
      | cons c taken =>
          obtain ⟨-, rfl⟩ : char '\n' = c ∧ next = taken ++ d :: rest := by simpa using hrest
          refine Or.inr ⟨hplain', ?_⟩
          simp only [Past, List.length_append, List.length_cons]
          omega
    · cases line' with
      | nil =>
          obtain ⟨heq, -⟩ : d = char '\n' ∧ _ := by simpa using hrest
          exact absurd heq hne
      | cons c line' =>
          obtain ⟨rfl, rfl⟩ : d = c ∧ rest = line' ++ char '\n' :: next := by simpa using hrest
          exact Or.inl ⟨d, line', hd, hcode, hplain, rfl, rfl⟩

/-- A number along a line: the byte that ended it is the first one on the line that is no digit, or
the newline. -/
lemma readUint_line {stale : List Byte} {line rest : Input} {value : Option ℕ} {ch : Byte}
    (h : readUint stale (line ++ char '\n' :: next) = .ok (value, ch, rest)) :
    (∃ digits line', isDigit ch = false ∧ line = digits ++ ch :: line' ∧
        rest = line' ++ char '\n' :: next) ∨
      (Digits line ∧ ch = char '\n' ∧ rest = next) := by
  simp only [readUint, bind_eq_ok] at h
  obtain ⟨⟨digits, stop, input'⟩, hloop, ul, -, hresult⟩ := h
  obtain ⟨-, hch, rfl⟩ : _ ∧ stop.getD 0 = ch ∧ input' = rest := by simpa using hresult
  obtain ⟨taken, htaken, -, ⟨-, hinput, -⟩ | ⟨c, rfl, hc, hinput⟩⟩ := readUintLoop_eq_ok hloop
  · have hmem : char '\n' ∈ taken := by rw [← hinput]; simp
    exact absurd (htaken _ hmem) (by decide)
  · obtain rfl : c = ch := hch
    rcases List.append_eq_append_iff.mp hinput with ⟨more, rfl, hrest⟩ | ⟨line', rfl, hrest⟩
    · cases more with
      | nil =>
          obtain ⟨rfl, rfl⟩ : char '\n' = c ∧ next = input' := by simpa using hrest
          exact Or.inr ⟨fun b hb => htaken b (List.mem_append_left _ hb), rfl, rfl⟩
      | cons b more =>
          obtain ⟨rfl, -⟩ : char '\n' = b ∧ _ := by simpa using hrest
          exact absurd (htaken (char '\n') (by simp)) (by decide)
    · cases line' with
      | nil =>
          obtain ⟨rfl, rfl⟩ : c = char '\n' ∧ input' = next := by simpa using hrest
          exact Or.inr ⟨fun b hb => htaken b (by simpa using hb), rfl, rfl⟩
      | cons b line' =>
          obtain ⟨rfl, rfl⟩ : c = b ∧ input' = line' ++ char '\n' :: next := by simpa using hrest
          exact Or.inl ⟨taken, line', hc, rfl, rfl⟩

/-! ## The parsers along a line -/

/-- A key and a comma decide nothing: what follows them does, with one place less. -/
lemma stops_behind_comma {token line : Input} (hplain : Plain token) (room : ℕ) :
    ((∃ c ∈ token ++ char ',' :: line, isDelimiter c = true ∧ c ≠ char ',')
        ∨ room + 1 ≤ (token ++ char ',' :: line).count (char ','))
      ↔ (∃ c ∈ line, isDelimiter c = true ∧ c ≠ char ',') ∨ room ≤ line.count (char ',') := by
  have hcount : token.count (char ',') = 0 := by
    refine List.count_eq_zero.mpr fun hmem => ?_
    exact absurd (hplain _ hmem) (by decide)
  refine or_congr ⟨?_, ?_⟩ ?_
  · rintro ⟨c, hc, hdel, hne⟩
    refine ⟨c, ?_, hdel, hne⟩
    rcases List.mem_append.mp hc with hc | hc
    · simp [hplain c hc] at hdel
    · exact (List.mem_cons.mp hc).resolve_left hne
  · rintro ⟨c, hc, hdel⟩
    exact ⟨c, by simp [hc], hdel⟩
  · rw [List.count_append, hcount, List.count_cons_self]
    omega

/-- A line without delimiters has no commas either. -/
lemma not_stops_of_plain {line : Input} (hplain : Plain line) (room : ℕ) :
    ¬ ((∃ c ∈ line, isDelimiter c = true ∧ c ≠ char ',') ∨ room + 1 ≤ line.count (char ',')) := by
  rintro (⟨c, hc, hdel, -⟩ | hcount)
  · simp [hplain c hc] at hdel
  · have hzero : line.count (char ',') = 0 :=
      List.count_eq_zero.mpr fun hmem => absurd (hplain _ hmem) (by decide)
    omega

/-- Once a key has run over the end of the line, the loop does not come back. -/
lemma parseKeysLoop_past {room : ℕ} {input input' rest : Input} {output : ℤ} {token : List Byte}
    {keys : Option (List Str)} (htoken : readString maxStringSize input = .ok (output, token, input'))
    (hpast : Past next input') (h : parseKeysLoop (room + 1) input = .ok (keys, rest)) :
    Past next rest := by
  simp only [parseKeysLoop, htoken, ok_bind] at h
  split_ifs at h
  · obtain ⟨-, rfl⟩ : _ ∧ cleanup input' = rest := by simpa using h
    exact hpast.cleanup
  · obtain ⟨key, -, h⟩ := by simpa only [bind_eq_ok] using h
    obtain ⟨-, rfl⟩ : some [key] = keys ∧ input' = rest := by simpa using h
    exact hpast
  · obtain ⟨key, -, ⟨keys', input₂⟩, hrest, h⟩ := by simpa only [bind_eq_ok] using h
    obtain ⟨-, rfl⟩ : _ ∧ input₂ = rest := by simpa using h
    exact hpast.suffix (parseKeysLoop_stops hrest).1

/-- The loop over the keys, by induction on the room left.  It goes on at commas only, so it stays
on the line as long as one of the other delimiters is still to come or the commas use up the room. -/
lemma parseKeysLoop_line (hnext : next ≠ []) {room : ℕ} {line rest : Input}
    {keys : Option (List Str)} (hline : char '\n' ∉ line)
    (h : parseKeysLoop room (line ++ char '\n' :: next) = .ok (keys, rest)) :
    StopsOn next ((∃ c ∈ line, isDelimiter c = true ∧ c ≠ char ',') ∨ room ≤ line.count (char ','))
      (keys = none) rest := by
  induction room generalizing line rest keys with
  | zero =>
      obtain ⟨rfl, rfl⟩ : some [] = keys ∧ line ++ char '\n' :: next = rest := by
        simpa [parseKeysLoop] using h
      exact ⟨fun _ => Or.inr ⟨by simp, line, hline, rfl⟩,
        fun hnot => absurd (Or.inr (Nat.zero_le _)) hnot⟩
  | succ room ih =>
      have hloop := h
      simp only [parseKeysLoop, bind_eq_ok] at h
      obtain ⟨⟨output, token, input₁⟩, htoken, h⟩ := h
      dsimp only at h
      rcases readString_line hnext htoken with ⟨d, line', hd, rfl, hplain, rfl, rfl⟩ | ⟨hplain, hpast⟩
      · have hline' : char '\n' ∉ line' := fun hmem => hline (by simp [hmem])
        have hon : OnLine next (line' ++ char '\n' :: next) := ⟨line', hline', rfl⟩
        by_cases hcomma : d = char ','
        · -- a comma: the rest of the line decides
          subst hcomma
          have hcode : ¬ (delimiterCode (char ',') < 0 ∨ delimiterCode (char ',') = 1) := by decide
          have htwo : ¬ delimiterCode (char ',') = 2 := by decide
          rw [if_neg hcode] at h
          obtain ⟨key, -, h⟩ := by simpa only [bind_eq_ok] using h
          rw [if_neg htwo] at h
          obtain ⟨⟨keys', input₂⟩, hrest, h⟩ := by simpa only [bind_eq_ok] using h
          obtain ⟨rfl, rfl⟩ : keys'.map _ = keys ∧ input₂ = rest := by simpa using h
          rw [StopsOn, stops_behind_comma hplain room, Option.map_eq_none_iff]
          exact ih hline' hrest
        · -- any other delimiter ends the list here
          have hstop : (∃ c ∈ token ++ d :: line', isDelimiter c = true ∧ c ≠ char ',')
              ∨ room + 1 ≤ (token ++ d :: line').count (char ',') :=
            Or.inl ⟨d, by simp, hd, hcomma⟩
          refine ⟨fun _ => ?_, fun hnot => absurd hstop hnot⟩
          split_ifs at h with hbad htwo
          · obtain ⟨rfl, rfl⟩ : none = keys ∧ cleanup (line' ++ char '\n' :: next) = rest := by
              simpa using h
            exact Or.inl ⟨rfl, hon.cleanup⟩
          · obtain ⟨key, -, h⟩ := by simpa only [bind_eq_ok] using h
            obtain ⟨rfl, rfl⟩ : some [key] = keys ∧ line' ++ char '\n' :: next = rest := by
              simpa using h
            exact Or.inr ⟨by simp, hon⟩
          · simp only [isDelimiter, decide_eq_true_eq] at hd
            rcases hd with rfl | rfl | rfl | rfl
            · exact absurd (Or.inl (by decide)) hbad
            · exact absurd rfl hcomma
            · exact absurd (Or.inr (by decide)) hbad
            · exact absurd (by decide) htwo
      · -- the newline is inside the token
        exact ⟨fun hyes => absurd hyes (not_stops_of_plain hplain room),
          fun _ => parseKeysLoop_past htoken hpast hloop⟩

/-- The end of a list that is rejected after all. -/
lemma endOfList_line (next : Input) {α : Type} {maxItems : ℕ} {items : List α} {input rest : Input}
    (hitems : items ≠ []) (h : endOfList maxItems items input = ([], rest)) :
    (OnLine next input → rest = next) ∧ (Past next input → Past next rest) := by
  refine ⟨fun hon => ?_, fun hpast => hpast.suffix (endOfList_stops hitems h).1⟩
  obtain ⟨line, hline, rfl⟩ := hon
  cases line with
  | nil =>
      rw [List.nil_append, endOfList] at h
      split_ifs at h with hmax hnewline
      · obtain ⟨-, rfl⟩ := Prod.mk.inj h
        rfl
      · exact absurd (Prod.mk.inj h).1 hitems
      · exact absurd (Or.inl rfl) hnewline
  | cons ch line =>
      obtain ⟨hch, hline'⟩ := onLine_cons hline
      rw [List.cons_append, endOfList] at h
      split_ifs at h
      · obtain ⟨-, rfl⟩ := Prod.mk.inj h
        exact cleanup_line hline
      · exact absurd (Prod.mk.inj h).1 hitems
      · obtain ⟨-, rfl⟩ := Prod.mk.inj h
        exact cleanup_line hline'

/-- A rejected list of keys. -/
lemma parseReadDelete_line (hnext : next ≠ []) {line rest : Input} (hline : char '\n' ∉ line)
    (h : parseReadDelete maxWriteSize (line ++ char '\n' :: next) = .ok ([], rest)) :
    StopsAt next (KeysRecover maxWriteSize line) rest := by
  cases line with
  | nil =>
      have hch : char '\n' ≠ char '[' := by decide
      obtain rfl : cleanup next = rest := by simpa [parseReadDelete, hch] using h
      exact ⟨fun hyes => hyes.elim, fun _ => past_cleanup_next hnext⟩
  | cons ch line =>
      obtain ⟨-, hline'⟩ := onLine_cons hline
      simp only [List.cons_append, parseReadDelete] at h
      split_ifs at h with hch
      · obtain rfl : cleanup (line ++ char '\n' :: next) = rest := by simpa using h
        exact ⟨fun _ => cleanup_line hline', fun hnot => absurd (Or.inl hch) hnot⟩
      · obtain ⟨⟨keys, input₁⟩, hloop, h⟩ := by simpa only [bind_eq_ok] using h
        have hon := parseKeysLoop_line hnext hline' hloop
        have hiff : KeysRecover maxWriteSize (ch :: line)
            ↔ (∃ c ∈ line, isDelimiter c = true ∧ c ≠ char ',')
              ∨ maxWriteSize ≤ line.count (char ',') := by
          simp only [KeysRecover, hch, false_or]
        rw [StopsAt, hiff]
        cases keys with
        | none =>
            obtain rfl : input₁ = rest := by simpa using h
            exact ⟨fun hyes => ((hon.1 hyes).resolve_right fun hno => hno.1 rfl).2, hon.2⟩
        | some keys =>
            have hend : endOfList maxWriteSize keys input₁ = ([], rest) := by simpa using h
            have hstops := endOfList_line next (parseKeysLoop_ne_nil hloop) hend
            exact ⟨fun hyes =>
              hstops.1 ((hon.1 hyes).resolve_left fun hno => absurd hno.1 (by simp)).2,
              fun hnot => hstops.2 (hon.2 hnot)⟩

/-- A pair whose key has run over the end of the line stops past it. -/
lemma parsePair_past {input input₁ rest : Input} {pair : Option (CString × CString)} {output : ℤ}
    {key : List Byte} (hkey : readString maxStringSize input = .ok (output, key, input₁))
    (hpast : Past next input₁) (h : parsePair input = .ok (pair, rest)) : Past next rest := by
  simp only [parsePair, hkey, ok_bind] at h
  split_ifs at h
  · obtain ⟨-, rfl⟩ : none = pair ∧ cleanup input₁ = rest := by simpa using h
    exact hpast.cleanup
  · obtain ⟨⟨output', value, input₂⟩, hvalue, h⟩ := by simpa only [bind_eq_ok] using h
    have hpast₂ := hpast.suffix (readString_suffix hvalue)
    split_ifs at h
    · obtain ⟨-, rfl⟩ : none = pair ∧ cleanup input₂ = rest := by simpa using h
      exact hpast₂.cleanup
    · obtain ⟨-, rfl⟩ : _ = pair ∧ input₂ = rest := by simpa using h
      exact hpast₂

/-- A pair along a line.  A complete one leaves its parser on the line; any other has been cleaned
up after, or has taken the newline. -/
lemma parsePair_line (hnext : next ≠ []) {line rest : Input} {pair : Option (CString × CString)}
    (hline : char '\n' ∉ line)
    (h : parsePair (line ++ char '\n' :: next) = .ok (pair, rest)) :
    (pair ≠ none ∧ ∃ key value line', line = key ++ char ',' :: (value ++ char ')' :: line')
        ∧ Plain key ∧ Plain value ∧ rest = line' ++ char '\n' :: next) ∨
      ((¬ ∃ key value line', line = key ++ char ',' :: (value ++ char ')' :: line')
        ∧ Plain key ∧ Plain value) ∧ ((pair = none ∧ rest = next) ∨ Past next rest)) := by
  have hcomma : isDelimiter (char ',') = true := by decide
  have hparen : isDelimiter (char ')') = true := by decide
  have hpair := h
  simp only [parsePair, bind_eq_ok] at h
  obtain ⟨⟨output, key, input₁⟩, hkey, h⟩ := h
  dsimp only at h
  rcases readString_line hnext hkey with ⟨d, line₁, hd, rfl, hkplain, rfl, rfl⟩ | ⟨hplain, hpast⟩
  · have hline₁ : char '\n' ∉ line₁ := fun hmem => hline (by simp [hmem])
    by_cases hdcomma : d = char ','
    · subst hdcomma
      have hzero : ¬ delimiterCode (char ',') ≠ 0 := by decide
      rw [if_neg hzero] at h
      obtain ⟨⟨output', value, input₂⟩, hvalue, h⟩ := by simpa only [bind_eq_ok] using h
      rcases readString_line hnext hvalue with ⟨e, line₂, he, rfl, hvplain, rfl, rfl⟩ | ⟨hplain, hpast⟩
      · have hline₂ : char '\n' ∉ line₂ := fun hmem => hline₁ (by simp [hmem])
        by_cases heparen : e = char ')'
        · subst heparen
          have hone : ¬ delimiterCode (char ')') ≠ 1 := by decide
          rw [if_neg hone] at h
          obtain ⟨rfl, rfl⟩ : _ = pair ∧ line₂ ++ char '\n' :: next = rest := by simpa using h
          exact Or.inl ⟨by simp, key, value, line₂, rfl, hkplain, hvplain, rfl⟩
        · -- the value ends, but not at a parenthesis
          rw [if_pos (delimiterCode_ne_one he heparen)] at h
          obtain ⟨rfl, rfl⟩ : none = pair ∧ cleanup (line₂ ++ char '\n' :: next) = rest := by
            simpa using h
          refine Or.inr ⟨?_, Or.inl ⟨rfl, cleanup_line hline₂⟩⟩
          rintro ⟨key', value', line', hshape, hkplain', hvplain'⟩
          obtain ⟨-, -, hshape⟩ := token_unique hcomma hcomma hkplain hkplain' hshape
          exact heparen (token_unique he hparen hvplain hvplain' hshape).2.1
      · refine Or.inr ⟨?_, Or.inr ?_⟩
        · rintro ⟨key', value', line', hshape, hkplain', hvplain'⟩
          obtain ⟨-, -, rfl⟩ := token_unique hcomma hcomma hkplain hkplain' hshape
          simp [hplain (char ')') (by simp)] at hparen
        · split_ifs at h
          · obtain ⟨-, rfl⟩ : none = pair ∧ cleanup input₂ = rest := by simpa using h
            exact hpast.cleanup
          · obtain ⟨-, rfl⟩ : _ = pair ∧ input₂ = rest := by simpa using h
            exact hpast
    · -- the key ends, but not at a comma
      rw [if_pos (delimiterCode_ne_zero hd hdcomma)] at h
      obtain ⟨rfl, rfl⟩ : none = pair ∧ cleanup (line₁ ++ char '\n' :: next) = rest := by
        simpa using h
      refine Or.inr ⟨?_, Or.inl ⟨rfl, cleanup_line hline₁⟩⟩
      rintro ⟨key', value', line', hshape, hkplain', -⟩
      exact hdcomma (token_unique hd hcomma hkplain hkplain' hshape).2.1
  · refine Or.inr ⟨?_, Or.inr (parsePair_past hkey hpast hpair)⟩
    rintro ⟨key', value', line', rfl, -, -⟩
    simp [hplain (char ',') (by simp)] at hcomma

/-- The pairs behind a complete one are those of the rest of the line. -/
lemma pairsRecover_behind {room : ℕ} {key value line : Input} (hkey : Plain key)
    (hvalue : Plain value) :
    PairsRecover (room + 1) (key ++ char ',' :: (value ++ char ')' :: line))
      ↔ line ≠ [] ∧ ∀ line', line = char '(' :: line' → PairsRecover room line' := by
  refine ⟨?_, fun hrest => ⟨key, value, line, rfl, hkey, hvalue, hrest⟩⟩
  rintro ⟨key', value', rest, hshape, hkey', hvalue', hrest⟩
  obtain ⟨-, -, hshape⟩ := token_unique (by decide) (by decide) hkey hkey' hshape
  obtain ⟨-, -, rfl⟩ := token_unique (by decide) (by decide) hvalue hvalue' hshape
  exact hrest

/-- Once a pair has run over the end of the line, or has been cleaned up after, the loop is past the
beginning of the next line when it ends: it cleans up once more. -/
lemma parseWriteLoop_past (hnext : next ≠ []) {room : ℕ} {input input' rest : Input}
    {pair : Option (CString × CString)} {pairs : Option (List (Str × Str))}
    (hpair : parsePair input = .ok (pair, input'))
    (hbeyond : (pair = none ∧ input' = next) ∨ Past next input')
    (h : parseWriteLoop (room + 1) input = .ok (pairs, rest)) : Past next rest := by
  simp only [parseWriteLoop, hpair, ok_bind] at h
  cases pair with
  | none =>
      obtain ⟨-, rfl⟩ : none = pairs ∧ cleanup input' = rest := by simpa using h
      rcases hbeyond with ⟨-, rfl⟩ | hpast
      · exact past_cleanup_next hnext
      · exact hpast.cleanup
  | some pair =>
      have hpast : Past next input' := hbeyond.resolve_left fun hno => absurd hno.1 (by simp)
      obtain ⟨key, -, value, -, h⟩ := by simpa only [bind_eq_ok] using h
      cases input' with
      | nil =>
          obtain ⟨-, rfl⟩ : none = pairs ∧ [] = rest := by simpa using h
          exact hpast
      | cons ch input₂ =>
          have hpast₂ : Past next input₂ := hpast.suffix (List.suffix_cons _ _)
          dsimp only at h
          split_ifs at h
          · obtain ⟨-, rfl⟩ : _ = pairs ∧ input₂ = rest := by simpa using h
            exact hpast₂
          · obtain ⟨⟨pairs', input₃⟩, hrest, h⟩ := by simpa only [bind_eq_ok] using h
            obtain ⟨-, rfl⟩ : _ ∧ input₃ = rest := by simpa using h
            exact hpast₂.suffix (parseWriteLoop_stops hrest).1
          · obtain ⟨-, rfl⟩ : none = pairs ∧ cleanup input₂ = rest := by simpa using h
            exact hpast₂.cleanup

/-- The loop over the pairs, by induction on the room left.  A pair that is rejected is cleaned up
after twice, once by `parse_pair` and once here. -/
lemma parseWriteLoop_line (hnext : next ≠ []) {room : ℕ} {line rest : Input}
    {pairs : Option (List (Str × Str))} (hline : char '\n' ∉ line)
    (h : parseWriteLoop room (line ++ char '\n' :: next) = .ok (pairs, rest)) :
    StopsOn next (PairsRecover room line) (pairs = none) rest := by
  induction room generalizing line rest pairs with
  | zero =>
      obtain ⟨rfl, rfl⟩ : some [] = pairs ∧ line ++ char '\n' :: next = rest := by
        simpa [parseWriteLoop] using h
      exact ⟨fun _ => Or.inr ⟨by simp, line, hline, rfl⟩, fun hnot => absurd trivial hnot⟩
  | succ room ih =>
      have hloop := h
      simp only [parseWriteLoop, bind_eq_ok] at h
      obtain ⟨⟨pair, input₁⟩, hpair, h⟩ := h
      rcases parsePair_line hnext hline hpair with
        ⟨hsome, key, value, line₁, rfl, hkey, hvalue, rfl⟩ | ⟨hincomplete, hbeyond⟩
      · have hline₁ : char '\n' ∉ line₁ := fun hmem => hline (by simp [hmem])
        obtain ⟨pair, rfl⟩ := Option.ne_none_iff_exists'.mp hsome
        obtain ⟨key', -, value', -, h⟩ := by simpa only [bind_eq_ok] using h
        rw [StopsOn, pairsRecover_behind hkey hvalue]
        cases line₁ with
        | nil =>
            have h₁ : ¬ char '\n' = char ']' := by decide
            have h₂ : ¬ char '\n' = char '(' := by decide
            obtain ⟨-, rfl⟩ : none = pairs ∧ cleanup next = rest := by
              simpa only [List.nil_append, if_neg h₁, if_neg h₂, pure_eq_ok, Except.ok.injEq,
                Prod.mk.injEq] using h
            exact ⟨fun hyes => absurd rfl hyes.1, fun _ => past_cleanup_next hnext⟩
        | cons ch line₂ =>
            obtain ⟨-, hline₂⟩ := onLine_cons hline₁
            rw [List.cons_append] at h
            dsimp only at h
            split_ifs at h with hend hmore
            · obtain ⟨rfl, rfl⟩ : some [(key', value')] = pairs ∧ line₂ ++ char '\n' :: next = rest := by
                simpa using h
              refine ⟨fun _ => Or.inr ⟨by simp, line₂, hline₂, rfl⟩, fun hnot => ?_⟩
              refine absurd ⟨by simp, fun line' heq => ?_⟩ hnot
              obtain ⟨hch, -⟩ := List.cons.inj heq
              rw [hend] at hch
              exact absurd hch (by decide)
            · obtain ⟨⟨pairs', input₂⟩, hrest, h⟩ := by simpa only [bind_eq_ok] using h
              obtain ⟨rfl, rfl⟩ : pairs'.map _ = pairs ∧ input₂ = rest := by simpa using h
              have hrecover : (ch :: line₂ ≠ [] ∧ ∀ line', ch :: line₂ = char '(' :: line' →
                  PairsRecover room line') ↔ PairsRecover room line₂ := by
                rw [hmore]
                simp
              rw [hrecover, Option.map_eq_none_iff]
              exact ih hline₂ hrest
            · obtain ⟨rfl, rfl⟩ : none = pairs ∧ cleanup (line₂ ++ char '\n' :: next) = rest := by
                simpa using h
              refine ⟨fun _ => Or.inl ⟨rfl, cleanup_line hline₂⟩, fun hnot => ?_⟩
              exact absurd ⟨by simp, fun line' heq => absurd (List.cons.inj heq).1 hmore⟩ hnot
      · -- no pair on this line
        have hnot : ¬ PairsRecover (room + 1) line := by
          rintro ⟨key, value, line', hshape, hkey, hvalue, -⟩
          exact hincomplete ⟨key, value, line', hshape, hkey, hvalue⟩
        exact ⟨fun hyes => absurd hyes hnot, fun _ => parseWriteLoop_past hnext hpair hbeyond hloop⟩

/-- A rejected list of pairs. -/
lemma parseWrite_line (hnext : next ≠ []) {line rest : Input} (hline : char '\n' ∉ line)
    (h : parseWrite maxWriteSize (line ++ char '\n' :: next) = .ok ([], rest)) :
    StopsAt next (WriteRecovers maxWriteSize line) rest := by
  have hbracket : char '\n' ≠ char '[' := by decide
  have hparen : char '\n' ≠ char '(' := by decide
  match line, hline, h with
  | [], hline, h =>
      obtain rfl : cleanup next = rest := by simpa [parseWrite, hbracket] using h
      exact ⟨fun hyes => hyes.elim, fun _ => past_cleanup_next hnext⟩
  | [ch], hline, h =>
      simp only [List.cons_append, List.nil_append, parseWrite] at h
      split_ifs at h with hch
      · obtain rfl : next = rest := by simpa [cleanup] using h
        exact ⟨fun _ => rfl, fun hnot => absurd hch hnot⟩
      · obtain rfl : cleanup next = rest := by simpa using h
        exact ⟨fun hyes => absurd hyes hch, fun _ => past_cleanup_next hnext⟩
  | ch :: ch' :: line, hline, h =>
      obtain ⟨-, hline₁⟩ := onLine_cons hline
      obtain ⟨-, hline₂⟩ := onLine_cons hline₁
      simp only [List.cons_append, parseWrite] at h
      split_ifs at h with hch hch'
      · obtain rfl : cleanup ((ch' :: line) ++ char '\n' :: next) = rest := by simpa using h
        exact ⟨fun _ => cleanup_line hline₁, fun hnot => absurd (Or.inl hch) hnot⟩
      · obtain rfl : cleanup (line ++ char '\n' :: next) = rest := by simpa using h
        exact ⟨fun _ => cleanup_line hline₂, fun hnot => absurd (Or.inr (Or.inl hch')) hnot⟩
      · obtain ⟨⟨pairs, input₁⟩, hloop, h⟩ := by simpa only [bind_eq_ok] using h
        have hon := parseWriteLoop_line hnext hline₂ hloop
        have hiff : WriteRecovers maxWriteSize (ch :: ch' :: line)
            ↔ PairsRecover maxWriteSize line := by
          simp only [WriteRecovers, hch, hch', false_or]
        rw [StopsAt, hiff]
        cases pairs with
        | none =>
            obtain rfl : input₁ = rest := by simpa using h
            exact ⟨fun hyes => ((hon.1 hyes).resolve_right fun hno => hno.1 rfl).2, hon.2⟩
        | some pairs =>
            have hend : endOfList maxWriteSize pairs input₁ = ([], rest) := by simpa using h
            have hstops := endOfList_line next (parseWriteLoop_ne_nil hloop) hend
            exact ⟨fun hyes =>
              hstops.1 ((hon.1 hyes).resolve_left fun hno => absurd hno.1 (by simp)).2,
              fun hnot => hstops.2 (hon.2 hnot)⟩

/-- A rejected wait. -/
lemma parseWait_line (hnext : next ≠ []) {stale : List Byte} {line rest : Input}
    {delay thread : Option ℕ} (hline : char '\n' ∉ line)
    (h : parseWait stale stale false (line ++ char '\n' :: next) = .ok (-1, delay, thread, rest)) :
    StopsAt next (∃ c ∈ line, isDigit c = false) rest := by
  simp only [parseWait, bind_eq_ok] at h
  obtain ⟨⟨delay', ch, input₁⟩, hread, h⟩ := h
  dsimp only at h
  rcases readUint_line hread with ⟨digits, line', hch, rfl, rfl⟩ | ⟨hdigits, rfl, rfl⟩
  · have hline' : char '\n' ∉ line' := fun hmem => hline (by simp [hmem])
    have hne : ch ≠ char '\n' := fun heq => hline (by simp [heq])
    refine ⟨fun _ => ?_, fun hnot => absurd ⟨ch, by simp, hch⟩ hnot⟩
    split_ifs at h with h₁ h₂ h₃
    · obtain ⟨-, -, rfl⟩ : _ ∧ _ ∧ cleanup (line' ++ char '\n' :: next) = rest := by simpa using h
      exact cleanup_line hline'
    · simp at h
    · simp at h
    · obtain ⟨-, -, rfl⟩ : _ ∧ _ ∧ cleanup (line' ++ char '\n' :: next) = rest := by simpa using h
      exact cleanup_line hline'
  · have hnot : ¬ ∃ c ∈ line, isDigit c = false := by
      rintro ⟨c, hc, hdigit⟩
      simp [hdigits c hc] at hdigit
    refine ⟨fun hyes => absurd hyes hnot, fun _ => ?_⟩
    split_ifs at h with h₁ h₂ h₃
    · obtain ⟨-, -, rfl⟩ : _ ∧ _ ∧ cleanup input₁ = rest := by simpa using h
      exact past_cleanup_next hnext
    · simp at h
    · simp at h
    · exact absurd (Or.inl rfl) h₃

/-! ## Commands along a line -/

/-- A fixed number of bytes read and a cleanup. -/
lemma cleanup_drop (hnext : next ≠ []) {line : Input} (hline : char '\n' ∉ line) (count : ℕ) :
    StopsAt next (count ≤ line.length) (cleanup ((line ++ char '\n' :: next).drop count)) := by
  refine ⟨fun hle => ?_, fun hnot => ?_⟩
  · rw [List.drop_append_of_le_length hle]
    exact cleanup_line fun hmem => hline (List.mem_of_mem_drop hmem)
  · have hbehind : (line ++ char '\n' :: next).drop count = next.drop (count - line.length - 1) := by
      obtain ⟨k, rfl⟩ : ∃ k, count = line.length + (k + 1) := ⟨count - line.length - 1, by omega⟩
      rw [List.drop_append, List.drop_eq_nil_of_le (by omega), List.nil_append,
        show line.length + (k + 1) - line.length = k + 1 by omega, List.drop_succ_cons,
        Nat.add_sub_cancel]
    rw [hbehind]
    by_cases hnil : next.drop (count - line.length - 1) = []
    · rw [hnil]
      exact past_nil hnext
    · exact (cleanup_length_lt hnil).trans_le (List.drop_suffix _ _).length_le

/-- A word without a newline is at the front of the input exactly when it is at the front of the
line. -/
lemma take_line_iff {line word : Input} (hword : char '\n' ∉ word) :
    (line ++ char '\n' :: next).take word.length = word ↔ line.take word.length = word := by
  by_cases hle : word.length ≤ line.length
  · rw [List.take_append_of_le_length hle]
  · refine ⟨fun h => absurd ?_ hword, fun h => ?_⟩
    · obtain ⟨k, hk⟩ : ∃ k, word.length = line.length + (k + 1) :=
        ⟨word.length - line.length - 1, by omega⟩
      rw [hk, List.take_append, show line.length + (k + 1) - line.length = k + 1 by omega,
        List.take_succ_cons] at h
      rw [← h]
      simp
    · have hlen := congrArg List.length h
      rw [List.length_take] at hlen
      omega

lemma keyword_line {word line : Input} {after : Input → Command × Input}
    (hword : char '\n' ∉ word) :
    keyword word after (line ++ char '\n' :: next) =
      if line.take word.length = word then after (line.drop word.length ++ char '\n' :: next)
      else (.CmdInvalid, cleanup ((line ++ char '\n' :: next).drop word.length)) := by
  rw [keyword]
  by_cases htake : line.take word.length = word
  · have hle : word.length ≤ line.length := by
      have hlen := congrArg List.length htake
      rw [List.length_take] at hlen
      omega
    rw [if_pos ((take_line_iff hword).mpr htake), if_pos htake, List.drop_append_of_le_length hle]
  · rw [if_neg (mt (take_line_iff hword).mp htake), if_neg htake]

/-- A command without arguments that turns out to have some. -/
lemma bare_line (next : Input) {command : Command} (hcommand : command ≠ .CmdInvalid) {line : Input}
    (hline : char '\n' ∉ line) :
    (bare command (line ++ char '\n' :: next)).1 = .CmdInvalid →
      (bare command (line ++ char '\n' :: next)).2 = next := by
  cases line with
  | nil =>
      rw [List.nil_append, bare, if_pos rfl]
      exact fun h => absurd h hcommand
  | cons ch line =>
      obtain ⟨hch, hline'⟩ := onLine_cons hline
      rw [List.cons_append, bare, if_neg hch]
      exact fun _ => cleanup_line hline'

/-- What `get_next` makes of a line whose first byte selects a keyword that is read in one piece. -/
lemma readCommand_keys_line (word : Input) (command : Command) (wrap : List Str → JobCommand)
    (hnext : next ≠ []) {stale : List Byte} {line rest : Input} (hwrap : ∀ keys, wrap keys ≠ .Rejected)
    (hline : char '\n' ∉ line) (hword : char '\n' ∉ word)
    (hget : getNext (line ++ char '\n' :: next)
      = keyword word (fun input => (command, input)) (line ++ char '\n' :: next))
    (hread : ∀ input, getNext (line ++ char '\n' :: next) = (command, input) →
      readCommand stale (line ++ char '\n' :: next) = (do
        let (keys, input) ← parseReadDelete maxWriteSize input
        pure (unlessEmpty wrap keys, input)))
    (h : readCommand stale (line ++ char '\n' :: next) = .ok (.Rejected, rest)) :
    StopsAt next (if line.take word.length = word then
      KeysRecover maxWriteSize (line.drop word.length) else word.length ≤ line.length) rest := by
  rw [keyword_line hword] at hget
  split_ifs at hget with htake
  · rw [if_pos htake]
    rw [hread _ hget] at h
    obtain ⟨⟨keys, input₁⟩, hparse, h⟩ := by simpa only [bind_eq_ok] using h
    obtain ⟨hrejected, rfl⟩ : unlessEmpty wrap keys = .Rejected ∧ input₁ = rest := by simpa using h
    obtain rfl := eq_nil_of_unlessEmpty hwrap hrejected
    exact parseReadDelete_line hnext (fun hmem => hline (List.mem_of_mem_drop hmem)) hparse
  · rw [if_neg htake]
    obtain rfl : cleanup ((line ++ char '\n' :: next).drop word.length) = rest := by
      simpa [readCommand, hget] using h
    exact cleanup_drop hnext hline _

/-- What becomes of a line whose first byte selects a keyword without arguments. -/
lemma readCommand_bare_line (word : Input) (command : Command) (hnext : next ≠ [])
    {stale : List Byte} {line rest : Input}
    (hcommand : command = .CmdShow ∨ command = .CmdBackup ∨ command = .CmdHelp)
    (hline : char '\n' ∉ line) (hword : char '\n' ∉ word)
    (hget : getNext (line ++ char '\n' :: next)
      = keyword word (bare command) (line ++ char '\n' :: next))
    (h : readCommand stale (line ++ char '\n' :: next) = .ok (.Rejected, rest)) :
    StopsAt next (word.length ≤ line.length) rest := by
  rw [keyword_line hword] at hget
  split_ifs at hget with htake
  · have hle : word.length ≤ line.length := by
      have hlen := congrArg List.length htake
      rw [List.length_take] at hlen
      omega
    have hne : command ≠ .CmdInvalid := by rcases hcommand with rfl | rfl | rfl <;> decide
    have hdropped : char '\n' ∉ line.drop word.length :=
      fun hmem => hline (List.mem_of_mem_drop hmem)
    have hbare := bare_line next hne hdropped
    refine ⟨fun _ => ?_, fun hnot => absurd hle hnot⟩
    rw [readCommand, hget] at h
    generalize hres : bare command (line.drop word.length ++ char '\n' :: next) = result at h hbare
    obtain ⟨found, input₁⟩ := result
    have hfound : found = command ∨ found = .CmdInvalid := by
      have hfst := bare_fst command (line.drop word.length ++ char '\n' :: next)
      rwa [hres] at hfst
    rcases hfound with rfl | rfl
    · rcases hcommand with rfl | rfl | rfl <;> simp at h
    · obtain rfl : input₁ = rest := by simpa using h
      exact hbare rfl
  · obtain rfl : cleanup ((line ++ char '\n' :: next).drop word.length) = rest := by
      simpa [readCommand, hget] using h
    exact cleanup_drop hnext hline _

/-- What becomes of a line that starts with a `W`. -/
lemma readCommand_write_line (hnext : next ≠ []) {stale : List Byte} {line rest : Input}
    (hline : char '\n' ∉ char 'W' :: line)
    (h : readCommand stale (char 'W' :: line ++ char '\n' :: next) = .ok (.Rejected, rest)) :
    StopsAt next (if (char 'W' :: line).take 5 = text "WAIT " then
        ∃ c ∈ (char 'W' :: line).drop 5, isDigit c = false
      else if (char 'W' :: line).take 6 = text "WRITE " then
        WriteRecovers maxWriteSize ((char 'W' :: line).drop 6)
      else 6 ≤ (char 'W' :: line).length) rest := by
  set whole := char 'W' :: line with hwhole
  have hget : getNext (whole ++ char '\n' :: next)
      = if (whole ++ char '\n' :: next).take 5 = text "WAIT " then
          (.CmdWait, (whole ++ char '\n' :: next).drop 5)
        else keyword (text "WRITE ") (fun input => (.CmdWrite, input))
          (whole ++ char '\n' :: next) := rfl
  have hword : char '\n' ∉ text "WAIT " := by decide
  have hword' : char '\n' ∉ text "WRITE " := by decide
  have htake : (whole ++ char '\n' :: next).take 5 = text "WAIT " ↔ whole.take 5 = text "WAIT " :=
    take_line_iff hword
  have hdrop : ∀ {count : ℕ}, char '\n' ∉ whole.drop count :=
    fun hmem => hline (List.mem_of_mem_drop hmem)
  rw [keyword_line hword'] at hget
  by_cases hwait : whole.take 5 = text "WAIT "
  · have hle : 5 ≤ whole.length := by
      have hlen := congrArg List.length hwait
      rw [List.length_take, show (text "WAIT ").length = 5 from rfl] at hlen
      omega
    rw [if_pos (htake.mpr hwait), List.drop_append_of_le_length hle] at hget
    rw [if_pos hwait]
    rw [readCommand, hget] at h
    obtain ⟨⟨status, delay, thread, input₁⟩, hparse, h⟩ := by simpa only [bind_eq_ok] using h
    by_cases hstatus : status = -1
    · obtain rfl : input₁ = rest := by simpa [hstatus] using h
      rw [hstatus] at hparse
      exact parseWait_line hnext hdrop hparse
    · simp [hstatus] at h
  · rw [if_neg (mt htake.mp hwait)] at hget
    rw [if_neg hwait]
    have hlength : (text "WRITE ").length = 6 := rfl
    rw [hlength] at hget
    split_ifs at hget with hwrite
    · rw [if_pos hwrite]
      rw [readCommand, hget] at h
      obtain ⟨⟨pairs, input₁⟩, hparse, h⟩ := by simpa only [bind_eq_ok] using h
      obtain ⟨hrejected, rfl⟩ : unlessEmpty .Write pairs = .Rejected ∧ input₁ = rest := by
        simpa using h
      obtain rfl := eq_nil_of_unlessEmpty (by simp) hrejected
      exact parseWrite_line hnext hdrop hparse
    · rw [if_neg hwrite]
      obtain rfl : cleanup ((whole ++ char '\n' :: next).drop 6) = rest := by
        simpa [readCommand, hget] using h
      exact cleanup_drop hnext hline _

/-- A line does not start with a word whose first byte is another. -/
lemma take_ne_word {c d : Byte} {line word : List Byte} {count : ℕ} (hne : c ≠ d) :
    (c :: line).take (count + 1) ≠ d :: word := by
  rw [List.take_succ_cons]
  exact fun h => hne (List.cons.inj h).1

/-- **Where a rejected command stops**: behind the newline of its line if the line recovers, past
the beginning of the next line if it does not. -/
lemma readCommand_line (hnext : next ≠ []) {stale : List Byte} {line rest : Input}
    (hline : char '\n' ∉ line)
    (h : readCommand stale (line ++ char '\n' :: next) = .ok (.Rejected, rest)) :
    StopsAt next (LineRecovers line) rest := by
  cases line with
  | nil =>
      have hget : getNext ([] ++ char '\n' :: next) = (.CmdEmpty, next) := rfl
      rw [readCommand, hget] at h
      simp at h
  | cons c line =>
      obtain ⟨hc, hline'⟩ := onLine_cons hline
      have hother : ∀ {d : Byte} {word : List Byte} {count : ℕ}, c ≠ d →
          (c :: line).take (count + 1) ≠ d :: word := take_ne_word
      rw [LineRecovers]
      by_cases hW : c = char 'W'
      · subst hW
        have hread : ¬ (char 'W' :: line).take 5 = text "READ " := take_ne_word (by decide)
        have hdelete : ¬ (char 'W' :: line).take 7 = text "DELETE " := take_ne_word (by decide)
        rw [if_neg hread, if_neg hdelete]
        exact readCommand_write_line hnext hline h
      · have hwait : ¬ (c :: line).take 5 = text "WAIT " := hother hW
        have hwrite : ¬ (c :: line).take 6 = text "WRITE " := hother hW
        rw [if_neg hwait, if_neg hwrite]
        by_cases hR : c = char 'R'
        · subst hR
          have hdelete : ¬ (char 'R' :: line).take 7 = text "DELETE " := take_ne_word (by decide)
          rw [if_neg hdelete]
          exact readCommand_keys_line (text "READ ") .CmdRead .Read hnext (by simp) hline
            (by decide) rfl
            (fun input hget => by rw [readCommand, hget]) h
        · have hread : ¬ (c :: line).take 5 = text "READ " := hother hR
          rw [if_neg hread]
          by_cases hD : c = char 'D'
          · subst hD
            exact readCommand_keys_line (text "DELETE ") .CmdDelete .Delete hnext (by simp) hline
              (by decide) rfl
              (fun input hget => by rw [readCommand, hget]) h
          · have hdelete : ¬ (c :: line).take 7 = text "DELETE " := hother hD
            rw [if_neg hdelete, keywordLength, if_neg hW, if_neg hR, if_neg hD]
            by_cases hS : c = char 'S'
            · subst hS
              exact readCommand_bare_line (text "SHOW") .CmdShow hnext
                (Or.inl rfl) hline (by decide) rfl h
            · rw [if_neg hS]
              by_cases hB : c = char 'B'
              · subst hB
                exact readCommand_bare_line (text "BACKUP") .CmdBackup hnext
                  (Or.inr (Or.inl rfl)) hline (by decide) rfl h
              · rw [if_neg hB]
                by_cases hH : c = char 'H'
                · subst hH
                  exact readCommand_bare_line (text "HELP") .CmdHelp hnext
                    (Or.inr (Or.inr rfl)) hline (by decide) rfl h
                · rw [if_neg hH]
                  refine ⟨fun _ => ?_, fun hnot => absurd (Nat.zero_le _) hnot⟩
                  rw [readCommand, List.cons_append, getNext, if_neg hW, if_neg hR, if_neg hD,
                    if_neg hS, if_neg hB, if_neg hH, if_neg hc] at h
                  split_ifs at h
                  · simp at h
                  · obtain rfl : cleanup (line ++ char '\n' :: next) = rest := by simpa using h
                    exact cleanup_line hline'

end Lines

/-! ## The exact condition -/

lemma afterLine_eq_cleanup (input : Input) : afterLine input = cleanup input := by
  induction input with
  | nil => rfl
  | cons ch input ih =>
      by_cases hch : ch = char '\n'
      · rw [cleanup, if_pos hch, afterLine, List.dropWhile_cons_of_neg (by simp [hch]),
          List.tail_cons]
      · rw [cleanup, if_neg hch, ← ih, afterLine,
          List.dropWhile_cons_of_pos (by simp [hch]), afterLine]

lemma lineOf_append {line : Input} (hline : char '\n' ∉ line) (rest : Input) :
    lineOf (line ++ rest) = line ++ lineOf rest :=
  List.takeWhile_append_of_pos fun c hc => by
    simpa using fun heq : c = char '\n' => hline (heq ▸ hc)

lemma afterLine_append {line : Input} (hline : char '\n' ∉ line) (rest : Input) :
    afterLine (line ++ rest) = afterLine rest := by
  have hdrop : (line ++ rest).dropWhile (· ≠ char '\n') = rest.dropWhile (· ≠ char '\n') :=
    List.dropWhile_append_of_pos fun c hc => by
      simpa using fun heq : c = char '\n' => hline (heq ▸ hc)
  rw [afterLine, hdrop, afterLine]

@[simp] lemma lineOf_newline (next : Input) : lineOf (char '\n' :: next) = [] := by
  simp [lineOf]

@[simp] lemma afterLine_newline (next : Input) : afterLine (char '\n' :: next) = next := by
  simp [afterLine]

/-- **A malformed line costs only itself exactly where it recovers.**  Whenever `get_next` or the
parser of a command rejects what is in front of it, the input that is left begins with the next
line if and only if there is no next line or the current one recovers. -/
theorem rejected_costs_line_iff (stale : List Byte) (input rest : Input)
    (h : readCommand stale input = .ok (.Rejected, rest)) :
    rest = afterLine input ↔ Recovers input := by
  have hsuffix := readCommand_rejected h
  rw [← afterLine_eq_cleanup] at hsuffix
  by_cases hlast : afterLine input = []
  · have hrest : rest = afterLine input := by
      rw [hlast] at hsuffix ⊢
      exact List.suffix_nil.mp hsuffix
    exact ⟨fun _ => Or.inl hlast, fun _ => hrest⟩
  · rcases exists_line input with hno | ⟨line, next, hline, rfl⟩
    · rw [afterLine_eq_cleanup, cleanup_of_not_mem hno] at hlast
      exact absurd rfl hlast
    · have hafter : afterLine (line ++ char '\n' :: next) = next := by
        rw [afterLine_eq_cleanup, cleanup_line hline]
      have hlineOf : lineOf (line ++ char '\n' :: next) = line := by
        rw [lineOf, List.takeWhile_append_of_pos fun c hc => ?_]
        · simp
        · simpa using fun heq : c = char '\n' => hline (heq ▸ hc)
      rw [hafter] at hlast
      have hstops := readCommand_line hlast hline h
      rw [Recovers, hafter, hlineOf]
      refine ⟨fun hrest => ?_, fun hrecovers =>
        hstops.1 (hrecovers.resolve_left hlast)⟩
      by_contra hnot
      have hpast := hstops.2 fun hyes => hnot (Or.inr hyes)
      rw [hrest] at hpast
      exact not_past_next hpast

/-- A missing bracket recovers. -/
theorem rejected_costs_line_bracket : Recovers (text "WRITE (a,b)\nSHOW\n") :=
  (rejected_costs_line_iff [] (text "WRITE (a,b)\nSHOW\n") (text "SHOW\n") rfl).mp rfl

/-- A space inside a key does not: the `SHOW` of the next line is never executed. -/
theorem rejected_costs_next_line :
    ¬ ∀ (stale : List Byte) (input rest : Input), (0 : Byte) ∉ input →
        readCommand stale input = .ok (.Rejected, rest) → rest = afterLine input := by
  intro h
  have hrest : ([] : Input) = afterLine (text "WRITE [(a b,c)]\nSHOW\n") :=
    h [] (text "WRITE [(a b,c)]\nSHOW\n") [] (by decide) rfl
  exact absurd hrest (by decide)

end Kvs
