import Kvs.Server.Tokens
import Kvs.Server.RunJob

/-!
# The offset only moves forward

Every function of the parser leaves a suffix of its input, and one that rejects leaves a suffix of
what comes *after the line*: its last act is `cleanup`, or the file has ended.  Two things follow.

* A rejected command never leaves part of its own line behind (`readCommand_rejected`).  Whether it
  takes more than its line is the subject of `Recovery.lean`.
* Every command but the end of the file takes at least one byte (`readCommand_consumes`), so
  `run_job` never goes round more often than the file has bytes, and once more
  (`Job.runLoop_eq_runJob`).
-/

namespace Kvs

/-! ## Suffixes and lines -/

lemma cleanup_suffix_self (input : Input) : cleanup input <:+ input := by
  induction input with
  | nil => exact List.suffix_refl _
  | cons ch input ih =>
      rw [cleanup]
      split_ifs
      · exact List.suffix_cons _ _
      · exact ih.trans (List.suffix_cons _ _)

/-- Cleaning up from further on leads no less far. -/
lemma cleanup_suffix {input rest : Input} (h : rest <:+ input) :
    cleanup rest <:+ cleanup input := by
  induction input with
  | nil => rw [List.suffix_nil.mp h]
  | cons ch input ih =>
      rcases List.suffix_cons_iff.mp h with rfl | h
      · exact List.suffix_refl _
      · rw [cleanup.eq_2 ch input]
        split_ifs
        · exact (cleanup_suffix_self rest).trans h
        · exact ih h

/-! ## The readers -/

lemma readString_suffix {max : ℕ} {input : Input} {code : ℤ} {token rest : List Byte}
    (h : readString max input = .ok (code, token, rest)) : rest <:+ input := by
  obtain ⟨-, -, ⟨-, -, rfl⟩ | ⟨d, -, -, hinput⟩⟩ := readString_eq_ok h
  · exact List.nil_suffix
  · rw [hinput]
    exact (List.suffix_cons _ _).trans (List.suffix_append _ _)

/-- The number is behind `readUint`, and so is the byte that ended it. -/
lemma readUint_suffix {stale : List Byte} {input : Input} {value : Option ℕ} {ch : Byte}
    {rest : Input} (h : readUint stale input = .ok (value, ch, rest)) : rest <:+ input := by
  simp only [readUint, bind_eq_ok] at h
  obtain ⟨⟨digits, stop, input'⟩, hloop, ul, -, hresult⟩ := h
  obtain ⟨-, -, rfl⟩ : _ ∧ _ ∧ input' = rest := by simpa using hresult
  obtain ⟨taken, -, -, ⟨-, -, rfl⟩ | ⟨c, -, -, rfl⟩⟩ := readUintLoop_eq_ok hloop
  · exact List.nil_suffix
  · exact (List.suffix_cons _ _).trans (List.suffix_append _ _)

/-! ## The parsers -/

/-- Where a parser may stop: anywhere ahead, and past the line if it rejects. -/
def Stops (input : Input) (rejected : Prop) (rest : Input) : Prop :=
  rest <:+ input ∧ (rejected → rest <:+ cleanup input)

lemma Stops.of_cleanup {input rest : Input} (h : rest <:+ input) (rejected : Prop) :
    Stops input rejected (cleanup rest) :=
  ⟨(cleanup_suffix_self rest).trans h, fun _ => cleanup_suffix h⟩

lemma Stops.nil (input : Input) (rejected : Prop) : Stops input rejected [] :=
  ⟨List.nil_suffix, fun _ => List.nil_suffix⟩

lemma Stops.accepted {input rest : Input} {rejected : Prop} (h : rest <:+ input)
    (hnot : ¬ rejected) : Stops input rejected rest :=
  ⟨h, fun hrejected => absurd hrejected hnot⟩

/-- A parser may first take something. -/
lemma Stops.of_suffix {input middle rest : Input} {rejected : Prop} (h : middle <:+ input)
    (hstops : Stops middle rejected rest) : Stops input rejected rest :=
  ⟨hstops.1.trans h, fun hrejected => (hstops.2 hrejected).trans (cleanup_suffix h)⟩

lemma parsePair_stops {input rest : Input} {pair : Option (CString × CString)}
    (h : parsePair input = .ok (pair, rest)) : Stops input (pair = none) rest := by
  simp only [parsePair, bind_eq_ok] at h
  obtain ⟨⟨output, key, input₁⟩, hkey, h⟩ := h
  have h₁ := readString_suffix hkey
  by_cases houtput : output ≠ 0
  · rw [if_pos houtput] at h
    obtain ⟨rfl, rfl⟩ : none = pair ∧ cleanup input₁ = rest := by simpa using h
    exact Stops.of_cleanup h₁ _
  · rw [if_neg houtput] at h
    simp only [bind_eq_ok] at h
    obtain ⟨⟨output', value, input₂⟩, hvalue, h⟩ := h
    have h₂ := (readString_suffix hvalue).trans h₁
    dsimp only at h
    split_ifs at h
    · obtain ⟨rfl, rfl⟩ : none = pair ∧ cleanup input₂ = rest := by simpa using h
      exact Stops.of_cleanup h₂ _
    · obtain ⟨rfl, rfl⟩ : _ = pair ∧ input₂ = rest := by simpa using h
      exact Stops.accepted h₂ (by simp)

lemma parseWriteLoop_stops {room : ℕ} {input rest : Input}
    {pairs : Option (List (Str × Str))} (h : parseWriteLoop room input = .ok (pairs, rest)) :
    Stops input (pairs = none) rest := by
  induction room generalizing input pairs with
  | zero =>
      obtain ⟨rfl, rfl⟩ : some [] = pairs ∧ input = rest := by simpa [parseWriteLoop] using h
      exact Stops.accepted (List.suffix_refl _) (by simp)
  | succ room ih =>
      simp only [parseWriteLoop, bind_eq_ok] at h
      obtain ⟨⟨pair, input₁⟩, hpair, h⟩ := h
      have h₁ := (parsePair_stops hpair).1
      cases pair with
      | none =>
          obtain ⟨rfl, rfl⟩ : none = pairs ∧ cleanup input₁ = rest := by simpa using h
          exact Stops.of_cleanup h₁ _
      | some pair =>
          obtain ⟨key, -, value, -, h⟩ := by simpa only [bind_eq_ok] using h
          cases input₁ with
          | nil =>
              obtain ⟨rfl, rfl⟩ : none = pairs ∧ [] = rest := by simpa using h
              exact Stops.nil _ _
          | cons ch input₂ =>
              have h₂ : input₂ <:+ input := (List.suffix_cons _ _).trans h₁
              dsimp only at h
              split_ifs at h
              · obtain ⟨rfl, rfl⟩ : some [(key, value)] = pairs ∧ input₂ = rest := by simpa using h
                exact Stops.accepted h₂ (by simp)
              · obtain ⟨⟨pairs', input₃⟩, hrest, h⟩ := by simpa only [bind_eq_ok] using h
                obtain ⟨rfl, rfl⟩ : pairs'.map _ = pairs ∧ input₃ = rest := by simpa using h
                have hstops := ih hrest
                exact ⟨hstops.1.trans h₂, fun hnone =>
                  (hstops.2 (Option.map_eq_none_iff.mp hnone)).trans (cleanup_suffix h₂)⟩
              · obtain ⟨rfl, rfl⟩ : none = pairs ∧ cleanup input₂ = rest := by simpa using h
                exact Stops.of_cleanup h₂ _

lemma parseKeysLoop_stops {room : ℕ} {input rest : Input} {keys : Option (List Str)}
    (h : parseKeysLoop room input = .ok (keys, rest)) : Stops input (keys = none) rest := by
  induction room generalizing input keys with
  | zero =>
      obtain ⟨rfl, rfl⟩ : some [] = keys ∧ input = rest := by simpa [parseKeysLoop] using h
      exact Stops.accepted (List.suffix_refl _) (by simp)
  | succ room ih =>
      simp only [parseKeysLoop, bind_eq_ok] at h
      obtain ⟨⟨output, token, input₁⟩, htoken, h⟩ := h
      have h₁ := readString_suffix htoken
      dsimp only at h
      split_ifs at h
      · obtain ⟨rfl, rfl⟩ : none = keys ∧ cleanup input₁ = rest := by simpa using h
        exact Stops.of_cleanup h₁ _
      · obtain ⟨key, -, h⟩ := by simpa only [bind_eq_ok] using h
        obtain ⟨rfl, rfl⟩ : some [key] = keys ∧ input₁ = rest := by simpa using h
        exact Stops.accepted h₁ (by simp)
      · obtain ⟨key, -, ⟨keys', input₂⟩, hrest, h⟩ := by simpa only [bind_eq_ok] using h
        obtain ⟨rfl, rfl⟩ : keys'.map _ = keys ∧ input₂ = rest := by simpa using h
        have hstops := ih hrest
        exact ⟨hstops.1.trans h₁, fun hnone =>
          (hstops.2 (Option.map_eq_none_iff.mp hnone)).trans (cleanup_suffix h₁)⟩

lemma endOfList_stops {α : Type} {maxItems : ℕ} {items kept : List α} {input rest : Input}
    (hitems : items ≠ []) (h : endOfList maxItems items input = (kept, rest)) :
    Stops input (kept = []) rest := by
  cases input with
  | nil =>
      obtain rfl : [] = rest := by
        simp only [endOfList, cleanup] at h
        split_ifs at h <;> exact (Prod.mk.inj h).2
      exact Stops.nil _ _
  | cons ch input =>
      simp only [endOfList] at h
      split_ifs at h
      · obtain ⟨rfl, rfl⟩ := Prod.mk.inj h
        exact Stops.of_cleanup (List.suffix_refl _) _
      · obtain ⟨rfl, rfl⟩ := Prod.mk.inj h
        exact Stops.accepted (List.suffix_cons _ _) hitems
      · obtain ⟨rfl, rfl⟩ := Prod.mk.inj h
        exact Stops.of_cleanup (List.suffix_cons _ _) _

/-- A loop that ends well has items to show for it, given room for one. -/
lemma parseWriteLoop_ne_nil {room : ℕ} {input rest : Input} {pairs : List (Str × Str)}
    (h : parseWriteLoop (room + 1) input = .ok (some pairs, rest)) : pairs ≠ [] := by
  simp only [parseWriteLoop, bind_eq_ok] at h
  obtain ⟨⟨pair, input₁⟩, -, h⟩ := h
  cases pair with
  | none => simp at h
  | some pair =>
      obtain ⟨key, -, value, -, h⟩ := by simpa only [bind_eq_ok] using h
      cases input₁ with
      | nil => simp at h
      | cons ch input₂ =>
          dsimp only at h
          split_ifs at h
          · obtain ⟨rfl, -⟩ : [(key, value)] = pairs ∧ _ := by simpa using h
            simp
          · obtain ⟨⟨pairs', input₃⟩, -, h⟩ := by simpa only [bind_eq_ok] using h
            obtain ⟨⟨tail, -, rfl⟩, -⟩ : (∃ tail, pairs' = some tail ∧ (key, value) :: tail = pairs)
                ∧ input₃ = rest := by simpa using h
            simp
          · simp at h

lemma parseKeysLoop_ne_nil {room : ℕ} {input rest : Input} {keys : List Str}
    (h : parseKeysLoop (room + 1) input = .ok (some keys, rest)) : keys ≠ [] := by
  simp only [parseKeysLoop, bind_eq_ok] at h
  obtain ⟨⟨output, token, input₁⟩, -, h⟩ := h
  dsimp only at h
  split_ifs at h
  · simp at h
  · obtain ⟨key, -, h⟩ := by simpa only [bind_eq_ok] using h
    obtain ⟨rfl, -⟩ : [key] = keys ∧ _ := by simpa using h
    simp
  · obtain ⟨key, -, ⟨keys', input₂⟩, -, h⟩ := by simpa only [bind_eq_ok] using h
    obtain ⟨⟨tail, -, rfl⟩, -⟩ : (∃ tail, keys' = some tail ∧ key :: tail = keys)
        ∧ input₂ = rest := by simpa using h
    simp

lemma parseWrite_stops {input rest : Input} {pairs : List (Str × Str)}
    (h : parseWrite maxWriteSize input = .ok (pairs, rest)) : Stops input (pairs = []) rest := by
  match input, h with
  | [], h =>
      obtain ⟨rfl, rfl⟩ : [] = pairs ∧ [] = rest := by simpa [parseWrite] using h
      exact Stops.nil _ _
  | [ch], h =>
      obtain ⟨rfl, rfl⟩ : [] = pairs ∧ [] = rest := by
        simp only [parseWrite] at h
        split_ifs at h <;> simpa [cleanup] using h
      exact Stops.nil _ _
  | ch :: ch' :: input, h =>
      have htail : input <:+ ch :: ch' :: input :=
        (List.suffix_cons _ _).trans (List.suffix_cons _ _)
      simp only [parseWrite] at h
      split_ifs at h
      · obtain ⟨rfl, rfl⟩ : [] = pairs ∧ cleanup (ch' :: input) = rest := by simpa using h
        exact Stops.of_cleanup (List.suffix_cons _ _) _
      · obtain ⟨rfl, rfl⟩ : [] = pairs ∧ cleanup input = rest := by simpa using h
        exact Stops.of_cleanup htail _
      · obtain ⟨⟨pairs', input₁⟩, hloop, h⟩ := by simpa only [bind_eq_ok] using h
        have hstops := parseWriteLoop_stops hloop
        cases pairs' with
        | none =>
            obtain ⟨rfl, rfl⟩ : [] = pairs ∧ input₁ = rest := by simpa using h
            exact Stops.of_suffix htail ⟨hstops.1, fun _ => hstops.2 rfl⟩
        | some pairs' =>
            have hend : endOfList maxWriteSize pairs' input₁ = (pairs, rest) := by simpa using h
            exact Stops.of_suffix (hstops.1.trans htail)
              (endOfList_stops (parseWriteLoop_ne_nil hloop) hend)

lemma parseReadDelete_stops {input rest : Input} {keys : List Str}
    (h : parseReadDelete maxWriteSize input = .ok (keys, rest)) :
    Stops input (keys = []) rest := by
  cases input with
  | nil =>
      obtain ⟨rfl, rfl⟩ : [] = keys ∧ [] = rest := by simpa [parseReadDelete] using h
      exact Stops.nil _ _
  | cons ch input =>
      have htail : input <:+ ch :: input := List.suffix_cons _ _
      simp only [parseReadDelete] at h
      split_ifs at h
      · obtain ⟨rfl, rfl⟩ : [] = keys ∧ cleanup input = rest := by simpa using h
        exact Stops.of_cleanup htail _
      · obtain ⟨⟨keys', input₁⟩, hloop, h⟩ := by simpa only [bind_eq_ok] using h
        have hstops := parseKeysLoop_stops hloop
        cases keys' with
        | none =>
            obtain ⟨rfl, rfl⟩ : [] = keys ∧ input₁ = rest := by simpa using h
            exact Stops.of_suffix htail ⟨hstops.1, fun _ => hstops.2 rfl⟩
        | some keys' =>
            have hend : endOfList maxWriteSize keys' input₁ = (keys, rest) := by simpa using h
            exact Stops.of_suffix (hstops.1.trans htail)
              (endOfList_stops (parseKeysLoop_ne_nil hloop) hend)

lemma parseWait_stops {stale : List Byte} {input rest : Input} {status : ℤ}
    {delay thread : Option ℕ}
    (h : parseWait stale stale false input = .ok (status, delay, thread, rest)) :
    Stops input (status = -1) rest := by
  simp only [parseWait, bind_eq_ok] at h
  obtain ⟨⟨delay', ch, input₁⟩, hread, h⟩ := h
  have h₁ := readUint_suffix hread
  dsimp only at h
  split_ifs at h
  · obtain ⟨rfl, -, -, rfl⟩ : -1 = status ∧ _ ∧ _ ∧ cleanup input₁ = rest := by simpa using h
    exact Stops.of_cleanup h₁ _
  · obtain ⟨rfl, -, -, rfl⟩ : 0 = status ∧ _ ∧ _ ∧ cleanup input₁ = rest := by simpa using h
    exact Stops.of_cleanup h₁ _
  · obtain ⟨rfl, -, -, rfl⟩ : 0 = status ∧ _ ∧ _ ∧ input₁ = rest := by simpa using h
    exact Stops.accepted h₁ (by decide)
  · obtain ⟨rfl, -, -, rfl⟩ : -1 = status ∧ _ ∧ _ ∧ cleanup input₁ = rest := by simpa using h
    exact Stops.of_cleanup h₁ _

/-! ## Commands -/

lemma keyword_suffix {word : List Byte} {next : Input → Command × Input} {input : Input}
    (hnext : ∀ input, Stops input ((next input).1 = .CmdInvalid) (next input).2) :
    Stops input ((keyword word next input).1 = .CmdInvalid) (keyword word next input).2 := by
  rw [keyword]
  split_ifs
  · exact Stops.of_suffix (List.drop_suffix _ _) (hnext _)
  · exact Stops.of_cleanup (List.drop_suffix _ _) _

lemma bare_stops {command : Command} (hcommand : command ≠ .CmdInvalid) (input : Input) :
    Stops input ((bare command input).1 = .CmdInvalid) (bare command input).2 := by
  cases input with
  | nil => exact Stops.nil _ _
  | cons ch input =>
      rw [bare]
      split_ifs
      · exact Stops.accepted (List.suffix_cons _ _) hcommand
      · exact Stops.of_cleanup (List.suffix_cons _ _) _

lemma getNext_stops (input : Input) :
    Stops input ((getNext input).1 = .CmdInvalid) (getNext input).2 := by
  have hargs : ∀ {command : Command}, command ≠ .CmdInvalid → ∀ input : Input,
      Stops input (command = .CmdInvalid) input :=
    fun hcommand _ => Stops.accepted (List.suffix_refl _) hcommand
  cases input with
  | nil => exact Stops.nil _ _
  | cons ch input =>
      rw [getNext]
      split_ifs
      · exact Stops.accepted ((List.drop_suffix _ _).trans (List.suffix_cons _ _)) (by decide)
      · exact keyword_suffix (hargs (by decide))
      · exact keyword_suffix (hargs (by decide))
      · exact keyword_suffix (hargs (by decide))
      · exact keyword_suffix (bare_stops (by decide))
      · exact keyword_suffix (bare_stops (by decide))
      · exact keyword_suffix (bare_stops (by decide))
      · exact Stops.of_cleanup (List.suffix_cons _ _) _
      · exact Stops.accepted (List.suffix_cons _ _) (by decide)
      · exact Stops.of_cleanup (List.suffix_cons _ _) _

/-- **Where a command stops**: ahead, and past its line if it is rejected. -/
theorem readCommand_stops {stale : List Byte} {input rest : Input} {command : JobCommand}
    (h : readCommand stale input = .ok (command, rest)) :
    Stops (getNext input).2 (command = .Rejected) rest ∨
      ((getNext input).1 = .CmdInvalid ∧ rest = (getNext input).2) := by
  rw [readCommand] at h
  generalize getNext input = parsed at h ⊢
  obtain ⟨found, args⟩ := parsed
  cases found with
  | CmdWrite =>
      left
      obtain ⟨⟨pairs, input₁⟩, hparse, h⟩ := by simpa only [bind_eq_ok] using h
      obtain ⟨rfl, rfl⟩ : unlessEmpty .Write pairs = command ∧ input₁ = rest := by simpa using h
      have hstops := parseWrite_stops hparse
      exact ⟨hstops.1, fun hrejected => hstops.2 (eq_nil_of_unlessEmpty (by simp) hrejected)⟩
  | CmdRead =>
      left
      obtain ⟨⟨keys, input₁⟩, hparse, h⟩ := by simpa only [bind_eq_ok] using h
      obtain ⟨rfl, rfl⟩ : unlessEmpty .Read keys = command ∧ input₁ = rest := by simpa using h
      have hstops := parseReadDelete_stops hparse
      exact ⟨hstops.1, fun hrejected => hstops.2 (eq_nil_of_unlessEmpty (by simp) hrejected)⟩
  | CmdDelete =>
      left
      obtain ⟨⟨keys, input₁⟩, hparse, h⟩ := by simpa only [bind_eq_ok] using h
      obtain ⟨rfl, rfl⟩ : unlessEmpty .Delete keys = command ∧ input₁ = rest := by simpa using h
      have hstops := parseReadDelete_stops hparse
      exact ⟨hstops.1, fun hrejected => hstops.2 (eq_nil_of_unlessEmpty (by simp) hrejected)⟩
  | CmdWait =>
      left
      obtain ⟨⟨status, delay, thread, input₁⟩, hparse, h⟩ := by simpa only [bind_eq_ok] using h
      obtain ⟨rfl, rfl⟩ : (if status = -1 then JobCommand.Rejected else .Wait (delay.getD 0))
          = command ∧ input₁ = rest := by simpa using h
      have hstops := parseWait_stops hparse
      refine ⟨hstops.1, fun hrejected => hstops.2 ?_⟩
      by_contra hstatus
      rw [if_neg hstatus] at hrejected
      cases hrejected
  | CmdInvalid =>
      obtain ⟨-, rfl⟩ : JobCommand.Rejected = command ∧ args = rest := by simpa using h
      exact Or.inr ⟨rfl, rfl⟩
  | CmdShow | CmdBackup | CmdHelp | CmdEmpty | Eoc =>
      obtain ⟨rfl, rfl⟩ : _ = command ∧ args = rest := by simpa using h
      exact Or.inl (Stops.accepted (List.suffix_refl _) (by simp))

/-- **A rejected command leaves nothing of its line behind.** -/
theorem readCommand_rejected {stale : List Byte} {input rest : Input}
    (h : readCommand stale input = .ok (.Rejected, rest)) : rest <:+ cleanup input := by
  have hnext := getNext_stops input
  rcases readCommand_stops h with hstops | ⟨hinvalid, rfl⟩
  · exact (Stops.of_suffix hnext.1 hstops).2 rfl
  · exact hnext.2 hinvalid

/-- The first byte of the input is behind `get_next`, whatever it was. -/
lemma getNext_suffix (ch : Byte) (input : Input) : (getNext (ch :: input)).2 <:+ input := by
  have hkeyword : ∀ {word : List Byte} {next : Input → Command × Input}, word ≠ [] →
      (∀ input, (next input).2 <:+ input) → (keyword word next (ch :: input)).2 <:+ input := by
    intro word next hword hnext
    obtain ⟨c, word, rfl⟩ := List.exists_cons_of_ne_nil hword
    rw [keyword, List.length_cons, List.drop_succ_cons]
    split_ifs
    · exact (hnext _).trans (List.drop_suffix _ _)
    · exact (cleanup_suffix_self _).trans (List.drop_suffix _ _)
  have hargs : ∀ (command : Command) (input : Input), (command, input).2 <:+ input :=
    fun _ _ => List.suffix_refl _
  have hbare : ∀ (command : Command) (input : Input), (bare command input).2 <:+ input := by
    intro command input
    cases input with
    | nil => exact List.suffix_refl _
    | cons ch input =>
        rw [bare]
        split_ifs
        · exact List.suffix_cons _ _
        · exact (cleanup_suffix_self _).trans (List.suffix_cons _ _)
  rw [getNext]
  split_ifs
  · exact List.drop_suffix _ _
  · exact hkeyword (by decide) (hargs _)
  · exact hkeyword (by decide) (hargs _)
  · exact hkeyword (by decide) (hargs _)
  · exact hkeyword (by decide) (hbare _)
  · exact hkeyword (by decide) (hbare _)
  · exact hkeyword (by decide) (hbare _)
  · exact cleanup_suffix_self _
  · exact List.suffix_refl _
  · exact cleanup_suffix_self _

/-- **Every command takes a byte**, except at the end of the file. -/
theorem readCommand_consumes {stale : List Byte} {input rest : Input} {command : JobCommand}
    (h : readCommand stale input = .ok (command, rest)) :
    command = .Eoc ∨ rest.length < input.length := by
  cases input with
  | nil =>
      obtain ⟨rfl, -⟩ : JobCommand.Eoc = command ∧ [] = rest := by
        simpa [readCommand, getNext] using h
      exact Or.inl rfl
  | cons ch input =>
      have hsuffix : rest <:+ input := by
        rcases readCommand_stops h with hstops | ⟨-, rfl⟩
        · exact hstops.1.trans (getNext_suffix ch input)
        · exact getNext_suffix ch input
      exact Or.inr (Nat.lt_succ_of_le hsuffix.length_le)

/-! ## The loop of `run_job` -/

namespace Job

variable {env : JobEnvironment} {job : Job}

/-- **Enough is enough.**  Any number of iterations beyond the bytes of the file gives the same
result, by induction on that number: the loop goes round again only after a command, and a command
takes a byte. -/
theorem runLoop_eq {fuel fuel' : ℕ} {job : Job} (h : job.input.length < fuel)
    (h' : job.input.length < fuel') : runLoop env fuel job = runLoop env fuel' job := by
  induction fuel generalizing fuel' job with
  | zero => exact absurd h (Nat.not_lt_zero _)
  | succ fuel ih =>
      obtain ⟨fuel', rfl⟩ := Nat.exists_eq_succ_of_ne_zero (Nat.ne_zero_of_lt h')
      rw [runLoop, runLoop]
      cases hnext : job.next env with
      | error e => rfl
      | ok result =>
          obtain ⟨command, job₁⟩ := result
          simp only [ok_bind]
          cases hexec : job₁.execute env command with
          | error e => rfl
          | ok result =>
              obtain ⟨status, job₂⟩ := result
              simp only [ok_bind]
              cases status with
              | some status => rfl
              | none =>
                  have hinput := (execute_frame hexec).1
                  rcases readCommand_consumes (next_eq_ok hnext) with rfl | hlt
                  · simp [execute] at hexec
                  · exact ih (by rw [hinput]; omega) (by rw [hinput]; omega)

theorem runLoop_eq_runJob {fuel : ℕ} (h : job.input.length < fuel) :
    runLoop env fuel job = job.runJob env :=
  runLoop_eq h (Nat.lt_succ_self _)

end Job

end Kvs
