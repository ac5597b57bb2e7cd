import Kvs.Client.Parser
import Kvs.Server.Consumption
import Kvs.Server.ListGrammar

/-!
# Two parsers for one list

`SUBSCRIBE [key]` on the client and `READ [key]` on the server end in the same text, and each side
reads it with a parser of its own.  The loops are the same (`parseListLoop_keys`); behind them the
server looks only at the number of keys, and the client also at what ended the loop.  So they part
at one place, a list with exactly as many keys as the array has rows:

* `parseList_iff` — the client takes it, up to and including the capacity;
* `parseReadDelete_fullList` — the server gives it back as an error, the bracket and the newline
  being where they should;
* `parseReadDelete_eq_parseList` — on every other text they return the same.
-/

namespace Kvs

/-! ## The loops -/

/-- What `parse_list` collects is what `parse_read_delete` collects. -/
lemma parseListLoop_keys (room : ℕ) (output : ℤ) (input : Input) :
    parseKeysLoop room input
      = (parseListLoop room output input).map fun r => (r.1.map Prod.fst, r.2) := by
  induction room generalizing output input with
  | zero => rfl
  | succ room ih =>
      simp only [parseKeysLoop, parseListLoop]
      cases readString maxStringSize input with
      | error e => rfl
      | ok r =>
          obtain ⟨code, bytes, input⟩ := r
          simp only [ok_bind]
          split_ifs with hbad hclose
          · rfl
          · cases strcpy maxStringSize (.ofBuffer bytes) with
            | error e => rfl
            | ok key => rfl
          · cases strcpy maxStringSize (.ofBuffer bytes) with
            | error e => rfl
            | ok key =>
                simp only [ok_bind, ih code input]
                cases parseListLoop room code input with
                | error e => rfl
                | ok r =>
                    obtain ⟨list, rest⟩ := r
                    cases list with
                    | none => rfl
                    | some list => rfl

/-- Without a bracket the loop ends when the array is full. -/
lemma parseListLoop_length {room : ℕ} {output code : ℤ} {input rest : Input} {keys : List Str}
    (h : parseListLoop room output input = .ok (some (keys, code), rest)) (hcode : code ≠ 2) :
    keys.length = room := by
  induction room generalizing output input keys with
  | zero =>
      obtain ⟨⟨rfl, -⟩, -⟩ : ([] = keys ∧ output = code) ∧ input = rest := by
        simpa [parseListLoop] using h
      rfl
  | succ room ih =>
      simp only [parseListLoop, bind_eq_ok] at h
      obtain ⟨⟨code', bytes, input₁⟩, -, h⟩ := h
      dsimp only at h
      split_ifs at h with hbad hclose
      · simp at h
      · obtain ⟨key, -, h⟩ := by simpa only [bind_eq_ok] using h
        obtain ⟨⟨-, rfl⟩, -⟩ : ([key] = keys ∧ code' = code) ∧ input₁ = rest := by simpa using h
        exact absurd hclose hcode
      · obtain ⟨key, -, ⟨list, input₂⟩, hrest, h⟩ := by simpa only [bind_eq_ok] using h
        cases list with
        | none => simp at h
        | some list =>
            obtain ⟨tail, code''⟩ := list
            obtain ⟨⟨rfl, rfl⟩, rfl⟩ : (key :: tail = keys ∧ code'' = code) ∧ input₂ = rest := by
              simpa using h
            rw [List.length_cons, ih hrest]

/-- The client's loop meets the bracket where the server's does that has one more row. -/
lemma parseListLoop_bracket_iff {room : ℕ} {output : ℤ} {input rest : Input} {items : List Str}
    (houtput : output ≠ 2) :
    parseListLoop room output input = .ok (some (items, 2), rest) ↔
      parseKeysLoop (room + 1) input = .ok (some items, rest) ∧ items.length ≤ room := by
  induction room generalizing output input items with
  | zero =>
      constructor
      · intro h
        obtain ⟨⟨-, heq⟩, -⟩ : ([] = items ∧ output = 2) ∧ input = rest := by
          simpa [parseListLoop] using h
        exact absurd heq houtput
      · rintro ⟨h, hlength⟩
        exact absurd (List.length_eq_zero_iff.mp (Nat.le_zero.mp hlength)) (parseKeysLoop_ne_nil h)
  | succ room ih =>
      rw [parseListLoop, parseKeysLoop]
      cases readString maxStringSize input with
      | error e => simp
      | ok r =>
          obtain ⟨code, bytes, input₁⟩ := r
          simp only [ok_bind]
          split_ifs with hbad hclose
          · simp
          · cases strcpy maxStringSize (.ofBuffer bytes) with
            | error e => simp
            | ok key =>
                constructor
                · intro h
                  obtain ⟨⟨rfl, -⟩, rfl⟩ : ([key] = items ∧ code = 2) ∧ input₁ = rest := by
                    simpa using h
                  simp
                · rintro ⟨h, -⟩
                  obtain ⟨rfl, rfl⟩ : [key] = items ∧ input₁ = rest := by simpa using h
                  simp [hclose]
          · cases strcpy maxStringSize (.ofBuffer bytes) with
            | error e => simp
            | ok key =>
                simp only [ok_bind, bind_eq_ok, Prod.exists]
                constructor
                · rintro ⟨list, input₂, hrest, h⟩
                  cases list with
                  | none => simp at h
                  | some list =>
                      obtain ⟨tail, code'⟩ := list
                      obtain ⟨⟨rfl, rfl⟩, rfl⟩ :
                          (key :: tail = items ∧ code' = 2) ∧ input₂ = rest := by simpa using h
                      obtain ⟨hkeys, hlength⟩ := (ih hclose).mp hrest
                      exact ⟨⟨some tail, input₂, hkeys, rfl⟩, Nat.succ_le_succ hlength⟩
                · rintro ⟨⟨list, input₂, hrest, h⟩, hlength⟩
                  obtain ⟨⟨tail, rfl, rfl⟩, rfl⟩ : (∃ tail, list = some tail ∧ key :: tail = items)
                      ∧ input₂ = rest := by simpa using h
                  have hlist := (ih hclose).mpr ⟨hrest, Nat.le_of_succ_le_succ hlength⟩
                  exact ⟨some (tail, 2), input₂, hlist, rfl⟩

/-- The first `output` is never looked at when there is a row to fill. -/
lemma parseListLoop_output {room : ℕ} (hroom : 1 ≤ room) (output output' : ℤ) (input : Input) :
    parseListLoop room output input = parseListLoop room output' input := by
  obtain ⟨room, rfl⟩ := Nat.exists_eq_succ_of_ne_zero (Nat.one_le_iff_ne_zero.mp hroom)
  rfl

/-- The keys in front of the bracket, as many as there are rows at most. -/
lemma parseListLoop_iff {maxKeys : ℕ} (hmax : 1 ≤ maxKeys) {input rest : Input}
    {items : List Str} :
    parseListLoop maxKeys 2 input = .ok (some (items, 2), rest) ↔ ∃ keys : List Token, keys ≠ [] ∧
      keys.length ≤ maxKeys ∧ items = keys.map Token.str ∧
        input = Token.keysText keys ++ char ']' :: rest := by
  rw [parseListLoop_output hmax 2 0, parseListLoop_bracket_iff (by decide)]
  constructor
  · rintro ⟨h, hlength⟩
    obtain ⟨keys, hne, rfl, rfl⟩ := (parseKeysLoop_iff (Nat.lt_succ_of_le hlength)).mp h
    rw [List.length_map] at hlength
    exact ⟨keys, hne, hlength, rfl, rfl⟩
  · rintro ⟨keys, hne, hlength, rfl, rfl⟩
    have hitems : (keys.map Token.str).length ≤ maxKeys := by rwa [List.length_map]
    exact ⟨(parseKeysLoop_iff (Nat.lt_succ_of_le hitems)).mpr ⟨keys, hne, rfl, rfl⟩, hitems⟩

/-! ## What `parse_list` accepts -/

/-- The end of `parse_list` behind a bracket. -/
lemma parseList_of_bracket {maxKeys : ℕ} {input behind : Input} {keys : List Str}
    (h : parseListLoop maxKeys 2 input = .ok (some (keys, 2), behind)) :
    parseList maxKeys (char '[' :: input) = .ok (match behind with
      | [] => ([], [])
      | ch :: rest => if EndsLine ch then (keys, rest) else ([], cleanup rest)) := by
  simp only [parseList, ne_eq, not_true_eq_false, if_false, h, ok_bind, and_false]
  cases behind with
  | nil => rfl
  | cons ch rest =>
      by_cases hc : ch = char '\n' ∨ ch = 0
      · simp only [if_pos hc, if_pos (show EndsLine ch from hc), pure_eq_ok]
      · simp only [if_neg hc, if_neg (show ¬ EndsLine ch from hc), pure_eq_ok]

/-- Only a bracket and the end of a line behind it bring `parse_list` to return keys. -/
lemma parseList_eq_ok {maxKeys : ℕ} {input rest : Input} {items : List Str} (hitems : items ≠ [])
    (h : parseList maxKeys input = .ok (items, rest)) : ∃ (behind : Input) (c : Byte),
      input = char '[' :: behind ∧ EndsLine c ∧
        parseListLoop maxKeys 2 behind = .ok (some (items, 2), c :: rest) := by
  cases input with
  | nil =>
      obtain ⟨rfl, -⟩ : [] = items ∧ [] = rest := by simpa [parseList] using h
      exact absurd rfl hitems
  | cons ch input =>
      by_cases hopen : ch ≠ char '['
      · obtain ⟨rfl, -⟩ : [] = items ∧ cleanup input = rest := by simpa [parseList, hopen] using h
        exact absurd rfl hitems
      · obtain rfl := not_not.mp hopen
        obtain ⟨⟨list, behind⟩, hloop, hend⟩ : ∃ r, parseListLoop maxKeys 2 input = .ok r ∧ _ := by
          simpa only [parseList, if_neg hopen, bind_eq_ok] using h
        cases list with
        | none =>
            obtain ⟨rfl, -⟩ : [] = items ∧ behind = rest := by simpa using hend
            exact absurd rfl hitems
        | some list =>
            obtain ⟨keys, code⟩ := list
            by_cases hcode : code = 2
            · obtain rfl := hcode
              rw [parseList_of_bracket hloop] at h
              cases behind with
              | nil =>
                  obtain ⟨rfl, -⟩ : [] = items ∧ [] = rest := by simpa using h
                  exact absurd rfl hitems
              | cons c behind =>
                  dsimp only at h
                  split_ifs at h with hc
                  · obtain ⟨rfl, rfl⟩ : keys = items ∧ behind = rest := by simpa using h
                    exact ⟨input, c, rfl, hc, hloop⟩
                  · obtain ⟨rfl, -⟩ : [] = items ∧ cleanup behind = rest := by simpa using h
                    exact absurd rfl hitems
            · have hfull := parseListLoop_length hloop hcode
              obtain ⟨rfl, -⟩ : [] = items ∧ cleanup behind = rest := by
                simpa [hfull, hcode] using hend
              exact absurd rfl hitems

/-- **What `parse_list` accepts.** -/
theorem parseList_iff {maxKeys : ℕ} (hmax : 1 ≤ maxKeys) {input rest : Input} {items : List Str}
    (hitems : items ≠ []) : parseList maxKeys input = .ok (items, rest) ↔
      ∃ (keys : List Token) (c : Byte), items = keys.map Token.str ∧ keys.length ≤ maxKeys ∧
        EndsLine c ∧ input = char '[' :: (Token.keysText keys ++ char ']' :: c :: rest) := by
  constructor
  · intro h
    obtain ⟨behind, c, rfl, hc, hloop⟩ := parseList_eq_ok hitems h
    obtain ⟨keys, -, hlength, rfl, rfl⟩ := (parseListLoop_iff hmax).mp hloop
    exact ⟨keys, c, rfl, hlength, hc, rfl⟩
  · rintro ⟨keys, c, rfl, hlength, hc, rfl⟩
    have hne : keys ≠ [] := fun h => hitems (by rw [h, List.map_nil])
    have hloop : parseListLoop maxKeys 2 (Token.keysText keys ++ char ']' :: c :: rest)
        = .ok (some (keys.map Token.str, 2), c :: rest) :=
      (parseListLoop_iff hmax).mpr ⟨keys, hne, hlength, rfl, rfl⟩
    rw [parseList_of_bracket hloop]
    exact congrArg Except.ok (if_pos hc)

/-! ## Where the two agree -/

/-- What a parser with room for `maxKeys` keys should accept of a text: a list of one to `maxKeys`
keys with a newline behind it, which it stores and consumes. -/
def AcceptsLists (maxKeys : ℕ) (input : Input) (parsed : Except Fault (List Str × Input)) : Prop :=
  ∀ items rest, parsed = .ok (items, rest) ∧ items.length ≠ 0 ↔
    ∃ keys : List Token, 1 ≤ keys.length ∧ keys.length ≤ maxKeys ∧
      items.map (fun item => item.val.bytes) = keys.map Subtype.val ∧
      input = char '[' :: (Token.keysText keys ++ char ']' :: char '\n' :: rest)

/-- The input starts with a list that takes every row of the array, and a newline. -/
def FullList (maxKeys : ℕ) (input : Input) : Prop :=
  ∃ (keys : List Token) (rest : Input), keys.length = maxKeys ∧
    input = char '[' :: (Token.keysText keys ++ char ']' :: char '\n' :: rest)

lemma Token.map_str_eq_iff {keys : List Token} {items : List Str}
    (hnul : ∀ key ∈ keys, (0 : Byte) ∉ key.val) :
    items = keys.map Token.str ↔
      items.map (fun item => item.val.bytes) = keys.map Subtype.val := by
  have hbytes : (keys.map Token.str).map (fun item => item.val.bytes) = keys.map Subtype.val := by
    rw [List.map_map]
    exact List.map_congr_left fun key hkey => Token.str_bytes (hnul key hkey)
  have hinjective : Function.Injective fun item : Str => item.val.bytes := by
    intro item item' h
    exact Subtype.ext (CString.ext h)
  constructor
  · rintro rfl
    exact hbytes
  · intro h
    rw [← hbytes] at h
    exact hinjective.list_map h

/-- The client's parser accepts the lists that fit its array. -/
lemma parseList_accepts {maxKeys : ℕ} (hmax : 1 ≤ maxKeys) {input : Input}
    (hnul : (0 : Byte) ∉ input) : AcceptsLists maxKeys input (parseList maxKeys input) := by
  intro items rest
  constructor
  · rintro ⟨h, hlength⟩
    have hitems : items ≠ [] := fun hnil => hlength (by rw [hnil, List.length_nil])
    obtain ⟨keys, c, rfl, hle, hc, rfl⟩ := (parseList_iff hmax hitems).mp h
    simp only [List.mem_cons, List.mem_append, not_or] at hnul
    rw [List.length_map] at hlength
    have hkeys := (Token.map_str_eq_iff (Token.not_mem_keysText hnul.2.1)).mp rfl
    refine ⟨keys, Nat.one_le_iff_ne_zero.mpr hlength, hle, hkeys, ?_⟩
    rw [hc.eq_newline (Ne.symm hnul.2.2.2.1)]
  · rintro ⟨keys, hmin, hle, hitems, rfl⟩
    simp only [List.mem_cons, List.mem_append, not_or] at hnul
    obtain rfl := (Token.map_str_eq_iff (Token.not_mem_keysText hnul.2.1)).mpr hitems
    have hlength : (keys.map Token.str).length ≠ 0 := by
      rw [List.length_map]
      omega
    have hne : keys.map Token.str ≠ [] := fun hnil => hlength (by rw [hnil, List.length_nil])
    exact ⟨(parseList_iff hmax hne).mpr ⟨keys, char '\n', rfl, hle, Or.inl rfl, rfl⟩, hlength⟩

/-- A full list is rejected by the server, which skips the line it has just read. -/
lemma parseReadDelete_fullList {keys : List Token} (hne : keys ≠ []) (rest : Input) :
    parseReadDelete keys.length (char '[' :: (Token.keysText keys ++ char ']' :: char '\n' :: rest))
      = .ok ([], rest) := by
  have hmax : 1 ≤ keys.length := List.length_pos_iff.mpr hne
  have hloop : parseListLoop keys.length 2
        (Token.keysText keys ++ char ']' :: char '\n' :: rest)
      = .ok (some (keys.map Token.str, 2), char '\n' :: rest) :=
    (parseListLoop_iff hmax).mpr ⟨keys, hne, le_rfl, rfl, rfl⟩
  have hkeys : parseKeysLoop keys.length (Token.keysText keys ++ char ']' :: char '\n' :: rest)
      = .ok (some (keys.map Token.str), char '\n' :: rest) := by
    rw [parseListLoop_keys keys.length 2, hloop]
    rfl
  have hend : endOfList keys.length (keys.map Token.str) (char '\n' :: rest) = ([], rest) := by
    rw [endOfList, if_pos (List.length_map _), cleanup, if_pos rfl]
  simp only [parseReadDelete, ne_eq, not_true_eq_false, if_false, hkeys, ok_bind, hend, pure_eq_ok]

/-- Behind a bracket the server looks at the number of keys first.  That makes no difference, unless
the list is full and the text goes on with a newline. -/
lemma endOfList_eq_parseList {maxKeys : ℕ} (hmax : 1 ≤ maxKeys) {input behind : Input}
    (hnul : (0 : Byte) ∉ input) (hfull : ¬ FullList maxKeys (char '[' :: input)) {keys : List Str}
    (hloop : parseListLoop maxKeys 2 input = .ok (some (keys, 2), behind)) :
    parseList maxKeys (char '[' :: input) = .ok (endOfList maxKeys keys behind) := by
  obtain ⟨tokens, -, -, rfl, rfl⟩ := (parseListLoop_iff hmax).mp hloop
  rw [parseList_of_bracket hloop]
  cases behind with
  | nil =>
      unfold endOfList
      split_ifs <;> rfl
  | cons c behind =>
      by_cases hlength : (tokens.map Token.str).length = maxKeys
      · have hline : c ≠ char '\n' := by
          rintro rfl
          rw [List.length_map] at hlength
          exact hfull ⟨tokens, behind, hlength, rfl⟩
        have hzero : c ≠ 0 := by
          rintro rfl
          simp at hnul
        have hc : ¬ EndsLine c := not_or.mpr ⟨hline, hzero⟩
        simp only [endOfList, if_pos hlength, if_neg hc, cleanup, if_neg hline]
      · rw [endOfList, if_neg hlength]
        rfl

/-- On any other text the two return the same. -/
lemma parseReadDelete_eq_parseList {maxKeys : ℕ} (hmax : 1 ≤ maxKeys) {input : Input}
    (hnul : (0 : Byte) ∉ input) (hfull : ¬ FullList maxKeys input) :
    parseReadDelete maxKeys input = parseList maxKeys input := by
  cases input with
  | nil => rfl
  | cons ch input =>
      by_cases hopen : ch ≠ char '['
      · simp [parseReadDelete, parseList, hopen]
      · obtain rfl := not_not.mp hopen
        cases hloop : parseListLoop maxKeys 2 input with
        | error e =>
            simp [parseReadDelete, parseList, parseListLoop_keys maxKeys 2, hloop, Except.map]
        | ok r =>
            obtain ⟨list, behind⟩ := r
            have hkeys : parseKeysLoop maxKeys input = .ok (list.map Prod.fst, behind) := by
              rw [parseListLoop_keys maxKeys 2, hloop]
              rfl
            cases list with
            | none => simp [parseReadDelete, parseList, hkeys, hloop]
            | some list =>
                obtain ⟨keys, code⟩ := list
                have hserver : parseReadDelete maxKeys (char '[' :: input)
                    = .ok (endOfList maxKeys keys behind) := by
                  simp [parseReadDelete, hkeys]
                rw [hserver]
                by_cases hcode : code = 2
                · obtain rfl := hcode
                  have htail : (0 : Byte) ∉ input := fun hmem => hnul (List.mem_cons_of_mem _ hmem)
                  exact (endOfList_eq_parseList hmax htail hfull hloop).symm
                · have hlength := parseListLoop_length hloop hcode
                  simp [parseList, hloop, endOfList, hlength, hcode]

/-- **Agreement up to the capacity.**  On a text, the key-list parsers of server and client return
the same and accept the lists that fit the array, all but one kind: lists that fill it. -/
theorem parseReadDelete_agrees_iff {maxKeys : ℕ} (hmax : 1 ≤ maxKeys) {input : Input}
    (hnul : (0 : Byte) ∉ input) :
    (parseReadDelete maxKeys input = parseList maxKeys input ∧
      AcceptsLists maxKeys input (parseReadDelete maxKeys input) ∧
      AcceptsLists maxKeys input (parseList maxKeys input)) ↔ ¬ FullList maxKeys input := by
  have hclient := parseList_accepts hmax hnul
  constructor
  · rintro ⟨heq, -, -⟩ ⟨keys, rest, rfl, rfl⟩
    have hne : keys ≠ [] := List.length_pos_iff.mp hmax
    have hitems : keys.map Token.str ≠ [] := by simpa using hne
    have haccepted : parseList keys.length
          (char '[' :: (Token.keysText keys ++ char ']' :: char '\n' :: rest))
        = .ok (keys.map Token.str, rest) :=
      (parseList_iff hmax hitems).mpr ⟨keys, char '\n', rfl, le_rfl, Or.inl rfl, rfl⟩
    rw [parseReadDelete_fullList hne, haccepted] at heq
    obtain ⟨hnil, -⟩ := Prod.mk.inj (Except.ok.inj heq)
    exact hitems hnil.symm
  · intro hfull
    have heq := parseReadDelete_eq_parseList hmax hnul hfull
    exact ⟨heq, heq.symm ▸ hclient, hclient⟩

/-- One key and one row: the client's parser takes it. -/
theorem parseReadDelete_disagrees_one :
    ¬ (parseReadDelete 1 (text "[a]\n") = parseList 1 (text "[a]\n") ∧
      AcceptsLists 1 (text "[a]\n") (parseReadDelete 1 (text "[a]\n")) ∧
      AcceptsLists 1 (text "[a]\n") (parseList 1 (text "[a]\n"))) := by
  rintro ⟨heq, -, -⟩
  revert heq
  decide

theorem parseReadDelete_agrees_iff_two :
    (parseReadDelete 2 (text "[a]\n") = parseList 2 (text "[a]\n") ∧
      AcceptsLists 2 (text "[a]\n") (parseReadDelete 2 (text "[a]\n")) ∧
      AcceptsLists 2 (text "[a]\n") (parseList 2 (text "[a]\n"))) ↔
        ¬ FullList 2 (text "[a]\n") :=
  parseReadDelete_agrees_iff (by decide) (by decide)

end Kvs
