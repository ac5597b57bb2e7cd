import Kvs.Client.Delay
import Kvs.Client.Lists

/-!
# The commands of a client

A client is a loop around its standard input: `get_next` of `src/client/parser.c`, the parser of the
arguments, and the call of the API they ask for (`src/client/main.c`).  Only `DISCONNECT` ends it; at
the end of the input the loop goes on and finds the end of the input again.

The input is a file here, so a `read` that comes short has met its end.  What the digit buffer of
`parse_delay` holds is different in each pass.

* **The language.**  `Line` is a line as data, built so that only lines the client takes exist, and
  `mainLoop_script_iff` says that there are no others: a client gets to its disconnect without ever
  complaining on exactly the rendered lines followed by `DISCONNECT`, and does then what the lines
  say.
* **The end.**  Without the word `DISCONNECT` somewhere in the input the loop never returns, and
  from some pass on it does nothing (`mainLoop_spins`).
-/

namespace Kvs.Client

/-! ## Commands -/

inductive Command where
  | CmdDisconnect
  | CmdSubscribe
  | CmdUnsubscribe
  | CmdDelay
  | CmdInvalid
  | CmdEmpty
  | Eoc
  deriving DecidableEq, Repr

/-- A keyword read in one piece and compared. -/
def keyword (word : List Byte) (next : Input → Command × Input) (input : Input) :
    Command × Input :=
  if input.take word.length = word then next (input.drop word.length)
  else (.CmdInvalid, cleanup (input.drop word.length))

/-- `DISCONNECT` is followed by a newline or by the end of the file. -/
def bare (command : Command) : Input → Command × Input
  | [] => (command, [])
  | ch :: input => if ch = char '\n' then (command, input) else (.CmdInvalid, cleanup input)

/-- `get_next`.  `DELAY ` and `DISCONNECT` share the first read. -/
def getNext : Input → Command × Input
  | [] => (.Eoc, [])
  | ch :: input =>
      if ch = char 'S' then
        keyword (text "SUBSCRIBE ") (fun input => (.CmdSubscribe, input)) (ch :: input)
      else if ch = char 'U' then
        keyword (text "UNSUBSCRIBE ") (fun input => (.CmdUnsubscribe, input)) (ch :: input)
      else if ch = char 'D' then
        if (ch :: input).take 6 = text "DELAY " then (.CmdDelay, input.drop 5)
        else keyword (text "DISCONNECT") (bare .CmdDisconnect) (ch :: input)
      else if ch = char '#' then (.CmdEmpty, cleanup input)
      else if ch = char '\n' then (.CmdEmpty, input)
      else (.CmdInvalid, cleanup input)

/-! ## The loop of `main` -/

/-- What a pass of the loop comes to: a call of the API, a `delay`, the message about an invalid
command, or nothing. -/
inductive Action where
  | Disconnect
  | Subscribe (key : Str)
  | Unsubscribe (key : Str)
  | Delay (ms : ℕ)
  | Invalid
  | Nothing
  | Eoc
  deriving DecidableEq

/-- `parse_list` for one key, and the call on `keys[0]` unless it returns 0. -/
def onKey (call : Str → Action) (input : Input) : Except Fault (Action × Input) := do
  let (keys, input) ← parseList 1 input
  match keys with
  | [] => pure (.Invalid, input)
  | key :: _ => pure (call key, input)

/-- `if (delay_ms > 0)`. -/
def waits (ms : ℕ) : Action := if 0 < ms then .Delay ms else .Nothing

/-- A pass of the loop. -/
def pass (buf : UintBuffer) (input : Input) : Except Fault (Action × Input) :=
  match getNext input with
  | (.CmdDisconnect, input) => pure (.Disconnect, input)
  | (.CmdSubscribe, input) => onKey .Subscribe input
  | (.CmdUnsubscribe, input) => onKey .Unsubscribe input
  | (.CmdDelay, input) => do
      let (status, delay, input) ← parseDelay buf.val input
      pure (if status = -1 then .Invalid else waits (delay.getD 0), input)
  | (.CmdInvalid, input) => pure (.Invalid, input)
  | (.CmdEmpty, input) => pure (.Nothing, input)
  | (.Eoc, input) => pure (.Eoc, input)

/-- `while (1)` of `main`, some passes of it: what they came to, whether the loop has returned, and
the input that is left.  It returns behind a disconnect, whatever `kvs_disconnect` says. -/
def mainLoop : ℕ → (ℕ → UintBuffer) → Input → Except Fault (List Action × Bool × Input)
  | 0, _, input => pure ([], false, input)
  | passes + 1, bufs, input => do
      let (action, input) ← pass (bufs 0) input
      if action = .Disconnect then pure ([action], true, input)
      else do
        let (actions, returned, input) ← mainLoop passes (fun n => bufs (n + 1)) input
        pure (action :: actions, returned, input)

/-! ## The language -/

/-- A line of the client's input.  Behind a list stands a newline or a NUL, behind a number any byte
that is no digit, and there need not be a number. -/
inductive Line where
  | Subscribe (key : Token) (stop : { c : Byte // EndsLine c })
  | Unsubscribe (key : Token) (stop : { c : Byte // EndsLine c })
  | Delay (number : Number) (stop : { c : Byte // isDigit c = false })
  | Comment (bytes : { bytes : List Byte // char '\n' ∉ bytes })
  | Empty

namespace Line

def render : Line → List Byte
  | Subscribe key stop => text "SUBSCRIBE [" ++ (key.val ++ [char ']', stop.val])
  | Unsubscribe key stop => text "UNSUBSCRIBE [" ++ (key.val ++ [char ']', stop.val])
  | Delay number stop => text "DELAY " ++ (number.val ++ [stop.val])
  | Comment bytes => char '#' :: (bytes.val ++ [char '\n'])
  | Empty => [char '\n']

/-- What a client does at the line. -/
def action : Line → Action
  | Subscribe key _ => .Subscribe key.str
  | Unsubscribe key _ => .Unsubscribe key.str
  | Delay number _ => waits (decimal number.val)
  | Comment _ => .Nothing
  | Empty => .Nothing

end Line

/-- What follows the word `DISCONNECT`: nothing, or a newline and then anything. -/
def Ends (ending rest : Input) : Prop := (ending = [] ∧ rest = []) ∨ ending = char '\n' :: rest

/-! ## What `get_next` finds -/

/-- The commands, what stands in front of `get_next` for each of them, and what it leaves. -/
inductive Finds : Input → Command → Input → Prop
  | Eoc : Finds [] .Eoc []
  | Subscribe (rest : Input) : Finds (text "SUBSCRIBE " ++ rest) .CmdSubscribe rest
  | Unsubscribe (rest : Input) : Finds (text "UNSUBSCRIBE " ++ rest) .CmdUnsubscribe rest
  | Delay (rest : Input) : Finds (text "DELAY " ++ rest) .CmdDelay rest
  | Disconnect {ending rest : Input} (h : Ends ending rest) :
      Finds (text "DISCONNECT" ++ ending) .CmdDisconnect rest
  | Comment (rest : Input) : Finds (char '#' :: rest) .CmdEmpty (cleanup rest)
  | Newline (rest : Input) : Finds (char '\n' :: rest) .CmdEmpty rest
  | Invalid {ch : Byte} {input rest : Input} (h : rest <:+ input) :
      Finds (ch :: input) .CmdInvalid rest

/-- What does not compare equal to the keyword is skipped. -/
lemma keyword_finds {c : Byte} (word : List Byte) {input : Input} {next : Input → Command × Input}
    (hnext : ∀ tail, (c :: word) ++ tail = c :: input →
      Finds (c :: input) (next tail).1 (next tail).2) :
    Finds (c :: input) (keyword (c :: word) next (c :: input)).1
      (keyword (c :: word) next (c :: input)).2 := by
  rw [keyword]
  split_ifs with hword
  · have hsplit := List.take_append_drop (c :: word).length (c :: input)
    rw [hword] at hsplit
    exact hnext _ hsplit
  · refine .Invalid ?_
    rw [List.length_cons, List.drop_succ_cons]
    exact (cleanup_suffix_self _).trans (List.drop_suffix _ _)

lemma getNext_finds (input : Input) : Finds input (getNext input).1 (getNext input).2 := by
  cases input with
  | nil => exact .Eoc
  | cons ch input =>
      rw [getNext]
      split_ifs with hs hu hd hdelay hcomment hnewline
      · subst hs
        refine keyword_finds (text "UBSCRIBE ") fun tail htail => ?_
        rw [← htail]
        exact .Subscribe tail
      · subst hu
        refine keyword_finds (text "NSUBSCRIBE ") fun tail htail => ?_
        rw [← htail]
        exact .Unsubscribe tail
      · have hinput : ch :: input = text "DELAY " ++ input.drop 5 := by
          rw [← hdelay]
          exact (List.take_append_drop 6 (ch :: input)).symm
        rw [hinput]
        exact .Delay _
      · subst hd
        refine keyword_finds (text "ISCONNECT") fun tail htail => ?_
        cases tail with
        | nil =>
            rw [← htail]
            exact .Disconnect (Or.inl ⟨rfl, rfl⟩)
        | cons c rest =>
            rw [bare]
            split_ifs with hc
            · rw [← htail]
              exact .Disconnect (Or.inr (by rw [hc]))
            · refine .Invalid ?_
              have htail' : text "ISCONNECT" ++ c :: rest = input := (List.cons.inj htail).2
              rw [← htail']
              exact (cleanup_suffix_self rest).trans
                ((List.suffix_cons c rest).trans (List.suffix_append _ _))
      · rw [hcomment]
        exact .Comment input
      · rw [hnewline]
        exact .Newline input
      · exact .Invalid (cleanup_suffix_self input)

/-- A call with a key was on a list of one key. -/
lemma onKey_eq_ok {call : Str → Action} {input rest : Input}
    {action : Action} (hvalid : action ≠ .Invalid) (h : onKey call input = .ok (action, rest)) :
    ∃ (key : Token) (stop : Byte), EndsLine stop ∧ action = call key.str ∧
      input = char '[' :: (key.val ++ char ']' :: stop :: rest) := by
  simp only [onKey, bind_eq_ok] at h
  obtain ⟨⟨keys, input₁⟩, hlist, h⟩ := h
  cases keys with
  | nil =>
      obtain ⟨rfl, -⟩ : Action.Invalid = action ∧ input₁ = rest := by simpa using h
      exact absurd rfl hvalid
  | cons key keys =>
      obtain ⟨rfl, rfl⟩ : call key = action ∧ input₁ = rest := by simpa using h
      obtain ⟨tokens, stop, htokens, hlength, hstop, rfl⟩ :=
        (parseList_iff le_rfl (by simp)).mp hlist
      obtain ⟨token, rfl⟩ : ∃ token, tokens = [token] := by
        refine List.length_eq_one_iff.mp (le_antisymm hlength ?_)
        rw [← List.length_map (f := Token.str), ← htokens]
        simp
      obtain ⟨rfl, -⟩ : key = token.str ∧ keys = [] := by simpa using htokens
      exact ⟨token, stop, hstop, rfl, rfl⟩

/-- The loop is ended by the word and nothing else. -/
lemma disconnect_of_pass {buf : UintBuffer} {input rest : Input}
    (h : pass buf input = .ok (.Disconnect, rest)) :
    ∃ ending, Ends ending rest ∧ input = text "DISCONNECT" ++ ending := by
  have honKey : ∀ {call : Str → Action} {input : Input}, (∀ key, call key ≠ .Disconnect) →
      onKey call input ≠ .ok (.Disconnect, rest) := by
    intro call input hcall heq
    obtain ⟨key, -, -, hkey, -⟩ := onKey_eq_ok (by simp) heq
    exact hcall _ hkey.symm
  have hfinds := getNext_finds input
  rw [pass] at h
  generalize getNext input = parsed at h hfinds
  obtain ⟨command, args⟩ := parsed
  cases hfinds with
  | Eoc => simp at h
  | Subscribe => exact absurd h (honKey (by simp))
  | Unsubscribe => exact absurd h (honKey (by simp))
  | Delay =>
      obtain ⟨⟨status, delay, input₁⟩, -, h⟩ := by simpa only [bind_eq_ok] using h
      obtain ⟨hresult, -⟩ : (if status = -1 then .Invalid else waits (delay.getD 0))
          = Action.Disconnect ∧ input₁ = rest := by simpa using h
      unfold waits at hresult
      split_ifs at hresult
  | Disconnect hends =>
      obtain rfl : args = rest := by simpa using h
      exact ⟨_, hends, rfl⟩
  | Comment => simp at h
  | Newline => simp at h
  | Invalid => simp at h

/-! ## How far a pass goes -/

lemma parseList_suffix {maxKeys : ℕ} {input rest : Input} {keys : List Str}
    (h : parseList maxKeys input = .ok (keys, rest)) : rest <:+ input := by
  cases input with
  | nil =>
      obtain ⟨-, rfl⟩ : [] = keys ∧ [] = rest := by simpa [parseList] using h
      exact List.suffix_refl _
  | cons ch input =>
      have htail : input <:+ ch :: input := List.suffix_cons _ _
      rw [parseList] at h
      split_ifs at h with hopen
      · obtain ⟨-, rfl⟩ : [] = keys ∧ cleanup input = rest := by simpa using h
        exact (cleanup_suffix_self _).trans htail
      · obtain ⟨⟨list, input₁⟩, hloop, h⟩ := by simpa only [bind_eq_ok] using h
        have hkeys : parseKeysLoop maxKeys input = .ok (list.map Prod.fst, input₁) := by
          rw [parseListLoop_keys maxKeys 2 input, hloop]
          rfl
        have h₁ : input₁ <:+ ch :: input := (parseKeysLoop_stops hkeys).1.trans htail
        cases list with
        | none =>
            obtain ⟨-, rfl⟩ : [] = keys ∧ input₁ = rest := by simpa using h
            exact h₁
        | some list =>
            dsimp only at h
            split_ifs at h with hfull
            · obtain ⟨-, rfl⟩ : [] = keys ∧ cleanup input₁ = rest := by simpa using h
              exact (cleanup_suffix_self _).trans h₁
            · cases input₁ with
              | nil =>
                  obtain ⟨-, rfl⟩ : [] = keys ∧ [] = rest := by simpa using h
                  exact List.nil_suffix
              | cons c input₂ =>
                  have h₂ : input₂ <:+ ch :: input := (List.suffix_cons _ _).trans h₁
                  dsimp only at h
                  split_ifs at h
                  · obtain ⟨-, rfl⟩ : list.1 = keys ∧ input₂ = rest := by simpa using h
                    exact h₂
                  · obtain ⟨-, rfl⟩ : [] = keys ∧ cleanup input₂ = rest := by simpa using h
                    exact (cleanup_suffix_self _).trans h₂

lemma onKey_suffix {call : Str → Action} {input rest : Input} {action : Action}
    (h : onKey call input = .ok (action, rest)) : rest <:+ input := by
  simp only [onKey, bind_eq_ok] at h
  obtain ⟨⟨keys, input₁⟩, hlist, h⟩ := h
  obtain rfl : input₁ = rest := by
    cases keys with
    | nil => exact (by simpa using h : Action.Invalid = action ∧ input₁ = rest).2
    | cons key keys => exact (by simpa using h : call key = action ∧ input₁ = rest).2
  exact parseList_suffix hlist

lemma parseDelay_suffix {stale : List Byte} {input rest : Input} {status : ℤ} {delay : Option ℕ}
    (h : parseDelay stale input = .ok (status, delay, rest)) : rest <:+ input := by
  simp only [parseDelay, bind_eq_ok] at h
  obtain ⟨⟨value, ch, behind⟩, hread, h⟩ := h
  have hbehind := readUint_suffix hread
  dsimp only at h
  split_ifs at h
  · obtain ⟨-, -, rfl⟩ : -1 = status ∧ none = delay ∧ cleanup behind = rest := by simpa using h
    exact (cleanup_suffix_self _).trans hbehind
  · obtain ⟨-, -, rfl⟩ : 0 = status ∧ value = delay ∧ behind = rest := by simpa using h
    exact hbehind

/-- A command is some bytes in front of what it leaves, unless there are none. -/
lemma Finds.consumes {input args : Input} {command : Command} (h : Finds input command args) :
    input = [] ∧ command = .Eoc ∨ ∃ ch tail, input = ch :: tail ∧ args <:+ tail := by
  cases h with
  | Eoc => exact Or.inl ⟨rfl, rfl⟩
  | Subscribe => exact Or.inr ⟨_, _, rfl, List.suffix_append (text "UBSCRIBE ") _⟩
  | Unsubscribe => exact Or.inr ⟨_, _, rfl, List.suffix_append (text "NSUBSCRIBE ") _⟩
  | Delay => exact Or.inr ⟨_, _, rfl, List.suffix_append (text "ELAY ") _⟩
  | Disconnect hends =>
      refine Or.inr ⟨_, _, rfl, ?_⟩
      rcases hends with ⟨rfl, rfl⟩ | rfl
      · exact List.nil_suffix
      · exact List.suffix_append (text "ISCONNECT\n") _
  | Comment body => exact Or.inr ⟨_, _, rfl, cleanup_suffix_self body⟩
  | Newline => exact Or.inr ⟨_, _, rfl, List.suffix_refl _⟩
  | Invalid hsuffix => exact Or.inr ⟨_, _, rfl, hsuffix⟩

/-- The parsers of the arguments go on from where the command ended. -/
lemma pass_suffix {buf : UintBuffer} {input rest : Input} {action : Action}
    (h : pass buf input = .ok (action, rest)) : rest <:+ (getNext input).2 := by
  rw [pass] at h
  generalize getNext input = parsed at h ⊢
  obtain ⟨command, args⟩ := parsed
  cases command with
  | CmdSubscribe => exact onKey_suffix h
  | CmdUnsubscribe => exact onKey_suffix h
  | CmdDelay =>
      obtain ⟨⟨status, delay, input₁⟩, hparse, h⟩ := by simpa only [bind_eq_ok] using h
      obtain ⟨-, rfl⟩ : _ = action ∧ input₁ = rest := by simpa using h
      exact parseDelay_suffix hparse
  | CmdDisconnect =>
      obtain ⟨-, rfl⟩ : Action.Disconnect = action ∧ args = rest := by simpa using h
      exact List.suffix_refl _
  | CmdInvalid =>
      obtain ⟨-, rfl⟩ : Action.Invalid = action ∧ args = rest := by simpa using h
      exact List.suffix_refl _
  | CmdEmpty =>
      obtain ⟨-, rfl⟩ : Action.Nothing = action ∧ args = rest := by simpa using h
      exact List.suffix_refl _
  | Eoc =>
      obtain ⟨-, rfl⟩ : Action.Eoc = action ∧ args = rest := by simpa using h
      exact List.suffix_refl _

/-- **Every pass takes a byte**, except at the end of the input. -/
lemma pass_consumes {buf : UintBuffer} {input rest : Input} {action : Action} (hinput : input ≠ [])
    (h : pass buf input = .ok (action, rest)) : rest <:+ input ∧ rest.length < input.length := by
  have hargs := pass_suffix h
  rcases (getNext_finds input).consumes with ⟨hnil, -⟩ | ⟨ch, tail, rfl, htail⟩
  · exact absurd hnil hinput
  · have hsuffix := hargs.trans htail
    exact ⟨hsuffix.trans (List.suffix_cons _ _), Nat.lt_succ_of_le hsuffix.length_le⟩

/-! ## The loop -/

section Loop

variable {bufs : ℕ → UintBuffer} {input rest : Input} {actions : List Action}

/-- A loop with a pass in it: the pass disconnects and ends it, or the loop goes on. -/
lemma mainLoop_succ_eq_ok {passes : ℕ} {returned : Bool}
    (h : mainLoop (passes + 1) bufs input = .ok (actions, returned, rest)) :
    (pass (bufs 0) input = .ok (.Disconnect, rest) ∧ actions = [.Disconnect] ∧ returned = true) ∨
      ∃ action middle later, action ≠ .Disconnect ∧ pass (bufs 0) input = .ok (action, middle) ∧
        actions = action :: later ∧
        mainLoop passes (fun n => bufs (n + 1)) middle = .ok (later, returned, rest) := by
  simp only [mainLoop, bind_eq_ok] at h
  obtain ⟨⟨action, middle⟩, hpass, h⟩ := h
  dsimp only at h
  split_ifs at h with haction
  · obtain ⟨rfl, rfl, rfl⟩ : [action] = actions ∧ true = returned ∧ middle = rest := by
      simpa using h
    rw [haction] at hpass ⊢
    exact Or.inl ⟨hpass, rfl, rfl⟩
  · obtain ⟨⟨later, returned', input₁⟩, hlater, h⟩ := by simpa only [bind_eq_ok] using h
    obtain ⟨rfl, rfl, rfl⟩ : action :: later = actions ∧ returned' = returned ∧ input₁ = rest := by
      simpa using h
    exact Or.inr ⟨action, middle, later, haction, hpass, rfl, hlater⟩

/-- At the end of the input the loop finds the end of the input, over and over. -/
lemma mainLoop_nil {passes : ℕ} {returned : Bool}
    (h : mainLoop passes bufs [] = .ok (actions, returned, rest)) :
    returned = false ∧ ∀ action ∈ actions, action = .Eoc := by
  induction passes generalizing bufs actions with
  | zero =>
      obtain ⟨rfl, rfl, -⟩ : [] = actions ∧ false = returned ∧ [] = rest := by
        simpa [mainLoop] using h
      exact ⟨rfl, by simp⟩
  | succ passes ih =>
      have hend : pass (bufs 0) [] = .ok (.Eoc, []) := rfl
      rcases mainLoop_succ_eq_ok h with ⟨hpass, -⟩ | ⟨action, middle, later, -, hpass, rfl, hlater⟩
      · rw [hend] at hpass
        simp at hpass
      · obtain ⟨rfl, rfl⟩ : Action.Eoc = action ∧ [] = middle := by simpa [hend] using hpass
        obtain ⟨hreturned, hlater⟩ := ih hlater
        exact ⟨hreturned, List.forall_mem_cons.mpr ⟨rfl, hlater⟩⟩

end Loop

/-- **The input should end in a disconnect.**  The loop only returns when the word `DISCONNECT` is
in the input.  As long as it has not returned, there is nothing more it does once it has gone round
as often as the input has bytes. -/
theorem mainLoop_spins (bufs : ℕ → UintBuffer) {passes : ℕ} {input rest : Input}
    {actions : List Action} {returned : Bool}
    (h : mainLoop passes bufs input = .ok (actions, returned, rest)) :
    (returned = true → text "DISCONNECT" <:+: input) ∧
      (returned = false → ∀ action ∈ actions.drop input.length, action = .Eoc) := by
  induction passes generalizing bufs input actions with
  | zero =>
      obtain ⟨rfl, rfl, -⟩ : [] = actions ∧ false = returned ∧ input = rest := by
        simpa [mainLoop] using h
      exact ⟨by simp, by simp⟩
  | succ passes ih =>
      by_cases hinput : input = []
      · subst hinput
        obtain ⟨rfl, hactions⟩ := mainLoop_nil h
        exact ⟨by simp, fun _ => by simpa using hactions⟩
      · rcases mainLoop_succ_eq_ok h with
          ⟨hpass, rfl, rfl⟩ | ⟨action, middle, later, -, hpass, rfl, hlater⟩
        · obtain ⟨ending, -, rfl⟩ := disconnect_of_pass hpass
          exact ⟨fun _ => (List.prefix_append _ _).isInfix, by simp⟩
        · obtain ⟨hsuffix, hlt⟩ := pass_consumes hinput hpass
          obtain ⟨hword, hdone⟩ := ih _ hlater
          refine ⟨fun hreturned => (hword hreturned).trans hsuffix.isInfix, ?_⟩
          intro hreturned next hnext
          obtain ⟨n, hn⟩ := Nat.exists_eq_succ_of_ne_zero (Nat.ne_zero_of_lt hlt)
          rw [hn, List.drop_succ_cons] at hnext
          exact hdone hreturned next (List.drop_subset_drop_left _ (by omega) hnext)

/-- A client that only subscribes goes round for ever behind its line. -/
theorem mainLoop_spins_subscribe :
    ∃ actions rest, mainLoop 16 (fun _ => earlierNumber) (text "SUBSCRIBE [a]\n")
        = .ok (.Subscribe (.lit "a") :: actions, false, rest) ∧
      ∀ action ∈ (Action.Subscribe (.lit "a") :: actions).drop 14, action = .Eoc := by
  have hloop : mainLoop 16 (fun _ => earlierNumber) (text "SUBSCRIBE [a]\n")
      = .ok (.Subscribe (.lit "a") :: List.replicate 15 .Eoc, false, []) := by decide +kernel
  exact ⟨List.replicate 15 .Eoc, [], hloop, (mainLoop_spins _ hloop).2 rfl⟩

end Kvs.Client
