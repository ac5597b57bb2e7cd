import Kvs.Server.Consumption
import Kvs.Server.JobExecution
import Kvs.Server.Numbers

/-!
# The language of the job files

A well-formed line is read back (`readCommand_render`), and many others are taken as well: keys with a
newline in them, lists that a NUL ends, a `WAIT` without a number, or with anything behind its number and
a space.  `JobLine` has them all, as data that cannot be anything else, and on a file whose last byte
is a newline `run_job` finds nothing to complain about exactly if the file is such lines, one behind the
other (`job_language_iff`).  The text says which commands they are: however it is taken apart into lines,
the commands come out the same.

Without the newline at the end the last command may run into the end of the file, and what a `WAIT` makes
of it depends on its digit buffer (`Numbers.lean`).
-/

namespace Kvs

/-! ## Lines -/

/-- A list the parsers have room for. -/
abbrev Arguments (α : Type) := { items : List α // items ≠ [] ∧ items.length < maxWriteSize }

/-- What a command of a job file can look like. -/
inductive JobLine where
  | Write (pairs : Arguments (Token × Token)) (stop : { c : Byte // EndsLine c })
  | Read (keys : Arguments Token) (stop : { c : Byte // EndsLine c })
  | Delete (keys : Arguments Token) (stop : { c : Byte // EndsLine c })
  | Show
  | Wait (number : Number) (stop : { c : Byte // EndsLine c })
  | WaitAnd (number : Number) (ignored : { bytes : List Byte // char '\n' ∉ bytes })
  | Backup
  | Help
  | Comment (bytes : { bytes : List Byte // char '\n' ∉ bytes })
  | Empty

namespace JobLine

def render : JobLine → List Byte
  | Write pairs stop => text "WRITE [" ++ (Token.pairsText pairs.val ++ [char ']', stop.val])
  | Read keys stop => text "READ [" ++ (Token.keysText keys.val ++ [char ']', stop.val])
  | Delete keys stop => text "DELETE [" ++ (Token.keysText keys.val ++ [char ']', stop.val])
  | Show => text "SHOW\n"
  | Wait number stop => text "WAIT " ++ (number.val ++ [stop.val])
  | WaitAnd number ignored =>
      text "WAIT " ++ (number.val ++ char ' ' :: (ignored.val ++ [char '\n']))
  | Backup => text "BACKUP\n"
  | Help => text "HELP\n"
  | Comment bytes => char '#' :: (bytes.val ++ [char '\n'])
  | Empty => [char '\n']

/-- What `run_job` executes for it. -/
def command : JobLine → JobCommand
  | Write pairs _ => .Write (pairs.val.map Token.strs)
  | Read keys _ => .Read (keys.val.map Token.str)
  | Delete keys _ => .Delete (keys.val.map Token.str)
  | Show => .Show
  | Wait number _ => .Wait (decimal number.val)
  | WaitAnd number _ => .Wait (decimal number.val)
  | Backup => .Backup
  | Help => .Help
  | Comment _ => .Empty
  | Empty => .Empty

lemma render_ne_nil (line : JobLine) : line.render ≠ [] := by
  cases line <;> simp [render, text]

lemma command_ne (line : JobLine) : line.command ≠ .Rejected ∧ line.command ≠ .Eoc := by
  cases line <;> simp [command]

end JobLine

/-! ## What `get_next` finds -/

/-- The commands without arguments. -/
def bareCommands : List (List Byte × Command) :=
  [(text "SHOW", .CmdShow), (text "BACKUP", .CmdBackup), (text "HELP", .CmdHelp)]

/-- The commands, what stands in front of `get_next` for each of them, and what it leaves. -/
inductive GetsNext : Input → Command → Input → Prop
  | Eoc : GetsNext [] .Eoc []
  | Write (rest : Input) : GetsNext (text "WRITE " ++ rest) .CmdWrite rest
  | Read (rest : Input) : GetsNext (text "READ " ++ rest) .CmdRead rest
  | Delete (rest : Input) : GetsNext (text "DELETE " ++ rest) .CmdDelete rest
  | Wait (rest : Input) : GetsNext (text "WAIT " ++ rest) .CmdWait rest
  | Bare {word : Input} {command : Command} (h : (word, command) ∈ bareCommands) (rest : Input) :
      GetsNext (word ++ char '\n' :: rest) command rest
  | BareEnd {word : Input} {command : Command} (h : (word, command) ∈ bareCommands) :
      GetsNext word command []
  | Comment (rest : Input) : GetsNext (char '#' :: rest) .CmdEmpty (cleanup rest)
  | Newline (rest : Input) : GetsNext (char '\n' :: rest) .CmdEmpty rest
  | Invalid (input rest : Input) : GetsNext input .CmdInvalid rest

/-- A command without arguments. -/
lemma keyword_bare_getsNext {word : List Byte} {command : Command}
    (hmem : (word, command) ∈ bareCommands) (input : Input) :
    GetsNext input (keyword word (bare command) input).1 (keyword word (bare command) input).2 := by
  rw [keyword]
  split_ifs with hword
  · have hinput := List.take_append_drop word.length input
    rw [hword] at hinput
    cases hbehind : input.drop word.length with
    | nil =>
        rw [hbehind, List.append_nil] at hinput
        rw [← hinput]
        exact .BareEnd hmem
    | cons c rest =>
        rw [hbehind] at hinput
        rw [← hinput, bare]
        split_ifs with hc
        · rw [hc]
          exact .Bare hmem rest
        · exact .Invalid _ _
  · exact .Invalid _ _

lemma keyword_getsNext {word : List Byte} {command : Command}
    (hfinds : ∀ rest, GetsNext (word ++ rest) command rest) (input : Input) :
    GetsNext input (keyword word (fun input => (command, input)) input).1
      (keyword word (fun input => (command, input)) input).2 := by
  rw [keyword]
  split_ifs with hword
  · have hinput := List.take_append_drop word.length input
    rw [hword] at hinput
    have hfound := hfinds (input.drop word.length)
    rwa [hinput] at hfound
  · exact .Invalid _ _

lemma getNext_getsNext (input : Input) : GetsNext input (getNext input).1 (getNext input).2 := by
  cases input with
  | nil => exact .Eoc
  | cons ch input =>
      rw [getNext]
      split_ifs with hw hwait hr hd hs hb hh hcomment hnewline
      · have hinput := List.take_append_drop 5 (ch :: input)
        rw [hwait] at hinput
        rw [← hinput]
        exact .Wait _
      · exact keyword_getsNext .Write _
      · exact keyword_getsNext .Read _
      · exact keyword_getsNext .Delete _
      · exact keyword_bare_getsNext (by simp [bareCommands]) _
      · exact keyword_bare_getsNext (by simp [bareCommands]) _
      · exact keyword_bare_getsNext (by simp [bareCommands]) _
      · rw [hcomment]
        exact .Comment input
      · rw [hnewline]
        exact .Newline input
      · exact .Invalid _ _

/-! ## Forwards -/

/-- `parse_wait` behind a number: by the byte that ended it. -/
lemma parseWait_number (stale stale' : List Byte) (number : Number) {stop : Byte}
    (hstop : isDigit stop = false) (rest : Input) :
    parseWait stale stale' false (number.val ++ stop :: rest)
      = .ok (if stop = char ' ' then (0, some (decimal number.val), none, cleanup rest)
          else if EndsLine stop then (0, some (decimal number.val), none, rest)
          else (-1, some (decimal number.val), none, cleanup rest)) := by
  obtain ⟨digits, hdigits, hlength, hmax⟩ := number
  have hread : readUint stale (digits ++ stop :: rest) = .ok (asUint (decimal digits), stop, rest) :=
    readUint_number hdigits hstop hlength
  have hvalue : asUint (decimal digits) = some (decimal digits) := if_neg (not_lt.mpr hmax)
  simp only [parseWait, hread, hvalue, ok_bind, reduceCtorEq, if_false, if_true, pure_eq_ok]
  by_cases hspace : stop = char ' '
  · rw [if_pos hspace, if_pos hspace]
  · rw [if_neg hspace, if_neg hspace]
    by_cases hends : stop = char '\n' ∨ stop = 0
    · rw [if_pos hends, if_pos (show EndsLine stop from hends)]
    · rw [if_neg hends, if_neg (show ¬ EndsLine stop from hends)]

/-- **A line is read back**, whatever follows it. -/
lemma readCommand_jobLine (stale : List Byte) (line : JobLine) (rest : Input) :
    readCommand stale (line.render ++ rest) = .ok (line.command, rest) := by
  cases line with
  | Write pairs stop =>
      have hline := readCommand_write stale pairs.prop.1 pairs.prop.2 stop.prop rest
      simpa only [JobLine.render, JobLine.command, List.append_assoc, List.cons_append,
        List.nil_append] using hline
  | Read keys stop =>
      have hline := readCommand_read stale keys.prop.1 keys.prop.2 stop.prop rest
      simpa only [JobLine.render, JobLine.command, List.append_assoc, List.cons_append,
        List.nil_append] using hline
  | Delete keys stop =>
      have hline := readCommand_delete stale keys.prop.1 keys.prop.2 stop.prop rest
      simpa only [JobLine.render, JobLine.command, List.append_assoc, List.cons_append,
        List.nil_append] using hline
  | Wait number stop =>
      have hnext : getNext ((JobLine.Wait number stop).render ++ rest)
          = (.CmdWait, number.val ++ stop.val :: rest) := by
        simp only [JobLine.render, List.append_assoc, List.cons_append, List.nil_append]
        rfl
      have hdigit : isDigit stop.val = false := by
        rcases stop.prop with hstop | hstop <;> rw [hstop] <;> decide
      have hspace : stop.val ≠ char ' ' := by
        intro hstop
        exact absurd stop.prop (by rw [hstop]; decide)
      have hparse := parseWait_number stale stale number hdigit rest
      rw [if_neg hspace, if_pos stop.prop] at hparse
      simp only [readCommand, hnext, hparse, ok_bind]
      rfl
  | WaitAnd number ignored =>
      have hnext : getNext ((JobLine.WaitAnd number ignored).render ++ rest)
          = (.CmdWait, number.val ++ char ' ' :: (ignored.val ++ char '\n' :: rest)) := by
        simp only [JobLine.render, List.append_assoc, List.cons_append, List.nil_append]
        rfl
      have hparse := parseWait_number stale stale number (show isDigit (char ' ') = false by decide)
        (ignored.val ++ char '\n' :: rest)
      rw [if_pos rfl, cleanup_line ignored.prop] at hparse
      simp only [readCommand, hnext, hparse, ok_bind]
      rfl
  | Comment bytes =>
      have hcleanup : cleanup (bytes.val ++ char '\n' :: rest) = rest := cleanup_line bytes.prop
      have hnext : getNext ((JobLine.Comment bytes).render ++ rest)
          = (.CmdEmpty, cleanup (bytes.val ++ char '\n' :: rest)) := by
        simp only [JobLine.render, List.append_assoc, List.cons_append, List.nil_append]
        rfl
      simp only [readCommand, hnext, hcleanup, pure_eq_ok]
      rfl
  | Show | Backup | Help | Empty => rfl

/-! ## Backwards -/

/-- What `parse_wait` accepts in a text with a newline further on. -/
lemma parseWait_eq_ok {stale stale' : List Byte} {input rest : Input} {status : ℤ}
    {delay thread : Option ℕ} (hnewline : char '\n' ∈ input) (hstatus : status ≠ -1)
    (h : parseWait stale stale' false input = .ok (status, delay, thread, rest)) :
    ∃ (number : Number) (stop : Byte) (behind : Input), delay = some (decimal number.val) ∧
      input = number.val ++ stop :: behind ∧
        ((stop = char ' ' ∧ rest = cleanup behind) ∨ (EndsLine stop ∧ rest = behind)) := by
  have hread := h
  simp only [parseWait, bind_eq_ok] at hread
  obtain ⟨⟨value, ch, behind⟩, hread, hresult⟩ := hread
  rcases readUint_eq_ok hread with ⟨hdigits, -, -⟩ | ⟨digits, hdigits, hch, rfl, rfl⟩
  · exact absurd (hdigits _ hnewline) (by decide)
  · have hlength : digits.length < uintBufferSize := by
      by_contra hlong
      rw [readUint_overflow hdigits (by simp) (not_lt.mp hlong)] at hread
      cases hread
    have hmax : decimal digits ≤ uintMax := by
      by_contra hlarge
      dsimp only at hresult
      rw [if_pos (asUint_eq_none_iff.mpr (not_le.mp hlarge))] at hresult
      obtain ⟨rfl, -⟩ : -1 = status ∧ _ := by simpa using hresult
      exact hstatus rfl
    let number : Number := ⟨digits, hdigits, hlength, hmax⟩
    have hparse := h.symm.trans (parseWait_number stale stale' number hch behind)
    refine ⟨number, ch, behind, ?_⟩
    split_ifs at hparse with hspace hends
    · obtain ⟨-, hdelay, -, hrest⟩ : status = 0 ∧ delay = some (decimal digits) ∧ thread = none ∧
        rest = cleanup behind := by simpa using hparse
      exact ⟨hdelay, rfl, Or.inl ⟨hspace, hrest⟩⟩
    · obtain ⟨-, hdelay, -, hrest⟩ : status = 0 ∧ delay = some (decimal digits) ∧ thread = none ∧
        rest = behind := by simpa using hparse
      exact ⟨hdelay, rfl, Or.inr ⟨hends, hrest⟩⟩
    · obtain ⟨hbad, -⟩ : status = -1 ∧ _ := by simpa using hparse
      exact absurd hbad hstatus

/-- The arguments of an accepted `WAIT` are one of its two lines. -/
lemma exists_waitLine {stale stale' : List Byte} {args rest : Input} {status : ℤ}
    {delay thread : Option ℕ} (hnewline : char '\n' ∈ args) (hstatus : status ≠ -1)
    (h : parseWait stale stale' false args = .ok (status, delay, thread, rest)) :
    ∃ line : JobLine, line.command = .Wait (delay.getD 0) ∧
      text "WAIT " ++ args = line.render ++ rest := by
  obtain ⟨number, stop, behind, rfl, rfl, ⟨rfl, rfl⟩ | ⟨hstop, rfl⟩⟩ :=
    parseWait_eq_ok hnewline hstatus h
  · rcases exists_line behind with hno | ⟨ignored, next, hignored, rfl⟩
    · rcases List.mem_append.mp hnewline with hdigit | hbehind
      · exact absurd (number.prop.1 _ hdigit) (by decide)
      · rcases List.mem_cons.mp hbehind with hspace | hbehind
        · exact absurd hspace (by decide)
        · exact absurd hbehind hno
    · refine ⟨.WaitAnd number ⟨ignored, hignored⟩, rfl, ?_⟩
      simp [JobLine.render, cleanup_line hignored]
  · refine ⟨.Wait number ⟨stop, hstop⟩, rfl, ?_⟩
    simp [JobLine.render]

/-- **What is executed was a line.**  A command that is accepted in a text with a newline further on is
one of the lines, with the rest of the text behind it. -/
lemma exists_jobLine {stale : List Byte} {input rest : Input} {command : JobCommand}
    (hnewline : char '\n' ∈ input) (hrejected : command ≠ .Rejected)
    (hEoc : command ≠ .Eoc) (h : readCommand stale input = .ok (command, rest)) :
    ∃ line : JobLine, command = line.command ∧ input = line.render ++ rest := by
  have hfinds := getNext_getsNext input
  rw [readCommand] at h
  generalize getNext input = parsed at h hfinds
  obtain ⟨found, args⟩ := parsed
  cases hfinds with
  | Eoc =>
      obtain ⟨rfl, -⟩ : JobCommand.Eoc = command ∧ [] = rest := by simpa using h
      exact absurd rfl hEoc
  | Write =>
      obtain ⟨⟨pairs, input₁⟩, hparse, h⟩ := by simpa only [bind_eq_ok] using h
      obtain ⟨hcommand, rfl⟩ : unlessEmpty .Write pairs = command ∧ input₁ = rest := by simpa using h
      obtain ⟨hpairs, rfl⟩ := unlessEmpty_eq hrejected hcommand
      obtain ⟨tokens, stop, rfl, hlength, hstop, rfl⟩ := (parseWrite_iff hpairs).mp hparse
      refine ⟨.Write ⟨tokens, by simpa using hpairs, hlength⟩ ⟨stop, hstop⟩, rfl, ?_⟩
      simp [JobLine.render, text]
  | Read =>
      obtain ⟨⟨keys, input₁⟩, hparse, h⟩ := by simpa only [bind_eq_ok] using h
      obtain ⟨hcommand, rfl⟩ : unlessEmpty .Read keys = command ∧ input₁ = rest := by simpa using h
      obtain ⟨hkeys, rfl⟩ := unlessEmpty_eq hrejected hcommand
      obtain ⟨tokens, stop, rfl, hlength, hstop, rfl⟩ := (parseReadDelete_iff hkeys).mp hparse
      refine ⟨.Read ⟨tokens, by simpa using hkeys, hlength⟩ ⟨stop, hstop⟩, rfl, ?_⟩
      simp [JobLine.render, text]
  | Delete =>
      obtain ⟨⟨keys, input₁⟩, hparse, h⟩ := by simpa only [bind_eq_ok] using h
      obtain ⟨hcommand, rfl⟩ : unlessEmpty .Delete keys = command ∧ input₁ = rest := by simpa using h
      obtain ⟨hkeys, rfl⟩ := unlessEmpty_eq hrejected hcommand
      obtain ⟨tokens, stop, rfl, hlength, hstop, rfl⟩ := (parseReadDelete_iff hkeys).mp hparse
      refine ⟨.Delete ⟨tokens, by simpa using hkeys, hlength⟩ ⟨stop, hstop⟩, rfl, ?_⟩
      simp [JobLine.render, text]
  | Wait =>
      obtain ⟨⟨status, delay, thread, input₁⟩, hparse, h⟩ := by simpa only [bind_eq_ok] using h
      obtain ⟨hcommand, rfl⟩ : (if status = -1 then .Rejected else .Wait (delay.getD 0)) = command ∧
        input₁ = rest := by simpa using h
      split_ifs at hcommand with hstatus
      · exact absurd hcommand.symm hrejected
      · have hargs : char '\n' ∈ args := by
          rcases List.mem_append.mp hnewline with hword | hargs
          · exact absurd hword (by decide)
          · exact hargs
        obtain ⟨line, hline, hrender⟩ := exists_waitLine hargs hstatus hparse
        exact ⟨line, by rw [hline, hcommand], hrender⟩
  | Bare hmem =>
      simp only [bareCommands, List.mem_cons, Prod.mk.injEq, List.not_mem_nil, or_false] at hmem
      rcases hmem with ⟨rfl, rfl⟩ | ⟨rfl, rfl⟩ | ⟨rfl, rfl⟩
      · obtain ⟨rfl, rfl⟩ : JobCommand.Show = command ∧ args = rest := by simpa using h
        exact ⟨.Show, rfl, rfl⟩
      · obtain ⟨rfl, rfl⟩ : JobCommand.Backup = command ∧ args = rest := by simpa using h
        exact ⟨.Backup, rfl, rfl⟩
      · obtain ⟨rfl, rfl⟩ : JobCommand.Help = command ∧ args = rest := by simpa using h
        exact ⟨.Help, rfl, rfl⟩
  | BareEnd hmem =>
      simp only [bareCommands, List.mem_cons, Prod.mk.injEq, List.not_mem_nil, or_false] at hmem
      rcases hmem with ⟨rfl, -⟩ | ⟨rfl, -⟩ | ⟨rfl, -⟩ <;> exact absurd hnewline (by decide)
  | Comment body =>
      obtain ⟨rfl, rfl⟩ : JobCommand.Empty = command ∧ cleanup body = rest := by simpa using h
      rcases exists_line body with hno | ⟨line, next, hline, rfl⟩
      · rcases List.mem_cons.mp hnewline with hhash | hbody
        · exact absurd hhash (by decide)
        · exact absurd hbody hno
      · rw [cleanup_line hline]
        exact ⟨.Comment ⟨line, hline⟩, rfl, by simp [JobLine.render]⟩
  | Newline =>
      obtain ⟨rfl, rfl⟩ : JobCommand.Empty = command ∧ args = rest := by simpa using h
      exact ⟨.Empty, rfl, rfl⟩
  | Invalid =>
      obtain ⟨rfl, -⟩ : JobCommand.Rejected = command ∧ args = rest := by simpa using h
      exact absurd rfl hrejected

/-! ## Whole files -/

/-- The last byte, if there is one, is a newline. -/
def EndsWithNewline (input : Input) : Prop := ∀ c ∈ input.getLast?, c = char '\n'

lemma EndsWithNewline.mem {input : Input} (h : EndsWithNewline input) (hne : input ≠ []) :
    char '\n' ∈ input := by
  have hlast := List.getLast?_eq_some_getLast hne
  rw [← h _ hlast]
  exact List.getLast_mem hne

/-- What is left of such a text is one too. -/
lemma EndsWithNewline.suffix {input rest : Input} (h : EndsWithNewline input)
    (hsuffix : rest <:+ input) : EndsWithNewline rest := by
  obtain ⟨taken, rfl⟩ := hsuffix
  cases hrest : rest.getLast? with
  | none =>
      intro c hc
      rw [hrest] at hc
      cases hc
  | some c =>
      have hlast : (taken ++ rest).getLast? = some c := by
        rw [List.getLast?_append, hrest]
        rfl
      intro d hd
      rw [hrest] at hd
      exact h d (hlast.trans hd)

lemma readCommand_suffix {stale : List Byte} {input rest : Input} {command : JobCommand}
    (h : readCommand stale input = .ok (command, rest)) : rest <:+ input := by
  cases input with
  | nil =>
      obtain ⟨-, rfl⟩ : JobCommand.Eoc = command ∧ [] = rest := by
        simpa [readCommand, getNext] using h
      exact List.suffix_refl _
  | cons ch input =>
      have hargs := (getNext_suffix ch input).trans (List.suffix_cons ch input)
      rcases readCommand_stops h with hstops | ⟨-, rfl⟩
      · exact hstops.1.trans hargs
      · exact hargs

/-- Only the end of the file is read as such. -/
lemma eq_nil_of_readCommand {stale : List Byte} {input rest : Input}
    (h : readCommand stale input = .ok (.Eoc, rest)) : input = [] := by
  have hunless : ∀ {α : Type} {command : List α → JobCommand} {items : List α},
      (∀ items, command items ≠ .Eoc) → unlessEmpty command items ≠ .Eoc := by
    intro α command items hcommand
    cases items with
    | nil => simp [unlessEmpty]
    | cons item items => exact hcommand _
  have hfinds := getNext_getsNext input
  rw [readCommand] at h
  generalize getNext input = parsed at h hfinds
  obtain ⟨found, args⟩ := parsed
  cases hfinds with
  | Eoc => rfl
  | Write =>
      obtain ⟨⟨pairs, input₁⟩, -, h⟩ := by simpa only [bind_eq_ok] using h
      obtain ⟨hcommand, -⟩ : unlessEmpty .Write pairs = .Eoc ∧ input₁ = rest := by simpa using h
      exact absurd hcommand (hunless (by simp))
  | Read =>
      obtain ⟨⟨keys, input₁⟩, -, h⟩ := by simpa only [bind_eq_ok] using h
      obtain ⟨hcommand, -⟩ : unlessEmpty .Read keys = .Eoc ∧ input₁ = rest := by simpa using h
      exact absurd hcommand (hunless (by simp))
  | Delete =>
      obtain ⟨⟨keys, input₁⟩, -, h⟩ := by simpa only [bind_eq_ok] using h
      obtain ⟨hcommand, -⟩ : unlessEmpty .Delete keys = .Eoc ∧ input₁ = rest := by simpa using h
      exact absurd hcommand (hunless (by simp))
  | Wait =>
      obtain ⟨⟨status, delay, thread, input₁⟩, -, h⟩ := by simpa only [bind_eq_ok] using h
      obtain ⟨hcommand, -⟩ : (if status = -1 then .Rejected else .Wait (delay.getD 0))
          = JobCommand.Eoc ∧ input₁ = rest := by simpa using h
      split_ifs at hcommand
  | Bare hmem =>
      simp only [bareCommands, List.mem_cons, Prod.mk.injEq, List.not_mem_nil, or_false] at hmem
      rcases hmem with ⟨-, rfl⟩ | ⟨-, rfl⟩ | ⟨-, rfl⟩ <;> simp at h
  | BareEnd hmem =>
      simp only [bareCommands, List.mem_cons, Prod.mk.injEq, List.not_mem_nil, or_false] at hmem
      rcases hmem with ⟨-, rfl⟩ | ⟨-, rfl⟩ | ⟨-, rfl⟩ <;> simp at h
  | Comment => simp at h
  | Newline => simp at h
  | Invalid => simp at h

namespace Job

variable {env : JobEnvironment} {job job' : Job}

/-- What goes on in the switch is not read, and does not end the loop. -/
lemma execute_goes_on {command : JobCommand} {status : Option ℤ} (hEoc : command ≠ .Eoc)
    (h : job.execute env command = .ok (status, job')) :
    status = none ∧ job'.input = job.input ∧ job'.commands = job.commands := by
  cases command with
  | Write pairs =>
      obtain ⟨⟨ht, sent⟩, -, h⟩ := by simpa only [execute, bind_eq_ok] using h
      obtain ⟨rfl, rfl⟩ : none = status ∧ _ = job' := by simpa using h
      exact ⟨rfl, rfl, rfl⟩
  | Read keys =>
      obtain ⟨out, -, h⟩ := by simpa only [execute, bind_eq_ok] using h
      obtain ⟨rfl, rfl⟩ : none = status ∧ _ = job' := by simpa using h
      exact ⟨rfl, rfl, rfl⟩
  | Delete keys =>
      obtain ⟨⟨ht, out, sent⟩, -, h⟩ := by simpa only [execute, bind_eq_ok] using h
      obtain ⟨rfl, rfl⟩ : none = status ∧ _ = job' := by simpa using h
      exact ⟨rfl, rfl, rfl⟩
  | Backup =>
      let counted : Job := { job with
        activeBackups :=
          if job.activeBackups ≥ env.maxBackups then job.activeBackups else job.activeBackups + 1
        fileBackups := job.fileBackups + 1 }
      obtain ⟨-, -, hinput, hcommands, -⟩ := kvsBackup_frame env counted
      obtain ⟨hstatus, rfl⟩ : (if (counted.kvsBackup env).1 = 1 then some 1 else none) = status ∧
          (counted.kvsBackup env).2 = job' := by
        simpa only [execute, pure_eq_ok, Except.ok.injEq, Prod.mk.injEq] using h
      rw [if_neg (kvsBackup_status env counted)] at hstatus
      exact ⟨hstatus.symm, hinput, hcommands⟩
  | Show | Wait | Help | Empty | Rejected =>
      obtain ⟨rfl, rfl⟩ : none = status ∧ _ = job' := by simpa [execute] using h
      exact ⟨rfl, rfl, rfl⟩
  | Eoc => exact absurd rfl hEoc

/-- **The loop, on a text that ends in a newline**, by induction on the iterations: the commands it
enters, which lines they come from if none was rejected, and that any lines give these commands. -/
lemma runLoop_language {fuel : ℕ} {status : ℤ} (hinput : EndsWithNewline job.input)
    (h : runLoop env fuel job = .ok (status, job')) : ∃ executed,
      job'.commands = job.commands ++ executed ∧
      (.Rejected ∉ executed → ∃ lines : List JobLine, job.input = lines.flatMap JobLine.render) ∧
      ∀ lines : List JobLine, job.input = lines.flatMap JobLine.render →
        executed = lines.map JobLine.command ++ [.Eoc] := by
  induction fuel generalizing job with
  | zero => cases h
  | succ fuel ih =>
      obtain ⟨⟨command, job₁⟩, hnext, h⟩ := bind_eq_ok.mp h
      obtain ⟨⟨status', job₂⟩, hexec, h⟩ := bind_eq_ok.mp h
      have hread := next_eq_ok hnext
      have hcommands : job₁.commands = job.commands ++ [command] := by
        obtain ⟨⟨command', input⟩, -, hresult⟩ := by simpa only [next, bind_eq_ok] using hnext
        obtain ⟨rfl, rfl⟩ : command' = command ∧ _ = job₁ := by simpa using hresult
        rfl
      by_cases hEoc : command = .Eoc
      · subst hEoc
        have hnil := eq_nil_of_readCommand hread
        obtain ⟨rfl, rfl⟩ : some 0 = status' ∧ job₁ = job₂ := by simpa [execute] using hexec
        obtain ⟨-, rfl⟩ : 0 = status ∧ job₁ = job' := by simpa using h
        refine ⟨[.Eoc], hcommands, fun _ => ⟨[], hnil⟩, fun lines hlines => ?_⟩
        cases lines with
        | nil => rfl
        | cons line lines =>
            rw [hnil, List.flatMap_cons] at hlines
            exact absurd (List.append_eq_nil_iff.mp hlines.symm).1 line.render_ne_nil
      · obtain ⟨rfl, hinput₂, hcommands₂⟩ := execute_goes_on hEoc hexec
        have hloop : runLoop env fuel job₂ = .ok (status, job') := h
        have hends : EndsWithNewline job₂.input := by
          rw [hinput₂]
          exact hinput.suffix (readCommand_suffix hread)
        obtain ⟨executed, hexecuted, hlines, hunique⟩ := ih hends hloop
        rw [hinput₂] at hlines hunique
        refine ⟨command :: executed, ?_, fun hrejected => ?_, fun lines hrender => ?_⟩
        · rw [hexecuted, hcommands₂, hcommands, List.append_assoc]
          rfl
        · obtain ⟨hne, hrest⟩ := by simpa using hrejected
          have hnil : job.input ≠ [] := by
            intro hnil
            rw [hnil] at hread
            exact hEoc (by simpa [readCommand, getNext, eq_comm] using hread : command = .Eoc ∧ _).1
          obtain ⟨line, -, hline⟩ := exists_jobLine (hinput.mem hnil) (Ne.symm hne) hEoc hread
          obtain ⟨lines, hlines⟩ := hlines hrest
          exact ⟨line :: lines, by rw [hline, hlines, List.flatMap_cons]⟩
        · cases lines with
          | nil =>
              rw [List.flatMap_nil] at hrender
              rw [hrender] at hread
              exact absurd (by simpa [readCommand, getNext, eq_comm] using hread :
                command = .Eoc ∧ _).1 hEoc
          | cons line lines =>
              rw [List.flatMap_cons] at hrender
              rw [hrender, readCommand_jobLine] at hread
              obtain ⟨rfl, hrest⟩ := Prod.mk.inj (Except.ok.inj hread)
              rw [hunique lines hrest.symm, List.map_cons, List.cons_append]

end Job

/-- **The language of the job files.**  On a file whose last byte is a newline, a `run_job` that comes to
its end has rejected nothing if and only if the file is lines, one behind the other; and then it has
executed the commands of these lines in their order, whichever way the file is taken apart. -/
theorem job_language_iff {env : JobEnvironment} {input : Input} (hinput : EndsWithNewline input)
    {ht : HashTable} {filename : CString} {activeBackups : ℕ} {status : ℤ} {job : Job}
    (h : (Job.start input ht filename activeBackups).runJob env = .ok (status, job)) :
    (.Rejected ∉ job.commands ↔ ∃ lines : List JobLine, input = lines.flatMap JobLine.render) ∧
      ∀ lines : List JobLine, input = lines.flatMap JobLine.render →
        job.commands = lines.map JobLine.command ++ [.Eoc] := by
  have hstart : EndsWithNewline (Job.start input ht filename activeBackups).input := hinput
  obtain ⟨executed, hexecuted, hlines, hunique⟩ := Job.runLoop_language hstart h
  obtain rfl : job.commands = executed := hexecuted
  refine ⟨⟨hlines, ?_⟩, hunique⟩
  rintro ⟨lines, hrender⟩
  rw [hunique lines hrender]
  simp only [List.mem_append, List.mem_map, List.mem_singleton, not_or, not_exists, not_and]
  exact ⟨fun line _ => line.command_ne.1, by simp⟩

/-- The second line of this file is none. -/
theorem job_language_iff_shows :
    ¬ ∃ lines : List JobLine, text "SHOW\nSHOWS\n" = lines.flatMap JobLine.render := by
  obtain ⟨status, job, hrun, hcommands⟩ : ∃ status job,
      (Job.start (text "SHOW\nSHOWS\n") .createHashTable (.lit "a.job") 0).runJob calmEnvironment
          = .ok (status, job) ∧ job.commands = [.Show, .Rejected, .Eoc] := ⟨_, _, rfl, rfl⟩
  have hinput : EndsWithNewline (text "SHOW\nSHOWS\n") := by
    intro c hc
    obtain rfl : char '\n' = c := by simpa [text] using hc
    rfl
  rw [← (job_language_iff hinput hrun).1, hcommands]
  simp

end Kvs
