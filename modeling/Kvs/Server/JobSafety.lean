import Kvs.Server.JobLanguage
import Kvs.Server.JobPhase
import Kvs.Server.KeyRange
import Kvs.Server.Session
import Kvs.Server.Stores

/-!
# Exactly when a job is safe

`run_job` can go wrong in the parser, which stores tokens and numbers without looking at the room for
them (`Stores.lean`), and in the store, which takes -1 for an index (`KeyRange.lean`).  This module puts
the two together over whole runs and shows that there is nothing else: the formatting buffers are large
enough, the chains are in order, no list of subscribers is followed, and the loop ends.

* `readCommand_ok_iff` — one command is read without a fault exactly if its arguments fit.
* `Job.execute_ok`, `Job.startsAlnum_of_execute` — it is executed without a fault exactly if its keys
  start with a letter or a digit.
* `Job.step_safe` — so one pass over a safe file has no fault and leaves a safe file.
* `job_safe_iff` — a job has no fault if and only if its file is safe at every place the parser gets to.
* `job_phase_safe` — and no interleaving of job threads on safe files has one: the table stays in order
  for each of them, and the threads all come to their end.

As in `JobLanguage.lean` the last byte of a file is a newline: behind the last digit of a file `strtoul`
reads a buffer that was never written.
-/

namespace Kvs

/-! ## Reading one command -/

/-- What stands behind a keyword fits into the buffers of its parser. -/
structure ArgumentsFit (input : Input) : Prop where
  write : ∀ rest, input = text "WRITE " ++ rest → WriteFits maxWriteSize rest
  keys : ∀ word ∈ [text "READ ", text "DELETE "], ∀ rest, input = word ++ rest →
    KeysFit maxWriteSize rest
  wait : ∀ rest, input = text "WAIT " ++ rest → NumberFits rest

lemma parseWrite_fits_iff (maxPairs : ℕ) (input : Input) :
    (∃ r, parseWrite maxPairs input = .ok r) ↔ WriteFits maxPairs input := by
  rw [parseWrite_ok_iff, writeCalls_fit_iff]

lemma parseReadDelete_fits_iff (maxKeys : ℕ) (input : Input) :
    (∃ r, parseReadDelete maxKeys input = .ok r) ↔ KeysFit maxKeys input := by
  rw [parseReadDelete_ok_iff, keysCalls_fit_iff]

/-- `parse_wait` of a server that has no thread to wait for, with a newline further on. -/
lemma parseWait_fits_iff (stale stale' : List Byte) {input : Input} (hnewline : char '\n' ∈ input) :
    (∃ r, parseWait stale stale' false input = .ok r) ↔ NumberFits input := by
  constructor
  · rintro ⟨r, hparse⟩
    obtain ⟨number, hread, -⟩ := bind_eq_ok.mp hparse
    exact readUint_ok_fits hread
  · intro hfits
    rcases exists_digits input with hdigits | ⟨digits, c, next, hdigits, hc, rfl⟩
    · exact absurd (hdigits _ hnewline) (by decide)
    · have htake : (digits ++ c :: next).takeWhile isDigit = digits := by
        rw [List.takeWhile_append_of_pos hdigits, List.takeWhile_cons_of_neg (by simp [hc]),
          List.append_nil]
      have hdrop : (digits ++ c :: next).dropWhile isDigit = c :: next := by
        rw [List.dropWhile_append_of_pos hdigits, List.dropWhile_cons_of_neg (by simp [hc])]
      have hlength : digits.length < uintBufferSize := by
        rcases hfits with hlt | ⟨-, hend⟩
        · rwa [htake] at hlt
        · rw [hdrop] at hend
          cases hend
      have hread : readUint stale (digits ++ c :: next) = .ok (asUint (decimal digits), c, next) :=
        readUint_number hdigits hc hlength
      simp only [parseWait, hread, ok_bind, pure_eq_ok]
      split_ifs <;> exact ⟨_, rfl⟩

/-- What is done with a result does not fail. -/
lemma exists_bind_pure {α β : Type} {x : Except Fault α} {f : α → β} :
    (∃ r, (x >>= fun a => pure (f a)) = .ok r) ↔ ∃ a, x = .ok a := by
  cases x with
  | error e => simp
  | ok a => simp

lemma readCommand_write_ok_iff (stale : List Byte) (rest : Input) :
    (∃ r, readCommand stale (text "WRITE " ++ rest) = .ok r) ↔ WriteFits maxWriteSize rest := by
  have hnext : getNext (text "WRITE " ++ rest) = (.CmdWrite, rest) := (getNext_list_iff rfl).mpr rfl
  rw [readCommand, hnext, ← parseWrite_fits_iff]
  exact exists_bind_pure

lemma readCommand_keys_ok_iff (stale : List Byte) {word : List Byte}
    (hword : word ∈ [text "READ ", text "DELETE "]) (rest : Input) :
    (∃ r, readCommand stale (word ++ rest) = .ok r) ↔ KeysFit maxWriteSize rest := by
  rw [← parseReadDelete_fits_iff]
  simp only [List.mem_cons, List.not_mem_nil, or_false] at hword
  rcases hword with rfl | rfl
  · have hnext : getNext (text "READ " ++ rest) = (.CmdRead, rest) := (getNext_list_iff rfl).mpr rfl
    rw [readCommand, hnext]
    exact exists_bind_pure
  · have hnext : getNext (text "DELETE " ++ rest) = (.CmdDelete, rest) :=
      (getNext_list_iff rfl).mpr rfl
    rw [readCommand, hnext]
    exact exists_bind_pure

lemma readCommand_wait_ok_iff (stale : List Byte) {rest : Input} (hnewline : char '\n' ∈ rest) :
    (∃ r, readCommand stale (text "WAIT " ++ rest) = .ok r) ↔ NumberFits rest := by
  have hnext : getNext (text "WAIT " ++ rest) = (.CmdWait, rest) := rfl
  rw [readCommand, hnext, ← parseWait_fits_iff stale stale hnewline]
  exact exists_bind_pure

/-- The newline is behind the keyword. -/
lemma EndsWithNewline.wait {input : Input} (h : EndsWithNewline input) (rest : Input)
    (hinput : input = text "WAIT " ++ rest) : char '\n' ∈ rest := by
  have hne : input ≠ [] := by
    rw [hinput]
    simp [text]
  have hmem := h.mem hne
  rw [hinput] at hmem
  rcases List.mem_append.mp hmem with hword | hrest
  · exact absurd hword (by decide)
  · exact hrest

/-- **One command.** -/
lemma readCommand_ok_iff (stale : List Byte) {input : Input} (hinput : EndsWithNewline input) :
    (∃ r, readCommand stale input = .ok r) ↔ ArgumentsFit input := by
  constructor
  · intro hread
    refine ⟨?_, ?_, ?_⟩
    · rintro rest rfl
      exact (readCommand_write_ok_iff stale rest).mp hread
    · rintro word hword rest rfl
      exact (readCommand_keys_ok_iff stale hword rest).mp hread
    · intro rest hwait
      rw [hwait] at hread
      exact (readCommand_wait_ok_iff stale (hinput.wait rest hwait)).mp hread
  · intro hfits
    have hfinds := getNext_getsNext input
    generalize hnext : getNext input = parsed at hfinds
    obtain ⟨found, rest⟩ := parsed
    cases hfinds with
    | Write => exact (readCommand_write_ok_iff stale rest).mpr (hfits.write rest rfl)
    | Read => exact (readCommand_keys_ok_iff stale (by simp) rest).mpr (hfits.keys _ (by simp) rest rfl)
    | Delete =>
        exact (readCommand_keys_ok_iff stale (by simp) rest).mpr (hfits.keys _ (by simp) rest rfl)
    | Wait => exact (readCommand_wait_ok_iff stale (hinput.wait rest rfl)).mpr (hfits.wait rest rfl)
    | Bare hmem | BareEnd hmem =>
        simp only [bareCommands, List.mem_cons, Prod.mk.injEq, List.not_mem_nil, or_false] at hmem
        rw [readCommand, hnext]
        rcases hmem with ⟨rfl, rfl⟩ | ⟨rfl, rfl⟩ | ⟨rfl, rfl⟩ <;> exact ⟨_, rfl⟩
    | Eoc | Comment | Newline | Invalid =>
        rw [readCommand, hnext]
        exact ⟨_, rfl⟩

/-- With a newline further on, what is in the digit buffer does not matter. -/
lemma readUint_stale (stale stale' : List Byte) {input : Input} (hnewline : char '\n' ∈ input) :
    readUint stale input = readUint stale' input := by
  rcases exists_digits input with hdigits | ⟨digits, c, next, hdigits, hc, rfl⟩
  · exact absurd (hdigits _ hnewline) (by decide)
  · by_cases hlength : digits.length < uintBufferSize
    · rw [readUint_number hdigits hc hlength, readUint_number hdigits hc hlength]
    · rw [readUint_overflow hdigits (by simp) (not_lt.mp hlength),
        readUint_overflow hdigits (by simp) (not_lt.mp hlength)]

lemma readCommand_stale (stale stale' : List Byte) {input : Input} (hinput : EndsWithNewline input) :
    readCommand stale input = readCommand stale' input := by
  have hfinds := getNext_getsNext input
  simp only [readCommand]
  generalize getNext input = parsed at hfinds ⊢
  obtain ⟨found, rest⟩ := parsed
  cases hfinds with
  | Wait =>
      simp only [parseWait, readUint_stale stale stale' (hinput.wait rest rfl), if_true]
  | Bare hmem | BareEnd hmem =>
      simp only [bareCommands, List.mem_cons, Prod.mk.injEq, List.not_mem_nil, or_false] at hmem
      rcases hmem with ⟨rfl, rfl⟩ | ⟨rfl, rfl⟩ | ⟨rfl, rfl⟩ <;> rfl
  | Write | Read | Delete | Eoc | Comment | Newline | Invalid => rfl

/-! ## Executing one command -/

namespace Job

variable {env : JobEnvironment} {job job' : Job} {m : Contents}

lemma startsAlnum_of_readRecords {ht : HashTable} {keys : List Str} {out : List Byte}
    (h : ht.readRecords keys = .ok out) : ∀ key ∈ keys, key.val.StartsAlnum := by
  induction keys generalizing out with
  | nil => simp
  | cons key keys ih =>
      obtain ⟨result, hread, h⟩ := bind_eq_ok.mp h
      obtain ⟨rest, hrest, -⟩ := bind_eq_ok.mp h
      obtain ⟨index, hindex, -⟩ := bind_eq_ok.mp hread
      intro k hk
      rcases List.mem_cons.mp hk with rfl | hk
      · exact startsAlnum_of_tableIndex hindex
      · exact ih hrest k hk

lemma startsAlnum_of_kvsWrite {mem : ℕ → Ptr} {ht : HashTable} {pairs : List (Str × Str)}
    {result : HashTable × List Notification} (h : ht.kvsWrite mem pairs = .ok result) :
    ∀ p ∈ pairs, p.1.val.StartsAlnum := by
  induction pairs generalizing ht result with
  | nil => simp
  | cons pair pairs ih =>
      obtain ⟨key, value⟩ := pair
      obtain ⟨⟨ht₁, sent⟩, hwrite, h⟩ := bind_eq_ok.mp h
      obtain ⟨⟨ht₂, sent'⟩, hrest, -⟩ := bind_eq_ok.mp h
      obtain ⟨index, hindex, -⟩ := bind_eq_ok.mp hwrite
      intro p hp
      rcases List.mem_cons.mp hp with rfl | hp
      · exact startsAlnum_of_tableIndex hindex
      · exact ih hrest p hp

lemma startsAlnum_of_deleteRecords {ht : HashTable} {keys : List Str} {aux : Bool}
    {result : HashTable × Bool × List Byte × List Notification}
    (h : ht.deleteRecords aux keys = .ok result) : ∀ key ∈ keys, key.val.StartsAlnum := by
  induction keys generalizing ht aux result with
  | nil => simp
  | cons key keys ih =>
      obtain ⟨⟨status, ht₁, sent⟩, hdelete, h⟩ := bind_eq_ok.mp h
      obtain ⟨⟨ht₂, aux', out, sent'⟩, hrest, -⟩ := bind_eq_ok.mp h
      obtain ⟨index, hindex, -⟩ := bind_eq_ok.mp hdelete
      intro k hk
      rcases List.mem_cons.mp hk with rfl | hk
      · exact startsAlnum_of_tableIndex hindex
      · exact ih hrest k hk

/-- What is executed without a fault has keys with an index. -/
lemma startsAlnum_of_execute {command : JobCommand} {status : Option ℤ}
    (h : job.execute env command = .ok (status, job')) : ∀ key ∈ command.keys, key.val.StartsAlnum := by
  cases command with
  | Write pairs =>
      obtain ⟨result, hwrite, -⟩ := bind_eq_ok.mp h
      intro key hkey
      obtain ⟨p, hp, rfl⟩ := List.mem_map.mp hkey
      exact startsAlnum_of_kvsWrite hwrite p hp
  | Read keys =>
      obtain ⟨out, hread, -⟩ := bind_eq_ok.mp h
      obtain ⟨records, hrecords, -⟩ := bind_eq_ok.mp hread
      exact startsAlnum_of_readRecords hrecords
  | Delete keys =>
      obtain ⟨result, hdelete, -⟩ := bind_eq_ok.mp h
      obtain ⟨records, hrecords, -⟩ := bind_eq_ok.mp hdelete
      exact startsAlnum_of_deleteRecords hrecords
  | Show | Wait | Backup | Help | Empty | Rejected | Eoc => simp [JobCommand.keys]

/-- Such a command is executed, and the table holds a map as before. -/
lemma execute_ok (hmem : ZeroFilled env.mem) (h : job.ht.Holds m) {command : JobCommand}
    (hkeys : ∀ key ∈ command.keys, key.val.StartsAlnum) : ∃ status job',
      job.execute env command = .ok (status, job') ∧ ∃ m', job'.ht.Holds m' := by
  cases command with
  | Write pairs =>
      obtain ⟨ht', hwrite, h'⟩ := h.kvsWrite hmem fun p hp => hkeys p.1 (List.mem_map_of_mem hp)
      exact ⟨none, { job with ht := ht', sent := job.sent ++ [] },
        by simp only [execute, hwrite, ok_bind, pure_eq_ok], _, h'⟩
  | Read keys =>
      have hread : job.ht.kvsRead keys = .ok (m.readOutput keys) := h.kvsRead hkeys
      exact ⟨none, { job with out := job.out ++ m.readOutput keys },
        by simp only [execute, hread, ok_bind, pure_eq_ok], m, h⟩
  | Delete keys =>
      obtain ⟨ht', hdelete, h'⟩ : ∃ ht', job.ht.kvsDelete keys = .ok (ht', m.deleteOutput keys, []) ∧
        ht'.Holds (m.deleteAll keys) := h.kvsDelete hkeys
      set deleted : Job := { job with
        ht := ht'
        out := job.out ++ m.deleteOutput keys
        sent := job.sent ++ [] } with hdeleted
      exact ⟨none, deleted, by simp only [execute, hdelete, ok_bind, pure_eq_ok, hdeleted], _, h'⟩
  | Backup =>
      set counted : Job := { job with
        activeBackups :=
          if job.activeBackups ≥ env.maxBackups then job.activeBackups else job.activeBackups + 1
        fileBackups := job.fileBackups + 1 } with hcounted
      obtain ⟨hht, -⟩ := kvsBackup_frame env counted
      refine ⟨_, (counted.kvsBackup env).2, rfl, m, ?_⟩
      rw [hht]
      exact h
  | Show | Wait | Help | Empty | Rejected | Eoc => exact ⟨_, _, rfl, m, h⟩

end Job

/-! ## Safe files -/

/-- What is in front of the parser after some commands. -/
inductive ParsesTo : Input → Input → Prop
  | here (input : Input) : ParsesTo input input
  | later {stale : List Byte} {input rest behind : Input} {command : JobCommand} :
      readCommand stale input = .ok (command, rest) → command ≠ .Eoc → ParsesTo rest behind →
      ParsesTo input behind

/-- The arguments fit, and the keys have an index. -/
structure SafeAt (input : Input) : Prop where
  fits : ArgumentsFit input
  keys : ListKeysAlnum input

/-- Every place the parser gets to is safe. -/
def SafeJob (input : Input) : Prop := ∀ behind, ParsesTo input behind → SafeAt behind

/-- Whether the keys have an index can be seen at the command that was read. -/
lemma listKeysAlnum_iff {stale : List Byte} {input rest : Input} {command : JobCommand}
    (hread : readCommand stale input = .ok (command, rest)) :
    ListKeysAlnum input ↔ ∀ key ∈ command.keys, key.val.StartsAlnum := by
  rw [← keysInTable_iff stale]
  constructor
  · intro h key hkey
    exact inTable_iff.mp (h command rest hread key hkey).2
  · intro h command' rest' hread' key hkey
    obtain ⟨rfl, rfl⟩ := Prod.mk.inj (Except.ok.inj (hread.symm.trans hread'))
    exact ⟨key.prop, inTable_iff.mpr (h key hkey)⟩

/-- A file is safe exactly if its first command and the rest behind it are. -/
lemma safeJob_iff {stale : List Byte} {input rest : Input} {command : JobCommand}
    (hinput : EndsWithNewline input) (hread : readCommand stale input = .ok (command, rest)) :
    SafeJob input ↔ (∀ key ∈ command.keys, key.val.StartsAlnum) ∧ (command ≠ .Eoc → SafeJob rest) := by
  rw [← listKeysAlnum_iff hread]
  constructor
  · intro h
    exact ⟨(h input (.here input)).keys,
      fun hEoc behind hbehind => h behind (.later hread hEoc hbehind)⟩
  · rintro ⟨hkeys, hlater⟩ behind hbehind
    cases hbehind with
    | here => exact ⟨(readCommand_ok_iff stale hinput).mp ⟨_, hread⟩, hkeys⟩
    | @later stale' _ _ _ _ hread' hEoc hrest =>
        rw [readCommand_stale stale' stale hinput] at hread'
        obtain ⟨rfl, rfl⟩ := Prod.mk.inj (Except.ok.inj (hread.symm.trans hread'))
        exact hlater hEoc behind hrest

/-! ## Runs -/

namespace Job

variable {env : JobEnvironment} {job job' : Job} {m : Contents}

/-- **One pass** over a safe file has no fault, and the rest of the file is safe if there is to be
another one. -/
lemma step_safe (hmem : ZeroFilled env.mem) (h : job.ht.Holds m) (hinput : EndsWithNewline job.input)
    (hsafe : SafeJob job.input) : ∃ command job₁ status job₂,
      job.next env = .ok (command, job₁) ∧ job₁.execute env command = .ok (status, job₂) ∧
      (∃ m', job₂.ht.Holds m') ∧ (status = none → EndsWithNewline job₂.input ∧ SafeJob job₂.input ∧
        job₂.input.length < job.input.length) := by
  obtain ⟨⟨command, rest⟩, hread⟩ :=
    (readCommand_ok_iff (env.stale job.commands.length) hinput).mpr (hsafe _ (.here _)).fits
  obtain ⟨hkeys, hlater⟩ := (safeJob_iff hinput hread).mp hsafe
  set job₁ : Job := { job with input := rest, commands := job.commands ++ [command] } with hjob₁
  have hnext : job.next env = .ok (command, job₁) := by
    simp only [next, hread, ok_bind, pure_eq_ok, hjob₁]
  have hholds : job₁.ht.Holds m := h
  obtain ⟨status, job₂, hexec, hholds'⟩ := execute_ok hmem hholds hkeys
  refine ⟨command, job₁, status, job₂, hnext, hexec, hholds', ?_⟩
  rintro rfl
  have hEoc : command ≠ .Eoc := by
    rintro rfl
    cases hexec
  obtain ⟨-, hinput₂, -⟩ := execute_goes_on hEoc hexec
  rw [show job₂.input = rest from hinput₂]
  refine ⟨hinput.suffix (readCommand_suffix hread), hlater hEoc, ?_⟩
  rcases readCommand_consumes hread with rfl | hlt
  · exact absurd rfl hEoc
  · exact hlt

/-- **The loop on a safe file**, by induction on its iterations. -/
lemma runLoop_of_safe (hmem : ZeroFilled env.mem) {fuel : ℕ} (h : job.ht.Holds m)
    (hinput : EndsWithNewline job.input) (hsafe : SafeJob job.input)
    (hfuel : job.input.length < fuel) : ∃ r, runLoop env fuel job = .ok r := by
  induction fuel generalizing job m with
  | zero => exact absurd hfuel (Nat.not_lt_zero _)
  | succ fuel ih =>
      obtain ⟨command, job₁, status, job₂, hnext, hexec, ⟨m', h'⟩, hgo⟩ := step_safe hmem h hinput hsafe
      rw [runLoop]
      simp only [hnext, hexec, ok_bind]
      cases status with
      | some status => exact ⟨_, rfl⟩
      | none =>
          obtain ⟨hinput', hsafe', hshorter⟩ := hgo rfl
          exact ih h' hinput' hsafe' (by omega)

/-- **A file on which the loop ends**, by induction in the same way: it is safe. -/
lemma safe_of_runLoop {fuel : ℕ} {r : ℤ × Job} (hinput : EndsWithNewline job.input)
    (hrun : runLoop env fuel job = .ok r) : SafeJob job.input := by
  induction fuel generalizing job with
  | zero => cases hrun
  | succ fuel ih =>
      obtain ⟨⟨command, job₁⟩, hnext, hrun⟩ := bind_eq_ok.mp hrun
      obtain ⟨⟨status, job₂⟩, hexec, hrun⟩ := bind_eq_ok.mp hrun
      have hread := next_eq_ok hnext
      refine (safeJob_iff hinput hread).mpr ⟨startsAlnum_of_execute hexec, fun hEoc => ?_⟩
      obtain ⟨rfl, hinput₂, -⟩ := execute_goes_on hEoc hexec
      rw [← hinput₂]
      refine ih ?_ hrun
      rw [hinput₂]
      exact hinput.suffix (readCommand_suffix hread)

end Job

/-- **When a job is safe.**  On a file whose last byte is a newline, and any table that holds a map:
`run_job` comes to its end without a fault if and only if, at every place its parser gets to, the tokens
and numbers that are read fit their buffers and the keys of a list start with a letter or a digit. -/
theorem job_safe_iff {env : JobEnvironment} (hmem : ZeroFilled env.mem) {input : Input}
    (hinput : EndsWithNewline input) {ht : HashTable} {m : Contents} (h : ht.Holds m)
    (filename : CString) (activeBackups : ℕ) :
    (∃ status job', (Job.start input ht filename activeBackups).runJob env = .ok (status, job')) ↔
      SafeJob input := by
  have hstart : (Job.start input ht filename activeBackups).ht.Holds m := h
  constructor
  · rintro ⟨status, job', hrun⟩
    exact Job.safe_of_runLoop hinput hrun
  · intro hsafe
    obtain ⟨⟨status, job'⟩, hrun⟩ := Job.runLoop_of_safe hmem hstart hinput hsafe (Nat.lt_succ_self _)
    exact ⟨status, job', hrun⟩

/-- The second line of this file is read, and its key is not in the table. -/
theorem job_safe_iff_dash : ¬ SafeJob (text "SHOW\nREAD [-]\n") := by
  have hmem : ZeroFilled calmEnvironment.mem := fun _ => rfl
  have hinput : EndsWithNewline (text "SHOW\nREAD [-]\n") := by
    intro c hc
    obtain rfl : char '\n' = c := by simpa [text] using hc
    rfl
  have hrun : (Job.start (text "SHOW\nREAD [-]\n") .createHashTable (.lit "a.job") 0).runJob
      calmEnvironment = .error .badIndex := rfl
  rw [← job_safe_iff hmem hinput HashTable.holds_createHashTable (.lit "a.job") 0, hrun]
  rintro ⟨status, job', hok⟩
  cases hok

/-! ## All the threads -/

section Threads

variable {ι : Type} [DecidableEq ι] {mem : ℕ → Ptr} {dir : CString}
  {files : List Byte → Option Input} {entries : List CString}
  {s s' : Pool ι CString (JobFile dir) Job JobStore}

/-- One pass of a thread, on whatever the others have left of the table. -/
lemma JobStore.pass_of_safe {env : JobEnvironment} (hmem : ZeroFilled env.mem) {store : JobStore}
    (h : ∃ m, store.ht.Holds m) (filename : CString) (file : JobFile dir) {job : Job}
    (hinput : EndsWithNewline job.input) (hsafe : SafeJob job.input) :
    ∃ status job', store.pass env filename file job = .ok (status, job', store.after file job') ∧
      (∃ m, job'.ht.Holds m) ∧ (status = none → EndsWithNewline job'.input ∧ SafeJob job'.input) := by
  obtain ⟨m, h⟩ := h
  have hcurrent : (store.current filename job).ht.Holds m := h
  obtain ⟨command, job₁, status, job₂, hnext, hexec, hholds, hgo⟩ :=
    Job.step_safe hmem hcurrent hinput hsafe
  refine ⟨status, job₂, ?_, hholds, fun hstatus => ⟨(hgo hstatus).1, (hgo hstatus).2.1⟩⟩
  simp only [pass, hnext, hexec, ok_bind, pure_eq_ok]

/-- The table holds a map, and what is left of every file at work is safe. -/
def Pool.SafeJobs (s : Pool ι CString (JobFile dir) Job JobStore) : Prop :=
  s.Keeps (fun store => ∃ m, store.ht.Holds m) fun job => EndsWithNewline job.input ∧ SafeJob job.input

/-- **Every step keeps it.** -/
lemma Pool.SafeJobs.step (hmem : ZeroFilled mem)
    (hfiles : ∀ (file : JobFile dir) (input : Input), files file.inPath.val.bytes = some input →
      EndsWithNewline input ∧ SafeJob input)
    (h : s.SafeJobs) (hstep : PoolStep (getFile mem dir files) s s') : s'.SafeJobs := by
  refine hstep.keeps ?_ ?_ h
  · rintro file store job store' hholds ⟨input, filename, hinput, hopen⟩
    obtain ⟨rfl, rfl⟩ := Prod.mk.inj hopen
    exact ⟨hholds, hfiles _ _ hinput⟩
  · rintro file store job store' next hholds hjob ⟨env, filename, status, job', rfl, hpass, hnext⟩
    obtain ⟨status₁, job₁, hpass₁, hholds₁, hgo⟩ :=
      JobStore.pass_of_safe hmem hholds filename file hjob.1 hjob.2
    obtain ⟨rfl, rfl, rfl⟩ : status₁ = status ∧ job₁ = job' ∧ store.after file job₁ = store' := by
      simpa using hpass₁.symm.trans hpass
    refine ⟨hholds₁, ?_⟩
    intro progress hprogress
    rcases hnext with ⟨rfl, rfl⟩ | ⟨-, rfl⟩
    · obtain rfl := Option.some.inj hprogress
      exact hgo rfl
    · cases hprogress

/-- **The job phase on safe files.**  For any number of threads on any directory whose files are safe,
in every state that any interleaving reaches: the table is in order, no thread at work has a command that
fails, and if nobody can take a step all the threads are gone. -/
theorem job_phase_safe (hmem : ZeroFilled mem) (hnodup : entries.Nodup)
    (hfiles : ∀ (file : JobFile dir) (input : Input), files file.inPath.val.bytes = some input →
      EndsWithNewline input ∧ SafeJob input)
    (h : Reachable (PoolStep (getFile mem dir files)) (Pool.initial entries .initial) s) :
    (∃ m, s.shared.ht.Holds m) ∧
      (∀ i file job, s.pc i = .Working file job → ∀ env filename, env.mem = mem →
        ∃ result, s.shared.pass env filename file job = .ok result) ∧
      ((∀ s', ¬ PoolStep (getFile mem dir files) s s') → ∀ i, (s.pc i).Gone) := by
  have hstart :
      (Pool.initial entries .initial : Pool ι CString (JobFile dir) Job JobStore).SafeJobs :=
    ⟨⟨[], HashTable.holds_createHashTable⟩, fun i file job hpc => by cases hpc⟩
  have hsafe : s.SafeJobs := h.invariant _ hstart fun _ _ hs hstep => hs.step hmem hfiles hstep
  have hpasses : ∀ i file job, s.pc i = .Working file job → ∀ env filename, env.mem = mem →
      ∃ result, s.shared.pass env filename file job = .ok result := by
    rintro i file job hpc env filename rfl
    obtain ⟨hinput, hjob⟩ := hsafe.2 i file job hpc
    obtain ⟨status, job', hpass, -⟩ := JobStore.pass_of_safe hmem hsafe.1 filename file hinput hjob
    exact ⟨_, hpass⟩
  refine ⟨hsafe.1, hpasses, fun hstuck i => ?_⟩
  by_contra hi
  have hinv := Pool.Inv.run (nodup_acceptEntry hnodup) h
  refine absurd (hinv.exists_step ?_ hi) fun ⟨s', hstep⟩ => hstuck s' hstep
  intro j file job hpc
  set env : JobEnvironment := ⟨mem, fun _ => [], fun _ => false, 0, dir⟩ with henv
  obtain ⟨result, hpass⟩ := hpasses j file job hpc env file.name rfl
  obtain ⟨next, hnext⟩ := getFile_works rfl hpass
  exact ⟨result.2.2, next, hnext⟩

/-- Two threads with a job each, which name keys.  With both at work each of them can execute its next
command, so they are not stuck; and when nobody can take a step they are gone, and the table is in
order. -/
theorem job_phase_safe_two :
    ∃ s₁ s₂ : Pool Bool CString (JobFile (.lit "jobs")) Job JobStore,
      (∃ job job', s₁.pc true = .Working soloFile job ∧ s₁.pc false = .Working otherFile job' ∧
        (∃ result, s₁.shared.pass calmEnvironment (.lit "a.job") soloFile job = .ok result) ∧
        ∃ result, s₁.shared.pass calmEnvironment (.lit "b.job") otherFile job' = .ok result) ∧
      (∃ s', PoolStep (getFile (fun _ => none) (.lit "jobs") twoFiles) s₁ s') ∧
      (∀ i, (s₂.pc i).Gone) ∧ ∃ m, s₂.shared.ht.Holds m := by
  have hmem : ZeroFilled fun _ => none := fun _ => rfl
  have hnodup : [CString.lit "a.job", CString.lit "b.job"].Nodup := by decide
  have hsafe : ∀ {lines : Input}, EndsWithNewline lines →
      (∃ r, Job.runLoop calmEnvironment 24 (.start lines .createHashTable (.lit "a.job") 0) = .ok r) →
      EndsWithNewline lines ∧ SafeJob lines := by
    rintro lines hlines ⟨r, hrun⟩
    exact ⟨hlines, Job.safe_of_runLoop hlines hrun⟩
  have hfiles : ∀ (file : JobFile (.lit "jobs")) (input : Input),
      twoFiles file.inPath.val.bytes = some input → EndsWithNewline input ∧ SafeJob input := by
    intro file input hinput
    rw [twoFiles] at hinput
    split_ifs at hinput
    · obtain rfl := Option.some.inj hinput
      refine hsafe ?_ ⟨_, rfl⟩
      rintro c hc
      obtain rfl : char '\n' = c := by simpa [text] using hc
      rfl
    · obtain rfl := Option.some.inj hinput
      refine hsafe ?_ ⟨_, rfl⟩
      rintro c hc
      obtain rfl : char '\n' = c := by simpa [text] using hc
      rfl
  obtain ⟨s₁, s₂, job, job', hreach, htrue, hfalse, hrun, hexited⟩ := two_jobs_run
  obtain ⟨-, hpasses, hgone⟩ := job_phase_safe hmem hnodup hfiles hreach
  obtain ⟨hholds, -, hgone₂⟩ := job_phase_safe hmem hnodup hfiles (hreach.trans hrun)
  refine ⟨s₁, s₂, ⟨job, job', htrue, hfalse, ?_, ?_⟩, ?_, hgone₂ ?_, hholds⟩
  · exact hpasses true soloFile job htrue calmEnvironment (.lit "a.job") rfl
  · exact hpasses false otherFile job' hfalse calmEnvironment (.lit "b.job") rfl
  · by_contra hstuck
    have hatwork := hgone (fun s' hstep => hstuck ⟨s', hstep⟩) true
    rw [htrue] at hatwork
    exact hatwork
  · intro s' hstep
    obtain ⟨i, hi⟩ := hstep.not_gone
    exact hi (by rw [hexited i]; trivial)

end Threads

end Kvs
