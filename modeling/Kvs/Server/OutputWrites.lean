import Kvs.Common.Transfers
import Kvs.Server.JobExecution

/-!
# Output under partial and failing writes

Everything a job and the child of a backup put into a file goes through `write_str` of `server/io.c`,
one string at a time.  `write_str` goes on behind what a `write` has taken, but gives the string up at
any negative result, an interruption included, where `write_all` would try again; and it returns
nothing, so whoever called it goes on with the next string.

The results of the writes are a list, as in `Transfers.lean`; a `write` takes no more than it is given.

* `writeStrs_delivers` — after any results the file has a beginning of each string, in their order, and
  as many strings are cut short as writes have failed.
* `Job.strings`, `Job.runStrings` — the strings of a command and of a whole `run_job`; put together
  they are its output (`Job.runLoop_strings`).
* `job_output_written`, `backup_written` — the two files.
-/

namespace Kvs

/-! ## `write_str` -/

/-- What calls of `write_str` have done: what the file has taken, whether all of them have returned,
and the results they have left. -/
structure Written where
  file : List Byte
  returned : Bool
  rest : List WriteResult

/-- `write_str`, given the results of its writes. -/
def writeStr : List WriteResult → List Byte → Written
  | [], str => ⟨[], str.isEmpty, []⟩
  | result :: results, str =>
      if str = [] then ⟨[], true, result :: results⟩
      else match result with
        | .Count n =>
            let w := writeStr results (str.drop n)
            { w with file := str.take n ++ w.file }
        -- `if (written < 0) break;` does not look at `errno`
        | .Interrupted => ⟨[], true, results⟩
        | .Error => ⟨[], true, results⟩

/-- Calls of `write_str`, one after the other. -/
def writeStrs : List WriteResult → List (List Byte) → Written
  | results, [] => ⟨[], true, results⟩
  | results, str :: strs =>
      let w := writeStr results str
      if w.returned then
        let w' := writeStrs w.rest strs
        { w' with file := w.file ++ w'.file }
      else w

/-- The results at which `write_str` gives up. -/
def WriteResult.fails : WriteResult → Bool
  | Count _ => false
  | Interrupted => true
  | Error => true

/-! ## Beginnings of strings -/

/-- How many of the strings lack their end. -/
def cutShort (pieces strs : List (List Byte)) : ℕ :=
  (pieces.zip strs).countP fun p => p.1 ≠ p.2

lemma cutShort_cons (piece str : List Byte) (pieces strs : List (List Byte)) :
    cutShort (piece :: pieces) (str :: strs)
      = (if piece = str then 0 else 1) + cutShort pieces strs := by
  by_cases h : piece = str
  · simp [cutShort, h]
  · simp [cutShort, h, Nat.add_comm]

lemma cutShort_singleton (piece str : List Byte) :
    cutShort [piece] [str] = if piece = str then 0 else 1 := cutShort_cons piece str [] []

/-- Beginnings of strings are no longer than the strings. -/
lemma length_flatten_le {pieces strs : List (List Byte)} (h : List.Forall₂ (· <+: ·) pieces strs) :
    pieces.flatten.length ≤ strs.flatten.length := by
  induction h with
  | nil => exact le_rfl
  | cons hpiece hpieces ih =>
      simp only [List.flatten_cons, List.length_append]
      exact Nat.add_le_add hpiece.length_le ih

/-- Nothing is missing from the whole exactly if no string is cut short. -/
lemma flatten_eq_iff {pieces strs : List (List Byte)} (h : List.Forall₂ (· <+: ·) pieces strs) :
    pieces.flatten = strs.flatten ↔ cutShort pieces strs = 0 := by
  induction h with
  | nil => simp [cutShort]
  | @cons piece str pieces strs hpiece hpieces ih =>
      rw [cutShort_cons, List.flatten_cons, List.flatten_cons]
      by_cases hwhole : piece = str
      · rw [hwhole, if_pos rfl, Nat.zero_add, List.append_right_inj, ih]
      · rw [if_neg hwhole]
        refine iff_of_false (fun heq => hwhole ?_) (by omega)
        have hlength := congrArg List.length heq
        rw [List.length_append, List.length_append] at hlength
        have hle := length_flatten_le hpieces
        exact hpiece.eq_of_length_le (by omega)

/-- Strings that are not begun. -/
lemma forall₂_replicate_nil (strs : List (List Byte)) :
    List.Forall₂ (· <+: ·) (List.replicate strs.length []) strs := by
  induction strs with
  | nil => exact .nil
  | cons str strs ih => exact .cons List.nil_prefix ih

/-! ## What the calls have done -/

/-- What a sequence of calls has done, having taken some results of writes: a beginning of each string
is in the file.  If the calls have returned, as many strings are cut short as writes have failed.
If not, every result has been taken and there is something left to write. -/
structure Delivers (strs : List (List Byte)) (results consumed : List WriteResult)
    (pieces : List (List Byte)) (w : Written) : Prop where
  taken : results = consumed ++ w.rest
  begun : List.Forall₂ (· <+: ·) pieces strs
  file : w.file = pieces.flatten
  cut : w.returned = true → cutShort pieces strs = consumed.countP WriteResult.fails
  waiting : w.returned = false → w.rest = [] ∧ cutShort pieces strs ≠ 0

namespace Delivers

variable {str piece : List Byte} {strs pieces : List (List Byte)}
variable {results consumed consumed' : List WriteResult} {w w' : Written}

/-- A `write` takes the beginning of a string, and the call goes on behind it. -/
lemma count {n : ℕ} (h : Delivers [str.drop n] results consumed [piece] w) :
    Delivers [str] (.Count n :: results) (.Count n :: consumed) [str.take n ++ piece]
      { w with file := str.take n ++ w.file } := by
  have hcut : cutShort [str.take n ++ piece] [str] = cutShort [piece] [str.drop n] := by
    have hsplit : str.take n ++ piece = str ↔ piece = str.drop n := by
      conv_lhs => rhs; rw [← List.take_append_drop n str]
      exact List.append_right_inj _
    simp only [cutShort_singleton, hsplit]
  have hprefix : piece <+: str.drop n := by simpa using h.begun
  refine ⟨?_, ?_, ?_, ?_, ?_⟩
  · rw [List.cons_append, ← h.taken]
  · refine .cons ?_ .nil
    conv_rhs => rw [← List.take_append_drop n str]
    exact (List.prefix_append_right_inj _).mpr hprefix
  · simp [h.file]
  · intro hreturned
    rw [hcut, h.cut hreturned]
    rfl
  · intro hwaiting
    rw [hcut]
    exact h.waiting hwaiting

/-- A call has returned, and the others go on with what it has left. -/
lemma cons (h : Delivers [str] results consumed [piece] w) (hreturned : w.returned = true)
    (h' : Delivers strs w.rest consumed' pieces w') :
    Delivers (str :: strs) results (consumed ++ consumed') (piece :: pieces)
      { w' with file := w.file ++ w'.file } := by
  have hprefix : piece <+: str := by simpa using h.begun
  refine ⟨?_, .cons hprefix h'.begun, ?_, ?_, ?_⟩
  · rw [List.append_assoc, ← h'.taken, ← h.taken]
  · simp [h.file, h'.file]
  · intro hall
    rw [cutShort_cons, ← cutShort_singleton, h.cut hreturned, h'.cut hall, List.countP_append]
  · intro hwaiting
    obtain ⟨hnone, hmissing⟩ := h'.waiting hwaiting
    refine ⟨hnone, ?_⟩
    rw [cutShort_cons]
    omega

/-- A call has not returned, and the others are still to come. -/
lemma blocked (h : Delivers [str] results consumed [piece] w) (hwaiting : w.returned = false)
    (strs : List (List Byte)) :
    Delivers (str :: strs) results consumed (piece :: List.replicate strs.length []) w := by
  have hprefix : piece <+: str := by simpa using h.begun
  obtain ⟨hnone, hmissing⟩ := h.waiting hwaiting
  refine ⟨h.taken, .cons hprefix (forall₂_replicate_nil strs), ?_, ?_, ?_⟩
  · simp [h.file]
  · intro hreturned
    rw [hwaiting] at hreturned
    cases hreturned
  · refine fun _ => ⟨hnone, ?_⟩
    rw [cutShort_cons, ← cutShort_singleton]
    omega

end Delivers

/-- **One call**, by induction over the results. -/
lemma writeStr_delivers (results : List WriteResult) (str : List Byte) :
    ∃ consumed piece, Delivers [str] results consumed [piece] (writeStr results str) := by
  induction results generalizing str with
  | nil =>
      refine ⟨[], [], rfl, .cons List.nil_prefix .nil, rfl, ?_, ?_⟩
      · intro h
        obtain rfl : str = [] := by simpa [writeStr] using h
        rfl
      · intro h
        have hstr : str ≠ [] := by simpa [writeStr] using h
        exact ⟨rfl, by simp [cutShort_singleton, hstr.symm]⟩
  | cons result results ih =>
      by_cases hstr : str = []
      · have hwrite : writeStr (result :: results) str = ⟨[], true, result :: results⟩ := by
          cases result <;> rw [writeStr, if_pos hstr]
        rw [hwrite, hstr]
        exact ⟨[], [], rfl, .cons List.nil_prefix .nil, rfl, fun _ => rfl, nofun⟩
      · have hcut : cutShort [[]] [str] = 1 := by rw [cutShort_singleton, if_neg (Ne.symm hstr)]
        cases result with
        | Count n =>
            obtain ⟨consumed, piece, hrest⟩ := ih (str.drop n)
            rw [writeStr, if_neg hstr]
            exact ⟨.Count n :: consumed, str.take n ++ piece, hrest.count⟩
        | Interrupted =>
            rw [writeStr, if_neg hstr]
            exact ⟨[.Interrupted], [], rfl, .cons List.nil_prefix .nil, rfl, fun _ => hcut, nofun⟩
        | Error =>
            rw [writeStr, if_neg hstr]
            exact ⟨[.Error], [], rfl, .cons List.nil_prefix .nil, rfl, fun _ => hcut, nofun⟩

/-- **A sequence of calls**, by induction over the strings. -/
lemma writeStrs_delivers (strs : List (List Byte)) (results : List WriteResult) :
    ∃ consumed pieces, Delivers strs results consumed pieces (writeStrs results strs) := by
  induction strs generalizing results with
  | nil => exact ⟨[], [], rfl, .nil, rfl, fun _ => rfl, nofun⟩
  | cons str strs ih =>
      obtain ⟨consumed, piece, hfirst⟩ := writeStr_delivers results str
      rw [writeStrs]
      cases hreturned : (writeStr results str).returned with
      | true =>
          obtain ⟨consumed', pieces, hrest⟩ := ih (writeStr results str).rest
          exact ⟨consumed ++ consumed', piece :: pieces, hfirst.cons hreturned hrest⟩
      | false => exact ⟨consumed, _, hfirst.blocked hreturned strs⟩

/-- All of the strings are in the file exactly if the calls have returned and no write has failed. -/
lemma Delivers.complete_iff {strs : List (List Byte)} {results consumed : List WriteResult}
    {pieces : List (List Byte)} {w : Written} (h : Delivers strs results consumed pieces w) :
    w.file = strs.flatten ↔
      w.returned = true ∧ ∀ result ∈ consumed, result.fails = false := by
  cases hreturned : w.returned with
  | true =>
      rw [h.file, flatten_eq_iff h.begun, h.cut hreturned, List.countP_eq_zero]
      simp
  | false =>
      have hmissing := (h.waiting hreturned).2
      rw [h.file, flatten_eq_iff h.begun]
      simp [hmissing]

/-! ## The strings of the operations -/

namespace HashTable

/-- The strings that the loop of `kvs_read` writes. -/
def readStrings (ht : HashTable) : List Str → Except Fault (List (List Byte))
  | [] => pure []
  | key :: keys => do
      let result ← ht.readPair key
      let rest ← readStrings ht keys
      pure (record (readText key result) :: rest)

/-- The strings of `kvs_read`. -/
def kvsReadStrings (ht : HashTable) (keys : List Str) : Except Fault (List (List Byte)) := do
  let records ← ht.readStrings keys
  pure (text "[" :: records ++ [text "]\n"])

/-- The strings of one pass of the loop of `kvs_delete`. -/
def deleteRecordStrings (aux : Bool) (key : CString) (status : ℤ) : List (List Byte) :=
  if status ≠ 0 then (if aux then [] else [text "["]) ++ [record (missingText key)] else []

/-- The strings that the loop of `kvs_delete` writes, and whether there is a bracket to close. -/
def deleteStrings (ht : HashTable) (aux : Bool) : List Str → Except Fault (Bool × List (List Byte))
  | [] => pure (aux, [])
  | key :: keys => do
      let (status, ht, _) ← ht.deletePair key
      let (aux', rest) ← deleteStrings ht (deleteRecord aux key.val status).1 keys
      pure (aux', deleteRecordStrings aux key.val status ++ rest)

/-- The strings of `kvs_delete`. -/
def kvsDeleteStrings (ht : HashTable) (keys : List Str) : Except Fault (List (List Byte)) := do
  let (aux, records) ← ht.deleteStrings false keys
  pure (records ++ if aux then [text "]\n"] else [])

/-- The strings of `kvs_show`. -/
def kvsShowStrings (ht : HashTable) : List (List Byte) :=
  (List.finRange tableSize).flatMap fun i => (ht.table i).map showRecord

/-- The strings that the child of `kvs_backup` writes. -/
def backupStrings (ht : HashTable) : List (List Byte) :=
  (List.finRange tableSize).flatMap fun i => (ht.table i).map backupRecord

variable {ht : HashTable}

lemma readStrings_flatten {keys : List Str} {out : List Byte} (h : ht.readRecords keys = .ok out) :
    ∃ strs, ht.readStrings keys = .ok strs ∧ out = strs.flatten := by
  induction keys generalizing out with
  | nil =>
      obtain rfl := Except.ok.inj h
      exact ⟨[], rfl, rfl⟩
  | cons key keys ih =>
      obtain ⟨result, hread, h⟩ := bind_eq_ok.mp h
      obtain ⟨rest, hrest, h⟩ := bind_eq_ok.mp h
      obtain rfl := Except.ok.inj h
      obtain ⟨strs, hstrs, rfl⟩ := ih hrest
      exact ⟨_ :: strs, by simp only [readStrings, hread, hstrs, ok_bind, pure_eq_ok], rfl⟩

lemma kvsReadStrings_flatten {keys : List Str} {out : List Byte} (h : ht.kvsRead keys = .ok out) :
    ∃ strs, ht.kvsReadStrings keys = .ok strs ∧ out = strs.flatten := by
  obtain ⟨records, hrecords, h⟩ := bind_eq_ok.mp h
  obtain rfl := Except.ok.inj h
  obtain ⟨strs, hstrs, rfl⟩ := readStrings_flatten hrecords
  exact ⟨_, by simp only [kvsReadStrings, hstrs, ok_bind, pure_eq_ok]; rfl, by simp⟩

lemma deleteRecordStrings_flatten (aux : Bool) (key : CString) (status : ℤ) :
    (deleteRecord aux key status).2 = (deleteRecordStrings aux key status).flatten := by
  by_cases hstatus : status = 0
  · simp [deleteRecord, deleteRecordStrings, hstatus]
  · cases aux <;> simp [deleteRecord, deleteRecordStrings, hstatus]

lemma deleteStrings_flatten {aux : Bool} {keys : List Str}
    {result : HashTable × Bool × List Byte × List Notification}
    (h : ht.deleteRecords aux keys = .ok result) :
    ∃ strs, ht.deleteStrings aux keys = .ok (result.2.1, strs) ∧ result.2.2.1 = strs.flatten := by
  induction keys generalizing ht aux result with
  | nil =>
      obtain rfl := Except.ok.inj h
      exact ⟨[], rfl, rfl⟩
  | cons key keys ih =>
      obtain ⟨⟨status, ht', sent⟩, hdelete, h⟩ := bind_eq_ok.mp h
      have hrecord := deleteRecordStrings_flatten aux key.val status
      cases hbracket : deleteRecord aux key.val status with
      | mk aux' out =>
          simp only [hbracket] at h hrecord
          obtain ⟨rest, hrest, h⟩ := bind_eq_ok.mp h
          obtain rfl := Except.ok.inj h
          obtain ⟨strs, hstrs, hflatten⟩ := ih hrest
          refine ⟨deleteRecordStrings aux key.val status ++ strs, ?_, ?_⟩
          · simp only [deleteStrings, hdelete, hbracket, hstrs, ok_bind, pure_eq_ok]
          · rw [List.flatten_append, ← hrecord, ← hflatten]

lemma kvsDeleteStrings_flatten {keys : List Str} {result : HashTable × List Byte × List Notification}
    (h : ht.kvsDelete keys = .ok result) :
    ∃ strs, ht.kvsDeleteStrings keys = .ok strs ∧ result.2.1 = strs.flatten := by
  obtain ⟨⟨ht', aux, records, sent⟩, hrecords, h⟩ := bind_eq_ok.mp h
  obtain rfl := Except.ok.inj h
  obtain ⟨strs, hstrs, hflatten⟩ := deleteStrings_flatten hrecords
  refine ⟨_, by simp only [kvsDeleteStrings, hstrs, ok_bind, pure_eq_ok]; rfl, ?_⟩
  simp only at hflatten
  cases aux <;> simp [hflatten, closeRecords]

/-- Chain by chain, a string for each node. -/
lemma flatten_chains (chains : Fin tableSize → List KeyNode) (line : KeyNode → List Byte) :
    (List.finRange tableSize).flatMap (fun i => (chains i).flatMap line)
      = ((List.finRange tableSize).flatMap fun i => (chains i).map line).flatten := by
  simp only [List.flatMap, List.flatten_flatten, List.map_map]
  rfl

end HashTable

/-! ## The strings of a job -/

namespace Job

variable {env : JobEnvironment} {job job' : Job}

/-- The strings that one pass of the switch writes to the output file. -/
def strings (job : Job) : JobCommand → Except Fault (List (List Byte))
  | .Read keys => job.ht.kvsReadStrings keys
  | .Delete keys => job.ht.kvsDeleteStrings keys
  | .Show => pure job.ht.kvsShowStrings
  | .Write _ => pure []
  | .Wait _ => pure []
  | .Backup => pure []
  | .Help => pure []
  | .Empty => pure []
  | .Rejected => pure []
  | .Eoc => pure []

/-- The strings of the loop of `run_job`. -/
def runStrings (env : JobEnvironment) : ℕ → Job → Except Fault (List (List Byte))
  | 0, _ => .error .diverged
  | fuel + 1, job => do
      let (command, job) ← job.next env
      let strs ← job.strings command
      let (status, job) ← job.execute env command
      match status with
      | some _ => pure strs
      | none => do
          let rest ← runStrings env fuel job
          pure (strs ++ rest)

/-- Reading a command writes nothing. -/
lemma next_out {command : JobCommand} (h : job.next env = .ok (command, job')) :
    job'.out = job.out := by
  obtain ⟨⟨command', input⟩, -, h⟩ := by simpa only [next, bind_eq_ok] using h
  obtain ⟨-, rfl⟩ : command' = command ∧ _ = job' := by simpa using h
  rfl

/-- **One pass of the switch** adds its strings to the output. -/
lemma execute_strings {command : JobCommand} {status : Option ℤ}
    (h : job.execute env command = .ok (status, job')) :
    ∃ strs, job.strings command = .ok strs ∧ job'.out = job.out ++ strs.flatten := by
  cases command with
  | Write pairs =>
      obtain ⟨⟨ht, sent⟩, -, h⟩ := by simpa only [execute, bind_eq_ok] using h
      obtain ⟨-, rfl⟩ : _ ∧ _ = job' := by simpa using h
      exact ⟨[], rfl, (List.append_nil _).symm⟩
  | Read keys =>
      obtain ⟨out, hread, h⟩ := by simpa only [execute, bind_eq_ok] using h
      obtain ⟨-, rfl⟩ : _ ∧ _ = job' := by simpa using h
      obtain ⟨strs, hstrs, rfl⟩ := HashTable.kvsReadStrings_flatten hread
      exact ⟨strs, hstrs, rfl⟩
  | Delete keys =>
      obtain ⟨⟨ht, out, sent⟩, hdelete, h⟩ := by simpa only [execute, bind_eq_ok] using h
      obtain ⟨-, rfl⟩ : _ ∧ _ = job' := by simpa using h
      obtain ⟨strs, hstrs, hflatten⟩ := HashTable.kvsDeleteStrings_flatten hdelete
      exact ⟨strs, hstrs, congrArg (job.out ++ ·) hflatten⟩
  | Show =>
      obtain ⟨-, rfl⟩ : _ ∧ _ = job' := by simpa [execute] using h
      exact ⟨_, rfl, congrArg (job.out ++ ·) (HashTable.flatten_chains _ _)⟩
  | Backup =>
      obtain ⟨-, rfl⟩ : _ ∧ _ = job' := by simpa only [execute, pure_eq_ok, Except.ok.injEq,
        Prod.mk.injEq] using h
      refine ⟨[], rfl, ?_⟩
      rw [kvsBackup]
      split_ifs <;> exact (List.append_nil _).symm
  | Wait | Help | Empty | Rejected | Eoc =>
      obtain ⟨-, rfl⟩ : _ ∧ _ = job' := by simpa [execute] using h
      exact ⟨[], rfl, (List.append_nil _).symm⟩

/-- **The loop**, by induction on its iterations: its strings, put together, are what it adds to the
output. -/
lemma runLoop_strings {fuel : ℕ} {status : ℤ} (h : runLoop env fuel job = .ok (status, job')) :
    ∃ strs, runStrings env fuel job = .ok strs ∧ job'.out = job.out ++ strs.flatten := by
  induction fuel generalizing job with
  | zero => cases h
  | succ fuel ih =>
      obtain ⟨⟨command, job₁⟩, hnext, h⟩ := bind_eq_ok.mp h
      obtain ⟨⟨status', job₂⟩, hexec, h⟩ := bind_eq_ok.mp h
      obtain ⟨strs, hstrs, hout⟩ := execute_strings hexec
      rw [next_out hnext] at hout
      cases status' with
      | some status' =>
          obtain ⟨-, rfl⟩ : status' = status ∧ job₂ = job' := by simpa using h
          exact ⟨strs, by simp only [runStrings, hnext, hstrs, hexec, ok_bind, pure_eq_ok], hout⟩
      | none =>
          obtain ⟨rest, hrest, hlater⟩ := ih h
          refine ⟨strs ++ rest, ?_, ?_⟩
          · simp only [runStrings, hnext, hstrs, hexec, hrest, ok_bind, pure_eq_ok]
          · rw [hlater, hout, List.flatten_append, List.append_assoc]

end Job

/-! ## The files -/

/-- **The output file of a job.**  Whatever the writes of its descriptor return: while the job is in a
write something is missing from the file, and when it is through, as many of its strings are cut short
as writes have failed.  So the file has the job's output exactly if none has. -/
theorem job_output_written {env : JobEnvironment} {input : Input} {ht : HashTable} {filename : CString}
    {activeBackups : ℕ} {status : ℤ} {job' : Job}
    (h : (Job.start input ht filename activeBackups).runJob env = .ok (status, job')) :
    ∃ strs, Job.runStrings env (input.length + 1) (.start input ht filename activeBackups) = .ok strs ∧
      ∀ results, ∃ consumed pieces, Delivers strs results consumed pieces (writeStrs results strs) ∧
        ((writeStrs results strs).file = job'.out ↔
          (writeStrs results strs).returned = true ∧ ∀ result ∈ consumed, result.fails = false) := by
  obtain ⟨strs, hstrs, hout⟩ := Job.runLoop_strings h
  have houtput : job'.out = strs.flatten := hout
  refine ⟨strs, hstrs, fun results => ?_⟩
  obtain ⟨consumed, pieces, hdelivers⟩ := writeStrs_delivers strs results
  refine ⟨consumed, pieces, hdelivers, ?_⟩
  rw [houtput]
  exact hdelivers.complete_iff

/-- Reading a key that is not there: three strings. -/
theorem job_output_written_read : ∃ strs, strs.length = 3 ∧ ∀ results, ∃ consumed : List WriteResult,
    results = consumed ++ (writeStrs results strs).rest ∧
      ((writeStrs results strs).file = text "[(a,KVSERROR)]\n" ↔
        (writeStrs results strs).returned = true ∧ ∀ result ∈ consumed, result.fails = false) := by
  obtain ⟨status, job, hrun, hout⟩ : ∃ status job,
      (Job.start (text "READ [a]\n") .createHashTable (.lit "a.job") 0).runJob calmEnvironment
        = .ok (status, job) ∧ job.out = text "[(a,KVSERROR)]\n" := ⟨_, _, rfl, rfl⟩
  obtain ⟨strs, hstrs, hwritten⟩ := job_output_written hrun
  obtain rfl : [text "[", text "(a,KVSERROR)", text "]\n"] = strs := Except.ok.inj hstrs
  refine ⟨[text "[", text "(a,KVSERROR)", text "]\n"], rfl, fun results => ?_⟩
  obtain ⟨consumed, pieces, hdelivers, hfile⟩ := hwritten results
  rw [hout] at hfile
  exact ⟨consumed, hdelivers.taken, hfile⟩

/-- An interrupted record loses its end, and the bracket is written behind it all the same. -/
example : (writeStrs [.Count 1, .Count 6, .Interrupted, .Count 2]
    [text "[", text "(a,KVSERROR)", text "]\n"]).file = text "[(a,KVS]\n" := by decide +kernel

/-- **A backup file**, in the same way: as many records lack their end as writes of the child have
failed, and all of the others are whole. -/
theorem backup_written (ht : HashTable) (results : List WriteResult) : ∃ consumed pieces,
    Delivers ht.backupStrings results consumed pieces (writeStrs results ht.backupStrings) ∧
      ((writeStrs results ht.backupStrings).file = ht.backupBytes ↔
        (writeStrs results ht.backupStrings).returned = true ∧
          ∀ result ∈ consumed, result.fails = false) := by
  obtain ⟨consumed, pieces, hdelivers⟩ := writeStrs_delivers ht.backupStrings results
  refine ⟨consumed, pieces, hdelivers, ?_⟩
  rw [HashTable.backupBytes, HashTable.flatten_chains]
  exact hdelivers.complete_iff

end Kvs
