import Kvs.Core.Interleaving
import Kvs.Server.JobExecution

/-!
# Job threads on one table

The threads of `dispatch_threads` run job files at the same time, each with its own input and output
file, on the one table of the store.  `JobThreads.advance` is a whole command of one of them: the
next line of its file, executed on the table as it is then.  A run is any order of such steps.

Jobs that name no key in common share chains all the same: in which order their nodes stand in a
chain depends on the interleaving.  But no `READ` and no `DELETE` can tell, because what a line of
the job does is *local* to its keys (`keyedLines`, an instance of `Core/Interleaving.lean`).  So each
job writes what it would write alone, and every key reads the same at the end
(`jobs_do_not_interfere`).
-/

namespace Kvs

/-! ## Lines that name keys -/

/-- `WRITE`, `READ` and `DELETE`. -/
def Line.Keyed : Line → Prop
  | Write _ => True
  | Read _ => True
  | Delete _ => True
  | _ => False

instance : ∀ line : Line, Decidable line.Keyed
  | .Write _ => inferInstanceAs (Decidable True)
  | .Read _ => inferInstanceAs (Decidable True)
  | .Delete _ => inferInstanceAs (Decidable True)
  | .Show => inferInstanceAs (Decidable False)
  | .Wait _ => inferInstanceAs (Decidable False)
  | .Backup => inferInstanceAs (Decidable False)
  | .Help => inferInstanceAs (Decidable False)
  | .Comment _ => inferInstanceAs (Decidable False)
  | .Empty => inferInstanceAs (Decidable False)

/-- The keys a line names. -/
def Line.keys : Line → List CString
  | Write pairs => pairs.map fun p => p.1.val
  | Read keys => keys.map Subtype.val
  | Delete keys => keys.map Subtype.val
  | _ => []

namespace Contents

variable {m m' : Contents} {key : CString}

/-! ## What a line does at one key -/

lemma read_writeAll_of_notMem {pairs : List (Str × Str)}
    (hkey : key ∉ pairs.map fun p => p.1.val) : (m.writeAll pairs).read key = m.read key := by
  induction pairs generalizing m with
  | nil => rfl
  | cons p pairs ih =>
      obtain ⟨k, v⟩ := p
      simp only [List.map_cons, List.mem_cons, not_or] at hkey
      rw [writeAll, ih hkey.2, read_write_of_ne hkey.1]

/-- What a key reads after a write depends only on what it read before. -/
lemma read_writeAll_congr {pairs : List (Str × Str)} (hread : m.read key = m'.read key) :
    (m.writeAll pairs).read key = (m'.writeAll pairs).read key := by
  induction pairs generalizing m m' with
  | nil => exact hread
  | cons p pairs ih =>
      obtain ⟨k, v⟩ := p
      rw [writeAll, writeAll]
      refine ih ?_
      by_cases hk : key = k.val
      · rw [hk, read_write_self, read_write_self]
      · rw [read_write_of_ne hk, read_write_of_ne hk, hread]

lemma Distinct.writeAll (hm : m.Distinct) (pairs : List (Str × Str)) :
    (m.writeAll pairs).Distinct := by
  induction pairs generalizing m with
  | nil => exact hm
  | cons p pairs ih => exact ih hm.write

lemma Distinct.deleteAll (hm : m.Distinct) (keys : List Str) : (m.deleteAll keys).Distinct := by
  induction keys generalizing m with
  | nil => exact hm
  | cons k keys ih => exact ih hm.delete

lemma read_deleteAll_of_notMem {keys : List Str} (hkey : key ∉ keys.map Subtype.val) :
    (m.deleteAll keys).read key = m.read key := by
  induction keys generalizing m with
  | nil => rfl
  | cons k keys ih =>
      simp only [List.map_cons, List.mem_cons, not_or] at hkey
      rw [deleteAll, ih hkey.2, read_delete_of_ne hkey.1]

/-- One deletion, at any key. -/
lemma read_delete_congr (hm : m.Distinct) (hm' : m'.Distinct) (k : CString)
    (hread : m.read key = m'.read key) : (m.delete k).read key = (m'.delete k).read key := by
  by_cases hk : key = k
  · rw [hk, read_delete_self hm, read_delete_self hm']
  · rw [read_delete_of_ne hk, read_delete_of_ne hk, hread]

lemma read_deleteAll_congr (hm : m.Distinct) (hm' : m'.Distinct) {keys : List Str}
    (hread : m.read key = m'.read key) :
    (m.deleteAll keys).read key = (m'.deleteAll keys).read key := by
  induction keys generalizing m m' with
  | nil => exact hread
  | cons k keys ih => exact ih hm.delete hm'.delete (read_delete_congr hm hm' k.val hread)

/-- Which keys a deletion finds missing depends only on what they read. -/
lemma missing_congr (hm : m.Distinct) (hm' : m'.Distinct) {keys : List Str}
    (hread : ∀ k ∈ keys, m.read k.val = m'.read k.val) : m.missing keys = m'.missing keys := by
  induction keys generalizing m m' with
  | nil => rfl
  | cons k keys ih =>
      have hrest := ih hm.delete hm'.delete fun k' hk' =>
        read_delete_congr hm hm' k.val (hread k' (List.mem_cons_of_mem _ hk'))
      rw [missing, missing, hread k (by simp), hrest]

lemma readOutput_congr {keys : List Str} (hread : ∀ k ∈ keys, m.read k.val = m'.read k.val) :
    m.readOutput keys = m'.readOutput keys := by
  have hrecords : keys.flatMap (fun key : Str => record (readText key.val (m.read key.val)))
      = keys.flatMap fun key : Str => record (readText key.val (m'.read key.val)) :=
    List.flatMap_congr fun k hk => by rw [hread k hk]
  rw [readOutput, readOutput, hrecords]

end Contents

/-! ## Lines as local commands -/

/-- The pairs of a store, each key once. -/
abbrev DistinctContents := { m : Contents // m.Distinct }

/-- A line that names keys. -/
abbrev KeyedLine := { line : Line // line.Keyed }

lemma Line.interpret_distinct (line : Line) {m : Contents} (hm : m.Distinct) :
    (line.interpret m).1.Distinct := by
  cases line with
  | Write pairs => exact hm.writeAll pairs
  | Delete keys => exact hm.deleteAll keys
  | _ => exact hm

/-- **What a line does is local to its keys.** -/
def keyedLines : LocalCommands DistinctContents CString (Option CString) Byte KeyedLine where
  read := fun m => m.val.read
  keys := fun line => { key | key ∈ line.val.keys }
  step := fun line m =>
    (⟨(line.val.interpret m.val).1, line.val.interpret_distinct m.prop⟩, (line.val.interpret m.val).2)
  frame := by
    rintro ⟨line, hline⟩ m key hkey
    cases line with
    | Write pairs => exact Contents.read_writeAll_of_notMem hkey
    | Read keys => rfl
    | Delete keys => exact Contents.read_deleteAll_of_notMem hkey
    | _ => exact hline.elim
  congr := by
    rintro ⟨line, hline⟩ ⟨m, hm⟩ ⟨m', hm'⟩ hagree
    cases line with
    | Write pairs =>
        refine ⟨rfl, ?_⟩
        intro key hkey
        exact Contents.read_writeAll_congr (hagree hkey)
    | Read keys =>
        refine ⟨Contents.readOutput_congr fun k hk => hagree (List.mem_map_of_mem hk), ?_⟩
        intro key hkey
        exact hagree hkey
    | Delete keys =>
        have hmissing : m.missing keys = m'.missing keys :=
          Contents.missing_congr hm hm' fun k hk => hagree (List.mem_map_of_mem hk)
        refine ⟨?_, ?_⟩
        · show m.deleteOutput keys = m'.deleteOutput keys
          rw [Contents.deleteOutput, Contents.deleteOutput, hmissing]
        · intro key hkey
          exact Contents.read_deleteAll_congr hm hm' (hagree hkey)
    | _ => exact hline.elim

/-! ## Threads -/

/-- The bytes of a job file. -/
def fileOf (lines : List KeyedLine) : Input := (lines.map Subtype.val).flatMap Line.render

/-- The job threads: the store they share, what each of them has of its own, and the statuses of
those that have come to the end of their files.  The table in a job is the one it has last seen. -/
structure JobThreads (ι : Type) where
  ht : HashTable
  job : ι → Job
  status : ι → Option ℤ

namespace JobThreads

variable {ι : Type}

/-- The threads about to start, on open input files. -/
def start (input : ι → Input) (ht : HashTable) (filename : ι → CString) (activeBackups : ℕ) :
    JobThreads ι where
  ht := ht
  job := fun i => Job.start (input i) ht (filename i) activeBackups
  status := fun _ => none

/-- No thread has a command left. -/
def Finished (threads : JobThreads ι) : Prop := ∀ i, threads.status i ≠ none

/-- The job of a thread whose turn it is: it works on the table as it is now. -/
def current (threads : JobThreads ι) (i : ι) : Job := { threads.job i with ht := threads.ht }

@[simp] lemma current_ht (threads : JobThreads ι) (i : ι) : (threads.current i).ht = threads.ht :=
  rfl

@[simp] lemma current_out (threads : JobThreads ι) (i : ι) :
    (threads.current i).out = (threads.job i).out := rfl

variable [DecidableEq ι]

/-- One command of a thread, from the file to the table: a pass of the loop of `run_job`. -/
def advance (env : ι → JobEnvironment) (threads : JobThreads ι) (i : ι) :
    Except Fault (JobThreads ι) :=
  match threads.status i with
  | some _ => pure threads
  | none => do
      let (command, job) ← (threads.current i).next (env i)
      let (status, job) ← job.execute (env i) command
      pure { ht := job.ht
             job := Function.update threads.job i job
             status := Function.update threads.status i status }

/-- A run, given whose turn it is each time. -/
def runSchedule (env : ι → JobEnvironment) (threads : JobThreads ι) :
    List ι → Except Fault (JobThreads ι)
  | [] => pure threads
  | i :: schedule => do
      let threads ← threads.advance env i
      runSchedule env threads schedule

/-! ## The threads follow their lines -/

/-- The store holds `m`, and each thread is in front of the lines it has left. -/
structure Follows (threads : JobThreads ι) (todo : ι → List KeyedLine) (m : DistinctContents) :
    Prop where
  holds : threads.ht.Holds m.val
  input : ∀ i, (threads.job i).input = fileOf (todo i)
  finished : ∀ i, threads.status i ≠ none → todo i = []

variable {env : ι → JobEnvironment} {threads : JobThreads ι} {todo : ι → List KeyedLine}
  {m : DistinctContents} {i : ι}

/-- **A line of a thread.** -/
lemma Follows.line (hmem : ZeroFilled (env i).mem) (h : threads.Follows todo m)
    {line : KeyedLine} {rest : List KeyedLine} (hline : line.val.WellFormed)
    (htodo : todo i = line :: rest) :
    ∃ threads', threads.advance env i = .ok threads' ∧
      threads'.Follows (Function.update todo i rest) (keyedLines.step line m).1 ∧
      (threads'.job i).out = (threads.job i).out ++ (keyedLines.step line m).2 ∧
      ∀ j, j ≠ i → threads'.job j = threads.job j := by
  have hstatus : threads.status i = none := by
    by_contra hfinished
    rw [h.finished i hfinished] at htodo
    cases htodo
  have hinput : (threads.job i).input = line.val.render ++ fileOf rest := by
    rw [h.input i, htodo]
    rfl
  have hfront : (threads.current i).input = line.val.render ++ fileOf rest := hinput
  have hnext := Job.next_line (env i) hline hfront
  set ahead : Job := { threads.current i with
    input := fileOf rest
    commands := (threads.current i).commands ++ [line.val.command] } with hahead
  have hhead : ahead.ht.Holds m.val := h.holds
  obtain ⟨job, hexec, hholds, hout, hinput', -⟩ := Job.execute_refines hmem hhead hline
  refine ⟨⟨job.ht, Function.update threads.job i job, Function.update threads.status i none⟩,
    ?_, ⟨hholds, ?_, ?_⟩, ?_, ?_⟩
  · simp only [advance, hstatus, hnext, ok_bind, hexec, pure_eq_ok]
  · intro j
    by_cases hj : j = i
    · subst hj
      simp [hinput', hahead]
    · simp [hj, h.input j]
  · intro j hfinished
    by_cases hj : j = i
    · subst hj
      simp at hfinished
    · simp only [Function.update_of_ne hj] at hfinished ⊢
      exact h.finished j hfinished
  · simp [hout, hahead]
    rfl
  · intro j hj
    simp [hj]

/-- A thread at the end of its file, or beyond. -/
lemma Follows.stop (env : ι → JobEnvironment) (h : threads.Follows todo m) (htodo : todo i = []) :
    ∃ threads', threads.advance env i = .ok threads' ∧ threads'.Follows todo m ∧
      ∀ j, (threads'.job j).out = (threads.job j).out := by
  cases hstatus : threads.status i with
  | some status =>
      refine ⟨threads, ?_, h, fun _ => rfl⟩
      simp only [advance, hstatus, pure_eq_ok]
  | none =>
      have hinput : (threads.job i).input = [] := by
        rw [h.input i, htodo]
        rfl
      have hend : (threads.current i).input = [] := hinput
      have hnext := Job.next_eof (env i) hend
      set ended : Job := { threads.current i with
        input := []
        commands := (threads.current i).commands ++ [.Eoc] } with hended
      refine ⟨⟨threads.ht, Function.update threads.job i ended,
        Function.update threads.status i (some 0)⟩, ?_, ⟨h.holds, ?_, ?_⟩, ?_⟩
      · simp only [advance, hstatus, hnext, ok_bind, Job.execute, pure_eq_ok, hended, current_ht]
      · intro j
        by_cases hj : j = i
        · subst hj
          simp [hended, htodo, fileOf]
        · simp [hj, h.input j]
      · intro j hfinished
        by_cases hj : j = i
        · rw [hj, htodo]
        · simp only [Function.update_of_ne hj] at hfinished
          exact h.finished j hfinished
      · intro j
        by_cases hj : j = i
        · subst hj
          simp [hended]
        · simp [hj]

/-- **A run of the threads**, by induction over the schedule: it is a trace of their lines. -/
lemma Follows.runSchedule (hmem : ∀ i, ZeroFilled (env i).mem) (h : threads.Follows todo m)
    (hlines : ∀ i, ∀ line ∈ todo i, line.val.WellFormed) (schedule : List ι) :
    ∃ (threads' : JobThreads ι) (todo' : ι → List KeyedLine) (trace : List (ι × KeyedLine)),
      threads.runSchedule env schedule = .ok threads' ∧
      threads'.Follows todo' (keyedLines.after m trace) ∧
      (∀ j, LocalCommands.program j trace ++ todo' j = todo j) ∧
      ∀ j, (threads'.job j).out = (threads.job j).out ++ keyedLines.outputOf j m trace := by
  induction schedule generalizing threads todo m with
  | nil =>
      exact ⟨threads, todo, [], rfl, h, fun j => rfl, fun j => (List.append_nil _).symm⟩
  | cons i schedule ih =>
    cases htodo : todo i with
    | nil =>
        obtain ⟨threads₁, hadvance, h₁, hout₁⟩ := h.stop env htodo
        obtain ⟨threads', todo', trace, hrun, h', hprogram, hout⟩ := ih h₁ hlines
        refine ⟨threads', todo', trace, ?_, h', hprogram, ?_⟩
        · simp only [JobThreads.runSchedule, hadvance, ok_bind, hrun]
        · intro j
          rw [hout, hout₁]
    | cons line rest =>
        have hline : line.val.WellFormed := hlines i line (by simp [htodo])
        obtain ⟨threads₁, hadvance, h₁, hout₁, hothers⟩ := h.line (hmem i) hline htodo
        have hlines₁ : ∀ j, ∀ l ∈ Function.update todo i rest j, l.val.WellFormed := by
          intro j l hl
          by_cases hj : j = i
          · subst hj
            rw [Function.update_self] at hl
            exact hlines j l (by simp [htodo, hl])
          · rw [Function.update_of_ne hj] at hl
            exact hlines j l hl
        obtain ⟨threads', todo', trace, hrun, h', hprogram, hout⟩ := ih h₁ hlines₁
        refine ⟨threads', todo', (i, line) :: trace, ?_, h', ?_, ?_⟩
        · simp only [JobThreads.runSchedule, hadvance, ok_bind, hrun]
        · intro j
          by_cases hj : j = i
          · subst hj
            rw [LocalCommands.program_cons_self, List.cons_append, hprogram j,
              Function.update_self, htodo]
          · rw [LocalCommands.program_cons_of_ne (Ne.symm hj), hprogram j,
              Function.update_of_ne hj]
        · intro j
          rw [hout j, LocalCommands.outputOf]
          by_cases hj : j = i
          · subst hj
            rw [hout₁, if_pos rfl, List.append_assoc]
          · rw [hothers j hj, if_neg (Ne.symm hj), List.nil_append]

/-- What a thread that has come to its end has executed are its lines, all of them. -/
lemma Follows.program_eq {lines : ι → List KeyedLine} {trace : List (ι × KeyedLine)}
    (h : threads.Follows todo m) (hprogram : ∀ j, LocalCommands.program j trace ++ todo j = lines j)
    (hfinished : threads.status i ≠ none) : LocalCommands.program i trace = lines i := by
  rw [← hprogram i, h.finished i hfinished, List.append_nil]

end JobThreads

/-! ## A job alone -/

/-- The interpreter of the lines of a job is the run of its commands. -/
lemma interpret_eq_run (m : DistinctContents) (lines : List KeyedLine) :
    interpret m.val (lines.map Subtype.val)
      = ((keyedLines.run m lines).1.val, (keyedLines.run m lines).2) := by
  induction lines generalizing m with
  | nil => rfl
  | cons line lines ih =>
      have hrest := ih (keyedLines.step line m).1
      rw [List.map_cons, interpret, LocalCommands.run]
      show ((interpret (keyedLines.step line m).1.val (lines.map Subtype.val)).1, _) = _
      rw [hrest]
      show (_, _ ++ (interpret (keyedLines.step line m).1.val (lines.map Subtype.val)).2) = _
      rw [hrest]
      rfl

/-- A job on a table that no other job works on. -/
lemma runJob_alone {env : JobEnvironment} (hmem : ZeroFilled env.mem) {ht : HashTable}
    {m : DistinctContents} (h : ht.Holds m.val) {lines : List KeyedLine}
    (hlines : ∀ line ∈ lines, line.val.WellFormed) (filename : CString) (activeBackups : ℕ) :
    ∃ job, (Job.start (fileOf lines) ht filename activeBackups).runJob env = .ok (0, job) ∧
      job.out = (keyedLines.run m lines).2 := by
  have hstart : (Job.start (fileOf lines) ht filename activeBackups).ht.Holds m.val := h
  have hlines' : ∀ line ∈ lines.map Subtype.val, line.WellFormed := by
    intro line hline
    obtain ⟨l, hl, rfl⟩ := List.mem_map.mp hline
    exact hlines l hl
  obtain ⟨job, hrun, -, hout, -⟩ := Job.runLoop_refines hmem hstart hlines' rfl
    (Nat.lt_succ_of_le (Job.length_le_render _))
  refine ⟨job, hrun, ?_⟩
  rw [hout, interpret_eq_run]
  rfl

/-! ## Jobs on disjoint keys -/

/-- Tables that hold the same values are read alike, at keys that have no chain too. -/
lemma HashTable.Holds.readPair_congr {ht ht' : HashTable} {m m' : Contents} (h : ht.Holds m)
    (h' : ht'.Holds m') {key : CString} (hread : m.read key = m'.read key) :
    ht.readPair key = ht'.readPair key := by
  by_cases hkey : key.StartsAlnum
  · rw [h.readPair hkey, h'.readPair hkey, hread]
  · simp only [HashTable.readPair, tableIndex_of_not_startsAlnum hkey, error_bind]

/-- **Jobs on disjoint keys do not interfere.**  Any number of well-formed jobs of `WRITE`, `READ`
and `DELETE` lines, no two of which name a key in common, on a table that well-formed commands have
led to.  Whatever the order in which their commands are executed, each job that comes to its end has
written what it writes when it runs alone from that table; and whenever all have come to their ends,
every key reads the same, whatever the order was. -/
theorem jobs_do_not_interfere {ι : Type} [DecidableEq ι] {env : ι → JobEnvironment}
    (hmem : ∀ i, ZeroFilled (env i).mem) {mem : ℕ → Ptr} (hmem₀ : ZeroFilled mem) {ht : HashTable}
    {m : Contents} (hreached : Reached mem ht m) {lines : ι → List KeyedLine}
    (hlines : ∀ i, ∀ line ∈ lines i, line.val.WellFormed)
    (hdisjoint : ∀ i j, i ≠ j → ∀ line ∈ lines i, ∀ line' ∈ lines j, ∀ key ∈ line.val.keys,
      key ∉ line'.val.keys) (filename : ι → CString) (activeBackups : ℕ) :
    (∀ schedule : List ι, ∃ threads,
      (JobThreads.start (fun i => fileOf (lines i)) ht filename activeBackups).runSchedule env schedule
        = .ok threads ∧
      ∀ i, threads.status i ≠ none → ∃ job,
        (Job.start (fileOf (lines i)) ht (filename i) activeBackups).runJob (env i) = .ok (0, job) ∧
        (threads.job i).out = job.out) ∧
    ∀ (schedule schedule' : List ι) (threads threads' : JobThreads ι),
      (JobThreads.start (fun i => fileOf (lines i)) ht filename activeBackups).runSchedule env schedule
        = .ok threads →
      (JobThreads.start (fun i => fileOf (lines i)) ht filename activeBackups).runSchedule env schedule'
        = .ok threads' →
      threads.Finished → threads'.Finished → ∀ key, threads.ht.readPair key = threads'.ht.readPair key := by
  have hholds : ht.Holds m := hreached.holds hmem₀
  set contents : DistinctContents := ⟨m, hholds.distinct⟩ with hcontents
  have hstart : (JobThreads.start (fun i => fileOf (lines i)) ht filename activeBackups).Follows lines
      contents := ⟨hholds, fun _ => rfl, fun i hfinished => absurd rfl hfinished⟩
  have hseparate : keyedLines.Separate lines := by
    intro i j hij line hline line' hline' key hkey
    exact hdisjoint i j hij line hline line' hline' key hkey
  constructor
  · intro schedule
    obtain ⟨threads, todo, trace, hrun, hfollows, hprogram, hout⟩ :=
      hstart.runSchedule hmem hlines schedule
    refine ⟨threads, hrun, ?_⟩
    intro i hfinished
    obtain ⟨job, halone, houtAlone⟩ :=
      runJob_alone (m := contents) (hmem i) hholds (hlines i) (filename i) activeBackups
    refine ⟨job, halone, ?_⟩
    have hpart : ∀ j, ∀ line ∈ LocalCommands.program j trace, line ∈ lines j := by
      intro j line hline
      rw [← hprogram j]
      exact List.mem_append_left _ hline
    have hall := hfollows.program_eq hprogram hfinished
    have hsame := (keyedLines.outputOf_separate hseparate hpart i contents).1
    rw [hout i, houtAlone, hsame, hall]
    rfl
  · intro schedule schedule' threads threads' hrun hrun' hfinished hfinished' key
    obtain ⟨threads₁, todo, trace, hrun₁, hfollows, hprogram, -⟩ :=
      hstart.runSchedule hmem hlines schedule
    obtain ⟨threads₁', todo', trace', hrun₁', hfollows', hprogram', -⟩ :=
      hstart.runSchedule hmem hlines schedule'
    obtain rfl := Except.ok.inj (hrun.symm.trans hrun₁)
    obtain rfl := Except.ok.inj (hrun'.symm.trans hrun₁')
    have hall : ∀ j, LocalCommands.program j trace = lines j :=
      fun j => hfollows.program_eq hprogram (hfinished j)
    have hall' : ∀ j, LocalCommands.program j trace' = lines j :=
      fun j => hfollows'.program_eq hprogram' (hfinished' j)
    exact hfollows.holds.readPair_congr hfollows'.holds
      (keyedLines.read_after_eq hseparate hall hall' contents key)

/-- Two jobs whose keys are in one chain: one writes `a` and reads it, the other writes `0`, deletes
it and asks for it. -/
def chainSharers : Bool → Input
  | true => text "WRITE [(a,x)]\nREAD [a]\n"
  | false => text "WRITE [(0,y)]\nDELETE [0]\nREAD [0]\n"

/-- The threads of these jobs, about to start. -/
def sharingThreads : JobThreads Bool :=
  .start chainSharers .createHashTable (fun _ => .lit "one.job") 0

/-- Their commands in turn; each job writes what it writes alone. -/
theorem jobs_do_not_interfere_small :
    ∃ threads, sharingThreads.runSchedule (fun _ => calmEnvironment)
        [true, false, false, true, false, true, false] = .ok threads ∧
      ∀ first, threads.status first = some 0 ∧ ∃ job,
        (Job.start (chainSharers first) .createHashTable (.lit "one.job") 0).runJob calmEnvironment
          = .ok (0, job) ∧ (threads.job first).out = job.out := by
  obtain ⟨lines, hlinesTrue, hlinesFalse⟩ : ∃ lines : Bool → List KeyedLine,
      lines true = [⟨.Write [(.lit "a", .lit "x")], trivial⟩, ⟨.Read [.lit "a"], trivial⟩] ∧
      lines false = [⟨.Write [(.lit "0", .lit "y")], trivial⟩, ⟨.Delete [.lit "0"], trivial⟩,
        ⟨.Read [.lit "0"], trivial⟩] := ⟨fun first => bif first then _ else _, rfl, rfl⟩
  have hfiles : chainSharers = fun first => fileOf (lines first) := by
    funext first
    cases first with
    | true =>
        rw [hlinesTrue]
        decide +kernel
    | false =>
        rw [hlinesFalse]
        decide +kernel
  have hmem : ∀ first : Bool, ZeroFilled ((fun _ : Bool => calmEnvironment) first).mem :=
    fun _ _ => rfl
  have hmem₀ : ZeroFilled fun _ => none := fun _ => rfl
  have hlines : ∀ first, ∀ line ∈ lines first, line.val.WellFormed := by
    intro first
    cases first with
    | true =>
        rw [hlinesTrue]
        decide +kernel
    | false =>
        rw [hlinesFalse]
        decide +kernel
  have hdisjoint : ∀ i j, i ≠ j → ∀ line ∈ lines i, ∀ line' ∈ lines j,
      ∀ key ∈ line.val.keys, key ∉ line'.val.keys := by
    intro i j hij
    cases i <;> cases j
    · exact absurd rfl hij
    · rw [hlinesTrue, hlinesFalse]
      decide +kernel
    · rw [hlinesTrue, hlinesFalse]
      decide +kernel
    · exact absurd rfl hij
  obtain ⟨threads, hrun, hout⟩ := (jobs_do_not_interfere hmem hmem₀ .new hlines hdisjoint
    (fun _ => .lit "one.job") 0).1 [true, false, false, true, false, true, false]
  have hstatus : ∀ first, (sharingThreads.runSchedule (fun _ => calmEnvironment)
      [true, false, false, true, false, true, false]).toOption.map
        (fun threads => threads.status first) = some (some 0) := by decide +kernel
  rw [← hfiles] at hrun
  refine ⟨threads, hrun, ?_⟩
  intro first
  have hfirst := hstatus first
  rw [show sharingThreads.runSchedule (fun _ => calmEnvironment)
    [true, false, false, true, false, true, false] = .ok threads from hrun] at hfirst
  have hended : threads.status first = some 0 := Option.some.inj hfirst
  refine ⟨hended, ?_⟩
  rw [hfiles]
  exact hout first (by rw [hended]; simp)

end Kvs
