import Kvs.Server.Batches
import Kvs.Server.JobLines

/-!
# A job against the finite map

The meaning of a job file is a program over the finite map: `Line.interpret` gives, for one line,
the map afterwards and the bytes it puts in the output file, and `interpret` runs a whole file.
This module shows that `run_job` computes it.

* `Job.execute_refines` — one pass of the switch, on a table that holds the map.
* `Job.runLoop_refines` — the loop, by induction over the lines.  Behind each line the input starts
  at the next one (`readCommand_render`), so the commands executed are those of the lines.
* `Reached` — the tables such commands lead to from a new one.  They all hold the map the
  interpreter arrives at (`Reached.holds`).

Backups, waits and comments are in the file like anything else, and leave table and output alone.
-/

namespace Kvs

/-! ## The reference interpreter -/

/-- A line on the map: the map after it, and what it adds to the output. -/
def Line.interpret (m : Contents) : Line → Contents × List Byte
  | .Write pairs => (m.writeAll pairs, [])
  | .Read keys => (m, m.readOutput keys)
  | .Delete keys => (m.deleteAll keys, m.deleteOutput keys)
  | .Show => (m, m.showOutput)
  | .Wait _ => (m, [])
  | .Backup => (m, [])
  | .Help => (m, [])
  | .Comment _ => (m, [])
  | .Empty => (m, [])

/-- A whole file. -/
def interpret (m : Contents) : List Line → Contents × List Byte
  | [] => (m, [])
  | line :: lines =>
      let (m, out) := line.interpret m
      let (m, rest) := interpret m lines
      (m, out ++ rest)

/-! ## One command -/

namespace Job

variable {env : JobEnvironment} {job : Job} {m : Contents}

/-- `kvs_backup` never returns the 1 that would end the job: only its child exits. -/
lemma kvsBackup_status (env : JobEnvironment) (job : Job) : (job.kvsBackup env).1 ≠ 1 := by
  unfold kvsBackup
  dsimp only
  split_ifs <;> simp

lemma kvsBackup_frame (env : JobEnvironment) (job : Job) :
    (job.kvsBackup env).2.ht = job.ht ∧ (job.kvsBackup env).2.out = job.out
      ∧ (job.kvsBackup env).2.input = job.input
      ∧ (job.kvsBackup env).2.commands = job.commands
      ∧ (job.kvsBackup env).2.sent = job.sent := by
  unfold kvsBackup
  dsimp only
  split_ifs <;> exact ⟨rfl, rfl, rfl, rfl, rfl⟩

/-- **One pass of the switch.**  The table follows the interpreter, the output grows by what the
interpreter adds, no subscriber is sent anything, and the input is left alone. -/
theorem execute_refines (hmem : ZeroFilled env.mem) (h : job.ht.Holds m) {line : Line}
    (hline : line.WellFormed) :
    ∃ job', job.execute env line.command = .ok (none, job')
      ∧ job'.ht.Holds (line.interpret m).1 ∧ job'.out = job.out ++ (line.interpret m).2
      ∧ job'.input = job.input ∧ job'.commands = job.commands ∧ job'.sent = job.sent := by
  cases line with
  | Write pairs =>
      obtain ⟨ht', hwrite, h'⟩ := h.kvsWrite hmem fun p hp => (hline.2 p hp).1.2
      refine ⟨{ job with ht := ht', sent := job.sent ++ [] }, ?_, h', ?_, rfl, rfl, ?_⟩
      · simp only [Line.command, execute, hwrite, ok_bind, pure_eq_ok]
      · exact (List.append_nil _).symm
      · exact List.append_nil _
  | Read keys =>
      have hread := h.kvsRead fun key hkey => (hline.2 key hkey).2
      refine ⟨{ job with out := job.out ++ m.readOutput keys }, ?_, h, rfl, rfl, rfl, rfl⟩
      simp only [Line.command, execute, hread, ok_bind, pure_eq_ok]
  | Delete keys =>
      obtain ⟨ht', hdelete, h'⟩ := h.kvsDelete fun key hkey => (hline.2 key hkey).2
      set deleted : Job := { job with
        ht := ht'
        out := job.out ++ m.deleteOutput keys
        sent := job.sent ++ [] } with hdeleted
      refine ⟨deleted, ?_, h', rfl, rfl, rfl, List.append_nil _⟩
      simp only [Line.command, execute, hdelete, ok_bind, pure_eq_ok, hdeleted]
  | Show =>
      refine ⟨{ job with out := job.out ++ m.showOutput }, ?_, h, rfl, rfl, rfl, rfl⟩
      simp only [Line.command, execute, h.kvsShow, pure_eq_ok]
  | Backup =>
      set counted : Job := { job with
        activeBackups :=
          if job.activeBackups ≥ env.maxBackups then job.activeBackups else job.activeBackups + 1
        fileBackups := job.fileBackups + 1 } with hcounted
      obtain ⟨hht, hout, hinput, hcommands, hsent⟩ := kvsBackup_frame env counted
      refine ⟨(counted.kvsBackup env).2, ?_, ?_, ?_, hinput, hcommands, hsent⟩
      · have hstatus := kvsBackup_status env counted
        simp only [Line.command, execute, ← hcounted, if_neg hstatus, pure_eq_ok]
      · rw [hht]
        exact h
      · rw [hout]
        exact (List.append_nil _).symm
  | Wait digits => exact ⟨job, rfl, h, (List.append_nil _).symm, rfl, rfl, rfl⟩
  | Help => exact ⟨job, rfl, h, (List.append_nil _).symm, rfl, rfl, rfl⟩
  | Comment bytes => exact ⟨job, rfl, h, (List.append_nil _).symm, rfl, rfl, rfl⟩
  | Empty => exact ⟨job, rfl, h, (List.append_nil _).symm, rfl, rfl, rfl⟩

/-- The next command of a job in front of a well-formed line. -/
lemma next_line (env : JobEnvironment) {line : Line} (hline : line.WellFormed) {rest : Input}
    (hinput : job.input = line.render ++ rest) :
    job.next env
      = .ok (line.command, { job with input := rest, commands := job.commands ++ [line.command] }) := by
  simp only [next, hinput, readCommand_render hline, ok_bind, pure_eq_ok]

/-- The next command of a job at the end of its file. -/
lemma next_eof (env : JobEnvironment) (hinput : job.input = []) :
    job.next env = .ok (.Eoc, { job with input := [], commands := job.commands ++ [.Eoc] }) := by
  simp only [next, hinput]
  rfl

/-! ## The loop -/

/-- **The loop on a file of well-formed lines**, by induction over the lines: the table holds what
the interpreter arrives at and the output is what it has produced, command by command. -/
lemma runLoop_refines (hmem : ZeroFilled env.mem) {lines : List Line} {job : Job}
    {m : Contents} {fuel : ℕ} (h : job.ht.Holds m) (hlines : ∀ line ∈ lines, line.WellFormed)
    (hinput : job.input = lines.flatMap Line.render) (hfuel : lines.length < fuel) :
    ∃ job', runLoop env fuel job = .ok (0, job') ∧ job'.ht.Holds (interpret m lines).1
      ∧ job'.out = job.out ++ (interpret m lines).2
      ∧ job'.commands = job.commands ++ lines.map Line.command ++ [.Eoc]
      ∧ job'.input = [] ∧ job'.sent = job.sent := by
  induction lines generalizing job m fuel with
  | nil =>
      obtain ⟨fuel, rfl⟩ := Nat.exists_eq_succ_of_ne_zero (Nat.ne_zero_of_lt hfuel)
      refine ⟨{ job with input := [], commands := job.commands ++ [.Eoc] }, ?_, h, ?_, ?_, rfl, rfl⟩
      · simp only [runLoop, next_eof env hinput, ok_bind, execute, pure_eq_ok]
      · exact (List.append_nil _).symm
      · simp
  | cons line lines ih =>
      obtain ⟨fuel, rfl⟩ := Nat.exists_eq_succ_of_ne_zero (Nat.ne_zero_of_lt hfuel)
      have hline := hlines line (by simp)
      have hrest : job.input = line.render ++ lines.flatMap Line.render := hinput
      have hnext := next_line env hline hrest
      set ahead : Job := { job with
        input := lines.flatMap Line.render
        commands := job.commands ++ [line.command] } with hahead
      have hhead : ahead.ht.Holds m := h
      obtain ⟨job₁, hexec, h₁, hout₁, hinput₁, hcommands₁, hsent₁⟩ :=
        execute_refines hmem hhead hline
      obtain ⟨job₂, hloop, h₂, hout₂, hcommands₂, hinput₂, hsent₂⟩ :=
        ih h₁ (fun l hl => hlines l (List.mem_cons_of_mem _ hl)) hinput₁
          (Nat.lt_of_succ_lt_succ hfuel)
      refine ⟨job₂, ?_, h₂, ?_, ?_, hinput₂, hsent₂.trans hsent₁⟩
      · simp only [runLoop, hnext, ok_bind, hexec, hloop]
      · rw [hout₂, hout₁, List.append_assoc]
        rfl
      · rw [hcommands₂, hcommands₁]
        simp [hahead]

/-- A file has at least as many bytes as lines. -/
lemma length_le_render (lines : List Line) :
    lines.length ≤ (lines.flatMap Line.render).length := by
  induction lines with
  | nil => simp
  | cons line lines ih =>
      have hline : 0 < line.render.length := List.length_pos_of_ne_nil line.render_ne_nil
      rw [List.flatMap_cons, List.length_append, List.length_cons]
      omega

end Job

/-! ## Whole jobs -/

/-- The tables that well-formed commands lead to from a new table, each with the map the
interpreter has then. -/
inductive Reached (mem : ℕ → Ptr) : HashTable → Contents → Prop
  | new : Reached mem .createHashTable []
  | command {env : JobEnvironment} {job job' : Job} {m : Contents} {line : Line} :
      Reached mem job.ht m → env.mem = mem → line.WellFormed →
      job.execute env line.command = .ok (none, job') → Reached mem job'.ht (line.interpret m).1

/-- Each key once, in its chain, and no subscribers. -/
lemma Reached.holds {mem : ℕ → Ptr} (hmem : ZeroFilled mem) {ht : HashTable} {m : Contents}
    (h : Reached mem ht m) : ht.Holds m := by
  induction h with
  | new => exact HashTable.holds_createHashTable
  | command _ henv hline hexec ih =>
      subst henv
      obtain ⟨job'', hexec', h', -⟩ := Job.execute_refines hmem ih hline
      obtain rfl := (Prod.mk.inj (Except.ok.inj (hexec.symm.trans hexec'))).2
      exact h'

/-- **A job does what its lines say.**  On a file of well-formed lines, from a table that such
lines have led to, `run_job` executes the command of each line in order, returns 0 at the end of
the file, leaves the table with the contents the interpreter arrives at, and writes to the output
file what the interpreter writes. -/
theorem runJob_refines {env : JobEnvironment} (hmem : ZeroFilled env.mem) {ht : HashTable}
    {m : Contents} (h : Reached env.mem ht m) {lines : List Line}
    (hlines : ∀ line ∈ lines, line.WellFormed) (filename : CString) (activeBackups : ℕ) :
    ∃ job, (Job.start (lines.flatMap Line.render) ht filename activeBackups).runJob env
        = .ok (0, job)
      ∧ job.commands = lines.map Line.command ++ [.Eoc] ∧ job.input = []
      ∧ job.ht.Holds (interpret m lines).1 ∧ job.out = (interpret m lines).2 ∧ job.sent = [] := by
  have hstart : (Job.start (lines.flatMap Line.render) ht filename activeBackups).ht.Holds m :=
    h.holds hmem
  obtain ⟨job, hrun, hholds, hout, hcommands, hinput, hsent⟩ :=
    Job.runLoop_refines hmem hstart hlines rfl (Nat.lt_succ_of_le (Job.length_le_render lines))
  exact ⟨job, hrun, hcommands, hinput, hholds, hout, hsent⟩

/-- An environment in which nothing goes wrong. -/
def calmEnvironment : JobEnvironment where
  mem := fun _ => none
  stale := fun _ => []
  forkFails := fun _ => false
  maxBackups := 1
  jobsDirectory := .lit "jobs"

/-- A job that writes two keys of one chain, waits, asks for a missing key and shows the table. -/
theorem runJob_refines_small :
    ∃ job, (Job.start (text "WRITE [(a,x)(0,y)]\n#note\nWAIT 10\nREAD [a,c]\nDELETE [c]\nSHOW\n")
        .createHashTable (.lit "one.job") 0).runJob calmEnvironment = .ok (0, job)
      ∧ job.out = text "[(a,x)(c,KVSERROR)]\n[(c,KVSMISSING)]\n(0, y)\n(a, x)\n" := by
  have hmem : ZeroFilled calmEnvironment.mem := fun _ => rfl
  have hlines : ∀ line ∈ [Line.Write [(.lit "a", .lit "x"), (.lit "0", .lit "y")],
      .Comment (text "note"), .Wait (text "10"), .Read [.lit "a", .lit "c"], .Delete [.lit "c"],
      .Show], line.WellFormed := by decide +kernel
  obtain ⟨job, hrun, -, -, -, hout, -⟩ := runJob_refines hmem .new hlines (.lit "one.job") 0
  exact ⟨job, hrun, hout.trans (by decide)⟩

end Kvs
