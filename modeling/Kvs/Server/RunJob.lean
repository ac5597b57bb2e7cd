import Kvs.Server.Operations
import Kvs.Server.Parser

/-!
# Running a job file

`run_job` of `main.c`: get the next command, parse its arguments, execute it, until the end of the
file.  The two halves are separate here.  `readCommand` is everything that moves the offset of the
job file — `get_next` and the parser of the command's arguments — and knows nothing of the store;
`Job.execute` is the rest of the switch and reads nothing.

What the operating system and the other threads contribute is in `JobEnvironment`: the memory
`malloc` hands out, what an uninitialised digit buffer holds, whether a `fork` fails.  Messages to
the terminal are left out.
-/

namespace Kvs

/-! ## Commands with their arguments -/

/-- A command as `run_job` has it once its arguments are parsed.  `Rejected` is the case
`CMD_INVALID` and every case whose parser reports an error: one message, and on to the next
command. -/
inductive JobCommand where
  | Write (pairs : List (Str × Str))
  | Read (keys : List Str)
  | Delete (keys : List Str)
  | Show
  | Wait (delay : ℕ)
  | Backup
  | Help
  | Empty
  | Rejected
  | Eoc
  deriving DecidableEq

/-- A list command, rejected when its parser returns no items. -/
def unlessEmpty {α : Type} (command : List α → JobCommand) : List α → JobCommand
  | [] => .Rejected
  | items => command items

section UnlessEmpty

variable {α : Type} {items : List α}

lemma unlessEmpty_of_ne_nil (command : List α → JobCommand) (h : items ≠ []) :
    unlessEmpty command items = command items := by
  cases items with
  | nil => exact absurd rfl h
  | cons item items => rfl

lemma unlessEmpty_eq {command : List α → JobCommand} {result : JobCommand}
    (hresult : result ≠ .Rejected) (h : unlessEmpty command items = result) :
    items ≠ [] ∧ command items = result := by
  cases items with
  | nil => exact absurd h.symm hresult
  | cons item items => exact ⟨by simp, h⟩

lemma eq_nil_of_unlessEmpty {command : List α → JobCommand}
    (hcommand : ∀ items, command items ≠ .Rejected) (h : unlessEmpty command items = .Rejected) :
    items = [] := by
  by_contra hitems
  rw [unlessEmpty_of_ne_nil command hitems] at h
  exact hcommand items h

end UnlessEmpty

/-- `get_next` and the parser its result selects. -/
def readCommand (stale : List Byte) (input : Input) : Except Fault (JobCommand × Input) :=
  match getNext input with
  | (.CmdWrite, input) => do
      let (pairs, input) ← parseWrite maxWriteSize input
      pure (unlessEmpty .Write pairs, input)
  | (.CmdRead, input) => do
      let (keys, input) ← parseReadDelete maxWriteSize input
      pure (unlessEmpty .Read keys, input)
  | (.CmdDelete, input) => do
      let (keys, input) ← parseReadDelete maxWriteSize input
      pure (unlessEmpty .Delete keys, input)
  | (.CmdShow, input) => pure (.Show, input)
  | (.CmdWait, input) => do
      let (status, delay, _, input) ← parseWait stale stale false input
      pure (if status = -1 then .Rejected else .Wait (delay.getD 0), input)
  | (.CmdBackup, input) => pure (.Backup, input)
  | (.CmdHelp, input) => pure (.Help, input)
  | (.CmdEmpty, input) => pure (.Empty, input)
  | (.CmdInvalid, input) => pure (.Rejected, input)
  | (.Eoc, input) => pure (.Eoc, input)

/-! ## The switch -/

/-- A backup file and what the child process writes to it. -/
structure BackupFile where
  name : List Byte
  contents : List Byte

/-- What a job finds and cannot influence. -/
structure JobEnvironment where
  mem : ℕ → Ptr
  stale : ℕ → List Byte
  forkFails : ℕ → Bool
  maxBackups : ℕ
  jobsDirectory : CString

/-- The state of a job: the input still to be read, the store, what it has written to the output
file, to the subscribers and to backup files, its counters, and the commands it has been through. -/
structure Job where
  input : Input
  ht : HashTable
  out : List Byte
  sent : List Notification
  backups : List BackupFile
  filename : CString
  fileBackups : ℕ
  activeBackups : ℕ
  commands : List JobCommand

namespace Job

/-- A job about to start on an open input file. -/
def start (input : Input) (ht : HashTable) (filename : CString) (activeBackups : ℕ) : Job where
  input := input
  ht := ht
  out := []
  sent := []
  backups := []
  filename := filename
  fileBackups := 0
  activeBackups := activeBackups
  commands := []

/-- `kvs_backup`, the parent's side and the child's: -1 when the `fork` fails.  `strtok` leaves its
mark on the job name. -/
def kvsBackup (env : JobEnvironment) (job : Job) : ℤ × Job :=
  let file : BackupFile :=
    { name := backupName env.jobsDirectory job.filename job.fileBackups
      contents := job.ht.backupBytes }
  let job := { job with filename := strtokRest job.filename }
  if env.forkFails job.fileBackups then (-1, job)
  else (0, { job with backups := job.backups ++ [file] })

/-- One pass of the switch: the status `run_job` returns, unless it goes round again.  At the limit
a backup waits for an earlier child and takes over its place in the count. -/
def execute (env : JobEnvironment) (job : Job) :
    JobCommand → Except Fault (Option ℤ × Job)
  | .Write pairs => do
      let (ht, sent) ← job.ht.kvsWrite env.mem pairs
      pure (none, { job with ht := ht, sent := job.sent ++ sent })
  | .Read keys => do
      let out ← job.ht.kvsRead keys
      pure (none, { job with out := job.out ++ out })
  | .Delete keys => do
      let (ht, out, sent) ← job.ht.kvsDelete keys
      pure (none, { job with ht := ht, out := job.out ++ out, sent := job.sent ++ sent })
  | .Show => pure (none, { job with out := job.out ++ job.ht.kvsShow })
  | .Wait _ => pure (none, job)
  | .Backup =>
      let activeBackups :=
        if job.activeBackups ≥ env.maxBackups then job.activeBackups else job.activeBackups + 1
      let (aux, job) := kvsBackup env
        { job with activeBackups := activeBackups, fileBackups := job.fileBackups + 1 }
      pure (if aux = 1 then some 1 else none, job)
  | .Help => pure (none, job)
  | .Empty => pure (none, job)
  | .Rejected => pure (none, job)
  | .Eoc => pure (some 0, job)

/-- The next command read, and entered in the list of commands. -/
def next (env : JobEnvironment) (job : Job) : Except Fault (JobCommand × Job) := do
  let (command, input) ← readCommand (env.stale job.commands.length) job.input
  pure (command, { job with input := input, commands := job.commands ++ [command] })

/-- `while (1)` of `run_job`. -/
def runLoop (env : JobEnvironment) : ℕ → Job → Except Fault (ℤ × Job)
  | 0, _ => .error .diverged
  | fuel + 1, job => do
      let (command, job) ← job.next env
      let (status, job) ← job.execute env command
      match status with
      | some status => pure (status, job)
      | none => runLoop env fuel job

/-- `run_job`.  Every command but the last takes a byte of the file at least, so the loop goes
round no more often than the file has bytes, and once more. -/
def runJob (env : JobEnvironment) (job : Job) : Except Fault (ℤ × Job) :=
  runLoop env (job.input.length + 1) job

/-! ## What a command leaves alone -/

variable {env : JobEnvironment} {job job' : Job}

lemma next_eq_ok {command : JobCommand} (h : job.next env = .ok (command, job')) :
    readCommand (env.stale job.commands.length) job.input = .ok (command, job'.input) := by
  obtain ⟨⟨command', input⟩, hread, h⟩ := by simpa only [next, bind_eq_ok] using h
  obtain ⟨rfl, rfl⟩ : command' = command ∧ _ = job' := by simpa using h
  exact hread

/-- Executing a command reads nothing, and only a backup counts as one. -/
lemma execute_frame {command : JobCommand} {status : Option ℤ}
    (h : job.execute env command = .ok (status, job')) :
    job'.input = job.input ∧ (command ≠ .Backup → job'.filename = job.filename ∧
      job'.fileBackups = job.fileBackups ∧ job'.backups = job.backups) := by
  cases command with
  | Write pairs =>
      obtain ⟨⟨ht, sent⟩, -, h⟩ := by simpa only [execute, bind_eq_ok] using h
      obtain ⟨-, rfl⟩ : _ ∧ _ = job' := by simpa using h
      exact ⟨rfl, fun _ => ⟨rfl, rfl, rfl⟩⟩
  | Read keys =>
      obtain ⟨out, -, h⟩ := by simpa only [execute, bind_eq_ok] using h
      obtain ⟨-, rfl⟩ : _ ∧ _ = job' := by simpa using h
      exact ⟨rfl, fun _ => ⟨rfl, rfl, rfl⟩⟩
  | Delete keys =>
      obtain ⟨⟨ht, out, sent⟩, -, h⟩ := by simpa only [execute, bind_eq_ok] using h
      obtain ⟨-, rfl⟩ : _ ∧ _ = job' := by simpa using h
      exact ⟨rfl, fun _ => ⟨rfl, rfl, rfl⟩⟩
  | Backup =>
      obtain ⟨-, rfl⟩ : _ ∧ _ = job' := by simpa only [execute, pure_eq_ok, Except.ok.injEq,
        Prod.mk.injEq] using h
      refine ⟨?_, fun hbackup => absurd rfl hbackup⟩
      rw [kvsBackup]
      split_ifs <;> rfl
  | Show | Wait | Help | Empty | Rejected | Eoc =>
      obtain ⟨-, rfl⟩ : _ ∧ _ = job' := by simpa [execute] using h
      exact ⟨rfl, fun _ => ⟨rfl, rfl, rfl⟩⟩

end Job

end Kvs
