import Kvs.Core.Snapshots
import Kvs.Server.BackupRecords
import Kvs.Server.Serializable

/-!
# Backups among batches

`kvs_backup` calls `fork` with `tablelock` held for reading.  The child has the table as it was at that
moment, and writes it out at leisure; the parent gives the lock back at once.  To the other threads a
backup is therefore a snapshot (`Core/Snapshots.lean`): one step, in which everything is decided that the
backup file will hold.

Without the lock a backup could have come in the middle of a `WRITE` of several pairs, or of the
unlinking of a node.  With it the file shows the table as whole commands have left it, and has the bytes
a `SHOW` in its place would have written (`backups_are_snapshots`).
-/

namespace Kvs

/-- What a job thread does with the table: an operation under the lock, or `none` for a `BACKUP`. -/
abbrev StoreOperation := Option TableCommand

/-- The operations and the backups.  A backup puts out what the child writes to its file, with whatever
its buffer holds at each node. -/
def storeOperations (mem : ℕ → Ptr) (stale : ℕ → AuxBuffer) :
    Commands HashTable StoreOperation (Progress ⊕ Bool) Byte Fault :=
  (tableCommands mem).withSnapshot fun ht => ht.backupWrites stale

/-- The child writes what a `SHOW` does. -/
lemma backupWrites_eq (stale : ℕ → AuxBuffer) (ht : HashTable) :
    ht.backupWrites stale = .ok ht.kvsShow := by
  rw [HashTable.backupWrites, backupLines_eq, List.flatMap_assoc]
  rfl

variable {mem : ℕ → Ptr} {stale : ℕ → AuxBuffer} {ht : HashTable}

/-- **Backups show whole commands.**  Any number of threads execute any operations and backups on one
table.  In every state that an interleaving of their steps reaches there is an order of the finished
ones, consistent with the order of each thread, in which

* an operation finds the table as those before it have left it, when each is executed whole, and writes
  to its output file what it writes there alone;
* a backup finds the table so too, and its file holds the bytes that a `SHOW` prints of it. -/
theorem backups_are_snapshots {ι : Type} [DecidableEq ι] {program : ι → List StoreOperation}
    {s : Threads ι HashTable StoreOperation (Progress ⊕ Bool) Byte}
    (h : Reachable (LockStep (storeOperations mem stale)) (Threads.initial ht program) s) :
    ∃ order ht', (storeOperations mem stale).Serial ht order ht' ∧
      (∀ i, ofThread i order = (s.thread i).done) ∧
      (∀ i, (s.thread i).done.map Prod.fst ++ (s.thread i).running.toList.map Running.command
        ++ (s.thread i).todo = program i) ∧
      (∀ before i c out after, order = before ++ (i, some c, out) :: after →
        ∃ u v, (storeOperations mem stale).Serial ht before u ∧ c.run mem u = .ok (v, out) ∧
          (storeOperations mem stale).Serial v after ht') ∧
      ∀ before i out after, order = before ++ (i, none, out) :: after →
        ∃ u, (storeOperations mem stale).Serial ht before u ∧ out = u.kvsShow ∧
          (storeOperations mem stale).Serial u after ht' := by
  obtain ⟨order, ht', hserial, hfinished, hprogram, -, -⟩ := LockStep.serializable h
  refine ⟨order, ht', hserial, hfinished, hprogram, ?_, ?_⟩
  · rintro before i c out after rfl
    obtain ⟨u, hbefore, v, hwhole, hafter⟩ := hserial.append
    refine ⟨u, v, hbefore, ?_, hafter⟩
    rw [← whole_eq_run]
    exact hwhole
  · rintro before i out after rfl
    obtain ⟨u, hbefore, hout, hafter⟩ := hserial.snapshot
    rw [backupWrites_eq] at hout
    exact ⟨u, hbefore, (Except.ok.inj hout).symm, hafter⟩

/-- Buffers of zeros. -/
def zeroStale (_ : ℕ) : AuxBuffer := ⟨List.replicate maxStringSize 0, rfl⟩

/-- One thread that writes some pairs and deletes a key, and one that makes a backup. -/
def writeAndBackup (pairs : List (Str × Str)) (key : Str) : Bool → List StoreOperation
  | true => [some (.Write pairs), some (.Delete [key])]
  | false => [none]

/-- The `WRITE` and the `BACKUP` are finished, and the `DELETE` has already unlinked its node.  The backup
stands in the order behind a `WRITE`, whole commands have led to the table it was made of, and its file
holds the bytes that a `SHOW` prints of that table: both pairs. -/
theorem backups_are_snapshots_two :
    ∃ (s : Threads Bool HashTable StoreOperation (Progress ⊕ Bool) Byte)
      (before after : List (Bool × StoreOperation × List Byte)) (u ht' : HashTable),
      Reachable (LockStep (storeOperations (fun _ => none) zeroStale))
        (Threads.initial .createHashTable
          (writeAndBackup [(.lit "a", .lit "x"), (.lit "b", .lit "y")] (.lit "a"))) s ∧
      (s.thread true).done = [(some (.Write [(.lit "a", .lit "x"), (.lit "b", .lit "y")]), [])] ∧
      (s.thread true).running = some ⟨some (.Delete [.lit "a"]), .inl (.Deleting false []), []⟩ ∧
      s.shared.kvsShow = text "(b, y)\n" ∧
      (storeOperations (fun _ => none) zeroStale).Serial .createHashTable before u ∧
      text "(a, x)\n(b, y)\n" = u.kvsShow ∧
      (storeOperations (fun _ => none) zeroStale).Serial u after ht' ∧
      ofThread true (before ++ (false, none, text "(a, x)\n(b, y)\n") :: after)
        = [(some (.Write [(.lit "a", .lit "x"), (.lit "b", .lit "y")]), [])] := by
  have hfork : ∀ ht, (storeOperations (fun _ => none) zeroStale).step none ht (.inr false)
      = .ok (some (ht, .inr true, ht.kvsShow)) := by
    intro ht
    simp only [storeOperations, Commands.withSnapshot]
    rw [Commands.snapshotStep_none]
    exact ⟨rfl, rfl, backupWrites_eq zeroStale ht⟩
  have hwrite : Reachable (LockStep (storeOperations (fun _ => none) zeroStale))
      (Threads.initial .createHashTable
          (writeAndBackup [(.lit "a", .lit "x"), (.lit "b", .lit "y")] (.lit "a"))) _ :=
    (Reachable.refl _).tail (.acquire true rfl rfl fun j r hr => absurd hr (by simp [Threads.initial]))
  have hwritten := ((hwrite.tail (.work true rfl rfl)).tail (.work true rfl rfl)).tail
    (.release true rfl rfl)
  have hforking := hwritten.tail (.acquire false rfl rfl fun j r hr => by
    cases j with
    | true => cases hr
    | false => cases hr)
  have hforked := (hforking.tail (.work false rfl (hfork _))).tail (.release false rfl rfl)
  have hdeleting := (hforked.tail (.acquire true rfl rfl fun j r hr => by
    cases j with
    | true => cases hr
    | false => cases hr)).tail (.work true rfl rfl)
  obtain ⟨order, ht', -, hfinished, -, -, hbackups⟩ := backups_are_snapshots hdeleting
  have hbackup : (none, text "(a, x)\n(b, y)\n") ∈ ofThread false order := by
    rw [hfinished false]
    exact List.mem_singleton.mpr rfl
  obtain ⟨before, after, rfl⟩ := exists_split_of_mem_ofThread hbackup
  obtain ⟨u, hbefore, hout, hafter⟩ := hbackups before false _ after rfl
  exact ⟨_, before, after, u, ht', hdeleting, rfl, rfl, rfl, hbefore, hout, hafter, hfinished true⟩

end Kvs
