import Kvs.Server.Backup

/-!
# Before the first session

When the job threads are joined, `main` calls `wait` once for each backup in `active_backups`, and then
goes on to create the managers.  The counter is not the number of children: a failed `fork` leaves it
too high, and a `wait` that found no child leaves it where it was.  What is needed is that it is never
too low, while `main` counts it down as well as before.

* `children_le_activeBackups` — so it is, in covered runs.
* `backups_complete` — so `main` does not get stuck in its loop, leaves it, and no backup is still being
  written when it does.
-/

namespace Kvs

variable {ι : Type} {maxBackups : ℕ} {s s' : BackupState ι}

/-! ## When the threads are joined -/

/-- No promises are left. -/
lemma BackupState.promised_of_done [Fintype ι] (hdone : ∀ i, s.pc i = .Done) : s.promised = 0 := by
  refine Finset.sum_eq_zero fun i _ => ?_
  rw [hdone i]
  rfl

/-- What is still to come: terminations and waits. -/
def BackupState.remaining (s : BackupState ι) : ℕ := s.running + s.activeBackups

variable [DecidableEq ι]

/-- What happens: a child ends, or `main` waits. -/
lemma BackupStep.cases_of_done {action : BackupAction ι} (hdone : ∀ i, s.pc i = .Done)
    (hstep : BackupStep maxBackups action s s') : s'.pc = s.pc ∧
      ((0 < s.running ∧ s'.running = s.running - 1 ∧ s'.terminated = s.terminated + 1 ∧
          s'.activeBackups = s.activeBackups) ∨
        (0 < s.activeBackups ∧ 0 < s.terminated ∧ s'.running = s.running ∧
          s'.terminated = s.terminated - 1 ∧ s'.activeBackups = s.activeBackups - 1) ∨
        (0 < s.activeBackups ∧ s.children = 0 ∧ s'.running = s.running ∧
          s'.terminated = s.terminated ∧ s'.activeBackups = s.activeBackups - 1)) := by
  have hno : ∀ {i : ι} {pc : BackupPc}, pc ≠ .Done → s.pc i ≠ pc := by
    intro i pc hpc heq
    exact hpc (heq.symm.trans (hdone i))
  cases hstep with
  | count i hpc => exact absurd hpc (hno (by decide))
  | limit i hpc => exact absurd hpc (hno (by decide))
  | reap i hpc => exact absurd hpc (hno (by decide))
  | waitInVain i hpc => exact absurd hpc (hno (by decide))
  | fork i hpc => exact absurd hpc (hno (by decide))
  | forkFails i hpc => exact absurd hpc (hno (by decide))
  | finish i hpc => exact absurd hpc (hno (by decide))
  | terminate hpos => exact ⟨rfl, Or.inl ⟨hpos, rfl, rfl, rfl⟩⟩
  | drain _ hpos hzombie => exact ⟨rfl, Or.inr (Or.inl ⟨hpos, hzombie, rfl, rfl, rfl⟩)⟩
  | drainInVain _ hpos hnone => exact ⟨rfl, Or.inr (Or.inr ⟨hpos, hnone, rfl, rfl, rfl⟩)⟩

/-- Each step leaves less of it. -/
lemma remaining_lt (hdone : ∀ i, s.pc i = .Done) (hstep : AnyBackupStep maxBackups s s') :
    (∀ i, s'.pc i = .Done) ∧ s'.remaining < s.remaining := by
  obtain ⟨action, hstep⟩ := hstep
  obtain ⟨hpc, hcases⟩ := hstep.cases_of_done hdone
  refine ⟨fun i => by rw [hpc, hdone i], ?_⟩
  simp only [BackupState.remaining]
  omega

/-- `main` is not kept waiting for a child that does not come. -/
lemma exists_step_of_activeBackups (hdone : ∀ i, s.pc i = .Done) (hpos : 0 < s.activeBackups) :
    ∃ s', AnyBackupStep maxBackups s s' := by
  rcases Nat.eq_zero_or_pos s.children with hnone | hsome
  · exact ⟨_, .DrainInVain, .drainInVain hdone hpos hnone⟩
  · rcases Nat.eq_zero_or_pos s.terminated with hzombie | hzombie
    · have hrunning : 0 < s.running := by
        simp only [BackupState.children] at hsome
        omega
      exact ⟨_, .Terminate, .terminate hrunning⟩
    · exact ⟨_, .Drain, .drain hdone hpos hzombie⟩

variable [Fintype ι]

/-- A run from there is covered: nobody is in front of the `wait` of a job any more. -/
lemma covered_of_done {init : BackupState ι} {n : ℕ}
    (h : Reachable (CoveredBackupStep maxBackups) init s) (hdone : ∀ i, s.pc i = .Done)
    (hrun : RunOf (AnyBackupStep maxBackups) n s s') :
    (∀ i, s'.pc i = .Done) ∧ n + s'.remaining ≤ s.remaining ∧
      Reachable (CoveredBackupStep maxBackups) init s' := by
  induction hrun with
  | refl s => exact ⟨hdone, le_of_eq (Nat.zero_add _), h⟩
  | tail _ hlast ih =>
      obtain ⟨hdone₁, hle, hreach⟩ := ih h hdone
      obtain ⟨hdone₂, hlt⟩ := remaining_lt hdone₁ hlast
      refine ⟨hdone₂, by omega, ?_⟩
      obtain ⟨action, hstep⟩ := hlast
      refine hreach.tail ⟨action, hstep, ?_⟩
      cases hstep with
      | waitInVain i hpc => exact absurd ((hdone₁ i).symm.trans hpc) (by decide)
      | _ => trivial

/-! ## The counter -/

/-- **The counter is never too low** in a covered run, also while `main` counts it down: a `wait` of
`main` takes a child with it, or there is none to take. -/
lemma children_le_activeBackups (h : Reachable (CoveredBackupStep maxBackups) .initial s) :
    s.Within maxBackups ∧ s.children + s.promised ≤ s.activeBackups := by
  refine h.invariant (fun s => s.Within maxBackups ∧ s.children + s.promised ≤ s.activeBackups)
    ⟨.initial, ?_⟩ ?_
  · have hnone : (BackupState.initial : BackupState ι).promised = 0 := threadCount_const_false rfl
    rw [hnone]
    exact le_rfl
  · rintro s s' ⟨hwithin, hcovers⟩ hstep
    have hwithin' := hwithin.step hstep
    refine ⟨hwithin', ?_⟩
    by_cases hrunning : ∃ i, s'.pc i ≠ .Done
    · exact hwithin'.covers hrunning
    · have hdone' : ∀ i, s'.pc i = .Done := by simpa using hrunning
      rw [BackupState.promised_of_done hdone', Nat.add_zero]
      by_cases hdone : ∀ i, s.pc i = .Done
      · -- `main` is counting down
        rw [BackupState.promised_of_done hdone, Nat.add_zero] at hcovers
        obtain ⟨action, hstep, -⟩ := hstep
        obtain ⟨-, hcases⟩ := hstep.cases_of_done hdone
        simp only [BackupState.children] at hcovers hcases ⊢
        omega
      · -- the last thread has just been joined
        obtain ⟨action, hstep, -⟩ := hstep
        cases hstep with
        | finish i =>
            simp only [BackupState.children] at hcovers ⊢
            omega
        | count i => exact absurd (hdone' i) (by simp [BackupState.moveTo])
        | limit i => exact absurd (hdone' i) (by simp [BackupState.moveTo])
        | reap i => exact absurd (hdone' i) (by simp [BackupState.moveTo])
        | waitInVain i => exact absurd (hdone' i) (by simp [BackupState.moveTo])
        | fork i => exact absurd (hdone' i) (by simp [BackupState.moveTo])
        | forkFails i => exact absurd (hdone' i) (by simp [BackupState.moveTo])
        | terminate => exact absurd hdone' hdone
        | drain hall => exact absurd hall hdone
        | drainInVain hall => exact absurd hall hdone

/-- **The backups are complete before the first session.**  After any covered run that ends with all job
threads joined, whatever happens next takes no more steps than there are children running and backups
counted; as long as the counter is not at zero there is a next step; and once it is, no child is left. -/
theorem backups_complete (h : Reachable (CoveredBackupStep maxBackups) .initial s)
    (hdone : ∀ i, s.pc i = .Done) {n : ℕ} (hrun : RunOf (AnyBackupStep maxBackups) n s s') :
    n ≤ s.running + s.activeBackups ∧
      (0 < s'.activeBackups → ∃ s'', AnyBackupStep maxBackups s' s'') ∧
      (s'.activeBackups = 0 → s'.running = 0 ∧ s'.terminated = 0) := by
  obtain ⟨hdone', hle, hreach⟩ := covered_of_done h hdone hrun
  obtain ⟨-, hcovers⟩ := children_le_activeBackups hreach
  refine ⟨?_, exists_step_of_activeBackups hdone', fun hzero => ?_⟩
  · simp only [BackupState.remaining] at hle
    omega
  · simp only [BackupState.children] at hcovers
    omega

/-- A thread makes one backup and is joined; the child ends and `main` waits for it. -/
theorem backups_complete_one : ∃ s s' : BackupState Unit, s.running = 1 ∧ s.activeBackups = 1 ∧
    RunOf (AnyBackupStep 1) 2 s s' ∧ s'.running = 0 ∧ s'.terminated = 0 := by
  let joined : BackupState Unit := ⟨1, none, fun _ => .Done, 1, 0⟩
  have hreach : Reachable (CoveredBackupStep 1) .initial joined := by
    have hcount := (Reachable.refl (BackupState.initial : BackupState Unit)).tail
      (show CoveredBackupStep 1 _ _ from ⟨_, .count () rfl rfl (by decide), trivial⟩)
    have hfork := hcount.tail ⟨_, .fork () rfl, trivial⟩
    exact hfork.tail ⟨_, .finish () rfl, trivial⟩
  have hended : AnyBackupStep 1 joined ⟨1, none, fun _ => .Done, 0, 1⟩ :=
    ⟨_, .terminate (show 0 < 1 by decide)⟩
  have hwaited : AnyBackupStep 1 (⟨1, none, fun _ => .Done, 0, 1⟩ : BackupState Unit)
      ⟨0, none, fun _ => .Done, 0, 0⟩ :=
    ⟨_, .drain (fun _ => rfl) (show 0 < 1 by decide) (show 0 < 1 by decide)⟩
  have hrun := ((RunOf.refl joined).tail hended).tail hwaited
  exact ⟨joined, _, rfl, rfl, hrun, (backups_complete hreach (fun _ => rfl) hrun).2.2 rfl⟩

end Kvs
