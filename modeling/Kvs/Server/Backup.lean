import Kvs.Core.Threads
import Mathlib.Data.Fintype.Card
import Mathlib.Tactic.Common

/-!
# How many backups run at once

`BACKUP` (`run_job`, `kvs_backup`) counts in `active_backups` under a lock and forks after releasing
it.  Below `max_backups` it raises the counter; at the limit it leaves the counter and calls
`wait(NULL)` instead, so that the child reaped there makes room for the one to come.  Nothing else
lowers the counter before the jobs are done, and then `main` waits once for each of it.

That `wait` reaps a child is assumed and not checked.  Called when the process has no child it
returns at once, and the thread goes on to fork as if there were room — which there is not, if all
of it has been promised to threads that have counted and not forked yet.  `BackupAction.Covered`
says that this does not happen in a step; runs of covered steps keep the limit
(`backups_within_limit`), and from any other the limit can be exceeded
(`uncovered_exceeds_limit`).
-/

namespace Kvs

/-- A job thread as far as `BACKUP` is concerned: elsewhere in its job, inside the critical section
in front of `wait`, about to fork, or joined. -/
inductive BackupPc where
  | Idle
  | Waiting
  | Forking
  | Done
  deriving DecidableEq

/-- Between the critical section and the fork. -/
def BackupPc.forking : BackupPc → Bool
  | Forking => true
  | _ => false

/-- The counter, its lock, where the threads are, and the children: running, or terminated and not
reaped. -/
structure BackupState (ι : Type) where
  activeBackups : ℕ
  lock : Option ι
  pc : ι → BackupPc
  running : ℕ
  terminated : ℕ

/-- What can happen next. -/
inductive BackupAction (ι : Type) where
  | Count (i : ι)
  | Limit (i : ι)
  | Reap (i : ι)
  | WaitInVain (i : ι)
  | Fork (i : ι)
  | ForkFails (i : ι)
  | Finish (i : ι)
  | Terminate
  | Drain
  | DrainInVain

namespace BackupState

variable {ι : Type}

/-- Children that have been forked and not reaped. -/
def children (s : BackupState ι) : ℕ := s.running + s.terminated

/-- Threads that have counted, or waited, and not forked. -/
def promised [Fintype ι] (s : BackupState ι) : ℕ := threadCount BackupPc.forking s.pc

/-- Before any command. -/
def initial : BackupState ι where
  activeBackups := 0
  lock := none
  pc := fun _ => .Idle
  running := 0
  terminated := 0

/-- A thread at its next program point. -/
def moveTo [DecidableEq ι] (s : BackupState ι) (i : ι) (pc : BackupPc) : ι → BackupPc :=
  Function.update s.pc i pc

end BackupState

section Threads

variable {ι : Type}

/-- One step: the critical section below the limit, the critical section at the limit up to `wait`,
the return of `wait` with a child or without one, the fork and its failure, the end of a thread, the
end of a child, and the two ways `wait` returns in `main`, which has joined the threads by then. -/
inductive BackupStep [DecidableEq ι] (maxBackups : ℕ) :
    BackupAction ι → BackupState ι → BackupState ι → Prop
  | count {s} (i : ι) : s.pc i = .Idle → s.lock = none → s.activeBackups < maxBackups →
      BackupStep maxBackups (.Count i) s
        { s with activeBackups := s.activeBackups + 1, pc := s.moveTo i .Forking }
  | limit {s} (i : ι) : s.pc i = .Idle → s.lock = none → maxBackups ≤ s.activeBackups →
      BackupStep maxBackups (.Limit i) s { s with lock := some i, pc := s.moveTo i .Waiting }
  | reap {s} (i : ι) : s.pc i = .Waiting → 0 < s.terminated →
      BackupStep maxBackups (.Reap i) s
        { s with lock := none, pc := s.moveTo i .Forking, terminated := s.terminated - 1 }
  | waitInVain {s} (i : ι) : s.pc i = .Waiting → s.children = 0 →
      BackupStep maxBackups (.WaitInVain i) s { s with lock := none, pc := s.moveTo i .Forking }
  | fork {s} (i : ι) : s.pc i = .Forking →
      BackupStep maxBackups (.Fork i) s { s with pc := s.moveTo i .Idle, running := s.running + 1 }
  | forkFails {s} (i : ι) : s.pc i = .Forking →
      BackupStep maxBackups (.ForkFails i) s { s with pc := s.moveTo i .Idle }
  | finish {s} (i : ι) : s.pc i = .Idle →
      BackupStep maxBackups (.Finish i) s { s with pc := s.moveTo i .Done }
  | terminate {s} : 0 < s.running →
      BackupStep maxBackups .Terminate s
        { s with running := s.running - 1, terminated := s.terminated + 1 }
  | drain {s} : (∀ i, s.pc i = .Done) → 0 < s.activeBackups → 0 < s.terminated →
      BackupStep maxBackups .Drain s
        { s with activeBackups := s.activeBackups - 1, terminated := s.terminated - 1 }
  | drainInVain {s} : (∀ i, s.pc i = .Done) → 0 < s.activeBackups → s.children = 0 →
      BackupStep maxBackups .DrainInVain s { s with activeBackups := s.activeBackups - 1 }

/-- A step of any kind. -/
def AnyBackupStep [DecidableEq ι] (maxBackups : ℕ) (s s' : BackupState ι) : Prop :=
  ∃ action, BackupStep maxBackups action s s'

/-- When `wait` returns without a child to a job thread, not all the room is promised already. -/
def BackupAction.Covered [Fintype ι] (maxBackups : ℕ) (s : BackupState ι) : BackupAction ι → Prop
  | WaitInVain _ => s.promised < maxBackups
  | _ => True

/-- A covered step. -/
def CoveredBackupStep [Fintype ι] [DecidableEq ι] (maxBackups : ℕ) (s s' : BackupState ι) : Prop :=
  ∃ action, BackupStep maxBackups action s s' ∧ action.Covered maxBackups s

/-! ## The limit -/

variable [Fintype ι]

/-- Children and promises fit the limit, and until the threads are joined the counter covers
them. -/
structure BackupState.Within (maxBackups : ℕ) (s : BackupState ι) : Prop where
  limit : s.children + s.promised ≤ maxBackups
  counter : s.activeBackups ≤ maxBackups
  covers : (∃ i, s.pc i ≠ .Done) → s.children + s.promised ≤ s.activeBackups
  waiting : ∀ i, s.pc i = .Waiting → s.activeBackups = maxBackups

namespace BackupState.Within

variable {maxBackups : ℕ} {s s' : BackupState ι}

lemma initial : (BackupState.initial : BackupState ι).Within maxBackups := by
  have hnone : (BackupState.initial : BackupState ι).promised = 0 := threadCount_const_false rfl
  refine ⟨?_, Nat.zero_le _, fun _ => ?_, fun i hi => ?_⟩
  · rw [hnone]
    exact Nat.zero_le _
  · rw [hnone]
    exact le_rfl
  · exact absurd hi (by simp [BackupState.initial])

variable [DecidableEq ι]

/-- What a thread's move does to the promises. -/
lemma promised_moveTo {i : ι} {pc : BackupPc} (hpc : s.pc i = pc) (pc' : BackupPc) :
    threadCount BackupPc.forking (s.moveTo i pc') + pc.forking.toNat
      = s.promised + pc'.forking.toNat := by
  subst hpc
  exact threadCount_update _ _ _ _

/-- A thread moves on: at the limit if it is to wait there. -/
lemma waiting_moveTo (h : s.Within maxBackups) {i : ι} {pc : BackupPc}
    (hwaits : pc = .Waiting → s.activeBackups = maxBackups) (j : ι)
    (hj : s.moveTo i pc j = .Waiting) : s.activeBackups = maxBackups := by
  by_cases hji : j = i
  · rw [hji, moveTo, Function.update_self] at hj
    exact hwaits hj
  · rw [moveTo, Function.update_of_ne hji] at hj
    exact h.waiting j hj

/-- A thread moves on, the counter stays, and children and promises together become no more. -/
lemma move (h : s.Within maxBackups) {i : ι} {pc pc' : BackupPc} (hpc : s.pc i = pc)
    (hdone : pc ≠ .Done) (hmoved : s'.pc = s.moveTo i pc')
    (hcounter : s'.activeBackups = s.activeBackups)
    (hbalance : s'.children + pc'.forking.toNat ≤ s.children + pc.forking.toNat)
    (hwaits : pc' = .Waiting → s.activeBackups = maxBackups) : s'.Within maxBackups := by
  have hmove : s'.promised + pc.forking.toNat = s.promised + pc'.forking.toNat := by
    rw [promised, hmoved]
    exact promised_moveTo hpc pc'
  have hlimit := h.limit
  have hcovers := h.covers ⟨i, by rwa [hpc]⟩
  constructor
  · omega
  · rw [hcounter]
    exact h.counter
  · intro _
    omega
  · intro j hj
    rw [hmoved] at hj
    rw [hcounter]
    exact h.waiting_moveTo hwaits j hj

/-- **Every covered step keeps within the limit.** -/
theorem step (h : s.Within maxBackups) (hstep : CoveredBackupStep maxBackups s s') :
    s'.Within maxBackups := by
  have hlimit := h.limit
  have hcounter := h.counter
  obtain ⟨action, hstep, hcovered⟩ := hstep
  cases hstep with
  | count i hpc hlock hlt =>
      -- the promise is counted
      have hle := h.covers ⟨i, by rw [hpc]; decide⟩
      have hmove := promised_moveTo hpc .Forking
      simp only [BackupPc.forking, Bool.toNat_false, Bool.toNat_true] at hmove
      simp only [children, promised] at hle hmove
      refine ⟨?_, hlt, ?_, ?_⟩
      · simp only [children, promised]
        omega
      · intro _
        simp only [children, promised]
        omega
      · intro j hj
        have hwaits : s.moveTo i .Forking j = .Waiting := hj
        exact absurd (h.waiting_moveTo (by simp) j hwaits) hlt.ne
  | limit i hpc hlock hle =>
      exact h.move hpc (by decide) rfl rfl le_rfl fun _ => le_antisymm hcounter hle
  | reap i hpc hpos =>
      -- the child reaped makes room for the promise
      refine h.move hpc (by decide) rfl rfl ?_ nofun
      simp only [children, BackupPc.forking, Bool.toNat_false, Bool.toNat_true]
      omega
  | waitInVain i hpc hnone =>
      -- no child, so all of the room below the limit is for promises
      have hroom : s.promised < maxBackups := hcovered
      have hactive := h.waiting i hpc
      have hmove := promised_moveTo hpc .Forking
      simp only [BackupPc.forking, Bool.toNat_false, Bool.toNat_true] at hmove
      simp only [children, promised] at hnone hroom hmove
      refine ⟨?_, hcounter, ?_, h.waiting_moveTo nofun⟩
      · simp only [children, promised]
        omega
      · intro _
        simp only [children, promised]
        omega
  | fork i hpc =>
      -- the promise becomes a child
      refine h.move hpc (by decide) rfl rfl ?_ nofun
      simp only [children, BackupPc.forking, Bool.toNat_false, Bool.toNat_true]
      omega
  | forkFails i hpc => exact h.move hpc (by decide) rfl rfl (Nat.le_succ _) nofun
  | finish i hpc => exact h.move hpc (by decide) rfl rfl le_rfl nofun
  | terminate hpos =>
      have hsame : s.running - 1 + (s.terminated + 1) = s.children := by
        simp only [children]
        omega
      refine ⟨?_, hcounter, ?_, h.waiting⟩
      · rw [children, hsame]
        exact hlimit
      · intro hrunning
        rw [children, hsame]
        exact h.covers hrunning
  | drain hdone hpos hzombie =>
      refine ⟨?_, (Nat.sub_le _ _).trans hcounter, ?_, ?_⟩
      · simp only [children, promised] at hlimit ⊢
        omega
      · rintro ⟨i, hi⟩
        exact absurd (hdone i) hi
      · intro i hi
        exact absurd ((hdone i).symm.trans hi) (by decide)
  | drainInVain hdone hpos hnone =>
      refine ⟨hlimit, (Nat.sub_le _ _).trans hcounter, ?_, ?_⟩
      · rintro ⟨i, hi⟩
        exact absurd (hdone i) hi
      · intro i hi
        exact absurd ((hdone i).symm.trans hi) (by decide)

end BackupState.Within

variable [DecidableEq ι]

/-- **Covered runs keep the limit.**  For any number of job threads and in any interleaving of their
steps with the terminations of children, if every `wait` that a job thread makes in vain finds fewer
than `max_backups` threads on their way to a fork, there are never more than `max_backups` children
that have been forked and not reaped. -/
theorem backups_within_limit {maxBackups : ℕ} {s : BackupState ι}
    (h : Reachable (CoveredBackupStep maxBackups) .initial s) : s.children ≤ maxBackups := by
  have hwithin : s.Within maxBackups :=
    h.invariant (BackupState.Within maxBackups) .initial fun _ _ hwithin hstep => hwithin.step hstep
  have hlimit := hwithin.limit
  omega

/-! ## Beyond it -/

/-- Every promise can be kept: there is a run in which the threads about to fork all do. -/
lemma exists_run_all_fork (maxBackups : ℕ) {n : ℕ} {s : BackupState ι} (hn : s.promised = n) :
    ∃ s', Reachable (AnyBackupStep maxBackups) s s' ∧ s'.children = s.children + n := by
  induction n generalizing s with
  | zero => exact ⟨s, .refl s, rfl⟩
  | succ n ih =>
      obtain ⟨i, hi⟩ : ∃ i, s.pc i = .Forking := by
        by_contra hno
        have hzero : s.promised = 0 := by
          refine Finset.sum_eq_zero fun i _ => ?_
          cases hpc : s.pc i with
          | Forking => exact absurd ⟨i, hpc⟩ hno
          | Idle | Waiting | Done => rfl
        omega
      have hmove := BackupState.Within.promised_moveTo hi .Idle
      simp only [BackupPc.forking, Bool.toNat_false, Bool.toNat_true] at hmove
      set next : BackupState ι := { s with pc := s.moveTo i .Idle, running := s.running + 1 } with hnext
      have hpromised : next.promised = n := by
        simp only [BackupState.promised, hnext] at hmove hn ⊢
        omega
      obtain ⟨s', hrun, hchildren⟩ := ih hpromised
      refine ⟨s', Relation.ReflTransGen.head ⟨.Fork i, .fork i hi⟩ hrun, ?_⟩
      rw [hchildren]
      simp only [BackupState.children, hnext]
      omega

/-- **A single uncovered step can break the limit**: from the state behind it some run leads to more
than `max_backups` children. -/
theorem uncovered_exceeds_limit {maxBackups : ℕ} {s s' : BackupState ι} {action : BackupAction ι}
    (hstep : BackupStep maxBackups action s s') (huncovered : ¬ action.Covered maxBackups s) :
    ∃ s'', Reachable (AnyBackupStep maxBackups) s' s'' ∧ maxBackups < s''.children := by
  cases hstep with
  | waitInVain i hpc hnone =>
      have hall : ¬ s.promised < maxBackups := huncovered
      have hmove := BackupState.Within.promised_moveTo hpc .Forking
      simp only [BackupPc.forking, Bool.toNat_false, Bool.toNat_true] at hmove
      obtain ⟨s'', hrun, hchildren⟩ := exists_run_all_fork maxBackups
        (s := { s with lock := none, pc := s.moveTo i .Forking }) rfl
      refine ⟨s'', hrun, ?_⟩
      rw [hchildren]
      simp only [BackupState.promised] at hmove hall ⊢
      omega
  | count | limit | reap | fork | forkFails | finish | terminate | drain | drainInVain =>
      exact absurd trivial huncovered

end Threads

/-- Two threads and room for two backups: both count, both fork, a child ends and is reaped by a
third command. -/
theorem backups_within_limit_two :
    ∃ s : BackupState (Fin 2), s.running = 1 ∧ s.activeBackups = 2 ∧ s.children ≤ 2 := by
  have hreach : Reachable (CoveredBackupStep 2) (BackupState.initial : BackupState (Fin 2)) _ :=
    (((((((Reachable.refl _).tail ⟨_, .count 0 rfl rfl (by decide), trivial⟩).tail
      ⟨_, .count 1 rfl rfl (by decide), trivial⟩).tail ⟨_, .fork 0 rfl, trivial⟩).tail
      ⟨_, .fork 1 rfl, trivial⟩).tail ⟨_, .limit 0 rfl rfl (by decide), trivial⟩).tail
      ⟨_, .terminate (by decide), trivial⟩).tail ⟨_, .reap 0 rfl (by decide), trivial⟩
  exact ⟨_, rfl, rfl, backups_within_limit hreach⟩

/-- Room for one backup and two threads: the first counts, the second finds the limit reached and
waits for a child that has not been forked yet, and then both fork. -/
theorem backups_exceed_limit :
    ¬ ∀ (maxBackups n : ℕ) (s : BackupState (Fin n)), 1 ≤ maxBackups →
        Reachable (AnyBackupStep maxBackups) .initial s → s.children ≤ maxBackups := by
  intro h
  have hreach : Reachable (AnyBackupStep 1) (BackupState.initial : BackupState (Fin 2)) _ :=
    (((((Reachable.refl _).tail ⟨_, .count 0 rfl rfl (by decide)⟩).tail
      ⟨_, .limit 1 rfl rfl (by decide)⟩).tail ⟨_, .waitInVain 1 rfl rfl⟩).tail
      ⟨_, .fork 0 rfl⟩).tail ⟨_, .fork 1 rfl⟩
  exact absurd (h 1 2 _ le_rfl hreach) (by decide)

end Kvs
