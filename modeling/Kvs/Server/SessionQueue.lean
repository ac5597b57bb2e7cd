import Kvs.Core.Threads
import Kvs.Common.Protocol
import Kvs.Server.Queue

/-!
# The bounded queue between host and managers

The host thread puts connect requests into the queue and the manager threads take them out, with
the semaphores `empty` and `full` around the mutex `lock_queue` (`manages_register_fifo` and
`manager_thread_handler` of `main.c`).  `QueueStep` is one step of one thread: a semaphore
operation, taking or giving back the mutex, or the queue operation between them.  There is one host
and any number of managers.

The invariant is two equations.  Each of the `MAX_SESSION_COUNT` slots is free (`empty`), taken by
the host for an entry to come, occupied, or on its way back with a manager that has popped but not
posted; and each entry is announced (`full`), about to be announced by the host, or taken by a
manager that has waited but not popped.  That the queue never overflows, that the semaphores stay
within bounds and that no pop finds the queue empty is arithmetic on them.
-/

namespace Kvs

/-! ## Program points -/

/-- The host between `read_all` and `sem_post(&full)`. -/
inductive HostPc where
  | Receiving
  | Waiting (request : ConnectRequest)
  | Locking (request : ConnectRequest)
  | Enqueuing (request : ConnectRequest)
  | Unlocking
  | Posting

/-- A manager between `sem_wait(&full)` and `sem_post(&empty)`, and in a session. -/
inductive ManagerPc where
  | Waiting
  | Locking
  | Popping
  | Unlocking
  | Posting
  | Serving
  deriving DecidableEq

/-- The host has a slot and has not filled it. -/
def HostPc.hasSlot : HostPc → Bool
  | Locking _ => true
  | Enqueuing _ => true
  | _ => false

/-- The host has filled a slot and not said so. -/
def HostPc.owesFull : HostPc → Bool
  | Unlocking => true
  | Posting => true
  | _ => false

/-- The host is between the lock and the unlock. -/
def HostPc.critical : HostPc → Bool
  | Enqueuing _ => true
  | Unlocking => true
  | _ => false

/-- The manager has been promised an entry and has not popped it. -/
def ManagerPc.hasItem : ManagerPc → Bool
  | Locking => true
  | Popping => true
  | _ => false

/-- The manager has emptied a slot and not said so. -/
def ManagerPc.owesEmpty : ManagerPc → Bool
  | Unlocking => true
  | Posting => true
  | _ => false

/-- The manager is between the lock and the unlock. -/
def ManagerPc.critical : ManagerPc → Bool
  | Popping => true
  | Unlocking => true
  | _ => false

/-! ## The threads -/

/-- The shared state, where each thread is, and what has been enqueued and popped so far.  The
owner of the mutex is the host (`some none`) or a manager. -/
structure SessionQueue (ι : Type) where
  empty : ℕ
  full : ℕ
  lockQueue : Option (Option ι)
  queue : Queue
  host : HostPc
  manager : ι → ManagerPc
  enqueued : List ConnectRequest
  popped : List (Option QueueEntry)

/-- The host's call of `enqueue`, its arguments in the order of the source. -/
def enqueueRequest (queue : Queue) (request : ConnectRequest) : Except Fault Queue :=
  queue.enqueue request.requestFifoName request.responseFifoName request.notificationFifoName

/-- The entry this call stores. -/
def storedEntry (request : ConnectRequest) : QueueEntry :=
  entryOf request.requestFifoName request.responseFifoName request.notificationFifoName

section Threads

variable {ι : Type}

/-- After `sem_init` and `create_queue`, every thread at the top of its loop. -/
def SessionQueue.initial : SessionQueue ι where
  empty := maxSessionCount
  full := 0
  lockQueue := none
  queue := Queue.createQueue
  host := .Receiving
  manager := fun _ => .Waiting
  enqueued := []
  popped := []

/-- A manager at its next program point. -/
def SessionQueue.moveTo [DecidableEq ι] (s : SessionQueue ι) (i : ι) (pc : ManagerPc) : ι → ManagerPc :=
  Function.update s.manager i pc

/-- One step of one thread. -/
inductive QueueStep [DecidableEq ι] : SessionQueue ι → SessionQueue ι → Prop
  | hostReceive {s} (request : ConnectRequest) : s.host = .Receiving →
      QueueStep s { s with host := .Waiting request }
  | hostWaitEmpty {s} {request : ConnectRequest} : s.host = .Waiting request → 0 < s.empty →
      QueueStep s { s with empty := s.empty - 1, host := .Locking request }
  | hostLock {s} {request : ConnectRequest} : s.host = .Locking request → s.lockQueue = none →
      QueueStep s { s with lockQueue := some none, host := .Enqueuing request }
  | hostEnqueue {s} {request : ConnectRequest} {queue : Queue} : s.host = .Enqueuing request →
      enqueueRequest s.queue request = .ok queue →
      QueueStep s { s with
        queue := queue
        host := .Unlocking
        enqueued := s.enqueued ++ [request] }
  | hostUnlock {s} : s.host = .Unlocking →
      QueueStep s { s with lockQueue := none, host := .Posting }
  | hostPostFull {s} : s.host = .Posting →
      QueueStep s { s with full := s.full + 1, host := .Receiving }
  | managerWaitFull {s} (i : ι) : s.manager i = .Waiting → 0 < s.full →
      QueueStep s { s with full := s.full - 1, manager := s.moveTo i .Locking }
  | managerLock {s} (i : ι) : s.manager i = .Locking → s.lockQueue = none →
      QueueStep s { s with lockQueue := some (some i), manager := s.moveTo i .Popping }
  | managerPop {s} (i : ι) {result : Option QueueEntry} {queue : Queue} :
      s.manager i = .Popping → s.queue.pop = .ok (result, queue) →
      QueueStep s { s with
        queue := queue
        manager := s.moveTo i .Unlocking
        popped := s.popped ++ [result] }
  | managerUnlock {s} (i : ι) : s.manager i = .Unlocking →
      QueueStep s { s with lockQueue := none, manager := s.moveTo i .Posting }
  | managerPostEmpty {s} (i : ι) : s.manager i = .Posting →
      QueueStep s { s with empty := s.empty + 1, manager := s.moveTo i .Serving }
  | managerServe {s} (i : ι) : s.manager i = .Serving →
      QueueStep s { s with manager := s.moveTo i .Waiting }

/-! ## The invariant -/

/-- With `entries` in the queue: where the slots are, where the entries are, who has the mutex, and
what has gone through. -/
structure SessionQueue.Inv [Fintype ι] (s : SessionQueue ι) (entries : List QueueEntry) : Prop where
  holds : s.queue.Holds entries
  history : s.popped ++ entries.map some = s.enqueued.map fun request => some (storedEntry request)
  slots : s.empty + s.host.hasSlot.toNat + entries.length
    + threadCount ManagerPc.owesEmpty s.manager = maxSessionCount
  items : s.full + s.host.owesFull.toNat + threadCount ManagerPc.hasItem s.manager = entries.length
  hostOwns : s.host.critical = true ↔ s.lockQueue = some none
  managerOwns : ∀ i, (s.manager i).critical = true ↔ s.lockQueue = some (some i)

namespace SessionQueue.Inv

variable [Fintype ι] {s : SessionQueue ι} {entries : List QueueEntry}

lemma initial : (SessionQueue.initial : SessionQueue ι).Inv [] where
  holds := Queue.Holds.createQueue
  history := rfl
  slots := by
    rw [show (SessionQueue.initial : SessionQueue ι).manager = fun _ => .Waiting from rfl,
      threadCount_const_false rfl]
    rfl
  items := by
    rw [show (SessionQueue.initial : SessionQueue ι).manager = fun _ => .Waiting from rfl,
      threadCount_const_false rfl]
    rfl
  hostOwns := by simp [SessionQueue.initial, HostPc.critical]
  managerOwns := by simp [SessionQueue.initial, ManagerPc.critical]

/-- The host moves on and leaves the queue alone. -/
lemma hostMove (h : s.Inv entries) {pc pc' : HostPc} (hpc : s.host = pc) {empty full : ℕ}
    {owner : Option (Option ι)}
    (hempty : empty + pc'.hasSlot.toNat = s.empty + pc.hasSlot.toNat)
    (hfull : full + pc'.owesFull.toNat = s.full + pc.owesFull.toNat)
    (hhost : pc'.critical = true ↔ owner = some none)
    (hothers : ∀ i, s.lockQueue = some (some i) ↔ owner = some (some i)) :
    { s with empty, full, lockQueue := owner, host := pc' }.Inv entries := by
  subst hpc
  have hslots := h.slots
  have hitems := h.items
  constructor
  · exact h.holds
  · exact h.history
  · dsimp only
    omega
  · dsimp only
    omega
  · exact hhost
  · intro i
    rw [h.managerOwns i]
    exact hothers i

variable [DecidableEq ι]

/-- What a manager's move does to the two counts. -/
lemma moveTo_counts {i : ι} {pc : ManagerPc} (hpc : s.manager i = pc) (pc' : ManagerPc) :
    threadCount ManagerPc.owesEmpty (s.moveTo i pc') + pc.owesEmpty.toNat
        = threadCount ManagerPc.owesEmpty s.manager + pc'.owesEmpty.toNat ∧
      threadCount ManagerPc.hasItem (s.moveTo i pc') + pc.hasItem.toNat
        = threadCount ManagerPc.hasItem s.manager + pc'.hasItem.toNat := by
  subst hpc
  exact ⟨threadCount_update _ _ _ _, threadCount_update _ _ _ _⟩

/-- A manager's move and the mutex: what holds of the one that moves, and the others as before. -/
lemma managerOwns_moveTo (h : s.Inv entries) {i : ι} {pc : ManagerPc} {owner : Option (Option ι)}
    (hi : pc.critical = true ↔ owner = some (some i))
    (hothers : ∀ j, j ≠ i → (s.lockQueue = some (some j) ↔ owner = some (some j))) :
    ∀ j, (s.moveTo i pc j).critical = true ↔ owner = some (some j) := by
  intro j
  by_cases hj : j = i
  · rw [hj, SessionQueue.moveTo, Function.update_self]
    exact hi
  · rw [SessionQueue.moveTo, Function.update_of_ne hj, h.managerOwns j]
    exact hothers j hj

/-- A manager moves on and leaves the queue alone. -/
lemma managerMove (h : s.Inv entries) {i : ι} {pc pc' : ManagerPc} (hpc : s.manager i = pc)
    {empty full : ℕ} {owner : Option (Option ι)}
    (hempty : empty + pc'.owesEmpty.toNat = s.empty + pc.owesEmpty.toNat)
    (hfull : full + pc'.hasItem.toNat = s.full + pc.hasItem.toNat)
    (hhost : s.lockQueue = some none ↔ owner = some none)
    (hi : pc'.critical = true ↔ owner = some (some i))
    (hothers : ∀ j, j ≠ i → (s.lockQueue = some (some j) ↔ owner = some (some j))) :
    { s with empty, full, lockQueue := owner, manager := s.moveTo i pc' }.Inv entries := by
  obtain ⟨hempties, hcounts⟩ := moveTo_counts hpc pc'
  have hslots := h.slots
  have hitems := h.items
  constructor
  · exact h.holds
  · exact h.history
  · dsimp only
    omega
  · dsimp only
    omega
  · rw [h.hostOwns]
    exact hhost
  · exact h.managerOwns_moveTo hi hothers

/-- **A manager that pops is served.** -/
lemma pop_ready (h : s.Inv entries) {i : ι} (hi : s.manager i = .Popping) :
    ∃ entry rest queue, entries = entry :: rest ∧ s.queue.pop = .ok (some entry, queue) ∧
      queue.Holds rest := by
  have hcount : 0 < threadCount ManagerPc.hasItem s.manager :=
    threadCount_pos (i := i) (by rw [hi]; rfl)
  have hitems := h.items
  cases hentries : entries with
  | nil =>
      rw [hentries, List.length_nil] at hitems
      omega
  | cons entry rest =>
      have hholds := h.holds
      rw [hentries] at hholds
      obtain ⟨queue, hpop, hrest⟩ := hholds.pop
      exact ⟨entry, rest, queue, rfl, hpop, hrest⟩

/-- **Every step keeps the invariant.** -/
theorem step {s' : SessionQueue ι} (h : s.Inv entries) (hstep : QueueStep s s') :
    ∃ entries', s'.Inv entries' := by
  cases hstep with
  | hostReceive request hpc =>
      refine ⟨entries, h.hostMove hpc rfl rfl ?_ fun _ => Iff.rfl⟩
      rw [← h.hostOwns, hpc]
      rfl
  | @hostWaitEmpty request hpc hpos =>
      refine ⟨entries, h.hostMove hpc (Nat.sub_add_cancel hpos) rfl ?_ fun _ => Iff.rfl⟩
      rw [← h.hostOwns, hpc]
      rfl
  | @hostLock request hpc hfree =>
      refine ⟨entries, h.hostMove hpc rfl rfl (by simp [HostPc.critical]) fun i => ?_⟩
      rw [hfree]
      simp
  | @hostEnqueue request queue hpc henqueue =>
      obtain ⟨queue', henqueue', hholds⟩ := h.holds.enqueue request.requestFifoName
        request.responseFifoName request.notificationFifoName
      obtain rfl : queue' = queue := Except.ok.inj (henqueue'.symm.trans henqueue)
      have hslots := h.slots
      have hitems := h.items
      refine ⟨entries ++ [storedEntry request], hholds, ?_, ?_, ?_, ?_, h.managerOwns⟩
      · rw [List.map_append, List.map_append, ← h.history, List.append_assoc]
        rfl
      · simp only [hpc, HostPc.hasSlot, Bool.toNat_false, Bool.toNat_true, List.length_append,
          List.length_singleton] at hslots ⊢
        omega
      · simp only [hpc, HostPc.owesFull, Bool.toNat_false, Bool.toNat_true, List.length_append,
          List.length_singleton] at hitems ⊢
        omega
      · rw [← h.hostOwns, hpc]
        rfl
  | hostUnlock hpc =>
      have howner : s.lockQueue = some none := h.hostOwns.mp (by rw [hpc]; rfl)
      refine ⟨entries, h.hostMove hpc rfl rfl (by simp [HostPc.critical]) fun i => ?_⟩
      rw [howner]
      simp
  | hostPostFull hpc =>
      refine ⟨entries, h.hostMove hpc rfl rfl ?_ fun _ => Iff.rfl⟩
      rw [← h.hostOwns, hpc]
      rfl
  | managerWaitFull i hpc hpos =>
      refine ⟨entries, h.managerMove hpc rfl (Nat.sub_add_cancel hpos) Iff.rfl ?_
        fun _ _ => Iff.rfl⟩
      rw [← h.managerOwns i, hpc]
      rfl
  | managerLock i hpc hfree =>
      refine ⟨entries, h.managerMove hpc rfl rfl ?_ (by simp [ManagerPc.critical]) fun j hj => ?_⟩
      · simp [hfree]
      · simp [hfree, Ne.symm hj]
  | @managerPop i result queue hpc hpop =>
      obtain ⟨entry, rest, queue', rfl, hpop', hholds⟩ := h.pop_ready hpc
      obtain ⟨rfl, rfl⟩ := Prod.mk.inj (Except.ok.inj (hpop'.symm.trans hpop))
      have hslots := h.slots
      have hitems := h.items
      obtain ⟨hempties, hcounts⟩ := moveTo_counts hpc .Unlocking
      simp only [ManagerPc.owesEmpty, ManagerPc.hasItem, Bool.toNat_false, Bool.toNat_true]
        at hempties hcounts
      rw [List.length_cons] at hslots hitems
      refine ⟨rest, hholds, ?_, ?_, ?_, h.hostOwns, h.managerOwns_moveTo ?_ ?_⟩
      · rw [← h.history, List.append_assoc]
        rfl
      · dsimp only
        omega
      · dsimp only
        omega
      · rw [← h.managerOwns i, hpc]
        rfl
      · exact fun _ _ => Iff.rfl
  | managerUnlock i hpc =>
      have howner : s.lockQueue = some (some i) := (h.managerOwns i).mp (by rw [hpc]; rfl)
      refine ⟨entries, h.managerMove hpc rfl rfl ?_ (by simp [ManagerPc.critical]) fun j hj => ?_⟩
      · simp [howner]
      · simp [howner, Ne.symm hj]
  | managerPostEmpty i hpc =>
      refine ⟨entries, h.managerMove hpc rfl rfl Iff.rfl ?_ fun _ _ => Iff.rfl⟩
      rw [← h.managerOwns i, hpc]
      rfl
  | managerServe i hpc =>
      refine ⟨entries, h.managerMove hpc rfl rfl Iff.rfl ?_ fun _ _ => Iff.rfl⟩
      rw [← h.managerOwns i, hpc]
      rfl

end SessionQueue.Inv

/-- **The session queue is bounded and loses nothing.**  In every state that any number of managers
and the host can reach, the queue holds at most `MAX_SESSION_COUNT` entries, the semaphores together
are at most that, a manager about to pop gets an entry, the host about to enqueue succeeds, and what
has been popped, followed by what is queued, is what has been enqueued. -/
theorem sessionQueue_bounded [Fintype ι] [DecidableEq ι] {s : SessionQueue ι}
    (h : Reachable QueueStep .initial s) :
    ∃ entries, s.queue.Holds entries ∧ entries.length ≤ maxSessionCount ∧
      s.empty + s.full ≤ maxSessionCount ∧
      (∀ i, s.manager i = .Popping → ∃ entry queue, s.queue.pop = .ok (some entry, queue)) ∧
      (∀ request, s.host = .Enqueuing request →
        ∃ queue, enqueueRequest s.queue request = .ok queue) ∧
      s.popped ++ entries.map some = s.enqueued.map fun request => some (storedEntry request) := by
  obtain ⟨entries, hinv⟩ := h.invariant (fun s => ∃ entries, s.Inv entries)
    ⟨[], SessionQueue.Inv.initial⟩ fun _ _ ⟨_, hinv⟩ hstep => hinv.step hstep
  have hslots := hinv.slots
  have hitems := hinv.items
  refine ⟨entries, hinv.holds, by omega, by omega, fun i hi => ?_, fun request _ => ?_,
    hinv.history⟩
  · obtain ⟨entry, -, queue, -, hpop, -⟩ := hinv.pop_ready hi
    exact ⟨entry, queue, hpop⟩
  · obtain ⟨queue, henqueue, -⟩ := hinv.holds.enqueue request.requestFifoName
      request.responseFifoName request.notificationFifoName
    exact ⟨queue, henqueue⟩

/-- **Mutual exclusion.**  The queue operations run under the mutex, and no two threads are between
its lock and its unlock. -/
theorem sessionQueue_exclusive [Fintype ι] [DecidableEq ι] {s : SessionQueue ι}
    (h : Reachable QueueStep .initial s) {i j : ι} (hi : (s.manager i).critical = true)
    (hj : (s.manager j).critical = true) : i = j ∧ s.host.critical = false := by
  obtain ⟨entries, hinv⟩ := h.invariant (fun s => ∃ entries, s.Inv entries)
    ⟨[], SessionQueue.Inv.initial⟩ fun _ _ ⟨_, hinv⟩ hstep => hinv.step hstep
  have howner := (hinv.managerOwns i).mp hi
  have howner' := (hinv.managerOwns j).mp hj
  refine ⟨by simpa [howner] using howner', ?_⟩
  cases hhost : s.host.critical with
  | false => rfl
  | true =>
      rw [hinv.hostOwns, howner] at hhost
      cases hhost

/-- Two requests put into the queue.  The one manager has popped the first, the other is about to pop and
gets an entry, which is the second. -/
theorem sessionQueue_bounded_first :
    ∃ s : SessionQueue (Fin 2),
      s.enqueued = [⟨.lit "req", .lit "resp", .lit "notif"⟩, ⟨.lit "req2", .lit "resp2", .lit "notif2"⟩] ∧
      s.popped = [some (storedEntry ⟨.lit "req", .lit "resp", .lit "notif"⟩)] ∧
      s.manager 0 = .Posting ∧ s.manager 1 = .Popping ∧
      s.queue.Holds [storedEntry ⟨.lit "req2", .lit "resp2", .lit "notif2"⟩] ∧
      s.empty + s.full ≤ maxSessionCount ∧ ∃ entry queue, s.queue.pop = .ok (some entry, queue) := by
  have hfirst : Reachable QueueStep (SessionQueue.initial : SessionQueue (Fin 2)) _ :=
    ((((Reachable.refl _).tail (.hostReceive ⟨.lit "req", .lit "resp", .lit "notif"⟩ rfl)).tail
      (.hostWaitEmpty rfl (by decide))).tail (.hostLock rfl rfl)).tail (.hostEnqueue rfl rfl)
  have hposted := (hfirst.tail (.hostUnlock rfl)).tail (.hostPostFull rfl)
  have hsecond := (((hposted.tail
    (.hostReceive ⟨.lit "req2", .lit "resp2", .lit "notif2"⟩ rfl)).tail
      (.hostWaitEmpty rfl (by decide))).tail (.hostLock rfl rfl)).tail (.hostEnqueue rfl rfl)
  have hposted' := (hsecond.tail (.hostUnlock rfl)).tail (.hostPostFull rfl)
  have hpopped := ((hposted'.tail (.managerWaitFull 0 rfl (by decide))).tail
    (.managerLock 0 rfl rfl)).tail (.managerPop 0 rfl rfl)
  have hpopping := ((hpopped.tail (.managerUnlock 0 rfl)).tail
    (.managerWaitFull 1 rfl (by decide))).tail (.managerLock 1 rfl rfl)
  obtain ⟨entries, hholds, -, hsems, hready, -, hhistory⟩ := sessionQueue_bounded hpopping
  obtain rfl : entries = [storedEntry ⟨.lit "req2", .lit "resp2", .lit "notif2"⟩] :=
    List.map_injective_iff.mpr (Option.some_injective _) (List.tail_eq_of_cons_eq hhistory)
  exact ⟨_, rfl, rfl, rfl, rfl, hholds, hsems, hready 1 rfl⟩

end Threads

end Kvs
