import Kvs.Core.Channels
import Kvs.Server.RegisterRepeats
import Kvs.Server.SessionFifos

/-!
# Clients that connect

`RegisterStep` is the way of the connect messages to the host, `QueueStep` that of the requests to the
managers, and `SessionFifos.lean` what both sides open then.  `ServiceStep` puts the three together: any
number of clients, the host, any number of managers, and the blocking opens of the session FIFOs.

A client opens its request FIFO for writing first.  The manager that serves it opens the response FIFO
for reading first, because the names have changed places in the queue.  Each waits for an end that
nobody ever comes to open.

* `no_session_established` — in every interleaving, whatever clients come, none of the opens is ever
  over.  No manager serves more than one request, and behind them the queue fills up.
-/

namespace Kvs

/-! ## The clients -/

/-- The paths that `main` of the client makes of its identifier. -/
def clientRequest (id : CString) : ConnectRequest where
  requestFifoName := .lit "/tmp/req" ++ id
  responseFifoName := .lit "/tmp/resp" ++ id
  notificationFifoName := .lit "/tmp/notif" ++ id

/-- Texts that begin differently. -/
lemma append_ne_of_take {a b : CString} {n : ℕ} (ha : n ≤ a.length) (hb : n ≤ b.length)
    (hne : a.bytes.take n ≠ b.bytes.take n) (s t : CString) : a ++ s ≠ b ++ t := by
  intro heq
  have hbytes : (a.bytes ++ s.bytes).take n = (b.bytes ++ t.bytes).take n :=
    congrArg (fun s : CString => s.bytes.take n) heq
  rw [List.take_append_of_le_length ha, List.take_append_of_le_length hb] at hbytes
  exact hne hbytes

lemma clientRequest_paths {id : CString} (hblank : id.BlankFree) (hlength : id.length < 30) :
    (clientRequest id).Paths := by
  have hpath : ∀ kind : CString, 0 < kind.length → kind.length ≤ 10 → kind.BlankFree →
      (kind ++ id).Path := by
    intro kind hpos hkind hkindBlank
    refine ⟨?_, ?_, ?_⟩
    · rw [CString.length_append]
      omega
    · rw [CString.Fits, CString.length_append, maxPipePathLength]
      omega
    · intro hmem
      rw [CString.bytes_append, List.mem_append] at hmem
      exact hmem.elim hkindBlank hblank
  refine ⟨hpath _ (by decide) (by decide) (by decide), hpath _ (by decide) (by decide) (by decide),
    hpath _ (by decide) (by decide) (by decide), ?_⟩
  have hfirst := append_ne_of_take (a := .lit "/tmp/req") (b := .lit "/tmp/resp") (n := 8) (by decide)
    (by decide) (by decide) id id
  have hsecond := append_ne_of_take (a := .lit "/tmp/req") (b := .lit "/tmp/notif") (n := 8)
    (by decide) (by decide) (by decide) id id
  have hthird := append_ne_of_take (a := .lit "/tmp/resp") (b := .lit "/tmp/notif") (n := 8)
    (by decide) (by decide) (by decide) id id
  simp only [clientRequest, List.nodup_cons, List.mem_cons, List.not_mem_nil, or_false, not_or,
    not_false_eq_true, List.nodup_nil, and_true]
  exact ⟨⟨hfirst, hsecond⟩, hthird⟩

/-! ## The threads together -/

/-- The register FIFO and the host's end of it, the queue with its threads, the entry each manager has
popped, and what clients and managers open. -/
structure ServiceState (ι κ : Type) where
  register : RegisterState
  queue : SessionQueue ι
  entry : ι → Option QueueEntry
  party : κ ⊕ ι → Opener FifoEnd

section Service

variable {ι κ : Type}

/-- Before anybody has done anything. -/
def ServiceState.initial (garbage : Fin connectSize → Byte) : ServiceState ι κ where
  register := .initial garbage
  queue := .initial
  entry := fun _ => none
  party := fun _ => .idle

/-- The request the host has in hand between `read_all` and `enqueue`. -/
def HostPc.request : HostPc → Option ConnectRequest
  | Waiting request => some request
  | Locking request => some request
  | Enqueuing request => some request
  | _ => none

/-- The manager is past `pop`. -/
def ManagerPc.hasPopped : ManagerPc → Bool
  | Unlocking => true
  | Posting => true
  | Serving => true
  | _ => false

/-- A step of the register FIFO that is not the host's way through the queue, nor a message. -/
def RegisterAction.Outside : RegisterAction → Prop
  | WriterOpens => True
  | WriterCloses => True
  | HostOpens => True
  | HostReads _ => True
  | _ => False

/-- One step of one thread.  A manager that serves does not come back: the loop of a session has no
end. -/
inductive ServiceStep [DecidableEq ι] [DecidableEq κ] (request : κ → ConnectRequest) :
    ServiceState ι κ → ServiceState ι κ → Prop
  | outside {s : ServiceState ι κ} {action : RegisterAction} {register : RegisterState} :
      RegisterStep action s.register register → action.Outside →
      ServiceStep request s { s with register := register }
  | clientWrites {s : ServiceState ι κ} (c : κ) {register : RegisterState} :
      s.party (.inl c) = .idle → RegisterStep (.ClientWrites (request c)) s.register register →
      ServiceStep request s { s with
        register := register
        party := Function.update s.party (.inl c) ⟨[], clientEnds (request c)⟩ }
  | hostTakes {s : ServiceState ι κ} {taken : ConnectRequest} :
      s.register.pc = .Enqueuing taken → s.queue.host = .Receiving →
      ServiceStep request s { s with queue := { s.queue with host := .Waiting taken } }
  | moves {s : ServiceState ι κ} {queue : SessionQueue ι} :
      QueueStep s.queue queue → queue.popped = s.queue.popped →
      (queue.host = s.queue.host ∨ s.queue.host ≠ .Receiving ∧ s.queue.host ≠ .Posting) →
      (∀ i, s.queue.manager i = .Serving → queue.manager i = .Serving) →
      ServiceStep request s { s with queue := queue }
  | hostReturns {s : ServiceState ι κ} {register : RegisterState} :
      s.queue.host = .Posting → RegisterStep .HostEnqueues s.register register →
      ServiceStep request s { s with
        register := register
        queue := { s.queue with full := s.queue.full + 1, host := .Receiving } }
  | managerPops {s : ServiceState ι κ} (i : ι) {result : Option QueueEntry} {queue : Queue} :
      s.queue.manager i = .Popping → s.queue.queue.pop = .ok (result, queue) →
      ServiceStep request s { s with
        queue := { s.queue with
          queue := queue
          manager := s.queue.moveTo i .Unlocking
          popped := s.queue.popped ++ [result] }
        entry := Function.update s.entry i result }
  | managerContinues {s : ServiceState ι κ} (i : ι) :
      s.queue.manager i = .Serving → s.entry i = none →
      ServiceStep request s { s with
        queue := { s.queue with manager := s.queue.moveTo i .Waiting } }
  | managerStarts {s : ServiceState ι κ} (i : ι) {entry : QueueEntry} {ends : List FifoEnd} :
      s.queue.manager i = .Serving → s.entry i = some entry → s.party (.inr i) = .idle →
      managerEnds entry = .ok ends →
      ServiceStep request s { s with party := Function.update s.party (.inr i) ⟨[], ends⟩ }
  | opens {s : ServiceState ι κ} {party : κ ⊕ ι → Opener FifoEnd} :
      OpenStep FifoEnd.opposite s.party party → ServiceStep request s { s with party := party }

/-! ## Who waits for what -/

/-- The end a client opens first, and the end its manager opens first. -/
def firstEnds (request : κ → ConnectRequest) : Set FifoEnd :=
  {e | ∃ c, e = ⟨(request c).requestFifoName, .Writing⟩ ∨
    e = ⟨(request c).responseFifoName, .Reading⟩}

/-- No request FIFO of one client is the response FIFO of another. -/
def KindsApart (request : κ → ConnectRequest) : Prop :=
  ∀ c c', (request c).requestFifoName ≠ (request c').responseFifoName

/-- No two of the first ends belong together. -/
lemma firstEnds_opposite {request : κ → ConnectRequest} (hkinds : KindsApart request) :
    ∀ e ∈ firstEnds request, e.opposite ∉ firstEnds request := by
  rintro e ⟨c, rfl | rfl⟩ ⟨c', h | h⟩
  · cases (FifoEnd.mk.inj h).2
  · exact hkinds c c' (FifoEnd.mk.inj h).1
  · exact hkinds c' c (FifoEnd.mk.inj h).1.symm
  · cases (FifoEnd.mk.inj h).2

/-- What the manager opens for an entry that a client's request has become. -/
lemma managerEnds_storedEntry {request : ConnectRequest} (hpaths : request.Paths) :
    managerEnds (storedEntry request)
      = .ok [⟨request.responseFifoName, .Reading⟩, ⟨request.requestFifoName, .Writing⟩,
          ⟨request.notificationFifoName, .Writing⟩] := by
  obtain ⟨⟨-, hrequest, -⟩, ⟨-, hresponse, -⟩, ⟨-, hnotification, -⟩, -⟩ := hpaths
  simp [managerEnds, storedEntry, entryOf, readBuffer_strncpy hrequest,
    readBuffer_strncpy hresponse, readBuffer_strncpy hnotification]

/-! ## The queue -/

/-- What a step inside the queue does to the request in hand and to those enqueued. -/
lemma queueStep_requests [DecidableEq ι] {q q' : SessionQueue ι} (hstep : QueueStep q q')
    (hhost : q'.host = q.host ∨ q.host ≠ .Receiving ∧ q.host ≠ .Posting) :
    (∀ r, q'.host.request = some r → q.host.request = some r) ∧
      ∀ r ∈ q'.enqueued, r ∈ q.enqueued ∨ q.host.request = some r := by
  cases hstep with
  | hostReceive request hpc =>
      rcases hhost with hhost | ⟨hhost, -⟩
      · rw [hpc] at hhost
        cases hhost
      · exact absurd hpc hhost
  | hostWaitEmpty hpc hpos =>
      rw [hpc]
      exact ⟨fun r hr => hr, fun r hr => Or.inl hr⟩
  | hostLock hpc hfree =>
      rw [hpc]
      exact ⟨fun r hr => hr, fun r hr => Or.inl hr⟩
  | hostEnqueue hpc henqueue =>
      rw [hpc]
      refine ⟨fun r hr => (by cases hr), fun r hr => ?_⟩
      rcases List.mem_append.mp hr with hr | hr
      · exact Or.inl hr
      · rw [List.mem_singleton.mp hr]
        exact Or.inr rfl
  | hostUnlock hpc => exact ⟨fun r hr => (by cases hr), fun r hr => Or.inl hr⟩
  | hostPostFull hpc => exact ⟨fun r hr => (by cases hr), fun r hr => Or.inl hr⟩
  | managerWaitFull i hpc hpos => exact ⟨fun r hr => hr, fun r hr => Or.inl hr⟩
  | managerLock i hpc hfree => exact ⟨fun r hr => hr, fun r hr => Or.inl hr⟩
  | managerPop i hpc hpop => exact ⟨fun r hr => hr, fun r hr => Or.inl hr⟩
  | managerUnlock i hpc => exact ⟨fun r hr => hr, fun r hr => Or.inl hr⟩
  | managerPostEmpty i hpc => exact ⟨fun r hr => hr, fun r hr => Or.inl hr⟩
  | managerServe i hpc => exact ⟨fun r hr => hr, fun r hr => Or.inl hr⟩

/-- A manager moves and is past `pop` as it was before. -/
lemma hasPopped_moveTo [DecidableEq ι] [Fintype ι] {q : SessionQueue ι} {i : ι} {pc pc' : ManagerPc}
    (hpc : q.manager i = pc) (hsame : pc'.hasPopped = pc.hasPopped) :
    (∀ j, (q.moveTo i pc' j).hasPopped = (q.manager j).hasPopped) ∧
      threadCount ManagerPc.hasPopped (q.moveTo i pc') = threadCount ManagerPc.hasPopped q.manager := by
  have heach : ∀ j, (q.moveTo i pc' j).hasPopped = (q.manager j).hasPopped := by
    intro j
    by_cases hj : j = i
    · rw [hj, SessionQueue.moveTo, Function.update_self, hsame, hpc]
    · rw [SessionQueue.moveTo, Function.update_of_ne hj]
  exact ⟨heach, by simp only [threadCount, heach]⟩

/-- A step inside the queue without a pop, when no manager comes back from serving. -/
lemma queueStep_hasPopped [DecidableEq ι] [Fintype ι] {q q' : SessionQueue ι} (hstep : QueueStep q q')
    (hpopped : q'.popped = q.popped)
    (hserving : ∀ i, q.manager i = .Serving → q'.manager i = .Serving) :
    (∀ j, (q'.manager j).hasPopped = (q.manager j).hasPopped) ∧
      threadCount ManagerPc.hasPopped q'.manager = threadCount ManagerPc.hasPopped q.manager := by
  cases hstep with
  | hostReceive request hpc => exact ⟨fun _ => rfl, rfl⟩
  | hostWaitEmpty hpc hpos => exact ⟨fun _ => rfl, rfl⟩
  | hostLock hpc hfree => exact ⟨fun _ => rfl, rfl⟩
  | hostEnqueue hpc henqueue => exact ⟨fun _ => rfl, rfl⟩
  | hostUnlock hpc => exact ⟨fun _ => rfl, rfl⟩
  | hostPostFull hpc => exact ⟨fun _ => rfl, rfl⟩
  | managerWaitFull i hpc hpos => exact hasPopped_moveTo hpc rfl
  | managerLock i hpc hfree => exact hasPopped_moveTo hpc rfl
  | managerPop i hpc hpop =>
      have hlength := congrArg List.length hpopped
      simp at hlength
  | managerUnlock i hpc => exact hasPopped_moveTo hpc rfl
  | managerPostEmpty i hpc => exact hasPopped_moveTo hpc rfl
  | managerServe i hpc =>
      have hback : Function.update q.manager i .Waiting i = .Serving := hserving i hpc
      rw [Function.update_self] at hback
      cases hback

/-! ## The invariant -/

/-- Everything in the queue comes from a client, and everybody waits at a first end. -/
structure ServiceState.Inv [Fintype ι] [DecidableEq ι] (request : κ → ConnectRequest)
    (s : ServiceState ι κ) : Prop where
  register : ∃ taken waiting, s.register.Held taken waiting
  queue : ∃ entries, s.queue.Inv entries
  arrived : ∀ r ∈ s.register.arrived, ∃ c, r = request c
  hand : ∀ r, s.queue.host.request = some r → r ∈ s.register.arrived
  enqueued : ∀ r ∈ s.queue.enqueued, r ∈ s.register.arrived
  entries : ∀ i entry, s.entry i = some entry → ∃ c, entry = storedEntry (request c)
  served : ∀ i, (s.queue.manager i).hasPopped = true → s.entry i ≠ none
  popped : s.queue.popped.length = threadCount ManagerPc.hasPopped s.queue.manager
  party : Barren (firstEnds request) s.party

namespace ServiceState.Inv

variable [Fintype ι] [DecidableEq ι] {request : κ → ConnectRequest}
  {s s' : ServiceState ι κ}

lemma initial {garbage : Fin connectSize → Byte}
    (hgarbage : (RegisterState.initial garbage).buffer.headD 0 ≠ char '1') :
    (ServiceState.initial garbage : ServiceState ι κ).Inv request where
  register := ⟨[], [], RegisterState.Held.initial hgarbage⟩
  queue := ⟨[], SessionQueue.Inv.initial⟩
  arrived := fun _ hr => by cases hr
  hand := fun _ hr => by cases hr
  enqueued := fun _ hr => by cases hr
  entries := fun _ _ hentry => by cases hentry
  served := fun _ hpopped => by cases hpopped
  popped := by
    rw [show (ServiceState.initial garbage : ServiceState ι κ).queue.manager = fun _ => .Waiting
      from rfl, threadCount_const_false rfl]
    rfl
  party := Barren.idle

/-- The clients and the host at the register FIFO, where requests can only be added. -/
lemma withRegister (h : s.Inv request) {register : RegisterState}
    (hheld : ∃ taken waiting, register.Held taken waiting)
    (harrived : ∀ r ∈ register.arrived, r ∈ s.register.arrived ∨ ∃ c, r = request c)
    (hkeep : ∀ r ∈ s.register.arrived, r ∈ register.arrived) :
    ({ s with register := register } : ServiceState ι κ).Inv request where
  register := hheld
  queue := h.queue
  arrived := fun r hr => (harrived r hr).elim (h.arrived r) id
  hand := fun r hr => hkeep r (h.hand r hr)
  enqueued := fun r hr => hkeep r (h.enqueued r hr)
  entries := h.entries
  served := h.served
  popped := h.popped
  party := h.party

/-- The clients and managers at their FIFOs. -/
lemma withParty (h : s.Inv request) {party : κ ⊕ ι → Opener FifoEnd}
    (hparty : Barren (firstEnds request) party) :
    ({ s with party := party } : ServiceState ι κ).Inv request where
  register := h.register
  queue := h.queue
  arrived := h.arrived
  hand := h.hand
  enqueued := h.enqueued
  entries := h.entries
  served := h.served
  popped := h.popped
  party := hparty

/-- The queue moves, and no manager pops or comes back. -/
lemma withQueue (h : s.Inv request) {queue : SessionQueue ι} (hinv : ∃ entries, queue.Inv entries)
    (hhand : ∀ r, queue.host.request = some r → r ∈ s.register.arrived)
    (henqueued : ∀ r ∈ queue.enqueued, r ∈ s.register.arrived)
    (hsame : ∀ j, (queue.manager j).hasPopped = (s.queue.manager j).hasPopped)
    (hcount : threadCount ManagerPc.hasPopped queue.manager
      = threadCount ManagerPc.hasPopped s.queue.manager)
    (hpopped : queue.popped = s.queue.popped) :
    ({ s with queue := queue } : ServiceState ι κ).Inv request where
  register := h.register
  queue := hinv
  arrived := h.arrived
  hand := hhand
  enqueued := henqueued
  entries := h.entries
  served := fun i hi => h.served i (by rwa [← hsame i])
  popped := by
    rw [hcount, hpopped]
    exact h.popped
  party := h.party

/-- What a manager pops is the request of a client. -/
lemma pop_client (h : s.Inv request) {i : ι} (hpc : s.queue.manager i = .Popping)
    {result : Option QueueEntry} {queue : Queue} (hpop : s.queue.queue.pop = .ok (result, queue)) :
    ∃ c, result = some (storedEntry (request c)) := by
  obtain ⟨entries, hinv⟩ := h.queue
  obtain ⟨entry, rest, queue', rfl, hpop', -⟩ := hinv.pop_ready hpc
  obtain ⟨rfl, -⟩ := Prod.mk.inj (Except.ok.inj (hpop'.symm.trans hpop))
  have hmem : some entry ∈ s.queue.enqueued.map fun r => some (storedEntry r) := by
    rw [← hinv.history]
    simp
  obtain ⟨r, hr, hentry⟩ := List.mem_map.mp hmem
  obtain ⟨c, rfl⟩ := h.arrived r (h.enqueued r hr)
  exact ⟨c, hentry.symm⟩

/-- A manager pops: the entry is the request of a client, and there is one more popped. -/
lemma pops (h : s.Inv request) {i : ι} (hpc : s.queue.manager i = .Popping)
    {result : Option QueueEntry} {queue : Queue} (hpop : s.queue.queue.pop = .ok (result, queue)) :
    ({ s with
      queue := { s.queue with
        queue := queue
        manager := s.queue.moveTo i .Unlocking
        popped := s.queue.popped ++ [result] }
      entry := Function.update s.entry i result } : ServiceState ι κ).Inv request := by
  obtain ⟨c, rfl⟩ := h.pop_client hpc hpop
  obtain ⟨entries, hqueue⟩ := h.queue
  have hcount := threadCount_update ManagerPc.hasPopped s.queue.manager i .Unlocking
  rw [hpc] at hcount
  refine ⟨h.register, hqueue.step (.managerPop i hpc hpop), h.arrived, h.hand, h.enqueued, ?_, ?_,
    ?_, h.party⟩
  · intro j entry hentry
    dsimp only at hentry
    by_cases hj : j = i
    · rw [hj, Function.update_self] at hentry
      exact ⟨c, (Option.some.inj hentry).symm⟩
    · rw [Function.update_of_ne hj] at hentry
      exact h.entries j entry hentry
  · intro j hj
    dsimp only at hj ⊢
    by_cases hji : j = i
    · rw [hji, Function.update_self]
      simp
    · rw [Function.update_of_ne hji]
      refine h.served j ?_
      rwa [SessionQueue.moveTo, Function.update_of_ne hji] at hj
  · have hpopped := h.popped
    rw [List.length_append, List.length_singleton]
    simp only [ManagerPc.hasPopped, Bool.toNat_false, Bool.toNat_true] at hcount
    show _ = threadCount ManagerPc.hasPopped (Function.update s.queue.manager i .Unlocking)
    omega

/-- The host does not read or write messages on its way through the queue. -/
lemma hostEnqueues_arrived {r r' : RegisterState} (hstep : RegisterStep .HostEnqueues r r') :
    r'.arrived = r.arrived := by
  cases hstep
  rfl

/-- Only a message adds to what has arrived. -/
lemma outside_arrived {r r' : RegisterState} {action : RegisterAction}
    (hstep : RegisterStep action r r') (houtside : action.Outside) :
    action.BlankFree ∧ r'.arrived = r.arrived := by
  cases hstep with
  | writerOpens => exact ⟨trivial, rfl⟩
  | writerCloses hpos => exact ⟨trivial, rfl⟩
  | clientWrites hpos hmessage => exact houtside.elim
  | hostOpens hpc hmet => exact ⟨trivial, rfl⟩
  | @hostReads _ bytesRead data fifo hpc hread =>
      refine ⟨trivial, ?_⟩
      unfold RegisterState.afterRead
      split <;> rfl
  | hostEnqueues hpc => exact houtside.elim

variable [DecidableEq κ]

/-- **Every step keeps the invariant.** -/
lemma step (hkinds : KindsApart request) (hpaths : ∀ c, (request c).Paths) (h : s.Inv request)
    (hstep : ServiceStep request s s') : s'.Inv request := by
  obtain ⟨taken, waiting, hheld⟩ := h.register
  cases hstep with
  | @outside action register haction houtside =>
      obtain ⟨hblank, harrived⟩ := outside_arrived haction houtside
      refine h.withRegister (hheld.step ⟨action, haction, hblank⟩) ?_ ?_
      · exact fun r hr => Or.inl (harrived ▸ hr)
      · exact fun r hr => harrived ▸ hr
  | @clientWrites c register hidle haction =>
      have hpath := hpaths c
      have hblank : (request c).BlankFree :=
        ⟨hpath.requestFifo.2.2, hpath.responseFifo.2.2, hpath.notificationFifo.2.2⟩
      have hheld' := hheld.step ⟨_, haction, hblank⟩
      have hregister : ({ s with register := register } : ServiceState ι κ).Inv request := by
        cases haction with
        | clientWrites hpos hmessage =>
            refine h.withRegister hheld' (fun r hr => ?_) fun r hr => List.mem_append_left _ hr
            rcases List.mem_append.mp hr with hr | hr
            · exact Or.inl hr
            · exact Or.inr ⟨c, List.mem_singleton.mp hr⟩
      exact hregister.withParty (h.party.update _ ⟨c, Or.inl rfl⟩ _)
  | @hostTakes taken' hpc hhost =>
      obtain ⟨entries, hqueue⟩ := h.queue
      refine h.withQueue (hqueue.step (.hostReceive taken' hhost)) ?_ h.enqueued (fun _ => rfl) rfl rfl
      intro r hr
      obtain rfl := Option.some.inj hr
      rw [hheld.arrived]
      refine List.mem_append_left _ (hheld.repeats.subset ?_)
      rw [hpc]
      simp [RegisterPc.inHand]
  | @moves queue hmove hpopped hhost hserving =>
      obtain ⟨entries, hqueue⟩ := h.queue
      obtain ⟨hhand, henqueued⟩ := queueStep_requests hmove hhost
      obtain ⟨hsame, hcount⟩ := queueStep_hasPopped hmove hpopped hserving
      refine h.withQueue (hqueue.step hmove) ?_ ?_ hsame hcount hpopped
      · exact fun r hr => h.hand r (hhand r hr)
      · exact fun r hr => (henqueued r hr).elim (h.enqueued r) (h.hand r)
  | @hostReturns register hhost haction =>
      obtain ⟨entries, hqueue⟩ := h.queue
      have harrived := hostEnqueues_arrived haction
      have hregister := h.withRegister (hheld.step ⟨_, haction, trivial⟩)
        (fun r hr => Or.inl (harrived ▸ hr)) (fun r hr => harrived ▸ hr)
      exact hregister.withQueue (hqueue.step (.hostPostFull hhost)) (fun r hr => by cases hr)
        hregister.enqueued (fun _ => rfl) rfl rfl
  | @managerPops i result queue hpc hpop => exact h.pops hpc hpop
  | managerContinues i hpc hentry => exact absurd hentry (h.served i (by rw [hpc]; rfl))
  | managerStarts i hpc hentry hidle hends =>
      obtain ⟨c, rfl⟩ := h.entries i _ hentry
      rw [managerEnds_storedEntry (hpaths c)] at hends
      obtain rfl := Except.ok.inj hends
      exact h.withParty (h.party.update _ ⟨c, Or.inr rfl⟩ _)
  | opens hopen => exact absurd hopen (h.party.no_step (firstEnds_opposite hkinds) _)

end ServiceState.Inv

/-- With the paths of the client program. -/
lemma clientRequest_kindsApart (ids : κ → CString) : KindsApart fun c => clientRequest (ids c) :=
  fun c c' => append_ne_of_take (a := .lit "/tmp/req") (b := .lit "/tmp/resp") (n := 8) (by decide)
    (by decide) (by decide) (ids c) (ids c')

/-- **No session is ever established.**  For any clients, with identifiers that have no blank and fewer
than 30 bytes, and any number of managers, in every state that any interleaving of their steps with
those of the host reaches: nobody has opened any FIFO of a session, and nobody who is opening one can go
on.  At most one request has been popped for each manager, and at most `MAX_SESSION_COUNT` more
enqueued. -/
theorem no_session_established [Fintype ι] [DecidableEq ι] [DecidableEq κ] {ids : κ → CString}
    (hids : ∀ c, (ids c).BlankFree ∧ (ids c).length < 30) {garbage : Fin connectSize → Byte}
    (hgarbage : (RegisterState.initial garbage).buffer.headD 0 ≠ char '1') {s : ServiceState ι κ}
    (h : Reachable (ServiceStep fun c => clientRequest (ids c)) (.initial garbage) s) :
    (∀ p, (s.party p).opened = []) ∧
      (∀ p e, (s.party p).toOpen.head? = some e → ¬ CanOpen FifoEnd.opposite s.party e) ∧
      s.queue.popped.length ≤ Fintype.card ι ∧
      s.queue.enqueued.length ≤ Fintype.card ι + maxSessionCount := by
  have hkinds := clientRequest_kindsApart ids
  have hinv : s.Inv fun c => clientRequest (ids c) :=
    h.invariant _ (ServiceState.Inv.initial hgarbage) fun _ _ hinv hstep =>
      hinv.step hkinds (fun c => clientRequest_paths (hids c).1 (hids c).2) hstep
  have hcount : s.queue.popped.length ≤ Fintype.card ι := by
    rw [hinv.popped]
    exact threadCount_le_card _ _
  obtain ⟨entries, hqueue⟩ := hinv.queue
  refine ⟨fun p => (hinv.party p).1, ?_, hcount, ?_⟩
  · intro p e he
    exact hinv.party.not_canOpen (firstEnds_opposite hkinds) he
  · have hhistory := congrArg List.length hqueue.history
    have hslots := hqueue.slots
    rw [List.length_append, List.length_map, List.length_map] at hhistory
    omega

/-- One client and one manager.  The client's message has been read, enqueued and popped; the client waits
at its request FIFO and the manager at the response FIFO, and neither can go on. -/
theorem no_session_established_one :
    ∃ s : ServiceState Unit Unit, s.queue.enqueued = [clientRequest (.lit "1")] ∧
      s.queue.popped.length = 1 ∧
      (s.party (.inl ())).toOpen.head? = some ⟨.lit "/tmp/req1", .Writing⟩ ∧
      (s.party (.inr ())).toOpen.head? = some ⟨.lit "/tmp/resp1", .Reading⟩ ∧
      ¬ CanOpen FifoEnd.opposite s.party ⟨.lit "/tmp/req1", .Writing⟩ ∧
      ¬ CanOpen FifoEnd.opposite s.party ⟨.lit "/tmp/resp1", .Reading⟩ := by
  have hid : (CString.lit "1").BlankFree ∧ (CString.lit "1").length < 30 := by decide
  have hfits : (clientRequest (.lit "1")).Fits := ⟨by decide, by decide, by decide⟩
  have hblank : (clientRequest (.lit "1")).BlankFree := ⟨by decide, by decide, by decide⟩
  -- the message is written, read and taken
  have hwritten : Reachable (ServiceStep fun _ : Unit => clientRequest (.lit "1"))
      (.initial fun _ => 0 : ServiceState Unit Unit) _ :=
    (((Reachable.refl _).tail (.outside .writerOpens trivial)).tail
      (.outside (.hostOpens rfl rfl) trivial)).tail
      (.clientWrites () rfl (.clientWrites Nat.one_pos (kvsConnect_of_fits hfits)))
  have hread := hwritten.tail (.outside (.reads_message rfl rfl rfl List.length_ofFn hfits) trivial)
  have hclosed := hread.tail (.outside (.writerCloses Nat.one_pos) trivial)
  have hend := hclosed.tail (.outside (.finds_end rfl rfl rfl rfl hfits hblank) trivial)
  -- the host enqueues it
  have htaken := hend.tail (.hostTakes rfl rfl)
  have hlocked := (htaken.tail (.moves (.hostWaitEmpty rfl (by decide)) rfl (.inr ⟨nofun, nofun⟩)
    nofun)).tail (.moves (.hostLock rfl rfl) rfl (.inr ⟨nofun, nofun⟩) nofun)
  have henqueued := (hlocked.tail (.moves (.hostEnqueue rfl rfl) rfl (.inr ⟨nofun, nofun⟩)
    nofun)).tail (.moves (.hostUnlock rfl) rfl (.inr ⟨nofun, nofun⟩) nofun)
  have hposted := henqueued.tail (.hostReturns rfl (.hostEnqueues rfl))
  -- the manager pops it and opens what it finds there
  have hpopping := (hposted.tail (.moves (.managerWaitFull () rfl (by decide)) rfl (.inl rfl)
    fun () => nofun)).tail (.moves (.managerLock () rfl rfl) rfl (.inl rfl) fun () => nofun)
  have hpopped := hpopping.tail (.managerPops () rfl rfl)
  have hmanager := (hpopped.tail (.moves (.managerUnlock () rfl) rfl (.inl rfl)
    fun () => nofun)).tail (.moves (.managerPostEmpty () rfl) rfl (.inl rfl) fun () => nofun)
  have hstuck := hmanager.tail (.managerStarts () rfl rfl rfl rfl)
  obtain ⟨-, hwaits, -⟩ := no_session_established (fun _ => hid) (by decide) hstuck
  exact ⟨_, rfl, rfl, rfl, rfl, hwaits (.inl ()) _ rfl, hwaits (.inr ()) _ rfl⟩

end Service

end Kvs
