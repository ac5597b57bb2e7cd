import Kvs.Core.Channels
import Kvs.Server.Register

/-!
# What the host makes of the register FIFO, in any run

`Register.lean` looks at runs in which the reads of the host happen to stop where messages do.  They
need not: the host asks for a byte more than a message has, and looks at its buffer at every end of
file.  What can be said of any run is this.

* A read that goes beyond a message stores behind the buffer, and the host is beyond defined
  behaviour.  Until then its buffer is never a mixture of two messages.
* At an end of file it has read nothing or a whole message: messages are written whole.  If nothing,
  the buffer still holds the message before, which is taken again.

So the host takes the messages in order, leaves none out, and takes nothing else, but some of them
several times (`register_repeats`).  That is for paths without a blank, and for a buffer that did not
look like a message before the first one.
-/

namespace Kvs

/-! ## The property -/

/-- A step of a client whose paths have no blank, or of anybody else. -/
def RegisterAction.BlankFree : RegisterAction → Prop
  | ClientWrites request => request.BlankFree
  | _ => True

def BlankFreeRegisterStep (s s' : RegisterState) : Prop :=
  ∃ action, RegisterStep action s s' ∧ action.BlankFree

/-- The requests written are those taken and those waiting.  Those taken have been enqueued, or are
in hand, in order, each once or more often; of those waiting exactly the bytes are there. -/
structure RegisterState.Repeated (s : RegisterState) (taken waiting : List ConnectRequest) : Prop where
  arrived : s.arrived = taken ++ waiting
  repeats : Repeats taken (s.enqueued ++ s.pc.inHand)
  unread : (∀ fault, s.pc ≠ .Faulted fault) →
    s.buffer.take s.pc.bytesRead ++ s.fifo.pending = waiting.flatMap ConnectRequest.message

/-! ## The invariant -/

/-- What is in the buffer when nothing has been read into it since the last message was taken. -/
def HoldsLast (taken : List ConnectRequest) (buffer : List Byte) : Prop :=
  taken = [] ∧ buffer.headD 0 ≠ char '1' ∨
    ∃ front request, taken = front ++ [request] ∧ buffer = request.message

/-- With the size of the buffer, how much of it is filled, what it holds between two messages, and
messages that can be read back. -/
structure RegisterState.Held (s : RegisterState) (taken waiting : List ConnectRequest) : Prop
    extends s.Repeated taken waiting where
  room : s.buffer.length = connectSize
  bound : s.pc.bytesRead ≤ connectSize
  last : (∀ fault, s.pc ≠ .Faulted fault) → s.pc.bytesRead = 0 → HoldsLast taken s.buffer
  valid : ∀ request ∈ s.arrived, request.Fits ∧ request.BlankFree

/-- As many bytes as a message has, and they are whole messages: it is one. -/
lemma single_message {waiting : List ConnectRequest} {bytes : List Byte}
    (hvalid : ∀ request ∈ waiting, request.Fits)
    (hbytes : bytes = waiting.flatMap ConnectRequest.message) (hpos : bytes ≠ [])
    (hlength : bytes.length ≤ connectSize) : ∃ request, waiting = [request] ∧ bytes = request.message := by
  cases waiting with
  | nil => exact absurd hbytes hpos
  | cons request rest =>
      rw [hbytes, List.flatMap_cons, List.length_append, (hvalid request (by simp)).message_length]
        at hlength
      cases rest with
      | nil => exact ⟨request, rfl, by simpa using hbytes⟩
      | cons request' rest =>
          rw [List.flatMap_cons, List.length_append,
            (hvalid request' (by simp)).message_length] at hlength
          simp only [connectSize] at hlength
          omega

namespace RegisterState.Held

variable {s s' : RegisterState} {taken waiting : List ConnectRequest}

lemma initial {garbage : Fin connectSize → Byte}
    (hgarbage : (RegisterState.initial garbage).buffer.headD 0 ≠ char '1') :
    (RegisterState.initial garbage).Held [] [] where
  arrived := rfl
  repeats := .nil
  unread := fun _ => rfl
  room := List.length_ofFn
  bound := Nat.zero_le _
  last := fun _ _ => Or.inl ⟨rfl, hgarbage⟩
  valid := fun _ h => by cases h

/-- The FIFO opened or closed by a writer. -/
lemma of_pending (h : s.Held taken waiting) {fifo : Fifo} (hsame : fifo.pending = s.fifo.pending) :
    ({ s with fifo := fifo } : RegisterState).Held taken waiting where
  arrived := h.arrived
  repeats := h.repeats
  unread := fun hsound => by
    show s.buffer.take s.pc.bytesRead ++ fifo.pending = _
    rw [hsame]
    exact h.unread hsound
  room := h.room
  bound := h.bound
  last := h.last
  valid := h.valid

/-- One more message waits behind the others. -/
lemma clientWrites (h : s.Held taken waiting) {request : ConnectRequest} (hfits : request.Fits)
    (hblank : request.BlankFree) :
    ({ s with
        fifo := s.fifo.write request.message
        arrived := s.arrived ++ [request] } : RegisterState).Held taken (waiting ++ [request]) where
  arrived := by
    show s.arrived ++ [request] = _
    rw [h.arrived, List.append_assoc]
  repeats := h.repeats
  unread := fun hsound => by
    show s.buffer.take s.pc.bytesRead ++ (s.fifo.pending ++ request.message) = _
    rw [← List.append_assoc, h.unread hsound]
    simp
  room := h.room
  bound := h.bound
  last := h.last
  valid := fun r hr => by
    rcases List.mem_append.mp hr with hr | hr
    · exact h.valid r hr
    · obtain rfl := List.mem_singleton.mp hr
      exact ⟨hfits, hblank⟩

/-- A read within the buffer. -/
lemma afterRead_data (h : s.Held taken waiting) {bytesRead : ℕ} {data : List Byte} {fifo : Fifo}
    (hpc : s.pc = .Reading bytesRead) (hread : s.fifo.pending = data ++ fifo.pending)
    (hdata : data ≠ []) (hbound : bytesRead + data.length ≤ connectSize) :
    (s.afterRead bytesRead data fifo).Held taken waiting := by
  obtain ⟨buffer, hlength, htake, hafter⟩ := afterRead_of_data h.room hdata hbound fifo
  have hsound : ∀ fault, s.pc ≠ .Faulted fault := fun fault hfault => by
    rw [hpc] at hfault
    cases hfault
  have hrepeats := h.repeats
  have hunread := h.unread hsound
  rw [hpc] at hrepeats hunread
  have hpos := List.length_pos_of_ne_nil hdata
  rw [hafter]
  refine ⟨⟨h.arrived, hrepeats, fun _ => ?_⟩, hlength, hbound, fun _ hzero => ?_, h.valid⟩
  · show buffer.take (bytesRead + data.length) ++ fifo.pending = _
    rw [htake, List.append_assoc, ← hread]
    exact hunread
  · have hzero : bytesRead + data.length = 0 := hzero
    omega

/-- A read beyond it. -/
lemma afterRead_beyond (h : s.Held taken waiting) {bytesRead : ℕ} {data : List Byte} {fifo : Fifo}
    (hpc : s.pc = .Reading bytesRead) (hdata : data ≠ [])
    (hbound : connectSize < bytesRead + data.length) :
    (s.afterRead bytesRead data fifo).Held taken waiting := by
  have hstore : storeAt s.buffer bytesRead data = .error .outOfBounds :=
    storeAt_of_lt (by rw [h.room]; exact hbound)
  have hafter : s.afterRead bytesRead data fifo
      = { s with fifo := fifo, pc := .Faulted .outOfBounds } := by
    simp only [afterRead, readAllStep, if_neg hdata, hstore, error_bind]
  have hrepeats := h.repeats
  rw [hpc] at hrepeats
  rw [hafter]
  exact ⟨⟨h.arrived, hrepeats, fun hsound => absurd rfl (hsound .outOfBounds)⟩, h.room,
    Nat.zero_le _, fun hsound => absurd rfl (hsound .outOfBounds), h.valid⟩

/-- The end of file: the message that has been read is taken, or the one before once more, or there
was none. -/
lemma afterRead_endOfFile (h : s.Held taken waiting) {bytesRead : ℕ}
    (hpc : s.pc = .Reading bytesRead) (hempty : s.fifo.pending = []) :
    ∃ taken' waiting', (s.afterRead bytesRead [] s.fifo).Held taken' waiting' := by
  have hsound : ∀ fault, s.pc ≠ .Faulted fault := fun fault hfault => by
    rw [hpc] at hfault
    cases hfault
  have hrepeats := h.repeats
  have hunread := h.unread hsound
  have hbound := h.bound
  have hlast := h.last hsound
  rw [hpc] at hrepeats hunread hbound hlast
  rw [hempty, List.append_nil] at hunread
  simp only [RegisterPc.bytesRead] at hunread hbound hlast
  have hwaiting : ∀ request ∈ waiting, request.Fits ∧ request.BlankFree := by
    intro request hrequest
    refine h.valid request ?_
    rw [h.arrived]
    exact List.mem_append_right _ hrequest
  simp only [RegisterPc.inHand, List.append_nil] at hrepeats
  rw [afterRead_of_endOfFile]
  rcases Nat.eq_zero_or_pos bytesRead with rfl | hpos
  · -- nothing has been read, so nothing waits
    obtain rfl : waiting = [] := by
      cases waiting with
      | nil => rfl
      | cons request rest => cases hunread
    rcases hlast rfl with ⟨rfl, hhead⟩ | ⟨front, request, rfl, hbuffer⟩
    · rw [afterReadAll_of_none (connectRequest_eq_none hhead)]
      refine ⟨[], [], ⟨⟨h.arrived, ?_, fun _ => hempty⟩, h.room, Nat.zero_le _,
        fun _ _ => Or.inl ⟨rfl, hhead⟩, h.valid⟩⟩
      simpa [RegisterPc.inHand] using hrepeats
    · obtain ⟨hfits, hblank⟩ := h.valid request (by rw [h.arrived]; simp)
      have hrequest : connectRequest s.buffer = some request := by
        rw [hbuffer]
        exact connectRequest_message hfits hblank
      rw [afterReadAll_of_some hrequest]
      exact ⟨front ++ [request], [], ⟨⟨h.arrived, .again request hrepeats, fun _ => hempty⟩, h.room,
        Nat.zero_le _, fun _ _ => Or.inr ⟨front, request, rfl, hbuffer⟩, h.valid⟩⟩
  · -- what has been read is the only message that waits
    have hbytes : (s.buffer.take bytesRead).length = bytesRead := by
      rw [List.length_take, h.room]
      exact min_eq_left hbound
    obtain ⟨request, rfl, hmessage⟩ := single_message (fun r hr => (hwaiting r hr).1) hunread
      (List.ne_nil_of_length_pos (by rw [hbytes]; exact hpos)) (by rw [hbytes]; exact hbound)
    obtain ⟨hfits, hblank⟩ := hwaiting request (by simp)
    have hfull : bytesRead = connectSize := by
      rw [← hbytes, hmessage, hfits.message_length]
    have hbuffer : s.buffer = request.message := by
      rwa [List.take_of_length_le (by rw [h.room, hfull])] at hmessage
    have hrequest : connectRequest s.buffer = some request := by
      rw [hbuffer]
      exact connectRequest_message hfits hblank
    rw [afterReadAll_of_some hrequest]
    refine ⟨taken ++ [request], [], ⟨⟨?_, hrepeats.next request, fun _ => hempty⟩, h.room,
      Nat.zero_le _, fun _ _ => Or.inr ⟨taken, request, rfl, hbuffer⟩, h.valid⟩⟩
    rw [List.append_nil]
    exact h.arrived

/-- **Every step keeps the invariant.** -/
lemma step (h : s.Held taken waiting) (hstep : BlankFreeRegisterStep s s') :
    ∃ taken' waiting', s'.Held taken' waiting' := by
  obtain ⟨action, hstep, hblank⟩ := hstep
  cases hstep with
  | writerOpens => exact ⟨taken, waiting, h.of_pending rfl⟩
  | writerCloses hpos => exact ⟨taken, waiting, h.of_pending rfl⟩
  | clientWrites hpos hmessage =>
      obtain ⟨hfits, rfl⟩ := kvsConnect_eq hmessage
      exact ⟨taken, _, h.clientWrites hfits hblank⟩
  | hostOpens hpc hmet =>
      have hsound : ∀ fault, s.pc ≠ .Faulted fault := by simp [hpc]
      have hrepeats := h.repeats
      have hunread := h.unread hsound
      have hlast := h.last hsound
      rw [hpc] at hrepeats hunread hlast
      exact ⟨taken, waiting, ⟨h.arrived, hrepeats, fun _ => hunread⟩, h.room, Nat.zero_le _,
        fun _ => hlast, h.valid⟩
  | @hostReads _ bytesRead data fifo hpc hread =>
      have hpending := hread.pending
      cases hread with
      | data n hpos hcount hlength =>
          have hdata : s.fifo.pending.take n ≠ [] := Fifo.take_ne_nil hpos hlength
          by_cases hbound : bytesRead + (s.fifo.pending.take n).length ≤ connectSize
          · exact ⟨taken, waiting, h.afterRead_data hpc hpending hdata hbound⟩
          · exact ⟨taken, waiting, h.afterRead_beyond hpc hdata (by omega)⟩
      | endOfFile hempty hwriters => exact h.afterRead_endOfFile hpc hempty
  | hostEnqueues hpc =>
      have hsound : ∀ fault, s.pc ≠ .Faulted fault := by simp [hpc]
      have hrepeats := h.repeats
      have hunread := h.unread hsound
      have hlast := h.last hsound
      rw [hpc] at hrepeats hunread hlast
      refine ⟨taken, waiting, ⟨h.arrived, ?_, fun _ => hunread⟩, h.room, Nat.zero_le _,
        fun _ => hlast, h.valid⟩
      simpa [RegisterPc.inHand] using hrepeats

end RegisterState.Held

/-- The invariant of all runs. -/
lemma held_of_reachable {garbage : Fin connectSize → Byte}
    (hgarbage : (RegisterState.initial garbage).buffer.headD 0 ≠ char '1') {s : RegisterState}
    (h : Reachable BlankFreeRegisterStep (.initial garbage) s) :
    ∃ taken waiting, s.Held taken waiting :=
  h.invariant (fun s => ∃ taken waiting, s.Held taken waiting)
    ⟨[], [], RegisterState.Held.initial hgarbage⟩ fun _ _ ⟨_, _, hinv⟩ hstep => hinv.step hstep

/-- **The host takes messages and nothing else.** -/
theorem register_repeats {garbage : Fin connectSize → Byte}
    (hgarbage : (RegisterState.initial garbage).buffer.headD 0 ≠ char '1') {s : RegisterState}
    (h : Reachable BlankFreeRegisterStep (.initial garbage) s) :
    ∃ taken waiting, s.Repeated taken waiting := by
  obtain ⟨taken, waiting, hheld⟩ := held_of_reachable hgarbage h
  exact ⟨taken, waiting, hheld.toRepeated⟩

/-- One client has come and gone, and the host has found the end of file twice. -/
theorem register_repeats_twice :
    ∃ s : RegisterState, s.arrived = [firstClient] ∧ s.enqueued = [firstClient, firstClient] ∧
      ∃ taken waiting, s.Repeated taken waiting := by
  have hfirst : Reachable BlankFreeRegisterStep (.initial fun _ => 0) afterFirstClient := by
    refine reachable_afterFirstClient.mono fun s s' hstep => ?_
    obtain ⟨action, hstep, hframed⟩ := hstep
    refine ⟨action, hstep, ?_⟩
    cases action with
    | ClientWrites request => exact hframed
    | _ => trivial
  have hread := hfirst.tail ⟨_, .hostReads rfl (.endOfFile rfl rfl), trivial⟩
  have hrequest : connectRequest afterFirstClient.buffer = some firstClient :=
    connectRequest_message ⟨by decide, by decide, by decide⟩ ⟨by decide, by decide, by decide⟩
  rw [RegisterState.afterRead_of_endOfFile, afterReadAll_of_some hrequest] at hread
  have henqueued := hread.tail ⟨_, .hostEnqueues rfl, trivial⟩
  exact ⟨_, rfl, rfl, register_repeats (by decide) henqueued⟩

end Kvs
