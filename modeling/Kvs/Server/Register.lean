import Mathlib.Data.List.OfFn
import Kvs.Core.Threads
import Kvs.Common.Io
import Kvs.Client.Api

/-!
# Connect requests through the register FIFO

Any number of clients open the register FIFO, write a connect message and close it again, and the
host loop of `manages_register_fifo` takes the messages out.  `RegisterStep` is one step of either
side.

A message has 122 bytes and so has the buffer of the host, but the host asks `read_all` for 123.
As long as messages are waiting the 123rd byte is there to be read, and it is stored behind the
buffer.  If it never comes the message is complete when the last writer closes and `read_all`
returns 0, for end of file; the host looks at the buffer whatever `read_all` returned, and so takes
the message.  But it does so again at the next end of file, when nothing has been read and the
buffer still holds the message before.

`RegisterAction.Framed` is what a step must be like for none of this to happen.  In runs of such
steps every message is taken once and nothing else (`connect_requests_taken_once`), and any other
step of the host goes wrong at once (`unframed_read_goes_wrong`).
-/

namespace Kvs

/-! ## The host loop -/

/-- How many bytes the host asks for. -/
def registerReadSize : ℕ := 123

/-- One path of a connect message: `memcpy` of the field to a zeroed array one byte longer, in which
blanks are then replaced by NULs. -/
def pathField (buffer : List Byte) (offset : ℕ) : CString :=
  .ofBuffer ((((buffer.drop offset).take maxPipePathLength).map
    fun b => if b = char ' ' then 0 else b) ++ [0])

/-- What the host makes of its buffer: nothing unless the operation code is that of a connect. -/
def connectRequest (buffer : List Byte) : Option ConnectRequest :=
  let opcode : ℤ := (buffer.headD 0).toNat - 48
  if opcode = opCodeConnect then
    some ⟨pathField buffer 1, pathField buffer 41, pathField buffer 81⟩
  else none

/-- The host: opening the FIFO, inside `read_all`, about to enqueue, or beyond defined behaviour. -/
inductive RegisterPc where
  | Opening
  | Reading (bytesRead : ℕ)
  | Enqueuing (request : ConnectRequest)
  | Faulted (fault : Fault)
  deriving DecidableEq

/-- What has been read of the next message. -/
def RegisterPc.bytesRead : RegisterPc → ℕ
  | Reading bytesRead => bytesRead
  | _ => 0

/-- The request that is about to be enqueued. -/
def RegisterPc.inHand : RegisterPc → List ConnectRequest
  | Enqueuing request => [request]
  | _ => []

/-- Where the loop goes on when `read_all` has returned. -/
def afterReadAll (result : ℤ) (buffer : List Byte) : RegisterPc :=
  if result = -1 then .Reading 0
  else match connectRequest buffer with
    | some request => .Enqueuing request
    | none => .Reading 0

/-- The FIFO, the host with its buffer, and what has been written and enqueued so far. -/
structure RegisterState where
  fifo : Fifo
  buffer : List Byte
  pc : RegisterPc
  arrived : List ConnectRequest
  enqueued : List ConnectRequest

namespace RegisterState

/-- Before the host has opened the FIFO.  The buffer holds what was on the stack. -/
def initial (garbage : Fin connectSize → Byte) : RegisterState where
  fifo := ⟨[], 0, false⟩
  buffer := List.ofFn garbage
  pc := .Opening
  arrived := []
  enqueued := []

/-- The host after a `read`. -/
def afterRead (s : RegisterState) (bytesRead : ℕ) (data : List Byte) (fifo : Fifo) :
    RegisterState :=
  match readAllStep registerReadSize s.buffer bytesRead data with
  | .error fault => { s with fifo := fifo, pc := .Faulted fault }
  | .ok (buffer, .Reading bytesRead) =>
      { s with
        fifo := fifo
        buffer := buffer
        pc := .Reading bytesRead }
  | .ok (buffer, .Returned result) =>
      { s with
        fifo := fifo
        buffer := buffer
        pc := afterReadAll result buffer }

end RegisterState

/-- What can happen next. -/
inductive RegisterAction where
  | WriterOpens
  | WriterCloses
  | ClientWrites (request : ConnectRequest)
  | HostOpens
  | HostReads (data : List Byte)
  | HostEnqueues

/-- One step of a writer or of the host. -/
inductive RegisterStep : RegisterAction → RegisterState → RegisterState → Prop
  | writerOpens {s} : RegisterStep .WriterOpens s { s with fifo := s.fifo.openWriter }
  | writerCloses {s} : 0 < s.fifo.writers →
      RegisterStep .WriterCloses s { s with fifo := s.fifo.closeWriter }
  | clientWrites {s} {request : ConnectRequest} {message : List Byte} : 0 < s.fifo.writers →
      kvsConnect request = .ok message →
      RegisterStep (.ClientWrites request) s
        { s with fifo := s.fifo.write message, arrived := s.arrived ++ [request] }
  | hostOpens {s} : s.pc = .Opening → s.fifo.met = true →
      RegisterStep .HostOpens s { s with pc := .Reading 0 }
  | hostReads {s} {bytesRead : ℕ} {data : List Byte} {fifo : Fifo} : s.pc = .Reading bytesRead →
      s.fifo.Read (registerReadSize - bytesRead) data fifo →
      RegisterStep (.HostReads data) s (s.afterRead bytesRead data fifo)
  | hostEnqueues {s} {request : ConnectRequest} : s.pc = .Enqueuing request →
      RegisterStep .HostEnqueues s
        { s with pc := .Reading 0, enqueued := s.enqueued ++ [request] }

/-- A step of any kind. -/
def AnyRegisterStep (s s' : RegisterState) : Prop := ∃ action, RegisterStep action s s'

/-! ## Messages -/

/-- A path in which every byte is of the path: none is a blank, with which fields are filled up. -/
def CString.BlankFree (path : CString) : Prop := char ' ' ∉ path.bytes

instance (path : CString) : Decidable path.BlankFree :=
  inferInstanceAs (Decidable (char ' ' ∉ path.bytes))

namespace ConnectRequest

/-- The paths fit their fields. -/
structure Fits (request : ConnectRequest) : Prop where
  requestFifo : request.requestFifoName.length ≤ maxPipePathLength
  responseFifo : request.responseFifoName.length ≤ maxPipePathLength
  notificationFifo : request.notificationFifoName.length ≤ maxPipePathLength

/-- The paths can be told from what fills up their fields. -/
structure BlankFree (request : ConnectRequest) : Prop where
  requestFifo : request.requestFifoName.BlankFree
  responseFifo : request.responseFifoName.BlankFree
  notificationFifo : request.notificationFifoName.BlankFree

/-- The 122 bytes of a connect message. -/
def message (request : ConnectRequest) : List Byte := connectText request ++ [0]

lemma message_head (request : ConnectRequest) : request.message.headD 0 = char '1' := rfl

end ConnectRequest

lemma padRight_length (width : ℕ) (s : CString) : (padRight width s).length = max width s.length := by
  simp only [padRight, List.length_append, List.length_replicate, CString.length]
  omega

lemma connectText_length (request : ConnectRequest) : (connectText request).length
    = 1 + max maxPipePathLength request.requestFifoName.length
      + max maxPipePathLength request.responseFifoName.length
      + max maxPipePathLength request.notificationFifoName.length := by
  simp only [connectText, List.length_append, padRight_length]
  rfl

/-- `kvs_connect` writes the message of paths that fit. -/
lemma kvsConnect_of_fits {request : ConnectRequest} (h : request.Fits) :
    kvsConnect request = .ok request.message := by
  have hlength := connectText_length request
  rw [max_eq_left h.requestFifo, max_eq_left h.responseFifo, max_eq_left h.notificationFifo]
    at hlength
  simp only [maxPipePathLength] at hlength
  have hlt : (connectText request).length < connectSize := by rw [hlength]; decide
  have hpad : connectSize - (connectText request).length = 1 := by rw [hlength]; rfl
  rw [kvsConnect, sprintf_of_lt hlt, ok_bind, hpad, writeAll, List.take_of_length_le]
  · rfl
  · rw [List.length_append, hlength]
    decide

/-- It has no room for others. -/
lemma kvsConnect_eq {request : ConnectRequest} {bytes : List Byte}
    (hconnect : kvsConnect request = .ok bytes) : request.Fits ∧ bytes = request.message := by
  obtain ⟨formatted, hformatted, -⟩ := bind_eq_ok.mp hconnect
  unfold sprintf at hformatted
  split at hformatted
  · rename_i hlt
    have hlength := connectText_length request
    have hwidth : maxPipePathLength = 40 := rfl
    have hsize : connectSize = 122 := rfl
    have hfits : request.Fits := ⟨by omega, by omega, by omega⟩
    exact ⟨hfits, Except.ok.inj (hconnect.symm.trans (kvsConnect_of_fits hfits))⟩
  · cases hformatted

lemma ConnectRequest.Fits.message_length {request : ConnectRequest} (h : request.Fits) :
    request.message.length = connectSize := by
  obtain ⟨hrequest, hresponse, hnotification⟩ := h
  rw [message, List.length_append, connectText_length, max_eq_left hrequest,
    max_eq_left hresponse, max_eq_left hnotification]
  rfl

/-- The field of a path, cut at the first blank, is the path. -/
lemma ofBuffer_padRight {path : CString} (hblank : path.BlankFree) :
    CString.ofBuffer (((padRight maxPipePathLength path).map
      fun b => if b = char ' ' then 0 else b) ++ [0]) = path := by
  have hbytes : path.bytes.map (fun b => if b = char ' ' then 0 else b) = path.bytes := by
    refine (List.map_congr_left fun b hb => ?_).trans (List.map_id _)
    have hne : b ≠ char ' ' := fun heq => hblank (by rwa [heq] at hb)
    exact if_neg hne
  rw [padRight, List.map_append, List.map_replicate, if_pos rfl, hbytes, List.append_assoc,
    ← List.replicate_succ']
  exact CString.ofBuffer_append_nul path _

/-- A field of a message, behind what is in front of it. -/
lemma pathField_append {path : CString} (hfits : path.length ≤ maxPipePathLength)
    (hblank : path.BlankFree) {front : List Byte} {offset : ℕ} (hoffset : front.length = offset)
    (rest : List Byte) :
    pathField (front ++ (padRight maxPipePathLength path ++ rest)) offset = path := by
  have hlength : (padRight maxPipePathLength path).length = maxPipePathLength := by
    rw [padRight_length, max_eq_left hfits]
  rw [pathField, List.drop_left' hoffset, List.take_left' hlength, ofBuffer_padRight hblank]

/-- **What the host makes of a message** is the request of the client. -/
lemma connectRequest_message {request : ConnectRequest} (hfits : request.Fits)
    (hblank : request.BlankFree) : connectRequest request.message = some request := by
  set first := padRight maxPipePathLength request.requestFifoName with hfirst
  set second := padRight maxPipePathLength request.responseFifoName with hsecond
  set third := padRight maxPipePathLength request.notificationFifoName with hthird
  have hmessage : request.message = text "1" ++ first ++ second ++ third ++ [0] := rfl
  have hfirstLength : first.length = 40 := by
    rw [hfirst, padRight_length, max_eq_left hfits.requestFifo]
    rfl
  have hsecondLength : second.length = 40 := by
    rw [hsecond, padRight_length, max_eq_left hfits.responseFifo]
    rfl
  have htext : (text "1").length = 1 := rfl
  have hrequest : pathField request.message 1 = request.requestFifoName := by
    rw [hmessage, List.append_assoc, List.append_assoc, List.append_assoc]
    exact pathField_append hfits.requestFifo hblank.requestFifo htext _
  have hresponse : pathField request.message 41 = request.responseFifoName := by
    rw [hmessage, List.append_assoc, List.append_assoc]
    refine pathField_append hfits.responseFifo hblank.responseFifo ?_ _
    rw [List.length_append, htext, hfirstLength]
  have hnotification : pathField request.message 81 = request.notificationFifoName := by
    rw [hmessage, List.append_assoc]
    refine pathField_append hfits.notificationFifo hblank.notificationFifo ?_ _
    rw [List.length_append, List.length_append, htext, hfirstLength, hsecondLength]
  have hopcode : ((request.message.headD 0).toNat : ℤ) - 48 = opCodeConnect := by
    rw [request.message_head]
    decide
  rw [connectRequest, if_pos hopcode, hrequest, hresponse, hnotification]

/-- A buffer with another first byte is no message. -/
lemma connectRequest_eq_none {buffer : List Byte} (h : buffer.headD 0 ≠ char '1') :
    connectRequest buffer = none := by
  refine if_neg fun hopcode => h (UInt8.toNat_inj.mp ?_)
  have hone : (char '1').toNat = 49 := rfl
  simp only [opCodeConnect] at hopcode
  omega

lemma connectRequest_isSome {buffer : List Byte} (h : buffer.headD 0 = char '1') :
    ∃ request, connectRequest buffer = some request := by
  refine ⟨_, if_pos ?_⟩
  rw [h]
  decide

/-! ## The property -/

/-- **Every message is taken once.**  The host has not left defined behaviour; the messages written
so far are, in order, those enqueued, the one in hand and some that wait, and of those exactly the
bytes are there: what has been read of the first, and then the contents of the FIFO. -/
structure RegisterState.TakenOnce (s : RegisterState) (waiting : List ConnectRequest) : Prop where
  sound : ∀ fault, s.pc ≠ .Faulted fault
  taken : s.arrived = s.enqueued ++ s.pc.inHand ++ waiting
  unread : s.buffer.take s.pc.bytesRead ++ s.fifo.pending = waiting.flatMap ConnectRequest.message

/-- What a step must be like: paths are free of blanks; a read takes no byte beyond a message; and
it finds the end of file only with a whole message read, or with nothing in the buffer that looks
like one. -/
def RegisterAction.Framed (s : RegisterState) : RegisterAction → Prop
  | ClientWrites request => request.BlankFree
  | HostReads data =>
      if data = [] then s.pc.bytesRead = connectSize ∨ s.buffer.headD 0 ≠ char '1'
      else s.pc.bytesRead + data.length ≤ connectSize
  | _ => True

/-- A framed step. -/
def FramedRegisterStep (s s' : RegisterState) : Prop :=
  ∃ action, RegisterStep action s s' ∧ action.Framed s

/-! ## Framed runs -/

/-- The invariant of framed runs: every message is taken once, the buffer has its size, no more than
a message has been read into it, and the messages that wait can be read back. -/
structure RegisterState.Inv (s : RegisterState) (waiting : List ConnectRequest) : Prop
    extends s.TakenOnce waiting where
  room : s.buffer.length = connectSize
  bound : s.pc.bytesRead ≤ connectSize
  valid : ∀ request ∈ waiting, request.Fits ∧ request.BlankFree

namespace RegisterState

variable {s : RegisterState} {bytesRead : ℕ}

/-- What is read within a message is stored behind what has been read of it. -/
lemma afterRead_of_data (hroom : s.buffer.length = connectSize) {data : List Byte}
    (hdata : data ≠ []) (hbound : bytesRead + data.length ≤ connectSize) (fifo : Fifo) :
    ∃ buffer, buffer.length = connectSize ∧
      buffer.take (bytesRead + data.length) = s.buffer.take bytesRead ++ data ∧
      s.afterRead bytesRead data fifo
        = ⟨fifo, buffer, .Reading (bytesRead + data.length), s.arrived, s.enqueued⟩ := by
  obtain ⟨buffer, hstore, hlength, htake⟩ := storeAt_of_le (hroom.symm ▸ hbound)
  have hmore : bytesRead + data.length < registerReadSize := Nat.lt_succ_of_le hbound
  refine ⟨buffer, hlength.trans hroom, htake, ?_⟩
  simp only [afterRead, readAllStep, if_neg hdata, hstore, ok_bind, pure_eq_ok, if_pos hmore]

/-- At the end of file the host looks at its buffer, whatever it has read. -/
lemma afterRead_of_endOfFile (fifo : Fifo) : s.afterRead bytesRead [] fifo
    = ⟨fifo, s.buffer, afterReadAll 0 s.buffer, s.arrived, s.enqueued⟩ := rfl

end RegisterState

lemma afterReadAll_of_some {buffer : List Byte} {request : ConnectRequest}
    (h : connectRequest buffer = some request) : afterReadAll 0 buffer = .Enqueuing request := by
  simp only [afterReadAll, h]
  rfl

lemma afterReadAll_of_none {buffer : List Byte} (h : connectRequest buffer = none) :
    afterReadAll 0 buffer = .Reading 0 := by
  simp only [afterReadAll, h]
  rfl

namespace RegisterState.Inv

variable {s s' : RegisterState} {waiting : List ConnectRequest}

lemma initial (garbage : Fin connectSize → Byte) : (RegisterState.initial garbage).Inv [] where
  sound := fun _ h => by cases h
  taken := rfl
  unread := rfl
  room := List.length_ofFn
  bound := Nat.zero_le _
  valid := fun _ h => by cases h

/-- The FIFO opened or closed by a writer. -/
lemma of_pending (h : s.Inv waiting) {fifo : Fifo} (hsame : fifo.pending = s.fifo.pending) :
    ({ s with fifo := fifo } : RegisterState).Inv waiting where
  sound := h.sound
  taken := h.taken
  unread := by
    show s.buffer.take s.pc.bytesRead ++ fifo.pending = _
    rw [hsame]
    exact h.unread
  room := h.room
  bound := h.bound
  valid := h.valid

/-- One more message waits behind the others. -/
lemma clientWrites (h : s.Inv waiting) {request : ConnectRequest} (hfits : request.Fits)
    (hblank : request.BlankFree) :
    ({ s with
        fifo := s.fifo.write request.message
        arrived := s.arrived ++ [request] } : RegisterState).Inv (waiting ++ [request]) where
  sound := h.sound
  taken := by
    show s.arrived ++ [request] = _
    rw [h.taken, List.append_assoc]
  unread := by
    show s.buffer.take s.pc.bytesRead ++ (s.fifo.pending ++ request.message) = _
    rw [← List.append_assoc, h.unread]
    simp
  room := h.room
  bound := h.bound
  valid := fun r hr => by
    rcases List.mem_append.mp hr with hr | hr
    · exact h.valid r hr
    · obtain rfl := List.mem_singleton.mp hr
      exact ⟨hfits, hblank⟩

/-- Bytes of the message are read, and none beyond. -/
lemma afterRead_data (h : s.Inv waiting) {bytesRead : ℕ} {data : List Byte} {fifo : Fifo}
    (hpc : s.pc = .Reading bytesRead) (hread : s.fifo.pending = data ++ fifo.pending)
    (hdata : data ≠ []) (hbound : bytesRead + data.length ≤ connectSize) :
    (s.afterRead bytesRead data fifo).Inv waiting := by
  obtain ⟨buffer, hlength, htake, hafter⟩ := afterRead_of_data h.room hdata hbound fifo
  have htaken := h.taken
  have hunread := h.unread
  rw [hpc] at htaken hunread
  rw [hafter]
  refine ⟨⟨nofun, htaken, ?_⟩, hlength, hbound, h.valid⟩
  show buffer.take (bytesRead + data.length) ++ fifo.pending = _
  rw [htake, List.append_assoc, ← hread]
  exact hunread

/-- The end of file behind a whole message: the message is taken. -/
lemma afterRead_whole (h : s.Inv waiting) (hpc : s.pc = .Reading connectSize)
    (hempty : s.fifo.pending = []) : (s.afterRead connectSize [] s.fifo).Inv [] := by
  have hunread := h.unread
  have htaken := h.taken
  rw [hpc, hempty, List.append_nil, RegisterPc.bytesRead,
    List.take_of_length_le h.room.le] at hunread
  rw [hpc] at htaken
  obtain ⟨request, rfl⟩ : ∃ request, waiting = [request] := by
    have hroom := h.room
    rw [hunread] at hroom
    cases waiting with
    | nil => cases hroom
    | cons request rest =>
        refine ⟨request, ?_⟩
        rw [List.flatMap_cons, List.length_append,
          (h.valid request (by simp)).1.message_length] at hroom
        cases rest with
        | nil => rfl
        | cons request' rest =>
            rw [List.flatMap_cons, List.length_append,
              (h.valid request' (by simp)).1.message_length] at hroom
            simp only [connectSize] at hroom
            omega
  have hbuffer : s.buffer = request.message := by simpa using hunread
  have hrequest : connectRequest s.buffer = some request := by
    rw [hbuffer]
    exact connectRequest_message (h.valid request (by simp)).1 (h.valid request (by simp)).2
  rw [afterRead_of_endOfFile, afterReadAll_of_some hrequest]
  refine ⟨⟨nofun, ?_, hempty⟩, h.room, Nat.zero_le _, fun _ hr => by cases hr⟩
  rw [htaken]
  simp [RegisterPc.inHand]

/-- The end of file with nothing in the buffer: nothing is taken, and nothing waits. -/
lemma afterRead_nothing (h : s.Inv waiting) {bytesRead : ℕ} (hpc : s.pc = .Reading bytesRead)
    (hempty : s.fifo.pending = []) (hhead : s.buffer.headD 0 ≠ char '1') :
    (s.afterRead bytesRead [] s.fifo).Inv [] := by
  have hunread := h.unread
  have htaken := h.taken
  rw [hpc, hempty, List.append_nil] at hunread
  rw [hpc] at htaken
  obtain rfl : waiting = [] := by
    by_contra hne
    obtain ⟨request, rest, rfl⟩ := List.exists_cons_of_ne_nil hne
    have hcons : s.buffer.take bytesRead = char '1' :: _ := hunread
    cases hbuffer : s.buffer with
    | nil => rw [hbuffer, List.take_nil] at hcons; cases hcons
    | cons b buffer =>
        cases bytesRead with
        | zero => cases hcons
        | succ n =>
            rw [hbuffer, List.take_succ_cons] at hcons
            rw [hbuffer] at hhead
            exact hhead (List.cons.inj hcons).1
  rw [afterRead_of_endOfFile, afterReadAll_of_none (connectRequest_eq_none hhead)]
  exact ⟨⟨nofun, htaken, hempty⟩, h.room, Nat.zero_le _, h.valid⟩

/-- **Every framed step keeps the invariant.** -/
lemma step (h : s.Inv waiting) (hstep : FramedRegisterStep s s') :
    ∃ waiting', s'.Inv waiting' := by
  obtain ⟨action, hstep, hframed⟩ := hstep
  cases hstep with
  | writerOpens => exact ⟨waiting, h.of_pending rfl⟩
  | writerCloses hpos => exact ⟨waiting, h.of_pending rfl⟩
  | clientWrites hpos hmessage =>
      obtain ⟨hfits, rfl⟩ := kvsConnect_eq hmessage
      exact ⟨_, h.clientWrites hfits hframed⟩
  | hostOpens hpc hmet =>
      have htaken := h.taken
      have hunread := h.unread
      rw [hpc] at htaken hunread
      exact ⟨waiting, ⟨nofun, htaken, hunread⟩, h.room, Nat.zero_le _, h.valid⟩
  | hostReads hpc hread =>
      have hpending := hread.pending
      simp only [RegisterAction.Framed, hpc, RegisterPc.bytesRead] at hframed
      cases hread with
      | data n hpos hcount hlength =>
          have hdata : s.fifo.pending.take n ≠ [] := Fifo.take_ne_nil hpos hlength
          rw [if_neg hdata] at hframed
          exact ⟨waiting, h.afterRead_data hpc hpending hdata hframed⟩
      | endOfFile hempty hwriters =>
          rw [if_pos rfl] at hframed
          rcases hframed with rfl | hhead
          · exact ⟨[], h.afterRead_whole hpc hempty⟩
          · exact ⟨[], h.afterRead_nothing hpc hempty hhead⟩
  | hostEnqueues hpc =>
      rename_i request
      have htaken := h.taken
      have hunread := h.unread
      rw [hpc] at htaken hunread
      refine ⟨waiting, ⟨nofun, ?_, hunread⟩, h.room, Nat.zero_le _, h.valid⟩
      show s.arrived = s.enqueued ++ [request] ++ [] ++ waiting
      rw [htaken, List.append_nil]
      rfl

end RegisterState.Inv

/-- **Framed runs take every message once.**  For any number of clients, in any interleaving of
their opening, writing and closing with the steps of the host, and whatever the host's buffer holds
at the beginning, if every step is framed then in every state the messages written so far are, in
order, those enqueued with their own paths, the one about to be, and those whose bytes have still to
be read. -/
theorem connect_requests_taken_once {garbage : Fin connectSize → Byte} {s : RegisterState}
    (h : Reachable FramedRegisterStep (.initial garbage) s) : ∃ waiting, s.TakenOnce waiting := by
  obtain ⟨waiting, hinv⟩ := h.invariant (fun s => ∃ waiting, s.Inv waiting)
    ⟨[], RegisterState.Inv.initial garbage⟩ fun _ _ ⟨_, hinv⟩ hstep => hinv.step hstep
  exact ⟨waiting, hinv.toTakenOnce⟩

/-! ## Beyond them -/

/-- **A read of the host that is not framed goes wrong at once**: it stores behind the buffer, or
what it leads to is an entry that no message stands for. -/
theorem unframed_read_goes_wrong {garbage : Fin connectSize → Byte} {s s' : RegisterState}
    {data : List Byte} (h : Reachable FramedRegisterStep (.initial garbage) s)
    (hstep : RegisterStep (.HostReads data) s s') (hframed : ¬ (RegisterAction.HostReads data).Framed s) :
    ¬ ∃ waiting, s'.TakenOnce waiting := by
  obtain ⟨waiting, h⟩ := h.invariant (fun s => ∃ waiting, s.Inv waiting)
    ⟨[], RegisterState.Inv.initial garbage⟩ fun _ _ ⟨_, hinv⟩ hstep => hinv.step hstep
  rintro ⟨waiting', h'⟩
  cases hstep with
  | hostReads hpc hread =>
      rename_i bytesRead fifo
      have htaken := h.taken
      have hunread := h.unread
      rw [hpc] at htaken hunread
      simp only [RegisterAction.Framed, hpc, RegisterPc.bytesRead] at hframed
      cases hread with
      | data n hpos hcount hlength =>
          have hdata : s.fifo.pending.take n ≠ [] := Fifo.take_ne_nil hpos hlength
          rw [if_neg hdata] at hframed
          have hstore : storeAt s.buffer bytesRead (s.fifo.pending.take n) = .error .outOfBounds :=
            storeAt_of_lt (by rw [h.room]; omega)
          refine h'.sound .outOfBounds ?_
          simp only [RegisterState.afterRead, readAllStep, if_neg hdata, hstore, error_bind]
      | endOfFile hempty hwriters =>
          rw [if_pos rfl, not_or, not_not] at hframed
          obtain ⟨hbroken, hhead⟩ := hframed
          obtain ⟨request, hrequest⟩ := connectRequest_isSome hhead
          rw [RegisterState.afterRead_of_endOfFile, afterReadAll_of_some hrequest] at h'
          -- the entry would have to stand for the first message waiting, which is not read whole
          have hsame : waiting = request :: waiting' := by
            have heq := htaken.symm.trans h'.taken
            simpa [RegisterPc.inHand, List.append_assoc] using heq
          have hlength := congrArg List.length hunread
          rw [hempty, hsame, List.flatMap_cons, List.length_append, List.length_append,
            (h.valid request (by simp [hsame])).1.message_length, List.length_take, h.room] at hlength
          have hbound := h.bound
          rw [hpc] at hbound
          simp only [RegisterPc.bytesRead, List.length_nil] at hlength hbound hbroken
          omega

/-! ## One client at a time -/

/-- A run that is continued by a framed step. -/
lemma Reachable.framed {init s s' : RegisterState} {action : RegisterAction}
    (h : Reachable FramedRegisterStep init s) (hstep : RegisterStep action s s')
    (hframed : action.Framed s) : Reachable FramedRegisterStep init s' :=
  h.tail ⟨action, hstep, hframed⟩

/-- A message that is all there is to read is read into the buffer at one go. -/
lemma RegisterStep.reads_message {s : RegisterState} {request : ConnectRequest} {writers : ℕ}
    (hpc : s.pc = .Reading 0) (hpending : s.fifo.pending = request.message)
    (hwriters : s.fifo.writers = writers) (hroom : s.buffer.length = connectSize)
    (hfits : request.Fits) :
    RegisterStep (.HostReads request.message) s { s with
      fifo := ⟨[], writers, s.fifo.met⟩
      buffer := request.message
      pc := .Reading connectSize } := by
  subst hwriters
  have hlength := hfits.message_length
  have hne : request.message ≠ [] := by
    rw [Ne, ← List.length_eq_zero_iff, hlength]
    decide
  have hdata : s.fifo.Read (registerReadSize - 0) request.message
      ⟨[], s.fifo.writers, s.fifo.met⟩ := by
    have hread : s.fifo.Read (registerReadSize - 0) (s.fifo.pending.take connectSize) _ :=
      .data connectSize (by decide) (by decide) (by rw [hpending, hlength])
    rwa [hpending, ← hlength, List.take_length, List.drop_length] at hread
  obtain ⟨buffer, hbufferLength, hbuffer, hafter⟩ := RegisterState.afterRead_of_data (s := s)
    hroom hne (by rw [hlength, Nat.zero_add connectSize]) ⟨[], s.fifo.writers, s.fifo.met⟩
  rw [Nat.zero_add, hlength] at hbuffer hafter
  rw [List.take_zero, List.nil_append, List.take_of_length_le hbufferLength.le] at hbuffer
  have hread := RegisterStep.hostReads hpc hdata
  rwa [hafter, hbuffer] at hread

/-- The end of file behind it has it enqueued. -/
lemma RegisterStep.finds_end {s : RegisterState} {bytesRead : ℕ} (hpc : s.pc = .Reading bytesRead)
    (hempty : s.fifo.pending = []) (hwriters : s.fifo.writers = 0) {request : ConnectRequest}
    (hbuffer : s.buffer = request.message) (hfits : request.Fits) (hblank : request.BlankFree) :
    RegisterStep (.HostReads []) s { s with pc := .Enqueuing request } := by
  have hrequest : connectRequest s.buffer = some request := by
    rw [hbuffer]
    exact connectRequest_message hfits hblank
  have hread := RegisterStep.hostReads hpc (.endOfFile hempty hwriters)
  rwa [RegisterState.afterRead_of_endOfFile, afterReadAll_of_some hrequest] at hread

/-- **A client that is alone is served.**  While the host waits and one writer has the empty FIFO
open, that client can write its message and close the FIFO, and the host reads the message, finds
the end of file behind it and enqueues the request, all in framed steps. -/
lemma lone_client_served {init s : RegisterState} (h : Reachable FramedRegisterStep init s)
    (hpc : s.pc = .Reading 0) (hempty : s.fifo.pending = []) (hwriter : s.fifo.writers = 1)
    (hroom : s.buffer.length = connectSize) {request : ConnectRequest}
    (hfits : request.Fits) (hblank : request.BlankFree) :
    Reachable FramedRegisterStep init ⟨⟨[], 0, s.fifo.met⟩, request.message, .Reading 0,
      s.arrived ++ [request], s.enqueued ++ [request]⟩ := by
  have hlength := hfits.message_length
  have hne : request.message ≠ [] := by
    rw [Ne, ← List.length_eq_zero_iff, hlength]
    decide
  have hpending : (s.fifo.write request.message).pending = request.message := by
    simp [Fifo.write, hempty]
  -- the message is written and read
  have hwrite := h.framed (.clientWrites (by omega) (kvsConnect_of_fits hfits)) hblank
  have hread := hwrite.framed (.reads_message hpc hpending hwriter hroom hfits) (by
    rw [RegisterAction.Framed, if_neg hne, hlength, hpc]
    decide)
  -- the client closes the FIFO, and the host finds its end and enqueues
  have hclose := hread.framed (.writerCloses Nat.one_pos) trivial
  have hend := hclose.framed (.finds_end rfl rfl rfl rfl hfits hblank) (Or.inl rfl)
  exact hend.framed (.hostEnqueues rfl) trivial

/-- A client's paths. -/
def firstClient : ConnectRequest :=
  ⟨.lit "/tmp/req1", .lit "/tmp/resp1", .lit "/tmp/notif1"⟩

/-- The state when one client has come, written its message and gone. -/
def afterFirstClient : RegisterState :=
  ⟨⟨[], 0, true⟩, firstClient.message, .Reading 0, [firstClient], [firstClient]⟩

lemma reachable_afterFirstClient :
    Reachable FramedRegisterStep (.initial fun _ => 0) afterFirstClient := by
  have hopen := (Reachable.refl (RegisterState.initial fun _ => 0)).framed .writerOpens trivial
  have hhost := hopen.framed (.hostOpens rfl rfl) trivial
  exact lone_client_served hhost rfl rfl rfl List.length_ofFn ⟨by decide, by decide, by decide⟩
    ⟨by decide, by decide, by decide⟩

theorem connect_requests_taken_once_first :
    ∃ waiting, afterFirstClient.TakenOnce waiting ∧ afterFirstClient.enqueued = [firstClient] := by
  obtain ⟨waiting, h⟩ := connect_requests_taken_once reachable_afterFirstClient
  exact ⟨waiting, h, rfl⟩

/-- The client has gone, the host reads the end of file once more, and the buffer still holds the
message: it is about to be enqueued a second time. -/
theorem connect_request_taken_twice :
    ¬ ∀ (garbage : Fin connectSize → Byte) (s : RegisterState),
        Reachable AnyRegisterStep (.initial garbage) s → ∃ waiting, s.TakenOnce waiting := by
  intro h
  have hstep : RegisterStep (.HostReads []) afterFirstClient
      (afterFirstClient.afterRead 0 [] afterFirstClient.fifo) :=
    .hostReads rfl (.endOfFile rfl rfl)
  have hreach := (reachable_afterFirstClient.mono fun _ _ ⟨action, hstep, _⟩ =>
    (⟨action, hstep⟩ : AnyRegisterStep _ _)).tail ⟨_, hstep⟩
  refine unframed_read_goes_wrong reachable_afterFirstClient hstep ?_ (h _ _ hreach)
  rintro (hwhole | hhead)
  · exact absurd hwhole (by decide)
  · exact hhead rfl

end Kvs
