import Kvs.Client.Api
import Kvs.Common.Reads

/-!
# What a client makes of the replies

Each of the four calls of `src/client/api.c` waits for a reply of two digits, the operation and its
result, and prints a message with the result in it.  How many bytes it reads is
`strlen(buffer_response)`, of a buffer of three bytes that nothing has been stored in; and the message is
put together in a buffer of 40 bytes, which not all of the messages fit.

* `report` — a call from its `read_all` on, given what its buffer happens to hold and the bytes that come
  through the response FIFO.
* `session_reported_iff` — the calls of a session take their replies, each its own and all of it, and
  print them, exactly if every buffer happens to hold two bytes and a NUL and every message fits.  With
  digits for results no `kvs_disconnect` and no `kvs_unsubscribe` is among the calls then.
-/

namespace Kvs

/-! ## One call -/

inductive ApiCall where
  | Connect
  | Disconnect
  | Subscribe
  | Unsubscribe
  deriving DecidableEq

/-- The end of the message of a call. -/
def ApiCall.trailer : ApiCall → CString
  | Connect => .lit "for operation:connect"
  | Disconnect => .lit "for operation:disconnect"
  | Subscribe => .lit "for operation:subscribe"
  | Unsubscribe => .lit "for operation:unsubscribe"

/-- What a `char buffer_response[3]` holds to begin with. -/
abbrev ReplyBuffer := { bytes : List Byte // bytes.length = 3 }

/-- `read_all` of `strlen(buffer_response)` bytes: the buffer behind it, and the bytes not read.  If
there are fewer the FIFO has been closed, and what has come is stored. -/
def readReply (buffer : ReplyBuffer) (stream : List Byte) : Except Fault (List Byte × List Byte) := do
  let stale ← readBuffer buffer.val
  pure (storedIn buffer.val (stream.take stale.length), stream.drop stale.length)

/-- `message`, put together. -/
def replyMessage (call : ApiCall) (result : Byte) : Except Fault CString := do
  let message ← strcpy maxStringSize (.lit "Server returned")
  let message ← strcat maxStringSize message.val (.ofBuffer [result])
  let message ← strcat maxStringSize message.val call.trailer
  pure message.val

/-- A call from its `read_all` on: what it prints, and the bytes not read. -/
def report (call : ApiCall) (buffer : ReplyBuffer) (stream : List Byte) :
    Except Fault (List Byte × List Byte) := do
  let (reply, stream) ← readReply buffer stream
  let message ← replyMessage call (reply.getD 1 0)
  pure (writeAll message.bytes message.length, stream)

/-! ## A session -/

/-- The calls of a session one after the other, with the buffer of each.  A disconnect closes the
response FIFO, so it is the last call of a session if it is one. -/
def reportAll : List (ApiCall × ReplyBuffer) → List Byte →
    Except Fault (List (List Byte) × List Byte)
  | [], stream => pure ([], stream)
  | (call, buffer) :: calls, stream => do
      let (message, stream) ← report call buffer stream
      let (messages, stream) ← reportAll calls stream
      pure (message :: messages, stream)

/-- A call, what its buffer holds, and the reply the server sends to it. -/
structure Exchange where
  call : ApiCall
  buffer : ReplyBuffer
  code : Byte
  result : Byte

namespace Exchange

def reply (e : Exchange) : List Byte := [e.code, e.result]

/-- What the call should print. -/
def message (e : Exchange) : List Byte :=
  text "Server returned" ++ ((CString.ofBuffer [e.result]).bytes ++ e.call.trailer.bytes)

/-- The buffer happens to hold a string of the length of a reply. -/
def InStep (e : Exchange) : Prop := ∃ stale, readBuffer e.buffer.val = .ok stale ∧ stale.length = 2

/-- The message has room in 40 bytes. -/
def MessageFits (e : Exchange) : Prop :=
  e.call = .Connect ∨ e.call = .Subscribe ∨ (e.call = .Disconnect ∧ e.result = 0)

end Exchange

/-! ## Messages -/

lemma result_length_le (result : Byte) : (CString.ofBuffer [result]).length ≤ 1 :=
  CString.ofBuffer_length_le _

/-- The message, if there is room for it. -/
lemma replyMessage_eq (call : ApiCall) (result : Byte) : replyMessage call result
    = if (CString.ofBuffer [result]).length + call.trailer.length < 25 then
        .ok (.lit "Server returned" ++ .ofBuffer [result] ++ call.trailer)
      else .error .outOfBounds := by
  have hfirst : (CString.lit "Server returned").length = 15 := by decide
  have hresult := result_length_le result
  have hcopy : (CString.lit "Server returned").Fits maxStringSize := by decide
  have hdigit : (CString.lit "Server returned" ++ .ofBuffer [result]).Fits maxStringSize := by
    rw [CString.Fits, CString.length_append, hfirst, maxStringSize]
    omega
  have hfits : (CString.lit "Server returned" ++ .ofBuffer [result] ++ call.trailer).Fits
      maxStringSize ↔ (CString.ofBuffer [result]).length + call.trailer.length < 25 := by
    rw [CString.Fits, CString.length_append, CString.length_append, hfirst, maxStringSize]
    omega
  simp only [replyMessage, strcpy_of_fits hcopy, strcat_of_fits hdigit, ok_bind]
  by_cases hroom : (CString.ofBuffer [result]).length + call.trailer.length < 25
  · rw [strcat_of_fits (hfits.mpr hroom), if_pos hroom]
    rfl
  · rw [strcat, dif_neg (fun h => hroom (hfits.mp h)), if_neg hroom]
    rfl

/-- A result that is no NUL is one byte. -/
lemma result_length (result : Byte) :
    (CString.ofBuffer [result]).length = if result = 0 then 0 else 1 := by
  by_cases h : result = 0
  · simp [h, CString.ofBuffer, CString.length]
  · simp [h, CString.ofBuffer, CString.length]

/-- **Which messages fit.** -/
lemma Exchange.messageFits_iff (e : Exchange) : e.MessageFits ↔
    (CString.ofBuffer [e.result]).length + e.call.trailer.length < 25 := by
  have hle := result_length_le e.result
  have hconnect : ApiCall.Connect.trailer.length = 21 := by decide
  have hsubscribe : ApiCall.Subscribe.trailer.length = 23 := by decide
  have hunsubscribe : ApiCall.Unsubscribe.trailer.length = 25 := by decide
  have hdisconnect : ApiCall.Disconnect.trailer.length = 24 := by decide
  have hlength := result_length e.result
  unfold Exchange.MessageFits
  cases e.call with
  | Connect => simp [hconnect]; omega
  | Subscribe => simp [hsubscribe]; omega
  | Unsubscribe => simp [hunsubscribe]
  | Disconnect =>
      rw [hdisconnect, hlength]
      by_cases hresult : e.result = 0
      · simp [hresult]
      · simp [hresult]

/-! ## In step -/

/-- Three bytes with a NUL among them hold at most two others. -/
lemma stale_length_le {buffer : ReplyBuffer} {stale : CString}
    (h : readBuffer buffer.val = .ok stale) : stale.length ≤ 2 := by
  unfold readBuffer at h
  split_ifs at h with hmem
  obtain rfl := Except.ok.inj h
  by_contra hlong
  have hle := CString.ofBuffer_length_le buffer.val
  rw [buffer.prop] at hle
  have hwhole : buffer.val.takeWhile (· ≠ 0) = buffer.val := by
    refine (List.takeWhile_prefix _).eq_of_length ?_
    rw [buffer.prop]
    simp only [CString.length, CString.ofBuffer] at hle hlong
    omega
  have hzero := List.takeWhile_eq_self_iff.mp hwhole 0 hmem
  simp at hzero

/-- A call that ends well has taken as many bytes as its buffer said. -/
lemma report_eq_ok {call : ApiCall} {buffer : ReplyBuffer} {stream message rest : List Byte}
    (h : report call buffer stream = .ok (message, rest)) :
    ∃ stale, readBuffer buffer.val = .ok stale ∧ rest = stream.drop stale.length := by
  simp only [report, readReply, bind_eq_ok] at h
  obtain ⟨⟨reply, stream'⟩, ⟨stale, hstale, hreply⟩, text, -, hresult⟩ := h
  obtain ⟨-, rfl⟩ : storedIn buffer.val (stream.take stale.length) = reply ∧
      stream.drop stale.length = stream' := by simpa using hreply
  obtain ⟨-, rfl⟩ : writeAll text.bytes text.length = message ∧
      stream.drop stale.length = rest := by simpa using hresult
  exact ⟨stale, hstale, rfl⟩

/-- **Two bytes at most for each call**, and if it is two bytes for each on the whole, it is two bytes
for every one. -/
lemma reportAll_consumes {calls : List (ApiCall × ReplyBuffer)} {stream rest : List Byte}
    {messages : List (List Byte)} (h : reportAll calls stream = .ok (messages, rest)) :
    stream.length ≤ rest.length + 2 * calls.length ∧
      (stream.length = rest.length + 2 * calls.length → ∀ c ∈ calls,
        ∃ stale, readBuffer c.2.val = .ok stale ∧ stale.length = 2) := by
  induction calls generalizing stream messages with
  | nil =>
      obtain ⟨-, rfl⟩ : [] = messages ∧ stream = rest := by simpa [reportAll] using h
      exact ⟨le_rfl, by simp⟩
  | cons c calls ih =>
      obtain ⟨call, buffer⟩ := c
      obtain ⟨⟨message, stream'⟩, hfirst, h⟩ := bind_eq_ok.mp h
      obtain ⟨⟨messages', rest'⟩, hrest, hresult⟩ := bind_eq_ok.mp h
      obtain ⟨-, rfl⟩ : message :: messages' = messages ∧ rest' = rest := by simpa using hresult
      obtain ⟨stale, hstale, rfl⟩ := report_eq_ok hfirst
      obtain ⟨hle, hall⟩ := ih hrest
      have htwo := stale_length_le hstale
      rw [List.length_drop] at hle hall
      rw [List.length_cons]
      refine ⟨by omega, fun heq => ?_⟩
      refine List.forall_mem_cons.mpr ⟨⟨stale, hstale, by omega⟩, hall (by omega)⟩

/-- A call whose buffer holds two bytes takes its reply. -/
lemma Exchange.report_reply {e : Exchange} (h : e.InStep) (stream : List Byte) :
    report e.call e.buffer (e.reply ++ stream)
      = (replyMessage e.call e.result).map fun message => (message.bytes, stream) := by
  obtain ⟨stale, hstale, hlength⟩ := h
  have hwhole : ∀ message : CString, writeAll message.bytes message.length = message.bytes :=
    fun message => List.take_length
  simp only [report, readReply, hstale, hlength, ok_bind, pure_eq_ok, reply, List.cons_append,
    List.nil_append, List.take_succ_cons, List.take_zero, List.drop_succ_cons, List.drop_zero,
    storedIn, List.getD_cons_succ, List.getD_cons_zero, hwhole]
  cases replyMessage e.call e.result <;> rfl

/-- What it prints is the message, if that fits. -/
lemma Exchange.replyMessage_iff (e : Exchange) (message : List Byte) (stream : List Byte) :
    (replyMessage e.call e.result).map (fun message => (message.bytes, stream))
        = .ok (message, stream) ↔ message = e.message ∧ e.MessageFits := by
  rw [e.messageFits_iff, replyMessage_eq]
  have hbytes : (CString.lit "Server returned" ++ .ofBuffer [e.result] ++ e.call.trailer).bytes
      = e.message := by
    simp only [CString.bytes_append, List.append_assoc]
    rfl
  by_cases hroom : (CString.ofBuffer [e.result]).length + e.call.trailer.length < 25
  · rw [if_pos hroom]
    constructor
    · intro h
      obtain ⟨rfl, -⟩ := Prod.mk.inj (Except.ok.inj h)
      exact ⟨hbytes, hroom⟩
    · rintro ⟨rfl, -⟩
      exact congrArg (fun bytes => Except.ok (bytes, stream)) hbytes
  · rw [if_neg hroom]
    constructor
    · intro h
      cases h
    · rintro ⟨-, hroom'⟩
      exact absurd hroom' hroom

/-- Calls that are all in step: each prints the message of its own reply. -/
lemma reportAll_iff {exchanges : List Exchange} (h : ∀ e ∈ exchanges, e.InStep)
    (messages : List (List Byte)) :
    reportAll (exchanges.map fun e => (e.call, e.buffer)) (exchanges.flatMap Exchange.reply)
        = .ok (messages, []) ↔
      messages = exchanges.map Exchange.message ∧ ∀ e ∈ exchanges, e.MessageFits := by
  induction exchanges generalizing messages with
  | nil => simp [reportAll, eq_comm]
  | cons e exchanges ih =>
      obtain ⟨hfirst, hrest⟩ := List.forall_mem_cons.mp h
      have hmessage := e.replyMessage_iff
      rw [List.map_cons, List.flatMap_cons, reportAll, Exchange.report_reply hfirst]
      cases hprint : replyMessage e.call e.result with
      | error fault =>
          rw [hprint] at hmessage
          constructor
          · intro h
            cases h
          · rintro ⟨-, hfits⟩
            exact absurd ((hmessage e.message []).mpr ⟨rfl, hfits e (by simp)⟩) (by simp [Except.map])
      | ok printed =>
          rw [hprint] at hmessage
          obtain ⟨hprinted, hfits⟩ := (hmessage printed.bytes []).mp rfl
          simp only [Except.map, ok_bind, bind_eq_ok]
          constructor
          · rintro ⟨⟨later, rest⟩, hlater, h⟩
            obtain ⟨rfl, rfl⟩ : printed.bytes :: later = messages ∧ rest = [] := by simpa using h
            obtain ⟨rfl, hall⟩ := (ih hrest later).mp hlater
            rw [hprinted]
            exact ⟨rfl, List.forall_mem_cons.mpr ⟨hfits, hall⟩⟩
          · rintro ⟨rfl, hall⟩
            refine ⟨_, (ih hrest _).mpr ⟨rfl, (List.forall_mem_cons.mp hall).2⟩, ?_⟩
            rw [hprinted]
            rfl

/-- **When a session is reported.**  The calls of a session take all of the replies sent to them and
come to their end, if and only if every buffer happens to hold two bytes and a NUL and every message
fits its 40 bytes; and then each call has printed its own result. -/
theorem session_reported_iff (exchanges : List Exchange) (messages : List (List Byte)) :
    reportAll (exchanges.map fun e => (e.call, e.buffer)) (exchanges.flatMap Exchange.reply)
        = .ok (messages, []) ↔
      messages = exchanges.map Exchange.message ∧ ∀ e ∈ exchanges, e.InStep ∧ e.MessageFits := by
  have hlength : (exchanges.flatMap Exchange.reply).length = 2 * exchanges.length := by
    induction exchanges with
    | nil => rfl
    | cons e exchanges ih =>
        rw [List.flatMap_cons, List.length_append, ih, List.length_cons]
        simp only [Exchange.reply, List.length_cons, List.length_nil]
        omega
  constructor
  · intro h
    have hall := (reportAll_consumes h).2 (by simp [hlength])
    have hstep : ∀ e ∈ exchanges, e.InStep := fun e he => hall _ (List.mem_map_of_mem he)
    obtain ⟨hmessages, hfits⟩ := (reportAll_iff hstep messages).mp h
    exact ⟨hmessages, fun e he => ⟨hstep e he, hfits e he⟩⟩
  · rintro ⟨hmessages, hall⟩
    exact (reportAll_iff (fun e he => (hall e he).1) messages).mpr
      ⟨hmessages, fun e he => (hall e he).2⟩

end Kvs
