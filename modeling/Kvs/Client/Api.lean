import Kvs.Common.Constants
import Kvs.Common.Io
import Kvs.Common.Protocol

/-!
# What a client writes

The functions of `src/client/api.c` as far as they put bytes into a FIFO.  `kvs_connect` fills the
122 bytes of its buffer.  The requests of a session are built in a buffer of 42 bytes and sent with
a length of their own: `kvs_subscribe` and `kvs_unsubscribe` send `strlen(key)` bytes, from the
operation code on, so the last byte of the key stays behind, and `kvs_disconnect` sends the
operation code.  All are shorter than the block the server reads (`Request.encode_length_lt`).
-/

namespace Kvs

/-! ## Connecting -/

/-- `%-40s`: a string filled up with blanks. -/
def padRight (width : ℕ) (s : CString) : List Byte :=
  s.bytes ++ List.replicate (width - s.length) (char ' ')

/-- `"1%-40s%-40s%-40s"`. -/
def connectText (request : ConnectRequest) : List Byte :=
  text "1" ++ padRight maxPipePathLength request.requestFifoName
    ++ padRight maxPipePathLength request.responseFifoName
    ++ padRight maxPipePathLength request.notificationFifoName

/-- The message `kvs_connect` writes to the register FIFO. -/
def kvsConnect (request : ConnectRequest) : Except Fault (List Byte) := do
  let formatted ← sprintf connectSize (connectText request)
  pure (writeAll (formatted ++ List.replicate (connectSize - formatted.length) 0) connectSize)

/-! ## Requests -/

/-- A request with a key: the operation code, the key behind it, and `strlen(key)` bytes of that. -/
def sendRequest (opcode key : CString) : Except Fault (List Byte) := do
  let bufferRequest ← strcat requestSize opcode key
  pure (writeAll (Row.contents bufferRequest) key.length)

def kvsSubscribe (key : CString) : Except Fault (List Byte) := sendRequest (.lit "3") key

def kvsUnsubscribe (key : CString) : Except Fault (List Byte) := sendRequest (.lit "4") key

/-- `char buffer[3] = "2";`, of which `strlen(buffer)` bytes are sent. -/
def kvsDisconnect : List Byte := writeAll (CString.lit "2").bytes (CString.lit "2").length

/-- The call for a request. -/
def Request.encode : Request → Except Fault (List Byte)
  | Disconnect => pure kvsDisconnect
  | Subscribe key => kvsSubscribe key
  | Unsubscribe key => kvsUnsubscribe key

/-- What a sequence of calls writes to the request FIFO.  A disconnect closes it, and what the calls
behind it write fails. -/
def encodeRequests : List Request → Except Fault (List Byte)
  | [] => pure []
  | request :: requests => do
      let bytes ← request.encode
      let rest ← encodeRequests requests
      pure (if request = .Disconnect then bytes else bytes ++ rest)

/-- As many bytes as the key has, and the buffer had room for them. -/
lemma sendRequest_length_lt {opcode key : CString} {bytes : List Byte}
    (h : sendRequest opcode key = .ok bytes) : bytes.length < requestSize := by
  obtain ⟨buffer, hbuffer, h⟩ := bind_eq_ok.mp h
  obtain rfl : writeAll (Row.contents buffer) key.length = bytes := by simpa using h
  have hkey : key.length < requestSize := by
    unfold strcat at hbuffer
    split at hbuffer
    · rename_i hfits
      have hlength : opcode.length + key.length < requestSize := by
        rwa [CString.Fits, CString.length_append] at hfits
      omega
    · cases hbuffer
  exact (List.length_take_le _ _).trans_lt hkey

/-- **No call fills a block.** -/
lemma Request.encode_length_lt {request : Request} {bytes : List Byte}
    (h : request.encode = .ok bytes) : bytes.length < requestSize := by
  cases request with
  | Disconnect =>
      obtain rfl := Except.ok.inj h
      decide
  | Subscribe key => exact sendRequest_length_lt h
  | Unsubscribe key => exact sendRequest_length_lt h

/-- What the calls write is what the first one writes and, if it is no disconnect, what the others
do. -/
lemma encodeRequests_cons_eq_ok {request : Request} {requests : List Request} {bytes : List Byte} :
    encodeRequests (request :: requests) = .ok bytes ↔ ∃ first rest, request.encode = .ok first ∧
      encodeRequests requests = .ok rest ∧
        bytes = if request = .Disconnect then first else first ++ rest := by
  simp only [encodeRequests, bind_eq_ok, pure_eq_ok, Except.ok.injEq]
  constructor
  · rintro ⟨first, hfirst, rest, hrest, rfl⟩
    exact ⟨first, rest, hfirst, hrest, rfl⟩
  · rintro ⟨first, rest, hfirst, hrest, rfl⟩
    exact ⟨first, hfirst, rest, hrest, rfl⟩

lemma encodeRequests_length {requests : List Request} {bytes : List Byte}
    (h : encodeRequests requests = .ok bytes) :
    bytes.length ≤ (requestSize - 1) * requests.length := by
  induction requests generalizing bytes with
  | nil =>
      obtain rfl := Except.ok.inj h
      rfl
  | cons request requests ih =>
      obtain ⟨first, rest, hfirst, hrest, rfl⟩ := encodeRequests_cons_eq_ok.mp h
      have hlt := Request.encode_length_lt hfirst
      have hle := ih hrest
      simp only [requestSize] at hlt hle ⊢
      rw [List.length_cons]
      split_ifs
      · omega
      · rw [List.length_append]
        omega

end Kvs
