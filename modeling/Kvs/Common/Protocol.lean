import Kvs.Core.CString

/-!
# What clients ask for

`src/common/protocol.h`, and the two kinds of message that go through a FIFO to the server: one to
connect, and then any number of requests in the session.  Their encoding is not here: each side has
its own (`Client/Api.lean`, `Server/Register.lean`, `Server/Requests.lean`).
-/

namespace Kvs

/-! ## Operation codes -/

def opCodeConnect : ℤ := 1
def opCodeDisconnect : ℤ := 2
def opCodeSubscribe : ℤ := 3
def opCodeUnsubscribe : ℤ := 4

/-! ## Messages -/

/-- A client's wish to connect: where its three FIFOs are. -/
structure ConnectRequest where
  requestFifoName : CString
  responseFifoName : CString
  notificationFifoName : CString
  deriving DecidableEq

/-- What a client can ask for in a session. -/
inductive Request where
  | Disconnect
  | Subscribe (key : CString)
  | Unsubscribe (key : CString)
  deriving DecidableEq

/-- Size of a request as the server reads it, and of the buffer a client builds it in. -/
def requestSize : ℕ := 42

/-- Size of the connect message: an operation code, three path fields and a NUL. -/
def connectSize : ℕ := 122

end Kvs
