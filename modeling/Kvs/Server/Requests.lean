import Kvs.Client.Api

/-!
# Requests through the FIFO

The session loop of `manager_thread_handler` reads blocks of 42 bytes and takes the first byte of
each for the operation code and the others for the key.  Client and server disagree on both: a
client sends the code as a digit and the server compares it with a number, and no client call sends
42 bytes.  So the blocks of the server are not the messages of the client, and since each call
sends less than a block there are fewer of them; no sequence of calls comes through but the empty
one (`requests_round_trip_iff`).

While the client has the FIFO open an incomplete block makes the read wait, and what has not been
read completely is not decoded.
-/

namespace Kvs

/-- A block as the session loop takes it apart.  Nothing for an operation code that the `switch`
has no case for. -/
def decodeRequest (block : List Byte) : Except Fault (Option Request) :=
  let opcode : ℤ := (block.headD 0).toNat
  if opcode = opCodeDisconnect then pure (some .Disconnect)
  else if opcode = opCodeSubscribe then do
    let key ← readBuffer block.tail
    pure (some (.Subscribe key))
  else if opcode = opCodeUnsubscribe then do
    let key ← readBuffer block.tail
    pure (some (.Unsubscribe key))
  else pure none

/-- The requests of a session, as far as complete blocks have come.  A disconnect closes the FIFO,
so nothing is read after it. -/
def decodeRequests (stream : List Byte) : Except Fault (List (Option Request)) :=
  if requestSize ≤ stream.length then do
    let request ← decodeRequest (stream.take requestSize)
    if request = some .Disconnect then pure [request]
    else do
      let rest ← decodeRequests (stream.drop requestSize)
      pure (request :: rest)
  else pure []
termination_by stream.length
decreasing_by
  have hpos : 0 < requestSize := by decide
  rw [List.length_drop]
  omega

/-- Every request takes a block. -/
lemma decodeRequests_length : ∀ {stream : List Byte} {requests : List (Option Request)},
    decodeRequests stream = .ok requests → requestSize * requests.length ≤ stream.length := by
  intro stream
  induction hn : stream.length using Nat.strong_induction_on generalizing stream with
  | _ n ih =>
      intro requests h
      subst hn
      rw [decodeRequests] at h
      split at h
      · rename_i hblock
        obtain ⟨request, -, h⟩ := bind_eq_ok.mp h
        split at h
        · obtain rfl := Except.ok.inj h
          simpa using hblock
        · obtain ⟨rest, hrest, h⟩ := bind_eq_ok.mp h
          obtain rfl := Except.ok.inj h
          have hpos : 0 < requestSize := by decide
          have hdrop := List.length_drop (i := requestSize) (l := stream)
          have hle := ih _ (by omega) rfl hrest
          rw [List.length_cons, Nat.mul_succ]
          omega
      · obtain rfl := Except.ok.inj h
        simp

/-- What the client calls ask for is what the session loop dispatches. -/
def RoundTrips (requests : List Request) : Prop :=
  ∃ stream, encodeRequests requests = .ok stream ∧
    decodeRequests stream = .ok (requests.map some)

/-- **No request comes through.**  A sequence of calls is decoded to itself if and only if it is
empty: the others write less than a block for each call, so fewer requests are read than made. -/
theorem requests_round_trip_iff (requests : List Request) :
    RoundTrips requests ↔ requests = [] := by
  refine ⟨fun ⟨stream, hencode, hdecode⟩ => ?_, fun hnil => ?_⟩
  · have hwritten := encodeRequests_length hencode
    have hread := decodeRequests_length hdecode
    rw [List.length_map] at hread
    simp only [requestSize] at hwritten hread
    exact List.eq_nil_of_length_eq_zero (by omega)
  · subst hnil
    refine ⟨[], rfl, ?_⟩
    rw [decodeRequests, if_neg (by decide)]
    rfl

/-- A client that subscribes to `a` writes the single byte `3`, the operation code without the key,
and the server goes on waiting for a block. -/
theorem requests_lost_at_first_call :
    encodeRequests [.Subscribe (.lit "a")] = .ok (text "3") ∧
      decodeRequests (text "3") = .ok [] ∧
      ¬ ∀ requests : List Request, (∀ request ∈ requests, ∀ key,
        (request = .Subscribe key ∨ request = .Unsubscribe key) →
          1 ≤ key.length ∧ key.length ≤ 39) → RoundTrips requests := by
  have hencode : encodeRequests [.Subscribe (.lit "a")] = .ok (text "3") := by decide
  have hdecode : decodeRequests (text "3") = .ok [] := by
    rw [decodeRequests, if_neg (by decide)]
    rfl
  refine ⟨hencode, hdecode, fun h => ?_⟩
  obtain ⟨stream, hstream, hrequests⟩ := h [.Subscribe (.lit "a")] (by
    intro request hmem key hkey
    obtain rfl : request = .Subscribe (.lit "a") := by simpa using hmem
    obtain rfl : CString.lit "a" = key := by simpa using hkey
    decide)
  obtain rfl := Except.ok.inj (hencode.symm.trans hstream)
  exact absurd (Except.ok.inj (hdecode.symm.trans hrequests)) (by simp)

end Kvs
