import Kvs.Common.Reads
import Kvs.Server.Requests
import Kvs.Server.Session

/-!
# The loop of a session

The inner `while (1)` of `manager_thread_handler`: `read_all` into a buffer of 42 bytes, then a
`switch` on its first byte, whose cases are those of `Session.lean`.  Here they are run, for every
sequence of results that `read_all` can have — a request, the end of the file somewhere in one, an
error somewhere in one — and whatever the other threads make of the table before each request.

The loop looks at the result -1 only to print a message, and never at 0.  So the `switch` is taken
after every `read_all`, on what the buffer holds by then, and that may be an old request with a few
bytes of the next one in front.  And nothing in the loop leaves it: the `break` behind a disconnect
belongs to the `switch`.

* `sessionEvents` — what the loop does, up to the case that the thread dies in, if there is one.
* `documentedEvents` — what it should do: one operation for each request, none for anything else,
  and back to the queue behind a disconnect or the end of the file.
* `session_loop_documented_iff` — they are the same exactly if nobody ever subscribes, disconnects or
  closes the FIFO, each unsubscription comes through, and no error finds the code of an operation at
  the front of the buffer.
* `sessionEvents_serveAll` — with requests only, and no other thread at the table, the loop replies
  what `Session.serveAll` does.
-/

namespace Kvs

/-! ## Results of `read_all` -/

/-- The contents of the request buffer. -/
abbrev Block := { bytes : List Byte // bytes.length = requestSize }

/-- The beginning of a request. -/
abbrev Piece := { bytes : List Byte // bytes.length < requestSize }

/-- What `read_all` finds on the request FIFO, with the bytes it has stored by then. -/
inductive ReadOutcome where
  | Message (block : Block)
  | EndOfFile (piece : Piece)
  | Failed (piece : Piece)
  deriving DecidableEq

namespace ReadOutcome

/-- The bytes received. -/
def bytes : ReadOutcome → List Byte
  | Message block => block.val
  | EndOfFile piece => piece.val
  | Failed piece => piece.val

/-- What `read_all` returns. -/
def result : ReadOutcome → ℤ
  | Message _ => 1
  | EndOfFile _ => 0
  | Failed _ => -1

/-- The buffer afterwards. -/
def store (outcome : ReadOutcome) (buffer : List Byte) : List Byte := storedIn buffer outcome.bytes

end ReadOutcome

/-- There are no other results. -/
lemma readAll_outcome (buffer : Block) {buffer' : List Byte} {results rest : List ReadResult}
    {intr intr' : Bool} {result : ℤ}
    (h : readAll requestSize results buffer.val intr
      = .ok (buffer', intr', .Returned result, rest)) :
    ∃ outcome : ReadOutcome, outcome.result = result ∧ buffer' = outcome.store buffer.val := by
  obtain ⟨buffer, hsize⟩ := buffer
  dsimp only at h ⊢
  rw [← hsize] at h
  obtain ⟨received, rfl, hresult⟩ := readAll_returned (by rw [hsize]; decide) h
  rw [hsize] at hresult
  rcases hresult with ⟨rfl, hfull⟩ | ⟨rfl | rfl, hshort⟩
  · exact ⟨.Message ⟨received, hfull⟩, rfl, rfl⟩
  · exact ⟨.EndOfFile ⟨received, hshort⟩, rfl, rfl⟩
  · exact ⟨.Failed ⟨received, hshort⟩, rfl, rfl⟩

/-! ## The switch -/

/-- A case of the `switch`, with the array that holds the key. -/
inductive Operation where
  | Disconnect
  | Subscribe (key : List Byte)
  | Unsubscribe (key : List Byte)
  deriving DecidableEq

/-- Which case is taken, if there is one for the first byte of the buffer. -/
def dispatch (buffer : List Byte) : Option Operation :=
  let key := strncpy keyNodeSize (.ofBuffer buffer.tail)
  let opcode : ℤ := (buffer.headD 0).toNat
  if opcode = opCodeDisconnect then some .Disconnect
  else if opcode = opCodeSubscribe then some (.Subscribe key)
  else if opcode = opCodeUnsubscribe then some (.Unsubscribe key)
  else none

/-- The request a case stands for: its key is read as a string. -/
def Operation.request : Operation → Except Fault Request
  | Disconnect => pure .Disconnect
  | Subscribe key => do
      let key ← readBuffer key
      pure (.Subscribe key)
  | Unsubscribe key => do
      let key ← readBuffer key
      pure (.Unsubscribe key)

/-- Bytes without a terminator are copied as they are. -/
lemma strncpy_self {tail : List Byte} (h : tail.length = keyNodeSize) (hnul : (0 : Byte) ∉ tail) :
    strncpy keyNodeSize (.ofBuffer tail) = tail := by
  rw [strncpy, CString.length, CString.ofBuffer_bytes_of_nulFree hnul, h, Nat.sub_self, ← h,
    List.take_length]
  simp

/-- The key array has a terminator when the bytes behind the code have one. -/
lemma readBuffer_key {tail : List Byte} (h : tail.length = keyNodeSize) :
    readBuffer (strncpy keyNodeSize (.ofBuffer tail)) = readBuffer tail := by
  by_cases hnul : (0 : Byte) ∈ tail
  · have hfits : (CString.ofBuffer tail).Fits keyNodeSize := by
      refine lt_of_le_of_ne (h ▸ CString.ofBuffer_length_le tail) ?_
      intro hlength
      have hself : tail.takeWhile (· ≠ 0) = tail :=
        (List.takeWhile_prefix _).eq_of_length (hlength.trans h.symm)
      have hall := List.takeWhile_eq_self_iff.mp hself 0 hnul
      simp at hall
    rw [readBuffer_strncpy hfits, readBuffer, if_pos hnul]
  · rw [strncpy_self h hnul]

/-- The case taken is the one that a block is decoded to. -/
lemma decodeRequest_eq_dispatch (block : Block) :
    decodeRequest block.val = (match dispatch block.val with
      | none => pure none
      | some operation => do
          let request ← operation.request
          pure (some request)) := by
  have htail : block.val.tail.length = keyNodeSize := by
    rw [List.length_tail, block.prop]
    rfl
  unfold decodeRequest dispatch
  dsimp only
  split_ifs
  · rfl
  · simp [Operation.request, readBuffer_key htail, bind_assoc]
  · simp [Operation.request, readBuffer_key htail, bind_assoc]
  · rfl

/-! ## The loop -/

/-- A case of the `switch`, run.  A subscription copies the key array, terminator and all.  An
unsubscription compares it with names that are shorter, so it does not miss the terminator. -/
def Operation.serve (resultDisconnect : ℤ) (fdNotification : Fd) (s : Session) :
    Operation → Except Fault (Session × List (List Byte))
  | Disconnect => s.serve resultDisconnect fdNotification .Disconnect
  | Subscribe key => do
      let key ← readBuffer key
      s.serve resultDisconnect fdNotification (.Subscribe key)
  | Unsubscribe key => s.serve resultDisconnect fdNotification (.Unsubscribe (.ofBuffer key))

/-- What can be seen of the loop: a `read_all`, an operation with what it gives to `write_all` (in vain,
once a disconnect has closed the response FIFO), an operation that the thread dies in, and the return
to the queue of waiting clients. -/
inductive SessionEvent where
  | Reads
  | Executes (operation : Operation) (replies : List (List Byte))
  | Dies (operation : Operation) (fault : Fault)
  | Returns
  deriving DecidableEq

/-- The loop, given what the buffer holds, and for each iteration what `read_all` finds and what the
table is by then. -/
def sessionEvents (resultDisconnect : ℤ) (fdNotification : Fd) (s : Session) (buffer : List Byte) :
    List (ReadOutcome × HashTable) → List SessionEvent
  | [] => []
  | (outcome, store) :: rounds =>
      let buffer := outcome.store buffer
      .Reads :: match dispatch buffer with
        | none => sessionEvents resultDisconnect fdNotification s buffer rounds
        | some operation =>
            match operation.serve resultDisconnect fdNotification { s with store := store } with
            | .error fault => [.Dies operation fault]
            | .ok (s, replies) =>
                .Executes operation replies ::
                  sessionEvents resultDisconnect fdNotification s buffer rounds

/-- An event without the replies. -/
def SessionEvent.silent : SessionEvent → SessionEvent
  | Executes operation _ => Executes operation []
  | event => event

/-- The operation of an iteration, if there is one. -/
def executed (operation : Option Operation) : List SessionEvent :=
  (operation.map fun operation => .Executes operation []).toList

/-- The loop as it should be, whatever it replies. -/
def documentedEvents : List ReadOutcome → List SessionEvent
  | [] => []
  | .Message block :: outcomes =>
      .Reads :: executed (dispatch block.val) ++
        if dispatch block.val = some .Disconnect then [.Returns] else documentedEvents outcomes
  | .EndOfFile _ :: _ => [.Reads, .Returns]
  | .Failed _ :: outcomes => .Reads :: documentedEvents outcomes

/-- The loop does what it should. -/
def LoopDocumented (resultDisconnect : ℤ) (fdNotification : Fd) (s : Session) (buffer : List Byte)
    (rounds : List (ReadOutcome × HashTable)) : Prop :=
  (sessionEvents resultDisconnect fdNotification s buffer rounds).map SessionEvent.silent
    = documentedEvents (rounds.map Prod.fst)

/-! ## The condition -/

/-- The first byte of a block. -/
def Block.first (block : Block) : Byte := block.val.headD 0

/-- The key of a block. -/
def Block.key (block : Block) : CString := .ofBuffer block.val.tail

/-- An unsubscription comes through: the key has a chain, and if it is in it, `delete_list_node`
comes through its list. -/
def HashTable.Unsubscribes (ht : HashTable) (key : CString) (fdNotification : Fd) : Prop :=
  key.StartsAlnum ∧ ∀ keyNode, ht.lookup key = some keyNode →
    Passable ht.subs keyNode.head fdNotification

/-- A message that is neither a disconnect nor a subscription; and if it is an unsubscription, the
key list pointer is null and the table is one that it comes through. -/
def Block.Safe (keyList : Ptr) (fdNotification : Fd) (store : HashTable) (block : Block) : Prop :=
  block.first ≠ 2 ∧ block.first ≠ 3 ∧
    (block.first = 4 → keyList = none ∧ store.Unsubscribes block.key fdNotification)

/-- Only safe messages, and no end of the file; and whenever `read_all` fails, the byte that is in
front of the buffer, received just now or long ago, is not the code of an operation. -/
def LoopSafe (keyList : Ptr) (fdNotification : Fd) :
    Byte → List (ReadOutcome × HashTable) → Prop
  | _, [] => True
  | _, (.Message block, store) :: rounds =>
      block.Safe keyList fdNotification store ∧ LoopSafe keyList fdNotification block.first rounds
  | _, (.EndOfFile _, _) :: _ => False
  | first, (.Failed piece, _) :: rounds =>
      let first := piece.val.headD first
      first ∉ [2, 3, 4] ∧ LoopSafe keyList fdNotification first rounds

/-! ## The two loops -/

/-- The codes, as bytes. -/
lemma dispatch_eq (buffer : List Byte) :
    dispatch buffer =
      if buffer.headD 0 = 2 then some .Disconnect
      else if buffer.headD 0 = 3 then
        some (.Subscribe (strncpy keyNodeSize (.ofBuffer buffer.tail)))
      else if buffer.headD 0 = 4 then
        some (.Unsubscribe (strncpy keyNodeSize (.ofBuffer buffer.tail)))
      else none := by
  have hcode : ∀ n : ℕ, n < 256 →
      (((buffer.headD 0).toNat : ℤ) = n ↔ buffer.headD 0 = UInt8.ofNat n) := by
    intro n hn
    rw [← UInt8.toNat_inj, UInt8.toNat_ofNat_of_lt' hn]
    omega
  have hdisconnect : ((buffer.headD 0).toNat : ℤ) = opCodeDisconnect ↔ buffer.headD 0 = 2 :=
    hcode 2 (by omega)
  have hsubscribe : ((buffer.headD 0).toNat : ℤ) = opCodeSubscribe ↔ buffer.headD 0 = 3 :=
    hcode 3 (by omega)
  have hunsubscribe : ((buffer.headD 0).toNat : ℤ) = opCodeUnsubscribe ↔ buffer.headD 0 = 4 :=
    hcode 4 (by omega)
  simp only [dispatch, hdisconnect, hsubscribe, hunsubscribe]

/-- No case is taken exactly if the first byte is the code of no operation. -/
lemma dispatch_eq_none {buffer : List Byte} :
    dispatch buffer = none ↔ buffer.headD 0 ∉ ([2, 3, 4] : List Byte) := by
  rw [dispatch_eq]
  split_ifs with h₂ h₃ h₄
  · simp [-List.headD_eq_head?_getD, h₂]
  · simp [-List.headD_eq_head?_getD, h₃]
  · simp [-List.headD_eq_head?_getD, h₄]
  · simp [-List.headD_eq_head?_getD, h₂, h₃, h₄]

section Iterations

variable {resultDisconnect : ℤ} {fd : Fd} {s s' : Session} {buffer : List Byte}
  {outcome : ReadOutcome} {store : HashTable} {rounds : List (ReadOutcome × HashTable)}
  {operation : Operation}

/-- An iteration without an operation. -/
lemma sessionEvents_none (hdispatch : dispatch (outcome.store buffer) = none) :
    sessionEvents resultDisconnect fd s buffer ((outcome, store) :: rounds)
      = .Reads :: sessionEvents resultDisconnect fd s (outcome.store buffer) rounds := by
  simp only [sessionEvents, hdispatch]

/-- An iteration that the thread dies in. -/
lemma sessionEvents_error (hdispatch : dispatch (outcome.store buffer) = some operation)
    {fault : Fault}
    (hserve : operation.serve resultDisconnect fd { s with store := store } = .error fault) :
    sessionEvents resultDisconnect fd s buffer ((outcome, store) :: rounds)
      = [.Reads, .Dies operation fault] := by
  simp only [sessionEvents, hdispatch, hserve]

/-- An iteration with an operation. -/
lemma sessionEvents_ok (hdispatch : dispatch (outcome.store buffer) = some operation)
    {replies : List (List Byte)}
    (hserve : operation.serve resultDisconnect fd { s with store := store } = .ok (s', replies)) :
    sessionEvents resultDisconnect fd s buffer ((outcome, store) :: rounds)
      = .Reads :: .Executes operation replies ::
          sessionEvents resultDisconnect fd s' (outcome.store buffer) rounds := by
  simp only [sessionEvents, hdispatch, hserve]

/-- The loop never returns. -/
lemma returns_not_mem_sessionEvents (s : Session) (buffer : List Byte)
    (rounds : List (ReadOutcome × HashTable)) :
    SessionEvent.Returns ∉ (sessionEvents resultDisconnect fd s buffer rounds).map .silent := by
  induction rounds generalizing s buffer with
  | nil => simp [sessionEvents]
  | cons round rounds ih =>
      obtain ⟨outcome, store⟩ := round
      cases hdispatch : dispatch (outcome.store buffer) with
      | none =>
          rw [sessionEvents_none hdispatch, List.map_cons]
          simpa [SessionEvent.silent] using ih s (outcome.store buffer)
      | some operation =>
          cases hserve : operation.serve resultDisconnect fd { s with store := store } with
          | error fault =>
              rw [sessionEvents_error hdispatch hserve]
              simp [SessionEvent.silent]
          | ok result =>
              obtain ⟨s', replies⟩ := result
              rw [sessionEvents_ok hdispatch hserve, List.map_cons, List.map_cons]
              simpa [SessionEvent.silent] using ih s' (outcome.store buffer)

/-- The loop as it should be starts with a `read_all`. -/
lemma documentedEvents_cons {outcomes : List ReadOutcome} {event : SessionEvent}
    {events : List SessionEvent} (h : event :: events = documentedEvents outcomes) :
    event = .Reads := by
  cases outcomes with
  | nil => cases h
  | cons outcome outcomes =>
      cases outcome with
      | Message block => exact (List.cons.inj h).1
      | EndOfFile piece => exact (List.cons.inj h).1
      | Failed piece => exact (List.cons.inj h).1

/-- An iteration without a request is documented to execute nothing. -/
lemma loopDocumented_failed {piece : Piece} :
    LoopDocumented resultDisconnect fd s buffer ((.Failed piece, store) :: rounds) ↔
      dispatch ((ReadOutcome.Failed piece).store buffer) = none ∧
        LoopDocumented resultDisconnect fd s ((ReadOutcome.Failed piece).store buffer) rounds := by
  rw [LoopDocumented, List.map_cons, documentedEvents]
  cases hdispatch : dispatch ((ReadOutcome.Failed piece).store buffer) with
  | none =>
      rw [sessionEvents_none hdispatch, List.map_cons]
      simp [SessionEvent.silent, LoopDocumented]
  | some operation =>
      refine iff_of_false ?_ (fun h => nomatch h.1)
      intro h
      cases hserve : operation.serve resultDisconnect fd { s with store := store } with
      | error fault =>
          rw [sessionEvents_error hdispatch hserve] at h
          have hreads := documentedEvents_cons (List.cons.inj h).2
          cases hreads
      | ok result =>
          obtain ⟨s', replies⟩ := result
          rw [sessionEvents_ok hdispatch hserve] at h
          have hreads := documentedEvents_cons (List.cons.inj h).2
          cases hreads

/-- The end of the file is documented to end the loop, and does not. -/
lemma not_loopDocumented_endOfFile {piece : Piece} :
    ¬ LoopDocumented resultDisconnect fd s buffer ((.EndOfFile piece, store) :: rounds) := by
  intro h
  have hmem : SessionEvent.Returns ∈
      (sessionEvents resultDisconnect fd s buffer ((.EndOfFile piece, store) :: rounds)).map .silent
      := by
    rw [h, List.map_cons, documentedEvents]
    simp
  exact returns_not_mem_sessionEvents s buffer _ hmem

end Iterations

/-! ## The cases -/

/-- The store's part of an unsubscription. -/
lemma HashTable.kvsUnsubscribe_ok_iff {ht : HashTable} {key : CString} {fd : Fd} :
    (∃ result, ht.kvsUnsubscribe key fd = .ok result) ↔ ht.Unsubscribes key fd := by
  by_cases hkey : key.StartsAlnum
  · cases hnode : ht.lookup key with
    | none =>
        obtain ⟨index, hindex⟩ := tableIndex_of_startsAlnum hkey
        have hfind := (lookup_eq hindex).symm.trans hnode
        refine iff_of_true ⟨(0, ht), kvsUnsubscribe_of_not_find hindex hfind fd⟩ ⟨hkey, ?_⟩
        intro keyNode hsome
        rw [hnode] at hsome
        cases hsome
    | some keyNode =>
        have hstore := kvsUnsubscribe_of_lookup hnode fd
        constructor
        · rintro ⟨result, hok⟩
          refine ⟨hkey, fun found hsome => ?_⟩
          obtain rfl := Option.some.inj (hnode.symm.trans hsome)
          cases hdelete : deleteListNode ht.subs keyNode.head fd with
          | error e =>
              rw [hstore, hdelete] at hok
              cases hok
          | ok subs => exact deleteListNode_iff.mp ⟨subs, hdelete⟩
        · rintro ⟨-, hpass⟩
          obtain ⟨subs, hdelete⟩ := deleteListNode_iff.mpr (hpass keyNode hnode)
          rw [hstore, hdelete]
          exact ⟨_, rfl⟩
  · refine iff_of_false ?_ fun h => hkey h.1
    rintro ⟨result, hok⟩
    rw [kvsUnsubscribe, deleteSubscription, tableIndex_of_not_startsAlnum hkey] at hok
    cases hok

/-- A key array is read as the bytes behind the code are. -/
lemma ofBuffer_key {tail : List Byte} (h : tail.length = keyNodeSize) :
    CString.ofBuffer (strncpy keyNodeSize (.ofBuffer tail)) = .ofBuffer tail := by
  by_cases hnul : (0 : Byte) ∈ tail
  · have hread := readBuffer_key h
    rw [readBuffer, readBuffer, if_pos hnul] at hread
    split_ifs at hread
    exact Except.ok.inj hread
  · rw [strncpy_self h hnul]

namespace Operation

variable {resultDisconnect : ℤ} {fd : Fd} {ht : HashTable} {keyList : Ptr}

/-- The thread dies in every subscription. -/
lemma serve_subscribe (key : List Byte) : ∃ e,
    (Subscribe key).serve resultDisconnect fd ⟨ht, keyList, Heap.empty⟩ = .error e := by
  cases hread : readBuffer key with
  | error e => exact ⟨e, by simp only [serve, hread, error_bind]⟩
  | ok key =>
      simp only [serve, hread, ok_bind]
      cases keyList with
      | none => exact Session.serve_subscribe key
      | some a => exact Session.serve_stale a (.Subscribe key)

/-- An unsubscription that comes through leaves the thread as it was. -/
lemma serve_unsubscribe {key : List Byte} (h : ht.Unsubscribes (.ofBuffer key) fd) :
    ∃ store replies, (Unsubscribe key).serve resultDisconnect fd ⟨ht, none, Heap.empty⟩
      = .ok (⟨store, none, Heap.empty⟩, replies) := by
  obtain ⟨⟨status, store⟩, hstore⟩ := HashTable.kvsUnsubscribe_ok_iff.mpr h
  simp only [serve]
  exact ⟨store, _, Session.serve_unsubscribe hstore⟩

/-- In any other the thread dies. -/
lemma serve_unsubscribe_error {key : List Byte}
    (h : ¬ (keyList = none ∧ ht.Unsubscribes (.ofBuffer key) fd)) : ∃ e,
    (Unsubscribe key).serve resultDisconnect fd ⟨ht, keyList, Heap.empty⟩ = .error e := by
  simp only [serve]
  cases keyList with
  | some a => exact Session.serve_stale a (.Unsubscribe (.ofBuffer key))
  | none =>
      cases hstore : ht.kvsUnsubscribe (.ofBuffer key) fd with
      | error e => exact ⟨e, Session.serve_unsubscribe_fault hstore⟩
      | ok result => exact absurd ⟨rfl, HashTable.kvsUnsubscribe_ok_iff.mp ⟨result, hstore⟩⟩ h

end Operation

namespace ReadOutcome

lemma bytes_length_le (outcome : ReadOutcome) : outcome.bytes.length ≤ requestSize := by
  cases outcome with
  | Message block => exact block.prop.le
  | EndOfFile piece => exact piece.prop.le
  | Failed piece => exact piece.prop.le

lemma store_length (outcome : ReadOutcome) {buffer : List Byte}
    (hbuffer : buffer.length = requestSize) : (outcome.store buffer).length = requestSize := by
  rw [store, storedIn_length (by rw [hbuffer]; exact outcome.bytes_length_le), hbuffer]

/-- A request replaces what was in the buffer. -/
lemma store_message (block : Block) {buffer : List Byte} (hbuffer : buffer.length = requestSize) :
    (Message block).store buffer = block.val :=
  storedIn_full (by rw [hbuffer]; exact block.prop)

/-- The first byte of the buffer is the first of those received, if there are any. -/
lemma store_headD (outcome : ReadOutcome) (buffer : List Byte) :
    (outcome.store buffer).headD 0 = outcome.bytes.headD (buffer.headD 0) := by
  rw [store, storedIn]
  cases outcome.bytes with
  | nil => simp
  | cons b bytes => rfl

end ReadOutcome

/-- What a message is dispatched to. -/
lemma dispatch_block (block : Block) : dispatch block.val =
    if block.first = 2 then some .Disconnect
    else if block.first = 3 then
      some (.Subscribe (strncpy keyNodeSize (.ofBuffer block.val.tail)))
    else if block.first = 4 then
      some (.Unsubscribe (strncpy keyNodeSize (.ofBuffer block.val.tail)))
    else none := dispatch_eq block.val

section Loop

variable {resultDisconnect : ℤ} {fd : Fd} {ht : HashTable} {keyList : Ptr} {buffer : List Byte}
  {block : Block} {store : HashTable} {rounds : List (ReadOutcome × HashTable)}

/-- A message that the thread dies of is not executed as documented. -/
lemma not_loopDocumented_dies (hbuffer : buffer.length = requestSize) {s : Session}
    {operation : Operation} (hdispatch : dispatch block.val = some operation) {e : Fault}
    (hserve : operation.serve resultDisconnect fd { s with store := store } = .error e) :
    ¬ LoopDocumented resultDisconnect fd s buffer ((.Message block, store) :: rounds) := by
  intro h
  rw [LoopDocumented, sessionEvents_error ((ReadOutcome.store_message block hbuffer).symm ▸ hdispatch)
    hserve, List.map_cons, List.map_cons, List.map_cons, documentedEvents, hdispatch] at h
  cases (List.cons.inj (List.cons.inj h).2).1

/-- A disconnect is documented to end the loop, and does not. -/
lemma not_loopDocumented_disconnect (hdispatch : dispatch block.val = some .Disconnect)
    {s : Session} :
    ¬ LoopDocumented resultDisconnect fd s buffer ((.Message block, store) :: rounds) := by
  intro h
  have hmem : SessionEvent.Returns ∈
      (sessionEvents resultDisconnect fd s buffer ((.Message block, store) :: rounds)).map .silent
      := by
    rw [h, List.map_cons, documentedEvents, if_pos hdispatch]
    simp
  exact returns_not_mem_sessionEvents s buffer _ hmem

/-- A message that is dispatched to nothing. -/
lemma loopDocumented_none (hbuffer : buffer.length = requestSize) {s : Session}
    (hdispatch : dispatch block.val = none) :
    LoopDocumented resultDisconnect fd s buffer ((.Message block, store) :: rounds) ↔
      LoopDocumented resultDisconnect fd s block.val rounds := by
  rw [LoopDocumented, sessionEvents_none ((ReadOutcome.store_message block hbuffer).symm ▸ hdispatch),
    List.map_cons, List.map_cons, documentedEvents, hdispatch, ReadOutcome.store_message block hbuffer]
  simp [SessionEvent.silent, executed, LoopDocumented]

/-- A message that is executed. -/
lemma loopDocumented_ok (hbuffer : buffer.length = requestSize) {s s' : Session}
    {operation : Operation} (hdispatch : dispatch block.val = some operation)
    (hstays : operation ≠ .Disconnect) {replies : List (List Byte)}
    (hserve : operation.serve resultDisconnect fd { s with store := store } = .ok (s', replies)) :
    LoopDocumented resultDisconnect fd s buffer ((.Message block, store) :: rounds) ↔
      LoopDocumented resultDisconnect fd s' block.val rounds := by
  rw [LoopDocumented, sessionEvents_ok ((ReadOutcome.store_message block hbuffer).symm ▸ hdispatch)
    hserve, List.map_cons, List.map_cons, List.map_cons, documentedEvents, hdispatch,
    ReadOutcome.store_message block hbuffer, if_neg (by simpa using hstays)]
  simp [SessionEvent.silent, executed, LoopDocumented]

/-- **The two loops agree exactly if it is safe**, by induction over the results of `read_all`. -/
lemma loopDocumented_iff (hbuffer : buffer.length = requestSize)
    (rounds : List (ReadOutcome × HashTable)) :
    LoopDocumented resultDisconnect fd ⟨ht, keyList, Heap.empty⟩ buffer rounds ↔
      LoopSafe keyList fd (buffer.headD 0) rounds := by
  induction rounds generalizing ht buffer with
  | nil => exact ⟨fun _ => trivial, fun _ => rfl⟩
  | cons round rounds ih =>
    obtain ⟨outcome, store⟩ := round
    cases outcome with
    | Message block =>
        have hblock := dispatch_block block
        have hkey : CString.ofBuffer (strncpy keyNodeSize (.ofBuffer block.val.tail)) = block.key :=
          ofBuffer_key (by rw [List.length_tail, block.prop]; rfl)
        have hrest : ∀ {store : HashTable}, LoopDocumented resultDisconnect fd
            ⟨store, keyList, Heap.empty⟩ block.val rounds ↔ LoopSafe keyList fd block.first rounds :=
          ih block.prop
        rw [LoopSafe, Block.Safe]
        split_ifs at hblock with h₂ h₃ h₄
        · exact iff_of_false (not_loopDocumented_disconnect hblock) fun h => h.1.1 h₂
        · obtain ⟨e, hserve⟩ : ∃ e, Operation.serve resultDisconnect fd ⟨store, keyList, Heap.empty⟩
            (.Subscribe _) = .error e := Operation.serve_subscribe _
          exact iff_of_false (not_loopDocumented_dies hbuffer hblock hserve) fun h => h.1.2.1 h₃
        · by_cases hsafe : keyList = none ∧ store.Unsubscribes block.key fd
          · obtain ⟨rfl, hunsubscribes⟩ := hsafe
            rw [← hkey] at hunsubscribes
            obtain ⟨store', replies, hserve⟩ : ∃ store' replies, Operation.serve resultDisconnect fd
              ⟨store, none, Heap.empty⟩ (.Unsubscribe _) = .ok (⟨store', none, Heap.empty⟩, replies) :=
              Operation.serve_unsubscribe hunsubscribes
            rw [loopDocumented_ok hbuffer hblock (by simp) hserve, hrest]
            rw [hkey] at hunsubscribes
            exact (and_iff_right ⟨h₂, h₃, fun _ => ⟨rfl, hunsubscribes⟩⟩).symm
          · rw [← hkey] at hsafe
            obtain ⟨e, hserve⟩ : ∃ e, Operation.serve resultDisconnect fd ⟨store, keyList, Heap.empty⟩
              (.Unsubscribe _) = .error e := Operation.serve_unsubscribe_error hsafe
            rw [hkey] at hsafe
            exact iff_of_false (not_loopDocumented_dies hbuffer hblock hserve)
              fun h => hsafe (h.1.2.2 h₄)
        · rw [loopDocumented_none hbuffer hblock, hrest]
          exact (and_iff_right ⟨h₂, h₃, fun h => absurd h h₄⟩).symm
    | EndOfFile piece => exact iff_of_false not_loopDocumented_endOfFile id
    | Failed piece =>
        rw [loopDocumented_failed, dispatch_eq_none,
          ih (ReadOutcome.store_length (.Failed piece) hbuffer), ReadOutcome.store_headD]
        rfl

end Loop

/-! ## The loop and the session -/

/-- The replies of an event. -/
def SessionEvent.replies : SessionEvent → List (List Byte)
  | Executes _ replies => replies
  | _ => []

/-- The tables that the requests of a session find when no other thread changes them. -/
def Session.tablesFound (resultDisconnect : ℤ) (fdNotification : Fd) (s : Session) :
    List Request → List HashTable
  | [] => []
  | request :: requests =>
      s.store :: match s.serve resultDisconnect fdNotification request with
        | .error _ => []
        | .ok (s, _) => s.tablesFound resultDisconnect fdNotification requests

/-- The rounds of a loop that finds a request each time. -/
def messageRounds (blocks : List Block) (stores : List HashTable) : List (ReadOutcome × HashTable) :=
  (blocks.map ReadOutcome.Message).zip stores

section Requests

variable {block : Block} {request : Request}

/-- A case of the `switch` serves the request it stands for. -/
lemma Operation.serve_request {operation : Operation} (h : operation.request = .ok request)
    (resultDisconnect : ℤ) (fd : Fd) (s : Session) :
    operation.serve resultDisconnect fd s = s.serve resultDisconnect fd request := by
  cases operation with
  | Disconnect =>
      obtain rfl := Except.ok.inj h
      rfl
  | Subscribe key =>
      obtain ⟨k, hread, hk⟩ := bind_eq_ok.mp h
      obtain rfl := Except.ok.inj hk
      simp only [serve, hread, ok_bind]
  | Unsubscribe key =>
      obtain ⟨k, hread, hk⟩ := bind_eq_ok.mp h
      obtain rfl := Except.ok.inj hk
      rw [readBuffer] at hread
      split_ifs at hread
      obtain rfl := Except.ok.inj hread
      rfl

/-- A block that is decoded to a request is dispatched to its case. -/
lemma dispatch_of_decodeRequest (h : decodeRequest block.val = .ok (some request)) :
    ∃ operation, dispatch block.val = some operation ∧ operation.request = .ok request := by
  rw [decodeRequest_eq_dispatch] at h
  cases hdispatch : dispatch block.val with
  | none =>
      rw [hdispatch] at h
      cases h
  | some operation =>
      rw [hdispatch] at h
      obtain ⟨request', hrequest, h⟩ := bind_eq_ok.mp h
      obtain rfl := Option.some.inj (Except.ok.inj h)
      exact ⟨operation, rfl, hrequest⟩

/-- **The loop refines the session.**  When `read_all` finds a request each time, none of them a
disconnect, and no other thread changes the table, the loop replies what the session does, and the
thread dies in it exactly when the session faults. -/
theorem sessionEvents_serveAll (resultDisconnect : ℤ) (fd : Fd) {blocks : List Block}
    {requests : List Request}
    (hdecode : List.Forall₂ (fun block request => decodeRequest block.val = .ok (some request))
      blocks requests) (hstays : Request.Disconnect ∉ requests) {buffer : List Byte}
    (hbuffer : buffer.length = requestSize) (s : Session) :
    (∀ s' replies, s.serveAll resultDisconnect fd requests = .ok (s', replies) →
      (sessionEvents resultDisconnect fd s buffer
        (messageRounds blocks (s.tablesFound resultDisconnect fd requests))).flatMap
          SessionEvent.replies = replies) ∧
    ∀ fault, (∃ operation, SessionEvent.Dies operation fault ∈
        sessionEvents resultDisconnect fd s buffer
          (messageRounds blocks (s.tablesFound resultDisconnect fd requests))) ↔
      s.serveAll resultDisconnect fd requests = .error fault := by
  induction hdecode generalizing s buffer with
  | nil =>
      refine ⟨?_, fun fault => ?_⟩
      · intro s' replies h
        exact (Prod.mk.inj (Except.ok.inj h)).2
      · exact iff_of_false (by simp [messageRounds, sessionEvents]) (fun h => nomatch h)
  | @cons block request blocks requests hblock hblocks ih =>
      obtain ⟨operation, hdispatch, hrequest⟩ := dispatch_of_decodeRequest hblock
      rw [List.mem_cons, not_or] at hstays
      have hmessage : dispatch ((ReadOutcome.Message block).store buffer) = some operation := by
        rwa [ReadOutcome.store_message block hbuffer]
      have hserve := Operation.serve_request hrequest resultDisconnect fd s
      cases hresult : s.serve resultDisconnect fd request with
      | error fault =>
          have hevents : sessionEvents resultDisconnect fd s buffer (messageRounds (block :: blocks)
              (s.tablesFound resultDisconnect fd (request :: requests)))
              = [.Reads, .Dies operation fault] := by
            rw [Session.tablesFound, hresult]
            exact sessionEvents_error hmessage (hserve.trans hresult)
          rw [hevents, Session.serveAll_fault hresult]
          refine ⟨fun s' replies h => (nomatch h), fun fault' => ?_⟩
          simp [eq_comm]
      | ok result =>
          obtain ⟨s₁, replies₁⟩ := result
          obtain ⟨hreplies, hfault⟩ := ih hstays.2 block.prop s₁
          have hevents : sessionEvents resultDisconnect fd s buffer (messageRounds (block :: blocks)
              (s.tablesFound resultDisconnect fd (request :: requests)))
              = .Reads :: .Executes operation replies₁ ::
                  sessionEvents resultDisconnect fd s₁ block.val
                    (messageRounds blocks (s₁.tablesFound resultDisconnect fd requests)) := by
            rw [Session.tablesFound, hresult]
            refine (sessionEvents_ok hmessage (hserve.trans hresult)).trans ?_
            rw [ReadOutcome.store_message block hbuffer]
            rfl
          have hall : s.serveAll resultDisconnect fd (request :: requests)
              = (s₁.serveAll resultDisconnect fd requests).map fun r => (r.1, replies₁ ++ r.2) := by
            simp only [Session.serveAll, hresult, ok_bind]
            rw [if_neg fun h => hstays.1 h.symm]
            cases s₁.serveAll resultDisconnect fd requests <;> rfl
          rw [hevents, hall]
          constructor
          · intro s' replies h
            cases hrest : s₁.serveAll resultDisconnect fd requests with
            | error e =>
                rw [hrest] at h
                cases h
            | ok rest =>
                rw [hrest] at h
                obtain rfl := (Prod.mk.inj (Except.ok.inj h)).2
                rw [List.flatMap_cons, List.flatMap_cons, hreplies rest.1 rest.2 hrest]
                rfl
          · intro fault
            have hmap : (s₁.serveAll resultDisconnect fd requests).map
                (fun r => (r.1, replies₁ ++ r.2)) = .error fault ↔
                s₁.serveAll resultDisconnect fd requests = .error fault := by
              cases s₁.serveAll resultDisconnect fd requests <;> simp [Except.map]
            rw [hmap, ← hfault fault]
            simp

end Requests

/-! ## Sessions -/

/-- The beginning of a sequence that goes on for ever. -/
def firstRounds (rounds : ℕ → ReadOutcome × HashTable) (n : ℕ) : List (ReadOutcome × HashTable) :=
  (List.range n).map rounds

/-- **Exactly when the loop of a session is right.**  Whatever the buffer and the key list pointer
hold to begin with, and whatever the table is each time: for every finite sequence of results of
`read_all`, and for every infinite one at each of its results, the loop has executed each request
once and nothing else, and returned to the queue when it should, if and only if it is safe. -/
theorem session_loop_documented_iff (resultDisconnect : ℤ) (fd : Fd) (ht : HashTable) (keyList : Ptr)
    (buffer : Block) :
    (∀ rounds : List (ReadOutcome × HashTable),
      LoopDocumented resultDisconnect fd ⟨ht, keyList, Heap.empty⟩ buffer.val rounds ↔
        LoopSafe keyList fd buffer.first rounds) ∧
      ∀ rounds : ℕ → ReadOutcome × HashTable,
        (∀ n, LoopDocumented resultDisconnect fd ⟨ht, keyList, Heap.empty⟩ buffer.val
            (firstRounds rounds n)) ↔
          ∀ n, LoopSafe keyList fd buffer.first (firstRounds rounds n) := by
  constructor
  · intro rounds
    exact loopDocumented_iff buffer.prop rounds
  · intro rounds
    exact forall_congr' fun n => loopDocumented_iff buffer.prop _

/-- A buffer that was all zero. -/
def zeroBlock : Block := ⟨List.replicate requestSize 0, List.length_replicate⟩

/-- The request to give up `a`, and then the end of the file. -/
def unsubscribeAndClose : List (ReadOutcome × HashTable) :=
  [(.Message ⟨4 :: (text "a" ++ List.replicate 40 0), by decide⟩, .createHashTable),
    (.EndOfFile ⟨[], by decide⟩, .createHashTable)]

/-- The unsubscription is executed again at the end of the file, and the manager goes on. -/
theorem session_loop_repeats_request :
    (∃ key, sessionEvents 0 5 ⟨.createHashTable, none, Heap.empty⟩ zeroBlock.val unsubscribeAndClose
      = [.Reads, .Executes (.Unsubscribe key) [text "40"], .Reads,
          .Executes (.Unsubscribe key) [text "40"]]) ∧
    ¬ ∀ (resultDisconnect : ℤ) (fd : Fd) (ht : HashTable) (keyList : Ptr) (buffer : Block)
        (rounds : List (ReadOutcome × HashTable)),
        LoopDocumented resultDisconnect fd ⟨ht, keyList, Heap.empty⟩ buffer.val rounds := by
  have hevents : sessionEvents 0 5 ⟨.createHashTable, none, Heap.empty⟩ zeroBlock.val
      unsubscribeAndClose
      = [.Reads, .Executes (.Unsubscribe (text "a" ++ List.replicate 40 0)) [text "40"], .Reads,
          .Executes (.Unsubscribe (text "a" ++ List.replicate 40 0)) [text "40"]] := by decide
  refine ⟨⟨_, hevents⟩, ?_⟩
  intro h
  have hdocumented := h 0 5 .createHashTable none zeroBlock unsubscribeAndClose
  rw [LoopDocumented, hevents] at hdocumented
  exact absurd hdocumented (by decide)

end Kvs
