import Kvs.Server.Register
import Kvs.Server.SessionQueue

/-!
# The two ends of a session

A client names three FIFOs in its connect message.  The names go through the register FIFO, the
three local buffers of the host, the queue and the entry that `pop` hands to a manager thread, and
then both sides open what they have: the manager in `manager_thread_handler` of `main.c`, the client
in `kvs_connect` of `api.c`.  `servedEnds` is the whole way of the names, through a queue in which
other clients may be waiting; `clientEnds` is the client's part.

On the way request and response change places, because `enqueue` takes the response path first and
the host passes the request path first, and the client opens the notification FIFO for writing, as
the manager does.  So the two sides open the *same* end of each of the three FIFOs
(`servedEnds_of_paths`), and none of the sessions can work (`session_ends_never_agree`).

That is for paths that leave room for a terminator.  A path of all 40 bytes comes through the
message and the host's buffers of 41, and `strncpy` fills the field of 40 in the queue with it and
puts no terminator there (`paths_survive_iff`).
-/

namespace Kvs

/-! ## Opening -/

/-- How `open` is asked for a FIFO: `O_RDONLY` or `O_WRONLY`. -/
inductive OpenMode where
  | Reading
  | Writing
  deriving DecidableEq

/-- A FIFO opened at one of its ends. -/
structure FifoEnd where
  path : CString
  mode : OpenMode
  deriving DecidableEq

/-- The end that goes with another one. -/
def FifoEnd.opposite : FifoEnd → FifoEnd
  | ⟨path, .Reading⟩ => ⟨path, .Writing⟩
  | ⟨path, .Writing⟩ => ⟨path, .Reading⟩

/-- What `kvs_connect` opens behind its message. -/
def clientEnds (request : ConnectRequest) : List FifoEnd :=
  [⟨request.requestFifoName, .Writing⟩, ⟨request.responseFifoName, .Reading⟩,
    ⟨request.notificationFifoName, .Writing⟩]

/-- What `manager_thread_handler` opens for the entry it has popped. -/
def managerEnds (entry : QueueEntry) : Except Fault (List FifoEnd) := do
  let request ← readBuffer entry.requestFifoName
  let response ← readBuffer entry.responseFifoName
  let notification ← readBuffer entry.notificationFifoName
  pure [⟨request, .Reading⟩, ⟨response, .Writing⟩, ⟨notification, .Writing⟩]

/-- The entry that is popped when those ahead of it have been. -/
def Queue.popBehind : ℕ → Queue → Except Fault (Option QueueEntry)
  | 0, queue => do
      let (entry, _) ← queue.pop
      pure entry
  | ahead + 1, queue => do
      let (_, queue) ← queue.pop
      popBehind ahead queue

/-- From the connect message to the three calls of `open`: what the host makes of the message is
enqueued behind the entries that wait, and a manager pops it after them. -/
def servedEnds (queue : Queue) (ahead : ℕ) (request : ConnectRequest) :
    Except Fault (Option (List FifoEnd)) := do
  let message ← kvsConnect request
  match connectRequest message with
  | none => pure none
  | some decoded => do
      let queue ← enqueueRequest queue decoded
      let entry ← queue.popBehind ahead
      match entry with
      | none => pure none
      | some entry => do
          let ends ← managerEnds entry
          pure (some ends)

/-! ## What should be opened -/

/-- The server reads requests and writes responses and notifications. -/
def documentedEnds (request : ConnectRequest) : List FifoEnd :=
  [⟨request.requestFifoName, .Reading⟩, ⟨request.responseFifoName, .Writing⟩,
    ⟨request.notificationFifoName, .Writing⟩]

/-- The server opens the ends it should, and the client the opposite ones. -/
def EndsAgree (queue : Queue) (ahead : ℕ) (request : ConnectRequest) : Prop :=
  servedEnds queue ahead request = .ok (some (documentedEnds request)) ∧
    clientEnds request = (documentedEnds request).map FifoEnd.opposite

/-- A path a client can use: not empty, room for it and its terminator in a field of the queue, and
no blank in it. -/
def CString.Path (path : CString) : Prop :=
  0 < path.length ∧ path.Fits maxPipePathLength ∧ path.BlankFree

instance (path : CString) : Decidable path.Path :=
  inferInstanceAs (Decidable (0 < path.length ∧ path.Fits maxPipePathLength ∧ path.BlankFree))

/-- Three such paths, and three different ones. -/
structure ConnectRequest.Paths (request : ConnectRequest) : Prop where
  requestFifo : request.requestFifoName.Path
  responseFifo : request.responseFifoName.Path
  notificationFifo : request.notificationFifoName.Path
  distinct : [request.requestFifoName, request.responseFifoName,
    request.notificationFifoName].Nodup

/-! ## The way of the names -/

/-- An entry is popped when those ahead of it have been. -/
lemma Queue.Holds.popBehind {queue : Queue} {entries rest : List QueueEntry} {entry : QueueEntry}
    (h : queue.Holds (entries ++ entry :: rest)) :
    queue.popBehind entries.length = .ok (some entry) := by
  induction entries generalizing queue with
  | nil =>
      obtain ⟨queue', hpop, -⟩ := h.pop
      simp [Queue.popBehind, hpop]
  | cons first entries ih =>
      obtain ⟨queue', hpop, hrest⟩ := h.pop
      simp [Queue.popBehind, hpop, ih hrest]

/-- The entry that is popped has the fields that were stored, whatever their length. -/
lemma popBehind_enqueueRequest {queue : Queue} {entries : List QueueEntry}
    (hqueue : queue.Holds entries) (request : ConnectRequest) :
    ∃ queue', enqueueRequest queue request = .ok queue' ∧
      queue'.popBehind entries.length = .ok (some (storedEntry request)) := by
  obtain ⟨queue', henqueue, hholds⟩ := hqueue.enqueue request.requestFifoName
    request.responseFifoName request.notificationFifoName
  exact ⟨queue', henqueue, hholds.popBehind⟩

/-- **What the manager opens**: the response FIFO for reading and the request FIFO for writing. -/
lemma servedEnds_of_paths {request : ConnectRequest} (hpaths : request.Paths) {queue : Queue}
    {entries : List QueueEntry} (hqueue : queue.Holds entries) :
    servedEnds queue entries.length request
      = .ok (some [⟨request.responseFifoName, .Reading⟩, ⟨request.requestFifoName, .Writing⟩,
          ⟨request.notificationFifoName, .Writing⟩]) := by
  obtain ⟨⟨-, hrequest, hrequestBlank⟩, ⟨-, hresponse, hresponseBlank⟩,
    ⟨-, hnotification, hnotificationBlank⟩, -⟩ := hpaths
  have hmessage : kvsConnect request = .ok request.message :=
    kvsConnect_of_fits ⟨hrequest.le, hresponse.le, hnotification.le⟩
  have hdecoded : connectRequest request.message = some request :=
    connectRequest_message ⟨hrequest.le, hresponse.le, hnotification.le⟩
      ⟨hrequestBlank, hresponseBlank, hnotificationBlank⟩
  obtain ⟨queue', henqueue, hpop⟩ := popBehind_enqueueRequest hqueue request
  -- the first argument of `enqueue` is the response path
  have hends : managerEnds (storedEntry request)
      = .ok [⟨request.responseFifoName, .Reading⟩, ⟨request.requestFifoName, .Writing⟩,
          ⟨request.notificationFifoName, .Writing⟩] := by
    simp [managerEnds, storedEntry, entryOf, readBuffer_strncpy hrequest,
      readBuffer_strncpy hresponse, readBuffer_strncpy hnotification]
  simp [servedEnds, hmessage, hdecoded, henqueue, hpop, hends]

/-! ## The sessions -/

/-- **The two ends of a session never agree.**  Whatever paths a client names and whoever waits in
front of it, it opens the same ends as the manager that serves it. -/
theorem session_ends_never_agree {request : ConnectRequest} (hpaths : request.Paths)
    {queue : Queue} {entries : List QueueEntry} (hqueue : queue.Holds entries) :
    (∃ ends, servedEnds queue entries.length request = .ok (some ends) ∧
        ends.Perm (clientEnds request)) ∧
      ¬ EndsAgree queue entries.length request := by
  have hserved := servedEnds_of_paths hpaths hqueue
  constructor
  · exact ⟨_, hserved, List.Perm.swap _ _ _⟩
  · rintro ⟨hagree, -⟩
    rw [hserved] at hagree
    have hends := Option.some.inj (Except.ok.inj hagree)
    simp only [documentedEnds, List.cons.injEq, FifoEnd.mk.injEq, and_true] at hends
    have hdistinct := hpaths.distinct
    simp [hends.1] at hdistinct

/-- The first client of a server. -/
theorem session_ends_never_agree_first :
    ∃ ends, servedEnds Queue.createQueue 0 firstClient = .ok (some ends) ∧
      ends.Perm (clientEnds firstClient) := by
  have hpaths : firstClient.Paths := ⟨by decide, by decide, by decide, by decide⟩
  exact (session_ends_never_agree hpaths Queue.Holds.createQueue).1

/-- Its manager opens the FIFO of the requests for writing. -/
theorem session_ends_crossed :
    servedEnds Queue.createQueue 0 firstClient
        = .ok (some [⟨.lit "/tmp/resp1", .Reading⟩, ⟨.lit "/tmp/req1", .Writing⟩,
            ⟨.lit "/tmp/notif1", .Writing⟩]) ∧
      ¬ ∀ (queue : Queue) (entries : List QueueEntry) (request : ConnectRequest), request.Paths →
          queue.Holds entries → EndsAgree queue entries.length request := by
  have hpaths : firstClient.Paths := ⟨by decide, by decide, by decide, by decide⟩
  have hserved := servedEnds_of_paths hpaths Queue.Holds.createQueue
  refine ⟨hserved, ?_⟩
  intro h
  have hagree := (h _ _ _ hpaths Queue.Holds.createQueue).1
  rw [hserved] at hagree
  exact absurd (Option.some.inj (Except.ok.inj hagree)) (by decide)

/-! ## Paths that fill their field -/

/-- What the host makes of the message is enqueued behind the entries that wait, and of the entry that
is popped after them each field, read as a string, ends inside its array and is the name that `enqueue`
was given for it. -/
def PathsSurvive (queue : Queue) (ahead : ℕ) (request : ConnectRequest) : Prop :=
  ∃ decoded queue' entry, connectRequest request.message = some decoded ∧
    enqueueRequest queue decoded = .ok queue' ∧ queue'.popBehind ahead = .ok (some entry) ∧
    readBuffer entry.responseFifoName = .ok decoded.requestFifoName ∧
    readBuffer entry.requestFifoName = .ok decoded.responseFifoName ∧
    readBuffer entry.notificationFifoName = .ok decoded.notificationFifoName

/-- That is a matter of the fields that are stored. -/
lemma pathsSurvive_iff_stored {request : ConnectRequest} (hfits : request.Fits)
    (hblank : request.BlankFree) {queue : Queue} {entries : List QueueEntry}
    (hqueue : queue.Holds entries) :
    PathsSurvive queue entries.length request ↔
      readBuffer (storedEntry request).responseFifoName = .ok request.requestFifoName ∧
      readBuffer (storedEntry request).requestFifoName = .ok request.responseFifoName ∧
      readBuffer (storedEntry request).notificationFifoName = .ok request.notificationFifoName := by
  have hmessage := connectRequest_message hfits hblank
  obtain ⟨queue', henqueue, hpop⟩ := popBehind_enqueueRequest hqueue request
  constructor
  · rintro ⟨decoded, queue₁, entry, hdecoded, henqueue₁, hpop₁, hfields⟩
    obtain rfl := Option.some.inj (hmessage.symm.trans hdecoded)
    obtain rfl := Except.ok.inj (henqueue.symm.trans henqueue₁)
    obtain rfl := Option.some.inj (Except.ok.inj (hpop.symm.trans hpop₁))
    exact hfields
  · intro hfields
    exact ⟨request, queue', storedEntry request, hmessage, henqueue, hpop, hfields⟩

/-- **Exactly when the paths of a client survive the queue.**  For every three paths without a blank
that the fields of the connect message admit, and whoever waits in front: if and only if each is
shorter than its field. -/
theorem paths_survive_iff {request : ConnectRequest} (hfits : request.Fits)
    (hblank : request.BlankFree) {queue : Queue} {entries : List QueueEntry}
    (hqueue : queue.Holds entries) :
    PathsSurvive queue entries.length request ↔
      request.requestFifoName.length < maxPipePathLength ∧
      request.responseFifoName.length < maxPipePathLength ∧
      request.notificationFifoName.length < maxPipePathLength := by
  rw [pathsSurvive_iff_stored hfits hblank hqueue]
  have hrequest : readBuffer (storedEntry request).responseFifoName = .ok request.requestFifoName ↔
      request.requestFifoName.length < maxPipePathLength := readBuffer_strncpy_iff
  have hresponse : readBuffer (storedEntry request).requestFifoName = .ok request.responseFifoName ↔
      request.responseFifoName.length < maxPipePathLength := readBuffer_strncpy_iff
  have hnotification :
      readBuffer (storedEntry request).notificationFifoName = .ok request.notificationFifoName ↔
        request.notificationFifoName.length < maxPipePathLength := readBuffer_strncpy_iff
  rw [hrequest, hresponse, hnotification]

/-- The paths of the first client do. -/
theorem paths_survive_first : PathsSurvive Queue.createQueue 0 firstClient := by
  have hempty : Queue.createQueue.Holds [] := Queue.Holds.createQueue
  exact (paths_survive_iff ⟨by decide, by decide, by decide⟩ ⟨by decide, by decide, by decide⟩
    hempty).mpr ⟨by decide, by decide, by decide⟩

/-- A client whose request path has 40 bytes. -/
def longestClient : ConnectRequest where
  requestFifoName := .ofBuffer (List.replicate maxPipePathLength (char 'a'))
  responseFifoName := .lit "/tmp/resp1"
  notificationFifoName := .lit "/tmp/notif1"

/-- Its request path does not: the field that it fills has no end. -/
theorem paths_survive_not_longest :
    (∃ queue' entry, connectRequest longestClient.message = some longestClient ∧
      enqueueRequest Queue.createQueue longestClient = .ok queue' ∧
      queue'.popBehind 0 = .ok (some entry) ∧
      readBuffer entry.responseFifoName = .error .outOfBounds) ∧
    ¬ ∀ (request : ConnectRequest) (queue : Queue) (entries : List QueueEntry), request.Fits →
      request.BlankFree → 0 < request.requestFifoName.length →
      0 < request.responseFifoName.length → 0 < request.notificationFifoName.length →
      queue.Holds entries → PathsSurvive queue entries.length request := by
  have hfits : longestClient.Fits := ⟨by decide, by decide, by decide⟩
  have hblank : longestClient.BlankFree := ⟨by decide, by decide, by decide⟩
  have hmessage := connectRequest_message hfits hblank
  obtain ⟨queue', henqueue, hpop⟩ :=
    popBehind_enqueueRequest Queue.Holds.createQueue longestClient
  have hlost : readBuffer (storedEntry longestClient).responseFifoName = .error .outOfBounds :=
    readBuffer_strncpy_of_not_fits (by decide)
  refine ⟨⟨queue', storedEntry longestClient, hmessage, henqueue, hpop, hlost⟩, ?_⟩
  intro h
  have hempty : Queue.createQueue.Holds [] := Queue.Holds.createQueue
  have hsurvive := h longestClient Queue.createQueue [] hfits hblank (by decide) (by decide)
    (by decide) hempty
  obtain ⟨hrequest, -⟩ := (pathsSurvive_iff_stored hfits hblank hempty).mp hsurvive
  rw [hlost] at hrequest
  cases hrequest

end Kvs
