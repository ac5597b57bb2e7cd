import Kvs.Common.Protocol
import Kvs.Server.Subscriptions

/-!
# The replies of a session

A manager thread serves a session: it answers the connection, and then each request with two digits,
the operation and its result (`manager_thread_handler` of `main.c`).  `Session.serve` is one request
through the key list of the thread, the store and the `switch`; `documentedReplies` is what
`operations.h` says about the results.

They agree on little.  A refused connection is answered twice, and so is a subscription to a key that
is not there; an `unsubscribe` is told the key is missing with the digit for success; and a
subscription never comes to its reply at all, since the key list it appends to is a pointer that is
never set.  What is left, exactly, is in `replies_documented_iff`: an accepted session in which
nothing is asked, or only to give up subscriptions that were never made to keys that are there, and
to disconnect.

The theorem is about every table, whatever its subscriber lists are.  An `unsubscribe` spoils the list
it is given, and is answered as documented all the same as long as `delete_list_node` comes through
(`Passable`).  For a descriptor other than 0 it always does when the lists end.  Descriptor 0 frees
the first cell, which the list still begins with, and the next one to go there reads a cell that is
gone: so the condition keeps the cells that have been freed (`OnlyUnsubscribes`).
-/

namespace Kvs

/-! ## Nodes of the table -/

/-- The node of a key in the table. -/
def HashTable.lookup (ht : HashTable) (key : CString) : Option KeyNode :=
  match tableIndex (hash key) with
  | .ok index => findNode key (ht.table index)
  | .error _ => none

lemma HashTable.lookup_eq {ht : HashTable} {key : CString} {index : Fin tableSize}
    (hindex : tableIndex (hash key) = .ok index) : ht.lookup key = findNode key (ht.table index) := by
  simp only [lookup, hindex]

/-! ## Serving a session -/

/-- What a manager thread works on: the store, and its own list of the keys it has subscribed to. -/
structure Session where
  store : HashTable
  keyList : Ptr
  keys : Heap (Row keyNodeSize)

/-- `kvs_unsubscribe` for each key of a list. -/
def unsubscribeKeys (fdNotification : Fd) :
    List (Row keyNodeSize) → HashTable → Except Fault HashTable
  | [], store => pure store
  | key :: keys, store => do
      let (_, store) ← store.kvsUnsubscribe key.val fdNotification
      unsubscribeKeys fdNotification keys store

namespace Session

/-- The case of the `switch` for a request, with the replies it writes. -/
def serve (resultDisconnect : ℤ) (fdNotification : Fd) (s : Session) :
    Request → Except Fault (Session × List (List Byte))
  | .Disconnect => do
      let keys ← s.keys.walk s.keyList
      let store ← unsubscribeKeys fdNotification keys s.store
      pure ({ s with store := store, keyList := none },
        if resultDisconnect = 1 then [text "21"] else [text "20"])
  | .Subscribe key => do
      let keys ← appendListNodeKey s.keys s.keyList key
      let (result, store) ← s.store.kvsSubscribe key fdNotification
      -- the second reply is behind the `if`, not in its `else`
      pure ({ s with store := store, keys := keys },
        (if result = 0 then [text "30"] else []) ++ [text "31"])
  | .Unsubscribe key => do
      let keys ← deleteListNodeKey s.keys s.keyList key
      let (result, store) ← s.store.kvsUnsubscribe key fdNotification
      pure ({ s with store := store, keys := keys },
        if result = 0 then [text "40"] else [text "41"])

/-- The requests of a session.  A disconnect closes the FIFOs, and no reply goes out after it. -/
def serveAll (resultDisconnect : ℤ) (fdNotification : Fd) (s : Session) :
    List Request → Except Fault (Session × List (List Byte))
  | [] => pure (s, [])
  | request :: requests => do
      let (s, replies) ← s.serve resultDisconnect fdNotification request
      if request = .Disconnect then pure (s, replies)
      else do
        let (s, rest) ← s.serveAll resultDisconnect fdNotification requests
        pure (s, replies ++ rest)

/-- What a client that connects is told. -/
def connectReplies (resultConnect : ℤ) : List (List Byte) :=
  (if resultConnect = 1 then [text "11"] else []) ++ [text "10"]

/-- A session from its connection on: everything that is written to the response FIFO. -/
def run (resultConnect resultDisconnect : ℤ) (fdNotification : Fd) (s : Session)
    (requests : List Request) : Except Fault (Session × List (List Byte)) := do
  let (s, replies) ← s.serveAll resultDisconnect fdNotification requests
  pure (s, connectReplies resultConnect ++ replies)

end Session

/-! ## What is documented -/

/-- One reply for each request: the digit of the operation, and its result.  `subscribed` are the
keys the session is subscribed to. -/
def documentedReplies (ht : HashTable) (resultDisconnect : ℤ) :
    List CString → List Request → List (List Byte)
  | _, [] => []
  | _, .Disconnect :: _ => [if resultDisconnect = 1 then text "21" else text "20"]
  | subscribed, .Subscribe key :: requests =>
      if (ht.lookup key).isSome then
        text "31" :: documentedReplies ht resultDisconnect (key :: subscribed) requests
      else text "30" :: documentedReplies ht resultDisconnect subscribed requests
  | subscribed, .Unsubscribe key :: requests =>
      (if key ∈ subscribed then text "40" else text "41") ::
        documentedReplies ht resultDisconnect (subscribed.filter fun k => k ≠ key) requests

/-- The session is answered as documented: once for the connection and once for each request. -/
def RepliesDocumented (resultConnect resultDisconnect : ℤ) (fdNotification : Fd) (s : Session)
    (requests : List Request) : Prop :=
  ∃ s', s.run resultConnect resultDisconnect fdNotification requests
    = .ok (s', (if resultConnect = 1 then text "11" else text "10") ::
        documentedReplies s.store resultDisconnect [] requests)

/-! ## The condition -/

/-- Up to the disconnect, only keys that are in the table are unsubscribed from, and nothing else is
asked; `delete_list_node` comes through their lists as they were at the beginning, and no list begins
with a cell that a request before has freed. -/
def OnlyUnsubscribes (ht : HashTable) (fd : Fd) : List ℕ → List Request → Prop
  | _, [] => True
  | _, .Disconnect :: _ => True
  | _, .Subscribe _ :: _ => False
  | freed, .Unsubscribe key :: requests =>
      ∃ keyNode, ht.lookup key = some keyNode ∧ Passable ht.subs keyNode.head fd ∧
        (∀ a ∈ freed, keyNode.head ≠ some a) ∧
        OnlyUnsubscribes ht fd (freedCells keyNode.head fd ++ freed) requests

/-! ## The store's part -/

namespace HashTable

variable {ht ht' : HashTable} {key : CString} {keyNode : KeyNode} {fd : Fd} {freed : List ℕ}

lemma tableIndex_of_lookup (h : ht.lookup key = some keyNode) :
    ∃ index, tableIndex (hash key) = .ok index ∧ findNode key (ht.table index) = some keyNode := by
  unfold lookup at h
  split at h
  · exact ⟨_, ‹_›, h⟩
  · cases h

lemma lookup_of_table (hsame : ht'.table = ht.table) (key : CString) :
    ht'.lookup key = ht.lookup key := by
  simp only [lookup, hsame]

/-- Unsubscribing from a key that is there is left to `delete_list_node`. -/
lemma kvsUnsubscribe_of_lookup (h : ht.lookup key = some keyNode) (fd : Fd) :
    ht.kvsUnsubscribe key fd = (deleteListNode ht.subs keyNode.head fd).map
      fun subs => (1, { ht with subs := subs }) := by
  obtain ⟨index, hindex, hnode⟩ := tableIndex_of_lookup h
  rw [kvsUnsubscribe_of_find hindex hnode]

/-- Unsubscribing from a key that is there, from an empty list. -/
lemma kvsUnsubscribe_of_some (h : ht.lookup key = some keyNode) (hhead : keyNode.head = none)
    (fd : Fd) : ht.kvsUnsubscribe key fd = .ok (1, ht) := by
  rw [kvsUnsubscribe_of_lookup h, deleteListNode, hhead, Heap.unlink_none]
  rfl

/-- Unsubscribing from a key that is not there, if it has a chain at all. -/
lemma kvsUnsubscribe_of_none (h : ht.lookup key = none) (fd : Fd) :
    ht.kvsUnsubscribe key fd = .ok (0, ht) ∨ ht.kvsUnsubscribe key fd = .error .badIndex := by
  by_cases hkey : key.StartsAlnum
  · obtain ⟨index, hindex⟩ := tableIndex_of_startsAlnum hkey
    rw [lookup_eq hindex] at h
    left
    exact kvsUnsubscribe_of_not_find hindex h fd
  · right
    simp only [kvsUnsubscribe, deleteSubscription, tableIndex_of_not_startsAlnum hkey, error_bind]

/-- The table `ht` after unsubscriptions that have freed these cells: every other pointer is as it
was. -/
structure Unsubscribed (ht : HashTable) (fd : Fd) (freed : List ℕ) (ht' : HashTable) : Prop where
  table : ht'.table = ht.table
  links : ∀ a, ht'.subs.link a = if a ∈ freed then none else ht.subs.link a
  onlyZero : fd ≠ 0 → freed = []

lemma Unsubscribed.none (ht : HashTable) (fd : Fd) : ht.Unsubscribed fd [] ht where
  table := rfl
  links := fun _ => rfl
  onlyZero := fun _ => rfl

/-- One more. -/
lemma Unsubscribed.deleteListNode (h : ht.Unsubscribed fd freed ht') {node : Ptr} {subs : Heap Fd}
    (hrun : Kvs.deleteListNode ht'.subs node fd = .ok subs) :
    ht.Unsubscribed fd (freedCells node fd ++ freed) { ht' with subs := subs } where
  table := h.table
  links := by
    intro a
    show subs.link a = _
    rw [deleteListNode_link hrun, h.links]
    by_cases hmem : a ∈ freedCells node fd
    · simp [hmem]
    · simp [hmem]
  onlyZero := by
    intro hfd
    rw [freedCells, if_neg hfd, h.onlyZero hfd]
    rfl

/-- A list can be passed afterwards if it could before and its first cell has not been freed. -/
lemma Unsubscribed.passable_iff (h : ht.Unsubscribed fd freed ht') (node : Ptr) :
    Passable ht'.subs node fd ↔ Passable ht.subs node fd ∧ ∀ a ∈ freed, node ≠ some a := by
  by_cases hfd : fd = 0
  · simp only [Passable, if_pos hfd, h.links]
    constructor
    · intro hlive
      constructor
      · intro a ha hnone
        have hcell := hlive a ha
        split_ifs at hcell
        · exact hcell rfl
        · exact hcell hnone
      · intro a hmem ha
        have hcell := hlive a ha
        rw [if_pos hmem] at hcell
        exact hcell rfl
    · rintro ⟨hlive, hkept⟩ a ha
      rw [if_neg fun hmem => hkept a hmem ha]
      exact hlive a ha
  · have hnone := h.onlyZero hfd
    have hlinks : ∀ a, ht'.subs.link a = ht.subs.link a := by
      intro a
      rw [h.links, hnone, if_neg List.not_mem_nil]
    simp only [Passable, if_neg hfd, hnone]
    constructor
    · intro hends
      exact ⟨hends.congr fun a => (hlinks a).symm, by simp⟩
    · rintro ⟨hends, -⟩
      exact hends.congr hlinks

end HashTable

/-! ## The key list's part -/

/-- The key list of a thread that has subscribed to nothing has no cells; whatever its pointer
is, nothing can be appended. -/
lemma appendListNodeKey_empty (p : Ptr) (key : CString) :
    ∃ e, appendListNodeKey Heap.empty p key = .error e := by
  unfold appendListNodeKey
  cases strcpy keyNodeSize key with
  | error e => exact ⟨e, rfl⟩
  | ok k =>
      cases p with
      | none => exact ⟨.nullDeref, rfl⟩
      | some a =>
          have hcell : (Heap.empty : Heap (Row keyNodeSize)).cells a = none := rfl
          exact ⟨.wildPointer, Heap.append_stale k hcell⟩

namespace Session

variable {resultConnect resultDisconnect : ℤ} {fd : Fd} {ht ht' : HashTable} {freed : List ℕ}

/-- A key list pointer that was never set is followed by every request. -/
lemma serve_stale (a : ℕ) (request : Request) :
    ∃ e, (⟨ht, some a, Heap.empty⟩ : Session).serve resultDisconnect fd request = .error e := by
  cases request with
  | Disconnect =>
      refine ⟨.wildPointer, ?_⟩
      simp only [serve, Heap.walk_stale (h := Heap.empty) (a := a) rfl, error_bind]
  | Subscribe key =>
      obtain ⟨e, happend⟩ := appendListNodeKey_empty (some a) key
      refine ⟨e, ?_⟩
      simp only [serve, happend, error_bind]
  | Unsubscribe key =>
      refine ⟨.wildPointer, ?_⟩
      simp only [serve, deleteListNodeKey, Heap.unlink_stale (h := Heap.empty) (a := a) _ rfl,
        error_bind]

/-- A subscription appends to the key list first. -/
lemma serve_subscribe (key : CString) : ∃ e,
    (⟨ht, none, Heap.empty⟩ : Session).serve resultDisconnect fd (.Subscribe key) = .error e := by
  obtain ⟨e, happend⟩ := appendListNodeKey_empty none key
  refine ⟨e, ?_⟩
  simp only [serve, happend, error_bind]

lemma serve_disconnect :
    (⟨ht, none, Heap.empty⟩ : Session).serve resultDisconnect fd .Disconnect
      = .ok (⟨ht, none, Heap.empty⟩, if resultDisconnect = 1 then [text "21"] else [text "20"]) := by
  simp only [serve, Heap.walk_none, ok_bind, unsubscribeKeys, pure_eq_ok]

/-- A request that faults is the last one. -/
lemma serveAll_fault {s : Session} {request : Request} {e : Fault}
    (h : s.serve resultDisconnect fd request = .error e) (requests : List Request) :
    s.serveAll resultDisconnect fd (request :: requests) = .error e := by
  simp only [serveAll, h, error_bind]

/-- An unsubscription is answered by what the store returns. -/
lemma serve_unsubscribe {key : CString} {status : ℤ} {ht' : HashTable}
    (h : ht.kvsUnsubscribe key fd = .ok (status, ht')) :
    (⟨ht, none, Heap.empty⟩ : Session).serve resultDisconnect fd (.Unsubscribe key)
      = .ok (⟨ht', none, Heap.empty⟩, if status = 0 then [text "40"] else [text "41"]) := by
  simp only [serve, deleteListNodeKey, Heap.unlink_none, ok_bind, h, pure_eq_ok]

lemma serve_unsubscribe_fault {key : CString} {e : Fault}
    (h : ht.kvsUnsubscribe key fd = .error e) :
    (⟨ht, none, Heap.empty⟩ : Session).serve resultDisconnect fd (.Unsubscribe key) = .error e := by
  simp only [serve, deleteListNodeKey, Heap.unlink_none, ok_bind, h, error_bind]

/-- An unsubscription that the store answers, and the requests behind it. -/
lemma serveAll_unsubscribe {key : CString} {status : ℤ} {ht' : HashTable}
    (h : ht.kvsUnsubscribe key fd = .ok (status, ht')) {requests : List Request} {s' : Session}
    {replies : List (List Byte)} :
    (⟨ht, none, Heap.empty⟩ : Session).serveAll resultDisconnect fd (.Unsubscribe key :: requests)
        = .ok (s', replies) ↔
      ∃ rest, (⟨ht', none, Heap.empty⟩ : Session).serveAll resultDisconnect fd requests
          = .ok (s', rest) ∧
        (if status = 0 then text "40" else text "41") :: rest = replies := by
  have hreply : (if status = 0 then [text "40"] else [text "41"])
      = [if status = 0 then text "40" else text "41"] := by split_ifs <;> rfl
  simp only [serveAll, serve_unsubscribe h, ok_bind]
  rw [if_neg (by simp), bind_eq_ok, hreply]
  simp

lemma documentedReplies_unsubscribe (key : CString) (requests : List Request) :
    documentedReplies ht resultDisconnect [] (.Unsubscribe key :: requests)
      = text "41" :: documentedReplies ht resultDisconnect [] requests := rfl

/-- An unsubscription gets its documented reply from a key that is there, if its list can be passed. -/
lemma serveAll_unsubscribe_iff (hleft : ht.Unsubscribed fd freed ht') (key : CString)
    {requests : List Request}
    (hrest : ∀ {freed' : List ℕ} {ht₁ : HashTable}, ht.Unsubscribed fd freed' ht₁ →
      ((∃ s', (⟨ht₁, none, Heap.empty⟩ : Session).serveAll resultDisconnect fd requests
        = .ok (s', documentedReplies ht resultDisconnect [] requests)) ↔
          OnlyUnsubscribes ht fd freed' requests)) :
    (∃ s', (⟨ht', none, Heap.empty⟩ : Session).serveAll resultDisconnect fd
        (.Unsubscribe key :: requests)
        = .ok (s', documentedReplies ht resultDisconnect [] (.Unsubscribe key :: requests)))
      ↔ OnlyUnsubscribes ht fd freed (.Unsubscribe key :: requests) := by
  have hlookup : ht'.lookup key = ht.lookup key := HashTable.lookup_of_table hleft.table key
  rw [documentedReplies_unsubscribe]
  cases hnode : ht.lookup key with
  | none =>
      rw [hnode] at hlookup
      constructor
      · rintro ⟨s', hserve⟩
        rcases HashTable.kvsUnsubscribe_of_none hlookup fd with hstore | hstore
        · -- the digit of the store, and the other one
          obtain ⟨rest, -, hreplies⟩ := (serveAll_unsubscribe hstore).mp hserve
          exact absurd (List.cons.inj hreplies).1 (by decide)
        · rw [serveAll_fault (serve_unsubscribe_fault hstore)] at hserve
          cases hserve
      · rintro ⟨keyNode, hsome, -⟩
        rw [hnode] at hsome
        cases hsome
  | some keyNode =>
      rw [hnode] at hlookup
      have hstore := HashTable.kvsUnsubscribe_of_lookup hlookup fd
      have hpassable := hleft.passable_iff keyNode.head
      rw [← deleteListNode_iff] at hpassable
      cases hdelete : deleteListNode ht'.subs keyNode.head fd with
      | error e =>
          rw [hdelete] at hstore
          constructor
          · rintro ⟨s', hserve⟩
            rw [serveAll_fault (serve_unsubscribe_fault hstore)] at hserve
            cases hserve
          · rintro ⟨found, hsome, hpass, hkept, -⟩
            obtain rfl := Option.some.inj (hnode.symm.trans hsome)
            obtain ⟨subs, hrun⟩ := hpassable.mpr ⟨hpass, hkept⟩
            rw [hdelete] at hrun
            cases hrun
      | ok subs =>
          rw [hdelete] at hstore
          have hafter := hrest (hleft.deleteListNode hdelete)
          obtain ⟨hpass, hkept⟩ := hpassable.mp ⟨subs, hdelete⟩
          constructor
          · rintro ⟨s', hserve⟩
            obtain ⟨rest, hserved, hreplies⟩ := (serveAll_unsubscribe hstore).mp hserve
            rw [(List.cons.inj hreplies).2] at hserved
            exact ⟨keyNode, hnode, hpass, hkept, hafter.mp ⟨s', hserved⟩⟩
          · rintro ⟨found, hsome, -, -, honly⟩
            obtain rfl := Option.some.inj (hnode.symm.trans hsome)
            obtain ⟨s', hserved⟩ := hafter.mpr honly
            exact ⟨s', (serveAll_unsubscribe hstore).mpr ⟨_, hserved, rfl⟩⟩

/-- The requests are answered as documented if and only if they are of the kind that can be, by
induction over them, for the table as the requests before have left it. -/
lemma serveAll_iff (hleft : ht.Unsubscribed fd freed ht') (requests : List Request) :
    (∃ s', (⟨ht', none, Heap.empty⟩ : Session).serveAll resultDisconnect fd requests
        = .ok (s', documentedReplies ht resultDisconnect [] requests))
      ↔ OnlyUnsubscribes ht fd freed requests := by
  induction requests generalizing ht' freed with
  | nil =>
      constructor
      · intro _
        trivial
      · intro _
        exact ⟨_, rfl⟩
  | cons request requests ih =>
    cases request with
    | Disconnect =>
      constructor
      · intro _
        trivial
      · intro _
        refine ⟨⟨ht', none, Heap.empty⟩, ?_⟩
        simp only [serveAll, serve_disconnect, ok_bind, if_true, pure_eq_ok, documentedReplies]
        split_ifs <;> rfl
    | Subscribe key =>
      constructor
      · rintro ⟨s', hserve⟩
        obtain ⟨e, hfault⟩ : ∃ e, (⟨ht', none, Heap.empty⟩ : Session).serve resultDisconnect fd
          (.Subscribe key) = .error e := serve_subscribe key
        rw [serveAll_fault hfault] at hserve
        cases hserve
      · intro h
        exact h.elim
    | Unsubscribe key => exact serveAll_unsubscribe_iff hleft key ih

/-- With a key list pointer that was never set, only a session without requests is served. -/
lemma serveAll_stale {a : ℕ} {requests : List Request} {result : Session × List (List Byte)}
    (h : (⟨ht, some a, Heap.empty⟩ : Session).serveAll resultDisconnect fd requests
      = .ok result) : requests = [] := by
  cases requests with
  | nil => rfl
  | cons request requests =>
      obtain ⟨e, hfault⟩ : ∃ e, (⟨ht, some a, Heap.empty⟩ : Session).serve resultDisconnect fd
        request = .error e := serve_stale a request
      rw [serveAll_fault hfault] at h
      cases h

end Session

/-! ## Replies as documented -/

/-- No reply to a request looks like the one to the connection. -/
lemma documentedReplies_ne_connect (ht : HashTable) (resultDisconnect : ℤ)
    (subscribed : List CString) (requests : List Request) (rest : List (List Byte)) :
    documentedReplies ht resultDisconnect subscribed requests ≠ text "10" :: rest := by
  intro h
  cases requests with
  | nil => cases h
  | cons request requests =>
      cases request with
      | Disconnect =>
          have hreply := (List.cons.inj h).1
          split_ifs at hreply
          · exact absurd hreply (by decide)
          · exact absurd hreply (by decide)
      | Subscribe key =>
          rw [documentedReplies] at h
          split_ifs at h
          · exact absurd (List.cons.inj h).1 (by decide)
          · exact absurd (List.cons.inj h).1 (by decide)
      | Unsubscribe key =>
          have hreply := (List.cons.inj h).1
          split_ifs at hreply
          · exact absurd hreply (by decide)
          · exact absurd hreply (by decide)

/-- **Exactly when a session is answered as documented.**  On every table, for every descriptor, every
value of the connection and disconnection results, every word in the key list pointer and every
sequence of requests, the replies are the documented ones, one for the connection and one for each
request, if and only if the connection was not refused and either nothing is requested, or the
pointer is null and each request up to the disconnect unsubscribes from a key that is in the table,
whose list `delete_list_node` comes through. -/
theorem replies_documented_iff (ht : HashTable) (resultConnect resultDisconnect : ℤ) (fd : Fd)
    (keyList : Ptr) (requests : List Request) :
    RepliesDocumented resultConnect resultDisconnect fd ⟨ht, keyList, Heap.empty⟩ requests ↔
      resultConnect ≠ 1 ∧
        (requests = [] ∨ keyList = none ∧ OnlyUnsubscribes ht fd [] requests) := by
  have hrun : ∀ {s' : Session} {replies : List (List Byte)},
      (⟨ht, keyList, Heap.empty⟩ : Session).run resultConnect resultDisconnect fd requests
          = .ok (s', replies) ↔
        ∃ rest, (⟨ht, keyList, Heap.empty⟩ : Session).serveAll resultDisconnect fd requests
          = .ok (s', rest) ∧ Session.connectReplies resultConnect ++ rest = replies := by
    intro s' replies
    rw [Session.run, bind_eq_ok]
    simp
  by_cases hconnect : resultConnect = 1
  · -- two replies to the connection
    refine ⟨?_, fun h => absurd hconnect h.1⟩
    rintro ⟨s', h⟩
    obtain ⟨rest, -, hreplies⟩ := hrun.mp h
    rw [Session.connectReplies, if_pos hconnect, if_pos hconnect] at hreplies
    exact absurd (List.cons.inj hreplies).2.symm (documentedReplies_ne_connect _ _ _ _ _)
  · have hdocumented : RepliesDocumented resultConnect resultDisconnect fd
        ⟨ht, keyList, Heap.empty⟩ requests ↔
          ∃ s', (⟨ht, keyList, Heap.empty⟩ : Session).serveAll resultDisconnect fd requests
            = .ok (s', documentedReplies ht resultDisconnect [] requests) := by
      refine exists_congr fun s' => hrun.trans ⟨?_, fun h => ⟨_, h, ?_⟩⟩
      · rintro ⟨rest, hserve, hreplies⟩
        rw [Session.connectReplies, if_neg hconnect, if_neg hconnect] at hreplies
        have hrest : rest = documentedReplies ht resultDisconnect [] requests :=
          (List.cons.inj hreplies).2
        rwa [hrest] at hserve
      · rw [Session.connectReplies, if_neg hconnect, if_neg hconnect]
        rfl
    rw [hdocumented]
    cases keyList with
    | none =>
        rw [Session.serveAll_iff (HashTable.Unsubscribed.none ht fd) requests]
        refine ⟨fun h => ⟨hconnect, Or.inr ⟨rfl, h⟩⟩, ?_⟩
        rintro ⟨-, rfl | ⟨-, h⟩⟩
        · trivial
        · exact h
    | some a =>
        refine ⟨fun ⟨s', h⟩ => ⟨hconnect, Or.inl (Session.serveAll_stale h)⟩, ?_⟩
        rintro ⟨-, rfl | ⟨hnull, -⟩⟩
        · exact ⟨_, rfl⟩
        · cases hnull

/-- Two keys of one chain, and one subscriber of the second. -/
def sharedNodes : List KeyNode := [⟨.lit "a", .lit "x", none⟩, ⟨.lit "0", .lit "y", some 0⟩]

def sharedTable : HashTable where
  table := fun i => if i = ⟨0, by decide⟩ then sharedNodes else []
  subs := Heap.empty.alloc ⟨7, none⟩
  nodes := 2

/-- A client that twice gives up a key it has never subscribed to, and leaves.  It takes over the
subscription of another one, but is answered as documented. -/
theorem replies_documented_unsubscribe :
    RepliesDocumented 0 0 5 ⟨sharedTable, none, Heap.empty⟩
      [.Unsubscribe (.lit "0"), .Unsubscribe (.lit "0"), .Disconnect] := by
  have hpassable : Passable sharedTable.subs (some 0) 5 := by
    rw [Passable, if_neg (by decide)]
    exact ⟨[(0, 7)], rfl, none, rfl, rfl⟩
  refine (replies_documented_iff sharedTable 0 0 5 none _).mpr ⟨by decide, Or.inr ⟨rfl, ?_⟩⟩
  exact ⟨⟨.lit "0", .lit "y", some 0⟩, rfl, hpassable, by simp,
    ⟨.lit "0", .lit "y", some 0⟩, rfl, hpassable, by simp [freedCells], trivial⟩

/-- Unsubscribing from a key that is not in the table is answered with the digit for success. -/
theorem unsubscribe_reported_as_done :
    (∃ s', (⟨.createHashTable, none, Heap.empty⟩ : Session).run 0 0 5 [.Unsubscribe (.lit "b")]
      = .ok (s', [text "10", text "40"])) ∧
    ¬ ∀ (ht : HashTable) (resultConnect resultDisconnect : ℤ) (fd : Fd) (keyList : Ptr)
        (requests : List Request),
      RepliesDocumented resultConnect resultDisconnect fd ⟨ht, keyList, Heap.empty⟩ requests := by
  have hrun : (⟨.createHashTable, none, Heap.empty⟩ : Session).run 0 0 5 [.Unsubscribe (.lit "b")]
      = .ok (⟨.createHashTable, none, Heap.empty⟩, [text "10", text "40"]) := rfl
  refine ⟨⟨_, hrun⟩, fun h => ?_⟩
  obtain ⟨s', hdocumented⟩ := h .createHashTable 0 0 5 none [.Unsubscribe (.lit "b")]
  have hreplies : [text "10", text "40"] = [text "10", text "41"] :=
    congrArg Prod.snd (Except.ok.inj (hrun.symm.trans hdocumented))
  exact absurd hreplies (by decide)

end Kvs
