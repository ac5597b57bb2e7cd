import Kvs.Server.Session

/-!
# What a session leaves behind

A session subscribes its notification descriptor to keys, and a disconnect has to undo that: the
thread keeps a list of the keys the session has subscribed to and not given up, and calls
`kvs_unsubscribe` for each key on it.  Afterwards the descriptor is closed, so it must be in no
subscriber list of the table, and the other descriptors must be in theirs as before.

Two lists are kept here, and neither function that takes a cell out of one does what it should.  A
first subscription goes to a key list that is not there.  And `delete_list_node` assigns where it
should compare: it makes the descriptor the subscriber in every cell of the list, or, for the
descriptor 0, frees the first cell and leaves the head pointing to it.  Either way the first cell,
if it is there at all, belongs to the session from then on (`Heap.Carries`), and no later request
mends that.  So a session is undone exactly if there was nothing to undo (`disconnect_cleans_iff`).
-/

namespace Kvs

/-! ## Subscribers -/

namespace HashTable

/-- Who is subscribed to a key: nobody, to one that is not in the table. -/
def subscribers (ht : HashTable) (key : CString) : Except Fault (List Fd) :=
  match ht.lookup key with
  | some keyNode => ht.subs.walk keyNode.head
  | none => pure []

/-- Every subscriber list of the table ends. -/
structure SubscriberLists (ht : HashTable) (nodes : List KeyNode) : Prop where
  lists : ht.Lists nodes
  chains : ∀ keyNode ∈ nodes, ∃ cells, ht.subs.Chain keyNode.head cells

/-- A table with subscribers, in nodes of its chains. -/
def WellSubscribed (ht : HashTable) : Prop := ∃ nodes, ht.SubscriberLists nodes

/-- Nobody can be subscribed to the key: it is not in the table, or its list is empty. -/
def Unheard (ht : HashTable) (key : CString) : Prop :=
  ∀ keyNode, ht.lookup key = some keyNode → keyNode.head = none

end HashTable

/-! ## A session and its end -/

/-- A subscription or an unsubscription, of a key that has a chain. -/
def Request.OnKey : Request → Prop
  | Disconnect => False
  | Subscribe key => key.StartsAlnum
  | Unsubscribe key => key.StartsAlnum

instance : ∀ request : Request, Decidable request.OnKey
  | .Disconnect => inferInstanceAs (Decidable False)
  | .Subscribe key => inferInstanceAs (Decidable key.StartsAlnum)
  | .Unsubscribe key => inferInstanceAs (Decidable key.StartsAlnum)

/-- The keys subscribed to and not given up since. -/
def subscribedKeys (subscribed : Finset CString) : List Request → Finset CString
  | [] => subscribed
  | .Disconnect :: _ => subscribed
  | .Subscribe key :: requests => subscribedKeys (insert key subscribed) requests
  | .Unsubscribe key :: requests => subscribedKeys (subscribed.erase key) requests

/-- The requests are served, the key list is right then, and the disconnect unsubscribes from its
keys and empties it; the descriptor is in no subscriber list afterwards, and every other one is
subscribed as it was. -/
def DisconnectCleans (resultDisconnect : ℤ) (fd : Fd) (s : Session) (requests : List Request) :
    Prop :=
  ∃ s₁ replies keys s₂ reply,
    s.serveAll resultDisconnect fd requests = .ok (s₁, replies) ∧
    s₁.keys.walk s₁.keyList = .ok keys ∧
    (∀ key, key ∈ keys.map Subtype.val ↔ key ∈ subscribedKeys ∅ requests) ∧
    s₁.serve resultDisconnect fd .Disconnect = .ok (s₂, reply) ∧
    unsubscribeKeys fd keys s₁.store = .ok s₂.store ∧
    s₂.keyList = none ∧
    ∀ key, ∃ before after, s.store.subscribers key = .ok before ∧
      s₂.store.subscribers key = .ok after ∧ fd ∉ after ∧
        ∀ other, other ≠ fd → after.count other = before.count other

/-! ## The store's part -/

namespace HashTable

variable {ht ht' : HashTable} {key : CString} {fd : Fd} {status : ℤ}

/-- A node that is found is one of the table's. -/
lemma Lists.mem_of_lookup {nodes : List KeyNode} (h : ht.Lists nodes) {keyNode : KeyNode}
    (hnode : ht.lookup key = some keyNode) : keyNode ∈ nodes ∧ keyNode.key = key := by
  obtain ⟨index, hindex, hfind⟩ := tableIndex_of_lookup hnode
  rw [h.findNode_eq hindex] at hfind
  exact ⟨KeyedList.mem_of_find hfind, KeyedList.key_of_find hfind⟩

/-- The subscriber list of a node that is found. -/
lemma WellSubscribed.chain (h : ht.WellSubscribed) {keyNode : KeyNode}
    (hnode : ht.lookup key = some keyNode) : ∃ cells, ht.subs.Chain keyNode.head cells := by
  obtain ⟨nodes, hlists, hchains⟩ := h
  exact hchains keyNode (hlists.mem_of_lookup hnode).1

lemma subscribers_of_some {keyNode : KeyNode} (hnode : ht.lookup key = some keyNode) :
    ht.subscribers key = ht.subs.walk keyNode.head := by
  simp only [HashTable.subscribers, hnode]

lemma subscribers_of_none (hnode : ht.lookup key = none) : ht.subscribers key = .ok [] := by
  simp only [HashTable.subscribers, hnode, pure_eq_ok]

lemma WellSubscribed.subscribers (h : ht.WellSubscribed) (key : CString) :
    ∃ fds, ht.subscribers key = .ok fds := by
  cases hnode : ht.lookup key with
  | none => exact ⟨[], subscribers_of_none hnode⟩
  | some keyNode =>
      obtain ⟨cells, hchain⟩ := h.chain hnode
      exact ⟨_, (subscribers_of_some hnode).trans (Heap.walk_of_chain hchain)⟩

/-- An unsubscription that goes through changed nothing, or took something out of the list of the
node it found. -/
lemma kvsUnsubscribe_cases (h : ht.kvsUnsubscribe key fd = .ok (status, ht')) :
    (ht.lookup key = none ∧ ht' = ht) ∨
      ∃ keyNode subs, ht.lookup key = some keyNode ∧
        deleteListNode ht.subs keyNode.head fd = .ok subs ∧ ht' = { ht with subs := subs } := by
  cases hnode : ht.lookup key with
  | none =>
      rcases kvsUnsubscribe_of_none hnode fd with hstore | hstore
      · rw [hstore] at h
        cases h
        exact Or.inl ⟨rfl, rfl⟩
      · rw [hstore] at h
        cases h
  | some keyNode =>
      rw [kvsUnsubscribe_of_lookup hnode] at h
      cases hsubs : deleteListNode ht.subs keyNode.head fd with
      | error fault =>
          rw [hsubs] at h
          cases h
      | ok subs =>
          rw [hsubs] at h
          cases h
          exact Or.inr ⟨keyNode, subs, rfl, hsubs, rfl⟩

/-- An unsubscription leaves the chains alone, and every cell that carries the descriptor. -/
lemma kvsUnsubscribe_frame (h : ht.kvsUnsubscribe key fd = .ok (status, ht')) :
    ht'.table = ht.table ∧
      ∀ a, ht.subs.Carries a (· = fd) → ht'.subs.Carries a (· = fd) := by
  rcases kvsUnsubscribe_cases h with ⟨-, rfl⟩ | ⟨keyNode, subs, -, hsubs, rfl⟩
  · exact ⟨rfl, fun a hcell => hcell⟩
  · refine ⟨rfl, ?_⟩
    intro a hcell
    exact hcell.unlink (fun _ _ => rfl) hsubs

/-- An unsubscription from a key with subscribers makes the first of them its own. -/
lemma kvsUnsubscribe_first (h : ht.kvsUnsubscribe key fd = .ok (status, ht'))
    {keyNode : KeyNode} (hnode : ht.lookup key = some keyNode) {a : ℕ}
    (hhead : keyNode.head = some a) : ht'.subs.Carries a (· = fd) := by
  rcases kvsUnsubscribe_cases h with ⟨hnone, -⟩ | ⟨found, subs, hfound, hsubs, rfl⟩
  · rw [hnode] at hnone
    cases hnone
  · obtain rfl : keyNode = found := Option.some.inj (hnode.symm.trans hfound)
    rw [deleteListNode, hhead] at hsubs
    exact Heap.carries_unlink_first (fun _ => rfl) hsubs

/-- Nothing happens to a table in which nobody is subscribed to the key. -/
lemma kvsUnsubscribe_of_unheard (hkey : key.StartsAlnum) (h : ht.Unheard key) (fd : Fd) :
    ∃ status, ht.kvsUnsubscribe key fd = .ok (status, ht) := by
  cases hnode : ht.lookup key with
  | some keyNode => exact ⟨1, kvsUnsubscribe_of_some hnode (h keyNode hnode) fd⟩
  | none =>
      obtain ⟨index, hindex⟩ := tableIndex_of_startsAlnum hkey
      rw [lookup_eq hindex] at hnode
      exact ⟨0, kvsUnsubscribe_of_not_find hindex hnode fd⟩

/-- Once the first cell of a list carries the descriptor, the list cannot be read without it. -/
lemma subscribers_of_carries {keyNode : KeyNode} (hnode : ht.lookup key = some keyNode) {a : ℕ}
    (hhead : keyNode.head = some a) (hcell : ht.subs.Carries a (· = fd)) {fds : List Fd}
    (h : ht.subscribers key = .ok fds) : fd ∈ fds := by
  simp only [subscribers, hnode, hhead] at h
  obtain ⟨d, hd, rfl⟩ := hcell.walk h
  exact hd

end HashTable

/-! ## The session's part -/

/-- What is left of requests that a new key list has been through: there were only unsubscriptions,
and the lists they found something in begin with the session's descriptor now. -/
structure ServedUnsubscribes (fd : Fd) (ht : HashTable) (requests : List Request) (s₁ : Session) :
    Prop where
  keyList : s₁.keyList = none
  keys : s₁.keys = Heap.empty
  table : s₁.store.table = ht.table
  kept : ∀ a, ht.subs.Carries a (· = fd) → s₁.store.subs.Carries a (· = fd)
  marked : ∀ request ∈ requests, ∃ key, request = .Unsubscribe key ∧
    ∀ keyNode a, ht.lookup key = some keyNode → keyNode.head = some a →
      s₁.store.subs.Carries a (· = fd)

namespace Session

variable {resultDisconnect : ℤ} {fd : Fd} {ht : HashTable}

/-- **Whatever is served**, by induction over the requests. -/
lemma servedUnsubscribes {requests : List Request} (hkeys : ∀ request ∈ requests, request.OnKey)
    {s₁ : Session} {replies : List (List Byte)}
    (h : (⟨ht, none, Heap.empty⟩ : Session).serveAll resultDisconnect fd requests
      = .ok (s₁, replies)) : ServedUnsubscribes fd ht requests s₁ := by
  induction requests generalizing ht replies with
  | nil =>
      obtain ⟨rfl, -⟩ : (⟨ht, none, Heap.empty⟩ : Session) = s₁ ∧ [] = replies := by
        simpa [serveAll] using h
      exact ⟨rfl, rfl, rfl, fun a hcell => hcell, by simp⟩
  | cons request requests ih =>
    cases request with
    | Disconnect => exact (hkeys .Disconnect (by simp)).elim
    | Subscribe key =>
        obtain ⟨e, hfault⟩ : ∃ e, (⟨ht, none, Heap.empty⟩ : Session).serve resultDisconnect fd
          (.Subscribe key) = .error e := serve_subscribe key
        rw [serveAll_fault hfault] at h
        cases h
    | Unsubscribe key =>
        cases hstore : ht.kvsUnsubscribe key fd with
        | error e =>
            rw [serveAll_fault (serve_unsubscribe_fault hstore)] at h
            cases h
        | ok result =>
            obtain ⟨status, ht'⟩ := result
            obtain ⟨rest, hrest, -⟩ := (serveAll_unsubscribe hstore).mp h
            obtain ⟨htable, hkept⟩ := HashTable.kvsUnsubscribe_frame hstore
            have hserved := ih (fun r hr => hkeys r (List.mem_cons_of_mem _ hr)) hrest
            refine ⟨hserved.keyList, hserved.keys, hserved.table.trans htable,
              fun a hcell => hserved.kept a (hkept a hcell), ?_⟩
            intro r hr
            rcases List.mem_cons.mp hr with rfl | hr
            · refine ⟨key, rfl, ?_⟩
              intro keyNode a hnode hhead
              exact hserved.kept a (HashTable.kvsUnsubscribe_first hstore hnode hhead)
            · obtain ⟨key', rfl, hmarked⟩ := hserved.marked r hr
              refine ⟨key', rfl, ?_⟩
              intro keyNode a hnode hhead
              exact hmarked keyNode a ((HashTable.lookup_of_table htable key').trans hnode) hhead

/-- Unsubscriptions from keys nobody is subscribed to are served, and nothing happens. -/
lemma serveAll_unheard {requests : List Request} (hkeys : ∀ request ∈ requests, request.OnKey)
    (hunheard : ∀ request ∈ requests, ∃ key, request = .Unsubscribe key ∧ ht.Unheard key) :
    ∃ replies, (⟨ht, none, Heap.empty⟩ : Session).serveAll resultDisconnect fd requests
      = .ok (⟨ht, none, Heap.empty⟩, replies) := by
  induction requests with
  | nil => exact ⟨[], rfl⟩
  | cons request requests ih =>
      obtain ⟨key, rfl, hkey⟩ := hunheard request (by simp)
      obtain ⟨replies, hrest⟩ := ih (fun r hr => hkeys r (List.mem_cons_of_mem _ hr))
        (fun r hr => hunheard r (List.mem_cons_of_mem _ hr))
      obtain ⟨status, hstore⟩ :=
        HashTable.kvsUnsubscribe_of_unheard (hkeys (.Unsubscribe key) (by simp)) hkey fd
      exact ⟨_, (serveAll_unsubscribe hstore).mpr ⟨replies, hrest, rfl⟩⟩

end Session

/-- Nothing is left to unsubscribe from when nothing was subscribed to. -/
lemma subscribedKeys_unsubscribes {requests : List Request}
    (h : ∀ request ∈ requests, ∃ key, request = .Unsubscribe key) :
    subscribedKeys ∅ requests = ∅ := by
  induction requests with
  | nil => rfl
  | cons request requests ih =>
      obtain ⟨key, rfl⟩ := h request (by simp)
      rw [subscribedKeys, Finset.erase_empty]
      exact ih fun r hr => h r (List.mem_cons_of_mem _ hr)

/-- If the descriptor is in no list afterwards, there was nobody in the lists that were asked for. -/
lemma ServedUnsubscribes.unheard {fd : Fd} {ht : HashTable} {requests : List Request}
    {s₁ : Session} (h : ServedUnsubscribes fd ht requests s₁)
    (hgone : ∀ key, ∃ fds, s₁.store.subscribers key = .ok fds ∧ fd ∉ fds) :
    ∀ request ∈ requests, ∃ key, request = .Unsubscribe key ∧ ht.Unheard key := by
  intro request hrequest
  obtain ⟨key, rfl, hmarked⟩ := h.marked request hrequest
  refine ⟨key, rfl, ?_⟩
  intro keyNode hnode
  cases hhead : keyNode.head with
  | none => rfl
  | some a =>
      obtain ⟨fds, hfds, hfd⟩ := hgone key
      have hnode₁ := (HashTable.lookup_of_table h.table key).trans hnode
      have hmem := HashTable.subscribers_of_carries hnode₁ hhead (hmarked keyNode a hnode hhead) hfds
      exact absurd hmem hfd

/-- With a stale key list pointer nothing is served, not even the disconnect. -/
lemma not_disconnectCleans_stale {resultDisconnect : ℤ} {fd : Fd} {ht : HashTable} {a : ℕ}
    {requests : List Request} :
    ¬ DisconnectCleans resultDisconnect fd ⟨ht, some a, Heap.empty⟩ requests := by
  rintro ⟨s₁, replies, keys, s₂, reply, hserve, hwalk, -⟩
  obtain rfl := Session.serveAll_stale hserve
  obtain ⟨rfl, -⟩ : (⟨ht, some a, Heap.empty⟩ : Session) = s₁ ∧ [] = replies := by
    simpa [Session.serveAll] using hserve
  rw [Heap.walk_stale rfl] at hwalk
  cases hwalk

/-! ## Exactly when the session is undone -/

/-- **Exactly when a disconnect removes every trace of its session.**  On every table with
subscribers, for every descriptor, every word in the key list pointer and every history of
subscriptions and unsubscriptions: the pointer is null, the history has only unsubscriptions and
only from keys that nobody is subscribed to, and the descriptor was in no list to begin with. -/
theorem disconnect_cleans_iff {ht : HashTable} (hht : ht.WellSubscribed) (resultDisconnect : ℤ)
    (fd : Fd) (keyList : Ptr) {requests : List Request}
    (hkeys : ∀ request ∈ requests, request.OnKey) :
    DisconnectCleans resultDisconnect fd ⟨ht, keyList, Heap.empty⟩ requests ↔
      keyList = none ∧
      (∀ request ∈ requests, ∃ key, request = .Unsubscribe key ∧ ht.Unheard key) ∧
      ∀ key fds, ht.subscribers key = .ok fds → fd ∉ fds := by
  constructor
  · intro h
    cases keyList with
    | some a => exact absurd h not_disconnectCleans_stale
    | none =>
        obtain ⟨s₁, replies, keys, s₂, reply, hserve, hwalk, -, -, hunsubscribe, -, hafter⟩ := h
        have hserved := Session.servedUnsubscribes hkeys hserve
        have hkeysNil : keys = [] := by
          rw [hserved.keyList, Heap.walk_none] at hwalk
          exact (Except.ok.inj hwalk).symm
        have hstore : s₁.store = s₂.store := by
          rw [hkeysNil] at hunsubscribe
          exact Except.ok.inj hunsubscribe
        have hgone : ∀ key, ∃ fds, s₁.store.subscribers key = .ok fds ∧ fd ∉ fds := by
          intro key
          obtain ⟨before, after, -, hsubscribers, hfd, -⟩ := hafter key
          rw [← hstore] at hsubscribers
          exact ⟨after, hsubscribers, hfd⟩
        have hunheard := hserved.unheard hgone
        refine ⟨rfl, hunheard, ?_⟩
        intro key fds hfds
        obtain ⟨replies', hsame⟩ : ∃ replies', (⟨ht, none, Heap.empty⟩ : Session).serveAll
            resultDisconnect fd requests = .ok (⟨ht, none, Heap.empty⟩, replies') :=
          Session.serveAll_unheard hkeys hunheard
        obtain ⟨rfl, -⟩ := Prod.mk.inj (Except.ok.inj (hserve.symm.trans hsame))
        obtain ⟨after, hsubscribers, hfd⟩ := hgone key
        obtain rfl := Except.ok.inj (hfds.symm.trans hsubscribers)
        exact hfd
  · rintro ⟨rfl, hunheard, hfresh⟩
    obtain ⟨replies, hserve⟩ : ∃ replies, (⟨ht, none, Heap.empty⟩ : Session).serveAll
        resultDisconnect fd requests = .ok (⟨ht, none, Heap.empty⟩, replies) :=
      Session.serveAll_unheard hkeys hunheard
    have hnone : subscribedKeys ∅ requests = ∅ := subscribedKeys_unsubscribes fun request hrequest => by
      obtain ⟨key, hkey, -⟩ := hunheard request hrequest
      exact ⟨key, hkey⟩
    refine ⟨_, replies, [], _, _, hserve, Heap.walk_none _, ?_, Session.serve_disconnect, rfl, rfl,
      ?_⟩
    · intro key
      simp [hnone]
    · intro key
      obtain ⟨fds, hfds⟩ := hht.subscribers key
      exact ⟨fds, fds, hfds, hfds, hfresh key fds hfds, fun _ _ => rfl⟩

lemma mem_sharedNodes {keyNode : KeyNode} : keyNode ∈ sharedNodes ↔
    keyNode = ⟨.lit "a", .lit "x", none⟩ ∨ keyNode = ⟨.lit "0", .lit "y", some 0⟩ := by
  simp [sharedNodes]

lemma sharedTable_subscriberLists : sharedTable.SubscriberLists sharedNodes where
  lists := ⟨by decide, by decide, by decide⟩
  chains := by
    intro keyNode hnode
    rcases mem_sharedNodes.mp hnode with rfl | rfl
    · exact ⟨[], rfl⟩
    · exact ⟨[(0, 7)], rfl, none, rfl, rfl⟩

/-- The other client is the only subscriber. -/
lemma sharedTable_subscribers {key : CString} {fds : List Fd}
    (h : sharedTable.subscribers key = .ok fds) : fds = [] ∨ fds = [7] := by
  unfold HashTable.subscribers at h
  cases hnode : sharedTable.lookup key with
  | none =>
      simp only [hnode] at h
      exact Or.inl (Except.ok.inj h).symm
  | some keyNode =>
      obtain ⟨hmem, -⟩ := sharedTable_subscriberLists.lists.mem_of_lookup hnode
      simp only [hnode] at h
      rcases mem_sharedNodes.mp hmem with rfl | rfl
      · exact Or.inl (Except.ok.inj h).symm
      · exact Or.inr (Except.ok.inj h).symm

/-- A client that gives up a key it has never subscribed to leaves the other one alone. -/
theorem disconnect_cleans_unsubscribe :
    DisconnectCleans 0 5 ⟨sharedTable, none, Heap.empty⟩ [.Unsubscribe (.lit "a")] := by
  have hht : sharedTable.WellSubscribed := ⟨_, sharedTable_subscriberLists⟩
  refine (disconnect_cleans_iff hht 0 5 none (by decide)).mpr ⟨rfl, ?_, ?_⟩
  · intro request hrequest
    obtain rfl : request = .Unsubscribe (.lit "a") := by simpa using hrequest
    refine ⟨.lit "a", rfl, ?_⟩
    intro keyNode hnode
    obtain rfl := Option.some.inj (show some ⟨.lit "a", .lit "x", none⟩ = some keyNode from hnode)
    rfl
  · intro key fds hfds
    rcases sharedTable_subscribers hfds with rfl | rfl
    · decide
    · decide

/-- A client that subscribes to `a`, on a table in which nobody is subscribed to it: the append to
its key list, which is empty, goes through the null pointer, and the disconnect is not reached. -/
theorem disconnect_not_reached :
    (⟨sharedTable, none, Heap.empty⟩ : Session).serveAll 0 5 [.Subscribe (.lit "a"), .Disconnect]
        = .error .nullDeref ∧
      ¬ ∀ (ht : HashTable) (resultDisconnect : ℤ) (fd : Fd) (keyList : Ptr)
          (requests : List Request), ht.WellSubscribed → (∀ request ∈ requests, request.OnKey) →
          (∀ key fds, ht.subscribers key = .ok fds → fd ∉ fds) →
          DisconnectCleans resultDisconnect fd ⟨ht, keyList, Heap.empty⟩ requests := by
  refine ⟨rfl, ?_⟩
  intro h
  have hfresh : ∀ key fds, sharedTable.subscribers key = .ok fds → (5 : Fd) ∉ fds := by
    intro key fds hfds
    rcases sharedTable_subscribers hfds with rfl | rfl
    · decide
    · decide
  obtain ⟨s₁, replies, keys, s₂, reply, hserve, -⟩ := h sharedTable 0 5 none [.Subscribe (.lit "a")]
    ⟨_, sharedTable_subscriberLists⟩ (by decide) hfresh
  have hfault : (⟨sharedTable, none, Heap.empty⟩ : Session).serveAll 0 5 [.Subscribe (.lit "a")]
      = .error .nullDeref := rfl
  rw [hfault] at hserve
  cases hserve

end Kvs
