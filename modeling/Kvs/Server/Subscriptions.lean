import Mathlib.Data.Finset.Basic
import Kvs.Server.Batches

/-!
# Notifications and subscriptions

Who should hear what is easy to say: a key that is in the store has an *audience*, the descriptors
subscribed to it; subscribing and unsubscribing change it, deleting the key ends it, and every
overwrite and the deletion itself are announced to it, once to each member (`ExactlyOnce`).

What the store does instead is decided by the subscriber list heads, and those are never set.
`write_pair` leaves the head of a new node as `malloc` returned it, and `append_list_node` is given
the head by value and reads through it.  So a first subscription has nowhere to go, and the first
notification follows a word of uninitialised memory.  Two consequences, and together they are
exact (`notifications_follow_subscriptions_iff`): a run announces what it should if and only if

* nobody ever subscribes to a key that is in the store, and
* every key that is overwritten, deleted or unsubscribed from sits in a node that was allocated
  with a null head.

The `Ledger` says which node a key has, and so where its head word came from.
-/

namespace Kvs

/-! ## What should be announced -/

/-- The descriptors subscribed to each key of the store; `none` for a key that is not there. -/
abbrev Audience := CString → Option (Finset Fd)

namespace Audience

/-- Who hears about a key. -/
def of (a : Audience) (key : CString) : Finset Fd := (a key).getD ∅

/-- A key that is created has no subscribers yet; one that is overwritten keeps its own. -/
def write (a : Audience) (key : CString) : Audience :=
  if (a key).isSome then a else Function.update a key (some ∅)

def delete (a : Audience) (key : CString) : Audience := Function.update a key none

def subscribe (a : Audience) (key : CString) (fd : Fd) : Audience :=
  Function.update a key ((a key).map (insert fd))

def unsubscribe (a : Audience) (key : CString) (fd : Fd) : Audience :=
  Function.update a key ((a key).map (Finset.erase · fd))

end Audience

/-- One message to each member of the audience, and nothing else. -/
def ExactlyOnce (audience : Finset Fd) (message : List Byte) (sent : List Notification) : Prop :=
  sent.Nodup ∧ ∀ n, n ∈ sent ↔ n.fd ∈ audience ∧ n.message = message

lemma exactlyOnce_empty (message : List Byte) (sent : List Notification) :
    ExactlyOnce ∅ message sent ↔ sent = [] := by
  refine ⟨fun h => List.eq_nil_iff_forall_not_mem.mpr fun n hn => ?_, fun h => ?_⟩
  · exact absurd ((h.2 n).mp hn).1 (Finset.notMem_empty _)
  · subst h
    exact ⟨List.nodup_nil, fun n => by simp⟩

/-- The announcements of a `WRITE`: pair by pair, to the audience the key has by then. -/
def AnnouncesWrites (a : Audience) : List (Str × Str) → List Notification → Prop
  | [], sent => sent = []
  | (key, value) :: pairs, sent => ∃ now later, sent = now ++ later ∧
      ExactlyOnce (a.of key) (pairText key value) now ∧
      AnnouncesWrites (a.write key) pairs later

/-- The announcements of a `DELETE`. -/
def AnnouncesDeletes (a : Audience) : List Str → List Notification → Prop
  | [], sent => sent = []
  | key :: keys, sent => ∃ now later, sent = now ++ later ∧
      ExactlyOnce (a.of key) (deletedText key) now ∧ AnnouncesDeletes (a.delete key) keys later

/-! ## Runs -/

/-- A call of the store. -/
inductive StoreCall where
  | Write (pairs : List (Str × Str))
  | Delete (keys : List Str)
  | Subscribe (key : CString) (fd : Fd)
  | Unsubscribe (key : CString) (fd : Fd)

namespace StoreCall

/-- The keys of a call have a chain. -/
def KeysStartAlnum : StoreCall → Prop
  | Write pairs => ∀ p ∈ pairs, p.1.val.StartsAlnum
  | Delete keys => ∀ key ∈ keys, key.val.StartsAlnum
  | Subscribe key _ => key.StartsAlnum
  | Unsubscribe key _ => key.StartsAlnum

instance : ∀ call : StoreCall, Decidable call.KeysStartAlnum
  | Write pairs => inferInstanceAs (Decidable (∀ p ∈ pairs, p.1.val.StartsAlnum))
  | Delete keys => inferInstanceAs (Decidable (∀ key ∈ keys, key.val.StartsAlnum))
  | Subscribe key _ => inferInstanceAs (Decidable key.StartsAlnum)
  | Unsubscribe key _ => inferInstanceAs (Decidable key.StartsAlnum)

/-- The call on the table, with the messages it sends. -/
def run (mem : ℕ → Ptr) (ht : HashTable) : StoreCall → Except Fault (HashTable × List Notification)
  | Write pairs => ht.kvsWrite mem pairs
  | Delete keys => do
      let (ht, _, sent) ← ht.kvsDelete keys
      pure (ht, sent)
  | Subscribe key fd => do
      let (_, ht) ← ht.kvsSubscribe key fd
      pure (ht, [])
  | Unsubscribe key fd => do
      let (_, ht) ← ht.kvsUnsubscribe key fd
      pure (ht, [])

/-- What the call should send. -/
def Announces (a : Audience) : StoreCall → List Notification → Prop
  | Write pairs, sent => AnnouncesWrites a pairs sent
  | Delete keys, sent => AnnouncesDeletes a keys sent
  | Subscribe _ _, sent => sent = []
  | Unsubscribe _ _, sent => sent = []

/-- The audiences after the call. -/
def audience (a : Audience) : StoreCall → Audience
  | Write pairs => pairs.foldl (fun a p => a.write p.1) a
  | Delete keys => keys.foldl (fun a key => a.delete key) a
  | Subscribe key fd => a.subscribe key fd
  | Unsubscribe key fd => a.unsubscribe key fd

end StoreCall

/-- A run of the store: the messages of each call. -/
def runStore (mem : ℕ → Ptr) (ht : HashTable) :
    List StoreCall → Except Fault (List (List Notification) × HashTable)
  | [] => pure ([], ht)
  | call :: calls => do
      let (ht, sent) ← call.run mem ht
      let (rest, ht) ← runStore mem ht calls
      pure (sent :: rest, ht)

/-- Every call of a run sends what it should. -/
def FollowsSubscriptions (a : Audience) : List StoreCall → List (List Notification) → Prop
  | [], sent => sent = []
  | call :: calls, sent => ∃ now later, sent = now :: later ∧ call.Announces a now ∧
      FollowsSubscriptions (call.audience a) calls later

/-! ## The condition -/

/-- Which node of the table each key has, by order of allocation, and how many there have been. -/
structure Ledger where
  node : CString → Option ℕ
  count : ℕ

namespace Ledger

def empty : Ledger := ⟨fun _ => none, 0⟩

def write (l : Ledger) (key : CString) : Ledger :=
  if (l.node key).isSome then l
  else ⟨Function.update l.node key (some l.count), l.count + 1⟩

def delete (l : Ledger) (key : CString) : Ledger := { l with node := Function.update l.node key none }

lemma delete_node_self (l : Ledger) (key : CString) : (l.delete key).node key = none :=
  Function.update_self ..

lemma delete_node_of_ne (l : Ledger) {key k : CString} (hk : k ≠ key) :
    (l.delete key).node k = l.node k :=
  Function.update_of_ne hk ..

lemma write_of_some {l : Ledger} {key : CString} {n : ℕ} (hn : l.node key = some n) :
    l.write key = l :=
  if_pos (by rw [hn]; rfl)

lemma write_of_none {l : Ledger} {key : CString} (hnone : l.node key = none) :
    l.write key = ⟨Function.update l.node key (some l.count), l.count + 1⟩ :=
  if_neg (by rw [hnone]; simp)

/-- If the key is there, its node was allocated with a null head. -/
def NullHead (mem : ℕ → Ptr) (l : Ledger) (key : CString) : Prop :=
  ∀ n, l.node key = some n → mem n = none

def WritesSafe (mem : ℕ → Ptr) (l : Ledger) : List (Str × Str) → Prop
  | [] => True
  | (key, _) :: pairs => l.NullHead mem key ∧ WritesSafe mem (l.write key) pairs

def DeletesSafe (mem : ℕ → Ptr) (l : Ledger) : List Str → Prop
  | [] => True
  | key :: keys => l.NullHead mem key ∧ DeletesSafe mem (l.delete key) keys

end Ledger

namespace StoreCall

/-- The call never follows a list head, because there is nothing to follow, and subscribes to no
key that is there. -/
def Safe (mem : ℕ → Ptr) (l : Ledger) : StoreCall → Prop
  | Write pairs => l.WritesSafe mem pairs
  | Delete keys => l.DeletesSafe mem keys
  | Subscribe key _ => l.node key = none
  | Unsubscribe key _ => l.NullHead mem key

def ledger (l : Ledger) : StoreCall → Ledger
  | Write pairs => pairs.foldl (fun l p => l.write p.1) l
  | Delete keys => keys.foldl (fun l key => l.delete key) l
  | Subscribe _ _ => l
  | Unsubscribe _ _ => l

end StoreCall

/-- Every call of a run is safe. -/
def CallsSafe (mem : ℕ → Ptr) (l : Ledger) : List StoreCall → Prop
  | [] => True
  | call :: calls => call.Safe mem l ∧ CallsSafe mem (call.ledger l) calls

/-! ## The ledger and the table -/

/-- The nodes of the table carry the head words the ledger says they were allocated with, and there
is not one subscriber cell for them to point to. -/
structure HashTable.TracksNodes (ht : HashTable) (mem : ℕ → Ptr) (l : Ledger)
    (nodes : List KeyNode) : Prop where
  lists : ht.Lists nodes
  heads : ∀ key, (KeyedList.find KeyNode.key key nodes).map KeyNode.head = (l.node key).map mem
  count : ht.nodes = l.count
  subs : ht.subs = Heap.empty

def HashTable.Tracks (ht : HashTable) (mem : ℕ → Ptr) (l : Ledger) : Prop :=
  ∃ nodes, ht.TracksNodes mem l nodes

lemma HashTable.tracks_createHashTable (mem : ℕ → Ptr) :
    HashTable.createHashTable.Tracks mem .empty :=
  ⟨[], HashTable.lists_createHashTable, fun _ => rfl, rfl, rfl⟩

namespace HashTable.Tracks

variable {mem : ℕ → Ptr} {ht : HashTable} {l : Ledger} {key value : CString} {i : Fin tableSize}

/-- The head word of the node of a key, found by its chain or by the ledger. -/
lemma lookup (h : ht.Tracks mem l) (hi : tableIndex (hash key) = .ok i) :
    (findNode key (ht.table i)).map KeyNode.head = (l.node key).map mem := by
  obtain ⟨nodes, h⟩ := h
  rw [h.lists.findNode_eq hi, h.heads]

/-- Whoever finds a key in its chain finds a node of the ledger. -/
lemma node_of_find (h : ht.Tracks mem l) (hi : tableIndex (hash key) = .ok i) {keyNode : KeyNode}
    (hnode : findNode key (ht.table i) = some keyNode) :
    ∃ n, l.node key = some n ∧ keyNode.head = mem n := by
  have hlookup := h.lookup hi
  rw [hnode, Option.map_some] at hlookup
  obtain ⟨n, hn, hmem⟩ := Option.map_eq_some_iff.mp hlookup.symm
  exact ⟨n, hn, hmem.symm⟩

lemma node_of_not_find (h : ht.Tracks mem l) (hi : tableIndex (hash key) = .ok i)
    (hnode : findNode key (ht.table i) = none) : l.node key = none := by
  have hlookup := h.lookup hi
  rw [hnode, Option.map_none] at hlookup
  exact Option.map_eq_none_iff.mp hlookup.symm

/-- The head word that a node of an unsafe key was allocated with. -/
lemma head_of_not_null (h : ht.Tracks mem l) (hi : tableIndex (hash key) = .ok i)
    {keyNode : KeyNode} (hnode : findNode key (ht.table i) = some keyNode)
    (hnull : ¬ l.NullHead mem key) : ∃ a, keyNode.head = some a := by
  obtain ⟨n, hn, hmem⟩ := h.node_of_find hi hnode
  refine Option.ne_none_iff_exists'.mp fun hhead => hnull fun n' hn' => ?_
  obtain rfl : n = n' := Option.some.inj (hn.symm.trans hn')
  exact hmem.symm.trans hhead

/-- A head word that is not null points to no cell. -/
lemma stale (h : ht.Tracks mem l) (a : ℕ) : ht.subs.cells a = none := by
  obtain ⟨nodes, h⟩ := h
  rw [h.subs]
  rfl

/-- Overwriting and creating keep the ledger. -/
lemma writePair (h : ht.Tracks mem l) (hkey : key.StartsAlnum) (hnull : l.NullHead mem key)
    (hfit : (pairText key value).length < writeBufferSize) :
    ∃ ht', HashTable.writePair mem ht key value = .ok (ht', []) ∧ ht'.Tracks mem (l.write key) := by
  obtain ⟨i, hi⟩ := tableIndex_of_startsAlnum hkey
  cases hnode : findNode key (ht.table i) with
  | some keyNode =>
      obtain ⟨n, hn, hmem⟩ := h.node_of_find hi hnode
      have hhead : keyNode.head = none := hmem.trans (hnull n hn)
      obtain ⟨nodes, h⟩ := h
      have hkeep : l.write key = l := Ledger.write_of_some hn
      refine ⟨ht.setChain i (overwriteValue key value (ht.table i)), ?_,
        ⟨_, h.lists.modify hi (.withValue value) fun _ => rfl, fun k => ?_, ?_, h.subs⟩⟩
      · rw [HashTable.writePair_of_find hi hnode hfit, hhead, HashTable.notify_none]
        rfl
      · rw [hkeep, ← h.heads]
        by_cases hk : k = key
        · rw [hk, KeyedList.find_modify_self KeyNode.key (.withValue value) fun _ => rfl,
            Option.map_map]
          rfl
        · rw [KeyedList.find_modify_of_ne KeyNode.key (.withValue value) (fun _ => rfl) hk]
      · rw [hkeep]
        exact h.count
  | none =>
      have hnone := h.node_of_not_find hi hnode
      obtain ⟨nodes, h⟩ := h
      have hfind := h.lists.findNode_eq hi
      rw [hnode] at hfind
      set fresh : KeyNode := ⟨key, value, mem ht.nodes⟩ with hfresh
      have hcons : (ht.setChain i (fresh :: ht.table i)).Lists (fresh :: nodes) :=
        h.lists.cons hi hkey hfind.symm
      have hwrite := Ledger.write_of_none hnone
      refine ⟨{ ht.setChain i (fresh :: ht.table i) with nodes := ht.nodes + 1 },
        HashTable.writePair_of_not_find hi hnode,
        ⟨fresh :: nodes, hcons.of_table rfl, fun k => ?_, ?_, h.subs⟩⟩
      · rw [hwrite, KeyedList.find_cons]
        dsimp only
        by_cases hk : k = key
        · rw [hk, if_pos rfl, Function.update_self, hfresh, h.count]
          rfl
        · rw [if_neg (Ne.symm hk), Function.update_of_ne hk]
          exact h.heads k
      · rw [hwrite]
        exact congrArg (· + 1) h.count

/-- An overwrite reads its node's head word, and reads through it when it is not null. -/
lemma writePair_fault (h : ht.Tracks mem l) (hkey : key.StartsAlnum) (hnull : ¬ l.NullHead mem key)
    (hfit : (pairText key value).length < writeBufferSize) :
    HashTable.writePair mem ht key value = .error .wildPointer := by
  obtain ⟨i, hi⟩ := tableIndex_of_startsAlnum hkey
  cases hnode : findNode key (ht.table i) with
  | some keyNode =>
      obtain ⟨a, ha⟩ := h.head_of_not_null hi hnode hnull
      rw [HashTable.writePair_of_find hi hnode hfit, ha, HashTable.notify,
        Heap.walk_stale (h.stale a)]
      rfl
  | none =>
      exact absurd (fun n hn => by simp [h.node_of_not_find hi hnode] at hn) hnull

/-- A deletion keeps the ledger. -/
lemma deletePair (h : ht.Tracks mem l) (hkey : key.StartsAlnum) (hnull : l.NullHead mem key)
    (hfit : (deletedText key).length < deleteBufferSize) :
    ∃ status ht', ht.deletePair key = .ok (status, ht', []) ∧ ht'.Tracks mem (l.delete key) := by
  obtain ⟨i, hi⟩ := tableIndex_of_startsAlnum hkey
  cases hnode : findNode key (ht.table i) with
  | some keyNode =>
      obtain ⟨n, hn, hmem⟩ := h.node_of_find hi hnode
      have hhead : keyNode.head = none := hmem.trans (hnull n hn)
      obtain ⟨nodes, h⟩ := h
      refine ⟨0, ht.setChain i (unlinkNode key (ht.table i)), ?_,
        ⟨_, h.lists.erase hi, fun k => ?_, h.count, h.subs⟩⟩
      · rw [HashTable.deletePair_of_find hi hnode hfit, hhead, Heap.freeList_none]
        rfl
      · by_cases hk : k = key
        · rw [hk, KeyedList.find_erase_self h.lists.distinct, Ledger.delete_node_self]
          rfl
        · rw [KeyedList.find_erase_of_ne hk, h.heads, Ledger.delete_node_of_ne l hk]
  | none =>
      have hnone := h.node_of_not_find hi hnode
      obtain ⟨nodes, h⟩ := h
      refine ⟨1, ht, HashTable.deletePair_of_not_find hi hnode,
        ⟨nodes, h.lists, fun k => ?_, h.count, h.subs⟩⟩
      by_cases hk : k = key
      · rw [h.heads, hk, hnone, Ledger.delete_node_self]
      · rw [h.heads, Ledger.delete_node_of_ne l hk]

lemma deletePair_fault (h : ht.Tracks mem l) (hkey : key.StartsAlnum)
    (hnull : ¬ l.NullHead mem key) (hfit : (deletedText key).length < deleteBufferSize) :
    ht.deletePair key = .error .wildPointer := by
  obtain ⟨i, hi⟩ := tableIndex_of_startsAlnum hkey
  cases hnode : findNode key (ht.table i) with
  | some keyNode =>
      obtain ⟨a, ha⟩ := h.head_of_not_null hi hnode hnull
      rw [HashTable.deletePair_of_find hi hnode hfit, ha, Heap.freeList_stale (h.stale a)]
      rfl
  | none =>
      exact absurd (fun n hn => by simp [h.node_of_not_find hi hnode] at hn) hnull

/-- Subscribing to a key that is not there does nothing. -/
lemma kvsSubscribe (h : ht.Tracks mem l) (hkey : key.StartsAlnum) (hnone : l.node key = none)
    (fd : Fd) : ht.kvsSubscribe key fd = .ok (0, ht) := by
  obtain ⟨i, hi⟩ := tableIndex_of_startsAlnum hkey
  cases hnode : findNode key (ht.table i) with
  | some keyNode =>
      obtain ⟨n, hn, -⟩ := h.node_of_find hi hnode
      rw [hnone] at hn
      cases hn
  | none =>
      exact HashTable.kvsSubscribe_of_not_find hi hnode fd

/-- **Subscribing to a key that is there** reads through the head of an empty list: through null if
the node was allocated so, through whatever is there otherwise. -/
lemma kvsSubscribe_fault (h : ht.Tracks mem l) (hkey : key.StartsAlnum)
    (hsome : l.node key ≠ none) (fd : Fd) : ∃ e, ht.kvsSubscribe key fd = .error e := by
  obtain ⟨i, hi⟩ := tableIndex_of_startsAlnum hkey
  cases hnode : findNode key (ht.table i) with
  | some keyNode =>
      cases hhead : keyNode.head with
      | none =>
          refine ⟨.nullDeref, ?_⟩
          rw [HashTable.kvsSubscribe_of_find hi hnode, appendListNode, hhead, Heap.append_none]
          rfl
      | some a =>
          refine ⟨.wildPointer, ?_⟩
          rw [HashTable.kvsSubscribe_of_find hi hnode, appendListNode, hhead,
            Heap.append_stale fd (h.stale a)]
          rfl
  | none => exact absurd (h.node_of_not_find hi hnode) hsome

lemma kvsUnsubscribe (h : ht.Tracks mem l) (hkey : key.StartsAlnum) (hnull : l.NullHead mem key)
    (fd : Fd) : ∃ status, ht.kvsUnsubscribe key fd = .ok (status, ht) := by
  obtain ⟨i, hi⟩ := tableIndex_of_startsAlnum hkey
  cases hnode : findNode key (ht.table i) with
  | some keyNode =>
      obtain ⟨n, hn, hmem⟩ := h.node_of_find hi hnode
      have hhead : keyNode.head = none := hmem.trans (hnull n hn)
      refine ⟨1, ?_⟩
      rw [HashTable.kvsUnsubscribe_of_find hi hnode, deleteListNode, hhead, Heap.unlink_none]
      rfl
  | none => exact ⟨0, HashTable.kvsUnsubscribe_of_not_find hi hnode fd⟩

lemma kvsUnsubscribe_fault (h : ht.Tracks mem l) (hkey : key.StartsAlnum)
    (hnull : ¬ l.NullHead mem key) (fd : Fd) :
    ht.kvsUnsubscribe key fd = .error .wildPointer := by
  obtain ⟨i, hi⟩ := tableIndex_of_startsAlnum hkey
  cases hnode : findNode key (ht.table i) with
  | some keyNode =>
      obtain ⟨a, ha⟩ := h.head_of_not_null hi hnode hnull
      rw [HashTable.kvsUnsubscribe_of_find hi hnode, deleteListNode, ha,
        Heap.unlink_stale _ (h.stale a)]
      rfl
  | none =>
      exact absurd (fun n hn => by simp [h.node_of_not_find hi hnode] at hn) hnull

/-- A batch of writes, by induction over the pairs. -/
lemma kvsWrite (h : ht.Tracks mem l) {pairs : List (Str × Str)}
    (hkeys : ∀ p ∈ pairs, p.1.val.StartsAlnum) (hsafe : l.WritesSafe mem pairs) :
    ∃ ht', ht.kvsWrite mem pairs = .ok (ht', [])
      ∧ ht'.Tracks mem (pairs.foldl (fun l p => l.write p.1) l) := by
  induction pairs generalizing ht l with
  | nil => exact ⟨ht, rfl, h⟩
  | cons p pairs ih =>
      obtain ⟨key, value⟩ := p
      obtain ⟨hnull, hsafe⟩ := hsafe
      obtain ⟨ht₁, hwrite, h₁⟩ :=
        h.writePair (hkeys (key, value) (by simp)) hnull (pairText_fits key value)
      obtain ⟨ht₂, hrest, h₂⟩ := ih h₁ (fun p hp => hkeys p (List.mem_cons_of_mem _ hp)) hsafe
      refine ⟨ht₂, ?_, h₂⟩
      simp only [HashTable.kvsWrite, hwrite, ok_bind, hrest, pure_eq_ok, List.append_nil]

lemma kvsWrite_fault (h : ht.Tracks mem l) {pairs : List (Str × Str)}
    (hkeys : ∀ p ∈ pairs, p.1.val.StartsAlnum) (hrisky : ¬ l.WritesSafe mem pairs) :
    ht.kvsWrite mem pairs = .error .wildPointer := by
  induction pairs generalizing ht l with
  | nil => exact absurd trivial hrisky
  | cons p pairs ih =>
      obtain ⟨key, value⟩ := p
      have hkey : key.val.StartsAlnum := hkeys (key, value) (by simp)
      by_cases hnull : l.NullHead mem key
      · obtain ⟨ht₁, hwrite, h₁⟩ := h.writePair hkey hnull (pairText_fits key value)
        have hrest := ih h₁ (fun p hp => hkeys p (List.mem_cons_of_mem _ hp))
          fun hsafe => hrisky ⟨hnull, hsafe⟩
        simp only [HashTable.kvsWrite, hwrite, ok_bind, hrest, error_bind]
      · have hwrite := h.writePair_fault hkey hnull (pairText_fits key value)
        simp only [HashTable.kvsWrite, hwrite, error_bind]

/-- A batch of deletions, whatever it prints. -/
lemma deleteRecords (h : ht.Tracks mem l) (aux : Bool) {keys : List Str}
    (hkeys : ∀ key ∈ keys, key.val.StartsAlnum) (hsafe : l.DeletesSafe mem keys) :
    ∃ ht' aux' out, ht.deleteRecords aux keys = .ok (ht', aux', out, [])
      ∧ ht'.Tracks mem (keys.foldl (fun l key => l.delete key) l) := by
  induction keys generalizing ht l aux with
  | nil => exact ⟨ht, aux, [], rfl, h⟩
  | cons key keys ih =>
      obtain ⟨hnull, hsafe⟩ := hsafe
      obtain ⟨status, ht₁, hdelete, h₁⟩ :=
        h.deletePair (hkeys key (by simp)) hnull (deletedText_fits key)
      obtain ⟨ht₂, aux', out, hrest, h₂⟩ :=
        ih h₁ (HashTable.deleteRecord aux key.val status).1
          (fun k hk => hkeys k (List.mem_cons_of_mem _ hk)) hsafe
      refine ⟨ht₂, aux', (HashTable.deleteRecord aux key.val status).2 ++ out, ?_, h₂⟩
      simp only [HashTable.deleteRecords, hdelete, ok_bind, hrest, pure_eq_ok, List.append_nil]

lemma deleteRecords_fault (h : ht.Tracks mem l) (aux : Bool) {keys : List Str}
    (hkeys : ∀ key ∈ keys, key.val.StartsAlnum) (hrisky : ¬ l.DeletesSafe mem keys) :
    ht.deleteRecords aux keys = .error .wildPointer := by
  induction keys generalizing ht l aux with
  | nil => exact absurd trivial hrisky
  | cons key keys ih =>
      have hkey : key.val.StartsAlnum := hkeys key (by simp)
      by_cases hnull : l.NullHead mem key
      · obtain ⟨status, ht₁, hdelete, h₁⟩ := h.deletePair hkey hnull (deletedText_fits key)
        have hrest := ih h₁ (HashTable.deleteRecord aux key.val status).1
          (fun k hk => hkeys k (List.mem_cons_of_mem _ hk)) fun hsafe => hrisky ⟨hnull, hsafe⟩
        simp only [HashTable.deleteRecords, hdelete, ok_bind, hrest, error_bind]
      · have hdelete := h.deletePair_fault hkey hnull (deletedText_fits key)
        simp only [HashTable.deleteRecords, hdelete, error_bind]

end HashTable.Tracks

/-! ## Silence -/

/-- In a run that has been safe so far nobody has been able to subscribe. -/
def Silent (a : Audience) (l : Ledger) : Prop := ∀ key, a key = (l.node key).map fun _ => ∅

namespace Silent

variable {a : Audience} {l : Ledger}

lemma of_eq (h : Silent a l) (key : CString) : a.of key = ∅ := by
  rw [Audience.of, h key]
  cases l.node key <;> rfl

lemma write (h : Silent a l) (key : CString) : Silent (a.write key) (l.write key) := by
  intro k
  cases hnode : l.node key with
  | some n =>
      have ha : (a key).isSome := by rw [h key, hnode]; rfl
      rw [Ledger.write_of_some hnode, Audience.write, if_pos ha]
      exact h k
  | none =>
      have ha : ¬ (a key).isSome := by rw [h key, hnode]; simp
      rw [Ledger.write_of_none hnode, Audience.write, if_neg ha]
      dsimp only
      by_cases hk : k = key
      · rw [hk, Function.update_self, Function.update_self]
        rfl
      · rw [Function.update_of_ne hk, Function.update_of_ne hk]
        exact h k

lemma delete (h : Silent a l) (key : CString) : Silent (a.delete key) (l.delete key) := by
  intro k
  by_cases hk : k = key
  · rw [hk, Ledger.delete_node_self, Audience.delete, Function.update_self]
    rfl
  · rw [Ledger.delete_node_of_ne l hk, Audience.delete, Function.update_of_ne hk]
    exact h k

lemma subscribe (h : Silent a l) {key : CString} (hnone : l.node key = none) (fd : Fd) :
    Silent (a.subscribe key fd) l := by
  intro k
  rw [Audience.subscribe]
  by_cases hk : k = key
  · rw [hk, Function.update_self, h key, hnone]
    rfl
  · rw [Function.update_of_ne hk]
    exact h k

lemma unsubscribe (h : Silent a l) (key : CString) (fd : Fd) : Silent (a.unsubscribe key fd) l := by
  intro k
  rw [Audience.unsubscribe]
  by_cases hk : k = key
  · rw [hk, Function.update_self, h key]
    cases l.node key <;> rfl
  · rw [Function.update_of_ne hk]
    exact h k

lemma writes (h : Silent a l) (pairs : List (Str × Str)) :
    AnnouncesWrites a pairs [] ∧ Silent (pairs.foldl (fun a p => a.write p.1) a)
      (pairs.foldl (fun l p => l.write p.1) l) := by
  induction pairs generalizing a l with
  | nil => exact ⟨rfl, h⟩
  | cons p pairs ih =>
      obtain ⟨hrest, hsilent⟩ := ih (h.write p.1)
      refine ⟨⟨[], [], rfl, ?_, hrest⟩, hsilent⟩
      rw [h.of_eq]
      exact (exactlyOnce_empty _ _).mpr rfl

lemma deletes (h : Silent a l) (keys : List Str) :
    AnnouncesDeletes a keys [] ∧ Silent (keys.foldl (fun a key => a.delete key) a)
      (keys.foldl (fun l key => l.delete key) l) := by
  induction keys generalizing a l with
  | nil => exact ⟨rfl, h⟩
  | cons key keys ih =>
      obtain ⟨hrest, hsilent⟩ := ih (h.delete key)
      refine ⟨⟨[], [], rfl, ?_, hrest⟩, hsilent⟩
      rw [h.of_eq]
      exact (exactlyOnce_empty _ _).mpr rfl

end Silent

/-! ## One call, and a run -/

namespace StoreCall

variable {mem : ℕ → Ptr} {ht : HashTable} {a : Audience} {l : Ledger}

/-- **A safe call** says nothing, rightly. -/
lemma run_safe (h : ht.Tracks mem l) (hsilent : Silent a l) {call : StoreCall}
    (hkeys : call.KeysStartAlnum) (hsafe : call.Safe mem l) :
    ∃ ht', call.run mem ht = .ok (ht', []) ∧ ht'.Tracks mem (call.ledger l) ∧
      call.Announces a [] ∧ Silent (call.audience a) (call.ledger l) := by
  cases call with
  | Write pairs =>
      obtain ⟨ht', hrun, h'⟩ := h.kvsWrite hkeys hsafe
      exact ⟨ht', hrun, h', hsilent.writes pairs⟩
  | Delete keys =>
      obtain ⟨ht', aux, out, hrun, h'⟩ := h.deleteRecords false hkeys hsafe
      refine ⟨ht', ?_, h', hsilent.deletes keys⟩
      simp only [run, HashTable.kvsDelete, hrun, ok_bind, pure_eq_ok]
  | Subscribe key fd =>
      have hrun := h.kvsSubscribe hkeys hsafe fd
      refine ⟨ht, ?_, h, rfl, hsilent.subscribe hsafe fd⟩
      simp only [run, hrun, ok_bind, pure_eq_ok]
  | Unsubscribe key fd =>
      obtain ⟨status, hrun⟩ := h.kvsUnsubscribe hkeys hsafe fd
      refine ⟨ht, ?_, h, rfl, hsilent.unsubscribe key fd⟩
      simp only [run, hrun, ok_bind, pure_eq_ok]

/-- **An unsafe call** never comes to say anything. -/
lemma run_unsafe (h : ht.Tracks mem l) {call : StoreCall} (hkeys : call.KeysStartAlnum)
    (hrisky : ¬ call.Safe mem l) : ∃ e, call.run mem ht = .error e := by
  cases call with
  | Write pairs => exact ⟨_, h.kvsWrite_fault hkeys hrisky⟩
  | Delete keys =>
      have hrun := h.deleteRecords_fault false hkeys hrisky
      refine ⟨.wildPointer, ?_⟩
      simp only [run, HashTable.kvsDelete, hrun, error_bind]
  | Subscribe key fd =>
      obtain ⟨e, hrun⟩ := h.kvsSubscribe_fault hkeys hrisky fd
      refine ⟨e, ?_⟩
      simp only [run, hrun, error_bind]
  | Unsubscribe key fd =>
      have hrun := h.kvsUnsubscribe_fault hkeys hrisky fd
      refine ⟨.wildPointer, ?_⟩
      simp only [run, hrun, error_bind]

end StoreCall

/-- A run from a table that the ledger describes, by induction over the calls. -/
lemma runStore_iff {mem : ℕ → Ptr} {calls : List StoreCall} {ht : HashTable} {a : Audience}
    {l : Ledger} (h : ht.Tracks mem l) (hsilent : Silent a l)
    (hkeys : ∀ call ∈ calls, call.KeysStartAlnum) :
    ((∃ sent ht', runStore mem ht calls = .ok (sent, ht') ∧ FollowsSubscriptions a calls sent)
      ↔ CallsSafe mem l calls) := by
  induction calls generalizing ht a l with
  | nil =>
      constructor
      · intro _
        trivial
      · intro _
        exact ⟨[], ht, rfl, rfl⟩
  | cons call calls ih =>
      have hkey := hkeys call (by simp)
      have hrest := fun c hc => hkeys c (List.mem_cons_of_mem _ hc)
      by_cases hsafe : call.Safe mem l
      · obtain ⟨ht₁, hrun, h₁, hannounces, hsilent₁⟩ := call.run_safe h hsilent hkey hsafe
        have hiff := ih h₁ hsilent₁ hrest
        constructor
        · rintro ⟨sent, ht₂, hruns, hfollows⟩
          refine ⟨hsafe, hiff.mp ?_⟩
          obtain ⟨now, later, rfl, -, hlater⟩ := hfollows
          simp only [runStore, hrun, ok_bind, bind_eq_ok, pure_eq_ok, Except.ok.injEq,
            Prod.mk.injEq] at hruns
          obtain ⟨⟨rest, ht₃⟩, hruns, hsent, -⟩ := hruns
          obtain ⟨-, rfl⟩ := List.cons.inj hsent
          exact ⟨rest, ht₃, hruns, hlater⟩
        · intro hall
          obtain ⟨rest, ht₂, hruns, hlater⟩ := hiff.mpr hall.2
          refine ⟨[] :: rest, ht₂, ?_, [], rest, rfl, hannounces, hlater⟩
          simp only [runStore, hrun, ok_bind, hruns, pure_eq_ok]
      · obtain ⟨e, hrun⟩ := call.run_unsafe h hkey hsafe
        constructor
        · rintro ⟨sent, ht₂, hruns, -⟩
          simp only [runStore, hrun, error_bind] at hruns
          cases hruns
        · intro hall
          exact absurd hall.1 hsafe

/-- **Notifications follow subscriptions exactly in safe runs.**  From an empty table, whatever
memory `malloc` hands out, a run of the store announces each overwrite and each deletion once to
each descriptor subscribed to the key, and nothing to anybody else, if and only if no call
subscribes to a key that is in the store, and none overwrites, deletes or unsubscribes from a key
whose node was allocated with a head word other than null. -/
theorem notifications_follow_subscriptions_iff (mem : ℕ → Ptr) (calls : List StoreCall)
    (hkeys : ∀ call ∈ calls, call.KeysStartAlnum) :
    (∃ sent ht, runStore mem .createHashTable calls = .ok (sent, ht) ∧
        FollowsSubscriptions (fun _ => none) calls sent)
      ↔ CallsSafe mem .empty calls :=
  runStore_iff (HashTable.tracks_createHashTable mem) (fun _ => rfl) hkeys

/-- Writing a key twice and deleting it, with nobody subscribed. -/
theorem notifications_follow_subscriptions_quiet :
    ∃ sent ht, runStore (fun _ => none) .createHashTable
        [.Write [(.lit "a", .lit "x"), (.lit "a", .lit "y")], .Delete [.lit "a"]] = .ok (sent, ht) ∧
      FollowsSubscriptions (fun _ => none)
        [.Write [(.lit "a", .lit "x"), (.lit "a", .lit "y")], .Delete [.lit "a"]] sent := by
  refine (notifications_follow_subscriptions_iff (fun _ => none) _ (by decide)).mpr ?_
  exact ⟨⟨fun _ _ => rfl, fun _ _ => rfl, trivial⟩, ⟨fun _ _ => rfl, trivial⟩, trivial⟩

/-- One subscription to a key that is there ends the program, even on zero-filled memory. -/
theorem notifications_lost_at_first_subscription :
    ¬ ∀ (mem : ℕ → Ptr) (calls : List StoreCall), ZeroFilled mem →
        (∀ call ∈ calls, call.KeysStartAlnum) →
        ∃ sent ht, runStore mem .createHashTable calls = .ok (sent, ht) ∧
          FollowsSubscriptions (fun _ => none) calls sent := by
  intro h
  obtain ⟨sent, ht, hrun, -⟩ := h (fun _ => none)
    [.Write [(.lit "a", .lit "x")], .Subscribe (.lit "a") 3] (fun _ => rfl) (by decide)
  have hfault : runStore (fun _ => none) .createHashTable
      [.Write [(.lit "a", .lit "x")], .Subscribe (.lit "a") 3] = .error .nullDeref := rfl
  rw [hfault] at hrun
  cases hrun

end Kvs
