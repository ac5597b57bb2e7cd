import Kvs.Core.LinkedHeap
import Kvs.Common.Constants

/-!
# The queue of waiting clients

`queue.c`: a list with pointers to its first and its last node.  A node holds the three path names
of a connect request in fields of 40 bytes, filled by `strncpy`; `pop` copies them out the same way
before it frees the node.

`Queue.Holds q entries` says what the pointers are worth: from `head` the list runs through the
entries in order, and `tail` is its last node, or null when there is none.  Under it `enqueue` adds
behind, `pop` takes from the front, and neither faults (`Holds.enqueue`, `Holds.pop`).
-/

namespace Kvs

/-- The three fields of `t_node_queue`. -/
structure QueueEntry where
  responseFifoName : List Byte
  requestFifoName : List Byte
  notificationFifoName : List Byte
  deriving DecidableEq

/-- `t_queue`, with the nodes it points to. -/
structure Queue where
  nodes : Heap QueueEntry
  head : Ptr
  tail : Ptr

/-- A path field read as `strncpy` reads it: up to the first NUL, or whole. -/
def copyField (field : List Byte) : List Byte := strncpy maxPipePathLength (.ofBuffer field)

/-- The entry that three path names are stored in. -/
def entryOf (responseFifo requestFifo notificationFifo : CString) : QueueEntry where
  responseFifoName := strncpy maxPipePathLength responseFifo
  requestFifoName := strncpy maxPipePathLength requestFifo
  notificationFifoName := strncpy maxPipePathLength notificationFifo

namespace Queue

/-- `create_queue`, the `malloc` succeeding. -/
def createQueue : Queue where
  nodes := Heap.empty
  head := none
  tail := none

def isEmpty (queue : Queue) : Bool := queue.head = none

/-- `enqueue`. -/
def enqueue (queue : Queue) (responseFifo requestFifo notificationFifo : CString) :
    Except Fault Queue :=
  let newNode := queue.nodes.bound
  let nodes := queue.nodes.alloc ⟨entryOf responseFifo requestFifo notificationFifo, none⟩
  match queue.tail with
  | none => pure { nodes := nodes, head := some newNode, tail := some newNode }
  | some last => do
      let _ ← nodes.load (some last)
      pure
        { nodes := nodes.modify last fun c => { c with next := some newNode }
          head := queue.head
          tail := some newNode }

/-- `pop`: a copy of the first entry, null when there is none. -/
def pop (queue : Queue) : Except Fault (Option QueueEntry × Queue) :=
  if queue.isEmpty then pure (none, queue)
  else do
    let first ← queue.nodes.load queue.head
    let dataQueue : QueueEntry :=
      { responseFifoName := copyField first.data.responseFifoName
        requestFifoName := copyField first.data.requestFifoName
        notificationFifoName := copyField first.data.notificationFifoName }
    let nodes ← queue.nodes.free queue.head
    pure (some dataQueue,
      { nodes := nodes
        head := first.next
        tail := if first.next = none then none else queue.tail })

end Queue

/-! ## Entries -/

/-- The fields of an entry were filled by `strncpy`. -/
def QueueEntry.Stored (entry : QueueEntry) : Prop :=
  ∃ responseFifo requestFifo notificationFifo,
    entry = entryOf responseFifo requestFifo notificationFifo

/-- What `strncpy` stored, it reads back. -/
lemma copyField_strncpy (name : CString) :
    copyField (strncpy maxPipePathLength name) = strncpy maxPipePathLength name := by
  by_cases hfits : name.Fits maxPipePathLength
  · rw [copyField, ofBuffer_strncpy hfits]
  · have hlen : maxPipePathLength ≤ name.bytes.length := Nat.le_of_not_lt hfits
    have hzero : maxPipePathLength - name.length = 0 := Nat.sub_eq_zero_of_le hlen
    have hcut : strncpy maxPipePathLength name = name.bytes.take maxPipePathLength := by
      rw [strncpy, hzero, List.replicate_zero, List.append_nil]
    have hbytes : (CString.ofBuffer (name.bytes.take maxPipePathLength)).bytes
        = name.bytes.take maxPipePathLength :=
      CString.ofBuffer_bytes_of_nulFree fun hmem => name.nulFree (List.mem_of_mem_take hmem)
    rw [hcut, copyField, strncpy, hbytes, CString.length, hbytes, List.length_take,
      Nat.min_eq_left hlen, Nat.sub_self, List.replicate_zero, List.append_nil, List.take_take,
      Nat.min_self]

/-! ## The representation -/

/-- The queue holds the entries, the next one to be popped first. -/
def Queue.Holds (queue : Queue) (entries : List QueueEntry) : Prop :=
  (∀ entry ∈ entries, entry.Stored) ∧
    ∃ cells, queue.nodes.Chain queue.head cells ∧ cells.map Prod.snd = entries ∧
      queue.tail = cells.getLast?.map Prod.fst

namespace Queue.Holds

variable {queue : Queue} {entry : QueueEntry} {entries : List QueueEntry}

lemma createQueue : Queue.createQueue.Holds [] :=
  ⟨fun _ h => absurd h (by simp), [], rfl, rfl, rfl⟩

/-- **`enqueue`** adds behind. -/
theorem enqueue (h : queue.Holds entries) (responseFifo requestFifo notificationFifo : CString) :
    ∃ queue', queue.enqueue responseFifo requestFifo notificationFifo = .ok queue' ∧
      queue'.Holds (entries ++ [entryOf responseFifo requestFifo notificationFifo]) := by
  obtain ⟨hstored, cells, hchain, rfl, htail⟩ := h
  set fresh := entryOf responseFifo requestFifo notificationFifo with hfresh
  have hstored' : ∀ entry ∈ cells.map Prod.snd ++ [fresh], entry.Stored := by
    intro entry hmem
    rcases List.mem_append.mp hmem with hmem | hmem
    · exact hstored entry hmem
    · rw [List.mem_singleton.mp hmem]
      exact ⟨_, _, _, hfresh⟩
  have hnew := queue.nodes.alloc_cells_self ⟨fresh, none⟩
  have hold := hchain.alloc ⟨fresh, none⟩
  have hunused := hchain.bound_not_mem
  rcases List.eq_nil_or_concat cells with rfl | ⟨front, ⟨last, d⟩, rfl⟩
  · -- the empty queue: the new node is first and last
    have htail : queue.tail = none := htail
    refine ⟨{ nodes := queue.nodes.alloc ⟨fresh, none⟩
              head := some queue.nodes.bound
              tail := some queue.nodes.bound }, ?_, hstored',
      [(queue.nodes.bound, fresh)], ⟨rfl, none, hnew, rfl⟩, rfl, rfl⟩
    simp only [Queue.enqueue, htail, pure_eq_ok, hfresh]
  · have htail : queue.tail = some last := by simpa using htail
    rw [List.concat_eq_append] at hold hunused
    obtain ⟨c, hc⟩ : ∃ c, (queue.nodes.alloc ⟨fresh, none⟩).cells last = some c :=
      hold.live (by simp)
    have hlinked := hold.snoc hnew hunused
    refine ⟨{ nodes := (queue.nodes.alloc ⟨fresh, none⟩).modify last
                fun c => { c with next := some queue.nodes.bound }
              head := queue.head
              tail := some queue.nodes.bound }, ?_, hstored', _, hlinked, by simp, by simp⟩
    simp only [Queue.enqueue, htail, ← hfresh, Heap.load_some hc, ok_bind, pure_eq_ok]

/-- **`pop`** takes from the front. -/
theorem pop (h : queue.Holds (entry :: entries)) :
    ∃ queue', queue.pop = .ok (some entry, queue') ∧ queue'.Holds entries := by
  obtain ⟨hstored, cells, hchain, hcells, htail⟩ := h
  obtain ⟨⟨a, d⟩, cells, rfl, rfl, rfl⟩ : ∃ c cells', cells = c :: cells' ∧ c.2 = entry ∧
      cells'.map Prod.snd = entries := by
    cases cells with
    | nil => simp at hcells
    | cons c cells =>
        obtain ⟨hentry, hentries⟩ := List.cons.inj hcells
        exact ⟨c, cells, rfl, hentry, hentries⟩
  obtain ⟨r, q, n, rfl⟩ : QueueEntry.Stored d := hstored _ (by simp)
  obtain ⟨hhead, next, hcell, hrest⟩ := hchain
  have hhead' : queue.head = some a := hhead
  have hchain' : queue.nodes.Chain queue.head ((a, entryOf r q n) :: cells) :=
    ⟨hhead, next, hcell, hrest⟩
  refine ⟨{ nodes := queue.nodes.release a
            head := next
            tail := if next = none then none else queue.tail }, ?_,
    fun entry hmem => hstored entry (List.mem_cons_of_mem _ hmem), cells,
    hchain'.release hcell, rfl, ?_⟩
  · have hnonempty : queue.isEmpty = false := by simp [Queue.isEmpty, hhead']
    simp only [Queue.pop, hnonempty, hhead', Heap.load_some hcell, Heap.free_some hcell, ok_bind,
      pure_eq_ok, entryOf, copyField_strncpy]
    rfl
  · -- the last node taken leaves a null tail
    cases cells with
    | nil =>
        obtain rfl : next = none := hrest
        rfl
    | cons c cells =>
        obtain ⟨b, e⟩ := c
        obtain ⟨rfl, -⟩ := hrest
        rw [if_neg (by simp), htail]
        simp

end Queue.Holds

end Kvs
