import Kvs.Server.Queue

/-!
# The queue over a run

`SessionQueue.lean` has the queue between the host and its managers, who only pop what has been
promised to them.  Here it is on its own, with calls in any order, a `pop` of the empty queue
included.

What has gone into the queue is what has come out of it, in that order, and behind it what is still
there (`Queue.Holds.run`).  The rest follows: the `i`-th entry popped is the `i`-th enqueued, a `pop`
returns null when everything is out, and the two pointers agree on when that is (`queue_fifo`).
-/

namespace Kvs

/-- A call of the queue. -/
inductive QueueCall where
  | Enqueue (responseFifo requestFifo notificationFifo : CString)
  | Pop

/-- A run of the queue: what each `pop` has returned, and the queue afterwards. -/
def runQueue : Queue → List QueueCall → Except Fault (List (Option QueueEntry) × Queue)
  | queue, [] => pure ([], queue)
  | queue, .Enqueue responseFifo requestFifo notificationFifo :: calls => do
      let queue ← queue.enqueue responseFifo requestFifo notificationFifo
      runQueue queue calls
  | queue, .Pop :: calls => do
      let (result, queue) ← queue.pop
      let (results, queue) ← runQueue queue calls
      pure (result :: results, queue)

/-- The entries that the path names of a call are stored in. -/
def QueueCall.entry : QueueCall → Option QueueEntry
  | Enqueue responseFifo requestFifo notificationFifo =>
      some (entryOf responseFifo requestFifo notificationFifo)
  | Pop => none

/-- What a run enqueues. -/
def enqueuedEntries (calls : List QueueCall) : List QueueEntry := calls.filterMap QueueCall.entry

/-- What the successful ones among some calls of `pop` have returned. -/
def poppedEntries (results : List (Option QueueEntry)) : List QueueEntry := results.reduceOption

@[simp] lemma enqueuedEntries_nil : enqueuedEntries [] = [] := rfl

@[simp] lemma enqueuedEntries_enqueue (responseFifo requestFifo notificationFifo : CString)
    (calls : List QueueCall) :
    enqueuedEntries (.Enqueue responseFifo requestFifo notificationFifo :: calls)
      = entryOf responseFifo requestFifo notificationFifo :: enqueuedEntries calls := rfl

@[simp] lemma enqueuedEntries_pop (calls : List QueueCall) :
    enqueuedEntries (.Pop :: calls) = enqueuedEntries calls := rfl

@[simp] lemma poppedEntries_nil : poppedEntries [] = [] := rfl

@[simp] lemma poppedEntries_some (entry : QueueEntry) (results : List (Option QueueEntry)) :
    poppedEntries (some entry :: results) = entry :: poppedEntries results := rfl

@[simp] lemma poppedEntries_none (results : List (Option QueueEntry)) :
    poppedEntries (none :: results) = poppedEntries results := rfl

namespace Queue.Holds

variable {queue : Queue} {entries : List QueueEntry}

/-- The head is null when nothing is queued, and only then. -/
lemma head_eq_none_iff (h : queue.Holds entries) : queue.head = none ↔ entries = [] := by
  obtain ⟨-, cells, hchain, rfl, -⟩ := h
  cases cells with
  | nil => exact iff_of_true hchain rfl
  | cons cell cells =>
      obtain ⟨hhead, -⟩ := hchain
      simp [hhead]

/-- So is the tail. -/
lemma tail_eq_none_iff (h : queue.Holds entries) : queue.tail = none ↔ entries = [] := by
  obtain ⟨-, cells, -, rfl, htail⟩ := h
  rw [htail]
  simp

/-- A `pop` of the empty queue returns null. -/
lemma pop_nil (h : queue.Holds []) : queue.pop = .ok (none, queue) := by
  have hempty : queue.isEmpty = true := by
    simpa [Queue.isEmpty] using h.head_eq_none_iff.mpr rfl
  simp only [Queue.pop, hempty, if_true, pure_eq_ok]

/-- **A run**, by induction over its calls: what was queued and what is enqueued comes out in that
order, and what does not come out is queued. -/
lemma run (h : queue.Holds entries) (calls : List QueueCall) :
    ∃ results queue' rest, runQueue queue calls = .ok (results, queue') ∧ queue'.Holds rest ∧
      entries ++ enqueuedEntries calls = poppedEntries results ++ rest := by
  induction calls generalizing queue entries with
  | nil => exact ⟨[], queue, entries, rfl, h, by simp⟩
  | cons call calls ih =>
    cases call with
    | Enqueue responseFifo requestFifo notificationFifo =>
        obtain ⟨queue₁, henqueue, hholds⟩ := h.enqueue responseFifo requestFifo notificationFifo
        obtain ⟨results, queue', rest, hrun, hrest, hentries⟩ := ih hholds
        refine ⟨results, queue', rest, ?_, hrest, ?_⟩
        · simp only [runQueue, henqueue, ok_bind, hrun]
        · rw [enqueuedEntries_enqueue, ← hentries, List.append_assoc, List.singleton_append]
    | Pop =>
        cases entries with
        | nil =>
            obtain ⟨results, queue', rest, hrun, hrest, hentries⟩ := ih h
            refine ⟨none :: results, queue', rest, ?_, hrest, ?_⟩
            · simp only [runQueue, h.pop_nil, ok_bind, hrun, pure_eq_ok]
            · rw [enqueuedEntries_pop, poppedEntries_none, hentries]
        | cons entry entries =>
            obtain ⟨queue₁, hpop, hholds⟩ := h.pop
            obtain ⟨results, queue', rest, hrun, hrest, hentries⟩ := ih hholds
            refine ⟨some entry :: results, queue', rest, ?_, hrest, ?_⟩
            · simp only [runQueue, hpop, ok_bind, hrun, pure_eq_ok]
            · rw [enqueuedEntries_pop, poppedEntries_some, List.cons_append, hentries,
                List.cons_append]

end Queue.Holds

/-- **First in, first out.**  After any sequence of calls on a new queue, none of which faults: the
`i`-th entry popped is the one that the names of the `i`-th `enqueue` were stored in, the next `pop`
returns null exactly if as many have been popped as enqueued, and `tail` is the last node of the list
that begins at `head`, null when `head` is. -/
theorem queue_fifo (calls : List QueueCall) :
    ∃ results queue, runQueue Queue.createQueue calls = .ok (results, queue) ∧
      (∀ (i : ℕ) (entry : QueueEntry), (poppedEntries results)[i]? = some entry →
        (enqueuedEntries calls)[i]? = some entry) ∧
      (∃ next queue', queue.pop = .ok (next, queue') ∧
        (next = none ↔ (poppedEntries results).length = (enqueuedEntries calls).length)) ∧
      (queue.head = none ↔ queue.tail = none) ∧
      ∃ cells, queue.nodes.Chain queue.head cells ∧ queue.tail = cells.getLast?.map Prod.fst := by
  obtain ⟨results, queue, rest, hrun, hholds, hentries⟩ := Queue.Holds.createQueue.run calls
  rw [List.nil_append] at hentries
  refine ⟨results, queue, hrun, ?_, ?_, hholds.head_eq_none_iff.trans hholds.tail_eq_none_iff.symm,
    ?_⟩
  · intro i entry hentry
    obtain ⟨hlt, -⟩ := List.getElem?_eq_some_iff.mp hentry
    rw [hentries, List.getElem?_append_left hlt]
    exact hentry
  · have hlength := congrArg List.length hentries
    rw [List.length_append] at hlength
    cases rest with
    | nil =>
        refine ⟨none, queue, hholds.pop_nil, ?_⟩
        simpa using hlength.symm
    | cons entry rest =>
        obtain ⟨queue', hpop, -⟩ := hholds.pop
        refine ⟨some entry, queue', hpop, ?_⟩
        rw [List.length_cons] at hlength
        constructor
        · intro hnone
          cases hnone
        · intro hsame
          omega
  · obtain ⟨-, cells, hchain, -, htail⟩ := hholds
    exact ⟨cells, hchain, htail⟩

end Kvs
