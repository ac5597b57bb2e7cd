import Kvs.Server.DeleteBatch
import Kvs.Server.Disconnect

/-!
# The messages of one change

`write_pair` and `delete_pair` tell the subscribers of a key about it, each in a loop of its own:
the one walks the list, the other frees it on the way.  `Table.lean` collects whom they tell; here
the two loops are written out, with the `write_all` in them.

A `write_all` that returns -1 is noted on standard error and the loop goes on, so what the `n`-th
one returns is a parameter, `results n`, of which only that note depends: `writePairSending_eq` and
`deletePairSending_eq`.  A `write_all` that does not return has not failed, and is left out.
-/

namespace Kvs

/-- What is said on standard error after a `write_all`. -/
def writeFailed (result : ℤ) : List Byte := if result = -1 then text "write failed" else []

/-- What is said on standard error after `count` calls of `write_all` from the `n`-th on. -/
def writesFailed (results : ℕ → ℤ) (n count : ℕ) : List Byte :=
  (List.range' n count).flatMap fun k => writeFailed (results k)

namespace HashTable

/-! ## The loops -/

/-- The loop of `write_pair`, from its `n`-th subscriber on: the attempts to send, and what is said
on standard error. -/
def sendLoop (results : ℕ → ℤ) (buffer : List Byte) (subs : Heap Fd) :
    ℕ → ℕ → Ptr → Except Fault (List Notification × List Byte)
  | _, _, none => .ok ([], [])
  | 0, _, some _ => .error .diverged
  | fuel + 1, n, some a => do
      let subsKeyNode ← subs.load (some a)
      let (sent, errors) ← sendLoop results buffer subs fuel (n + 1) subsKeyNode.next
      pure (⟨subsKeyNode.data, buffer⟩ :: sent, writeFailed (results n) ++ errors)

/-- The loop of `delete_pair`, which frees the subscriber it comes from before it goes to the
next. -/
def sendFreeLoop (results : ℕ → ℤ) (buffer : List Byte) :
    ℕ → ℕ → Heap Fd → Ptr → Except Fault (List Notification × List Byte × Heap Fd)
  | _, _, subs, none => .ok ([], [], subs)
  | 0, _, _, some _ => .error .diverged
  | fuel + 1, n, subs, some a => do
      let subsKeyNode ← subs.load (some a)
      let subs ← subs.free (some a)
      let (sent, errors, subs) ← sendFreeLoop results buffer fuel (n + 1) subs subsKeyNode.next
      pure (⟨subsKeyNode.data, buffer⟩ :: sent, writeFailed (results n) ++ errors, subs)

/-- `write_pair`, with its loop written out. -/
def writePairSending (results : ℕ → ℤ) (mem : ℕ → Ptr) (ht : HashTable) (key value : CString) :
    Except Fault (HashTable × List Notification × List Byte) := do
  let index ← tableIndex (hash key)
  match findNode key (ht.table index) with
  | some keyNode => do
      let buffer ← sprintf writeBufferSize (pairText keyNode.key value)
      let (sent, errors) ← sendLoop results buffer ht.subs (ht.subs.bound + 1) 0 keyNode.head
      pure (ht.setChain index (overwriteValue key value (ht.table index)), sent, errors)
  | none =>
      let keyNode : KeyNode := ⟨key, value, mem ht.nodes⟩
      pure ({ ht.setChain index (keyNode :: ht.table index) with nodes := ht.nodes + 1 }, [], [])

/-- `delete_pair`, with its loop written out. -/
def deletePairSending (results : ℕ → ℤ) (ht : HashTable) (key : CString) :
    Except Fault (ℤ × HashTable × List Notification × List Byte) := do
  let index ← tableIndex (hash key)
  match findNode key (ht.table index) with
  | some keyNode => do
      let buffer ← sprintf deleteBufferSize (deletedText keyNode.key)
      let (sent, errors, subs) ←
        sendFreeLoop results buffer (ht.subs.bound + 1) 0 ht.subs keyNode.head
      let chain := unlinkNode key (ht.table index)
      pure (0, { ht.setChain index chain with subs := subs }, sent, errors)
  | none => pure (1, ht, [], [])

/-! ## Whatever the writes return -/

variable {results : ℕ → ℤ} {mem : ℕ → Ptr} {buffer : List Byte} {ht : HashTable}

lemma writesFailed_succ (results : ℕ → ℤ) (n count : ℕ) :
    writesFailed results n (count + 1)
      = writeFailed (results n) ++ writesFailed results (n + 1) count := by
  rw [writesFailed, List.range'_succ, List.flatMap_cons, writesFailed]

/-- The loop of `write_pair` is a walk, by induction over its steps. -/
lemma sendLoop_eq (subs : Heap Fd) (fuel n : ℕ) (p : Ptr) :
    sendLoop results buffer subs fuel n p = (Heap.walkLoop subs fuel p).map fun fds =>
      (fds.map fun fd => ⟨fd, buffer⟩, writesFailed results n fds.length) := by
  induction fuel generalizing n p with
  | zero =>
      cases p with
      | none => rfl
      | some a => rfl
  | succ fuel ih =>
      cases p with
      | none => rfl
      | some a =>
          simp only [sendLoop, Heap.walkLoop, ih]
          cases subs.load (some a) with
          | error e => rfl
          | ok subsKeyNode =>
              simp only [ok_bind]
              cases Heap.walkLoop subs fuel subsKeyNode.next with
              | error e => rfl
              | ok rest =>
                  simp only [Except.map, ok_bind, pure_eq_ok, List.map_cons, List.length_cons,
                    writesFailed_succ]

/-- The loop of `delete_pair` is the freeing of a list. -/
lemma sendFreeLoop_eq (subs : Heap Fd) (fuel n : ℕ) (p : Ptr) :
    sendFreeLoop results buffer fuel n subs p = (Heap.freeListLoop fuel subs p).map fun freed =>
      (freed.1.map fun fd => ⟨fd, buffer⟩, writesFailed results n freed.1.length, freed.2) := by
  induction fuel generalizing n subs p with
  | zero =>
      cases p with
      | none => rfl
      | some a => rfl
  | succ fuel ih =>
      cases p with
      | none => rfl
      | some a =>
          simp only [sendFreeLoop, Heap.freeListLoop, ih]
          cases subs.load (some a) with
          | error e => rfl
          | ok subsKeyNode =>
              simp only [ok_bind]
              cases subs.free (some a) with
              | error e => rfl
              | ok subs =>
                  simp only [ok_bind]
                  cases Heap.freeListLoop fuel subs subsKeyNode.next with
                  | error e => rfl
                  | ok freed =>
                      simp only [Except.map, ok_bind, pure_eq_ok, List.map_cons, List.length_cons,
                        writesFailed_succ]

/-- **`write_pair`** does to the table, and attempts to send, what it does and attempts if every
write succeeds. -/
lemma writePairSending_eq (ht : HashTable) (key value : CString) :
    ht.writePairSending results mem key value = (ht.writePair mem key value).map fun written =>
      (written.1, written.2, writesFailed results 0 written.2.length) := by
  rw [writePairSending, writePair]
  cases tableIndex (hash key) with
  | error e => rfl
  | ok index =>
      simp only [ok_bind]
      cases findNode key (ht.table index) with
      | none => rfl
      | some keyNode =>
          simp only [sendLoop_eq, notify, Heap.walk]
          cases sprintf writeBufferSize (pairText keyNode.key value) with
          | error e => rfl
          | ok buffer =>
              simp only [ok_bind]
              cases Heap.walkLoop ht.subs (ht.subs.bound + 1) keyNode.head with
              | error e => rfl
              | ok fds => simp only [Except.map, ok_bind, pure_eq_ok, List.length_map]

/-- **`delete_pair`** likewise. -/
lemma deletePairSending_eq (ht : HashTable) (key : CString) :
    ht.deletePairSending results key = (ht.deletePair key).map fun deleted =>
      (deleted.1, deleted.2.1, deleted.2.2, writesFailed results 0 deleted.2.2.length) := by
  rw [deletePairSending, deletePair]
  cases tableIndex (hash key) with
  | error e => rfl
  | ok index =>
      simp only [ok_bind]
      cases findNode key (ht.table index) with
      | none => rfl
      | some keyNode =>
          simp only [sendFreeLoop_eq, Heap.freeList]
          cases sprintf deleteBufferSize (deletedText keyNode.key) with
          | error e => rfl
          | ok buffer =>
              simp only [ok_bind]
              cases Heap.freeListLoop (ht.subs.bound + 1) ht.subs keyNode.head with
              | error e => rfl
              | ok freed => simp only [Except.map, ok_bind, pure_eq_ok, List.length_map]

/-! ## Every subscriber, once -/

/-- A value is overwritten in its node, whose list head stays. -/
lemma lookup_overwrite {i : Fin tableSize} (key value other : CString) :
    ((ht.setChain i (overwriteValue key value (ht.table i))).lookup other).map KeyNode.head
      = (ht.lookup other).map KeyNode.head := by
  unfold lookup
  cases tableIndex (hash other) with
  | error e => rfl
  | ok j =>
      by_cases hj : j = i
      · subst hj
        simp only [setChain, Function.update_self, findNode, overwriteValue]
        by_cases hother : other = key
        · rw [hother, KeyedList.find_modify_self KeyNode.key (.withValue value) fun _ => rfl,
            Option.map_map]
          rfl
        · rw [KeyedList.find_modify_of_ne KeyNode.key (.withValue value) (fun _ => rfl) hother]
      · simp only [setChain, Function.update_of_ne hj]

/-- So nobody's subscription changes. -/
lemma subscribers_overwrite {i : Fin tableSize} (key value other : CString) :
    (ht.setChain i (overwriteValue key value (ht.table i))).subscribers other
      = ht.subscribers other := by
  have hhead : ((ht.setChain i (overwriteValue key value (ht.table i))).lookup other).map KeyNode.head
      = (ht.lookup other).map KeyNode.head := lookup_overwrite key value other
  cases hold : ht.lookup other with
  | none =>
      rw [hold, Option.map_none, Option.map_eq_none_iff] at hhead
      rw [subscribers_of_none hold, subscribers_of_none hhead]
  | some old =>
      rw [hold, Option.map_some] at hhead
      obtain ⟨new, hnew, hsame⟩ := Option.map_eq_some_iff.mp hhead
      rw [subscribers_of_some hold, subscribers_of_some hnew, hsame]
      rfl

/-- An overwrite. -/
lemma writePairSending_chain {key value : Str} {keyNode : KeyNode}
    (hnode : ht.lookup key.val = some keyNode) {cells : List (ℕ × Fd)}
    (hchain : ht.subs.Chain keyNode.head cells) :
    ∃ ht', ht.writePairSending results mem key.val value.val = .ok (ht',
        cells.map (fun cell => ⟨cell.2, pairText key.val value.val⟩),
        writesFailed results 0 cells.length) ∧
      ht'.subs = ht.subs ∧ ∀ other, ht'.subscribers other = ht.subscribers other := by
  obtain ⟨i, hi, hfind⟩ := tableIndex_of_lookup hnode
  refine ⟨ht.setChain i (overwriteValue key.val value.val (ht.table i)), ?_, rfl,
    subscribers_overwrite key.val value.val⟩
  rw [writePairSending_eq, writePair_of_find hi hfind (pairText_fits key value), notify,
    Heap.walk_of_chain hchain]
  simp [Except.map, Function.comp_def]

/-- A deletion. -/
lemma deletePairSending_chain (hchained : ht.Chained) {key : Str} {keyNode : KeyNode}
    (hnode : ht.lookup key.val = some keyNode) {cells : List (ℕ × Fd)}
    (hchain : ht.subs.Chain keyNode.head cells) :
    ∃ subs, ht.deletePairSending results key.val = .ok (0,
        { ht.without [key.val] with subs := subs },
        cells.map (fun cell => ⟨cell.2, deletedText key.val⟩),
        writesFailed results 0 cells.length) ∧
      ∀ a, subs.cells a = if a ∈ cells.map Prod.fst then none else ht.subs.cells a := by
  obtain ⟨i, hi, hfind⟩ := tableIndex_of_lookup hnode
  obtain ⟨subs, hfree, hcells⟩ := Heap.freeList_of_chain hchain
  refine ⟨subs, ?_, hcells⟩
  rw [deletePairSending_eq, deletePair_of_find hi hfind (deletedText_fits key), hfree,
    ← hchained.setChain_unlink hi]
  simp [Except.map, Function.comp_def]

/-- A key that is not there has nobody to tell. -/
lemma sending_absent {key value : Str} (hkey : key.val.StartsAlnum)
    (hnode : ht.lookup key.val = none) :
    (∃ ht', ht.writePairSending results mem key.val value.val = .ok (ht', [], [])) ∧
      ht.deletePairSending results key.val = .ok (1, ht, [], []) := by
  obtain ⟨i, hi⟩ := tableIndex_of_startsAlnum hkey
  rw [lookup_eq hi] at hnode
  rw [writePairSending_eq, writePair_of_not_find hi hnode, deletePairSending_eq,
    deletePair_of_not_find hi hnode]
  exact ⟨⟨_, rfl⟩, rfl⟩

/-- **The fan-out of one change.**  On every table with subscribers, and whatever each `write_all`
returns: `write_pair` on a key that is there attempts the one message `(key,value)` to each of its
subscribers, in list order, and changes nobody's subscription; `delete_pair` attempts `(key,DELETED)`
likewise, and it frees the cells of that list and of no other, and takes that one node out; neither
attempts anything for a key that is not there.  The messages fit their buffers, terminator
included. -/
theorem notification_fanOut (hht : ht.WellSubscribed) (results : ℕ → ℤ) (mem : ℕ → Ptr)
    (key value : Str) (hkey : key.val.StartsAlnum) :
    (∀ keyNode, ht.lookup key.val = some keyNode → ∃ cells, ht.subs.Chain keyNode.head cells ∧
      (∃ ht', ht.writePairSending results mem key.val value.val = .ok (ht',
          cells.map (fun cell => ⟨cell.2,
            char '(' :: key.val.bytes ++ char ',' :: value.val.bytes ++ [char ')']⟩),
          writesFailed results 0 cells.length) ∧
        ht'.subs = ht.subs ∧ ∀ other, ht'.subscribers other = ht.subscribers other) ∧
      ∃ subs, ht.deletePairSending results key.val = .ok (0,
          { ht.without [key.val] with subs := subs },
          cells.map (fun cell => ⟨cell.2, char '(' :: key.val.bytes ++ text ",DELETED)"⟩),
          writesFailed results 0 cells.length) ∧
        ∀ a, subs.cells a = if a ∈ cells.map Prod.fst then none else ht.subs.cells a) ∧
    (ht.lookup key.val = none →
      (∃ ht', ht.writePairSending results mem key.val value.val = .ok (ht', [], [])) ∧
        ht.deletePairSending results key.val = .ok (1, ht, [], [])) ∧
    (char '(' :: key.val.bytes ++ char ',' :: value.val.bytes ++ [char ')']).length + 1 ≤ 90 ∧
    (char '(' :: key.val.bytes ++ text ",DELETED)").length + 1 ≤ 52 := by
  have hpair : char '(' :: key.val.bytes ++ char ',' :: value.val.bytes ++ [char ')']
      = pairText key.val value.val := by
    simp only [pairText, List.append_assoc]
    rfl
  have hdeleted : char '(' :: key.val.bytes ++ text ",DELETED)" = deletedText key.val := rfl
  rw [hpair, hdeleted]
  refine ⟨?_, ?_, pairText_fits key value, deletedText_fits key⟩
  · intro keyNode hnode
    obtain ⟨cells, hchain⟩ := hht.chain hnode
    obtain ⟨nodes, hlists, -⟩ := hht
    exact ⟨cells, hchain, writePairSending_chain hnode hchain,
      deletePairSending_chain hlists.chained hnode hchain⟩
  · intro hnode
    exact sending_absent hkey hnode

/-- A key with two subscribers, and one with none. -/
def heardTable : HashTable where
  table := fun i =>
    if i.val = 0 then [⟨.lit "a", .lit "x", some 1⟩, ⟨.lit "0", .lit "y", none⟩] else []
  subs := (Heap.empty.alloc ⟨4, none⟩).alloc ⟨3, some 0⟩
  nodes := 2

lemma heardTable_wellSubscribed : heardTable.WellSubscribed := by
  refine ⟨[⟨.lit "a", .lit "x", some 1⟩, ⟨.lit "0", .lit "y", none⟩],
    ⟨by decide, by decide, by decide⟩, ?_⟩
  intro keyNode hnode
  simp only [List.mem_cons, List.not_mem_nil, or_false] at hnode
  rcases hnode with rfl | rfl
  · exact ⟨[(1, 3), (0, 4)], rfl, _, rfl, rfl, _, rfl, rfl⟩
  · exact ⟨[], rfl⟩

/-- The first subscriber cannot be written to; the second is told, of the write and of the
deletion. -/
theorem notification_fanOut_failed :
    (heardTable.writePairSending (fun n => if n = 0 then -1 else 1) (fun _ => none) (.lit "a")
        (.lit "v")).map (fun result => result.2)
      = .ok ([⟨3, text "(a,v)"⟩, ⟨4, text "(a,v)"⟩], text "write failed") ∧
    (heardTable.deletePairSending (fun n => if n = 0 then -1 else 1) (.lit "a")).map
        (fun result => result.2.2)
      = .ok ([⟨3, text "(a,DELETED)"⟩, ⟨4, text "(a,DELETED)"⟩], text "write failed") := by
  obtain ⟨hpresent, -⟩ := notification_fanOut heardTable_wellSubscribed
    (fun n => if n = 0 then -1 else 1) (fun _ => none) (Str.lit "a") (Str.lit "v") (by decide)
  obtain ⟨cells, hchain, ⟨ht', hwrite, -⟩, subs, hdelete, -⟩ :=
    hpresent ⟨.lit "a", .lit "x", some 1⟩ rfl
  have htwo : heardTable.subs.Chain (some 1) [(1, 3), (0, 4)] := ⟨rfl, _, rfl, rfl, _, rfl, rfl⟩
  obtain rfl := hchain.unique htwo
  rw [show CString.lit "a" = (Str.lit "a").val from rfl,
    show CString.lit "v" = (Str.lit "v").val from rfl, hwrite, hdelete]
  exact ⟨rfl, rfl⟩

end HashTable

end Kvs
