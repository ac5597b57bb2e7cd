import Kvs.Core.LinkedHeap
import Kvs.Common.Constants

/-!
# Subscriber lists and key lists

`subscriber_linked_list.c` keeps, for each key of the table, the notification descriptors of its
subscribers; `keys_linked_list.c` keeps, for each worker, the keys its session has subscribed to.
Both are instances of the loops of `Core/LinkedHeap.lean`, and both take the list head by value.

The two removals differ in their loop condition.  `deleteListNodeKey` compares; `deleteListNode`
*assigns* — the source writes `current->fd_notification = fd_notification` — so it overwrites the
descriptor of every cell it passes, and stops only where the value assigned is zero.
-/

namespace Kvs

/-- A file descriptor. -/
abbrev Fd := ℤ

/-! ## `subscriber_linked_list.c` -/

def appendListNode (h : Heap Fd) (node : Ptr) (fdNotification : Fd) : Except Fault (Heap Fd) :=
  h.append node fdNotification

/-- One test of `current->fd_notification = fd_notification`. -/
def assignFd (fdNotification : Fd) (_ : Fd) : Fd × Bool := (fdNotification, fdNotification ≠ 0)

def deleteListNode (h : Heap Fd) (node : Ptr) (fdNotification : Fd) : Except Fault (Heap Fd) :=
  h.unlink (assignFd fdNotification) node

/-- The lists that `delete_list_node` comes through.  Descriptor 0 stops it at the first cell, which
has to be there; any other takes it to the end. -/
def Passable (h : Heap Fd) (node : Ptr) (fdNotification : Fd) : Prop :=
  if fdNotification = 0 then ∀ a, node = some a → h.link a ≠ none else h.Ends node

/-- The cell that is freed. -/
def freedCells (node : Ptr) (fdNotification : Fd) : List ℕ :=
  if fdNotification = 0 then node.toList else []

/-- It goes through those and no others. -/
lemma deleteListNode_iff {h : Heap Fd} {node : Ptr} {fdNotification : Fd} :
    (∃ h', deleteListNode h node fdNotification = .ok h') ↔ Passable h node fdNotification := by
  by_cases hfd : fdNotification = 0
  · rw [Passable, if_pos hfd]
    cases node with
    | none =>
        constructor
        · intro _ a ha
          cases ha
        · intro _
          exact ⟨h, rfl⟩
    | some a =>
        cases hcell : h.cells a with
        | none =>
            constructor
            · rintro ⟨h', hrun⟩
              rw [deleteListNode, Heap.unlink_stale _ hcell] at hrun
              cases hrun
            · intro hlive
              exact absurd (Heap.link_eq_none.mpr hcell) (hlive a rfl)
        | some cell =>
            constructor
            · rintro - b hb
              obtain rfl := Option.some.inj hb
              simp [Heap.link, hcell]
            · intro _
              have hstop : (assignFd fdNotification cell.data).2 = false := by simp [assignFd, hfd]
              obtain ⟨h', hrun, -⟩ := Heap.unlink_first hcell hstop
              exact ⟨h', hrun⟩
  · rw [Passable, if_neg hfd]
    exact Heap.unlink_never_iff fun _ => by simpa [assignFd] using hfd

/-- It changes no pointer, and frees the one cell. -/
lemma deleteListNode_link {h h' : Heap Fd} {node : Ptr} {fdNotification : Fd}
    (hrun : deleteListNode h node fdNotification = .ok h') (a : ℕ) :
    h'.link a = if a ∈ freedCells node fdNotification then none else h.link a := by
  by_cases hfd : fdNotification = 0
  · rw [freedCells, if_pos hfd]
    cases node with
    | none =>
        obtain rfl := Except.ok.inj hrun
        simp
    | some b =>
        cases hcell : h.cells b with
        | none =>
            rw [deleteListNode, Heap.unlink_stale _ hcell] at hrun
            cases hrun
        | some cell =>
            have hstop : (assignFd fdNotification cell.data).2 = false := by simp [assignFd, hfd]
            obtain ⟨h₁, hrun₁, hfreed, hother⟩ := Heap.unlink_first hcell hstop
            obtain rfl : h' = h₁ := Except.ok.inj (hrun.symm.trans hrun₁)
            by_cases hab : a = b
            · subst hab
              simp [Heap.link_eq_none, hfreed]
            · have hnot : a ∉ (some b).toList := by simpa using hab
              rw [if_neg hnot, Heap.link, Heap.link, hother a hab]
  · rw [freedCells, if_neg hfd, if_neg List.not_mem_nil]
    exact Heap.unlink_never_link (fun _ => by simpa [assignFd] using hfd) hrun a

/-! ## `keys_linked_list.c` -/

/-- Size of the key buffer of a list cell. -/
def keyNodeSize : ℕ := 41

/-- One test of `strcmp(current->key, key)`. -/
def compareKey (key : CString) (k : Row keyNodeSize) : Row keyNodeSize × Bool := (k, k.val ≠ key)

def appendListNodeKey (h : Heap (Row keyNodeSize)) (node : Ptr) (key : CString) :
    Except Fault (Heap (Row keyNodeSize)) := do
  let k ← strcpy keyNodeSize key
  h.append node k

def deleteListNodeKey (h : Heap (Row keyNodeSize)) (node : Ptr) (key : CString) :
    Except Fault (Heap (Row keyNodeSize)) :=
  h.unlink (compareKey key) node

end Kvs
