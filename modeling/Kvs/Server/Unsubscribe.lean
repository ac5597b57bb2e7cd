import Kvs.Server.FanOut

/-!
# What an unsubscription takes out

`delete_subscription` should take one entry out of one subscriber list, the first one with the
descriptor, and leave everything else (`RemovesOne`).  `delete_list_node` cannot do that:

* it assigns where it should compare, so for a descriptor other than 0 it comes to the end of the
  list and takes nothing out, and every entry is the descriptor's afterwards
  (`deleteListNode_never`);
* for the descriptor 0 it stops at the first entry, whichever that is, frees it, and leaves the head
  of the list pointing there (`deleteListNode_first`).

So the call does what it should if and only if there is nobody to take out, and the key has a chain
to look for it in (`deleteSubscription_removes_iff`).
-/

namespace Kvs

/-! ## The list -/

/-- A descriptor other than 0 takes over every entry. -/
lemma deleteListNode_never {h : Heap Fd} {node : Ptr} {cells : List (ℕ × Fd)} {fdNotification : Fd}
    (hfd : fdNotification ≠ 0) (hchain : h.Chain node cells) :
    ∃ h', deleteListNode h node fdNotification = .ok h' ∧
      h'.Chain node (cells.map fun cell => (cell.1, fdNotification)) ∧
      ∀ a, a ∉ cells.map Prod.fst → h'.cells a = h.cells a := by
  have hvisit : ∀ d, (assignFd fdNotification d).2 = true := by
    intro d
    simpa [assignFd] using hfd
  exact Heap.unlink_never hvisit hchain

/-- The descriptor 0 frees the first entry, to which the head still points. -/
lemma deleteListNode_first {h : Heap Fd} {a : ℕ} {cell : Cell Fd} (hcell : h.cells a = some cell) :
    ∃ h', deleteListNode h (some a) 0 = .ok h' ∧ h'.cells a = none := by
  have hstop : (assignFd 0 cell.data).2 = false := rfl
  obtain ⟨h', hrun, hgone, -⟩ := Heap.unlink_first hcell hstop
  exact ⟨h', hrun, hgone⟩

/-- A list all of one descriptor is not what is left of a list that had an entry more. -/
lemma replicate_ne_erase {fds : List Fd} (hfds : fds ≠ []) (fd : Fd) :
    List.replicate fds.length fd ≠ fds.erase fd := by
  intro h
  by_cases hmem : fd ∈ fds
  · have hlength := congrArg List.length h
    have hpos := List.length_pos_iff.mpr hfds
    rw [List.length_replicate, List.length_erase_of_mem hmem] at hlength
    omega
  · rw [List.erase_of_not_mem hmem] at h
    have hfirst : fd ∈ List.replicate fds.length fd :=
      List.mem_replicate.mpr ⟨(List.length_pos_iff.mpr hfds).ne', rfl⟩
    rw [h] at hfirst
    exact hmem hfirst

/-! ## The table -/

namespace HashTable

/-- The call takes the first entry with the descriptor out of the list of the key, if there is one,
and leaves every other entry and the list of every other key. -/
def RemovesOne (ht : HashTable) (key : CString) (fdNotification : Fd) : Prop :=
  ∃ status ht' before, ht.deleteSubscription key fdNotification = .ok (status, ht') ∧
    ht.subscribers key = .ok before ∧ ht'.subscribers key = .ok (before.erase fdNotification) ∧
    ∀ other, other ≠ key → ht'.subscribers other = ht.subscribers other

variable {ht : HashTable} {key : CString} {fdNotification : Fd}

/-- Where nobody is subscribed, nothing happens. -/
lemma removesOne_of_unheard (hkey : key.StartsAlnum) (hunheard : ht.Unheard key) :
    ht.RemovesOne key fdNotification := by
  obtain ⟨index, hindex⟩ := tableIndex_of_startsAlnum hkey
  cases hnode : ht.lookup key with
  | none =>
      refine ⟨0, ht, [], ?_, subscribers_of_none hnode, subscribers_of_none hnode, fun _ _ => rfl⟩
      rw [lookup_eq hindex] at hnode
      exact deleteSubscription_of_not_find hindex hnode fdNotification
  | some keyNode =>
      have hhead := hunheard keyNode hnode
      have hnobody : ht.subscribers key = .ok [] := by
        rw [subscribers_of_some hnode, hhead, Heap.walk_none]
      refine ⟨1, ht, [], ?_, hnobody, hnobody, fun _ _ => rfl⟩
      rw [lookup_eq hindex] at hnode
      rw [deleteSubscription_of_find hindex hnode, deleteListNode, hhead, Heap.unlink_none]
      rfl

/-- What the call does for a key with subscribers: the list cannot be read afterwards, or all of it is
the descriptor's. -/
lemma deleteSubscription_heard {keyNode : KeyNode} (hnode : ht.lookup key = some keyNode)
    {cells : List (ℕ × Fd)} (hchain : ht.subs.Chain keyNode.head cells)
    (hhead : keyNode.head ≠ none) :
    ∃ ht', ht.deleteSubscription key fdNotification = .ok (1, ht') ∧
      (ht'.subscribers key = .error .wildPointer ∨
        ht'.subscribers key = .ok (List.replicate cells.length fdNotification)) := by
  obtain ⟨index, hindex, hfind⟩ := tableIndex_of_lookup hnode
  by_cases hfd : fdNotification = 0
  · subst hfd
    cases cells with
    | nil => exact absurd hchain hhead
    | cons cell cells =>
        obtain ⟨a, d⟩ := cell
        obtain ⟨ha, q, hcell, -⟩ := hchain
        obtain ⟨subs, hdelete, hgone⟩ := deleteListNode_first hcell
        refine ⟨{ ht with subs := subs }, ?_, Or.inl ?_⟩
        · rw [deleteSubscription_of_find hindex hfind, ha, hdelete]
          rfl
        · have hsame : ({ ht with subs := subs } : HashTable).lookup key = some keyNode := hnode
          rw [subscribers_of_some hsame, ha]
          exact Heap.walk_stale hgone
  · obtain ⟨subs, hdelete, hall, -⟩ := deleteListNode_never hfd hchain
    refine ⟨{ ht with subs := subs }, ?_, Or.inr ?_⟩
    · rw [deleteSubscription_of_find hindex hfind, hdelete]
      rfl
    · have hsame : ({ ht with subs := subs } : HashTable).lookup key = some keyNode := hnode
      rw [subscribers_of_some hsame, Heap.walk_of_chain hall]
      simp [Function.comp_def, List.map_const']

/-- **Exactly when an unsubscription takes one entry out.**  On every table with subscribers, for
every key and every descriptor: if and only if the key has a chain and nobody is subscribed to it. -/
theorem deleteSubscription_removes_iff (hht : ht.WellSubscribed) :
    ht.RemovesOne key fdNotification ↔ key.StartsAlnum ∧ ht.Unheard key := by
  constructor
  · rintro ⟨status, ht', before, hdelete, hbefore, hafter, -⟩
    have hkey : key.StartsAlnum := by
      by_contra hkey
      rw [deleteSubscription, tableIndex_of_not_startsAlnum hkey] at hdelete
      cases hdelete
    refine ⟨hkey, ?_⟩
    intro keyNode hnode
    by_contra hhead
    obtain ⟨cells, hchain⟩ := hht.chain hnode
    rw [subscribers_of_some hnode, Heap.walk_of_chain hchain] at hbefore
    obtain rfl := Except.ok.inj hbefore
    have hcells : cells.map Prod.snd ≠ [] := by
      intro hnil
      rw [List.map_eq_nil_iff.mp hnil] at hchain
      exact hhead hchain
    obtain ⟨ht₁, hrun, hresult⟩ := deleteSubscription_heard hnode hchain hhead
    obtain ⟨-, rfl⟩ := Prod.mk.inj (Except.ok.inj (hdelete.symm.trans hrun))
    rcases hresult with hlost | htaken
    · rw [hafter] at hlost
      cases hlost
    · rw [hafter] at htaken
      refine replicate_ne_erase hcells fdNotification ?_
      rw [List.length_map]
      exact (Except.ok.inj htaken).symm
  · rintro ⟨hkey, hunheard⟩
    exact removesOne_of_unheard hkey hunheard

/-- The key without subscribers. -/
theorem deleteSubscription_removes_nobody : heardTable.RemovesOne (.lit "0") 4 := by
  have hht : heardTable.WellSubscribed := heardTable_wellSubscribed
  refine (deleteSubscription_removes_iff hht).mpr ⟨by decide, ?_⟩
  intro keyNode hnode
  obtain rfl := Option.some.inj (show some ⟨.lit "0", .lit "y", none⟩ = some keyNode from hnode)
  rfl

/-- The second of two subscribers unsubscribes: it is still there, and has replaced the first. -/
theorem deleteSubscription_takes_over :
    (heardTable.subscribers (.lit "a") = .ok [3, 4] ∧
      ∃ ht', heardTable.deleteSubscription (.lit "a") 4 = .ok (1, ht') ∧
        ht'.subscribers (.lit "a") = .ok [4, 4]) ∧
    ¬ ∀ (ht : HashTable) (key : CString) (fdNotification : Fd), ht.WellSubscribed →
      key.StartsAlnum → 0 ≤ fdNotification → ht.RemovesOne key fdNotification := by
  have hafter : ∃ ht', heardTable.deleteSubscription (.lit "a") 4 = .ok (1, ht') ∧
      ht'.subscribers (.lit "a") = .ok [4, 4] := ⟨_, rfl, rfl⟩
  refine ⟨⟨rfl, hafter⟩, ?_⟩
  intro h
  obtain ⟨status, ht', before, hdelete, hbefore, htaken, -⟩ :=
    h heardTable (.lit "a") 4 heardTable_wellSubscribed (by decide) (by decide)
  obtain ⟨ht₁, hrun, hboth⟩ := hafter
  obtain ⟨-, rfl⟩ := Prod.mk.inj (Except.ok.inj (hdelete.symm.trans hrun))
  obtain rfl := Except.ok.inj (hbefore.symm.trans (show heardTable.subscribers (.lit "a") = .ok [3, 4]
    from rfl))
  rw [htaken] at hboth
  exact absurd hboth (by decide)

end HashTable

end Kvs
