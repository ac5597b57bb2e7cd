import Kvs.Server.Disconnect

/-!
# What a subscription adds

`write_subscription` should put one entry behind the subscriber list of a key and leave everything
else (`Appends`).  It gives `append_list_node` the head of the list by value, and that walks to the
last cell: there is none in an empty list, with which every key begins, and there it reads through
the null pointer (`writeSubscription_unheard`).

On a list that is not empty the new cell goes behind the last one, and is seen from every list that
ends there (`writeSubscription_heard`).  So the call does what it should if and only if the key has a
last subscriber of its own (`subscription_appends_iff`).
-/

namespace Kvs

namespace HashTable

/-- The call puts the descriptor behind the list of the key, and leaves the list of every other key,
and the chains with their keys and values. -/
def Appends (ht : HashTable) (key : CString) (fdNotification : Fd) : Prop :=
  ∃ ht' before, ht.writeSubscription key fdNotification = .ok (1, ht') ∧
    ht.subscribers key = .ok before ∧ ht'.subscribers key = .ok (before ++ [fdNotification]) ∧
    (∀ other, other ≠ key → ht'.subscribers other = ht.subscribers other) ∧ ht'.table = ht.table

/-- The list of the key is not empty, and its last cell is in the list of no other key. -/
def HasOwnLast (ht : HashTable) (key : CString) : Prop :=
  ∃ keyNode front last d, ht.lookup key = some keyNode ∧
    ht.subs.Chain keyNode.head (front ++ [(last, d)]) ∧
    ∀ other otherNode cells, other ≠ key → ht.lookup other = some otherNode →
      ht.subs.Chain otherNode.head cells → last ∉ cells.map Prod.fst

variable {ht : HashTable} {key : CString} {keyNode : KeyNode}

/-- A first subscription goes through the null pointer. -/
lemma writeSubscription_unheard (hnode : ht.lookup key = some keyNode) (hhead : keyNode.head = none)
    (fdNotification : Fd) : ht.writeSubscription key fdNotification = .error .nullDeref := by
  obtain ⟨index, hindex, hfind⟩ := tableIndex_of_lookup hnode
  rw [writeSubscription_of_find hindex hfind, appendListNode, hhead, Heap.append_none]
  rfl

/-- A further one: the descriptor is behind every list that ended with the last cell. -/
lemma writeSubscription_heard (hnode : ht.lookup key = some keyNode) {front : List (ℕ × Fd)}
    {last : ℕ} {d : Fd} (hchain : ht.subs.Chain keyNode.head (front ++ [(last, d)]))
    (fdNotification : Fd) :
    ∃ ht', ht.writeSubscription key fdNotification = .ok (1, ht') ∧ ht'.table = ht.table ∧
      ∀ other otherNode cells, ht.lookup other = some otherNode →
        ht.subs.Chain otherNode.head cells → ht'.subscribers other
          = .ok (cells.map Prod.snd ++ if last ∈ cells.map Prod.fst then [fdNotification] else []) := by
  obtain ⟨index, hindex, hfind⟩ := tableIndex_of_lookup hnode
  obtain ⟨subs, happend, hsubs⟩ := Heap.append_of_chain hchain fdNotification
  refine ⟨{ ht with subs := subs }, ?_, rfl, ?_⟩
  · rw [writeSubscription_of_find hindex hfind, appendListNode, happend]
    rfl
  · intro other otherNode cells hother hcells
    have hsame : ({ ht with subs := subs } : HashTable).lookup other = some otherNode := hother
    rw [subscribers_of_some hsame, Heap.walk_of_chain (hsubs _ _ hcells)]
    split_ifs
    · rw [List.map_append]
      rfl
    · rw [List.append_nil]

/-- **Exactly when a subscription appends.**  On every table with subscribers, for every key that is
there and every descriptor: if and only if the key's list is not empty and its last cell is in no
other list. -/
theorem subscription_appends_iff (hht : ht.WellSubscribed) (hkey : ht.lookup key ≠ none)
    (fdNotification : Fd) : ht.Appends key fdNotification ↔ ht.HasOwnLast key := by
  constructor
  · rintro ⟨ht', before, hwrite, hbefore, -, hothers, -⟩
    obtain ⟨keyNode, hnode⟩ := Option.ne_none_iff_exists'.mp hkey
    obtain ⟨cells, hchain⟩ := hht.chain hnode
    rcases List.eq_nil_or_concat cells with rfl | ⟨front, ⟨last, d⟩, rfl⟩
    · rw [writeSubscription_unheard hnode hchain] at hwrite
      cases hwrite
    · rw [List.concat_eq_append] at hchain
      refine ⟨keyNode, front, last, d, hnode, hchain, ?_⟩
      intro other otherNode cells hother hfound hcells hmem
      obtain ⟨ht₁, hrun, -, hafter⟩ := writeSubscription_heard hnode hchain fdNotification
      obtain ⟨-, rfl⟩ := Prod.mk.inj (Except.ok.inj (hwrite.symm.trans hrun))
      have hlist := hothers other hother
      rw [hafter other otherNode cells hfound hcells, if_pos hmem, subscribers_of_some hfound,
        Heap.walk_of_chain hcells] at hlist
      simpa using Except.ok.inj hlist
  · rintro ⟨keyNode, front, last, d, hnode, hchain, hown⟩
    obtain ⟨ht', hrun, htable, hafter⟩ := writeSubscription_heard hnode hchain fdNotification
    refine ⟨ht', _, hrun, (subscribers_of_some hnode).trans (Heap.walk_of_chain hchain), ?_, ?_,
      htable⟩
    · rw [hafter key keyNode _ hnode hchain, if_pos (by simp)]
    · intro other hother
      cases hfound : ht.lookup other with
      | none =>
          have hnone := (lookup_of_table htable other).trans hfound
          rw [subscribers_of_none hfound, subscribers_of_none hnone]
      | some otherNode =>
          obtain ⟨cells, hcells⟩ := hht.chain hfound
          rw [hafter other otherNode cells hfound hcells,
            if_neg (hown other otherNode cells hother hfound hcells), List.append_nil,
            subscribers_of_some hfound, Heap.walk_of_chain hcells]

/-- A second subscriber of a key that has one. -/
theorem subscription_appends_second : sharedTable.Appends (.lit "0") 9 := by
  have hht : sharedTable.WellSubscribed := ⟨_, sharedTable_subscriberLists⟩
  refine (subscription_appends_iff hht (by decide) 9).mpr ?_
  refine ⟨⟨.lit "0", .lit "y", some 0⟩, [], 0, 7, rfl, ⟨rfl, none, rfl, rfl⟩, ?_⟩
  intro other otherNode cells hother hfound hcells
  obtain ⟨hmem, rfl⟩ := sharedTable_subscriberLists.lists.mem_of_lookup hfound
  rcases mem_sharedNodes.mp hmem with rfl | rfl
  · have hnobody : sharedTable.subs.Chain none [] := rfl
    obtain rfl := hcells.unique hnobody
    simp
  · exact absurd rfl hother

/-- The first subscriber of a key that has none. -/
theorem subscription_appends_not_first :
    (sharedTable.subscribers (.lit "a") = .ok [] ∧
      sharedTable.writeSubscription (.lit "a") 9 = .error .nullDeref) ∧
    ¬ ∀ (ht : HashTable) (key : CString) (fdNotification : Fd), ht.WellSubscribed →
      ht.lookup key ≠ none → ht.Appends key fdNotification := by
  have hfault : sharedTable.writeSubscription (.lit "a") 9 = .error .nullDeref := rfl
  refine ⟨⟨rfl, hfault⟩, ?_⟩
  intro h
  obtain ⟨ht', before, hwrite, -⟩ :=
    h sharedTable (.lit "a") 9 ⟨_, sharedTable_subscriberLists⟩ (by decide)
  rw [hfault] at hwrite
  cases hwrite

end HashTable

end Kvs
