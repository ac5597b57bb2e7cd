import Kvs.Server.Batches
import Kvs.Server.WholeRecords

/-!
# The order in which `SHOW` meets the keys

`kvs_show` walks the chains as they are, so the order of its lines is a matter of what the batches
before it have done to the links: a new node goes in front, an overwritten one stays where it is, an
unlinked one is gone.  What a reader may rely on can be said without any chain.  `livesAfter` runs
over the writes and deletions of all batches and keeps, for each key, its value and the moment it
was created; `TracksLives` connects that with the contents of the table, step by step; and the lines
come by ascending hash and, for one hash, from the latest creation to the earliest
(`enumeration_order`).
-/

namespace Kvs

/-! ## The history of a store -/

/-- A key is given a value, or none any more. -/
abbrev Change := CString × Option CString

/-- For each key that is there, its value and when it was created. -/
abbrev Lives := CString → Option (CString × ℕ)

namespace Lives

/-- When a key was created. -/
def created (lives : Lives) (key : CString) : ℕ := ((lives key).map Prod.snd).getD 0

/-- A change at a moment: a key that is there keeps the moment it was created. -/
def change (lives : Lives) (now : ℕ) : Change → Lives
  | (key, some value) =>
      Function.update lives key (some (value, ((lives key).map Prod.snd).getD now))
  | (key, none) => Function.update lives key none

/-- Changes one after the other, each at a moment of its own. -/
def changes (lives : Lives) (now : ℕ) : List Change → Lives
  | [] => lives
  | c :: cs => (lives.change now c).changes (now + 1) cs

end Lives

/-- A `WRITE` or a `DELETE` with all its arguments. -/
inductive StoreBatch where
  | Write (pairs : List (Str × Str))
  | Delete (keys : List Str)

namespace StoreBatch

/-- What the batch asks for, in its order. -/
def changes : StoreBatch → List Change
  | Write pairs => pairs.map fun p => (p.1.val, some p.2.val)
  | Delete keys => keys.map fun key => (key.val, none)

/-- The operation on the table. -/
def run (mem : ℕ → Ptr) (ht : HashTable) : StoreBatch → Except Fault HashTable
  | Write pairs => do
      let (ht, _) ← ht.kvsWrite mem pairs
      pure ht
  | Delete keys => do
      let (ht, _, _) ← ht.kvsDelete keys
      pure ht

end StoreBatch

/-- A sequence of batches. -/
def runBatches (mem : ℕ → Ptr) (ht : HashTable) : List StoreBatch → Except Fault HashTable
  | [] => pure ht
  | batch :: batches => do
      let ht ← batch.run mem ht
      runBatches mem ht batches

/-- What has become of the keys after the batches, from an empty store. -/
def livesAfter (batches : List StoreBatch) : Lives :=
  Lives.changes (fun _ => none) 0 (batches.flatMap StoreBatch.changes)

/-! ## The contents follow the history -/

namespace Contents

def change (m : Contents) : Change → Contents
  | (key, some value) => m.write key value
  | (key, none) => m.delete key

def changes (m : Contents) (cs : List Change) : Contents := cs.foldl change m

lemma writeAll_eq (m : Contents) (pairs : List (Str × Str)) :
    m.writeAll pairs = m.changes (StoreBatch.Write pairs).changes := by
  induction pairs generalizing m with
  | nil => rfl
  | cons p pairs ih => exact ih (m.write p.1.val p.2.val)

lemma deleteAll_eq (m : Contents) (keys : List Str) :
    m.deleteAll keys = m.changes (StoreBatch.Delete keys).changes := by
  induction keys generalizing m with
  | nil => rfl
  | cons key keys ih => exact ih (m.delete key.val)

end Contents

/-- The pairs are the keys that are there with their values, each once, the latest creation first. -/
structure TracksLives (lives : Lives) (now : ℕ) (m : Contents) : Prop where
  distinct : m.Distinct
  values : ∀ key, m.read key = (lives key).map Prod.fst
  newest : (m.map Prod.fst).Pairwise fun key key' => lives.created key' < lives.created key
  past : ∀ key entry, lives key = some entry → entry.2 < now

namespace TracksLives

variable {lives : Lives} {now : ℕ} {m : Contents}

lemma empty : TracksLives (fun _ => none) 0 [] where
  distinct := List.nodup_nil
  values := fun _ => rfl
  newest := List.Pairwise.nil
  past := by
    intro key entry h
    cases h

/-- A key is there if and only if it is in the list. -/
lemma isSome_iff (h : TracksLives lives now m) (key : CString) :
    (lives key).isSome ↔ key ∈ m.map Prod.fst := by
  rw [← Contents.read_isSome_iff, h.values, Option.isSome_map]

/-- Values change with the keys they belong to. -/
lemma values_update (h : TracksLives lives now m) (key : CString) (entry : Option (CString × ℕ))
    (key' : CString) : Function.update m.read key (entry.map Prod.fst) key'
      = (Function.update lives key entry key').map Prod.fst := by
  by_cases hkey : key' = key
  · rw [hkey, Function.update_self, Function.update_self]
  · rw [Function.update_of_ne hkey, Function.update_of_ne hkey, h.values]

/-- A key with a value keeps its place, and its moment with it. -/
lemma overwrite (h : TracksLives lives now m) (key value : CString) {entry : CString × ℕ}
    (hlive : lives key = some entry) :
    TracksLives (lives.change now (key, some value)) (now + 1) (m.write key value) := by
  have hsame : (lives.change now (key, some value)).created = lives.created := by
    funext key'
    by_cases hkey : key' = key
    · subst hkey
      simp [Lives.created, Lives.change, hlive]
    · simp [Lives.created, Lives.change, Function.update_of_ne hkey]
  have hread : (m.read key).isSome := by
    rw [h.values, hlive]
    rfl
  refine ⟨h.distinct.write, ?_, ?_, ?_⟩
  · rw [Contents.read_write]
    exact h.values_update key (some (value, _))
  · rw [hsame, Contents.write, if_pos hread,
      KeyedList.map_key_modify _ (Contents.withValue value) fun _ => rfl]
    exact h.newest
  · intro key' entry' h'
    by_cases hkey : key' = key
    · subst hkey
      obtain rfl : (value, entry.2) = entry' := by simpa [Lives.change, hlive] using h'
      exact Nat.lt_succ_of_lt (h.past key' entry hlive)
    · rw [Lives.change, Function.update_of_ne hkey] at h'
      exact Nat.lt_succ_of_lt (h.past key' entry' h')

/-- A new key is the latest. -/
lemma create (h : TracksLives lives now m) (key value : CString) (hnew : lives key = none) :
    TracksLives (lives.change now (key, some value)) (now + 1) (m.write key value) := by
  have hread : ¬ (m.read key).isSome := by
    rw [h.values, hnew]
    simp
  have hnow : (lives.change now (key, some value)).created key = now := by
    simp [Lives.created, Lives.change, hnew]
  have hother : ∀ key' ∈ m.map Prod.fst, key' ≠ key ∧
      (lives.change now (key, some value)).created key' = lives.created key' := by
    intro key' hmem
    have hne : key' ≠ key := by
      rintro rfl
      exact hread (Contents.read_isSome_iff.mpr hmem)
    refine ⟨hne, ?_⟩
    simp [Lives.created, Lives.change, Function.update_of_ne hne]
  refine ⟨h.distinct.write, ?_, ?_, ?_⟩
  · rw [Contents.read_write]
    exact h.values_update key (some (value, _))
  · rw [Contents.write, if_neg hread, List.map_cons, List.pairwise_cons]
    constructor
    · intro key' hmem
      rw [hnow, (hother key' hmem).2, Lives.created]
      obtain ⟨entry, hentry⟩ := Option.isSome_iff_exists.mp ((h.isSome_iff key').mpr hmem)
      rw [hentry]
      exact h.past key' entry hentry
    · refine h.newest.imp_of_mem ?_
      intro a b ha hb hlt
      rwa [(hother a ha).2, (hother b hb).2]
  · intro key' entry' h'
    by_cases hkey : key' = key
    · subst hkey
      obtain rfl : (value, now) = entry' := by simpa [Lives.change, hnew] using h'
      exact Nat.lt_succ_self now
    · rw [Lives.change, Function.update_of_ne hkey] at h'
      exact Nat.lt_succ_of_lt (h.past key' entry' h')

/-- A key that is deleted leaves the others in their order. -/
lemma delete (h : TracksLives lives now m) (key : CString) :
    TracksLives (lives.change now (key, none)) (now + 1) (m.delete key) := by
  have hsub : ((m.delete key).map Prod.fst).Sublist (m.map Prod.fst) :=
    List.eraseP_sublist.map Prod.fst
  have hother : ∀ key' ∈ (m.delete key).map Prod.fst,
      (lives.change now (key, none)).created key' = lives.created key' := by
    intro key' hmem
    have hne : key' ≠ key := by
      rintro rfl
      have hread := Contents.read_isSome_iff.mpr hmem
      rw [Contents.read_delete_self h.distinct] at hread
      cases hread
    simp [Lives.created, Lives.change, Function.update_of_ne hne]
  refine ⟨h.distinct.delete, ?_, ?_, ?_⟩
  · rw [h.distinct.read_delete]
    exact h.values_update key none
  · refine (h.newest.sublist hsub).imp_of_mem ?_
    intro a b ha hb hlt
    rwa [hother a ha, hother b hb]
  · intro key' entry' h'
    by_cases hkey : key' = key
    · subst hkey
      rw [Lives.change, Function.update_self] at h'
      cases h'
    · rw [Lives.change, Function.update_of_ne hkey] at h'
      exact Nat.lt_succ_of_lt (h.past key' entry' h')

/-- **One change.** -/
lemma change (h : TracksLives lives now m) (c : Change) :
    TracksLives (lives.change now c) (now + 1) (m.change c) := by
  obtain ⟨key, value⟩ := c
  cases value with
  | none => exact h.delete key
  | some value =>
      cases hlive : lives key with
      | none => exact h.create key value hlive
      | some entry => exact h.overwrite key value hlive

/-- **Any number of changes**, by induction. -/
lemma changes (h : TracksLives lives now m) (cs : List Change) :
    TracksLives (lives.changes now cs) (now + cs.length) (m.changes cs) := by
  induction cs generalizing lives now m with
  | nil => exact h
  | cons c cs ih =>
      have hrest := ih (h.change c)
      rw [List.length_cons, Nat.add_comm cs.length, ← Nat.add_assoc]
      exact hrest

end TracksLives

/-! ## The batches on the table -/

/-- One batch on a table that holds pairs. -/
lemma StoreBatch.run_holds {mem : ℕ → Ptr} (hmem : ZeroFilled mem) {ht : HashTable} {m : Contents}
    (h : ht.Holds m) (batch : StoreBatch) (hkeys : ∀ c ∈ batch.changes, c.1.StartsAlnum) :
    ∃ ht', batch.run mem ht = .ok ht' ∧ ht'.Holds (m.changes batch.changes) := by
  cases batch with
  | Write pairs =>
      have hpairs : ∀ p ∈ pairs, p.1.val.StartsAlnum := by
        intro p hp
        exact hkeys _ (List.mem_map_of_mem hp)
      obtain ⟨ht', hrun, h'⟩ := h.kvsWrite hmem hpairs
      rw [Contents.writeAll_eq] at h'
      refine ⟨ht', ?_, h'⟩
      simp only [StoreBatch.run, hrun, ok_bind, pure_eq_ok]
  | Delete keys =>
      have hall : ∀ key ∈ keys, key.val.StartsAlnum := by
        intro key hkey
        exact hkeys _ (List.mem_map_of_mem hkey)
      obtain ⟨ht', hrun, h'⟩ := h.kvsDelete hall
      rw [Contents.deleteAll_eq] at h'
      refine ⟨ht', ?_, h'⟩
      simp only [StoreBatch.run, hrun, ok_bind, pure_eq_ok]

lemma runBatches_holds {mem : ℕ → Ptr} (hmem : ZeroFilled mem) {ht : HashTable} {m : Contents}
    (h : ht.Holds m) {batches : List StoreBatch}
    (hkeys : ∀ batch ∈ batches, ∀ c ∈ batch.changes, c.1.StartsAlnum) :
    ∃ ht', runBatches mem ht batches = .ok ht' ∧
      ht'.Holds (m.changes (batches.flatMap StoreBatch.changes)) := by
  induction batches generalizing ht m with
  | nil => exact ⟨ht, rfl, h⟩
  | cons batch batches ih =>
      obtain ⟨ht₁, hrun, h₁⟩ := batch.run_holds hmem h (hkeys batch (by simp))
      obtain ⟨ht₂, hruns, h₂⟩ := ih h₁ fun b hb => hkeys b (List.mem_cons_of_mem _ hb)
      refine ⟨ht₂, ?_, ?_⟩
      · simp only [runBatches, hrun, ok_bind, hruns]
      · rw [List.flatMap_cons, Contents.changes, List.foldl_append]
        exact h₂

/-! ## The order of the chains -/

/-- The key of chain `i` has hash `i`. -/
lemma hash_of_slot {key : CString} {i : Fin tableSize} (h : slot key = some i) :
    hash key = i.val := by
  rw [slot_eq_some, tableIndex] at h
  split_ifs at h with hindex
  obtain rfl := Except.ok.inj h
  exact (Int.toNat_of_nonneg hindex.1).symm

/-- `kvs_show` visits the pairs of the table. -/
lemma HashTable.kvsShow_eq_pairs (ht : HashTable) :
    ht.kvsShow = ht.pairs.flatMap fun p => record (showText p.1 p.2) := by
  simp only [HashTable.kvsShow, HashTable.pairs, List.flatMap_assoc, List.flatMap_map]
  rfl

/-- The chains of a table that holds pairs are these pairs, sorted into chains. -/
lemma HashTable.Holds.pairs_eq {ht : HashTable} {m : Contents} (h : ht.Holds m) :
    ht.pairs = (List.finRange tableSize).flatMap fun i =>
      m.filter fun p => slot p.1 = some i := by
  obtain ⟨nodes, h⟩ := h
  unfold HashTable.pairs
  refine congrArg (fun f => (List.finRange tableSize).flatMap f) (funext fun i => ?_)
  rw [h.lists.chains, nodesOf, ← h.pairs, List.filter_map]
  rfl

/-- None is lost. -/
lemma HashTable.Holds.mem_pairs_iff {ht : HashTable} {m : Contents} (h : ht.Holds m)
    (p : CString × CString) : p ∈ ht.pairs ↔ p ∈ m := by
  simp only [h.pairs_eq, List.mem_flatMap, List.mem_finRange, true_and, List.mem_filter,
    decide_eq_true_eq]
  constructor
  · rintro ⟨i, hmem, -⟩
    exact hmem
  · intro hmem
    obtain ⟨nodes, hnodes⟩ := h
    rw [← hnodes.pairs] at hmem
    obtain ⟨keyNode, hnode, rfl⟩ := List.mem_map.mp hmem
    obtain ⟨i, hi⟩ := tableIndex_of_startsAlnum (hnodes.lists.placed keyNode hnode)
    refine ⟨i, ?_, slot_eq_some.mpr hi⟩
    rw [← hnodes.pairs]
    exact List.mem_map_of_mem hnode

/-- By hash, then from the latest creation to the earliest. -/
def Lives.Before (lives : Lives) (p q : CString × CString) : Prop :=
  hash p.1 < hash q.1 ∨ (hash p.1 = hash q.1 ∧ lives.created q.1 < lives.created p.1)

/-- A chain is in order because the pairs are, and the chains are because their numbers are. -/
lemma TracksLives.pairwise_pairs {lives : Lives} {now : ℕ} {m : Contents}
    (h : TracksLives lives now m) {ht : HashTable} (hholds : ht.Holds m) :
    ht.pairs.Pairwise lives.Before := by
  rw [hholds.pairs_eq, List.pairwise_flatMap]
  constructor
  · intro i _
    have hnewest : m.Pairwise fun p q => lives.created q.1 < lives.created p.1 :=
      List.pairwise_map.mp h.newest
    refine (hnewest.filter _).imp_of_mem ?_
    intro p q hp hq hlt
    have hpslot : slot p.1 = some i := by simpa using (List.mem_filter.mp hp).2
    have hqslot : slot q.1 = some i := by simpa using (List.mem_filter.mp hq).2
    right
    exact ⟨(hash_of_slot hpslot).trans (hash_of_slot hqslot).symm, hlt⟩
  · refine (List.pairwise_lt_finRange tableSize).imp ?_
    intro i j hij p hp q hq
    have hpslot : slot p.1 = some i := by simpa using (List.mem_filter.mp hp).2
    have hqslot : slot q.1 = some j := by simpa using (List.mem_filter.mp hq).2
    left
    rw [hash_of_slot hpslot, hash_of_slot hqslot]
    exact Int.ofNat_lt.mpr hij

/-- **The order of enumeration.**  After any sequence of `WRITE` and `DELETE` batches on an empty
store, `SHOW` meets each key that is there once, with the value it has, by ascending chain and in
each chain from the key created last to the one created first. -/
theorem enumeration_order {mem : ℕ → Ptr} (hmem : ZeroFilled mem) (batches : List StoreBatch)
    (hkeys : ∀ batch ∈ batches, ∀ c ∈ batch.changes, c.1.StartsAlnum) :
    ∃ ht, runBatches mem .createHashTable batches = .ok ht ∧
      ht.kvsShow = ht.pairs.flatMap (fun p => record (showText p.1 p.2)) ∧
      (ht.pairs.map Prod.fst).Nodup ∧
      (∀ key value, (key, value) ∈ ht.pairs ↔
        ∃ moment, livesAfter batches key = some (value, moment)) ∧
      ht.pairs.Pairwise (livesAfter batches).Before := by
  obtain ⟨ht, hrun, hholds⟩ := runBatches_holds hmem HashTable.holds_createHashTable hkeys
  have htracks := TracksLives.empty.changes (batches.flatMap StoreBatch.changes)
  have horder := htracks.pairwise_pairs hholds
  refine ⟨ht, hrun, ht.kvsShow_eq_pairs, ?_, ?_, horder⟩
  · rw [List.nodup_iff_pairwise_ne, List.pairwise_map]
    refine horder.imp ?_
    rintro p q (hlt | ⟨-, hlt⟩) heq
    · rw [heq] at hlt
      exact lt_irrefl _ hlt
    · rw [heq] at hlt
      exact lt_irrefl _ hlt
  · intro key value
    rw [hholds.mem_pairs_iff]
    rw [htracks.distinct.mem_iff_read, htracks.values]
    show ((livesAfter batches key).map Prod.fst = some value) ↔ _
    simp

/-- Two keys of one chain, the older one overwritten and the newer one deleted and written again. -/
theorem enumeration_order_again :
    ∃ ht, runBatches (fun _ => none) .createHashTable
        [.Write [(Str.lit "a", Str.lit "1"), (Str.lit "0", Str.lit "2")],
          .Write [(Str.lit "a", Str.lit "3")], .Delete [Str.lit "0"],
          .Write [(Str.lit "0", Str.lit "4")]] = .ok ht ∧ (ht.pairs.map Prod.fst).Nodup := by
  have hmem : ZeroFilled fun _ => none := fun _ => rfl
  obtain ⟨ht, hrun, -, hnodup, -⟩ := enumeration_order hmem
    [.Write [(Str.lit "a", Str.lit "1"), (Str.lit "0", Str.lit "2")],
      .Write [(Str.lit "a", Str.lit "3")], .Delete [Str.lit "0"],
      .Write [(Str.lit "0", Str.lit "4")]] (by decide +kernel)
  exact ⟨ht, hrun, hnodup⟩

end Kvs
