import Kvs.Server.FiniteMap
import Kvs.Server.Operations

/-!
# Whole commands on the finite map

What `kvs_write`, `kvs_read`, `kvs_delete` and `kvs_show` do to the pairs of the store and to the
output file, in terms of the map alone: `Contents.writeAll`, `readText`, `deleteAll`, `showText`.
Under the representation `Holds` each operation does exactly that, for batches of any length.

No message can overflow here.  The strings of a command come out of buffers of `MAX_STRING_SIZE`
bytes, so a key and a value are 39 bytes at most, and the stack buffers of `write_pair` and
`delete_pair` were sized for that (`pairText_fits`, `deletedText_fits`).
-/

namespace Kvs

/-! ## The messages of short strings -/

lemma pairText_fits (key value : Str) : (pairText key.val value.val).length < writeBufferSize := by
  have hkey : key.val.bytes.length < 40 := key.prop
  have hvalue : value.val.bytes.length < 40 := value.prop
  simp only [pairText, List.length_append, writeBufferSize]
  have h₁ : (text "(").length = 1 := rfl
  have h₂ : (text ",").length = 1 := rfl
  have h₃ : (text ")").length = 1 := rfl
  omega

lemma deletedText_fits (key : Str) : (deletedText key.val).length < deleteBufferSize := by
  have hkey : key.val.bytes.length < 40 := key.prop
  simp only [deletedText, List.length_append, deleteBufferSize]
  have h₁ : (text "(").length = 1 := rfl
  have h₂ : (text ",DELETED)").length = 9 := rfl
  omega

/-! ## Commands on the map -/

namespace Contents

/-- The pairs of a `WRITE`, one after the other. -/
def writeAll (m : Contents) : List (Str × Str) → Contents
  | [] => m
  | (key, value) :: pairs => (m.write key value).writeAll pairs

/-- The output of a `READ`. -/
def readOutput (m : Contents) (keys : List Str) : List Byte :=
  text "[" ++ keys.flatMap (fun key : Str => record (readText key.val (m.read key.val))) ++ text "]\n"

/-- The keys of a `DELETE`, one after the other. -/
def deleteAll (m : Contents) : List Str → Contents
  | [] => m
  | key :: keys => (m.delete key).deleteAll keys

/-- The keys a `DELETE` finds missing when it comes to them. -/
def missing (m : Contents) : List Str → List Str
  | [] => []
  | key :: keys =>
      if (m.read key).isSome then (m.delete key).missing keys
      else key :: (m.delete key).missing keys

/-- The output of a `DELETE`: nothing, unless a key was missing. -/
def deleteOutput (m : Contents) (keys : List Str) : List Byte :=
  if m.missing keys = [] then []
  else text "[" ++ (m.missing keys).flatMap (fun key : Str => record (missingText key.val)) ++ text "]\n"

/-- The output of a `SHOW`: by ascending chain, the newest pair of a chain first. -/
def showOutput (m : Contents) : List Byte :=
  (List.finRange tableSize).flatMap fun i =>
    (m.filter fun p => slot p.1 = some i).flatMap fun p => record (showText p.1 p.2)

end Contents

/-! ## The operations on a table that holds a map -/

namespace HashTable.Holds

variable {mem : ℕ → Ptr} {ht : HashTable} {m : Contents}

/-- **`kvs_write`**, by induction over the batch. -/
theorem kvsWrite (hmem : ZeroFilled mem) (h : ht.Holds m) {pairs : List (Str × Str)}
    (hkeys : ∀ p ∈ pairs, p.1.val.StartsAlnum) :
    ∃ ht', ht.kvsWrite mem pairs = .ok (ht', []) ∧ ht'.Holds (m.writeAll pairs) := by
  induction pairs generalizing ht m with
  | nil => exact ⟨ht, rfl, h⟩
  | cons p pairs ih =>
      obtain ⟨key, value⟩ := p
      obtain ⟨ht₁, hwrite, h₁⟩ := h.writePair hmem (hkeys (key, value) (by simp))
        fun _ => pairText_fits key value
      obtain ⟨ht₂, hrest, h₂⟩ := ih h₁ fun p hp => hkeys p (List.mem_cons_of_mem _ hp)
      refine ⟨ht₂, ?_, h₂⟩
      simp only [HashTable.kvsWrite, hwrite, ok_bind, hrest, pure_eq_ok, List.append_nil]

lemma readRecords (h : ht.Holds m) {keys : List Str} (hkeys : ∀ key ∈ keys, key.val.StartsAlnum) :
    ht.readRecords keys
      = .ok (keys.flatMap fun key : Str => record (readText key.val (m.read key.val))) := by
  induction keys with
  | nil => rfl
  | cons key keys ih =>
      have hread := h.readPair (hkeys key (by simp))
      have hrest := ih fun k hk => hkeys k (List.mem_cons_of_mem _ hk)
      simp only [HashTable.readRecords, hread, ok_bind, hrest, pure_eq_ok, List.flatMap_cons]

/-- **`kvs_read`**. -/
theorem kvsRead (h : ht.Holds m) {keys : List Str} (hkeys : ∀ key ∈ keys, key.val.StartsAlnum) :
    ht.kvsRead keys = .ok (m.readOutput keys) := by
  simp only [HashTable.kvsRead, h.readRecords hkeys, ok_bind, pure_eq_ok, Contents.readOutput]

/-- The records of `kvs_delete` are those of the missing keys, behind a bracket if that is the
first of them; the induction carries whether it was. -/
lemma deleteRecords (h : ht.Holds m) (aux : Bool) {keys : List Str}
    (hkeys : ∀ key ∈ keys, key.val.StartsAlnum) :
    ∃ ht', ht.deleteRecords aux keys
        = .ok (ht', aux || (m.missing keys != []),
            (if aux || m.missing keys == [] then [] else text "[")
              ++ (m.missing keys).flatMap (fun key : Str => record (missingText key.val)), [])
      ∧ ht'.Holds (m.deleteAll keys) := by
  induction keys generalizing ht m aux with
  | nil => exact ⟨ht, by simp [HashTable.deleteRecords, Contents.missing], h⟩
  | cons key keys ih =>
      obtain ⟨ht₁, hdelete, h₁⟩ := h.deletePair (hkeys key (by simp)) fun _ => deletedText_fits key
      have hkeys' := fun k hk => hkeys k (List.mem_cons_of_mem _ hk)
      by_cases hsome : (m.read key).isSome
      · obtain ⟨ht₂, hrest, h₂⟩ := ih h₁ aux hkeys'
        refine ⟨ht₂, ?_, h₂⟩
        rw [if_pos hsome] at hdelete
        simp only [HashTable.deleteRecords, hdelete, ok_bind, HashTable.deleteRecord, hrest,
          Contents.missing, if_pos hsome, pure_eq_ok, ne_eq, not_true_eq_false, if_false,
          List.nil_append]
      · obtain ⟨ht₂, hrest, h₂⟩ := ih h₁ true hkeys'
        refine ⟨ht₂, ?_, h₂⟩
        rw [if_neg hsome] at hdelete
        simp only [HashTable.deleteRecords, hdelete, ok_bind, HashTable.deleteRecord,
          Contents.missing, if_neg hsome, pure_eq_ok]
        cases aux <;> simp [hrest]

/-- **`kvs_delete`**. -/
theorem kvsDelete (h : ht.Holds m) {keys : List Str}
    (hkeys : ∀ key ∈ keys, key.val.StartsAlnum) :
    ∃ ht', ht.kvsDelete keys = .ok (ht', m.deleteOutput keys, [])
      ∧ ht'.Holds (m.deleteAll keys) := by
  obtain ⟨ht', hrecords, h'⟩ := deleteRecords h false hkeys
  refine ⟨ht', ?_, h'⟩
  simp only [HashTable.kvsDelete, hrecords, ok_bind, pure_eq_ok, Contents.deleteOutput,
    HashTable.closeRecords]
  by_cases hnone : m.missing keys = []
  · simp [hnone]
  · simp [hnone]

/-- **`kvs_show`**: the chains are the parts of the map, pair for node. -/
theorem kvsShow (h : ht.Holds m) : ht.kvsShow = m.showOutput := by
  obtain ⟨nodes, h⟩ := h
  unfold HashTable.kvsShow Contents.showOutput
  refine congrArg (fun f => (List.finRange tableSize).flatMap f) (funext fun i => ?_)
  rw [h.lists.chains, nodesOf, ← h.pairs, List.filter_map, List.flatMap_map]
  rfl

end HashTable.Holds

end Kvs
