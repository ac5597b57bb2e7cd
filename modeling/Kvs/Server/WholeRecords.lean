import Kvs.Server.Session
import Kvs.Server.Tokens

/-!
# Records that come out whole

`write_pair` formats a key and a value of 39 bytes each into a buffer of 90, which has room for
them; `kvs_read` and `kvs_show` format the same two strings into a buffer of 40, which has not.
What they write is the records cut at 39 bytes (`Operations.lean`).  Here is when that is the whole
of them: exactly if each record is short enough, and since a cut is never made good later, one long
record is enough to spoil the output (`flatMap_record_eq_iff`).

Where nothing is cut the strings can be read back (`show_readable`, `read_readable`), because keys
and values that come through the parser contain none of its delimiters.
-/

namespace Kvs

/-! ## What should be written -/

namespace HashTable

/-- The value of a key in the table. -/
def valueOf (ht : HashTable) (key : CString) : Option CString :=
  (ht.lookup key).map KeyNode.value

/-- The output of a `READ`, with each record complete. -/
def wholeRead (ht : HashTable) (keys : List Str) : List Byte :=
  text "[" ++ keys.flatMap (fun key : Str => readText key.val (ht.valueOf key.val)) ++ text "]\n"

/-- The output of a `SHOW`, with each line complete. -/
def wholeShow (ht : HashTable) : List Byte :=
  (List.finRange tableSize).flatMap fun i =>
    (ht.table i).flatMap fun keyNode => showText keyNode.key keyNode.value

/-! ## The condition -/

/-- The record of a key is 39 bytes at most: a key with a value has 36 for both, another 28. -/
def ReadFits (ht : HashTable) (key : CString) : Prop :=
  match ht.valueOf key with
  | some value => key.length + value.length ≤ 36
  | none => key.length ≤ 28

/-- The line of a node is 39 bytes at most. -/
def ShowFits (keyNode : KeyNode) : Prop := keyNode.key.length + keyNode.value.length ≤ 34

end HashTable

lemma readText_length_le (key : CString) (value : Option CString) :
    (readText key value).length ≤ 39 ↔ match value with
      | some value => key.length + value.length ≤ 36
      | none => key.length ≤ 28 := by
  cases value with
  | none =>
      have h₁ : (text "(").length = 1 := rfl
      have h₂ : (text ",KVSERROR)").length = 10 := rfl
      simp only [readText, errorText, List.length_append, CString.length]
      omega
  | some value =>
      have h₁ : (text "(").length = 1 := rfl
      have h₂ : (text ",").length = 1 := rfl
      have h₃ : (text ")").length = 1 := rfl
      simp only [readText, pairText, List.length_append, CString.length]
      omega

lemma showText_length_le (keyNode : KeyNode) :
    (showText keyNode.key keyNode.value).length ≤ 39 ↔ HashTable.ShowFits keyNode := by
  have h₁ : (text "(").length = 1 := rfl
  have h₂ : (text ", ").length = 2 := rfl
  have h₃ : (text ")\n").length = 2 := rfl
  simp only [showText, HashTable.ShowFits, List.length_append, CString.length]
  omega

/-! ## Cut records -/

lemma record_length_le (formatted : List Byte) : (record formatted).length ≤ formatted.length := by
  simp only [record, snprintf, List.length_take]
  omega

lemma record_eq_self {formatted : List Byte} (h : formatted.length ≤ 39) :
    record formatted = formatted :=
  List.take_of_length_le h

lemma length_le_of_record {formatted : List Byte} (h : (record formatted).length = formatted.length) :
    formatted.length ≤ 39 := by
  simp only [record, snprintf, maxStringSize, List.length_take] at h
  omega

/-- **A cut is never made good**, by induction over the records: what follows it has not grown. -/
lemma flatMap_record_eq_iff {α : Type} (f : α → List Byte) (l : List α) :
    l.flatMap (fun a => record (f a)) = l.flatMap f ↔ ∀ a ∈ l, (f a).length ≤ 39 := by
  have hlength : ∀ l : List α,
      (l.flatMap fun a => record (f a)).length ≤ (l.flatMap f).length := by
    intro l
    induction l with
    | nil => simp
    | cons a l ih =>
        have hfirst := record_length_le (f a)
        simp only [List.flatMap_cons, List.length_append]
        omega
  induction l with
  | nil => simp
  | cons a l ih =>
      simp only [List.flatMap_cons, List.mem_cons, forall_eq_or_imp, ← ih]
      constructor
      · intro h
        have hrest := hlength l
        have hfirst := record_length_le (f a)
        have hall := congrArg List.length h
        simp only [List.length_append] at hall
        have hle : (f a).length ≤ 39 := length_le_of_record (by omega)
        rw [record_eq_self hle] at h
        exact ⟨hle, List.append_cancel_left h⟩
      · rintro ⟨hle, hrest⟩
        rw [record_eq_self hle, hrest]

namespace HashTable

variable {ht : HashTable}

/-- A key that has a chain is read as its node says; for another the chain is outside the table. -/
lemma readPair_eq_valueOf {key : CString} (hkey : key.StartsAlnum) :
    ht.readPair key = .ok (ht.valueOf key) := by
  obtain ⟨index, hindex⟩ := tableIndex_of_startsAlnum hkey
  simp only [readPair, valueOf, lookup_eq hindex, hindex, ok_bind, pure_eq_ok]

/-- The records are written if and only if every key has a chain. -/
lemma readRecords_eq_ok {keys : List Str} {records : List Byte} :
    ht.readRecords keys = .ok records ↔ (∀ key ∈ keys, key.val.StartsAlnum) ∧
      records = keys.flatMap fun key : Str => record (readText key.val (ht.valueOf key.val)) := by
  induction keys generalizing records with
  | nil =>
      simp only [readRecords, pure_eq_ok, List.not_mem_nil, false_imp_iff, implies_true, true_and,
        List.flatMap_nil, Except.ok.injEq]
      exact eq_comm
  | cons key keys ih =>
      by_cases hkey : key.val.StartsAlnum
      · simp only [readRecords, readPair_eq_valueOf hkey, ok_bind, bind_eq_ok, ih, pure_eq_ok,
          List.flatMap_cons, List.mem_cons, forall_eq_or_imp, hkey, true_and, Except.ok.injEq]
        constructor
        · rintro ⟨rest, ⟨hkeys, rfl⟩, rfl⟩
          exact ⟨hkeys, rfl⟩
        · rintro ⟨hkeys, rfl⟩
          exact ⟨_, ⟨hkeys, rfl⟩, rfl⟩
      · constructor
        · intro h
          simp only [readRecords, readPair, tableIndex_of_not_startsAlnum hkey, error_bind] at h
          cases h
        · rintro ⟨hkeys, -⟩
          exact absurd (hkeys key (by simp)) hkey

end HashTable

/-- **`kvs_read`** writes the records it should exactly if each key has a chain and its record fits. -/
lemma HashTable.kvsRead_whole_iff (ht : HashTable) (keys : List Str) :
    ht.kvsRead keys = .ok (ht.wholeRead keys) ↔
      ∀ key ∈ keys, key.val.StartsAlnum ∧ ht.ReadFits key.val := by
  have hcut := flatMap_record_eq_iff
    (fun key : Str => readText key.val (ht.valueOf key.val)) keys
  simp only [readText_length_le] at hcut
  rw [HashTable.kvsRead, bind_eq_ok]
  constructor
  · rintro ⟨records, hrecords, hout⟩
    obtain ⟨hkeys, rfl⟩ := HashTable.readRecords_eq_ok.mp hrecords
    have hsame := List.append_cancel_left (List.append_cancel_right (Except.ok.inj hout))
    intro key hkey
    exact ⟨hkeys key hkey, hcut.mp hsame key hkey⟩
  · intro h
    refine ⟨_, HashTable.readRecords_eq_ok.mpr ⟨fun key hkey => (h key hkey).1, rfl⟩, ?_⟩
    have hsame := hcut.mpr fun key hkey => (h key hkey).2
    simp only [hsame, HashTable.wholeRead, pure_eq_ok]

/-- **`kvs_show`** writes the lines it should exactly if the line of each node fits. -/
lemma HashTable.kvsShow_whole_iff (ht : HashTable) :
    ht.kvsShow = ht.wholeShow ↔ ∀ i, ∀ keyNode ∈ ht.table i, HashTable.ShowFits keyNode := by
  have hcut := flatMap_record_eq_iff
    (fun keyNode : KeyNode => showText keyNode.key keyNode.value)
    ((List.finRange tableSize).flatMap ht.table)
  simp only [showText_length_le] at hcut
  rw [HashTable.kvsShow, HashTable.wholeShow, ← List.flatMap_assoc, ← List.flatMap_assoc]
  refine hcut.trans ?_
  simp only [List.mem_flatMap, List.mem_finRange, true_and, forall_exists_index]
  exact forall_comm

/-! ## Reading back -/

/-- Records that can be told apart whatever follows them, in front of something that is none. -/
lemma flatMap_injective {α : Type} {f : α → List Byte} {good : α → Prop} {tail : List Byte}
    (hf : ∀ a a' rest rest', good a → good a' → f a ++ rest = f a' ++ rest' → a = a' ∧ rest = rest')
    (htail : ∀ a rest, f a ++ rest ≠ tail) {l l' : List α} (hl : ∀ a ∈ l, good a)
    (hl' : ∀ a ∈ l', good a) (h : l.flatMap f ++ tail = l'.flatMap f ++ tail) : l = l' := by
  induction l generalizing l' with
  | nil =>
      cases l' with
      | nil => rfl
      | cons a' l' =>
          rw [List.flatMap_nil, List.nil_append, List.flatMap_cons, List.append_assoc] at h
          exact absurd h.symm (htail a' _)
  | cons a l ih =>
      cases l' with
      | nil =>
          rw [List.flatMap_nil, List.nil_append, List.flatMap_cons, List.append_assoc] at h
          exact absurd h (htail a _)
      | cons a' l' =>
          simp only [List.flatMap_cons, List.append_assoc] at h
          obtain ⟨rfl, hrest⟩ := hf a a' _ _ (hl a (by simp)) (hl' a' (by simp)) h
          have htails := ih (fun b hb => hl b (List.mem_cons_of_mem _ hb))
            (fun b hb => hl' b (List.mem_cons_of_mem _ hb)) hrest
          rw [htails]

/-- A key and a value without delimiters. -/
def PlainPair (p : CString × CString) : Prop := Plain p.1.bytes ∧ Plain p.2.bytes

lemma showText_append (key value : CString) (rest : List Byte) :
    showText key value ++ rest
      = char '(' :: (key.bytes ++ char ',' :: (char ' ' :: (value.bytes
          ++ char ')' :: (char '\n' :: rest)))) := by
  simp [showText, text, char]

lemma pairText_append (key value : CString) (rest : List Byte) :
    pairText key value ++ rest
      = char '(' :: (key.bytes ++ char ',' :: (value.bytes ++ char ')' :: rest)) := by
  simp [pairText, text, char]

/-- The line of a pair ends where it seems to. -/
lemma showText_injective {p p' : CString × CString} {rest rest' : List Byte} (hp : PlainPair p)
    (hp' : PlainPair p') (h : showText p.1 p.2 ++ rest = showText p'.1 p'.2 ++ rest') :
    p = p' ∧ rest = rest' := by
  have hcomma : isDelimiter (char ',') = true := by decide
  have hparen : isDelimiter (char ')') = true := by decide
  rw [showText_append, showText_append] at h
  obtain ⟨hkey, -, h⟩ := token_unique hcomma hcomma hp.1 hp'.1 (List.cons.inj h).2
  obtain ⟨hvalue, -, h⟩ := token_unique hparen hparen hp.2 hp'.2 (List.cons.inj h).2
  exact ⟨Prod.ext (CString.ext hkey) (CString.ext hvalue), (List.cons.inj h).2⟩

lemma pairText_injective {p p' : CString × CString} {rest rest' : List Byte} (hp : PlainPair p)
    (hp' : PlainPair p') (h : pairText p.1 p.2 ++ rest = pairText p'.1 p'.2 ++ rest') :
    p = p' ∧ rest = rest' := by
  have hcomma : isDelimiter (char ',') = true := by decide
  have hparen : isDelimiter (char ')') = true := by decide
  rw [pairText_append, pairText_append] at h
  obtain ⟨hkey, -, h⟩ := token_unique hcomma hcomma hp.1 hp'.1 (List.cons.inj h).2
  obtain ⟨hvalue, -, h⟩ := token_unique hparen hparen hp.2 hp'.2 h
  exact ⟨Prod.ext (CString.ext hkey) (CString.ext hvalue), h⟩

/-- What stands for the value in the record of a key. -/
def printedValue (value : Option CString) : CString := value.getD (.lit "KVSERROR")

lemma readText_eq_pairText (key : CString) (value : Option CString) :
    readText key value = pairText key (printedValue value) := by
  cases value with
  | none =>
      have htext : (CString.lit "KVSERROR").bytes = text "KVSERROR" := by decide
      simp [readText, errorText, printedValue, pairText, htext, text]
  | some value => rfl

namespace HashTable

/-- The pairs of the table, chain by chain. -/
def pairs (ht : HashTable) : List (CString × CString) :=
  (List.finRange tableSize).flatMap fun i => (ht.table i).map KeyNode.pair

/-- No key and no value has a delimiter in it, as none that come out of the parser have. -/
def PlainStrings (ht : HashTable) : Prop := ∀ p ∈ ht.pairs, PlainPair p

/-- **From a whole `SHOW`** all pairs can be read back. -/
lemma show_readable {ht ht' : HashTable} (h : ht.PlainStrings) (h' : ht'.PlainStrings)
    (hsame : ht.wholeShow = ht'.wholeShow) : ht.pairs = ht'.pairs := by
  have hlines : ∀ ht : HashTable,
      ht.wholeShow = ht.pairs.flatMap (fun p => showText p.1 p.2) ++ [] := by
    intro ht
    simp only [wholeShow, pairs, List.append_nil, List.flatMap_assoc, List.flatMap_map]
    rfl
  rw [hlines, hlines] at hsame
  refine flatMap_injective (fun a a' rest rest' => showText_injective) ?_ h h' hsame
  intro a rest
  rw [showText_append]
  simp

lemma valueOf_plain {ht : HashTable} (h : ht.PlainStrings) (key : CString) :
    Plain (printedValue (ht.valueOf key)).bytes := by
  cases hnode : ht.lookup key with
  | none =>
      rw [valueOf, hnode]
      decide +kernel
  | some keyNode =>
      obtain ⟨index, -, hfind⟩ := tableIndex_of_lookup hnode
      have hmem : keyNode.pair ∈ ht.pairs := by
        simp only [pairs, List.mem_flatMap, List.mem_finRange, true_and]
        exact ⟨index, List.mem_map_of_mem (KeyedList.mem_of_find hfind)⟩
      rw [valueOf, hnode]
      exact (h _ hmem).2

/-- **From a whole `READ`** the keys can be read back, and for each of them what the table has. -/
lemma read_readable {ht ht' : HashTable} (h : ht.PlainStrings) (h' : ht'.PlainStrings)
    {keys keys' : List Str} (hkeys : ∀ key ∈ keys, Plain key.val.bytes)
    (hkeys' : ∀ key ∈ keys', Plain key.val.bytes)
    (hsame : ht.wholeRead keys = ht'.wholeRead keys') :
    keys = keys' ∧
      ∀ key ∈ keys, printedValue (ht.valueOf key.val) = printedValue (ht'.valueOf key.val) := by
  set printed : HashTable → Str → CString × CString :=
    fun ht key => (key.val, printedValue (ht.valueOf key.val)) with hprinted
  have hrecords : ∀ (ht : HashTable) (keys : List Str), ht.wholeRead keys
      = text "[" ++ ((keys.map (printed ht)).flatMap (fun p => pairText p.1 p.2) ++ text "]\n") := by
    intro ht keys
    simp only [wholeRead, readText_eq_pairText, List.flatMap_map, List.append_assoc, hprinted]
  have hplain : ∀ {ht : HashTable} {keys : List Str}, ht.PlainStrings →
      (∀ key ∈ keys, Plain key.val.bytes) → ∀ p ∈ keys.map (printed ht), PlainPair p := by
    intro ht keys hht hkeys p hp
    obtain ⟨key, hkey, rfl⟩ := List.mem_map.mp hp
    exact ⟨hkeys key hkey, valueOf_plain hht key.val⟩
  rw [hrecords, hrecords] at hsame
  have hpairs : keys.map (printed ht) = keys'.map (printed ht') := by
    refine flatMap_injective (fun a a' rest rest' => pairText_injective) ?_ (hplain h hkeys)
      (hplain h' hkeys') (List.append_cancel_left hsame)
    intro a rest hbracket
    have hne : char '(' ≠ char ']' := by decide
    rw [pairText_append] at hbracket
    exact hne (List.cons.inj hbracket).1
  have hkeysSame : keys = keys' := by
    have hfirst := congrArg (List.map Prod.fst) hpairs
    simp only [List.map_map, hprinted] at hfirst
    exact List.map_injective_iff.mpr Subtype.val_injective hfirst
  subst hkeysSame
  refine ⟨rfl, ?_⟩
  intro key hkey
  exact (Prod.mk.inj (List.map_inj_left.mp hpairs key hkey)).2

end HashTable

/-! ## Exactly when the records are whole -/

/-- **Exactly when `READ` and `SHOW` write whole records.**  For every table and every batch of keys:
`kvs_read` writes the complete records if and only if each key starts with an ASCII letter or digit
and has, with its value, 36 bytes at most, or 28 if there is no value; `kvs_show` writes the complete
lines if and only if the key and the value of each node have 34 bytes at most.  And from outputs that
are complete the keys and values can be read back. -/
theorem records_whole_iff (ht : HashTable) (keys : List Str) :
    (ht.kvsRead keys = .ok (ht.wholeRead keys) ↔
        ∀ key ∈ keys, key.val.StartsAlnum ∧ ht.ReadFits key.val) ∧
      (ht.kvsShow = ht.wholeShow ↔ ∀ i, ∀ keyNode ∈ ht.table i, HashTable.ShowFits keyNode) ∧
      ∀ (ht' : HashTable) (keys' : List Str), ht.PlainStrings → ht'.PlainStrings →
        (ht.wholeShow = ht'.wholeShow → ht.pairs = ht'.pairs) ∧
        ((∀ key ∈ keys, Plain key.val.bytes) → (∀ key ∈ keys', Plain key.val.bytes) →
          ht.wholeRead keys = ht'.wholeRead keys' →
          keys = keys' ∧ ∀ key ∈ keys,
            printedValue (ht.valueOf key.val) = printedValue (ht'.valueOf key.val)) := by
  refine ⟨ht.kvsRead_whole_iff keys, ht.kvsShow_whole_iff, ?_⟩
  intro ht' keys' h h'
  constructor
  · exact HashTable.show_readable h h'
  · intro hkeys hkeys'
    exact HashTable.read_readable h h' hkeys hkeys'

/-- Short strings. -/
theorem records_whole_short :
    ∃ (key value missing : Str) (ht : HashTable),
      HashTable.createHashTable.kvsWrite (fun _ => none) [(key, value)] = .ok (ht, []) ∧
      ht.kvsRead [key, missing] = .ok (ht.wholeRead [key, missing]) ∧
      ht.wholeRead [key, missing] = text "[(a,x)(c,KVSERROR)]\n" := by
  set key : Str := ⟨.lit "a", by decide⟩ with hkey
  set missing : Str := ⟨.lit "c", by decide⟩ with hmissing
  refine ⟨key, ⟨.lit "x", by decide⟩, missing, _, rfl, ?_, by decide +kernel⟩
  refine (records_whole_iff _ _).1.mpr ?_
  intro k hk
  have hcases : k = key ∨ k = missing := by simpa using hk
  rcases hcases with rfl | rfl
  · refine ⟨by decide, ?_⟩
    show _ + _ ≤ 36
    decide
  · refine ⟨by decide, ?_⟩
    show _ ≤ 28
    decide

/-- A string of twenty bytes. -/
def twenty (b : Byte) (hb : b ≠ 0) : Str where
  val := ⟨List.replicate 20 b, fun h => hb (List.eq_of_mem_replicate h).symm⟩
  property := by
    show (List.replicate 20 b).length < 40
    simp

/-- A key of twenty bytes is written with a value of twenty.  When it is read, the last three bytes
of the value and the parenthesis are missing, and a `SHOW` does not come to the end of its line. -/
theorem long_record_cut :
    ∃ (key value : Str) (ht : HashTable),
      HashTable.createHashTable.kvsWrite (fun _ => none) [(key, value)] = .ok (ht, []) ∧
      ht.kvsRead [key] = .ok (text "[(" ++ key.val.bytes ++ text "," ++ value.val.bytes.take 17
        ++ text "]\n") ∧
      ht.kvsRead [key] ≠ .ok (ht.wholeRead [key]) ∧ ht.kvsShow ≠ ht.wholeShow := by
  refine ⟨twenty (char 'k') (by decide), twenty (char 'v') (by decide), _, rfl, by decide +kernel,
    by decide +kernel, by decide +kernel⟩

end Kvs
