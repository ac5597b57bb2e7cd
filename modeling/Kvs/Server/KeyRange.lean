import Kvs.Server.JobExecution
import Kvs.Server.ListGrammar
import Kvs.Server.SessionLoop

/-!
# Which keys reach the table

`hash` returns -1 for a key that starts with neither a letter nor a digit, and none of its callers
looks: `ht->table[-1]` is read and written.  So everything depends on what the parser and the session
loop let through, and they let through any bytes but the delimiters.

A job passes only such keys to the table as `hash` has an index for exactly if every list that its
parser accepts, at the offsets it gets to, has a letter or a digit at the front of every key; what
the parser accepts is `ListGrammar.lean`.  A session does so exactly if the first of the 41 bytes
behind the operation code is a letter or a digit and one of the others is a NUL.
-/

namespace Kvs

/-! ## Keys with an index -/

/-- `hash` returns an index of the table. -/
def InTable (key : CString) : Prop := 0 ≤ hash key ∧ hash key < tableSize

lemma inTable_iff {key : CString} : InTable key ↔ key.StartsAlnum := by
  constructor
  · intro h
    have hlt : (hash key).toNat < tableSize := by
      have hsize : (tableSize : ℤ) = 26 := rfl
      have htable : tableSize = 26 := rfl
      have hrange := h.2
      omega
    exact startsAlnum_of_tableIndex (dif_pos ⟨h.1, hlt⟩)
  · intro h
    obtain ⟨index, hindex⟩ := tableIndex_of_startsAlnum h
    rw [tableIndex] at hindex
    split_ifs at hindex with hrange
    refine ⟨hrange.1, ?_⟩
    have hlt := hrange.2
    omega

/-! ## Jobs -/

/-- The keys that `run_job` passes to the store for a command. -/
def JobCommand.keys : JobCommand → List Str
  | Write pairs => pairs.map Prod.fst
  | Read keys => keys
  | Delete keys => keys
  | _ => []

/-- Each of them ends in its buffer and has an index. -/
def JobCommand.KeysInTable (command : JobCommand) : Prop :=
  ∀ key ∈ command.keys, key.val.Fits maxStringSize ∧ InTable key.val

/-- The states between the commands of a job.  The other threads may do to the table what they
like. -/
inductive Job.Reaches (env : JobEnvironment) (job : Job) : Job → Prop
  | start : Reaches env job job
  | others {j : Job} (ht : HashTable) : Reaches env job j → Reaches env job { j with ht := ht }
  | round {j j' j'' : Job} {command : JobCommand} : Reaches env job j →
      j.next env = .ok (command, j') → j'.execute env command = .ok (none, j'') →
      Reaches env job j''

/-- A letter or a digit is the first byte. -/
def Token.StartsAlnum (token : Token) : Prop := isAlnum (token.val.headD 0) = true

/-- If there is a list in front of the parser, all its keys start with a letter or a digit. -/
def ListKeysAlnum (input : Input) : Prop :=
  (∀ (pairs : List (Token × Token)) (c : Byte) (rest : Input), ItemCount pairs → EndsLine c →
      input = text "WRITE [" ++ (Token.pairsText pairs ++ char ']' :: c :: rest) →
      ∀ p ∈ pairs, p.1.StartsAlnum) ∧
    ∀ word ∈ [text "READ [", text "DELETE ["], ∀ (keys : List Token) (c : Byte) (rest : Input),
      ItemCount keys → EndsLine c →
      input = word ++ (Token.keysText keys ++ char ']' :: c :: rest) →
      ∀ key ∈ keys, key.StartsAlnum

lemma Token.inTable_str {token : Token} : InTable token.str.val ↔ token.StartsAlnum := by
  rw [inTable_iff, CString.StartsAlnum, Token.str, CString.ofBuffer_first, Token.StartsAlnum]

/-- The keys of a `READ` or a `DELETE` are those of a list. -/
lemma parseReadDelete_keys {behind rest : Input} {items : List Str} (hitems : items ≠ [])
    (hparse : parseReadDelete maxWriteSize behind = .ok (items, rest)) :
    ∃ (keys : List Token) (c : Byte), ItemCount keys ∧ EndsLine c ∧ items = keys.map Token.str ∧
      behind = char '[' :: (Token.keysText keys ++ char ']' :: c :: rest) := by
  obtain ⟨keys, c, rfl, hmax, hc, rfl⟩ := (parseReadDelete_iff hitems).mp hparse
  have hne : keys ≠ [] := by simpa using hitems
  exact ⟨keys, c, ⟨hne, hmax⟩, hc, rfl, rfl⟩

/-- The keys of a command are those of a list that was in front of the parser. -/
lemma readCommand_keys {stale : List Byte} {input rest : Input} {command : JobCommand}
    (hkeys : command.keys ≠ []) (h : readCommand stale input = .ok (command, rest)) :
    (∃ (pairs : List (Token × Token)) (c : Byte), ItemCount pairs ∧ EndsLine c ∧
        command.keys = pairs.map (fun p => p.1.str) ∧
        input = text "WRITE [" ++ (Token.pairsText pairs ++ char ']' :: c :: rest)) ∨
      ∃ word ∈ [text "READ [", text "DELETE ["], ∃ (keys : List Token) (c : Byte),
        ItemCount keys ∧ EndsLine c ∧ command.keys = keys.map Token.str ∧
        input = word ++ (Token.keysText keys ++ char ']' :: c :: rest) := by
  have hrejected : command ≠ .Rejected := by
    rintro rfl
    exact hkeys rfl
  have hnone : ∀ {command' : JobCommand} {rest' : Input}, command'.keys = [] →
      (Except.ok (command', rest') : Except Fault _) ≠ .ok (command, rest) := by
    intro command' rest' hnil heq
    rw [(Prod.mk.inj (Except.ok.inj heq)).1] at hnil
    exact hkeys hnil
  unfold readCommand at h
  split at h
  · rename_i behind hnext
    obtain ⟨⟨items, rest'⟩, hparse, h⟩ := bind_eq_ok.mp h
    obtain ⟨hcommand, rfl⟩ := Prod.mk.inj (Except.ok.inj h)
    obtain ⟨hitems, rfl⟩ := unlessEmpty_eq hrejected hcommand
    obtain ⟨pairs, c, rfl, hmax, hc, rfl⟩ := (parseWrite_iff hitems).mp hparse
    have hne : pairs ≠ [] := by simpa using hitems
    left
    have hinput : input = text "WRITE " ++ _ := (getNext_list_iff rfl).mp hnext
    refine ⟨pairs, c, ⟨hne, hmax⟩, hc, ?_, hinput⟩
    simp only [JobCommand.keys, List.map_map]
    rfl
  · rename_i behind hnext
    obtain ⟨⟨items, rest'⟩, hparse, h⟩ := bind_eq_ok.mp h
    obtain ⟨hcommand, rfl⟩ := Prod.mk.inj (Except.ok.inj h)
    obtain ⟨hitems, rfl⟩ := unlessEmpty_eq hrejected hcommand
    obtain ⟨keys, c, hcount, hc, rfl, rfl⟩ := parseReadDelete_keys hitems hparse
    right
    have hinput : input = text "READ " ++ _ := (getNext_list_iff rfl).mp hnext
    exact ⟨text "READ [", by simp, keys, c, hcount, hc, rfl, hinput⟩
  · rename_i behind hnext
    obtain ⟨⟨items, rest'⟩, hparse, h⟩ := bind_eq_ok.mp h
    obtain ⟨hcommand, rfl⟩ := Prod.mk.inj (Except.ok.inj h)
    obtain ⟨hitems, rfl⟩ := unlessEmpty_eq hrejected hcommand
    obtain ⟨keys, c, hcount, hc, rfl, rfl⟩ := parseReadDelete_keys hitems hparse
    right
    have hinput : input = text "DELETE " ++ _ := (getNext_list_iff rfl).mp hnext
    exact ⟨text "DELETE [", by simp, keys, c, hcount, hc, rfl, hinput⟩
  · exact absurd h (hnone rfl)
  · obtain ⟨⟨status, delay, thread, rest'⟩, -, h⟩ := bind_eq_ok.mp h
    refine absurd h (hnone ?_)
    split_ifs <;> rfl
  · exact absurd h (hnone rfl)
  · exact absurd h (hnone rfl)
  · exact absurd h (hnone rfl)
  · exact absurd h (hnone rfl)
  · exact absurd h (hnone rfl)

/-- **One command.**  Whatever is in front of the parser, the keys it passes on have an index exactly
if those of a list that is there start with a letter or a digit. -/
lemma keysInTable_iff (stale : List Byte) (input : Input) :
    (∀ command rest, readCommand stale input = .ok (command, rest) → command.KeysInTable) ↔
      ListKeysAlnum input := by
  constructor
  · intro h
    constructor
    · rintro pairs c rest hcount hc rfl p hp
      have hkeys := h _ _ (readCommand_write stale hcount.1 hcount.2 hc rest)
      have hmem : p.1.str ∈ (JobCommand.Write (pairs.map Token.strs)).keys :=
        List.mem_map.mpr ⟨Token.strs p, List.mem_map_of_mem hp, rfl⟩
      exact Token.inTable_str.mp (hkeys _ hmem).2
    · rintro word hword keys c rest hcount hc rfl key hkey
      have hmem : key.str ∈ keys.map Token.str := List.mem_map_of_mem hkey
      simp only [List.mem_cons, List.not_mem_nil, or_false] at hword
      rcases hword with rfl | rfl
      · have hkeys := h _ _ (readCommand_read stale hcount.1 hcount.2 hc rest)
        exact Token.inTable_str.mp (hkeys _ hmem).2
      · have hkeys := h _ _ (readCommand_delete stale hcount.1 hcount.2 hc rest)
        exact Token.inTable_str.mp (hkeys _ hmem).2
  · intro h command rest hread key hkey
    refine ⟨key.prop, ?_⟩
    rcases readCommand_keys (List.ne_nil_of_mem hkey) hread with
      ⟨pairs, c, hcount, hc, hkeys, hinput⟩ | ⟨word, hword, keys, c, hcount, hc, hkeys, hinput⟩
    · rw [hkeys] at hkey
      obtain ⟨p, hp, rfl⟩ := List.mem_map.mp hkey
      exact Token.inTable_str.mpr (h.1 pairs c rest hcount hc hinput p hp)
    · rw [hkeys] at hkey
      obtain ⟨token, htoken, rfl⟩ := List.mem_map.mp hkey
      exact Token.inTable_str.mpr (h.2 word hword keys c rest hcount hc hinput token htoken)

/-! ## Sessions -/

/-- The key array of an operation holds a string, and it has an index. -/
def Operation.KeyInTable : Operation → Prop
  | Disconnect => True
  | Subscribe key => ∃ s, readBuffer key = .ok s ∧ InTable s
  | Unsubscribe key => ∃ s, readBuffer key = .ok s ∧ InTable s

/-- A letter or a digit behind the operation code, and a NUL somewhere. -/
def Block.KeyAlnum (block : Block) : Prop :=
  isAlnum (block.val.tail.headD 0) = true ∧ (0 : Byte) ∈ block.val.tail

lemma readBuffer_inTable_iff {buffer : List Byte} :
    (∃ s, readBuffer buffer = .ok s ∧ InTable s) ↔
      isAlnum (buffer.headD 0) = true ∧ (0 : Byte) ∈ buffer := by
  rw [readBuffer]
  split_ifs with hnul
  · constructor
    · rintro ⟨s, hs, h⟩
      obtain rfl := Except.ok.inj hs
      rw [inTable_iff, CString.StartsAlnum, CString.ofBuffer_first] at h
      exact ⟨h, hnul⟩
    · rintro ⟨h, -⟩
      refine ⟨_, rfl, ?_⟩
      rw [inTable_iff, CString.StartsAlnum, CString.ofBuffer_first]
      exact h
  · constructor
    · rintro ⟨s, hs, -⟩
      cases hs
    · rintro ⟨-, h⟩
      exact absurd h hnul

/-- **One request.**  The block is decoded to an operation whose key has an index, or to none with a
key. -/
lemma dispatch_keyInTable_iff (block : Block) :
    (∀ operation, dispatch block.val = some operation → operation.KeyInTable) ↔
      (block.first = 3 ∨ block.first = 4 → block.KeyAlnum) := by
  have htail : block.val.tail.length = keyNodeSize := by
    rw [List.length_tail, block.prop]
    rfl
  have hkey : (∃ s, readBuffer (strncpy keyNodeSize (.ofBuffer block.val.tail)) = .ok s ∧ InTable s)
      ↔ block.KeyAlnum := by
    rw [readBuffer_key htail]
    exact readBuffer_inTable_iff
  rw [dispatch_eq]
  show _ ↔ (block.val.headD 0 = 3 ∨ block.val.headD 0 = 4 → block.KeyAlnum)
  rw [← hkey]
  split_ifs with h₂ h₃ h₄
  · simp [-List.headD_eq_head?_getD, h₂, Operation.KeyInTable]
  · simp [-List.headD_eq_head?_getD, h₃, Operation.KeyInTable]
  · simp [-List.headD_eq_head?_getD, h₄, Operation.KeyInTable]
  · simp [-List.headD_eq_head?_getD, h₃, h₄]

/-! ## Exactly when the keys are in range -/

/-- **Exactly when every table access is in range.**  For every job, whatever its file holds and
whatever the other threads do to the table: the keys of the commands it executes end in their buffers
and have an index if and only if, at each offset its parser gets to, a list that is there has a
letter or a digit at the front of every key.  For every request message: the key that the session
loop passes on is a string with an index if and only if a subscription request has a letter or a
digit behind its code, and a NUL somewhere. -/
theorem keys_in_table_iff (env : JobEnvironment) (job : Job) (block : Block) :
    ((∀ j, job.Reaches env j → ∀ command j', j.next env = .ok (command, j') →
        command.KeysInTable) ↔ ∀ j, job.Reaches env j → ListKeysAlnum j.input) ∧
      ((∀ operation, dispatch block.val = some operation → operation.KeyInTable) ↔
        (block.first = 3 ∨ block.first = 4 → block.KeyAlnum)) := by
  refine ⟨forall₂_congr fun j _ => ?_, dispatch_keyInTable_iff block⟩
  rw [← keysInTable_iff (env.stale j.commands.length)]
  constructor
  · intro h command rest hread
    exact h command { j with input := rest, commands := j.commands ++ [command] } (by
      simp only [Job.next, hread, ok_bind, pure_eq_ok])
  · intro h command j' hnext
    exact h command j'.input (Job.next_eq_ok hnext)

/-- A job that writes the key `-`, and a subscription to 41 bytes without a NUL. -/
theorem punctuation_key_out_of_range :
    (∃ command job', (Job.start (text "WRITE [(-,x)]\n") .createHashTable (.lit "one.job") 0).next
        calmEnvironment = .ok (command, job') ∧ ¬ command.KeysInTable ∧
        job'.execute calmEnvironment command = .error .badIndex) ∧
      ∃ (block : Block) (operation : Operation), block.val = 3 :: List.replicate 41 (char 'a') ∧
        dispatch block.val = some operation ∧ ¬ operation.KeyInTable := by
  constructor
  · refine ⟨.Write [(.lit "-", .lit "x")], _, rfl, ?_, rfl⟩
    intro h
    have hkey := (h (.lit "-") (by decide)).2
    exact absurd (inTable_iff.mp hkey) (by decide)
  · refine ⟨⟨3 :: List.replicate 41 (char 'a'), by decide⟩, .Subscribe _, rfl, rfl, ?_⟩
    rintro ⟨key, hkey, -⟩
    have hfault : readBuffer (strncpy keyNodeSize (.ofBuffer (List.replicate 41 (char 'a'))))
        = .error .outOfBounds := by decide +kernel
    exact absurd (hfault.symm.trans hkey) (by simp)

end Kvs
