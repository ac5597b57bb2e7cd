import Kvs.Core.ReaderWriter
import Kvs.Server.Batches

/-!
# Batches are serializable

The job threads share one table under `tablelock`: `kvs_write` and `kvs_delete` take it for
writing, `kvs_read` and `kvs_show` for reading, and each works through its batch pair by pair, key
by key or node by node.  This module cuts the four operations into those steps
(`TableCommand.step`), shows that the steps add up to the operations (`tableCommands`, whose fields
are the obligations of `Core/ReaderWriter.lean`, and `whole_eq_run`), and draws the conclusion.

A `SHOW` keeps no copy of the table.  Its progress is a chain and a position in it, and each step
looks up what is there at that moment; that it shows one state of the table all the same is part of
what is proved.
-/

namespace Kvs

/-- The operations that take the table lock. -/
inductive TableCommand where
  | Write (pairs : List (Str × Str))
  | Read (keys : List Str)
  | Delete (keys : List Str)
  | Show
  deriving DecidableEq

/-- How far an operation has come: the rest of its batch, before and behind the opening bracket of a
`READ`, with the flag of a `DELETE`, or the next node of a `SHOW`. -/
inductive Progress where
  | Writing (pairs : List (Str × Str))
  | Opening (keys : List Str)
  | Reading (keys : List Str)
  | Deleting (aux : Bool) (keys : List Str)
  | Showing (index position : ℕ)
  | Finished

namespace HashTable

/-- What `SHOW` prints from chain `index` on. -/
def chainsFrom (ht : HashTable) (index : ℕ) : List Byte :=
  ((List.finRange tableSize).drop index).flatMap fun i => (ht.table i).flatMap showRecord

/-- What `SHOW` prints from the node at a position of chain `index` on. -/
def showFrom (ht : HashTable) (index position : ℕ) : List Byte :=
  if h : index < tableSize then
    ((ht.table ⟨index, h⟩).drop position).flatMap showRecord ++ ht.chainsFrom (index + 1)
  else []

lemma chainsFrom_of_lt (ht : HashTable) {index : ℕ} (h : index < tableSize) :
    ht.chainsFrom index
      = (ht.table ⟨index, h⟩).flatMap showRecord ++ ht.chainsFrom (index + 1) := by
  have hlen : index < (List.finRange tableSize).length := by rwa [List.length_finRange]
  rw [chainsFrom, List.drop_eq_getElem_cons hlen, List.flatMap_cons, List.getElem_finRange]
  rfl

lemma showFrom_zero (ht : HashTable) (index : ℕ) : ht.showFrom index 0 = ht.chainsFrom index := by
  rw [showFrom]
  split_ifs with h
  · rw [ht.chainsFrom_of_lt h, List.drop_zero]
  · rw [chainsFrom, List.drop_eq_nil_of_le (by rw [List.length_finRange]; omega)]
    rfl

lemma kvsShow_eq (ht : HashTable) : ht.kvsShow = ht.showFrom 0 0 := by
  rw [showFrom_zero]
  rfl

/-- A node is shown, and what comes after it is left. -/
lemma showFrom_node (ht : HashTable) {index position : ℕ} (h : index < tableSize)
    {keyNode : KeyNode} (hnode : (ht.table ⟨index, h⟩)[position]? = some keyNode) :
    ht.showFrom index position = showRecord keyNode ++ ht.showFrom index (position + 1) := by
  obtain ⟨hlt, rfl⟩ := List.getElem?_eq_some_iff.mp hnode
  rw [showFrom, dif_pos h, showFrom, dif_pos h, List.drop_eq_getElem_cons hlt, List.flatMap_cons,
    List.append_assoc]

/-- A chain that is through leaves the next one. -/
lemma showFrom_end (ht : HashTable) {index position : ℕ} (h : index < tableSize)
    (hnode : (ht.table ⟨index, h⟩)[position]? = none) :
    ht.showFrom index position = ht.showFrom (index + 1) 0 := by
  rw [showFrom, dif_pos h, List.drop_eq_nil_of_le (List.getElem?_eq_none_iff.mp hnode),
    showFrom_zero]
  rfl

end HashTable

/-! ## The operations in steps -/

namespace TableCommand

/-- The operations for which `tablelock` is taken for reading. -/
def reads : TableCommand → Bool
  | Write _ => false
  | Read _ => true
  | Delete _ => false
  | Show => true

/-- The operation behind its lock. -/
def start : TableCommand → Progress
  | Write pairs => .Writing pairs
  | Read keys => .Opening keys
  | Delete keys => .Deleting false keys
  | Show => .Showing 0 0

/-- One iteration of the operation's loop, or one of its writes outside the loop: the table, how far
it is now and what it has put out.  Nothing when the lock is to be given back. -/
def step (mem : ℕ → Ptr) : TableCommand → HashTable → Progress →
    Except Fault (Option (HashTable × Progress × List Byte))
  | Write _, ht, .Writing ((key, value) :: pairs) => do
      let (ht, _) ← ht.writePair mem key value
      pure (some (ht, .Writing pairs, []))
  | Read _, ht, .Opening keys => pure (some (ht, .Reading keys, text "["))
  | Read _, ht, .Reading (key :: keys) => do
      let result ← ht.readPair key
      pure (some (ht, .Reading keys, record (readText key result)))
  | Read _, ht, .Reading [] => pure (some (ht, .Finished, text "]\n"))
  | Delete _, ht, .Deleting aux (key :: keys) => do
      let (status, ht, _) ← ht.deletePair key
      let (aux, out) := HashTable.deleteRecord aux key.val status
      pure (some (ht, .Deleting aux keys, out))
  | Delete _, ht, .Deleting aux [] => pure (some (ht, .Finished, HashTable.closeRecords aux))
  | Show, ht, .Showing index position =>
      if h : index < tableSize then
        match (ht.table ⟨index, h⟩)[position]? with
        | some keyNode =>
            pure (some (ht, .Showing index (position + 1), HashTable.showRecord keyNode))
        | none => pure (some (ht, .Showing (index + 1) 0, []))
      else pure none
  | _, _, _ => pure none

/-- What is left of the operation, in one go. -/
def rest (mem : ℕ → Ptr) : TableCommand → HashTable → Progress →
    Except Fault (HashTable × List Byte)
  | Write _, ht, .Writing pairs => do
      let (ht, _) ← ht.kvsWrite mem pairs
      pure (ht, [])
  | Read _, ht, .Opening keys => do
      let out ← ht.kvsRead keys
      pure (ht, out)
  | Read _, ht, .Reading keys => do
      let records ← ht.readRecords keys
      pure (ht, records ++ text "]\n")
  | Delete _, ht, .Deleting aux keys => do
      let (ht, aux, records, _) ← ht.deleteRecords aux keys
      pure (ht, records ++ HashTable.closeRecords aux)
  | Show, ht, .Showing index position => pure (ht, ht.showFrom index position)
  | _, ht, _ => pure (ht, [])

/-- The operation as `operations.c` has it: the table after it and the bytes it writes. -/
def run (mem : ℕ → Ptr) (ht : HashTable) : TableCommand → Except Fault (HashTable × List Byte)
  | Write pairs => do
      let (ht, _) ← ht.kvsWrite mem pairs
      pure (ht, [])
  | Read keys => do
      let out ← ht.kvsRead keys
      pure (ht, out)
  | Delete keys => do
      let (ht, out, _) ← ht.kvsDelete keys
      pure (ht, out)
  | Show => pure (ht, ht.kvsShow)

variable {mem : ℕ → Ptr} {c : TableCommand} {ht ht' : HashTable} {l l' : Progress}
  {out : List Byte}

/-- A reading operation leaves the table alone. -/
lemma step_reads (hreads : c.reads = true) (h : step mem c ht l = .ok (some (ht', l', out))) :
    ht' = ht := by
  unfold step at h
  split at h
  · cases hreads
  · obtain ⟨rfl, -⟩ : ht = ht' ∧ _ := by simpa using h
    rfl
  · obtain ⟨result, -, h⟩ := bind_eq_ok.mp h
    obtain ⟨rfl, -⟩ : ht = ht' ∧ _ := by simpa using h
    rfl
  · obtain ⟨rfl, -⟩ : ht = ht' ∧ _ := by simpa using h
    rfl
  · cases hreads
  · cases hreads
  · split at h
    · split at h
      · obtain ⟨rfl, -⟩ : ht = ht' ∧ _ := by simpa using h
        rfl
      · obtain ⟨rfl, -⟩ : ht = ht' ∧ _ := by simpa using h
        rfl
    · simp at h
  · simp at h

/-- When the lock is to be given back, nothing is left. -/
lemma rest_done (h : step mem c ht l = .ok none) : rest mem c ht l = .ok (ht, []) := by
  cases c with
  | Write pairs' =>
      cases l with
      | Writing pairs =>
          cases pairs with
          | nil => rfl
          | cons p pairs =>
              obtain ⟨⟨ht', sent⟩, -, h⟩ := bind_eq_ok.mp h
              simp at h
      | Opening | Reading | Deleting | Showing | Finished => rfl
  | Read keys' =>
      cases l with
      | Opening keys => simp [step] at h
      | Reading keys =>
          cases keys with
          | nil => simp [step] at h
          | cons key keys =>
              obtain ⟨result, -, h⟩ := bind_eq_ok.mp h
              simp at h
      | Writing | Deleting | Showing | Finished => rfl
  | Delete keys' =>
      cases l with
      | Deleting aux keys =>
          cases keys with
          | nil => simp [step] at h
          | cons key keys =>
              obtain ⟨⟨status, ht', sent⟩, -, h⟩ := bind_eq_ok.mp h
              simp at h
      | Writing | Opening | Reading | Showing | Finished => rfl
  | Show =>
      cases l with
      | Showing index position =>
          simp only [step] at h
          split at h
          · split at h <;> simp at h
          · rename_i hlt
            simp only [rest, HashTable.showFrom, dif_neg hlt, pure_eq_ok]
      | Writing | Opening | Reading | Deleting | Finished => rfl

/-- **A step is a step of the whole**: what was left is what it puts out and what is left now. -/
lemma rest_step (h : step mem c ht l = .ok (some (ht', l', out))) :
    rest mem c ht l = (rest mem c ht' l').map fun r => (r.1, out ++ r.2) := by
  cases c with
  | Write pairs' =>
      cases l with
      | Writing pairs =>
          cases pairs with
          | nil => simp [step] at h
          | cons p pairs =>
              obtain ⟨⟨ht₁, sent⟩, hwrite, h⟩ := bind_eq_ok.mp h
              obtain ⟨rfl, rfl, rfl⟩ : ht₁ = ht' ∧ Progress.Writing pairs = l' ∧ [] = out := by
                simpa using h
              simp only [rest, HashTable.kvsWrite, hwrite, ok_bind]
              cases ht₁.kvsWrite mem pairs <;> rfl
      | Opening | Reading | Deleting | Showing | Finished => simp [step] at h
  | Read keys' =>
      cases l with
      | Opening keys =>
          obtain ⟨rfl, rfl, rfl⟩ : ht = ht' ∧ Progress.Reading keys = l' ∧ text "[" = out := by
            simpa [step] using h
          simp only [rest, HashTable.kvsRead]
          cases ht.readRecords keys with
          | error e => rfl
          | ok records => simp [Except.map, List.append_assoc]
      | Reading keys =>
          cases keys with
          | nil =>
              obtain ⟨rfl, rfl, rfl⟩ : ht = ht' ∧ Progress.Finished = l' ∧ text "]\n" = out := by
                simpa [step] using h
              simp [rest, HashTable.readRecords, Except.map]
          | cons key keys =>
              obtain ⟨result, hread, h⟩ := bind_eq_ok.mp h
              obtain ⟨rfl, rfl, rfl⟩ : ht = ht' ∧ Progress.Reading keys = l' ∧
                  record (readText key result) = out := by simpa using h
              simp only [rest, HashTable.readRecords, hread, ok_bind]
              cases ht.readRecords keys with
              | error e => rfl
              | ok records => simp [Except.map, List.append_assoc]
      | Writing | Deleting | Showing | Finished => simp [step] at h
  | Delete keys' =>
      cases l with
      | Deleting aux keys =>
          cases keys with
          | nil =>
              obtain ⟨rfl, rfl, rfl⟩ : ht = ht' ∧ Progress.Finished = l' ∧
                  HashTable.closeRecords aux = out := by simpa [step] using h
              simp [rest, HashTable.deleteRecords, Except.map]
          | cons key keys =>
              obtain ⟨⟨status, ht₁, sent⟩, hdelete, h⟩ := bind_eq_ok.mp h
              obtain ⟨rfl, rfl, rfl⟩ : ht₁ = ht' ∧
                  Progress.Deleting (HashTable.deleteRecord aux key.val status).1 keys = l' ∧
                  (HashTable.deleteRecord aux key.val status).2 = out := by simpa using h
              simp only [rest, HashTable.deleteRecords, hdelete, ok_bind]
              cases ht₁.deleteRecords (HashTable.deleteRecord aux key.val status).1 keys with
              | error e => rfl
              | ok result => simp [Except.map, List.append_assoc]
      | Writing | Opening | Reading | Showing | Finished => simp [step] at h
  | Show =>
      cases l with
      | Showing index position =>
          simp only [step] at h
          split at h
          · rename_i hlt
            cases hnode : (ht.table ⟨index, hlt⟩)[position]? with
            | some keyNode =>
                rw [hnode] at h
                obtain ⟨rfl, rfl, rfl⟩ : ht = ht' ∧ Progress.Showing index (position + 1) = l' ∧
                    HashTable.showRecord keyNode = out := by simpa using h
                simp [rest, ht.showFrom_node hlt hnode, Except.map]
            | none =>
                rw [hnode] at h
                obtain ⟨rfl, rfl, rfl⟩ : ht = ht' ∧ Progress.Showing (index + 1) 0 = l' ∧
                    [] = out := by simpa using h
                simp [rest, ht.showFrom_end hlt hnode, Except.map]
          · simp at h
      | Writing | Opening | Reading | Deleting | Finished => simp [step] at h

end TableCommand

/-- The operations of the table as commands under its lock. -/
def tableCommands (mem : ℕ → Ptr) : Commands HashTable TableCommand Progress Byte Fault where
  reads := TableCommand.reads
  start := TableCommand.start
  step := TableCommand.step mem
  rest := TableCommand.rest mem
  step_reads := TableCommand.step_reads
  rest_done := TableCommand.rest_done
  rest_step := TableCommand.rest_step

/-- **The steps add up to the operation.** -/
lemma whole_eq_run (mem : ℕ → Ptr) (c : TableCommand) (ht : HashTable) :
    (tableCommands mem).whole c ht = c.run mem ht := by
  cases c with
  | Write pairs => rfl
  | Read keys => rfl
  | Delete keys =>
      simp only [Commands.whole, tableCommands, TableCommand.start, TableCommand.rest,
        TableCommand.run, HashTable.kvsDelete]
      cases ht.deleteRecords false keys <;> rfl
  | Show =>
      simp only [Commands.whole, tableCommands, TableCommand.start, TableCommand.rest,
        TableCommand.run, ht.kvsShow_eq]

/-! ## Safety of the steps -/

/-- The keys an operation has still to look at have a chain. -/
def KeysAhead (_ : TableCommand) : Progress → Prop
  | .Writing pairs => ∀ p ∈ pairs, p.1.val.StartsAlnum
  | .Opening keys => ∀ key ∈ keys, key.val.StartsAlnum
  | .Reading keys => ∀ key ∈ keys, key.val.StartsAlnum
  | .Deleting _ keys => ∀ key ∈ keys, key.val.StartsAlnum
  | .Showing _ _ => True
  | .Finished => True

/-- The keys of an operation have a chain. -/
def TableCommand.KeysStartAlnum (c : TableCommand) : Prop := KeysAhead c c.start

instance (c : TableCommand) : Decidable c.KeysStartAlnum :=
  match c with
  | .Write pairs => inferInstanceAs (Decidable (∀ p ∈ pairs, p.1.val.StartsAlnum))
  | .Read keys => inferInstanceAs (Decidable (∀ key ∈ keys, key.val.StartsAlnum))
  | .Delete keys => inferInstanceAs (Decidable (∀ key ∈ keys, key.val.StartsAlnum))
  | .Show => inferInstanceAs (Decidable True)

/-- On a table that holds a map the steps succeed, and leave one that does. -/
lemma tableCommands_succeeds {mem : ℕ → Ptr} (hmem : ZeroFilled mem) :
    (tableCommands mem).Succeeds (fun ht => ∃ m, ht.Holds m) KeysAhead := by
  rintro c ht l ⟨m, hholds⟩ hkeys
  have hsame : ∀ {l' : Progress} {out : List Byte}, KeysAhead c l' →
      ∀ s' l'' out', some (ht, l', out) = some (s', l'', out') →
        (∃ m, s'.Holds m) ∧ KeysAhead c l'' := by
    intro l' out hl' s' l'' out' heq
    obtain ⟨rfl, rfl, -⟩ : ht = s' ∧ l' = l'' ∧ out = out' := by simpa using heq
    exact ⟨⟨m, hholds⟩, hl'⟩
  show ∃ result, TableCommand.step mem c ht l = .ok result ∧ _
  unfold TableCommand.step
  split
  · rename_i pairs' key value pairs
    obtain ⟨ht', hwrite, h'⟩ := hholds.writePair hmem (hkeys (key, value) (by simp))
      fun _ => pairText_fits key value
    refine ⟨some (ht', .Writing pairs, []), by simp only [hwrite, ok_bind, pure_eq_ok], ?_⟩
    intro s' l' out heq
    obtain ⟨rfl, rfl, -⟩ : ht' = s' ∧ Progress.Writing pairs = l' ∧ [] = out := by simpa using heq
    exact ⟨⟨_, h'⟩, fun p hp => hkeys p (List.mem_cons_of_mem _ hp)⟩
  · exact ⟨_, rfl, hsame hkeys⟩
  · rename_i keys' key keys
    have hread := hholds.readPair (hkeys key (by simp))
    refine ⟨some (ht, .Reading keys, record (readText key (m.read key))),
      by simp only [hread, ok_bind, pure_eq_ok], hsame ?_⟩
    exact fun k hk => hkeys k (List.mem_cons_of_mem _ hk)
  · exact ⟨_, rfl, hsame trivial⟩
  · rename_i keys' aux key keys
    obtain ⟨ht', hdelete, h'⟩ := hholds.deletePair (hkeys key (by simp)) fun _ => deletedText_fits key
    generalize hrecord : HashTable.deleteRecord aux key.val
      (if (m.read key).isSome then 0 else 1) = record
    refine ⟨some (ht', .Deleting record.1 keys, record.2),
      by simp only [hdelete, hrecord, ok_bind, pure_eq_ok], ?_⟩
    intro s' l' out heq
    obtain ⟨rfl, rfl, -⟩ : ht' = s' ∧ Progress.Deleting record.1 keys = l' ∧ record.2 = out := by
      simpa using heq
    exact ⟨⟨_, h'⟩, fun k hk => hkeys k (List.mem_cons_of_mem _ hk)⟩
  · exact ⟨_, rfl, hsame trivial⟩
  · split
    · split
      · exact ⟨_, rfl, hsame trivial⟩
      · exact ⟨_, rfl, hsame trivial⟩
    · exact ⟨none, rfl, fun _ _ _ heq => by cases heq⟩
  · exact ⟨none, rfl, fun _ _ _ heq => by cases heq⟩

/-! ## Serializability -/

/-- Operations one at a time, each whole: what each writes, and the table at the end. -/
def runSerially (mem : ℕ → Ptr) (ht : HashTable) :
    List TableCommand → Except Fault (List (List Byte) × HashTable)
  | [] => pure ([], ht)
  | c :: commands => do
      let (ht, out) ← c.run mem ht
      let (outs, ht) ← runSerially mem ht commands
      pure (out :: outs, ht)

lemma runSerially_of_serial {ι : Type} {mem : ℕ → Ptr}
    {order : List (ι × TableCommand × List Byte)} {ht ht' : HashTable}
    (h : (tableCommands mem).Serial ht order ht') :
    runSerially mem ht (order.map fun e => e.2.1) = .ok (order.map fun e => e.2.2, ht') := by
  induction order generalizing ht with
  | nil =>
      obtain rfl : ht = ht' := h
      rfl
  | cons entry order ih =>
      obtain ⟨i, c, out⟩ := entry
      obtain ⟨ht₁, hwhole, hrest⟩ := h
      rw [whole_eq_run] at hwhole
      have hserial := ih hrest
      simp only [List.map_cons, runSerially, hwhole, ok_bind, hserial, pure_eq_ok]

/-- **Batches are serializable.**  Any number of threads issue any operations on one table.  In
every state that an interleaving of their steps reaches there is an order of the finished
operations, consistent with the order of each thread, such that

* executing them whole in that order produces, operation by operation, the bytes they wrote;
* the shared table is the one this leads to, whenever no operation that writes holds the lock, and
  so at the end of all threads, and whenever a `READ` or a `SHOW` is under way.

No step fails, if the table held a map at the beginning and the keys have a chain. -/
theorem batches_serializable {ι : Type} [DecidableEq ι] {mem : ℕ → Ptr} (hmem : ZeroFilled mem)
    {ht : HashTable} {program : ι → List TableCommand}
    {s : Threads ι HashTable TableCommand Progress Byte}
    (h : Reachable (LockStep (tableCommands mem)) (Threads.initial ht program) s) :
    (∃ order ht', runSerially mem ht (order.map fun e => e.2.1)
        = .ok (order.map fun e => e.2.2, ht') ∧
      (∀ i, ofThread i order = (s.thread i).done) ∧
      (∀ i, (s.thread i).done.map Prod.fst ++ (s.thread i).running.toList.map Running.command
        ++ (s.thread i).todo = program i) ∧
      ((∀ i r, (s.thread i).running = some r → r.command.reads = true) → s.shared = ht') ∧
      ∀ i r, (s.thread i).running = some r → r.command.reads = true → s.shared = ht') ∧
    ((∃ m, ht.Holds m) → (∀ i, ∀ c ∈ program i, c.KeysStartAlnum) →
      ∀ i r, (s.thread i).running = some r →
        ∃ result, TableCommand.step mem r.command s.shared r.progress = .ok result) := by
  obtain ⟨order, ht', hserial, hfinished, hprogram, hcommitted, hreaders⟩ :=
    LockStep.serializable h
  refine ⟨⟨order, ht', runSerially_of_serial hserial, hfinished, hprogram, hcommitted, hreaders⟩,
    fun hholds hkeys => ?_⟩
  exact (LockStep.no_fault (tableCommands_succeeds hmem) hholds hkeys h).2

/-- One thread that writes two pairs and reads one of them, and one that shows the table. -/
def writeAndShow : Bool → List TableCommand
  | true => [.Write [(.lit "a", .lit "x"), (.lit "b", .lit "y")], .Read [.lit "a"]]
  | false => [.Show]

/-- The `WRITE` is finished; the `READ` and the `SHOW` are under way together, and the `SHOW` has printed
its first node.  The table they look at is the one that the `WRITE` leaves when it is executed alone, and
neither fails at its next step. -/
theorem batches_serializable_small :
    ∃ (s : Threads Bool HashTable TableCommand Progress Byte)
      (order : List (Bool × TableCommand × List Byte)),
      (s.thread true).running = some ⟨.Read [.lit "a"], .Opening [.lit "a"], []⟩ ∧
      (s.thread false).running = some ⟨.Show, .Showing 0 1, text "(a, x)\n"⟩ ∧
      runSerially (fun _ => none) .createHashTable (order.map fun e => e.2.1)
        = .ok (order.map fun e => e.2.2, s.shared) ∧
      ofThread true order = [(.Write [(.lit "a", .lit "x"), (.lit "b", .lit "y")], [])] ∧
      ofThread false order = [] ∧
      (∃ result, TableCommand.step (fun _ => none) (.Read [.lit "a"]) s.shared (.Opening [.lit "a"])
        = .ok result) ∧
      ∃ result, TableCommand.step (fun _ => none) .Show s.shared (.Showing 0 1) = .ok result := by
  have hwrite : Reachable (LockStep (tableCommands fun _ => none))
      (Threads.initial HashTable.createHashTable writeAndShow) _ :=
    (Reachable.refl _).tail (.acquire true rfl rfl fun j r hr => absurd hr (by simp [Threads.initial]))
  have hwritten := ((hwrite.tail (.work true rfl rfl)).tail (.work true rfl rfl)).tail
    (.release true rfl rfl)
  have hread := hwritten.tail (.acquire true rfl rfl fun j r hr => by
    cases j with
    | true => cases hr
    | false => cases hr)
  have hshow := (hread.tail (.acquire false rfl rfl fun j r hr => by
    cases j with
    | true =>
        obtain rfl := Option.some.inj hr
        exact ⟨rfl, rfl⟩
    | false => cases hr)).tail (.work false rfl rfl)
  have hkeys : ∀ i, ∀ c ∈ writeAndShow i, c.KeysStartAlnum := by decide
  obtain ⟨⟨order, ht', hserial, hfinished, -, -, hreaders⟩, hnofault⟩ :=
    batches_serializable (fun _ => rfl) hshow
  have hsteps := hnofault ⟨_, HashTable.holds_createHashTable⟩ hkeys
  have hshared := hreaders false _ rfl rfl
  rw [← hshared] at hserial
  exact ⟨_, order, rfl, rfl, hserial, hfinished true, hfinished false, hsteps true _ rfl,
    hsteps false _ rfl⟩

end Kvs
