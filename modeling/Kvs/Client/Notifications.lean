import Kvs.Common.Reads
import Kvs.Server.JobExecution

/-!
# Notifications on the way to the terminal

The server writes each notification as it is, `(key,value)` or `(key,DELETED)`, with nothing between
one and the next.  The client reads blocks of 40 bytes and writes each to standard output when it is
complete.  So notifications come out in blocks: of the stream its first 40, 80, … bytes, and when the
server closes the FIFO in the middle of a block `read_all` says so with a 0, and the block is dropped.

What a job sends to one subscriber is such a stream, whatever is in its file (`Job.runLoop_sent`).
However the reads split the stream, the output is what there is of it in whole blocks, and it is the
stream exactly if that has a multiple of 40 bytes (`notifications_complete_iff`).
-/

namespace Kvs

/-! ## What is sent -/

/-- A notification of the server. -/
inductive ServerMessage where
  | Written (key value : Str)
  | Deleted (key : Str)

/-- Its bytes. -/
def ServerMessage.bytes : ServerMessage → List Byte
  | Written key value => pairText key.val value.val
  | Deleted key => deletedText key.val

/-- What `write_pair` sends is a notification of that pair. -/
lemma HashTable.writePair_sent {mem : ℕ → Ptr} {ht ht' : HashTable} {key value : Str}
    {sent : List Notification} (h : ht.writePair mem key.val value.val = .ok (ht', sent)) :
    ∀ n ∈ sent, n.message = (ServerMessage.Written key value).bytes := by
  obtain ⟨index, hindex, h⟩ := bind_eq_ok.mp h
  cases hnode : findNode key.val (ht.table index) with
  | none =>
      simp only [hnode, pure_eq_ok] at h
      obtain ⟨-, rfl⟩ := Prod.mk.inj (Except.ok.inj h)
      simp
  | some keyNode =>
      simp only [hnode, bind_eq_ok] at h
      obtain ⟨buffer, hbuffer, sent', hnotify, h⟩ := h
      obtain ⟨-, rfl⟩ := Prod.mk.inj (Except.ok.inj h)
      obtain ⟨fds, -, hfds⟩ := bind_eq_ok.mp hnotify
      obtain rfl := Except.ok.inj hfds
      rw [sprintf] at hbuffer
      split_ifs at hbuffer
      obtain rfl := Except.ok.inj hbuffer
      intro n hn
      obtain ⟨fd, -, rfl⟩ := List.mem_map.mp hn
      show pairText keyNode.key value.val = pairText key.val value.val
      rw [KeyedList.key_of_find hnode]

/-- What `delete_pair` sends says that the key is gone. -/
lemma HashTable.deletePair_sent {ht ht' : HashTable} {key : Str} {status : ℤ}
    {sent : List Notification} (h : ht.deletePair key.val = .ok (status, ht', sent)) :
    ∀ n ∈ sent, n.message = (ServerMessage.Deleted key).bytes := by
  obtain ⟨index, hindex, h⟩ := bind_eq_ok.mp h
  cases hnode : findNode key.val (ht.table index) with
  | none =>
      simp only [hnode, pure_eq_ok] at h
      obtain ⟨-, h⟩ := Prod.mk.inj (Except.ok.inj h)
      obtain ⟨-, rfl⟩ := Prod.mk.inj h
      simp
  | some keyNode =>
      simp only [hnode, bind_eq_ok] at h
      obtain ⟨buffer, hbuffer, ⟨fds, subs⟩, -, h⟩ := h
      obtain ⟨-, h⟩ := Prod.mk.inj (Except.ok.inj h)
      obtain ⟨-, rfl⟩ := Prod.mk.inj h
      rw [sprintf] at hbuffer
      split_ifs at hbuffer
      obtain rfl := Except.ok.inj hbuffer
      intro n hn
      obtain ⟨fd, -, rfl⟩ := List.mem_map.mp hn
      show deletedText keyNode.key = deletedText key.val
      rw [KeyedList.key_of_find hnode]

/-- These notifications are of pairs and keys. -/
def AreMessages (sent : List Notification) : Prop :=
  ∀ n ∈ sent, ∃ message : ServerMessage, n.message = message.bytes

lemma areMessages_nil : AreMessages [] := nofun

lemma AreMessages.append {sent sent' : List Notification} (h : AreMessages sent)
    (h' : AreMessages sent') : AreMessages (sent ++ sent') := by
  intro n hn
  rcases List.mem_append.mp hn with hn | hn
  · exact h n hn
  · exact h' n hn

/-- To one descriptor go messages, one after the other. -/
lemma AreMessages.exists_messages {sent : List Notification} (h : AreMessages sent) (fd : Fd) :
    ∃ messages : List ServerMessage, (sent.filter fun n => n.fd = fd).flatMap Notification.message
      = messages.flatMap ServerMessage.bytes := by
  induction sent with
  | nil => exact ⟨[], rfl⟩
  | cons n sent ih =>
      obtain ⟨messages, hmessages⟩ := ih fun n' hn' => h n' (List.mem_cons_of_mem _ hn')
      obtain ⟨message, hmessage⟩ := h n (by simp)
      by_cases hfd : n.fd = fd
      · refine ⟨message :: messages, ?_⟩
        rw [List.filter_cons_of_pos (by simpa using hfd), List.flatMap_cons, List.flatMap_cons,
          hmessage, hmessages]
      · refine ⟨messages, ?_⟩
        rw [List.filter_cons_of_neg (by simpa using hfd), hmessages]

/-- A `WRITE`, by induction over its pairs. -/
lemma HashTable.kvsWrite_sent {mem : ℕ → Ptr} {pairs : List (Str × Str)} {ht ht' : HashTable}
    {sent : List Notification} (h : ht.kvsWrite mem pairs = .ok (ht', sent)) : AreMessages sent := by
  induction pairs generalizing ht sent with
  | nil =>
      obtain ⟨-, rfl⟩ := Prod.mk.inj (Except.ok.inj h)
      exact areMessages_nil
  | cons p pairs ih =>
      obtain ⟨⟨ht₁, sent₁⟩, hfirst, h⟩ := bind_eq_ok.mp h
      obtain ⟨⟨ht₂, sent₂⟩, hrest, h⟩ := bind_eq_ok.mp h
      obtain ⟨rfl, rfl⟩ := Prod.mk.inj (Except.ok.inj h)
      have hpair : AreMessages sent₁ := fun n hn => ⟨_, HashTable.writePair_sent hfirst n hn⟩
      exact hpair.append (ih hrest)

/-- A `DELETE`, by induction over its keys. -/
lemma HashTable.deleteRecords_sent {keys : List Str} {ht ht' : HashTable} {aux aux' : Bool}
    {out : List Byte} {sent : List Notification}
    (h : ht.deleteRecords aux keys = .ok (ht', aux', out, sent)) : AreMessages sent := by
  induction keys generalizing ht aux out sent with
  | nil =>
      obtain ⟨-, -, -, rfl⟩ : ht = ht' ∧ aux = aux' ∧ [] = out ∧ [] = sent := by
        simpa [HashTable.deleteRecords] using h
      exact areMessages_nil
  | cons key keys ih =>
      obtain ⟨⟨status, ht₁, sent₁⟩, hfirst, h⟩ := bind_eq_ok.mp h
      obtain ⟨⟨ht₂, aux₂, out₂, sent₂⟩, hrest, h⟩ := bind_eq_ok.mp h
      obtain ⟨rfl, rfl, -, rfl⟩ : ht₂ = ht' ∧ aux₂ = aux' ∧ _ ∧ sent₁ ++ sent₂ = sent := by simpa using h
      have hkey : AreMessages sent₁ := fun n hn => ⟨_, HashTable.deletePair_sent hfirst n hn⟩
      exact hkey.append (ih hrest)

/-- No other command sends anything. -/
lemma Job.execute_sent {env : JobEnvironment} {job job' : Job} {command : JobCommand}
    {status : Option ℤ} (hsent : AreMessages job.sent)
    (h : job.execute env command = .ok (status, job')) : AreMessages job'.sent := by
  cases command with
  | Write pairs =>
      obtain ⟨⟨ht, sent⟩, hwrite, h⟩ := bind_eq_ok.mp h
      obtain ⟨-, rfl⟩ : _ ∧ _ = job' := by simpa using h
      exact hsent.append (HashTable.kvsWrite_sent hwrite)
  | Delete keys =>
      obtain ⟨⟨ht, out, sent⟩, hdelete, h⟩ := bind_eq_ok.mp h
      obtain ⟨⟨ht₁, aux, records, sent₁⟩, hrecords, hdelete⟩ := bind_eq_ok.mp hdelete
      obtain ⟨-, -, rfl⟩ : _ ∧ _ ∧ sent₁ = sent := by simpa using hdelete
      obtain ⟨-, rfl⟩ : _ ∧ _ = job' := by simpa using h
      exact hsent.append (HashTable.deleteRecords_sent hrecords)
  | Read keys =>
      obtain ⟨out, -, h⟩ := bind_eq_ok.mp h
      obtain ⟨-, rfl⟩ : _ ∧ _ = job' := by simpa using h
      exact hsent
  | Backup =>
      obtain ⟨-, rfl⟩ : _ ∧ _ = job' := by
        simpa only [execute, pure_eq_ok, Except.ok.injEq, Prod.mk.injEq] using h
      rw [(kvsBackup_frame env _).2.2.2.2]
      exact hsent
  | Show | Wait _ | Help | Empty | Rejected | Eoc =>
      obtain ⟨-, rfl⟩ : _ ∧ _ = job' := by simpa [execute] using h
      exact hsent

/-- **What a subscriber is sent is a stream of notifications**, whatever is in the file of the job. -/
theorem Job.runLoop_sent {env : JobEnvironment} {fuel : ℕ} {job job' : Job} {status : ℤ}
    (hsent : AreMessages job.sent) (h : runLoop env fuel job = .ok (status, job')) (fd : Fd) :
    ∃ messages : List ServerMessage, (job'.sent.filter fun n => n.fd = fd).flatMap Notification.message
      = messages.flatMap ServerMessage.bytes := by
  induction fuel generalizing job with
  | zero => cases h
  | succ fuel ih =>
      obtain ⟨⟨command, job₁⟩, hnext, h⟩ := bind_eq_ok.mp h
      obtain ⟨⟨status₁, job₂⟩, hexecute, h⟩ := bind_eq_ok.mp h
      have hsent₁ : AreMessages job₁.sent := by
        obtain ⟨⟨command', input⟩, -, hnext⟩ := bind_eq_ok.mp hnext
        obtain ⟨-, rfl⟩ := Prod.mk.inj (Except.ok.inj hnext)
        exact hsent
      have hsent₂ := Job.execute_sent hsent₁ hexecute
      cases status₁ with
      | none => exact ih hsent₂ h
      | some status₁ =>
          obtain ⟨-, rfl⟩ := Prod.mk.inj (Except.ok.inj h)
          exact hsent₂.exists_messages fd

/-! ## What is written to the terminal -/

/-- Where the handler is: in a `read` that has not returned yet, or at its end. -/
inductive HandlerState where
  | Waiting
  | Finished
  deriving DecidableEq

/-- `while (1)` of `notifications_handler`, given the results of the reads: what it writes to standard
output.  A `read_all` that fails is reported, and the buffer written all the same. -/
def notificationsLoop : ℕ → List ReadResult → List Byte → Bool →
    Except Fault (List Byte × HandlerState)
  | 0, _, _, _ => .error .diverged
  | fuel + 1, results, buffer, intr => do
      let (buffer, intr, state, results) ← readAll maxStringSize results buffer intr
      match state with
      | .Reading _ => pure ([], .Waiting)
      | .Returned result =>
          if result = 0 then pure ([], .Finished)
          else do
            let (output, state) ← notificationsLoop fuel results buffer intr
            pure (buffer ++ output, state)

/-- `notifications_handler`.  As long as nothing is interrupted, each `read_all` takes a result at
least. -/
def notificationsHandler (results : List ReadResult) (buffer : List Byte) :
    Except Fault (List Byte × HandlerState) :=
  notificationsLoop (results.length + 1) results buffer false

/-- A way in which a stream comes through the FIFO: the bytes that each `read` returns. -/
structure Delivery (stream : List Byte) where
  chunks : List (List Byte)
  whole : chunks.flatten = stream
  splits : Splits maxStringSize 0 chunks

/-- The contents of a `char[MAX_STRING_SIZE]` that is not initialised. -/
abbrev StringBuffer := { bytes : List Byte // bytes.length = maxStringSize }

/-- The bytes of a stream that are in whole blocks. -/
def wholeBlocks (stream : List Byte) : List Byte :=
  stream.take (maxStringSize * (stream.length / maxStringSize))

lemma wholeBlocks_short {stream : List Byte} (h : stream.length < maxStringSize) :
    wholeBlocks stream = [] := by
  rw [wholeBlocks, Nat.div_eq_of_lt h, Nat.mul_zero, List.take_zero]

lemma wholeBlocks_append {block : List Byte} (h : block.length = maxStringSize)
    (stream : List Byte) : wholeBlocks (block ++ stream) = block ++ wholeBlocks stream := by
  have hpos : 0 < maxStringSize := by decide
  have hcount : maxStringSize * ((block ++ stream).length / maxStringSize)
      = block.length + maxStringSize * (stream.length / maxStringSize) := by
    rw [List.length_append, h, Nat.add_div_left _ hpos, Nat.mul_succ, Nat.add_comm]
  rw [wholeBlocks, hcount, List.take_length_add_append, wholeBlocks]

/-- Nothing is lost exactly if the last block is complete. -/
lemma wholeBlocks_eq_iff (stream : List Byte) :
    wholeBlocks stream = stream ↔ maxStringSize ∣ stream.length := by
  rw [wholeBlocks, List.take_eq_self_iff]
  constructor
  · intro h
    exact ⟨_, le_antisymm h (Nat.mul_div_le _ _)⟩
  · intro h
    rw [Nat.mul_div_cancel' h]

/-- **The loop writes the whole blocks**, by induction over the fuel: each round leaves fewer chunks. -/
lemma notificationsLoop_eq {fuel : ℕ} {buffer : List Byte} {chunks : List (List Byte)}
    (hbuffer : buffer.length = maxStringSize) (hsplits : Splits maxStringSize 0 chunks)
    (hfuel : chunks.length < fuel) :
    notificationsLoop fuel (endingReads chunks) buffer false
      = .ok (wholeBlocks chunks.flatten, .Finished) := by
  have hpos : 0 < buffer.length := by
    rw [hbuffer]
    decide
  induction fuel generalizing buffer chunks with
  | zero => exact absurd hfuel (Nat.not_lt_zero _)
  | succ fuel ih =>
      rw [← hbuffer] at hsplits
      rcases readAll_endingReads hpos hsplits with ⟨buffer', hend, hsize, hread⟩ |
        ⟨block, rest, hflatten, hblock, hblocks, hshorter, hread⟩
      · rw [hbuffer] at hend hread
        simp only [notificationsLoop, hread, ok_bind, if_true, pure_eq_ok, wholeBlocks_short hend]
      · rw [hbuffer] at hblock hread hblocks
        have hone : ¬ (1 : ℤ) = 0 := by decide
        have hrest := ih hblock hblocks (by omega) (by omega)
        simp only [notificationsLoop, hread, ok_bind, if_neg hone, hrest, pure_eq_ok, hflatten,
          wholeBlocks_append hblock]

/-- **Exactly when all notifications come out complete.**  For every sequence of notifications and
every way the reads split them: the handler ends when the server closes the FIFO, what it has written
are the whole blocks of the stream, and that is the stream if and only if the notifications have a
multiple of 40 bytes. -/
theorem notifications_complete_iff (messages : List ServerMessage)
    (delivery : Delivery (messages.flatMap ServerMessage.bytes)) (buffer : StringBuffer) :
    ∃ output, notificationsHandler (endingReads delivery.chunks) buffer.val
        = .ok (output, .Finished) ∧
      output <+: messages.flatMap ServerMessage.bytes ∧
      (output = messages.flatMap ServerMessage.bytes ↔
        40 ∣ (messages.flatMap ServerMessage.bytes).length) := by
  have hfuel : delivery.chunks.length < (endingReads delivery.chunks).length + 1 := by
    simp only [endingReads, List.length_append, List.length_map]
    omega
  have hloop := notificationsLoop_eq buffer.prop delivery.splits hfuel
  rw [delivery.whole] at hloop
  exact ⟨_, hloop, List.take_prefix _ _, wholeBlocks_eq_iff _⟩

/-- A single notification of five bytes never comes out. -/
theorem notification_lost : ∃ (message : ServerMessage) (delivery : Delivery message.bytes)
    (buffer : StringBuffer), message.bytes = text "(a,x)" ∧
      notificationsHandler (endingReads delivery.chunks) buffer.val = .ok ([], .Finished) := by
  refine ⟨.Written (.lit "a") (.lit "x"), ⟨[text "(a,x)"], by decide, by decide, by decide, trivial⟩,
    ⟨List.replicate 40 0, by decide⟩, by decide, ?_⟩
  exact notificationsLoop_eq rfl ⟨by decide, by decide, trivial⟩ (by decide)

end Kvs
