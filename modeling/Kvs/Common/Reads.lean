import Kvs.Common.Io

/-!
# `read_all`, from the results of its reads

`Io.lean` follows `read_all` one `read` at a time, in step with the writers, and leaves signals out.
Here is the whole of it as a function of what its reads return, interruptions and errors included: a
reader that only wants to know what is in its buffer afterwards need not know about FIFOs.

Whatever happens, the bytes received stand at the front of the buffer and what was there before them
stands behind (`storedIn`); the result is 1 when the buffer is full, and 0 or -1 when it is not
(`readAll_returned`).
-/

namespace Kvs

/-- What one `read` returns: some bytes, none of them at the end of the file; or -1, with `errno`
`EINTR` or another. -/
inductive ReadResult where
  | Bytes (data : List Byte)
  | Interrupted
  | Error
  deriving DecidableEq

/-- `while (bytes_read < size)` of `read_all`, given the results of its reads: the buffer, the flag,
where `read_all` is, and the results it has left for the next one. -/
def readAllLoop (size : ℕ) : List ReadResult → List Byte → Bool → ℕ →
    Except Fault (List Byte × Bool × ReadAll × List ReadResult)
  | [], buffer, intr, bytesRead => pure (buffer, intr, .Reading bytesRead, [])
  | .Bytes data :: results, buffer, intr, bytesRead => do
      let (buffer, state) ← readAllStep size buffer bytesRead data
      match state with
      | .Reading bytesRead => readAllLoop size results buffer intr bytesRead
      | .Returned result => pure (buffer, intr, .Returned result, results)
  | .Interrupted :: results, buffer, _, bytesRead =>
      if bytesRead = 0 then pure (buffer, true, .Returned (-1), results)
      else readAllLoop size results buffer true bytesRead
  | .Error :: results, buffer, intr, _ => pure (buffer, intr, .Returned (-1), results)

/-- `read_all`.  A flag that is already set is not reset by anyone. -/
def readAll (size : ℕ) (results : List ReadResult) (buffer : List Byte) (intr : Bool) :
    Except Fault (List Byte × Bool × ReadAll × List ReadResult) :=
  if intr then pure (buffer, true, .Returned (-1), results)
  else readAllLoop size results buffer false 0

/-! ## What is in the buffer -/

/-- A buffer with some bytes stored from its beginning. -/
def storedIn (buffer received : List Byte) : List Byte := received ++ buffer.drop received.length

@[simp] lemma storedIn_nil (buffer : List Byte) : storedIn buffer [] = buffer := by simp [storedIn]

lemma storedIn_length {buffer received : List Byte} (h : received.length ≤ buffer.length) :
    (storedIn buffer received).length = buffer.length := by
  rw [storedIn, List.length_append, List.length_drop]
  omega

/-- A buffer that is filled keeps nothing of what it held. -/
lemma storedIn_full {buffer received : List Byte} (h : received.length = buffer.length) :
    storedIn buffer received = received := by
  rw [storedIn, h, List.drop_length, List.append_nil]

/-- More bytes, behind those that are there. -/
lemma storeAt_storedIn {buffer received data : List Byte}
    (h : (received ++ data).length ≤ buffer.length) :
    storeAt (storedIn buffer received) received.length data
      = .ok (storedIn buffer (received ++ data)) := by
  rw [List.length_append] at h
  have hlength : (storedIn buffer received).length = buffer.length := storedIn_length (by omega)
  rw [storeAt, if_pos (by omega)]
  simp [storedIn, List.drop_append]

/-- Bytes for which there is no room are stored past the end. -/
lemma storeAt_storedIn_of_lt {buffer received data : List Byte}
    (hreceived : received.length ≤ buffer.length)
    (h : buffer.length < (received ++ data).length) :
    storeAt (storedIn buffer received) received.length data = .error .outOfBounds := by
  rw [List.length_append] at h
  exact storeAt_of_lt (by rw [storedIn_length hreceived]; omega)

/-- A call that ends has the buffer and the result it ends with. -/
lemma ended_eq {buffer buffer' : List Byte} {intr intr' : Bool} {last result : ℤ}
    {results rest : List ReadResult}
    (h : (Except.ok (buffer, intr, ReadAll.Returned last, results) : Except Fault _)
      = .ok (buffer', intr', .Returned result, rest)) : buffer = buffer' ∧ last = result := by
  cases h
  exact ⟨rfl, rfl⟩

/-- **The loop**, by induction over the reads: the bytes received so far are followed by more. -/
lemma readAllLoop_returned {buffer buffer' received : List Byte} {results rest : List ReadResult}
    {intr intr' : Bool} {result : ℤ} (hreceived : received.length < buffer.length)
    (h : readAllLoop buffer.length results (storedIn buffer received) intr received.length
      = .ok (buffer', intr', .Returned result, rest)) :
    ∃ more, buffer' = storedIn buffer (received ++ more) ∧
      ((result = 1 ∧ (received ++ more).length = buffer.length) ∨
        (result = 0 ∨ result = -1) ∧ (received ++ more).length < buffer.length) := by
  induction results generalizing received intr with
  | nil => simp [readAllLoop] at h
  | cons first results ih =>
    cases first with
    | Bytes data =>
        by_cases hdata : data = []
        · subst hdata
          simp only [readAllLoop, readAllStep_nil, ok_bind, pure_eq_ok] at h
          obtain ⟨rfl, rfl⟩ := ended_eq h
          exact ⟨[], by simp, Or.inr ⟨Or.inl rfl, by simpa using hreceived⟩⟩
        · by_cases hfits : (received ++ data).length ≤ buffer.length
          · have hstep : readAllStep buffer.length (storedIn buffer received) received.length data
                = .ok (storedIn buffer (received ++ data),
                    if (received ++ data).length < buffer.length
                    then .Reading (received ++ data).length else .Returned 1) := by
              simp only [readAllStep, if_neg hdata, storeAt_storedIn hfits, ok_bind, pure_eq_ok,
                List.length_append]
            simp only [readAllLoop, hstep, ok_bind] at h
            split_ifs at h with hlt
            · obtain ⟨more, hbuffer, hresult⟩ := ih hlt h
              exact ⟨data ++ more, by rw [hbuffer, List.append_assoc], by
                rwa [← List.append_assoc]⟩
            · simp only [pure_eq_ok] at h
              obtain ⟨rfl, rfl⟩ := ended_eq h
              exact ⟨data, rfl, Or.inl ⟨rfl, by omega⟩⟩
          · have hoverflow := storeAt_storedIn_of_lt hreceived.le (Nat.lt_of_not_le hfits)
            simp only [readAllLoop, readAllStep, if_neg hdata, hoverflow, error_bind] at h
            cases h
    | Interrupted =>
        rw [readAllLoop] at h
        split_ifs at h with hzero
        · simp only [pure_eq_ok] at h
          obtain ⟨rfl, rfl⟩ := ended_eq h
          exact ⟨[], by simp, Or.inr ⟨Or.inr rfl, by simpa using hreceived⟩⟩
        · exact ih hreceived h
    | Error =>
        simp only [readAllLoop, pure_eq_ok] at h
        obtain ⟨rfl, rfl⟩ := ended_eq h
        exact ⟨[], by simp, Or.inr ⟨Or.inr rfl, by simpa using hreceived⟩⟩

/-- **`read_all` has filled the buffer or says that it has not.** -/
lemma readAll_returned {buffer buffer' : List Byte} {results rest : List ReadResult}
    {intr intr' : Bool} {result : ℤ} (hbuffer : 0 < buffer.length)
    (h : readAll buffer.length results buffer intr = .ok (buffer', intr', .Returned result, rest)) :
    ∃ received, buffer' = storedIn buffer received ∧
      ((result = 1 ∧ received.length = buffer.length) ∨
        (result = 0 ∨ result = -1) ∧ received.length < buffer.length) := by
  rw [readAll] at h
  split_ifs at h
  · simp only [pure_eq_ok] at h
    obtain ⟨rfl, rfl⟩ := ended_eq h
    exact ⟨[], by simp, Or.inr ⟨Or.inr rfl, by simpa using hbuffer⟩⟩
  · have hstart : readAllLoop buffer.length results (storedIn buffer []) false ([] : List Byte).length
        = .ok (buffer', intr', .Returned result, rest) := by simpa using h
    have hnothing : ([] : List Byte).length < buffer.length := hbuffer
    exact readAllLoop_returned hnothing hstart

/-! ## A stream that ends -/

/-- What the reads of blocks of `size` bytes may return, one after the other, when `bytesRead` bytes of
a block are there: each at least a byte, and none more than was asked for. -/
def Splits (size : ℕ) : ℕ → List (List Byte) → Prop
  | _, [] => True
  | bytesRead, chunk :: chunks => chunk ≠ [] ∧ bytesRead + chunk.length ≤ size ∧
      Splits size ((bytesRead + chunk.length) % size) chunks

/-- The results of the reads: the chunks, and the end of the file behind them. -/
def endingReads (chunks : List (List Byte)) : List ReadResult :=
  chunks.map ReadResult.Bytes ++ [.Bytes []]

@[simp] lemma endingReads_nil : endingReads [] = [.Bytes []] := rfl

@[simp] lemma endingReads_cons (chunk : List Byte) (chunks : List (List Byte)) :
    endingReads (chunk :: chunks) = .Bytes chunk :: endingReads chunks := rfl

/-- **A block of a stream**, by induction over the chunks.  Either the stream ends in it, or it is
filled and the reads of the next block are left. -/
lemma readAllLoop_endingReads {buffer received : List Byte} {chunks : List (List Byte)} {intr : Bool}
    (hreceived : received.length < buffer.length)
    (hsplits : Splits buffer.length received.length chunks) :
    (∃ buffer', received.length + chunks.flatten.length < buffer.length ∧
        buffer'.length = buffer.length ∧
        readAllLoop buffer.length (endingReads chunks) (storedIn buffer received) intr received.length
          = .ok (buffer', intr, .Returned 0, [])) ∨
      ∃ block rest, chunks.flatten = block ++ rest.flatten ∧
        (received ++ block).length = buffer.length ∧ Splits buffer.length 0 rest ∧
        rest.length < chunks.length ∧
        readAllLoop buffer.length (endingReads chunks) (storedIn buffer received) intr received.length
          = .ok (received ++ block, intr, .Returned 1, endingReads rest) := by
  induction chunks generalizing received with
  | nil =>
      left
      refine ⟨storedIn buffer received, by simpa using hreceived, storedIn_length hreceived.le, ?_⟩
      simp only [endingReads_nil, readAllLoop, readAllStep_nil, ok_bind, pure_eq_ok]
  | cons chunk chunks ih =>
      obtain ⟨hchunk, hfits, hrest⟩ := hsplits
      have hstore : (received ++ chunk).length ≤ buffer.length := by
        rw [List.length_append]
        exact hfits
      have hstep : readAllStep buffer.length (storedIn buffer received) received.length chunk
          = .ok (storedIn buffer (received ++ chunk),
              if (received ++ chunk).length < buffer.length
              then .Reading (received ++ chunk).length else .Returned 1) := by
        simp only [readAllStep, if_neg hchunk, storeAt_storedIn hstore, ok_bind, pure_eq_ok,
          List.length_append]
      have hlength : received.length + (chunk :: chunks).flatten.length
          = (received ++ chunk).length + chunks.flatten.length := by
        rw [List.flatten_cons, List.length_append, List.length_append, Nat.add_assoc]
      rw [← List.length_append] at hrest
      rw [endingReads_cons, readAllLoop, hstep, ok_bind]
      by_cases hlt : (received ++ chunk).length < buffer.length
      · -- the block goes on
        rw [if_pos hlt]
        rw [Nat.mod_eq_of_lt hlt] at hrest
        rcases ih hlt hrest with ⟨buffer', hend, hsize, hloop⟩ |
          ⟨block, rest, hflatten, hblock, hblocks, hshorter, hloop⟩
        · left
          exact ⟨buffer', by rwa [hlength], hsize, hloop⟩
        · right
          refine ⟨chunk ++ block, rest, ?_, ?_, hblocks, Nat.lt_succ_of_lt hshorter, ?_⟩
          · rw [List.flatten_cons, hflatten, List.append_assoc]
          · rwa [← List.append_assoc]
          · rwa [← List.append_assoc]
      · -- the chunk fills it
        right
        have hfull : (received ++ chunk).length = buffer.length := by omega
        rw [hfull, Nat.mod_self] at hrest
        rw [if_neg hlt, storedIn_full hfull]
        exact ⟨chunk, chunks, rfl, hfull, hrest, Nat.lt_succ_self _, rfl⟩

/-- **`read_all` on a stream that ends.**  It returns 0 if there is less than a block of it, and
otherwise 1 with the first block. -/
lemma readAll_endingReads {buffer : List Byte} {chunks : List (List Byte)}
    (hbuffer : 0 < buffer.length) (hsplits : Splits buffer.length 0 chunks) :
    (∃ buffer', chunks.flatten.length < buffer.length ∧ buffer'.length = buffer.length ∧
        readAll buffer.length (endingReads chunks) buffer false
          = .ok (buffer', false, .Returned 0, [])) ∨
      ∃ block rest, chunks.flatten = block ++ rest.flatten ∧ block.length = buffer.length ∧
        Splits buffer.length 0 rest ∧ rest.length < chunks.length ∧
        readAll buffer.length (endingReads chunks) buffer false
          = .ok (block, false, .Returned 1, endingReads rest) := by
  have hnothing : ([] : List Byte).length < buffer.length := hbuffer
  have hstart : readAll buffer.length (endingReads chunks) buffer false = readAllLoop buffer.length
      (endingReads chunks) (storedIn buffer []) false ([] : List Byte).length := by
    rw [readAll, storedIn_nil]
    rfl
  rw [hstart]
  rcases readAllLoop_endingReads hnothing hsplits with ⟨buffer', hend, hsize, hloop⟩ |
    ⟨block, rest, hflatten, hblock, hblocks, hshorter, hloop⟩
  · left
    exact ⟨buffer', by simpa using hend, hsize, hloop⟩
  · right
    exact ⟨block, rest, hflatten, hblock, hblocks, hshorter, hloop⟩

end Kvs
