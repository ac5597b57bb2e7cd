import Kvs.Common.Reads

/-!
# Whole messages in pieces

`write_all` and `read_all` of `src/common/io.c` with everything a `write` or a `read` can return: some
of the bytes, an interruption, another error, and for a `read` the end of the file.  Both are
functions of what these calls return, in their order; what is left of it belongs to the next call.

`Reads.lean` has `read_all` for a caller with a flag and a message that is not empty.  Here the flag
may be a null pointer and the message empty (`Transfer.readLoop_some` connects the two).

* `CountsFit`, `ReadsFit` — no call of the system transfers more than it is asked to.
* `Wrote`, `HasRead` — what a call has done, by the results it has taken.
* `writeLoop_wrote`, `readLoop_hasRead` — it has, by induction over the results.
* `whole_transfers` — both, from the beginning.
-/

namespace Kvs

/-! ## `write_all` -/

/-- What one `write` returns: how many bytes it has taken; or -1, with `errno` `EINTR` or another. -/
inductive WriteResult where
  | Count (n : ℕ)
  | Interrupted
  | Error
  deriving DecidableEq

/-- `write_all` in its loop, or with its result. -/
inductive WriteAll where
  | Writing (bytesWritten : ℕ)
  | Returned (result : ℤ)
  deriving DecidableEq

namespace Transfer

/-- `while (bytes_written < size)` of `write_all`, given the results of its writes: what the file has
taken, where `write_all` is, and the results it has left for the next one. -/
def writeLoop (size : ℕ) (buffer : List Byte) :
    List WriteResult → List Byte → ℕ → List Byte × WriteAll × List WriteResult
  | [], file, bytesWritten =>
      (file, if bytesWritten < size then .Writing bytesWritten else .Returned 1, [])
  | result :: results, file, bytesWritten =>
      if bytesWritten < size then
        match result with
        | .Count n =>
            writeLoop size buffer results (file ++ (buffer.drop bytesWritten).take n) (bytesWritten + n)
        | .Interrupted => writeLoop size buffer results file bytesWritten
        | .Error => (file, .Returned (-1), results)
      else (file, .Returned 1, result :: results)

/-- `write_all`. -/
def writeAll (size : ℕ) (buffer : List Byte) (results : List WriteResult) :
    List Byte × WriteAll × List WriteResult :=
  writeLoop size buffer results [] 0

/-! ## `read_all` -/

/-- `while (bytes_read < size)` of `read_all`, given the results of its reads; without a flag when
`intr` is the null pointer. -/
def readLoop (size : ℕ) : List ReadResult → List Byte → Option Bool → ℕ →
    Except Fault (List Byte × Option Bool × ReadAll × List ReadResult)
  | [], buffer, intr, bytesRead =>
      pure (buffer, intr, if bytesRead < size then .Reading bytesRead else .Returned 1, [])
  | result :: results, buffer, intr, bytesRead =>
      if bytesRead < size then
        match result with
        | .Bytes data =>
            if data = [] then pure (buffer, intr, .Returned 0, results)
            else do
              let buffer ← storeAt buffer bytesRead data
              readLoop size results buffer intr (bytesRead + data.length)
        | .Interrupted =>
            if intr = none then readLoop size results buffer none bytesRead
            else if bytesRead = 0 then pure (buffer, some true, .Returned (-1), results)
            else readLoop size results buffer (some true) bytesRead
        | .Error => pure (buffer, intr, .Returned (-1), results)
      else pure (buffer, intr, .Returned 1, result :: results)

/-- `read_all`. -/
def readAll (size : ℕ) (results : List ReadResult) (buffer : List Byte) (intr : Option Bool) :
    Except Fault (List Byte × Option Bool × ReadAll × List ReadResult) :=
  if intr = some true then pure (buffer, intr, .Returned (-1), results)
  else readLoop size results buffer intr 0

/-- With a flag it is the `read_all` of `Reads.lean`. -/
lemma readLoop_some {size bytesRead : ℕ} (hlt : bytesRead < size) (results : List ReadResult)
    (buffer : List Byte) (intr : Bool) :
    readLoop size results buffer (some intr) bytesRead
      = (readAllLoop size results buffer intr bytesRead).map fun r =>
          (r.1, some r.2.1, r.2.2.1, r.2.2.2) := by
  induction results generalizing buffer intr bytesRead with
  | nil => simp [readLoop, readAllLoop, hlt, Except.map]
  | cons result results ih =>
      cases result with
      | Bytes data =>
          by_cases hdata : data = []
          · simp [readLoop, readAllLoop, readAllStep, hlt, hdata, Except.map]
          · simp only [readLoop, readAllLoop, readAllStep, if_pos hlt, if_neg hdata]
            cases storeAt buffer bytesRead data with
            | error e => rfl
            | ok buffer =>
                simp only [ok_bind, pure_eq_ok]
                by_cases hmore : bytesRead + data.length < size
                · rw [if_pos hmore]
                  exact ih hmore buffer intr
                · rw [if_neg hmore]
                  cases results with
                  | nil => simp [readLoop, hmore, Except.map]
                  | cons result results => simp [readLoop, hmore, Except.map]
      | Interrupted =>
          simp only [readLoop, readAllLoop, if_pos hlt, reduceCtorEq, if_false]
          split_ifs with hzero
          · rfl
          · exact ih hlt buffer true
      | Error => simp [readLoop, readAllLoop, hlt, Except.map]

/-! ## What has been written -/

/-- The bytes one `write` has taken. -/
def accepted : WriteResult → ℕ
  | .Count n => n
  | .Interrupted => 0
  | .Error => 0

/-- The bytes some writes have taken. -/
def countOf : List WriteResult → ℕ
  | [] => 0
  | result :: results => accepted result + countOf results

@[simp] lemma countOf_nil : countOf [] = 0 := rfl

@[simp] lemma countOf_append (past results : List WriteResult) :
    countOf (past ++ results) = countOf past + countOf results := by
  induction past with
  | nil => simp
  | cons result past ih => simp [countOf, ih, Nat.add_assoc]

@[simp] lemma countOf_singleton (result : WriteResult) : countOf [result] = accepted result := by
  simp [countOf]

/-- No `write` of the call takes more than it is given.  What comes after the call is not asked. -/
def CountsFit (size : ℕ) : ℕ → List WriteResult → Prop
  | _, [] => True
  | bytesWritten, .Count n :: results => bytesWritten < size →
      bytesWritten + n ≤ size ∧ CountsFit size (bytesWritten + n) results
  | bytesWritten, .Interrupted :: results => CountsFit size bytesWritten results
  | _, .Error :: _ => True

/-- What `write_all` has done, having taken some results of writes and left the rest: the file has
the beginning of the message, and the result says whether it has all of it. -/
structure Wrote (size : ℕ) (buffer : List Byte) (consumed rest : List WriteResult)
    (file : List Byte) (state : WriteAll) : Prop where
  written : file = buffer.take (countOf consumed)
  fits : countOf consumed ≤ size
  whole : state = .Returned 1 ↔ file = buffer.take size
  failed : state = .Returned (-1) ↔ .Error ∈ consumed
  before : .Error ∉ consumed.dropLast
  outcome : state = .Returned 1 ∨ state = .Returned (-1) ∨
    state = .Writing (countOf consumed) ∧ rest = []

section Writing

variable {size : ℕ} {buffer : List Byte} {past : List WriteResult}

/-- All of the message is in the file only when that many bytes have been taken. -/
lemma take_countOf (hsize : size ≤ buffer.length) (hfits : countOf past ≤ size) :
    buffer.take (countOf past) = buffer.take size ↔ countOf past = size := by
  constructor
  · intro h
    have hlength := congrArg List.length h
    rw [List.length_take, List.length_take] at hlength
    omega
  · intro h
    rw [h]

/-- Everything has been taken. -/
lemma Wrote.full (hpast : .Error ∉ past)
    (hfull : countOf past = size) (rest : List WriteResult) :
    Wrote size buffer past rest (buffer.take (countOf past)) (.Returned 1) where
  written := rfl
  fits := hfull.le
  whole := by simp [hfull]
  failed := by simp [hpast]
  before := fun h => hpast (List.dropLast_subset _ h)
  outcome := Or.inl rfl

/-- An error before that. -/
lemma Wrote.error (hsize : size ≤ buffer.length) (hpast : .Error ∉ past)
    (hlt : countOf past < size) (rest : List WriteResult) :
    Wrote size buffer (past ++ [.Error]) rest (buffer.take (countOf past)) (.Returned (-1)) where
  written := by simp [accepted]
  fits := by
    simp only [countOf_append, countOf_singleton, accepted]
    omega
  whole := by
    rw [take_countOf hsize hlt.le]
    simp [hlt.ne]
  failed := by simp
  before := by simpa using hpast
  outcome := Or.inr (Or.inl rfl)

/-- No more results. -/
lemma Wrote.waiting (hsize : size ≤ buffer.length) (hpast : .Error ∉ past)
    (hlt : countOf past < size) :
    Wrote size buffer past [] (buffer.take (countOf past)) (.Writing (countOf past)) where
  written := rfl
  fits := hlt.le
  whole := by
    rw [take_countOf hsize hlt.le]
    simp [hlt.ne]
  failed := by simp [hpast]
  before := fun h => hpast (List.dropLast_subset _ h)
  outcome := Or.inr (Or.inr ⟨rfl, rfl⟩)

/-- **The writing loop**, by induction over the results: after any past without an error it goes on
behind what has been taken. -/
lemma writeLoop_wrote (hsize : size ≤ buffer.length) {results : List WriteResult}
    (hpast : .Error ∉ past) (hfits : countOf past ≤ size)
    (hresults : CountsFit size (countOf past) results) :
    ∃ consumed rest file state, results = consumed ++ rest ∧
      writeLoop size buffer results (buffer.take (countOf past)) (countOf past)
        = (file, state, rest) ∧
      Wrote size buffer (past ++ consumed) rest file state := by
  induction results generalizing past with
  | nil =>
      refine ⟨[], [], buffer.take (countOf past), _, rfl, rfl, ?_⟩
      rw [List.append_nil]
      split_ifs with hlt
      · exact Wrote.waiting hsize hpast hlt
      · exact Wrote.full hpast (by omega) []
  | cons result results ih =>
      by_cases hlt : countOf past < size
      · cases result with
        | Count n =>
            obtain ⟨hn, hrest⟩ := hresults hlt
            have hcount : countOf (past ++ [.Count n]) = countOf past + n := by simp [accepted]
            rw [← hcount] at hn hrest
            obtain ⟨consumed, rest, file, state, rfl, hloop, hwrote⟩ :=
              ih (by simpa using hpast) hn hrest
            refine ⟨.Count n :: consumed, rest, file, state, rfl, ?_, ?_⟩
            · simp only [writeLoop, if_pos hlt, ← hloop, hcount, List.take_add]
            · rwa [List.append_assoc] at hwrote
        | Interrupted =>
            have hcount : countOf (past ++ [.Interrupted]) = countOf past := by simp [accepted]
            rw [← hcount] at hfits
            obtain ⟨consumed, rest, file, state, rfl, hloop, hwrote⟩ :=
              ih (by simpa using hpast) hfits (by rwa [hcount])
            refine ⟨.Interrupted :: consumed, rest, file, state, rfl, ?_, ?_⟩
            · simp only [writeLoop, if_pos hlt, ← hloop, hcount]
            · rwa [List.append_assoc] at hwrote
        | Error =>
            refine ⟨[.Error], results, buffer.take (countOf past), .Returned (-1), rfl, ?_,
              Wrote.error hsize hpast hlt results⟩
            simp only [writeLoop, if_pos hlt]
      · refine ⟨[], result :: results, buffer.take (countOf past), .Returned 1, rfl, ?_, ?_⟩
        · simp only [writeLoop, if_neg hlt]
        · rw [List.append_nil]
          exact Wrote.full hpast (by omega) _

/-- A `write_all` that returns 1 has sent what it is said to send elsewhere. -/
lemma writeAll_returned (hsize : size ≤ buffer.length) {results rest : List WriteResult}
    (hresults : CountsFit size 0 results) {file : List Byte}
    (h : writeAll size buffer results = (file, .Returned 1, rest)) :
    file = Kvs.writeAll buffer size := by
  have hnothing : WriteResult.Error ∉ [] := List.not_mem_nil
  obtain ⟨consumed, rest', file', state, -, hloop, hwrote⟩ :=
    writeLoop_wrote hsize hnothing (Nat.zero_le size) hresults
  obtain ⟨rfl, rfl, -⟩ : file' = file ∧ state = .Returned 1 ∧ rest' = rest := by
    simpa using hloop.symm.trans h
  exact hwrote.whole.mp rfl

end Writing

/-! ## What has been read -/

/-- The bytes one `read` has returned. -/
def received : ReadResult → List Byte
  | .Bytes data => data
  | .Interrupted => []
  | .Error => []

/-- The bytes some reads have returned, in their order. -/
def bytesOf (results : List ReadResult) : List Byte := results.flatMap received

@[simp] lemma bytesOf_nil : bytesOf [] = [] := rfl

@[simp] lemma bytesOf_append (past results : List ReadResult) :
    bytesOf (past ++ results) = bytesOf past ++ bytesOf results := List.flatMap_append

@[simp] lemma bytesOf_singleton (result : ReadResult) : bytesOf [result] = received result := by
  simp [bytesOf]

/-- No `read` of the call returns more than it is asked for.  What comes after the call is not asked:
it ends at the end of the file, at an error, and at an interruption before the first byte if there is
a flag. -/
def ReadsFit (size : ℕ) (flag : Bool) : ℕ → List ReadResult → Prop
  | _, [] => True
  | bytesRead, .Bytes data :: results => bytesRead < size → bytesRead + data.length ≤ size ∧
      (data ≠ [] → ReadsFit size flag (bytesRead + data.length) results)
  | bytesRead, .Interrupted :: results =>
      flag = false ∨ bytesRead ≠ 0 → ReadsFit size flag bytesRead results
  | _, .Error :: _ => True

/-- The results in front of the first one with bytes. -/
def beforeFirstByte (results : List ReadResult) : List ReadResult :=
  results.takeWhile fun result => received result = []

/-- The results after which a call goes on.  With a flag, none is an interruption before the first
byte. -/
structure GoesOn (intr : Option Bool) (past : List ReadResult) : Prop where
  noError : .Error ∉ past
  noEnd : .Bytes [] ∉ past
  started : intr ≠ none → .Interrupted ∉ beforeFirstByte past

/-- The flag after some results. -/
def flagAfter (intr : Option Bool) (results : List ReadResult) : Option Bool :=
  if .Interrupted ∈ results then intr.map fun _ => true else intr

/-- What `read_all` has done, having taken some results of reads and left the rest: the buffer has
what they returned, in order, from its beginning, and the result says whether that is all of it. -/
structure HasRead (size : ℕ) (buffer : List Byte) (intr : Option Bool)
    (consumed rest : List ReadResult) (buffer' : List Byte) (intr' : Option Bool) (state : ReadAll) :
    Prop where
  stored : buffer' = storedIn buffer (bytesOf consumed)
  fits : (bytesOf consumed).length ≤ size
  whole : state = .Returned 1 ↔
    (bytesOf consumed).length = size ∧ buffer'.take size = bytesOf consumed
  ended : state = .Returned 0 ↔ .Bytes [] ∈ consumed
  failed : state = .Returned (-1) ↔
    .Error ∈ consumed ∨ intr ≠ none ∧ .Interrupted ∈ beforeFirstByte consumed
  interrupted : intr ≠ none → .Interrupted ∈ beforeFirstByte consumed →
    consumed = [.Interrupted] ∧ buffer' = buffer ∧ intr' = some true
  flag : intr' = flagAfter intr consumed
  before : GoesOn intr consumed.dropLast
  outcome : state = .Returned 1 ∨ state = .Returned 0 ∨ state = .Returned (-1) ∨
    state = .Reading (bytesOf consumed).length ∧ rest = []

section Reading

variable {size : ℕ} {buffer : List Byte} {intr : Option Bool} {past : List ReadResult}

lemma goesOn_nil (intr : Option Bool) : GoesOn intr [] := by
  constructor <;> simp [beforeFirstByte]

/-- With a flag, the first result of a call that goes on has bytes. -/
lemma GoesOn.beforeFirstByte_append (h : GoesOn intr past) (hintr : intr ≠ none) (hpast : past ≠ [])
    (results : List ReadResult) : beforeFirstByte (past ++ results) = [] := by
  have hstarted := h.started hintr
  have hnoError := h.noError
  have hnoEnd := h.noEnd
  cases past with
  | nil => exact absurd rfl hpast
  | cons first past =>
      cases first with
      | Bytes data =>
          have hdata : data ≠ [] := by
            intro hnil
            simp [hnil] at hnoEnd
          simp [beforeFirstByte, received, hdata]
      | Interrupted => simp [beforeFirstByte, received] at hstarted
      | Error => simp at hnoError

/-- A last result that is not an interruption before the first byte. -/
lemma GoesOn.started_append (h : GoesOn intr past) {result : ReadResult}
    (hresult : result ≠ .Interrupted ∨ past ≠ []) (hintr : intr ≠ none) :
    .Interrupted ∉ beforeFirstByte (past ++ [result]) := by
  by_cases hpast : past = []
  · subst hpast
    have hother : result ≠ .Interrupted := hresult.resolve_right fun hne => hne rfl
    intro hmem
    have hlast : ReadResult.Interrupted ∈ [result] := (List.takeWhile_subset _) hmem
    exact hother (List.mem_singleton.mp hlast).symm
  · rw [h.beforeFirstByte_append hintr hpast]
    simp

/-- More bytes. -/
lemma GoesOn.bytes (h : GoesOn intr past) {data : List Byte} (hdata : data ≠ []) :
    GoesOn intr (past ++ [.Bytes data]) where
  noError := by simpa using h.noError
  noEnd := by simpa [h.noEnd] using hdata
  started := h.started_append (Or.inl (by simp))

/-- An interruption after the first byte, or without a flag. -/
lemma GoesOn.interruption (h : GoesOn intr past) (hstarted : intr = none ∨ bytesOf past ≠ []) :
    GoesOn intr (past ++ [.Interrupted]) where
  noError := by simpa using h.noError
  noEnd := by simpa using h.noEnd
  started := by
    intro hintr
    refine h.started_append (Or.inr ?_) hintr
    rintro rfl
    exact hstarted.resolve_left hintr rfl

lemma GoesOn.dropLast (h : GoesOn intr past) : GoesOn intr past.dropLast where
  noError := fun hmem => h.noError (List.dropLast_subset _ hmem)
  noEnd := fun hmem => h.noEnd (List.dropLast_subset _ hmem)
  started := by
    intro hintr hmem
    refine h.started hintr ?_
    obtain ⟨last, hlast⟩ : ∃ last, past.dropLast ++ last = past := List.dropLast_prefix past
    rw [← hlast, beforeFirstByte, List.takeWhile_append]
    split_ifs
    · exact List.mem_append_left _ (List.takeWhile_subset _ hmem)
    · exact hmem

/-- What a buffer has in front. -/
lemma take_storedIn (buffer data : List Byte) :
    (storedIn buffer data).take data.length = data := by
  rw [storedIn, List.take_left]

@[simp] lemma flagAfter_nil (intr : Option Bool) : flagAfter intr [] = intr := by
  simp [flagAfter]

lemma flagAfter_eq_none {results : List ReadResult} : flagAfter intr results = none ↔ intr = none := by
  rw [flagAfter]
  split_ifs
  · rw [Option.map_eq_none_iff]
  · rfl

lemma flagAfter_map (intr : Option Bool) (results : List ReadResult) :
    (flagAfter intr results).map (fun _ => true) = intr.map fun _ => true := by
  rw [flagAfter]
  split_ifs
  · rw [Option.map_map]
    rfl
  · rfl

/-- Anything but an interruption leaves the flag. -/
lemma flagAfter_append_of_ne {result : ReadResult} (hresult : result ≠ .Interrupted) :
    flagAfter intr (past ++ [result]) = flagAfter intr past := by
  simp [flagAfter, hresult.symm]

lemma flagAfter_append_interrupted :
    flagAfter intr (past ++ [.Interrupted]) = intr.map fun _ => true := by
  simp [flagAfter]

/-- The buffer is full. -/
lemma HasRead.full (hpast : GoesOn intr past) (hfull : (bytesOf past).length = size)
    (rest : List ReadResult) :
    HasRead size buffer intr past rest (storedIn buffer (bytesOf past)) (flagAfter intr past)
      (.Returned 1) where
  stored := rfl
  fits := hfull.le
  whole := by
    rw [← hfull, take_storedIn]
    simp
  ended := by simp [hpast.noEnd]
  failed := by simpa [hpast.noError] using hpast.started
  interrupted := fun hintr hmem => absurd hmem (hpast.started hintr)
  flag := rfl
  before := hpast.dropLast
  outcome := Or.inl rfl

/-- No more results. -/
lemma HasRead.waiting (hpast : GoesOn intr past) (hlt : (bytesOf past).length < size) :
    HasRead size buffer intr past [] (storedIn buffer (bytesOf past)) (flagAfter intr past)
      (.Reading (bytesOf past).length) where
  stored := rfl
  fits := hlt.le
  whole := by simp [hlt.ne]
  ended := by simp [hpast.noEnd]
  failed := by simpa [hpast.noError] using hpast.started
  interrupted := fun hintr hmem => absurd hmem (hpast.started hintr)
  flag := rfl
  before := hpast.dropLast
  outcome := Or.inr (Or.inr (Or.inr ⟨rfl, rfl⟩))

/-- The end of the file. -/
lemma HasRead.endOfFile (hpast : GoesOn intr past) (hlt : (bytesOf past).length < size)
    (rest : List ReadResult) :
    HasRead size buffer intr (past ++ [.Bytes []]) rest (storedIn buffer (bytesOf past))
      (flagAfter intr past) (.Returned 0) where
  stored := by simp [received]
  fits := by simpa [received] using hlt.le
  whole := by simp [received, hlt.ne]
  ended := by simp
  failed := by simpa [hpast.noError] using hpast.started_append (Or.inl (by simp))
  interrupted := fun hintr hmem => absurd hmem (hpast.started_append (Or.inl (by simp)) hintr)
  flag := (flagAfter_append_of_ne (by simp)).symm
  before := by simpa using hpast
  outcome := Or.inr (Or.inl rfl)

/-- An error. -/
lemma HasRead.error (hpast : GoesOn intr past) (hlt : (bytesOf past).length < size)
    (rest : List ReadResult) :
    HasRead size buffer intr (past ++ [.Error]) rest (storedIn buffer (bytesOf past))
      (flagAfter intr past) (.Returned (-1)) where
  stored := by simp [received]
  fits := by simpa [received] using hlt.le
  whole := by simp [received, hlt.ne]
  ended := by simp [hpast.noEnd]
  failed := by simp
  interrupted := fun hintr hmem => absurd hmem (hpast.started_append (Or.inl (by simp)) hintr)
  flag := (flagAfter_append_of_ne (by simp)).symm
  before := by simpa using hpast
  outcome := Or.inr (Or.inr (Or.inl rfl))

/-- An interruption before the first byte, with a flag. -/
lemma HasRead.interruption (hintr : intr ≠ none) (hsize : 0 < size) (rest : List ReadResult) :
    HasRead size buffer intr [.Interrupted] rest buffer (some true) (.Returned (-1)) where
  stored := by simp [received]
  fits := by simp [received]
  whole := by simp [received, hsize.ne]
  ended := by simp
  failed := by simp [beforeFirstByte, received, hintr]
  interrupted := fun _ _ => ⟨rfl, rfl, rfl⟩
  flag := by
    obtain ⟨flag, rfl⟩ := Option.ne_none_iff_exists'.mp hintr
    rfl
  before := goesOn_nil intr
  outcome := Or.inr (Or.inr (Or.inl rfl))

/-- With a flag, a call that goes on and has no bytes has just begun. -/
lemma GoesOn.eq_nil (h : GoesOn intr past) (hintr : intr ≠ none) (hbytes : bytesOf past = []) :
    past = [] := by
  by_contra hpast
  have hnone := h.beforeFirstByte_append hintr hpast []
  have hall : beforeFirstByte past = past := by
    rw [beforeFirstByte, List.takeWhile_eq_self_iff]
    intro result hresult
    simpa using List.flatMap_eq_nil_iff.mp hbytes result hresult
  rw [List.append_nil, hall] at hnone
  exact hpast hnone

/-- Bytes behind the ones that are there. -/
lemma readLoop_bytes {got data : List Byte} (hlt : got.length < size) (hdata : data ≠ [])
    (hfits : (got ++ data).length ≤ buffer.length) (results : List ReadResult) :
    readLoop size (.Bytes data :: results) (storedIn buffer got) intr got.length
      = readLoop size results (storedIn buffer (got ++ data)) intr (got ++ data).length := by
  simp only [readLoop, if_pos hlt, if_neg hdata, storeAt_storedIn hfits, ok_bind, List.length_append]

/-- An interruption after which a call goes on. -/
lemma readLoop_interrupted {bytesRead : ℕ} (hlt : bytesRead < size)
    (hstarted : intr = none ∨ bytesRead ≠ 0) (results : List ReadResult) :
    readLoop size (.Interrupted :: results) buffer intr bytesRead
      = readLoop size results buffer (intr.map fun _ => true) bytesRead := by
  cases intr with
  | none => simp [readLoop, hlt]
  | some flag =>
      have hbegun : bytesRead ≠ 0 := hstarted.resolve_left (by simp)
      simp [readLoop, hlt, hbegun]

/-- **The reading loop**, by induction over the results: after any past after which the call goes on,
the bytes it has are followed by more. -/
lemma readLoop_hasRead (hsize : size ≤ buffer.length) {results : List ReadResult}
    (hpast : GoesOn intr past) (hfits : (bytesOf past).length ≤ size)
    (hresults : ReadsFit size intr.isSome (bytesOf past).length results) :
    ∃ consumed rest buffer' intr' state, results = consumed ++ rest ∧
      readLoop size results (storedIn buffer (bytesOf past)) (flagAfter intr past)
          (bytesOf past).length = .ok (buffer', intr', state, rest) ∧
      HasRead size buffer intr (past ++ consumed) rest buffer' intr' state := by
  induction results generalizing past with
  | nil =>
      refine ⟨[], [], storedIn buffer (bytesOf past), flagAfter intr past, _, rfl, rfl, ?_⟩
      rw [List.append_nil]
      split_ifs with hlt
      · exact HasRead.waiting hpast hlt
      · exact HasRead.full hpast (by omega) []
  | cons result results ih =>
      by_cases hlt : (bytesOf past).length < size
      · cases result with
        | Bytes data =>
            obtain ⟨hdata, hrest⟩ := hresults hlt
            by_cases hnil : data = []
            · subst hnil
              exact ⟨[.Bytes []], results, _, _, _, rfl, by simp only [readLoop, if_pos hlt, if_true,
                pure_eq_ok], HasRead.endOfFile hpast hlt results⟩
            · have hbytes : bytesOf (past ++ [.Bytes data]) = bytesOf past ++ data := by
                simp [received]
              have hrest := hrest hnil
              rw [← List.length_append] at hdata hrest
              have hroom := hdata.trans hsize
              rw [← hbytes] at hdata hrest
              obtain ⟨consumed, rest, buffer', intr', state, rfl, hloop, hread⟩ :=
                ih (hpast.bytes hnil) hdata hrest
              rw [hbytes, flagAfter_append_of_ne (by simp)] at hloop
              refine ⟨.Bytes data :: consumed, rest, buffer', intr', state, rfl, ?_, ?_⟩
              · rw [readLoop_bytes hlt hnil hroom]
                exact hloop
              · rwa [List.append_assoc] at hread
        | Interrupted =>
            have hbytes : bytesOf (past ++ [.Interrupted]) = bytesOf past := by simp [received]
            by_cases hstarted : intr = none ∨ (bytesOf past).length ≠ 0
            · have hgoes : GoesOn intr (past ++ [.Interrupted]) := by
                rw [Ne, List.length_eq_zero_iff] at hstarted
                exact hpast.interruption hstarted
              have hrest : ReadsFit size intr.isSome (bytesOf past).length results :=
                hresults (by simpa using hstarted)
              rw [← hbytes] at hfits hrest
              obtain ⟨consumed, rest, buffer', intr', state, rfl, hloop, hread⟩ :=
                ih hgoes hfits hrest
              rw [hbytes, flagAfter_append_interrupted] at hloop
              refine ⟨.Interrupted :: consumed, rest, buffer', intr', state, rfl, ?_, ?_⟩
              · rw [readLoop_interrupted hlt (by rwa [flagAfter_eq_none]), flagAfter_map]
                exact hloop
              · rwa [List.append_assoc] at hread
            · -- before the first byte, with a flag
              obtain ⟨hintr, hnothing⟩ := not_or.mp hstarted
              rw [not_not, List.length_eq_zero_iff] at hnothing
              obtain rfl := hpast.eq_nil hintr hnothing
              have hpos : 0 < size := hlt
              refine ⟨[.Interrupted], results, buffer, some true, .Returned (-1), rfl, ?_,
                HasRead.interruption hintr hpos results⟩
              simp [readLoop, hpos, hintr]
        | Error =>
            exact ⟨[.Error], results, _, _, _, rfl, by simp only [readLoop, if_pos hlt, pure_eq_ok],
              HasRead.error hpast hlt results⟩
      · refine ⟨[], result :: results, storedIn buffer (bytesOf past), flagAfter intr past,
          .Returned 1, rfl, ?_, ?_⟩
        · simp only [readLoop, if_neg hlt, pure_eq_ok]
        · rw [List.append_nil]
          exact HasRead.full hpast (by omega) _

end Reading

/-! ## Whole messages -/

/-- **A message goes through whole, or the call says that it has not.**  Whatever the results of the
writes and reads, as long as none transfers more than it is asked to: `write_all` and `read_all` each
take a beginning of them, and have done with it what `Wrote` and `HasRead` say. -/
theorem whole_transfers {size : ℕ} {buffer : List Byte} (hsize : size ≤ buffer.length) :
    (∀ results, CountsFit size 0 results →
      ∃ consumed rest file state, results = consumed ++ rest ∧
        writeAll size buffer results = (file, state, rest) ∧
        Wrote size buffer consumed rest file state) ∧
    ∀ results intr, intr ≠ some true → ReadsFit size intr.isSome 0 results →
      ∃ consumed rest buffer' intr' state, results = consumed ++ rest ∧
        readAll size results buffer intr = .ok (buffer', intr', state, rest) ∧
        HasRead size buffer intr consumed rest buffer' intr' state := by
  constructor
  · intro results hresults
    have hnothing : WriteResult.Error ∉ [] := List.not_mem_nil
    exact writeLoop_wrote hsize hnothing (Nat.zero_le size) hresults
  · intro results intr hintr hresults
    have hloop := readLoop_hasRead hsize (goesOn_nil intr) (Nat.zero_le size) hresults
    rw [bytesOf_nil, storedIn_nil, flagAfter_nil] at hloop
    rw [readAll, if_neg hintr]
    exact hloop

/-- Three bytes written in two pieces, and read in two, with an interruption between them. -/
theorem whole_transfers_pieces :
    (∃ consumed rest file state, [.Count 1, .Interrupted, .Count 2, .Error] = consumed ++ rest ∧
      writeAll 3 [1, 2, 3] [.Count 1, .Interrupted, .Count 2, .Error] = (file, state, rest) ∧
      Wrote 3 [1, 2, 3] consumed rest file state) ∧
    ∃ consumed rest buffer' intr' state,
      [.Bytes [1], .Interrupted, .Bytes [2, 3], .Error] = consumed ++ rest ∧
      readAll 3 [.Bytes [1], .Interrupted, .Bytes [2, 3], .Error] [7, 7, 7] (some false)
        = .ok (buffer', intr', state, rest) ∧
      HasRead 3 [7, 7, 7] (some false) consumed rest buffer' intr' state := by
  constructor
  · exact (whole_transfers (by decide)).1 _ (by simp [CountsFit])
  · exact (whole_transfers (by decide)).2 _ _ (by decide) (by simp [ReadsFit])

end Transfer

end Kvs
