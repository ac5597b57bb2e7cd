import Kvs.Client.Api

/-!
# What the request FIFO does not tell

The server takes the requests of a client apart into blocks that are not there (`Server/Requests.lean`).
Here no server is assumed: what could any reader of the FIFO make of the bytes?

`kvs_subscribe` and `kvs_unsubscribe` send the operation code and the key without its last byte, and
nothing at all for an empty key; behind a disconnect nothing is sent.  So every call but the first
disconnect has another one that sends the same, and a session can be told from the others of its length
exactly if there is no call in it, or only a disconnect (`requests_recoverable_iff`).
-/

namespace Kvs

/-! ## One call -/

/-- The bytes of a request with a key, if its buffer has room. -/
lemma sendRequest_eq_ok {opcode key : CString} {bytes : List Byte} :
    sendRequest opcode key = .ok bytes ↔
      opcode.length + key.length < requestSize ∧
        bytes = (opcode.bytes ++ key.bytes).take key.length := by
  have htake : ∀ zeros : List Byte, ((opcode ++ key).bytes ++ zeros).take key.length
      = (opcode.bytes ++ key.bytes).take key.length := by
    intro zeros
    rw [CString.bytes_append, List.take_append_of_le_length]
    simp [CString.length]
  by_cases hfits : (opcode ++ key).Fits requestSize
  · have hlt : opcode.length + key.length < requestSize := by
      rwa [CString.Fits, CString.length_append] at hfits
    simp only [sendRequest, strcat_of_fits hfits, ok_bind, pure_eq_ok, writeAll, Row.contents, htake,
      Except.ok.injEq, hlt, true_and]
    exact eq_comm
  · have hle : ¬ opcode.length + key.length < requestSize := by
      rwa [CString.Fits, CString.length_append] at hfits
    simp [sendRequest, strcat, hfits, hle]

/-- A key that differs in its last byte, which is not sent. -/
lemma exists_other_key {opcode key : CString} (hopcode : opcode.length = 1) (hkey : key.bytes ≠ []) :
    ∃ key' : CString, key' ≠ key ∧ key'.length = key.length ∧
      (opcode.bytes ++ key'.bytes).take key.length = (opcode.bytes ++ key.bytes).take key.length := by
  obtain ⟨front, c, hsplit⟩ : ∃ front c, key.bytes = front ++ [c] :=
    ⟨_, _, (List.dropLast_concat_getLast hkey).symm⟩
  obtain ⟨d, hd, hne⟩ : ∃ d : Byte, d ≠ 0 ∧ d ≠ c := by
    by_cases ha : c = char 'a'
    · exact ⟨char 'b', by decide, by rw [ha]; decide⟩
    · exact ⟨char 'a', by decide, Ne.symm ha⟩
  have hnulFree : (0 : Byte) ∉ front ++ [d] := by
    intro hmem
    rcases List.mem_append.mp hmem with hmem | hmem
    · exact key.nulFree (by rw [hsplit]; exact List.mem_append_left _ hmem)
    · exact hd (List.mem_singleton.mp hmem).symm
  have hlength : key.length = (opcode.bytes ++ front).length := by
    simp only [CString.length] at hopcode
    simp only [CString.length, hsplit, List.length_append, List.length_singleton, hopcode]
    omega
  refine ⟨⟨front ++ [d], hnulFree⟩, fun heq => ?_, ?_, ?_⟩
  · have hbytes := congrArg CString.bytes heq
    rw [hsplit] at hbytes
    exact hne (List.singleton_inj.mp (List.append_cancel_left hbytes))
  · simp [CString.length, hsplit]
  · rw [hlength, hsplit, ← List.append_assoc, ← List.append_assoc, List.take_left, List.take_left]

/-- **Every request with a key has a double.** -/
lemma Request.exists_double {request : Request} (hrequest : request ≠ .Disconnect) {bytes : List Byte}
    (h : request.encode = .ok bytes) :
    ∃ request' : Request, request' ≠ request ∧ request'.encode = .ok bytes ∧
      request' ≠ .Disconnect := by
  have hdouble : ∀ {opcode key : CString}, opcode.length = 1 → key.bytes ≠ [] →
      sendRequest opcode key = .ok bytes →
        ∃ key', key' ≠ key ∧ sendRequest opcode key' = .ok bytes := by
    intro opcode key hopcode hkey hsend
    obtain ⟨hroom, rfl⟩ := sendRequest_eq_ok.mp hsend
    obtain ⟨key', hne, hlength, htake⟩ := exists_other_key hopcode hkey
    exact ⟨key', hne, sendRequest_eq_ok.mpr ⟨by rwa [hlength], by rw [hlength, htake]⟩⟩
  -- an empty key sends nothing, whatever the operation
  have hempty : ∀ {opcode opcode' key : CString}, opcode.length = opcode'.length → key.bytes = [] →
      sendRequest opcode key = .ok bytes → sendRequest opcode' key = .ok bytes := by
    intro opcode opcode' key hopcode hkey hsend
    obtain ⟨hroom, rfl⟩ := sendRequest_eq_ok.mp hsend
    refine sendRequest_eq_ok.mpr ⟨by rwa [← hopcode], ?_⟩
    simp [CString.length, hkey]
  cases request with
  | Disconnect => exact absurd rfl hrequest
  | Subscribe key =>
      have hsent : sendRequest (.lit "3") key = .ok bytes := h
      by_cases hkey : key.bytes = []
      · have hlength : (CString.lit "3").length = (CString.lit "4").length := rfl
        exact ⟨.Unsubscribe key, by simp, hempty hlength hkey hsent, by simp⟩
      · obtain ⟨key', hne, hsend⟩ := hdouble rfl hkey hsent
        exact ⟨.Subscribe key', by simpa using hne, hsend, by simp⟩
  | Unsubscribe key =>
      have hsent : sendRequest (.lit "4") key = .ok bytes := h
      by_cases hkey : key.bytes = []
      · have hlength : (CString.lit "4").length = (CString.lit "3").length := rfl
        exact ⟨.Subscribe key, by simp, hempty hlength hkey hsent, by simp⟩
      · obtain ⟨key', hne, hsend⟩ := hdouble rfl hkey hsent
        exact ⟨.Unsubscribe key', by simpa using hne, hsend, by simp⟩

/-! ## Sessions -/

/-- The first call can be exchanged for one that sends the same. -/
lemma encodeRequests_exchange_first {request request' : Request} {requests : List Request}
    {bytes first : List Byte} (h : encodeRequests (request :: requests) = .ok bytes)
    (hfirst : request.encode = .ok first) (hfirst' : request'.encode = .ok first)
    (hrequest : request ≠ .Disconnect) (hrequest' : request' ≠ .Disconnect) :
    encodeRequests (request' :: requests) = .ok bytes := by
  obtain ⟨first₁, rest, hencode, hrest, rfl⟩ := encodeRequests_cons_eq_ok.mp h
  obtain rfl : first = first₁ := Except.ok.inj (hfirst.symm.trans hencode)
  refine encodeRequests_cons_eq_ok.mpr ⟨_, rest, hfirst', hrest, ?_⟩
  rw [if_neg hrequest, if_neg hrequest']

/-- A call behind a disconnect can be exchanged for any other. -/
lemma encodeRequests_exchange_closed {request request' : Request} {requests : List Request}
    {bytes sent : List Byte}
    (h : encodeRequests (.Disconnect :: request :: requests) = .ok bytes)
    (hrequest' : request'.encode = .ok sent) :
    encodeRequests (.Disconnect :: request' :: requests) = .ok bytes := by
  obtain ⟨first, rest, hfirst, hrest, hbytes⟩ := encodeRequests_cons_eq_ok.mp h
  obtain ⟨second, rest', -, hrest', -⟩ := encodeRequests_cons_eq_ok.mp hrest
  rw [if_pos rfl] at hbytes
  exact encodeRequests_cons_eq_ok.mpr
    ⟨first, _, hfirst, encodeRequests_cons_eq_ok.mpr ⟨sent, rest', hrequest', hrest', rfl⟩, hbytes⟩

/-- Every call has a double but the first disconnect. -/
lemma exists_double_session {requests : List Request} {bytes : List Byte}
    (h : encodeRequests requests = .ok bytes) (hnil : requests ≠ [])
    (hdisconnect : requests ≠ [.Disconnect]) :
    ∃ requests', requests' ≠ requests ∧ requests'.length = requests.length ∧
      encodeRequests requests' = .ok bytes := by
  cases requests with
  | nil => exact absurd rfl hnil
  | cons request requests =>
      by_cases hrequest : request = .Disconnect
      · subst hrequest
        cases requests with
        | nil => exact absurd rfl hdisconnect
        | cons request requests =>
            by_cases hsecond : request = .Disconnect
            · have hempty : (Request.Subscribe (.lit "")).encode = .ok [] := by decide
              exact ⟨.Disconnect :: .Subscribe (.lit "") :: requests, by simp [hsecond], rfl,
                encodeRequests_exchange_closed h hempty⟩
            · have hclose : Request.Disconnect.encode = .ok kvsDisconnect := rfl
              exact ⟨.Disconnect :: .Disconnect :: requests, by simpa using Ne.symm hsecond, rfl,
                encodeRequests_exchange_closed h hclose⟩
      · obtain ⟨first, rest, hfirst, -⟩ := encodeRequests_cons_eq_ok.mp h
        obtain ⟨request', hne, hfirst', hrequest'⟩ := Request.exists_double hrequest hfirst
        exact ⟨request' :: requests, by simpa using hne, rfl,
          encodeRequests_exchange_first h hfirst hfirst' hrequest hrequest'⟩

/-- A call that sends something other than the code of a disconnect, or nothing. -/
lemma Request.encode_of_code {request : Request} {bytes : List Byte} (h : request.encode = .ok bytes)
    (hcode : ∀ b ∈ bytes, b = char '2') :
    bytes.length = if request = .Disconnect then 1 else 0 := by
  have hnone : ∀ {opcode : Byte} {key : CString} {code : CString}, opcode ≠ char '2' →
      code.bytes = [opcode] → sendRequest code key = .ok bytes → bytes.length = 0 := by
    intro opcode key code hopcode hbytes hsend
    obtain ⟨-, rfl⟩ := sendRequest_eq_ok.mp hsend
    rw [hbytes, List.singleton_append] at hcode ⊢
    cases hlength : key.length with
    | zero => rfl
    | succ n =>
        rw [hlength, List.take_succ_cons] at hcode
        exact absurd (hcode opcode (by simp)) hopcode
  cases request with
  | Disconnect =>
      obtain rfl := Except.ok.inj h
      rfl
  | Subscribe key =>
      rw [if_neg (by simp)]
      exact hnone (by decide) (show (CString.lit "3").bytes = [char '3'] by decide) h
  | Unsubscribe key =>
      rw [if_neg (by simp)]
      exact hnone (by decide) (show (CString.lit "4").bytes = [char '4'] by decide) h

/-- **What can be recovered.**  Whatever reads the FIFO, and even if it knows how many calls there were:
the calls of a session are the only ones with these bytes if and only if there are none, or only a
disconnect. -/
theorem requests_recoverable_iff {requests : List Request} {bytes : List Byte}
    (h : encodeRequests requests = .ok bytes) :
    (∀ requests', requests'.length = requests.length → encodeRequests requests' = .ok bytes →
        requests' = requests) ↔ requests = [] ∨ requests = [.Disconnect] := by
  constructor
  · intro hunique
    by_contra hkey
    rw [not_or] at hkey
    obtain ⟨requests', hne, hlength, hencode⟩ := exists_double_session h hkey.1 hkey.2
    exact hne (hunique requests' hlength hencode)
  · rintro (rfl | rfl) requests' hlength hencode
    · exact List.eq_nil_of_length_eq_zero hlength
    · obtain rfl : kvsDisconnect = bytes := Except.ok.inj h
      obtain ⟨request, rfl⟩ := List.length_eq_one_iff.mp hlength
      obtain ⟨first, rest, hfirst, hrest, hbytes⟩ := encodeRequests_cons_eq_ok.mp hencode
      obtain rfl := Except.ok.inj hrest
      have hsent : kvsDisconnect = first := by simpa using hbytes
      obtain rfl := hsent
      have hone := Request.encode_of_code hfirst fun b hb => List.mem_singleton.mp hb
      by_contra hne
      rw [if_neg fun heq => hne (by rw [heq])] at hone
      exact absurd hone (by decide)

/-- A subscription to `a` and a disconnect cannot be told from other sessions, but a disconnect
can. -/
theorem requests_recoverable_iff_subscribe :
    (∃ requests' : List Request, requests'.length = 2 ∧
      requests' ≠ [.Subscribe (.lit "a"), .Disconnect] ∧
      encodeRequests requests' = .ok (text "32")) ∧
    ∀ requests' : List Request, requests'.length = 1 → encodeRequests requests' = .ok (text "2") →
      requests' = [.Disconnect] := by
  constructor
  · have hencode : encodeRequests [.Subscribe (.lit "a"), .Disconnect] = .ok (text "32") := by decide
    have hnot : ¬ ([Request.Subscribe (.lit "a"), .Disconnect] = [] ∨
        [Request.Subscribe (.lit "a"), .Disconnect] = [.Disconnect]) := by simp
    rw [← requests_recoverable_iff hencode] at hnot
    simp only [not_forall] at hnot
    obtain ⟨requests', hlength, hsame, hne⟩ := hnot
    exact ⟨requests', hlength, hne, hsame⟩
  · have hencode : encodeRequests [.Disconnect] = .ok (text "2") := by decide
    exact (requests_recoverable_iff hencode).mpr (Or.inr rfl)

end Kvs
