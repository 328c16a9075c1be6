import IstKvs.Client.Paths
import IstKvs.Sessions.Indexing

/-! One session between the client API (`api.c`) and the loop of `process_client_thread`.
The client writes a request of fixed size for each call and then reads a response of two
bytes; the server cuts the bytes of the request pipe into requests again and answers each
one. The table may be changed by other threads between any two requests. -/

namespace IstKvs.Client

open IstKvs.Store IstKvs.Sessions

/-! ### The client -/

/-- The calls of the API in a session. -/
inductive ApiCall
  | subscribe (key : CStr)
  | unsubscribe (key : CStr)
  | disconnect
  deriving DecidableEq

namespace ApiCall

/-- What the call writes to the request pipe. -/
def requestBytes : ApiCall → List UInt8
  | .subscribe key => opCodeSubscribe :: fillWithNulls key keyMessageSize
  | .unsubscribe key => opCodeUnsubscribe :: fillWithNulls key keyMessageSize
  | .disconnect => [opCodeDisconnect]

/-- The opcode that the call expects in the response. -/
def expected : ApiCall → UInt8
  | .subscribe _ => opCodeSubscribe
  | .unsubscribe _ => opCodeUnsubscribe
  | .disconnect => opCodeDisconnect

/-- The request that the server should see. -/
def request : ApiCall → Request
  | .subscribe key => .subscribe key
  | .unsubscribe key => .unsubscribe key
  | .disconnect => .disconnect

/-- A key of at most 40 bytes, empty or with a bucket. -/
def valid : ApiCall → Bool
  | .subscribe key | .unsubscribe key =>
    decide (key.length ≤ maxStringSize) && (decide (key.bytes = []) || key.startsAlnum)
  | .disconnect => false

end ApiCall

/-- `read_server_response`: the status, and what is left of the response pipe. -/
def readServerResponse (expectedOpCode : UInt8) : List UInt8 → ℤ × List UInt8
  | [] => (1, [])
  | opcode :: s =>
    if opcode ≠ expectedOpCode then (1, s)
    else match s with
      | [] => (1, [])
      | _ :: s => (0, s)

/-- The statuses of reading a response to each call in turn. -/
def readResponses : List UInt8 → List UInt8 → List ℤ × List UInt8
  | [], s => ([], s)
  | opcode :: opcodes, s =>
    let r := readServerResponse opcode s
    let rest := readResponses opcodes r.2
    (r.1 :: rest.1, rest.2)

/-! ### The server -/

/-- What an outcome puts on the response pipe. -/
def answerBytes (answer : Option (UInt8 × UInt8)) : List UInt8 :=
  match answer with
  | some (opcode, result) => [opcode, result]
  | none => []

/-- `kvs_connect` after its three calls of `open`: the client, the value it returns and what
it writes to the response pipe. Without memory for the client it follows the NULL pointer. -/
def kvsConnect (fdNotif fdReq fdResp : Fd) (mem added : Bool) :
    Except Fault (Option Client × ℤ × List UInt8) :=
  if fdResp < 0 then .ok (none, 1, [])
  else if !mem then .error .null
  else
    let result : ℤ := if fdNotif < 0 ∨ fdReq < 0 ∨ added = false then 1 else 0
    .ok (some ⟨fdReq, fdResp, fdNotif, []⟩, result,
      [opCodeConnect, if result ≠ 0 then UInt8.ofNat '1'.toNat else UInt8.ofNat '0'.toNat])

/-- One turn of the loop reads an opcode, and for two of them a key. -/
def readRequest : List UInt8 → Request × List UInt8
  | [] => (.closed, [])
  | opcode :: s =>
    if opcode = opCodeConnect then (.connect, s)
    else if opcode = opCodeDisconnect then (.disconnect, s)
    else if opcode = opCodeSubscribe then
      if s.length < keyMessageSize then (.noKey, [])
      else (.subscribe (CStr.ofBuffer (s.take keyMessageSize)), s.drop keyMessageSize)
    else if opcode = opCodeUnsubscribe then
      if s.length < keyMessageSize then (.noKey, [])
      else (.unsubscribe (CStr.ofBuffer (s.take keyMessageSize)), s.drop keyMessageSize)
    else (.unknown opcode, s)

/-- What the end of a session by the server puts on the response pipe. -/
def terminateReply (ht : HashTable) (client : Client) (closed disconnectControl : Bool) :
    Except Fault (List UInt8) :=
  if disconnectControl then .ok []
  else (kvsDisconnect ht client closed).map fun o => answerBytes o.answer

/-- What `manage_request` puts on the response pipe. -/
def manageReply (ht : HashTable) (client : Client) (request : Request) (luck : Luck)
    (closed disconnectControl : Bool) : Except Fault (List UInt8) :=
  match request with
  | .connect => .ok []
  | .disconnect => terminateReply ht client closed false
  | .subscribe key => do
    let o ← kvsSubscribe ht key client luck
    if o.status ≠ 0 then
      let reply ← terminateReply o.ht o.client closed disconnectControl
      pure (answerBytes o.answer ++ reply)
    else pure (answerBytes o.answer)
  | .unsubscribe key => do
    let o ← kvsUnsubscribe ht key client luck
    pure (answerBytes o.answer)
  | .noKey | .unknown _ | .closed => terminateReply ht client closed disconnectControl

/-- The loop of `process_client_thread` with every step succeeding and without the signal:
each request with its reply. `tables` are the tables that the requests find. -/
def serve : ℕ → (ℕ → HashTable) → Client → List UInt8 →
    Except Fault (List (Request × List UInt8))
  | 0, _, _, _ => .ok []
  | n + 1, tables, client, s => do
    let r := readRequest s
    let reply ← manageReply (tables 0) client r.1 .all true false
    let next ← manageRequest (tables 0) client r.1 .all true false
    if next.2.2 then
      let rest ← serve n (fun i => tables (i + 1)) next.2.1 r.2
      pure ((r.1, reply) :: rest)
    else pure [(r.1, reply)]

/-- Each turn takes a byte from the pipe, or ends the loop. -/
def serveAll (tables : ℕ → HashTable) (client : Client) (s : List UInt8) :
    Except Fault (List (Request × List UInt8)) := serve (s.length + 1) tables client s

/-! ### One call -/

theorem ofBuffer_key {key : CStr} {size : ℕ} (h : key.length < size) :
    CStr.ofBuffer (fillWithNulls key size) = key := by
  obtain ⟨n, hn⟩ : ∃ n, size - key.length = n + 1 := ⟨size - key.length - 1, by omega⟩
  rw [fillWithNulls, hn, List.replicate_succ, List.take_of_length_le h.le]
  exact key.ofBuffer_terminated _

theorem readRequest_requestBytes {call : ApiCall} (h : call.valid = true ∨ call = .disconnect)
    (s : List UInt8) : readRequest (call.requestBytes ++ s) = (call.request, s) := by
  have hkey : ∀ key : CStr, key.length ≤ maxStringSize →
      ¬ (fillWithNulls key keyMessageSize ++ s).length < keyMessageSize ∧
      CStr.ofBuffer ((fillWithNulls key keyMessageSize ++ s).take keyMessageSize) = key ∧
      (fillWithNulls key keyMessageSize ++ s).drop keyMessageSize = s := by
    intro key hk
    have hlen := length_fillWithNulls key keyMessageSize
    refine ⟨?_, ?_, List.drop_left' hlen⟩
    · rw [List.length_append]
      omega
    · rw [List.take_left' hlen]
      exact ofBuffer_key (Nat.lt_succ_of_le hk)
  rcases h with h | rfl
  · cases call with
    | subscribe key =>
      simp only [ApiCall.valid, Bool.and_eq_true, decide_eq_true_eq] at h
      obtain ⟨hlen, hstr, hrest⟩ := hkey key h.1
      simp only [ApiCall.requestBytes, List.cons_append, readRequest, hstr, hrest, if_neg hlen]
      rfl
    | unsubscribe key =>
      simp only [ApiCall.valid, Bool.and_eq_true, decide_eq_true_eq] at h
      obtain ⟨hlen, hstr, hrest⟩ := hkey key h.1
      simp only [ApiCall.requestBytes, List.cons_append, readRequest, hstr, hrest, if_neg hlen]
      rfl
    | disconnect => cases h
  · rfl

/-! ### A whole session -/

section Calls
variable {call : ApiCall}

theorem ApiCall.usedKey_startsAlnum (h : call.valid = true) :
    ∀ key, call.request.usedKey = some key → key.startsAlnum = true := by
  have hkey : ∀ key : CStr, (decide (key.bytes = []) || key.startsAlnum) = true →
      ∀ k, (if refused key then none else some key) = some k → k.startsAlnum = true := by
    intro key hk k hu
    by_cases hr : refused key = true
    · simp [hr] at hu
    · rw [if_neg hr] at hu
      obtain rfl := Option.some.inj hu
      rcases Bool.or_eq_true _ _ ▸ hk with hnil | hs
      · exact absurd (by simp [refused, CStr.length, of_decide_eq_true hnil]) hr
      · exact hs
  cases call with
  | subscribe key =>
    rw [ApiCall.valid, Bool.and_eq_true] at h
    exact hkey key h.2
  | unsubscribe key =>
    rw [ApiCall.valid, Bool.and_eq_true] at h
    exact hkey key h.2
  | disconnect => cases h

theorem manageReply_call (h : call.valid = true) (ht : HashTable) (client : Client) :
    ∃ result, manageReply ht client call.request .all true false =
      .ok [call.expected, result] := by
  have hused := call.usedKey_startsAlnum h
  cases call with
  | subscribe key =>
    rw [ApiCall.request, manageReply]
    cases hr : refused key with
    | true =>
      rw [kvsSubscribe_refused hr]
      exact ⟨_, rfl⟩
    | false =>
      obtain ⟨b, hb⟩ := bucketOf_eq_ok_iff.mpr
        (hused key (by simp [ApiCall.request, Request.usedKey, hr]))
      rw [kvsSubscribe_eq hr hb]
      exact ⟨_, rfl⟩
  | unsubscribe key =>
    rw [ApiCall.request, manageReply]
    cases hr : refused key with
    | true =>
      rw [kvsUnsubscribe_refused hr]
      exact ⟨_, rfl⟩
    | false =>
      obtain ⟨b, hb⟩ := bucketOf_eq_ok_iff.mpr
        (hused key (by simp [ApiCall.request, Request.usedKey, hr]))
      rw [kvsUnsubscribe_eq hr hb]
      exact ⟨_, rfl⟩
  | disconnect => cases h

theorem manage_disconnect {client : Client} (ht : HashTable)
    (hc : ∀ key ∈ client.subscriptions, key.startsAlnum = true) :
    (∃ result, manageReply ht client .disconnect .all true false =
      .ok [opCodeDisconnect, result]) ∧
    ∃ ht' client', manageRequest ht client .disconnect .all true false =
      .ok (ht', client', false) := by
  obtain ⟨ht', hw⟩ := unsubscribeAll_ok ht client hc
  constructor
  · rw [manageReply, terminateReply, kvsDisconnect, hw]
    exact ⟨_, rfl⟩
  · exact terminate_ok ht client true false hc

end Calls

/-- Each reply has two bytes, the first of them the opcode that is expected there. -/
def Answers (opcodes : List UInt8) (replies : List (List UInt8)) : Prop :=
  List.Forall₂ (fun opcode reply => ∃ result, reply = [opcode, result]) opcodes replies

theorem readResponses_of_answers {opcodes : List UInt8} {replies : List (List UInt8)}
    (h : Answers opcodes replies) (s : List UInt8) :
    readResponses opcodes (replies.flatten ++ s) = (opcodes.map fun _ => 0, s) := by
  induction h with
  | nil => rfl
  | @cons opcode reply opcodes replies hreply _ ih =>
    obtain ⟨result, rfl⟩ := hreply
    have hread : readServerResponse opcode ([opcode, result] ++ (replies.flatten ++ s)) =
        (0, replies.flatten ++ s) := by
      simp [readServerResponse]
    rw [List.flatten_cons, List.append_assoc, readResponses, hread, ih, List.map_cons]

theorem length_le_requestBytes (calls : List ApiCall) :
    calls.length ≤ (calls.flatMap ApiCall.requestBytes).length := by
  induction calls with
  | nil => exact Nat.zero_le _
  | cons call calls ih =>
    have hone : 0 < call.requestBytes.length := by cases call <;> exact Nat.succ_pos _
    rw [List.flatMap_cons, List.length_append, List.length_cons]
    omega

theorem serve_calls (calls : List ApiCall) (h : ∀ call ∈ calls, call.valid = true) (n : ℕ)
    (hn : calls.length < n) (tables : ℕ → HashTable) {rs : List Request} {client : Client}
    (hc : Served rs client) :
    ∃ log, serve n tables client
        (calls.flatMap ApiCall.requestBytes ++ ApiCall.disconnect.requestBytes) = .ok log ∧
      log.map Prod.fst = calls.map ApiCall.request ++ [.disconnect] ∧
      Answers (calls.map ApiCall.expected ++ [opCodeDisconnect]) (log.map Prod.snd) := by
  induction calls generalizing n tables rs client with
  | nil =>
    obtain ⟨n, rfl⟩ := Nat.exists_eq_add_of_lt hn
    obtain ⟨⟨result, hreply⟩, ht', client', hnext⟩ :=
      manage_disconnect (tables 0) hc.startsAlnum
    have hread : readRequest (ApiCall.disconnect.requestBytes ++ []) = (.disconnect, []) :=
      readRequest_requestBytes (.inr rfl) []
    rw [List.append_nil] at hread
    refine ⟨[(.disconnect, [opCodeDisconnect, result])], ?_, rfl, .cons ⟨_, rfl⟩ .nil⟩
    rw [serve, List.flatMap_nil, List.nil_append, hread]
    simp only [hreply, hnext]
    rfl
  | cons call calls ih =>
    obtain ⟨n, rfl⟩ := Nat.exists_eq_add_of_lt hn
    have hcall := h call List.mem_cons_self
    obtain ⟨result, hreply⟩ := manageReply_call hcall (tables 0) client
    obtain ⟨ht', client', hnext⟩ := manageRequest_continues client
      (call.usedKey_startsAlnum hcall) (by cases call <;> first | rfl | cases hcall) (tables 0)
    obtain ⟨log, hlog, hfst, hsnd⟩ := ih (fun c hm => h c (List.mem_cons_of_mem _ hm))
      (calls.length + 1 + n) (by omega) (fun i => tables (i + 1)) (hc.snoc hnext)
    refine ⟨(call.request, [call.expected, result]) :: log, ?_, ?_, ?_⟩
    · rw [serve, List.flatMap_cons, List.append_assoc, readRequest_requestBytes (.inl hcall)]
      simp only [hreply, hnext, bind, Except.bind, if_true]
      rw [List.length_cons, hlog]
      rfl
    · rw [List.map_cons, hfst, List.map_cons, List.cons_append]
    · exact .cons ⟨_, rfl⟩ hsnd

/-- In a session of valid calls and a disconnect the server sees the requests that the
client made, with their keys, and the client finds the response it expects to each. -/
theorem session_agrees (calls : List ApiCall) (h : ∀ call ∈ calls, call.valid = true)
    (tables : ℕ → HashTable) {fdNotif fdReq fdResp : Fd} (hfds : 0 ≤ fdNotif ∧ 0 ≤ fdReq ∧
      0 ≤ fdResp) :
    ∃ client connected log, kvsConnect fdNotif fdReq fdResp true true =
        .ok (some client, 0, connected) ∧
      serveAll tables client
        (calls.flatMap ApiCall.requestBytes ++ ApiCall.disconnect.requestBytes) = .ok log ∧
      log.map Prod.fst = calls.map ApiCall.request ++ [.disconnect] ∧
      Answers (opCodeConnect :: (calls.map ApiCall.expected ++ [opCodeDisconnect]))
        (connected :: log.map Prod.snd) ∧
      readResponses (opCodeConnect :: (calls.map ApiCall.expected ++ [opCodeDisconnect]))
        (connected ++ (log.map Prod.snd).flatten) =
        (0 :: (calls.map fun _ => 0) ++ [0], []) := by
  obtain ⟨hnotif, hreq, hresp⟩ := hfds
  have hfuel : calls.length < (calls.flatMap ApiCall.requestBytes ++
      ApiCall.disconnect.requestBytes).length + 1 := by
    have hle := length_le_requestBytes calls
    rw [List.length_append]
    omega
  obtain ⟨log, hlog, hfst, hsnd⟩ := serve_calls calls h _ hfuel tables
    (.nil rfl : Served [] ⟨fdReq, fdResp, fdNotif, []⟩)
  have hall : Answers (opCodeConnect :: (calls.map ApiCall.expected ++ [opCodeDisconnect]))
      ([opCodeConnect, UInt8.ofNat '0'.toNat] :: log.map Prod.snd) := .cons ⟨_, rfl⟩ hsnd
  have hread := readResponses_of_answers hall []
  refine ⟨⟨fdReq, fdResp, fdNotif, []⟩, _, log, ?_, hlog, hfst, hall, ?_⟩
  · rw [kvsConnect, if_neg (not_lt.mpr hresp)]
    simp [not_lt.mpr hnotif, not_lt.mpr hreq]
  · rw [List.append_nil, List.flatten_cons] at hread
    rw [hread]
    simp [Function.comp_def]

/-- A session with a key twice and an empty key, on a table that stays empty. -/
theorem session_agrees_threeCalls :
    let a : CStr := .ofBuffer (chars ['a'])
    let calls : List ApiCall := [.subscribe a, .unsubscribe (.ofBuffer []), .unsubscribe a]
    let opcodes : List UInt8 := [opCodeConnect, opCodeSubscribe, opCodeUnsubscribe,
      opCodeUnsubscribe, opCodeDisconnect]
    ∃ client connected log, kvsConnect 5 6 7 true true = .ok (some client, 0, connected) ∧
      serveAll (fun _ => createHashTable) client
        (calls.flatMap ApiCall.requestBytes ++ ApiCall.disconnect.requestBytes) = .ok log ∧
      log.map Prod.fst = [.subscribe a, .unsubscribe (.ofBuffer []), .unsubscribe a,
        .disconnect] ∧
      Answers opcodes (connected :: log.map Prod.snd) ∧
      readResponses opcodes (connected ++ (log.map Prod.snd).flatten) =
        ([0, 0, 0, 0, 0], []) :=
  session_agrees _ (by decide) (fun _ => createHashTable) (by decide)

end IstKvs.Client
