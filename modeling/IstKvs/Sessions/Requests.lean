import IstKvs.Store.Operations

/-! The requests of a client session as complete calls (`operations.c`, and
`manage_request` of `main.c`): what each does to the table and to the client's own
list of subscriptions, what it answers on the response pipe and what it returns. -/

namespace IstKvs.Sessions

open IstKvs.Store

def opCodeConnect : UInt8 := UInt8.ofNat '1'.toNat

def opCodeDisconnect : UInt8 := UInt8.ofNat '2'.toNat

def opCodeSubscribe : UInt8 := UInt8.ofNat '3'.toNat

def opCodeUnsubscribe : UInt8 := UInt8.ofNat '4'.toNat

def resultKeyExists : UInt8 := UInt8.ofNat '1'.toNat

def resultKeyDoesntExist : UInt8 := UInt8.ofNat '0'.toNat

def keyMessageSize : ℕ := 41

/-- `subscriptions` is the client's own list of keys, from its head on. -/
structure Client where
  fdReq : Fd
  fdResp : Fd
  fdNotif : Fd
  subscriptions : List CStr
  deriving DecidableEq

/-! ### The calls -/

/-- What a call leaves behind: table, client, the answer it sends on the response
pipe (opcode and result) and the value it returns. -/
structure Outcome where
  ht : HashTable
  client : Client
  answer : Option (UInt8 × UInt8)
  status : ℤ

/-- Which steps of a request succeed: the allocations of a subscriber, of a
subscription and of its key, and the write of the answer. -/
structure Luck where
  subscriber : Bool
  newSub : Bool
  newSubKey : Bool
  respond : Bool

def Luck.all : Luck := ⟨true, true, true, true⟩

/-- A key that `kvs_subscribe` and `kvs_unsubscribe` refuse. -/
def refused (key : CStr) : Bool := key.length = 0 || maxStringSize < key.length

def kvsSubscribe (ht : HashTable) (key : CStr) (client : Client) (luck : Luck) :
    Except Fault Outcome :=
  if refused key then .ok ⟨ht, client, some (opCodeSubscribe, resultKeyDoesntExist), 0⟩
  else do
    let index ← bucketOf key
    let r := subscribeChain (ht index) key client.fdNotif luck.subscriber
    let ht' := Function.update ht index r.chain
    let result := if r.found then resultKeyExists else resultKeyDoesntExist
    if r.subscriptionStatus = 0 then
      if luck.newSub && luck.newSubKey then
        let client' := { client with subscriptions := key :: client.subscriptions }
        pure ⟨ht', client', some (opCodeSubscribe, result), if luck.respond then 0 else -1⟩
      else pure ⟨ht', client, none, -1⟩
    else pure ⟨ht', client, some (opCodeSubscribe, result), if luck.respond then 0 else -1⟩

/-- 0 if the client was removed from the subscribers of the key, 1 otherwise. -/
def kvsAuxUnsubscribe (ht : HashTable) (key : CStr) (client : Client) :
    Except Fault (HashTable × ℤ) := do
  let index ← bucketOf key
  let r := unsubscribeChain (ht index) key client.fdNotif
  pure (Function.update ht index r.1, r.2)

/-- Every entry of the key leaves the client's list. -/
def clientRemoveSubscription (key : CStr) (client : Client) : Client :=
  { client with subscriptions := client.subscriptions.filter fun k => strcmp k key ≠ 0 }

def kvsUnsubscribe (ht : HashTable) (key : CStr) (client : Client) (luck : Luck) :
    Except Fault Outcome :=
  if refused key then .ok ⟨ht, client, some (opCodeUnsubscribe, 1), 0⟩
  else do
    let client' := clientRemoveSubscription key client
    let r ← kvsAuxUnsubscribe ht key client'
    let answer := if r.2 ≠ 0 then UInt8.ofNat '1'.toNat else UInt8.ofNat '0'.toNat
    pure ⟨r.1, client', some (opCodeUnsubscribe, answer), if luck.respond then 0 else 1⟩

/-- The subscription walk of `kvs_disconnect` and `clean_all_clients`. -/
def unsubscribeAll (ht : HashTable) (client : Client) : Except Fault HashTable :=
  client.subscriptions.foldlM (fun ht key => do
    let r ← kvsAuxUnsubscribe ht key client
    pure r.1) ht

/-- `closed` says whether the request and notification pipes could be closed. -/
def kvsDisconnect (ht : HashTable) (client : Client) (closed : Bool) : Except Fault Outcome := do
  let ht' ← unsubscribeAll ht client
  let result := if closed then UInt8.ofNat '0'.toNat else UInt8.ofNat '1'.toNat
  pure ⟨ht', { client with subscriptions := [] }, some (opCodeDisconnect, result), 0⟩

/-! ### The request pipe -/

/-- What the server reads from the request pipe: a request with its key, or what
ends the session. -/
inductive Request
  | connect
  | disconnect
  | subscribe (key : CStr)
  | unsubscribe (key : CStr)
  | noKey
  | unknown (opcode : UInt8)
  | closed
  deriving DecidableEq

/-- The session goes on after a request of this kind that does not fail. -/
def Request.continues : Request → Bool
  | .connect | .subscribe _ | .unsubscribe _ => true
  | _ => false

/-- A request with a key message: the bytes up to its first NUL, all of them if there is none. -/
def keyRequest (request : CStr → Request) (s : List UInt8) (rest : List Request) : List Request :=
  if s.length < keyMessageSize then [.noKey]
  else request (CStr.ofBuffer (s.take keyMessageSize)) :: rest

def requestsFrom : ℕ → List UInt8 → List Request
  | 0, _ => []
  | _ + 1, [] => [.closed]
  | n + 1, opcode :: s =>
    if opcode = opCodeConnect then .connect :: requestsFrom n s
    else if opcode = opCodeDisconnect then [.disconnect]
    else if opcode = opCodeSubscribe then
      keyRequest .subscribe s (requestsFrom n (s.drop keyMessageSize))
    else if opcode = opCodeUnsubscribe then
      keyRequest .unsubscribe s (requestsFrom n (s.drop keyMessageSize))
    else [.unknown opcode]

/-- The requests that the bytes of a request pipe stand for; each takes at least one byte. -/
def requests (s : List UInt8) : List Request := requestsFrom (s.length + 1) s

/-- The end of a session by the server: nothing but the end of the loop while
`disconnectControl` is set. -/
def terminate (ht : HashTable) (client : Client) (closed disconnectControl : Bool) :
    Except Fault (HashTable × Client × Bool) :=
  if disconnectControl then .ok (ht, client, false)
  else do
    let r ← kvsDisconnect ht client closed
    pure (r.ht, r.client, false)

/-- One request: the table and the client after it, and whether the session goes on. -/
def manageRequest (ht : HashTable) (client : Client) (request : Request) (luck : Luck)
    (closed disconnectControl : Bool) : Except Fault (HashTable × Client × Bool) :=
  match request with
  | .connect => .ok (ht, client, true)
  | .disconnect => terminate ht client closed false
  | .subscribe key => do
    let r ← kvsSubscribe ht key client luck
    if r.status ≠ 0 then terminate r.ht r.client closed disconnectControl
    else pure (r.ht, r.client, true)
  | .unsubscribe key => do
    let r ← kvsUnsubscribe ht key client luck
    pure (r.ht, r.client, true)
  | .noKey | .unknown _ | .closed => terminate ht client closed disconnectControl

/-! ### Keys with a bucket -/

section Indexed
variable {ht : HashTable} {key : CStr} {b : Bucket} {client : Client}

theorem kvsSubscribe_refused (h : refused key = true) (luck : Luck) :
    kvsSubscribe ht key client luck =
      .ok ⟨ht, client, some (opCodeSubscribe, resultKeyDoesntExist), 0⟩ := by
  rw [kvsSubscribe, if_pos h]

theorem kvsUnsubscribe_refused (h : refused key = true) (luck : Luck) :
    kvsUnsubscribe ht key client luck = .ok ⟨ht, client, some (opCodeUnsubscribe, 1), 0⟩ := by
  rw [kvsUnsubscribe, if_pos h]

theorem kvsAuxUnsubscribe_eq (h : bucketOf key = .ok b) (ht : HashTable) (client : Client) :
    kvsAuxUnsubscribe ht key client =
      .ok (Function.update ht b (unsubscribeChain (ht b) key client.fdNotif).1,
        (unsubscribeChain (ht b) key client.fdNotif).2) := by
  rw [kvsAuxUnsubscribe, h]
  rfl

theorem kvsUnsubscribe_eq (hr : refused key = false) (h : bucketOf key = .ok b) (luck : Luck) :
    kvsUnsubscribe ht key client luck =
      .ok ⟨Function.update ht b (unsubscribeChain (ht b) key client.fdNotif).1,
        clientRemoveSubscription key client,
        some (opCodeUnsubscribe, if (unsubscribeChain (ht b) key client.fdNotif).2 ≠ 0
          then UInt8.ofNat '1'.toNat else UInt8.ofNat '0'.toNat),
        if luck.respond then 0 else 1⟩ := by
  have ha := kvsAuxUnsubscribe_eq h ht (clientRemoveSubscription key client)
  rw [kvsUnsubscribe, if_neg (by simp [hr])]
  show (kvsAuxUnsubscribe ht key (clientRemoveSubscription key client) >>= _) = _
  rw [ha]
  rfl

/-- A subscription with every allocation and the answer succeeding. -/
theorem kvsSubscribe_eq (hr : refused key = false) (h : bucketOf key = .ok b) :
    kvsSubscribe ht key client .all =
      .ok ⟨Function.update ht b (subscribeChain (ht b) key client.fdNotif true).chain,
        if (subscribeChain (ht b) key client.fdNotif true).subscriptionStatus = 0
          then { client with subscriptions := key :: client.subscriptions } else client,
        some (opCodeSubscribe, if (subscribeChain (ht b) key client.fdNotif true).found
          then resultKeyExists else resultKeyDoesntExist), 0⟩ := by
  rw [kvsSubscribe, if_neg (by simp [hr]), h]
  by_cases hs : (subscribeChain (ht b) key client.fdNotif true).subscriptionStatus = 0
  · rw [if_pos hs]
    exact if_pos hs
  · rw [if_neg hs]
    exact if_neg hs

theorem kvsSubscribe_ok (hr : refused key = false) (h : bucketOf key = .ok b) (luck : Luck) :
    ∃ o, kvsSubscribe ht key client luck = .ok o := by
  rw [kvsSubscribe, if_neg (by simp [hr]), h]
  by_cases hs : (subscribeChain (ht b) key client.fdNotif luck.subscriber).subscriptionStatus = 0
  · by_cases hm : (luck.newSub && luck.newSubKey) = true
    · exact ⟨_, (if_pos hs).trans (if_pos hm)⟩
    · exact ⟨_, (if_pos hs).trans (if_neg hm)⟩
  · exact ⟨_, if_neg hs⟩

/-- A key without a bucket is used as an index by each of the three calls. -/
theorem index_of_not_startsAlnum (hr : refused key = false) (h : key.startsAlnum = false)
    (luck : Luck) : kvsSubscribe ht key client luck = .error (.index (-1)) ∧
      kvsUnsubscribe ht key client luck = .error (.index (-1)) ∧
      kvsAuxUnsubscribe ht key client = .error (.index (-1)) := by
  have hb := bucketOf_eq_error h
  have haux : ∀ c, kvsAuxUnsubscribe ht key c = .error (.index (-1)) := by
    intro c
    rw [kvsAuxUnsubscribe, hb]
    rfl
  refine ⟨?_, ?_, haux client⟩
  · rw [kvsSubscribe, if_neg (by simp [hr]), hb]
    rfl
  · rw [kvsUnsubscribe, if_neg (by simp [hr])]
    show (kvsAuxUnsubscribe ht key (clientRemoveSubscription key client) >>= _) = _
    rw [haux]
    rfl

/-- A call that returns on a key that is not refused was on a key with a bucket. -/
theorem bucketOf_of_kvsSubscribe (hr : refused key = false) {luck : Luck} {o : Outcome}
    (h : kvsSubscribe ht key client luck = .ok o) : ∃ b, bucketOf key = .ok b := by
  cases hs : key.startsAlnum with
  | false =>
    rw [(index_of_not_startsAlnum hr hs luck).1] at h
    cases h
  | true => exact bucketOf_eq_ok_iff.mpr hs

theorem bucketOf_of_kvsUnsubscribe (hr : refused key = false) {luck : Luck} {o : Outcome}
    (h : kvsUnsubscribe ht key client luck = .ok o) : ∃ b, bucketOf key = .ok b := by
  cases hs : key.startsAlnum with
  | false =>
    rw [(index_of_not_startsAlnum hr hs luck).2.1] at h
    cases h
  | true => exact bucketOf_eq_ok_iff.mpr hs

end Indexed

/-- The walk succeeds on a list of keys that all have a bucket. -/
theorem unsubscribeAll_ok (ht : HashTable) (client : Client)
    (h : ∀ key ∈ client.subscriptions, key.startsAlnum = true) :
    ∃ ht', unsubscribeAll ht client = .ok ht' := by
  unfold unsubscribeAll
  generalize client.subscriptions = keys at h
  induction keys generalizing ht with
  | nil => exact ⟨ht, rfl⟩
  | cons key keys ih =>
    obtain ⟨b, hb⟩ := bucketOf_eq_ok_iff.mpr (h key List.mem_cons_self)
    obtain ⟨ht', h'⟩ := ih (Function.update ht b (unsubscribeChain (ht b) key client.fdNotif).1)
      fun k hk => h k (List.mem_cons_of_mem _ hk)
    refine ⟨ht', ?_⟩
    rw [List.foldlM_cons, kvsAuxUnsubscribe_eq hb]
    exact h'

theorem terminate_ok (ht : HashTable) (client : Client) (closed disconnectControl : Bool)
    (h : ∀ key ∈ client.subscriptions, key.startsAlnum = true) :
    ∃ ht' client', terminate ht client closed disconnectControl = .ok (ht', client', false) := by
  cases disconnectControl with
  | true => exact ⟨ht, client, rfl⟩
  | false =>
    obtain ⟨ht', hw⟩ := unsubscribeAll_ok ht client h
    refine ⟨ht', { client with subscriptions := [] }, ?_⟩
    rw [terminate, kvsDisconnect, hw]
    rfl

theorem terminate_not_continues {ht ht' : HashTable} {client client' : Client}
    {closed disconnectControl : Bool} :
    terminate ht client closed disconnectControl ≠ .ok (ht', client', true) := by
  cases disconnectControl with
  | true => simp [terminate]
  | false =>
    rw [terminate, kvsDisconnect]
    cases unsubscribeAll ht client with
    | error f => exact fun h => by cases h
    | ok ht₁ => exact fun h => by cases h

end IstKvs.Sessions
