import IstKvs.Sessions.Requests
import IstKvs.Store.Subscribers
import IstKvs.Systems.Run

/-! The threads of the server over their shared data: job threads in `kvs_write` and
`kvs_delete`, client threads in `process_client_thread` and the calls under it, the host
thread in `process_host_thread`, and the handler of SIGUSR1. A step is one access to
shared data, a section under a mutex, or one pass over a client's own list; calls that
only read the table are left out. A step is not taken when it would wait or end the
process (a client that is NULL, a key without a bucket). The host may go on without the
token of a semaphore, so that every schedule of the two semaphores is among the runs. -/

namespace IstKvs.Server

open IstKvs.Store IstKvs.Sessions IstKvs.Systems Function

/-! ### Keys, calls and files -/

/-- A string that fits the buffers of the server. -/
structure Text where
  str : CStr
  short : str.length ≤ maxStringSize
  deriving DecidableEq

/-- A key with its bucket. -/
structure Key extends Text where
  index : Bucket
  located : bucketOf str = .ok index
  deriving DecidableEq

/-- The key that a string is, if it has a bucket. -/
def Key.of? (s : CStr) : Option Key :=
  if short : s.length ≤ maxStringSize then
    match located : bucketOf s with
    | .ok index => some ⟨⟨s, short⟩, index, located⟩
    | .error _ => none
  else none

theorem Key.str_of? {s : CStr} {key : Key} (h : Key.of? s = some key) : key.str = s := by
  unfold Key.of? at h
  split_ifs at h
  split at h
  · cases h; rfl
  · cases h

theorem Key.index_eq {key key' : Key} (h : key.str = key'.str) : key.index = key'.index := by
  have hb := key.located
  rw [h, key'.located] at hb
  exact (Except.ok.inj hb).symm

/-- One pair of a `kvs_write` or one key of a `kvs_delete`. -/
inductive Update
  | write (key : Key) (value : Text)
  | delete (key : Key)
  deriving DecidableEq

namespace Update

def key : Update → Key
  | write key _ => key
  | delete key => key

/-- What the subscribers are sent as the value. -/
def value : Update → Text
  | write _ value => value
  | delete _ => ⟨deleteValue, by decide⟩

end Update

/-- A call of a job thread, with its pairs or keys as `qsort` leaves them. -/
inductive Call
  | kvsWrite (pairs : List (Key × Text))
  | kvsDelete (keys : List Key)
  deriving DecidableEq

def Call.updates : Call → List Update
  | kvsWrite pairs => pairs.map fun p => .write p.1 p.2
  | kvsDelete keys => keys.map .delete

/-- Sessions are numbered as the client threads take them from the queue. -/
abbrev Sid := ℕ

inductive Kind
  | req | resp | notif
  deriving DecidableEq

/-- What a descriptor is open on: a pipe of a session, or any other file. -/
inductive File
  | pipe (sid : Sid) (kind : Kind)
  | other
  deriving DecidableEq

def fdOf (client : Client) : Kind → Fd
  | .req => client.fdReq
  | .resp => client.fdResp
  | .notif => client.fdNotif

def setFd (client : Client) (kind : Kind) (fd : Fd) : Client :=
  match kind with
  | .req => { client with fdReq := fd }
  | .resp => { client with fdResp := fd }
  | .notif => { client with fdNotif := fd }

@[simp] theorem fdOf_setFd_self (client : Client) (kind : Kind) (fd : Fd) :
    fdOf (setFd client kind fd) kind = fd := by
  cases kind <;> rfl

theorem fdOf_setFd_of_ne {kind kind' : Kind} (h : kind' ≠ kind) (client : Client) (fd : Fd) :
    fdOf (setFd client kind fd) kind' = fdOf client kind' := by
  cases kind <;> cases kind' <;> first | rfl | exact absurd rfl h

@[simp] theorem subscriptions_setFd (client : Client) (kind : Kind) (fd : Fd) :
    (setFd client kind fd).subscriptions = client.subscriptions := by
  cases kind <;> rfl

/-! ### Threads -/

/-- The threads; there are as many client threads as slots for clients. -/
inductive Actor (τ : Type*) (n : ℕ)
  | job (t : τ)
  | client (i : Fin n)
  | host
  deriving DecidableEq

/-- What a client thread answers on the response pipe before it reads on. -/
inductive Answer
  | refused
  | subscribed
  | unsubscribed (key : Key)
  deriving DecidableEq

/-- Where a thread is, with its local variables. -/
inductive Stage
  -- a job thread; `acq` are the buckets locked so far
  | idle
  | locking (todo : List Key) (work : List Update) (acq : List Bucket)
  | working (work : List Update) (acq : List Bucket)
  | notifying (u : Update) (fds : List Fd) (keySent : Bool) (work : List Update)
      (acq : List Bucket)
  | unlocking (acq : List Bucket)
  -- `kvs_connect`; `failed` says that its result is 1
  | openPipe (sid : Sid) (kind : Kind) (failed : Bool)
  | create (sid : Sid) (failed : Bool)
  | addClient (sid : Sid) (failed : Bool)
  | replyConnect (sid : Sid) (failed : Bool)
  -- the loop of `process_client_thread`: before, inside and after the read of an opcode
  | readOp (sid : Sid)
  | blocked (sid : Sid)
  | check (sid : Sid) (opcode : Option UInt8)
  | readKey (sid : Sid) (subscribe : Bool)
  | failed (sid : Sid)
  | answer (sid : Sid) (what : Answer)
  -- `kvs_subscribe`
  | subscribe (sid : Sid) (key : Key)
  | subscribeFind (sid : Sid) (key : Key)
  | subscribeUnlock (sid : Sid) (key : Key) (added : Bool)
  | record (sid : Sid) (key : Key)
  -- `kvs_unsubscribe`
  | forget (sid : Sid) (key : Key)
  | unsubscribe (sid : Sid) (key : Key)
  | unsubscribeFind (sid : Sid) (key : Key)
  | unsubscribeUnlock (sid : Sid) (key : Key)
  -- `kvs_disconnect` from its call on, and one client in `clean_all_clients`
  | disconnect (sid : Sid)
  | walk (sid : Sid) (rest : List CStr)
  | walkFind (sid : Sid) (key : Key) (rest : List CStr)
  | walkUnlock (sid : Sid) (key : Key) (rest : List CStr)
  | clear (sid : Sid)
  | close (sid : Sid) (kind : Kind)
  | replyDisconnect (sid : Sid)
  | remove (sid : Sid)
  -- `process_host_thread`, `restart_clients`
  | hostCheck
  | hostRead
  | resetControl
  | enqueue
  | cleanLock
  | cleanSlot
  | cleanUnlock
  | resetRestart
  deriving DecidableEq

/-- The stages of a job thread. -/
def Stage.isJob : Stage → Bool
  | .idle | .locking .. | .working .. | .notifying .. | .unlocking _ => true
  | _ => false

/-! ### The state -/

/-- `handlers` counts the runs of the signal handler between its two flags, `queued` the
connections read and not yet taken, and `slot` is the loop variable of `clean_all_clients`.
The last six fields record the past: the keys a session has subscribed to and not
completed an unsubscription from, how often its teardown was begun, whether
`clean_all_clients` began it, whether its client was freed, what arrived at its
notification pipe, and the updates that set or deleted a key. -/
structure State (τ : Type*) (n : ℕ) where
  ht : HashTable
  bucketLocks : Bucket → Option (Actor τ n)
  files : Fd → Option File
  client : Sid → Client
  nextSession : Sid
  connectedClients : Fin n → Option Sid
  connectedClientsMutex : Bool
  slot : ℕ
  disconnectControl : Bool
  restartClients : Bool
  handlers : ℕ
  queued : ℕ
  stage : Actor τ n → Stage
  requested : Sid → List CStr
  teardowns : Sid → ℕ
  cleaned : Sid → Bool
  freed : Sid → Bool
  arrived : Sid → List UInt8
  updates : List (CStr × CStr)

variable {τ : Type*} {n : ℕ}

/-- The local variables of a `kvs_connect` that has opened nothing yet. -/
def noClient : Client := ⟨-1, -1, -1, []⟩

def Actor.start : Actor τ n → Stage
  | host => .hostCheck
  | _ => .idle

def State.initial : State τ n where
  ht := createHashTable
  bucketLocks := fun _ => none
  files := fun _ => none
  client := fun _ => noClient
  nextSession := 0
  connectedClients := fun _ => none
  connectedClientsMutex := false
  slot := 0
  disconnectControl := false
  restartClients := false
  handlers := 0
  queued := 0
  stage := Actor.start
  requested := fun _ => []
  teardowns := fun _ => 0
  cleaned := fun _ => false
  freed := fun _ => false
  arrived := fun _ => []
  updates := []

/-- What a step gets from outside: the call of a job thread, the outcomes of allocations,
of reads, opens and writes, the descriptor of an opened file, the opcode and the key read
from the request pipe, and the memory behind a string that is sent with 41 bytes. -/
structure Input where
  call : Call := .kvsDelete []
  mem : WriteMem := .ok
  alloc : Bool := true
  ok : Bool := true
  fd : Fd := 0
  opcode : Option UInt8 := none
  key : Option CStr := none
  pad : ℕ → UInt8 := fun _ => 0

/-- The 41 bytes sent for a key or a value. -/
def block (s : CStr) (pad : ℕ → UInt8) : List UInt8 :=
  (s.bytes ++ 0 :: (List.range maxStringSize).map pad).take keyMessageSize

namespace State

/-- The comparison of `remove_client`. -/
def sameFds (s : State τ n) (sid sid' : Sid) : Bool :=
  (s.client sid).fdReq = (s.client sid').fdReq && (s.client sid).fdResp = (s.client sid').fdResp &&
    (s.client sid).fdNotif = (s.client sid').fdNotif

/-- The slot that `add_client` takes. -/
def freeSlot (s : State τ n) : Option (Fin n) := Fin.find? fun k => s.connectedClients k = none

/-- The slot that `remove_client` finds by the descriptors of the session. -/
def findClient (s : State τ n) (sid : Sid) : Option (Fin n) :=
  Fin.find? fun k => (s.connectedClients k).any fun sid' => s.sameFds sid' sid

/-- Bytes written to a descriptor; they arrive if it is a notification pipe. -/
def deliver (s : State τ n) (fd : Fd) (bytes : List UInt8) : State τ n :=
  match s.files fd with
  | some (.pipe sid .notif) =>
    { s with arrived := update s.arrived sid (s.arrived sid ++ bytes) }
  | _ => s

def openFd (s : State τ n) (sid : Sid) (kind : Kind) (fd : Fd) : State τ n :=
  { s with
    files := update s.files fd (some (.pipe sid kind))
    client := update s.client sid (setFd (s.client sid) kind fd) }

def closeFd (s : State τ n) (fd : Fd) : State τ n := { s with files := update s.files fd none }

def setChain (s : State τ n) (b : Bucket) (chain : List KeyNode) : State τ n :=
  { s with ht := update s.ht b chain }

def setSubscriptions (s : State τ n) (sid : Sid) (keys : List CStr) : State τ n :=
  { s with client := update s.client sid { s.client sid with subscriptions := keys } }

def setRequested (s : State τ n) (sid : Sid) (keys : List CStr) : State τ n :=
  { s with requested := update s.requested sid keys }

def unlock (s : State τ n) (b : Bucket) : State τ n :=
  { s with bucketLocks := update s.bucketLocks b none }

variable [DecidableEq τ]

def goto (s : State τ n) (a : Actor τ n) (stage : Stage) : State τ n :=
  { s with stage := update s.stage a stage }

/-- A bucket lock is granted when nobody holds it. -/
def lock (s : State τ n) (a : Actor τ n) (b : Bucket) : Option (State τ n) :=
  if s.bucketLocks b = none then some { s with bucketLocks := update s.bucketLocks b (some a) }
  else none

/-- The start of a teardown, which reads the list of the client. -/
def teardown (s : State τ n) (a : Actor τ n) (sid : Sid) : State τ n :=
  { s with teardowns := update s.teardowns sid (s.teardowns sid + 1) }.goto a
    (.walk sid (s.client sid).subscriptions)

end State

theorem stage_goto [DecidableEq τ] (s : State τ n) (a b : Actor τ n) (st : Stage) :
    (s.goto a st).stage b = if b = a then st else s.stage b :=
  update_apply ..

theorem goto_self [DecidableEq τ] (s : State τ n) (a : Actor τ n) : s.goto a (s.stage a) = s := by
  simp [State.goto]

theorem lock_eq {s u : State τ n} {a : Actor τ n} {b : Bucket} (h : s.lock a b = some u) :
    s.bucketLocks b = none ∧
      u = { s with bucketLocks := update s.bucketLocks b (some a) } := by
  unfold State.lock at h
  split at h
  next hb => cases h; exact ⟨hb, rfl⟩
  next => cases h

theorem deliver_eq (s : State τ n) (fd : Fd) (bytes : List UInt8) :
    ∃ arrived, s.deliver fd bytes = { s with arrived := arrived } := by
  unfold State.deliver
  split
  · exact ⟨_, rfl⟩
  · exact ⟨s.arrived, rfl⟩

/-! ### Steps -/

/-- The buckets of a list in the order in which `unlock_list` visits them. -/
def lockedBuckets (acq : List Bucket) : List Bucket :=
  (List.finRange tableSize).filter (· ∈ acq)

section Steps
variable [DecidableEq τ]

/-- `kvs_write` and `kvs_delete`, with `write_pair`, `delete_pair` and `notify_subscribers`. -/
def jobStep (s : State τ n) (t : τ) (x : Input) : Option (State τ n) :=
  let a := Actor.job t
  match s.stage a with
  | .idle => some (s.goto a (.locking (x.call.updates.map Update.key) x.call.updates []))
  | .locking [] work acq => some (s.goto a (.working work acq))
  | .locking (key :: todo) work acq =>
    if key.index ∈ acq then some (s.goto a (.locking todo work acq))
    else (s.lock a key.index).map (·.goto a (.locking todo work (key.index :: acq)))
  | .working [] acq => some (s.goto a (.unlocking (lockedBuckets acq)))
  | .working (.write key value :: work) acq =>
    let r := writeChain (s.ht key.index) key.str value.str x.mem
    let set := r.status = 0 ∧ x.mem.value = true
    some ({ s.setChain key.index r.chain with
        updates := if set then s.updates ++ [(key.str, value.str)] else s.updates }.goto a
      (.notifying (.write key value) (r.sent.map Message.fd) false work acq))
  | .working (.delete key :: work) acq =>
    let r := deleteChain (s.ht key.index) key.str
    let deleted := r.status = 0
    some ({ s with
        updates := if deleted then s.updates ++ [(key.str, deleteValue)] else s.updates }.goto a
      (.notifying (.delete key) (r.sent.map Message.fd) false work acq))
  | .notifying u (fd :: fds) false work acq =>
    some ((s.deliver fd (block u.key.str x.pad)).goto a (.notifying u (fd :: fds) true work acq))
  | .notifying u (fd :: fds) true work acq =>
    some ((s.deliver fd (block u.value.str x.pad)).goto a (.notifying u fds false work acq))
  | .notifying (.write _ _) [] _ work acq => some (s.goto a (.working work acq))
  | .notifying (.delete key) [] _ work acq =>
    -- the node is unlinked after its subscribers were notified
    some ((s.setChain key.index (deleteChain (s.ht key.index) key.str).chain).goto a
      (.working work acq))
  | .unlocking (b :: acq) => some ((s.unlock b).goto a (.unlocking acq))
  | .unlocking [] => some (s.goto a .idle)
  | _ => none

/-- What `kvs_disconnect` and `clean_all_clients` share, up to the three closes. -/
def teardownStep (s : State τ n) (a : Actor τ n) : Option (State τ n) :=
  match s.stage a with
  | .walk sid [] => some (s.goto a (.clear sid))
  | .walk sid (k :: rest) =>
    (Key.of? k).bind fun key => (s.lock a key.index).map (·.goto a (.walkFind sid key rest))
  | .walkFind sid key rest =>
    let chain := (unsubscribeChain (s.ht key.index) key.str (s.client sid).fdNotif).1
    some ((s.setChain key.index chain).goto a (.walkUnlock sid key rest))
  | .walkUnlock sid key rest => some ((s.unlock key.index).goto a (.walk sid rest))
  | .clear sid => some ((s.setSubscriptions sid []).goto a (.close sid .req))
  | .close sid .req => some ((s.closeFd (s.client sid).fdReq).goto a (.close sid .notif))
  | .close sid .notif =>
    some ((s.closeFd (s.client sid).fdNotif).goto a
      (if a = .host then .close sid .resp else .replyDisconnect sid))
  | .replyDisconnect sid => some (s.goto a (.close sid .resp))
  | .close sid .resp => some ((s.closeFd (s.client sid).fdResp).goto a (.remove sid))
  | _ => none

/-- `open` returns a descriptor that is not open at that moment. Without a response pipe
there is no client to disconnect. -/
def openStep (s : State τ n) (a : Actor τ n) (sid : Sid) (kind : Kind) (x : Input)
    (opened refused : Option Stage) : Option (State τ n) :=
  if x.ok then
    if 0 ≤ x.fd ∧ s.files x.fd = none then opened.map ((s.openFd sid kind x.fd).goto a)
    else none
  else refused.map (s.goto a)

/-- `process_client_thread`, `manage_request` and the calls under them. -/
def clientStep (s : State τ n) (i : Fin n) (x : Input) : Option (State τ n) :=
  let a := Actor.client i
  match s.stage a with
  | .idle =>
    if 0 < s.queued then
      some ({ s with queued := s.queued - 1, nextSession := s.nextSession + 1 }.goto a
        (.openPipe s.nextSession .notif false))
    else none
  | .openPipe sid .notif failed =>
    openStep s a sid .notif x (some (.openPipe sid .req failed)) (some (.openPipe sid .req true))
  | .openPipe sid .req failed =>
    openStep s a sid .req x (some (.openPipe sid .resp failed)) (some (.openPipe sid .resp true))
  | .openPipe sid .resp failed => openStep s a sid .resp x (some (.create sid failed)) none
  | .create sid failed => if x.alloc then some (s.goto a (.addClient sid failed)) else none
  | .addClient sid failed =>
    if s.connectedClientsMutex then none
    else match s.freeSlot with
      | some k => some ({ s with
          connectedClients := update s.connectedClients k (some sid) }.goto a
            (.replyConnect sid failed))
      | none => some (s.goto a (.replyConnect sid true))
  | .replyConnect sid failed =>
    some (s.goto a (if failed then .disconnect sid else .readOp sid))
  | .readOp sid => some (s.goto a (.blocked sid))
  | .blocked sid => some (s.goto a (.check sid x.opcode))
  | .check sid opcode =>
    if s.disconnectControl then some (s.goto a .idle)
    else match opcode with
      | none => some (s.goto a (.disconnect sid))
      | some opcode =>
        if opcode = opCodeConnect then some (s.goto a (.readOp sid))
        else if opcode = opCodeDisconnect then some (s.goto a (.disconnect sid))
        else if opcode = opCodeSubscribe then some (s.goto a (.readKey sid true))
        else if opcode = opCodeUnsubscribe then some (s.goto a (.readKey sid false))
        else some (s.goto a (.failed sid))
  | .failed sid =>
    some (s.goto a (if s.disconnectControl then .idle else .disconnect sid))
  | .disconnect sid => some (s.teardown a sid)
  | .readKey sid subscribe =>
    match x.key with
    | none => some (s.goto a (.failed sid))
    | some k =>
      if refused k then some (s.goto a (.answer sid .refused))
      else (Key.of? k).map fun key =>
        if subscribe then
          (s.setRequested sid (key.str :: s.requested sid)).goto a (.subscribe sid key)
        else s.goto a (.forget sid key)
  | .answer sid .refused => some (s.goto a (.readOp sid))
  | .answer sid .subscribed => some (s.goto a (if x.ok then .readOp sid else .failed sid))
  | .answer sid (.unsubscribed key) =>
    some ((s.setRequested sid ((s.requested sid).filter (· ≠ key.str))).goto a (.readOp sid))
  | .subscribe sid key => (s.lock a key.index).map (·.goto a (.subscribeFind sid key))
  | .subscribeFind sid key =>
    let r := subscribeChain (s.ht key.index) key.str (s.client sid).fdNotif x.alloc
    some ((s.setChain key.index r.chain).goto a
      (.subscribeUnlock sid key (r.subscriptionStatus = 0)))
  | .subscribeUnlock sid key added =>
    some ((s.unlock key.index).goto a (if added then .record sid key else .answer sid .subscribed))
  | .record sid key =>
    if x.alloc then
      some ((s.setSubscriptions sid (key.str :: (s.client sid).subscriptions)).goto a
        (.answer sid .subscribed))
    else some (s.goto a (.failed sid))
  | .forget sid key =>
    some ((s.setSubscriptions sid (clientRemoveSubscription key.str (s.client sid)).subscriptions)
      |>.goto a (.unsubscribe sid key))
  | .unsubscribe sid key => (s.lock a key.index).map (·.goto a (.unsubscribeFind sid key))
  | .unsubscribeFind sid key =>
    let chain := (unsubscribeChain (s.ht key.index) key.str (s.client sid).fdNotif).1
    some ((s.setChain key.index chain).goto a (.unsubscribeUnlock sid key))
  | .unsubscribeUnlock sid key =>
    some ((s.unlock key.index).goto a (.answer sid (.unsubscribed key)))
  | .remove sid =>
    if s.connectedClientsMutex then none
    else match s.findClient sid with
      | some k => some ({ s with
          connectedClients := update s.connectedClients k none
          freed := match s.connectedClients k with
            | some sid' => update s.freed sid' true
            | none => s.freed }.goto a .idle)
      | none => some (s.goto a .idle)
  | _ => teardownStep s a

/-- `process_host_thread`, `restart_clients` and `clean_all_clients`. -/
def hostStep (s : State τ n) (x : Input) : Option (State τ n) :=
  let a := Actor.host
  match s.stage a with
  | .hostCheck => some (s.goto a (if s.restartClients then .cleanLock else .hostRead))
  | .hostRead => some (s.goto a (if x.ok then .resetControl else .hostCheck))
  | .resetControl => some ({ s with disconnectControl := false }.goto a .enqueue)
  | .enqueue =>
    some ({ s with queued := if x.alloc then s.queued + 1 else s.queued }.goto a .hostCheck)
  | .cleanLock =>
    if s.connectedClientsMutex then none
    else some ({ s with connectedClientsMutex := true, slot := 0 }.goto a .cleanSlot)
  | .cleanSlot =>
    if h : s.slot < n then
      match s.connectedClients ⟨s.slot, h⟩ with
      | none => some { s with slot := s.slot + 1 }
      | some sid => some ({ s with cleaned := update s.cleaned sid true }.teardown a sid)
    else some (s.goto a .cleanUnlock)
  | .remove sid =>
    if h : s.slot < n then
      some ({ s with
        connectedClients := update s.connectedClients ⟨s.slot, h⟩ none
        freed := update s.freed sid true
        slot := s.slot + 1 }.goto a .cleanSlot)
    else none
  | .cleanUnlock => some ({ s with connectedClientsMutex := false }.goto a .resetRestart)
  | .resetRestart => some ({ s with restartClients := false }.goto a .hostCheck)
  | _ => teardownStep s a

/-- Steps of the threads, of the signal handler, and of other uses of descriptors. -/
inductive Label (τ : Type*) (n : ℕ)
  | act (a : Actor τ n) (x : Input)
  | signal
  | raise
  | openFile (fd : Fd)
  | closeFile (fd : Fd)

/-- The thread whose step it is. -/
def Label.actor : Label τ n → Option (Actor τ n)
  | .act a _ => some a
  | _ => none

/-- The handler sets `disconnectControl`, then `restartClients`. -/
def step (s : State τ n) : Label τ n → Option (State τ n)
  | .act (.job t) x => jobStep s t x
  | .act (.client i) x => clientStep s i x
  | .act .host x => hostStep s x
  | .signal => some { s with disconnectControl := true, handlers := s.handlers + 1 }
  | .raise =>
    if 0 < s.handlers then some { s with restartClients := true, handlers := s.handlers - 1 }
    else none
  | .openFile fd =>
    if 0 ≤ fd ∧ s.files fd = none then some { s with files := update s.files fd (some .other) }
    else none
  | .closeFile fd => if s.files fd = some .other then some (s.closeFd fd) else none

end Steps

/-! ### Schedules -/

/-- As many steps of a thread without input. -/
def steps (a : Actor τ n) (k : ℕ) : List (Label τ n) := List.replicate k (.act a {})

/-- The host takes a connection, and client thread `i` opens its pipes and reads an opcode. -/
def connects (i : Fin n) (fdNotif fdReq fdResp : Fd) : List (Label τ n) :=
  steps .host 4 ++ [.act (.client i) {}, .act (.client i) { fd := fdNotif },
    .act (.client i) { fd := fdReq }, .act (.client i) { fd := fdResp }] ++ steps (.client i) 4

/-- The request to subscribe to a key, with `k` steps after it was read. -/
def subscribes (i : Fin n) (key : CStr) (k : ℕ) : List (Label τ n) :=
  [.act (.client i) { opcode := some opCodeSubscribe }, .act (.client i) {},
    .act (.client i) { key := some key }] ++ steps (.client i) k

/-- A `kvs_write` of one pair, with `k` steps after its call. -/
def writes (t : τ) (key : Key) (value : Text) (k : ℕ) : List (Label τ n) :=
  .act (.job t) { call := .kvsWrite [(key, value)] } :: steps (.job t) k

/-- The client thread of a server with one of them, and those of a server with two. -/
def lone : Fin 1 := 0

def former : Fin 2 := 0

def latter : Fin 2 := 1

/-- Two keys of different buckets, with a value for each. -/
def keyA : Key := ⟨⟨⟨chars ['a'], by decide⟩, by decide⟩, 0, by rfl⟩

def keyB : Key := ⟨⟨⟨chars ['b'], by decide⟩, by decide⟩, 1, by rfl⟩

def valueA : Text := ⟨⟨chars ['1'], by decide⟩, by decide⟩

def valueB : Text := ⟨⟨chars ['2'], by decide⟩, by decide⟩

end IstKvs.Server
