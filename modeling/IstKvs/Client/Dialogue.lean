import IstKvs.Client.Commands
import IstKvs.Jobs.Interpreter
import IstKvs.Sessions.Failures
import IstKvs.Systems.Network

/-! A session from the standard input of the client to the requests that the server handles:
the loop of the client's `main` and that of `process_client_thread`, which move byte by byte
over the two pipes between them. Writes and reads may be cut and interleaved in any way, the
pipes may hold as little as one byte, and the table may be changed by other threads between any
two requests. The answer to the disconnect, which races with the end of the notification
thread, is not part of it. -/

namespace IstKvs.Client

open IstKvs.Store IstKvs.Jobs IstKvs.Sessions IstKvs.Systems Function

/-! ### Answers -/

/-- The result that a call finds on a table. -/
def ApiCall.result (ht : HashTable) (fdNotif : Fd) : ApiCall → UInt8
  | .subscribe key => if Present ht key then resultKeyExists else resultKeyDoesntExist
  | .unsubscribe key =>
    if key.bytes = [] then 1
    else if fdNotif ∈ (subscribers ht key).getD [] then UInt8.ofNat '0'.toNat
    else UInt8.ofNat '1'.toNat
  | .disconnect => UInt8.ofNat '0'.toNat

theorem mem_subscribers_iff {ht : HashTable} {fd : Fd} {key : CStr} :
    fd ∈ (subscribers ht key).getD [] ↔ Subscribed ht fd key := by
  rw [Subscribed]
  cases subscribers ht key <;> simp

section Answers
variable {call : ApiCall}

theorem bytes_of_refused {key : CStr} (hlen : key.length ≤ maxStringSize)
    (h : refused key = true) : key.bytes = [] := by
  rw [refused, Bool.or_eq_true, decide_eq_true_eq, decide_eq_true_eq] at h
  exact List.length_eq_zero_iff.mp (h.resolve_right (not_lt.mpr hlen))

theorem not_present_of_empty (ht : HashTable) {key : CStr} (h : key.bytes = []) :
    ¬ Present ht key := by
  have hstart : key.startsAlnum = false := by
    rw [CStr.startsAlnum, h]
    rfl
  rw [Present, subscribers, nodeOf, bucketOf_eq_error hstart]
  exact Bool.false_ne_true

/-- A valid call is answered by what the table has of its key. -/
theorem manageReply_result (h : call.valid = true) (ht : HashTable) (client : Client) :
    manageReply ht client call.request .all true false =
      .ok [call.expected, call.result ht client.fdNotif] := by
  have hused := call.usedKey_startsAlnum h
  cases call with
  | subscribe key =>
    rw [ApiCall.valid, Bool.and_eq_true, decide_eq_true_eq] at h
    rw [ApiCall.request, manageReply, ApiCall.result]
    cases hr : refused key with
    | true =>
      rw [kvsSubscribe_refused hr, if_neg (not_present_of_empty ht (bytes_of_refused h.1 hr))]
      rfl
    | false =>
      obtain ⟨b, hb⟩ := bucketOf_eq_ok_iff.mpr
        (hused key (by simp [ApiCall.request, Request.usedKey, hr]))
      have hfound := (subscribeChain_found ht hb client.fdNotif true).1
      rw [kvsSubscribe_eq hr hb, if_congr hfound rfl rfl]
      rfl
  | unsubscribe key =>
    rw [ApiCall.valid, Bool.and_eq_true, decide_eq_true_eq] at h
    rw [ApiCall.request, manageReply, ApiCall.result]
    cases hr : refused key with
    | true =>
      rw [kvsUnsubscribe_refused hr, if_pos (bytes_of_refused h.1 hr)]
      rfl
    | false =>
      obtain ⟨b, hb⟩ := bucketOf_eq_ok_iff.mpr
        (hused key (by simp [ApiCall.request, Request.usedKey, hr]))
      have hne : key.bytes ≠ [] := by
        intro hnil
        simp [refused, CStr.length, hnil] at hr
      have hfound := (unsubscribeChain_found ht hb client.fdNotif).trans mem_subscribers_iff.symm
      rw [kvsUnsubscribe_eq hr hb, if_neg hne, ← if_congr hfound rfl rfl, ite_not]
      rfl
  | disconnect => cases h

/-- A valid request is not the end of the session, and changes nothing of the client but its
list of keys. -/
theorem manageRequest_call (h : call.valid = true) (ht : HashTable) (client : Client) :
    ∃ ht' keys, manageRequest ht client call.request .all true false =
      .ok (ht', { client with subscriptions := keys }, true) := by
  have hused := call.usedKey_startsAlnum h
  cases call with
  | subscribe key =>
    rw [ApiCall.request, manageRequest]
    cases hr : refused key with
    | true =>
      rw [kvsSubscribe_refused hr]
      exact ⟨_, _, rfl⟩
    | false =>
      obtain ⟨b, hb⟩ := bucketOf_eq_ok_iff.mpr
        (hused key (by simp [ApiCall.request, Request.usedKey, hr]))
      rw [kvsSubscribe_eq hr hb]
      by_cases hs : (subscribeChain (ht b) key client.fdNotif true).subscriptionStatus = 0
      · rw [if_pos hs]
        exact ⟨_, _, rfl⟩
      · rw [if_neg hs]
        exact ⟨_, client.subscriptions, rfl⟩
  | unsubscribe key =>
    rw [ApiCall.request, manageRequest]
    cases hr : refused key with
    | true =>
      rw [kvsUnsubscribe_refused hr]
      exact ⟨_, client.subscriptions, rfl⟩
    | false =>
      obtain ⟨b, hb⟩ := bucketOf_eq_ok_iff.mpr
        (hused key (by simp [ApiCall.request, Request.usedKey, hr]))
      rw [kvsUnsubscribe_eq hr hb]
      exact ⟨_, _, rfl⟩
  | disconnect => cases h

end Answers

def ApiCall.opName : ApiCall → List UInt8
  | .subscribe _ => chars ("subscribe".toList)
  | .unsubscribe _ => chars ("unsubscribe".toList)
  | .disconnect => chars ("disconnect".toList)

/-- What `read_server_response` prints. -/
def responseLine (call : ApiCall) (result : UInt8) : List UInt8 :=
  chars ("Server returned ".toList) ++ result ::
    (chars (" for operation: ".toList) ++ call.opName ++ [byte '\n'])

namespace Dialogue

/-! ### The two sides -/

inductive Side
  | client
  | server
  deriving DecidableEq

inductive Pipe
  | req
  | resp
  deriving DecidableEq

/-- The main thread of the client reads a command, writes the bytes of a call, and reads an
opcode and a result. -/
inductive MainStage
  | ready
  | write (call : ApiCall) (unsent : List UInt8)
  | result (call : ApiCall)

structure Main where
  stage : MainStage
  stdin : List UInt8
  stdout : List UInt8

/-- `stack` is what the stack holds when so much of the input is left. -/
def Main.act (stack : List UInt8 → List UInt8) (m : Main) : Act Pipe UInt8 Main :=
  match m.stage with
  | .ready =>
    let r := nextAction (stack m.stdin) m.stdin
    match r.result with
    | .call call => .go { m with stage := .write call call.requestBytes, stdin := r.rest }
    | .delay ms =>
      .go { m with stdin := r.rest, stdout := m.stdout ++ if ms > 0 then waiting else [] }
    | .empty | .invalid => .go { m with stdin := r.rest }
  | .write call (b :: unsent) => .put .req b { m with stage := .write call unsent }
  | .write .disconnect [] => .stop
  -- another opcode is an error, after which the result is not read
  | .write call [] => .take .resp fun opcode =>
    { m with stage := if opcode = call.expected then .result call else .ready }
  | .result call => .take .resp fun result =>
    { m with stage := .ready, stdout := m.stdout ++ responseLine call result }

inductive WorkerStage
  | opcode
  | key (request : CStr → Request) (got : List UInt8)
  | manage (request : Request)
  | respond (unsent : List UInt8)
  | ended
  | crashed (f : Fault)

/-- `turns` counts the requests handled, `log` has them with their answers. -/
structure Worker where
  stage : WorkerStage
  client : Client
  turns : ℕ
  log : List (Request × List UInt8)

def WorkerStage.afterOpcode (opcode : UInt8) : WorkerStage :=
  if opcode = opCodeConnect then .manage .connect
  else if opcode = opCodeDisconnect then .manage .disconnect
  else if opcode = opCodeSubscribe then .key .subscribe []
  else if opcode = opCodeUnsubscribe then .key .unsubscribe []
  else .manage (.unknown opcode)

/-- `manage_request`, on the table that the request finds. -/
def Worker.manage (tables : ℕ → HashTable) (w : Worker) (request : Request) : Worker :=
  let outcome : Except Fault (List UInt8 × (HashTable × Client × Bool)) := do
    let reply ← manageReply (tables w.turns) w.client request .all true false
    let next ← manageRequest (tables w.turns) w.client request .all true false
    pure (reply, next)
  match outcome with
  | .ok (reply, next) =>
    ⟨if next.2.2 then .respond reply else .ended, next.2.1, w.turns + 1,
      w.log ++ [(request, reply)]⟩
  | .error f => { w with stage := .crashed f }

def Worker.act (tables : ℕ → HashTable) (w : Worker) : Act Pipe UInt8 Worker :=
  match w.stage with
  | .opcode => .take .req fun opcode => { w with stage := .afterOpcode opcode }
  | .key request got =>
    if got.length < keyMessageSize then
      .take .req fun b => { w with stage := .key request (got ++ [b]) }
    else .go { w with stage := .manage (request (CStr.ofBuffer got)) }
  | .manage request => .go (w.manage tables request)
  | .respond (b :: unsent) => .put .resp b { w with stage := .respond unsent }
  | .respond [] => .go { w with stage := .opcode }
  | .ended | .crashed _ => .stop

def proc : Side → Type
  | .client => Main
  | .server => Worker

def act (stack : List UInt8 → List UInt8) (tables : ℕ → HashTable) :
    ∀ t, proc t → Act Pipe UInt8 (proc t)
  | .client, m => Main.act stack m
  | .server, w => Worker.act tables w

def Pipe.writer : Pipe → Side
  | .req => .client
  | .resp => .server

def Pipe.reader : Pipe → Side
  | .req => .server
  | .resp => .client

/-- Both sides at some stage, with nothing in the pipes. -/
def session (m : Main) (w : Worker) : Network proc Pipe UInt8 where
  proc
    | .client => m
    | .server => w
  pipe _ := []

/-- One byte, or one step without the pipes, of either side. -/
def step (stack : List UInt8 → List UInt8) (tables : ℕ → HashTable) (capacity : ℕ) :
    Network proc Pipe UInt8 → Side → Option (Network proc Pipe UInt8) :=
  Network.move (act stack tables) capacity

theorem Main.within (stack : List UInt8 → List UInt8) (m : Main) :
    (m.act stack).Within Pipe.writer Pipe.reader .client := by
  rw [Main.act]
  split
  · dsimp only
    split <;> trivial
  · rfl
  · trivial
  · rfl
  · rfl

theorem Worker.within (tables : ℕ → HashTable) (w : Worker) :
    (w.act tables).Within Pipe.writer Pipe.reader .server := by
  rw [Worker.act]
  split
  · rfl
  · split_ifs
    · rfl
    · trivial
  · trivial
  · rfl
  · trivial
  · trivial
  · trivial

theorem commuting_step (stack : List UInt8 → List UInt8) (tables : ℕ → HashTable)
    (capacity : ℕ) : Commuting (step stack tables capacity) := by
  have hact : ∀ t p, (act stack tables t p).Within Pipe.writer Pipe.reader t := by
    intro t p
    cases t with
    | client => exact Main.within stack p
    | server => exact Worker.within tables p
  exact Network.commuting hact capacity

/-! ### Moves of a session -/

theorem update_client (m m' : Main) (w : Worker) :
    update (session m w).proc .client m' = (session m' w).proc := by
  funext t
  cases t <;> rfl

theorem update_server (m : Main) (w w' : Worker) :
    update (session m w).proc .server w' = (session m w').proc := by
  funext t
  cases t <;> rfl

section Moves
variable {stack : List UInt8 → List UInt8} {tables : ℕ → HashTable} {capacity : ℕ} {m m' : Main}
  {w w' : Worker}

theorem leads_client (h : m.act stack = .go m') :
    Leads (step stack tables capacity) (session m w) (session m' w) := by
  have hact : act stack tables .client ((session m w).proc .client) = .go m' := h
  refine Leads.single (a := .client) ?_
  rw [step, Network.move_go hact, update_client]
  rfl

theorem leads_server (h : w.act tables = .go w') :
    Leads (step stack tables capacity) (session m w) (session m w') := by
  have hact : act stack tables .server ((session m w).proc .server) = .go w' := h
  refine Leads.single (a := .server) ?_
  rw [step, Network.move_go hact, update_server]
  rfl

variable (hcap : 1 ≤ capacity)
include hcap

/-- A byte of a request. -/
theorem leads_request {b : UInt8} {next : UInt8 → Worker} (hm : m.act stack = .put .req b m')
    (hw : w.act tables = .take .req next) :
    Leads (step stack tables capacity) (session m w) (session m' (next b)) := by
  have hmain : act stack tables .client ((session m w).proc .client) = .put .req b m' := hm
  have hworker : act stack tables .server ((session m w).proc .server) = .take .req next := hw
  have hrun := Network.hand_over hcap (by decide) hmain hworker rfl
  rw [update_client, update_server] at hrun
  exact ⟨_, hrun⟩

/-- A byte of a response. -/
theorem leads_response {b : UInt8} {next : UInt8 → Main} (hw : w.act tables = .put .resp b w')
    (hm : m.act stack = .take .resp next) :
    Leads (step stack tables capacity) (session m w) (session (next b) w') := by
  have hworker : act stack tables .server ((session m w).proc .server) = .put .resp b w' := hw
  have hmain : act stack tables .client ((session m w).proc .client) = .take .resp next := hm
  have hrun := Network.hand_over hcap (by decide) hworker hmain rfl
  rw [update_server, update_client] at hrun
  exact ⟨_, hrun⟩

/-! ### One call -/

/-- The bytes of a key go to the buffer of the server. -/
theorem leads_key (call : ApiCall) (request : CStr → Request) (bs got : List UInt8)
    (hlen : got.length + bs.length ≤ keyMessageSize) (stdin stdout : List UInt8)
    (client : Client) (turns : ℕ) (log : List (Request × List UInt8)) :
    Leads (step stack tables capacity)
      (session ⟨.write call bs, stdin, stdout⟩ ⟨.key request got, client, turns, log⟩)
      (session ⟨.write call [], stdin, stdout⟩ ⟨.key request (got ++ bs), client, turns, log⟩) := by
  induction bs generalizing got with
  | nil =>
    rw [List.append_nil]
    exact .refl _ _
  | cons b bs ih =>
    rw [List.length_cons] at hlen
    have hroom : got.length < keyMessageSize := by omega
    have htake : Worker.act tables ⟨.key request got, client, turns, log⟩ =
        .take .req fun b => ⟨.key request (got ++ [b]), client, turns, log⟩ := if_pos hroom
    have hrest := ih (got ++ [b]) (by rw [List.length_append, List.length_singleton]; omega)
    rw [List.append_assoc, List.singleton_append] at hrest
    exact (leads_request hcap rfl htake).trans hrest

/-- A subscription or its end: an opcode and a key, up to `manage_request`. -/
theorem leads_keyCall (call : ApiCall) (request : CStr → Request) (key : CStr) (opcode : UInt8)
    (hbytes : call.requestBytes = opcode :: fillWithNulls key keyMessageSize)
    (hstage : WorkerStage.afterOpcode opcode = .key request []) (hkey : key.length ≤ maxStringSize)
    (stdin stdout : List UInt8) (client : Client) (turns : ℕ) (log : List (Request × List UInt8)) :
    Leads (step stack tables capacity)
      (session ⟨.write call call.requestBytes, stdin, stdout⟩ ⟨.opcode, client, turns, log⟩)
      (session ⟨.write call [], stdin, stdout⟩ ⟨.manage (request key), client, turns, log⟩) := by
  have hlen := length_fillWithNulls key keyMessageSize
  have hopcode : Leads (step stack tables capacity)
      (session ⟨.write call call.requestBytes, stdin, stdout⟩ ⟨.opcode, client, turns, log⟩)
      (session ⟨.write call (fillWithNulls key keyMessageSize), stdin, stdout⟩
        ⟨.key request [], client, turns, log⟩) := by
    have htake : Worker.act tables ⟨.opcode, client, turns, log⟩ =
        .take .req fun opcode => ⟨.afterOpcode opcode, client, turns, log⟩ := rfl
    rw [hbytes, ← hstage]
    exact leads_request hcap rfl htake
  have hread : Leads (step stack tables capacity)
      (session ⟨.write call (fillWithNulls key keyMessageSize), stdin, stdout⟩
        ⟨.key request [], client, turns, log⟩)
      (session ⟨.write call [], stdin, stdout⟩
        ⟨.key request ([] ++ fillWithNulls key keyMessageSize), client, turns, log⟩) :=
    leads_key hcap call request _ [] (by rw [hlen, List.length_nil]; omega) ..
  have hgo : Worker.act tables
      ⟨.key request ([] ++ fillWithNulls key keyMessageSize), client, turns, log⟩ =
      .go ⟨.manage (request key), client, turns, log⟩ := by
    have hstring : CStr.ofBuffer (fillWithNulls key keyMessageSize) = key :=
      ofBuffer_key (Nat.lt_succ_of_le hkey)
    rw [List.nil_append, Worker.act]
    dsimp only
    rw [if_neg (by omega), hstring]
  exact (hopcode.trans hread).trans (leads_server hgo)

/-- A valid call, up to the line that the client prints. -/
theorem leads_call {call : ApiCall} (h : call.valid = true) {rs : List Request} {client : Client}
    (hc : Served rs client) (stdin stdout : List UInt8) (turns : ℕ)
    (log : List (Request × List UInt8)) :
    ∃ rs' keys, Served rs' { client with subscriptions := keys } ∧
      Leads (step stack tables capacity)
        (session ⟨.write call call.requestBytes, stdin, stdout⟩ ⟨.opcode, client, turns, log⟩)
        (session ⟨.ready, stdin, stdout ++ responseLine call (call.result (tables turns)
            client.fdNotif)⟩
          ⟨.opcode, { client with subscriptions := keys }, turns + 1, log ++ [(call.request,
            [call.expected, call.result (tables turns) client.fdNotif])]⟩) := by
  obtain ⟨ht', keys, hnext⟩ := manageRequest_call h (tables turns) client
  refine ⟨_, keys, hc.snoc hnext, ?_⟩
  generalize { client with subscriptions := keys } = client' at hnext ⊢
  generalize hlog : log ++ [(call.request,
    [call.expected, call.result (tables turns) client.fdNotif])] = log'
  have hwrite : Leads (step stack tables capacity)
      (session ⟨.write call call.requestBytes, stdin, stdout⟩ ⟨.opcode, client, turns, log⟩)
      (session ⟨.write call [], stdin, stdout⟩ ⟨.manage call.request, client, turns, log⟩) := by
    cases call with
    | subscribe key =>
      rw [ApiCall.valid, Bool.and_eq_true, decide_eq_true_eq] at h
      exact leads_keyCall hcap _ .subscribe key opCodeSubscribe rfl rfl h.1 ..
    | unsubscribe key =>
      rw [ApiCall.valid, Bool.and_eq_true, decide_eq_true_eq] at h
      exact leads_keyCall hcap _ .unsubscribe key opCodeUnsubscribe rfl rfl h.1 ..
    | disconnect => cases h
  have hmanage : Worker.act tables ⟨.manage call.request, client, turns, log⟩ =
      .go ⟨.respond [call.expected, call.result (tables turns) client.fdNotif], client',
        turns + 1, log'⟩ := by
    rw [← hlog]
    simp only [Worker.act, Worker.manage, manageReply_result h, hnext]
    rfl
  have hopcode : Main.act stack ⟨.write call [], stdin, stdout⟩ =
      .take .resp fun opcode =>
        ⟨if opcode = call.expected then .result call else .ready, stdin, stdout⟩ := by
    cases call with
    | subscribe key => rfl
    | unsubscribe key => rfl
    | disconnect => cases h
  have hresult : Main.act stack ⟨.result call, stdin, stdout⟩ =
      .take .resp fun result => ⟨.ready, stdin, stdout ++ responseLine call result⟩ := rfl
  have hput : ∀ b bs, Worker.act tables ⟨.respond (b :: bs), client', turns + 1, log'⟩ =
      .put .resp b ⟨.respond bs, client', turns + 1, log'⟩ := fun _ _ => rfl
  have hfirst : Leads (step stack tables capacity)
      (session ⟨.write call [], stdin, stdout⟩
        ⟨.respond [call.expected, call.result (tables turns) client.fdNotif], client',
          turns + 1, log'⟩)
      (session ⟨.result call, stdin, stdout⟩
        ⟨.respond [call.result (tables turns) client.fdNotif], client', turns + 1, log'⟩) := by
    have hbyte := leads_response hcap
      (hput call.expected [call.result (tables turns) client.fdNotif]) hopcode
    rw [if_pos rfl] at hbyte
    exact hbyte
  have hsecond : Leads (step stack tables capacity)
      (session ⟨.result call, stdin, stdout⟩
        ⟨.respond [call.result (tables turns) client.fdNotif], client', turns + 1, log'⟩)
      (session ⟨.ready, stdin, stdout ++ responseLine call (call.result (tables turns)
        client.fdNotif)⟩ ⟨.respond [], client', turns + 1, log'⟩) :=
    leads_response hcap (hput _ []) hresult
  exact (hwrite.trans (leads_server hmanage)).trans
    ((hfirst.trans hsecond).trans (leads_server rfl))

/-- The disconnect: one byte, after which the server ends the session. -/
theorem leads_disconnect {rs : List Request} {client : Client} (hc : Served rs client)
    (stdin stdout : List UInt8) (turns : ℕ) (log : List (Request × List UInt8)) :
    Leads (step stack tables capacity)
      (session ⟨.write .disconnect ApiCall.disconnect.requestBytes, stdin, stdout⟩
        ⟨.opcode, client, turns, log⟩)
      (session ⟨.write .disconnect [], stdin, stdout⟩
        ⟨.ended, { client with subscriptions := [] }, turns + 1,
          log ++ [(.disconnect, [opCodeDisconnect, UInt8.ofNat '0'.toNat])]⟩) := by
  obtain ⟨ht', hwalk⟩ := unsubscribeAll_ok (tables turns) client hc.startsAlnum
  have htake : Worker.act tables ⟨.opcode, client, turns, log⟩ =
      .take .req fun opcode => ⟨.afterOpcode opcode, client, turns, log⟩ := rfl
  have hmanage : Worker.act tables ⟨.manage .disconnect, client, turns, log⟩ =
      .go ⟨.ended, { client with subscriptions := [] }, turns + 1,
        log ++ [(.disconnect, [opCodeDisconnect, UInt8.ofNat '0'.toNat])]⟩ := by
    simp only [Worker.act, Worker.manage, manageReply, manageRequest, terminateReply, terminate,
      kvsDisconnect, hwalk]
    rfl
  have hopcode : Leads (step stack tables capacity)
      (session ⟨.write .disconnect ApiCall.disconnect.requestBytes, stdin, stdout⟩
        ⟨.opcode, client, turns, log⟩)
      (session ⟨.write .disconnect [], stdin, stdout⟩
        ⟨.manage .disconnect, client, turns, log⟩) := by
    have hstage : WorkerStage.afterOpcode opCodeDisconnect = .manage .disconnect := rfl
    rw [← hstage]
    exact leads_request hcap rfl htake
  exact hopcode.trans (leads_server hmanage)

end Moves

/-! ### Whole sessions -/

/-- The requests of the turns with their answers, from the table of request `n` on. -/
def exchanges (tables : ℕ → HashTable) (fdNotif : Fd) : ℕ → List Action →
    List (Request × List UInt8)
  | _, [] => []
  | n, .call call :: actions =>
    (call.request, [call.expected, call.result (tables n) fdNotif]) ::
      exchanges tables fdNotif (n + 1) actions
  | n, _ :: actions => exchanges tables fdNotif n actions

/-- What the turns print. -/
def transcript (tables : ℕ → HashTable) (fdNotif : Fd) : ℕ → List Action → List UInt8
  | _, [] => []
  | n, .call call :: actions =>
    responseLine call (call.result (tables n) fdNotif) ++ transcript tables fdNotif (n + 1) actions
  | n, .delay ms :: actions =>
    (if ms > 0 then waiting else []) ++ transcript tables fdNotif n actions
  | n, _ :: actions => transcript tables fdNotif n actions

/-- The session at its end, from a position with some turns left. -/
def finished (tables : ℕ → HashTable) (client : Client) (turns : ℕ)
    (log : List (Request × List UInt8)) (stdout : List UInt8) (left : List Action × List UInt8) :
    Network proc Pipe UInt8 :=
  session ⟨.write .disconnect [], left.2, stdout ++ transcript tables client.fdNotif turns left.1⟩
    ⟨.ended, { client with subscriptions := [] },
      turns + (exchanges tables client.fdNotif turns left.1).length + 1,
      log ++ exchanges tables client.fdNotif turns left.1 ++
        [(.disconnect, [opCodeDisconnect, UInt8.ofNat '0'.toNat])]⟩

theorem finished_call (tables : ℕ → HashTable) (client : Client) (keys : List CStr) (turns : ℕ)
    (log : List (Request × List UInt8)) (stdout : List UInt8) (call : ApiCall)
    (left : List Action × List UInt8) :
    finished tables { client with subscriptions := keys } (turns + 1)
        (log ++ [(call.request, [call.expected, call.result (tables turns) client.fdNotif])])
        (stdout ++ responseLine call (call.result (tables turns) client.fdNotif)) left =
      finished tables client turns log stdout (.call call :: left.1, left.2) := by
  simp only [finished, transcript, exchanges, List.append_assoc, List.cons_append,
    List.nil_append, List.length_cons]
  rw [Nat.add_right_comm turns, Nat.add_assoc turns]

theorem finished_delay (tables : ℕ → HashTable) (client : Client) (turns : ℕ)
    (log : List (Request × List UInt8)) (stdout : List UInt8) (ms : ℕ)
    (left : List Action × List UInt8) :
    finished tables client turns log (stdout ++ if ms > 0 then waiting else []) left =
      finished tables client turns log stdout (.delay ms :: left.1, left.2) := by
  simp only [finished, transcript, exchanges, List.append_assoc]

section Sessions
variable {stack : List UInt8 → List UInt8} {tables : ℕ → HashTable} {capacity : ℕ}

theorem stuck_finished (client : Client) (turns : ℕ) (log : List (Request × List UInt8))
    (stdout : List UInt8) (left : List Action × List UInt8) :
    Stuck (step stack tables capacity) (finished tables client turns log stdout left) := by
  intro t
  cases t <;> rfl

variable (hcap : 1 ≤ capacity)
include hcap

/-- One run of the session, in which each side waits for the other. -/
theorem leads_finished (n : ℕ) {stdin : List UInt8} (hn : stdin.length < n)
    (hvalid : ∀ call, .call call ∈ (input stack stdin).1 → call.valid = true) {rs : List Request}
    {client : Client} (hc : Served rs client) (turns : ℕ) (log : List (Request × List UInt8))
    (stdout : List UInt8) :
    Leads (step stack tables capacity)
      (session ⟨.ready, stdin, stdout⟩ ⟨.opcode, client, turns, log⟩)
      (finished tables client turns log stdout (input stack stdin)) := by
  induction n generalizing stdin rs client turns log stdout with
  | zero => exact absurd hn (Nat.not_lt_zero _)
  | succ n ih =>
    rw [input_unfold] at hvalid ⊢
    generalize hr : nextAction (stack stdin) stdin = r at hvalid ⊢
    have hready : Main.act stack ⟨.ready, stdin, stdout⟩ = match r.result with
        | .call call => .go ⟨.write call call.requestBytes, r.rest, stdout⟩
        | .delay ms => .go ⟨.ready, r.rest, stdout ++ if ms > 0 then waiting else []⟩
        | .empty | .invalid => .go ⟨.ready, r.rest, stdout⟩ := by
      rw [← hr]
      rfl
    by_cases hdisc : r.result = .call .disconnect
    · rw [if_pos hdisc] at hvalid ⊢
      rw [hdisc] at hready
      rw [finished, transcript, exchanges, List.append_nil, List.append_nil]
      exact (leads_client hready).trans (leads_disconnect hcap hc _ _ _ _)
    · have hlt := nextAction_length (stack stdin) (hr ▸ hdisc)
      rw [hr] at hlt
      rw [if_neg hdisc] at hvalid ⊢
      have hlen : r.rest.length < n := by omega
      have hrest : ∀ call, .call call ∈ (input stack r.rest).1 → call.valid = true :=
        fun call hm => hvalid call (List.mem_cons_of_mem _ hm)
      cases haction : r.result with
      | call call =>
        rw [haction] at hready hvalid
        obtain ⟨rs', keys, hserved, hcall⟩ := @leads_call stack tables capacity hcap call
          (hvalid call List.mem_cons_self) rs client hc r.rest stdout turns log
        have hend := ih hlen hrest hserved (turns + 1)
          (log ++ [(call.request, [call.expected, call.result (tables turns) client.fdNotif])])
          (stdout ++ responseLine call (call.result (tables turns) client.fdNotif))
        rw [finished_call] at hend
        exact ((leads_client hready).trans hcall).trans hend
      | delay ms =>
        rw [haction] at hready
        have hend := ih hlen hrest hc turns log (stdout ++ if ms > 0 then waiting else [])
        rw [finished_delay] at hend
        exact (leads_client hready).trans hend
      | empty | invalid =>
        rw [haction] at hready
        exact (leads_client hready).trans (ih hlen hrest hc turns log stdout)

/-- Every run can be continued to the one end, after as many moves in all. -/
theorem completes_session {stdin : List UInt8}
    (hvalid : ∀ call, .call call ∈ (input stack stdin).1 → call.valid = true) {client : Client}
    (hc : client.subscriptions = []) :
    ∃ n, ∀ moves s, Run (stepOf (step stack tables capacity))
        (session ⟨.ready, stdin, []⟩ ⟨.opcode, client, 0, []⟩) moves s →
      ∃ more, Run (stepOf (step stack tables capacity)) s more
          (finished tables client 0 [] [] (input stack stdin)) ∧
        moves.length + more.length = n := by
  obtain ⟨as, has⟩ := @leads_finished stack tables capacity hcap (stdin.length + 1) stdin
    (Nat.lt_succ_self _) hvalid [] client (.nil hc) 0 [] []
  refine ⟨as.length, fun moves s hrun => ?_⟩
  obtain ⟨more, hperm, hmore⟩ := (commuting_step stack tables capacity).completes has
    (stuck_finished _ _ _ _ _) (run_stepOf_iff.mp hrun)
  refine ⟨more, run_of_execute hmore, ?_⟩
  rw [hperm.length_eq, List.length_append]

/-- A session over a printed script waits for ever only where it has ended: the server has
handled the calls of its lines, in order, and each answer is on the standard output. -/
theorem stuck_script_iff (p : Script) {client : Client} (hc : client.subscriptions = [])
    {moves : List Side} {s : Network proc Pipe UInt8}
    (h : Run (stepOf (step stack tables capacity))
      (session ⟨.ready, p.print, []⟩ ⟨.opcode, client, 0, []⟩) moves s) :
    Stuck (step stack tables capacity) s ↔
      s = finished tables client 0 [] [] (p.lines.map ScriptLine.action, p.ending.rest) := by
  have hinput := input_print stack p
  have hvalid : ∀ call, .call call ∈ (input stack p.print).1 → call.valid = true := by
    intro call hm
    rw [hinput] at hm
    obtain ⟨l, -, hl⟩ := List.mem_map.mp hm
    exact l.valid hl
  obtain ⟨n, hends⟩ := @completes_session stack tables capacity hcap p.print hvalid client hc
  obtain ⟨more, hrest, -⟩ := hends moves s h
  rw [hinput] at hrest
  refine ⟨fun hstuck => ?_, ?_⟩
  · cases more with
    | nil => exact Option.some.inj (run_stepOf_iff.mp hrest)
    | cons t more =>
      have hnone := run_stepOf_iff.mp hrest
      rw [execute, hstuck t] at hnone
      cases hnone
  · rintro rfl
    exact stuck_finished _ _ _ _ _

end Sessions

theorem isField_keyA : IsField (chars ['a']) where
  plain := by decide +kernel
  fits := by decide

/-- The key `a`, which is in bucket 0. -/
def keyA : ScriptKey := ⟨⟨.ofBuffer (chars ['a']), isField_keyA⟩, .inr rfl⟩

/-- The same session as a script, after its first move. -/
theorem stuck_script_iff_oneCall :
    let moving := step (fun _ => []) (fun _ => createHashTable) 1
    ∃ s, Run (stepOf moving) (session ⟨.ready, (Script.mk [.subscribe keyA] .eof).print, []⟩
        ⟨.opcode, ⟨3, 4, 5, []⟩, 0, []⟩) [.client] s ∧
      (Stuck moving s ↔ s = finished (fun _ => createHashTable) ⟨3, 4, 5, []⟩ 0 [] []
        ([.call (.subscribe keyA.toCStr)], [])) := by
  obtain ⟨s, hs⟩ : ∃ s, execute (step (fun _ => []) (fun _ => createHashTable) 1)
      (session ⟨.ready, (Script.mk [.subscribe keyA] .eof).print, []⟩
        ⟨.opcode, ⟨3, 4, 5, []⟩, 0, []⟩) [.client] = some s := ⟨_, rfl⟩
  exact ⟨s, run_of_execute hs, stuck_script_iff le_rfl ⟨[.subscribe keyA], .eof⟩ rfl
    (run_of_execute hs)⟩

end Dialogue

end IstKvs.Client
