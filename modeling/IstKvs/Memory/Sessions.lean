import IstKvs.Memory.Requests

/-! All clients of the server in dynamic memory, over runs of calls of the jobs and
of the client threads: no call uses memory that was freed, and what is in use is the
table and the clients that are connected, however often keys and clients come and go. -/

namespace IstKvs.Memory

open IstKvs.Systems IstKvs.Store IstKvs.Sessions Function

/-! ### Calls -/

/-- What the jobs and the client threads call. A thread connects a client when it has
none, and serves it until the client disconnects. -/
inductive SessionCall
  | job (call : Call)
  | connect (i : Thread) (fdReq fdResp fdNotif : Fd) (mem : Bool)
  | subscribe (i : Thread) (key : CStr) (luck : Luck)
  | unsubscribe (i : Thread) (key : CStr) (luck : Luck)
  | disconnect (i : Thread) (closed : Bool)

/-- The answer of a call on the table, or of a request with the value it returns;
nothing where the thread has no client to serve. -/
inductive Reply
  | job (answer : Answer)
  | response (answer : Option (UInt8 × UInt8)) (status : ℤ)
  | none

def connected : Reply := .response (some (opCodeConnect, UInt8.ofNat '0'.toNat)) 0

/-- The variable `client` of a thread. -/
def getClient (vars : Addr) (i : Thread) : Prog (Option Addr) := do
  match ← load vars with
  | .threads client => pure (client i)
  | _ => trap (.invalid vars)

def setClient (vars : Addr) (i : Thread) (p : Option Addr) : Prog Unit := do
  match ← load vars with
  | .threads client => store vars (.threads (update client i p))
  | _ => trap (.invalid vars)

/-- A request of the client that the thread serves. -/
def withClient (vars : Addr) (i : Thread) (request : Addr → Prog (Option (UInt8 × UInt8) × ℤ)) :
    Prog Reply := do
  let p ← getClient vars i
  match p with
  | some client =>
    let r ← request client
    pure (.response r.1 r.2)
  | none => pure .none

def SessionCall.inMemory (vars ht : Addr) : SessionCall → Prog Reply
  | .job call => do
    let answer ← call.inMemory ht
    pure (.job answer)
  | .connect i fdReq fdResp fdNotif mem => do
    let p ← getClient vars i
    match p with
    | some _ => pure .none
    | none =>
      let client ← tryMalloc mem (.client ⟨fdReq, fdResp, fdNotif, none⟩)
      match client with
      | some a =>
        setClient vars i (some a)
        pure connected
      | none => fail .null
  | .subscribe i key luck => withClient vars i fun client => subscribeInMemory ht client key luck
  | .unsubscribe i key luck =>
    withClient vars i fun client => unsubscribeInMemory ht client key luck
  | .disconnect i closed => do
    let reply ← withClient vars i fun client => disconnectInMemory ht client closed
    setClient vars i none
    pure reply

/-- The table and the clients of the threads. -/
abbrev Served := HashTable × (Thread → Option Client)

/-- A request in the model; the client after it, if it stays connected. -/
def onClient (i : Thread) (stays : Bool)
    (request : HashTable → Client → Except Fault Outcome) : StateT Served (Except Fault) Reply :=
  fun s =>
    match s.2 i with
    | some client => do
      let o ← request s.1 client
      pure (.response o.answer o.status,
        (o.ht, update s.2 i (if stays then some o.client else none)))
    | none => pure (.none, s)

def SessionCall.onModel : SessionCall → StateT Served (Except Fault) Reply
  | .job call => fun s => do
    let r ← call.onTable s.1
    pure (.job r.1, (r.2, s.2))
  | .connect i fdReq fdResp fdNotif mem => fun s =>
    match s.2 i with
    | some _ => pure (.none, s)
    | none =>
      -- the response of a client that could not be allocated goes to a NULL client
      if mem then pure (connected, (s.1, update s.2 i (some ⟨fdReq, fdResp, fdNotif, []⟩)))
      else .error .null
  | .subscribe i key luck => onClient i true fun ht client => kvsSubscribe ht key client luck
  | .unsubscribe i key luck => onClient i true fun ht client => kvsUnsubscribe ht key client luck
  | .disconnect i closed => onClient i false fun ht client => kvsDisconnect ht client closed

abbrev Layouts := Thread → Option (Addr × ClientLayout)

def layoutCells : Option (Addr × ClientLayout) → List (Addr × Cell)
  | some c => clientCells c.1 c.2
  | none => []

/-- The cells of the threads, of the table and of every client, and no others. -/
def Together (vars ht : Addr) (s : Served) (P : List (Addr × Cell)) : Prop :=
  ∃ (layouts : Layouts) (PT : List (Addr × Cell)), Represents ht s.1 PT ∧
    (∀ i, s.2 i = (layouts i).map fun c => c.2.client) ∧
    P.Perm ((vars, .threads fun i => (layouts i).map Prod.fst) ::
      (PT ++ (List.finRange Host.maxSessionCount).flatMap fun i => layoutCells (layouts i)))

section Together
variable {vars ht : Addr} {s : Served} {P : List (Addr × Cell)}

/-- The cells of the clients of all threads but one. -/
def otherClients (layouts : Layouts) (i : Thread) : List (Addr × Cell) :=
  ((List.finRange Host.maxSessionCount).erase i).flatMap fun j => layoutCells (layouts j)

theorem otherClients_update (layouts : Layouts) (i : Thread) (c : Option (Addr × ClientLayout)) :
    otherClients (update layouts i c) i = otherClients layouts i := by
  refine List.flatMap_congr fun j hj => ?_
  have hne : j ≠ i := ((List.nodup_finRange _).mem_erase_iff.mp hj).1
  rw [update_of_ne hne]

/-- The cells with those of one thread's client taken apart. -/
theorem layouts_perm (layouts : Layouts) (i : Thread) (x : Addr × Cell) (PT : List (Addr × Cell)) :
    (x :: (PT ++
      (List.finRange Host.maxSessionCount).flatMap fun i => layoutCells (layouts i))).Perm
      (layoutCells (layouts i) ++ (PT ++ (x :: otherClients layouts i))) := by
  have hclients := flatMap_finRange (fun i => layoutCells (layouts i)) i
  refine ((hclients.append_left PT).cons x).trans ?_
  refine ((List.perm_append_comm_assoc ..).cons x).trans ?_
  refine List.perm_middle.symm.trans ?_
  exact (List.perm_middle.symm).append_left _

/-- The thread's variable and the cells around its client. -/
def aroundClient (vars : Addr) (layouts : Layouts) (i : Thread) : List (Addr × Cell) :=
  (vars, .threads fun j => (layouts j).map Prod.fst) :: otherClients layouts i

/-- The cells after what one thread did to its client and to the table. -/
theorem together_of_perm {layouts : Layouts} {i : Thread} {c : Option (Addr × ClientLayout)}
    {PT : List (Addr × Cell)} {table : HashTable} (hr : Represents ht table PT)
    (hclients : ∀ j, s.2 j = (layouts j).map fun c => c.2.client)
    (hp : P.Perm (layoutCells c ++ (PT ++ aroundClient vars (update layouts i c) i))) :
    Together vars ht (table, update s.2 i (c.map fun c => c.2.client)) P := by
  refine ⟨update layouts i c, PT, hr, fun j => ?_, hp.trans ?_⟩
  · by_cases hj : j = i
    · subst hj; simp
    · simp [hj, hclients]
  · have hself : layoutCells c = layoutCells (update layouts i c i) := by rw [update_self]
    rw [hself]
    exact (layouts_perm ..).symm

theorem reads_getClient {layouts : Layouts} (i : Thread)
    (hm : (vars, .threads fun j => (layouts j).map Prod.fst) ∈ P) :
    Reads P (getClient vars i) ((layouts i).map Prod.fst) :=
  (Reads.load hm).bind Reads.pure

theorem does_setClient {layouts : Layouts} {i : Thread} {R : List (Addr × Cell)}
    (c : Option (Addr × ClientLayout))
    (hp : P.Perm ((vars, .threads fun j => (layouts j).map Prod.fst) :: R)) :
    Does P (setClient vars i (c.map Prod.fst)) fun _ P' =>
      P' = (vars, .threads fun j => (update layouts i c j).map Prod.fst) :: R := by
  refine (Reads.load (hp.mem_iff.mpr List.mem_cons_self)).does ?_
  refine (Does.store hp _).imp fun _ P' h => ⟨P', .rfl, ?_⟩
  have hupdate : update (fun j => (layouts j).map Prod.fst) i (c.map Prod.fst) =
      fun j => (update layouts i c j).map Prod.fst := by
    funext j
    by_cases hj : j = i
    · subst hj; simp
    · simp [hj]
  rw [h, hupdate]

/-- The cells of one thread's client next to those of the table and of all others. -/
theorem Together.focus (ht' : Together vars ht s P) (i : Thread) :
    ∃ (layouts : Layouts) (PT : List (Addr × Cell)), Represents ht s.1 PT ∧
      (∀ j, s.2 j = (layouts j).map fun c => c.2.client) ∧
      Reads P (getClient vars i) ((layouts i).map Prod.fst) ∧
      P.Perm (layoutCells (layouts i) ++ (PT ++ aroundClient vars layouts i)) := by
  obtain ⟨layouts, PT, hr, hclients, hp⟩ := ht'
  exact ⟨layouts, PT, hr, hclients, reads_getClient i (hp.mem_iff.mpr List.mem_cons_self),
    hp.trans (layouts_perm layouts i _ PT)⟩

/-- A request that keeps its client connected. -/
theorem refines_withClient (i : Thread) {request : HashTable → Client → Except Fault Outcome}
    {program : Addr → Prog (Option (UInt8 × UInt8) × ℤ)}
    (hreq : ∀ a G table client P, Beside ht a G table client P →
      match request table client with
      | .ok o => Does P (program a) fun r P' =>
          r = (o.answer, o.status) ∧ Beside ht a G o.ht o.client P'
      | .error f => Fails P (program a) f) :
    Refines (Together vars ht) (withClient vars i program) (onClient i true request) := by
  intro s P hs
  obtain ⟨layouts, PT, hr, hclients, hread, hp⟩ := hs.focus i
  rw [onClient, hclients i]
  cases hi : layouts i with
  | none =>
    rw [hi] at hread
    exact hread.does (Does.pure ⟨rfl, hs⟩)
  | some ac =>
    obtain ⟨a, c⟩ := ac
    rw [hi] at hread hp
    have hdo := hreq a _ s.1 c.client P ⟨PT, hr, c, rfl, hp⟩
    simp only [Option.map_some]
    cases hrun : request s.1 c.client with
    | error f =>
      rw [hrun] at hdo
      exact hread.fails (hdo.bind _)
    | ok o =>
      rw [hrun] at hdo
      refine hread.does (hdo.bind ?_)
      rintro _ P' ⟨rfl, PT, hr, c', hc', hp'⟩
      refine Does.pure ⟨rfl, ?_⟩
      -- the client is where it was
      have hsame : aroundClient vars (update layouts i (some (a, c'))) i =
          aroundClient vars layouts i := by
        have haddr : (fun j => (update layouts i (some (a, c')) j).map Prod.fst) =
            fun j => (layouts j).map Prod.fst := by
          funext j
          by_cases hj : j = i
          · subst hj; simp [hi]
          · simp [hj]
        rw [aroundClient, aroundClient, otherClients_update, haddr]
      have htogether := together_of_perm (P := P') (s := s) (c := some (a, c')) hr hclients
        (hsame ▸ hp')
      rwa [Option.map_some, hc'] at htogether

theorem refines_job (call : Call) :
    Refines (Together vars ht) (SessionCall.inMemory vars ht (.job call))
      (SessionCall.onModel (.job call)) := by
  rintro ⟨table, clients⟩ P ⟨layouts, PT, hr, hclients, hp⟩
  have hmove := hp.trans List.perm_middle.symm
  have hcall := Call.refines ht call
  rw [SessionCall.onModel, SessionCall.inMemory]
  simp only
  cases hrun : call.onTable table with
  | error f => exact ((((hcall.of_error hr hrun).frame _).perm hmove).bind _)
  | ok r =>
    refine (((hcall.of_ok hr hrun).frame _).perm hmove).bind ?_
    rintro _ _ ⟨PT', rfl, rfl, hr'⟩
    exact Does.pure ⟨rfl, layouts, PT', hr', hclients, List.perm_middle⟩

theorem refines_connect (i : Thread) (fdReq fdResp fdNotif : Fd) (mem : Bool) :
    Refines (Together vars ht) (SessionCall.inMemory vars ht (.connect i fdReq fdResp fdNotif mem))
      (SessionCall.onModel (.connect i fdReq fdResp fdNotif mem)) := by
  intro s P hs
  obtain ⟨layouts, PT, hr, hclients, hp⟩ := id hs
  have hread := reads_getClient i (hp.mem_iff.mpr List.mem_cons_self)
  rw [SessionCall.onModel, SessionCall.inMemory]
  simp only [hclients i]
  cases hi : layouts i with
  | some ac =>
    rw [hi] at hread
    exact hread.does (Does.pure ⟨rfl, hs⟩)
  | none =>
    rw [hi] at hread
    cases mem with
    | false => exact hread.fails Fails.fail
    | true =>
      refine hread.does ((does_tryMalloc true _).bind fun p P₁ h => ?_)
      obtain ⟨⟨⟩, -⟩ | ⟨-, a, rfl, rfl⟩ := h
      have hset := (hp.cons (a, Cell.client ⟨fdReq, fdResp, fdNotif, none⟩)).trans (.swap ..)
      refine (does_setClient (some (a, ⟨fdReq, fdResp, fdNotif, []⟩)) hset).bind ?_
      rintro _ _ rfl
      refine Does.pure ⟨rfl, together_of_perm (c := some (a, ⟨fdReq, fdResp, fdNotif, []⟩)) hr
        hclients ?_⟩
      have hrest := layouts_perm layouts i (vars, Cell.threads fun j =>
        (update layouts i (some (a, ⟨fdReq, fdResp, fdNotif, []⟩)) j).map Prod.fst) PT
      rw [hi] at hrest
      rw [aroundClient, otherClients_update]
      exact (List.Perm.swap ..).trans (hrest.cons _)

/-- What a thread that had or lost its client leaves. -/
theorem does_forgetClient {layouts : Layouts} {i : Thread} {PT : List (Addr × Cell)}
    {table : HashTable} (hr : Represents ht table PT)
    (hclients : ∀ j, s.2 j = (layouts j).map fun c => c.2.client)
    (hp : P.Perm (PT ++ aroundClient vars layouts i)) (reply : Reply) :
    Does P (do
      setClient vars i none
      pure reply) fun r P' => r = reply ∧ Together vars ht (table, update s.2 i none) P' := by
  refine (does_setClient none (hp.trans List.perm_middle)).bind ?_
  rintro _ _ rfl
  refine Does.pure ⟨rfl, together_of_perm (c := none) hr hclients ?_⟩
  rw [aroundClient, otherClients_update]
  exact List.perm_middle.symm

theorem refines_disconnect (i : Thread) (closed : Bool) :
    Refines (Together vars ht) (SessionCall.inMemory vars ht (.disconnect i closed))
      (SessionCall.onModel (.disconnect i closed)) := by
  intro s P hs
  obtain ⟨layouts, PT, hr, hclients, hread, hp⟩ := hs.focus i
  rw [SessionCall.onModel, SessionCall.inMemory, onClient]
  simp only [hclients i]
  cases hi : layouts i with
  | none =>
    rw [hi] at hread hp
    have hserve : Reads P (withClient vars i fun client => disconnectInMemory ht client closed)
        .none := hread.bind Reads.pure
    have hsame : update s.2 i none = s.2 := by
      rw [update_eq_self_iff, hclients i, hi]
      rfl
    have hforget := does_forgetClient hr hclients hp .none
    rw [hsame] at hforget
    exact hserve.does hforget
  | some ac =>
    obtain ⟨a, c⟩ := ac
    rw [hi] at hread hp
    have hdo := does_disconnectInMemory ⟨PT, hr, c, rfl, hp⟩ closed
    simp only [Option.map_some]
    cases hrun : kvsDisconnect s.1 c.client closed with
    | error f =>
      rw [hrun] at hdo
      have hserve : Fails P (withClient vars i fun client => disconnectInMemory ht client closed)
          f := hread.fails (hdo.bind _)
      exact hserve.bind _
    | ok o =>
      rw [hrun] at hdo
      have hserve : Does P (withClient vars i fun client => disconnectInMemory ht client closed)
          fun reply P' => reply = .response o.answer o.status ∧ ∃ PT', Represents ht o.ht PT' ∧
            P'.Perm (PT' ++ aroundClient vars layouts i) := by
        refine hread.does (hdo.bind ?_)
        rintro _ P' ⟨rfl, h⟩
        exact Does.pure ⟨rfl, h⟩
      refine hserve.bind ?_
      rintro _ P' ⟨rfl, PT', hr, hp'⟩
      exact does_forgetClient hr hclients hp' _

/-- Every call of the jobs and of the clients does in memory what it does in the model. -/
theorem SessionCall.refines (vars ht : Addr) (call : SessionCall) :
    Refines (Together vars ht) (call.inMemory vars ht) call.onModel := by
  cases call with
  | job call => exact refines_job call
  | connect i fdReq fdResp fdNotif mem => exact refines_connect i fdReq fdResp fdNotif mem
  | subscribe i key luck =>
    exact refines_withClient i fun a G table client P hb => does_subscribeInMemory hb key luck
  | unsubscribe i key luck =>
    exact refines_withClient i fun a G table client P hb => does_unsubscribeInMemory hb key luck
  | disconnect i closed => exact refines_disconnect i closed

end Together

/-! ### Runs -/

/-- A new table, threads without clients, and calls. -/
def serve (calls : List SessionCall) : Prog (Option (Addr × List Reply)) := do
  let ht ← createHashTable ⟨true, true, true⟩
  match ht with
  | none => pure none
  | some ht =>
    let vars ← malloc (.threads fun _ => none)
    let replies ← calls.mapM (SessionCall.inMemory vars ht)
    pure (some (ht, replies))

/-- The server until the table is freed. -/
def serveAndTerminate (calls : List SessionCall) : Prog (Option (List Reply)) := do
  let r ← serve calls
  match r with
  | none => pure none
  | some (ht, replies) =>
    freeTable ht
    pure (some replies)

def serveModel (calls : List SessionCall) : Except Fault (List Reply × Served) :=
  calls.mapM SessionCall.onModel (Store.createHashTable, fun _ => none)

/-- The allocations of a client: its structure, and an entry and a key for each of its
subscriptions. -/
def clientSize (client : Option Client) : ℕ :=
  (client.map fun c => 1 + 2 * c.subscriptions.length).getD 0

/-- The allocations of the clients of all threads. -/
def clientsSize (clients : Thread → Option Client) : ℕ :=
  ((List.finRange Host.maxSessionCount).map fun i => clientSize (clients i)).sum

theorem length_segment_subscription (l : List (Addr × (Addr × CStr))) (e : Option Addr) :
    (segment subscriptionKind l e).length = 2 * l.length := by
  induction l with
  | nil => rfl
  | cons n l ih =>
    rw [segment_cons, List.length_cons, List.length_append, ih, List.length_cons]
    simp only [subscriptionKind, List.length_singleton]
    omega

theorem length_layoutCells (c : Option (Addr × ClientLayout)) :
    (layoutCells c).length = clientSize (c.map fun c => c.2.client) := by
  cases c with
  | none => rfl
  | some c =>
    have hkeys : (keysOf c.2.subscriptions).length = c.2.subscriptions.length := by simp [keysOf]
    simp only [layoutCells, clientCells, List.length_cons, length_segment_subscription, clientSize,
      Option.map_some, Option.getD_some, ClientLayout.client, hkeys]
    omega

theorem length_clients {layouts : Layouts} {clients : Thread → Option Client}
    (h : ∀ j, clients j = (layouts j).map fun c => c.2.client) :
    ((List.finRange Host.maxSessionCount).flatMap fun i => layoutCells (layouts i)).length =
      clientsSize clients := by
  rw [List.length_flatMap, clientsSize]
  simp only [length_layoutCells, h]

section Runs
variable {calls : List SessionCall} {replies : List Reply} {s : Served}

theorem does_serve (h : serveModel calls = .ok (replies, s)) :
    Does [] (serve calls) fun r P' =>
      ∃ vars ht, r = some (ht, replies) ∧ Together vars ht s P' := by
  refine (does_createHashTable ⟨true, true, true⟩).bind ?_
  rintro _ PT ⟨ht, rfl, hr⟩
  refine (Does.malloc _).bind ?_
  rintro vars _ rfl
  have hstart : Together vars ht (Store.createHashTable, fun _ => none)
      ((vars, .threads fun _ => none) :: PT) :=
    ⟨fun _ => none, PT, hr, fun _ => rfl, .of_eq (by simp [layoutCells])⟩
  refine ((Refines.mapM (SessionCall.refines vars ht) calls).of_ok hstart h).bind ?_
  rintro _ P' ⟨rfl, htogether⟩
  exact Does.pure ⟨vars, ht, rfl, htogether⟩

theorem fails_serve {f : Fault} (h : serveModel calls = .error f) : Fails [] (serve calls) f := by
  refine (does_createHashTable ⟨true, true, true⟩).fails ?_
  rintro _ PT ⟨ht, rfl, hr⟩
  refine (Does.malloc _).fails ?_
  rintro vars _ rfl
  have hstart : Together vars ht (Store.createHashTable, fun _ => none)
      ((vars, .threads fun _ => none) :: PT) :=
    ⟨fun _ => none, PT, hr, fun _ => rfl, .of_eq (by simp [layoutCells])⟩
  exact ((Refines.mapM (SessionCall.refines vars ht) calls).of_error hstart h).bind _

/-- Whatever the jobs and the clients call, in any order and with any allocations failing, memory
holds the lists of the table and of the connected clients as the model has them and nothing
else, and the replies are those of the model; no call uses what was freed. -/
theorem serve_run (calls : List SessionCall) :
    match serveModel calls with
    | .ok (replies, s) => Does [] (serve calls) fun r P' =>
        (∃ vars ht, r = some (ht, replies) ∧ Together vars ht s P') ∧
          P'.length = 1 + memoryOf s.1 + clientsSize s.2
    | .error f => Fails [] (serve calls) f := by
  cases hrun : serveModel calls with
  | error f => exact fails_serve hrun
  | ok r =>
    refine (does_serve hrun).imp ?_
    rintro _ P' ⟨vars, ht, rfl, htogether⟩
    refine ⟨P', .rfl, ⟨vars, ht, rfl, htogether⟩, ?_⟩
    obtain ⟨layouts, PT, hr, hclients, hp⟩ := htogether
    rw [hp.length_eq, List.length_cons, List.length_append, hr.length, length_clients hclients]
    omega

/-- The cells of the threads and of every client, and no others. -/
def ClientsLeft (vars : Addr) (clients : Thread → Option Client) (P : List (Addr × Cell)) : Prop :=
  ∃ layouts : Layouts, (∀ i, clients i = (layouts i).map fun c => c.2.client) ∧
    P.Perm ((vars, .threads fun i => (layouts i).map Prod.fst) ::
      (List.finRange Host.maxSessionCount).flatMap fun i => layoutCells (layouts i))

/-- After the table is freed only the clients that are still connected are left, with their own
lists. -/
theorem serveAndTerminate_run (calls : List SessionCall) :
    match serveModel calls with
    | .ok (replies, s) => Does [] (serveAndTerminate calls) fun r P' =>
        r = some replies ∧ (∃ vars, ClientsLeft vars s.2 P') ∧ P'.length = 1 + clientsSize s.2
    | .error f => Fails [] (serveAndTerminate calls) f := by
  cases hrun : serveModel calls with
  | error f => exact (fails_serve hrun).bind _
  | ok r =>
    refine (does_serve hrun).bind ?_
    rintro _ P₁ ⟨vars, ht, rfl, layouts, PT, hr, hclients, hp⟩
    refine (((does_freeTable hr).frame _).perm (hp.trans List.perm_middle.symm)).bind ?_
    rintro _ _ ⟨_, rfl, rfl⟩
    refine Does.pure ⟨rfl, ⟨vars, layouts, hclients, .rfl⟩, ?_⟩
    rw [List.nil_append, List.length_cons, length_clients hclients]
    omega

end Runs

end IstKvs.Memory
