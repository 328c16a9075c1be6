import IstKvs.Host.Arrivals
import IstKvs.Systems.Rendezvous

/-! How clients and client threads come together: `kvs_connect` of the client, the host thread
with its queue, and `kvs_connect` of the server. A client creates its pipes, writes its
connect message and opens the pipes one after the other; the client thread that takes its
message out of the queue opens their other ends; an open waits for the other end. What a client
does in its session is one step here. No signal arrives, and no allocation and no open fails. -/

namespace IstKvs.Host.Handshake

open IstKvs.Systems Function

/-! ### Pipes -/

inductive Pipe
  | notif
  | req
  | resp
  deriving DecidableEq

/-- An end of a pipe, for reading or for writing. -/
structure End where
  pipe : Pipe
  reads : Bool
  deriving DecidableEq

def End.other (e : End) : End := { e with reads := !e.reads }

/-- What `kvs_connect` of the client opens. -/
def clientOpens : List End := [⟨.notif, true⟩, ⟨.req, false⟩, ⟨.resp, true⟩]

/-- What `kvs_connect` of the server opens. -/
def serverOpens : List End := [⟨.notif, false⟩, ⟨.req, true⟩, ⟨.resp, false⟩]

theorem End.other_other (e : End) : e.other.other = e := by
  cases e
  simp [End.other]

theorem not_mem_serverOpens : ∀ e ∈ clientOpens, e ∉ serverOpens := by decide

theorem not_mem_clientOpens : ∀ e ∈ serverOpens, e ∉ clientOpens := by decide

/-! ### The machine -/

/-- Where a client is: before its message, in `open`, waiting for the answer, in its session,
or past its end. -/
inductive ClientPlace
  | start
  | opening
  | answer
  | connected
  | done
  deriving DecidableEq

def ClientPlace.hasOpened : ClientPlace → Bool
  | .answer | .connected | .done => true
  | _ => false

def ClientPlace.hasAnswer : ClientPlace → Bool
  | .connected | .done => true
  | _ => false

/-- The messages in the server pipe are named by their clients. `owners` are the clients whose
messages the host has read, which are those of its allocations in order, and `came` are the
ends of each client's pipes that somebody has come to. -/
structure Connecting (κ ι : Type*) where
  queue : State ι
  serverPipe : List κ
  owners : List κ
  place : κ → ClientPlace
  came : κ → End → Bool
  client : κ → Party End
  answered : κ → Bool
  session : ι → Option κ
  thread : ι → Party End

variable {κ ι : Type*}

def Connecting.initial : Connecting κ ι where
  queue := .initial
  serverPipe := []
  owners := []
  place := fun _ => .start
  came := fun _ _ => false
  client := fun _ => ⟨clientOpens, false⟩
  answered := fun _ => false
  session := fun _ => none
  thread := fun _ => ⟨[], false⟩

section Move
variable [DecidableEq κ] [DecidableEq ι]

def Connecting.goto (s : Connecting κ ι) (c : κ) (p : ClientPlace) : Connecting κ ι :=
  { s with place := update s.place c p }

/-- One step of a client. -/
def clientMove (s : Connecting κ ι) (c : κ) : Option (Connecting κ ι) :=
  match s.place c with
  | .start => some ({ s with serverPipe := s.serverPipe ++ [c] }.goto c .opening)
  | .opening =>
    if (s.client c).ends = [] then some (s.goto c .answer)
    else ((s.client c).step End.other (s.came c)).map fun r =>
      { s with came := update s.came c r.1, client := update s.client c r.2 }
  | .answer => if s.answered c then some (s.goto c .connected) else none
  | .connected => some (s.goto c .done)
  | .done => none

/-- One step of a client thread with the pipes of a client. -/
def sessionMove (s : Connecting κ ι) (i : ι) (c : κ) : Option (Connecting κ ι) :=
  if (s.thread i).ends = [] then
    if s.answered c then
      if s.place c = .done then
        (clientStep s.queue i).map fun q =>
          { s with queue := q, session := update s.session i none }
      else none
    else some { s with answered := update s.answered c true }
  else ((s.thread i).step End.other (s.came c)).map fun r =>
    { s with came := update s.came c r.1, thread := update s.thread i r.2 }

/-- One step of a client thread. It copies the paths before it frees the pointer. -/
def threadMove (s : Connecting κ ι) (i : ι) : Option (Connecting κ ι) :=
  match s.queue.client i with
  | .free p => (clientStep s.queue i).map fun q => { s with
      queue := q
      session := update s.session i s.owners[p]?
      thread := update s.thread i ⟨serverOpens, false⟩ }
  | .session => (s.session i).bind (sessionMove s i)
  | _ => (clientStep s.queue i).map fun q => { s with queue := q }

/-- One step of the host thread; a read of the empty server pipe fails. -/
def hostMove (s : Connecting κ ι) : Option (Connecting κ ι) :=
  match s.queue.host, s.serverPipe with
  | .reading, c :: rest => (hostStep s.queue true).map fun q =>
      { s with queue := q, serverPipe := rest, owners := s.owners ++ [c] }
  | .reading, [] => (hostStep s.queue false).map fun q => { s with queue := q }
  | _, _ => (hostStep s.queue true).map fun q => { s with queue := q }

inductive Mover (κ ι : Type*)
  | client (c : κ)
  | thread (i : ι)
  | host

def move (s : Connecting κ ι) : Mover κ ι → Option (Connecting κ ι)
  | .client c => clientMove s c
  | .thread i => threadMove s i
  | .host => hostMove s

end Move

/-! ### The queue -/

/-- A client thread that has copied the paths of a client. -/
def serves : ClientStage → Bool
  | .advance | .unlock | .post | .session => true
  | _ => false

/-- The host has read a message and not allocated its `ClientInfo`. -/
def unallocated : HostStage → ℕ
  | .resetControl | .alloc => 1
  | _ => 0

/-- The host has allocated a `ClientInfo` and not stored it. -/
def unstored : HostStage → ℕ
  | .store _ => 1
  | _ => 0

/-- The pointers are stored in the order of their allocations. -/
structure Numbered (q : State ι) : Prop where
  stored : q.stored = List.range q.stored.length
  allocated : q.allocated = q.stored.length + unstored q.host
  storing : ∀ p, q.host = .store p → p = q.stored.length

theorem Numbered.move {q q' : State ι} (h : Numbered q) (hstored : q'.stored = q.stored)
    (halloc : q'.allocated = q.allocated) (hq : unstored q.host = 0)
    (hq' : unstored q'.host = 0) : Numbered q' where
  stored := by rw [hstored, ← h.stored]
  allocated := by rw [hstored, halloc, h.allocated, hq, hq']
  storing p hp := by
    rw [hp] at hq'
    cases hq'

theorem Numbered.hostStep {q q' : State ι} (h : Numbered q) {ok : Bool}
    (hs : hostStep q ok = some q') : Numbered q' := by
  have hmove : unstored q.host = 0 → q'.stored = q.stored → q'.allocated = q.allocated →
      unstored q'.host = 0 → Numbered q' := fun hq hstored halloc => h.move hstored halloc hq
  unfold Host.hostStep at hs
  cases hst : q.host with
  | store p =>
    rw [hst] at hs
    obtain rfl := Option.some.inj hs
    have halloc := h.allocated
    rw [hst] at halloc
    refine ⟨?_, by simpa [unstored] using halloc, nofun⟩
    rw [List.length_append, List.length_singleton, List.range_succ, ← h.stored, h.storing p hst]
  | alloc =>
    have halloc := h.allocated
    rw [hst] at halloc
    simp only [hst] at hs
    split_ifs at hs <;> obtain rfl := Option.some.inj hs
    · refine ⟨h.stored, by simpa [unstored] using halloc, ?_⟩
      rintro p ⟨⟩
      simpa [unstored] using halloc
    · exact hmove (by rw [hst]; rfl) rfl rfl rfl
  | wait | blocked =>
    simp only [hst] at hs
    split_ifs at hs <;> obtain rfl := Option.some.inj hs <;>
      exact hmove (by rw [hst]; rfl) rfl rfl rfl
  | check | reading =>
    rw [hst] at hs
    obtain rfl := Option.some.inj hs
    exact hmove (by rw [hst]; rfl) rfl rfl (by dsimp only; split_ifs <;> rfl)
  | restart | resetRestart | resetControl | failed | advance | postRead =>
    rw [hst] at hs
    obtain rfl := Option.some.inj hs
    exact hmove (by rw [hst]; rfl) rfl rfl rfl

section Client
variable [DecidableEq ι] {q q' : State ι} {i : ι}

/-- A step of a client thread leaves the host's part of the queue. -/
theorem clientStep_frame (hs : clientStep q i = some q') :
    q'.host = q.host ∧ q'.stored = q.stored ∧ q'.allocated = q.allocated ∧
      ∀ j ≠ i, q'.client j = q.client j := by
  unfold Host.clientStep at hs
  cases hst : q.client i <;> simp only [hst] at hs
  case take =>
    obtain ⟨p, -, rfl⟩ := Option.map_eq_some_iff.mp hs
    exact ⟨rfl, rfl, rfl, fun j hj => update_of_ne hj _ _⟩
  all_goals try split_ifs at hs
  all_goals
    obtain rfl := Option.some.inj hs
    exact ⟨rfl, rfl, rfl, fun j hj => update_of_ne hj _ _⟩

theorem Numbered.clientStep (h : Numbered q) (hs : clientStep q i = some q') : Numbered q' := by
  obtain ⟨hhost, hstored, halloc, -⟩ := clientStep_frame hs
  refine ⟨by rw [hstored]; exact h.stored, by rw [halloc, hstored, hhost]; exact h.allocated, ?_⟩
  rw [hhost, hstored]
  exact h.storing

theorem client_goto_self (q : State ι) (i : ι) (x : ClientStage) : (q.goto i x).client i = x :=
  update_self ..

/-- What a step of a client thread does to its stage and to the freed pointers. -/
theorem clientStep_stage (hs : clientStep q i = some q') :
    (q.client i = .session ∧ q'.client i = .wait ∧ q'.freed = q.freed) ∨
      (∃ p, q.client i = .free p ∧ q'.client i = .advance ∧ q'.freed = q.freed ++ [p]) ∨
      (q.client i ≠ .session ∧ (∀ p, q.client i ≠ .free p) ∧
        serves (q'.client i) = serves (q.client i) ∧ q'.freed = q.freed) := by
  unfold Host.clientStep at hs
  cases hst : q.client i <;> simp only [hst] at hs
  case session =>
    obtain rfl := Option.some.inj hs
    exact .inl ⟨rfl, update_self .., rfl⟩
  case free p =>
    obtain rfl := Option.some.inj hs
    exact .inr (.inl ⟨p, rfl, update_self .., rfl⟩)
  case take =>
    obtain ⟨p, -, rfl⟩ := Option.map_eq_some_iff.mp hs
    exact .inr (.inr ⟨nofun, nofun, (congrArg serves (client_goto_self _ i _)).trans rfl, rfl⟩)
  all_goals try split_ifs at hs
  all_goals
    obtain rfl := Option.some.inj hs
    exact .inr (.inr ⟨nofun, nofun, (congrArg serves (client_goto_self _ i _)).trans rfl, rfl⟩)

omit [DecidableEq ι] in
theorem hostStep_frame {ok : Bool} (hs : hostStep q ok = some q') :
    q'.client = q.client ∧ q'.freed = q.freed := by
  unfold Host.hostStep at hs
  cases hst : q.host <;> simp only [hst] at hs
  all_goals try split_ifs at hs
  all_goals
    obtain rfl := Option.some.inj hs
    exact ⟨rfl, rfl⟩

end Client

/-! ### Sessions -/

section Sessions
variable {s t : Connecting κ ι} {c : κ} {i : ι}

/-- The clients whose paths were copied by a client thread. -/
def Connecting.served (s : Connecting κ ι) : List κ := s.owners.take s.queue.freed.length

/-- The queue as it is without signals. -/
structure Queued [Fintype ι] (s : Connecting κ ι) : Prop where
  quiet : Quiet s.queue
  counts : Counts s.queue
  ring : Ring s.queue
  numbered : Numbered s.queue
  owners : s.owners.length = s.queue.allocated + unallocated s.queue.host
  nodup : (s.owners ++ s.serverPipe).Nodup
  arrived : ∀ c, c ∈ s.owners ++ s.serverPipe ↔ s.place c ≠ .start

/-- A client thread has the pipes of one client, which no other thread has, from its copy of the
paths to the end of the session. -/
structure Paired (s : Connecting κ ι) : Prop where
  client : ∀ c, (s.client c).On clientOpens (s.came c)
  opened : ∀ c, (s.place c).hasOpened = true → (s.client c).ends = []
  thread : ∀ i c, s.session i = some c → (s.thread i).On serverOpens (s.came c)
  sole : ∀ i j c, s.session i = some c → s.session j = some c → i = j
  serving : ∀ i, (s.session i).isSome = serves (s.queue.client i)
  taken : ∀ i c, s.session i = some c → c ∈ s.served
  fresh : ∀ c, c ∉ s.served → (∀ e ∈ serverOpens, s.came c e = false) ∧ s.answered c = false
  served : ∀ c ∈ s.served, (∃ i, s.session i = some c) ∨ s.place c = .done
  answers : ∀ i c, s.session i = some c → s.answered c = true → (s.thread i).ends = []
  replied : ∀ c, (s.place c).hasAnswer = true → s.answered c = true

structure Orderly [Fintype ι] (s : Connecting κ ι) : Prop where
  queued : Queued s
  paired : Paired s

theorem orderly_initial [Fintype ι] : Orderly (Connecting.initial : Connecting κ ι) where
  queued := ⟨⟨rfl, rfl, rfl⟩, counts_initial, ring_initial, ⟨rfl, rfl, nofun⟩, rfl,
    List.nodup_nil, fun c => by simp [Connecting.initial]⟩
  paired :=
    { client := fun _ => Party.on_start fun _ _ => rfl
      opened := nofun
      thread := nofun
      sole := nofun
      serving := fun _ => rfl
      taken := nofun
      fresh := fun _ _ => ⟨fun _ _ => rfl, rfl⟩
      served := nofun
      answers := nofun
      replied := nofun }

/-- The queue takes a step of its own while the clients and their pipes stay as they are. -/
theorem Queued.queue [DecidableEq ι] [Fintype ι] (h : Queued s) {q : State ι} {a : Label ι}
    (ha : ∀ onHost, a ≠ .signal onHost ∧ a ≠ .post onHost) (hs : step s.queue a = some q) :
    Quiet q ∧ Counts q ∧ Ring q := by
  have hcalm : calm s.queue a = true := by
    cases a with
    | host | client => rfl
    | signal onHost => exact absurd rfl (ha onHost).1
    | post onHost => exact absurd rfl (ha onHost).2
  exact ⟨h.quiet.step ha hs, h.counts.step hcalm hs,
    h.ring.step (fun p hp => h.counts.store_lt hp) (fun i hi => h.counts.take_lt hi) hs⟩

theorem Queued.clientStep [DecidableEq ι] [Fintype ι] (h : Queued s) {q : State ι}
    (hs : clientStep s.queue i = some q) (session : ι → Option κ) (thread : ι → Party End) :
    Queued { s with queue := q, session := session, thread := thread } := by
  obtain ⟨hquiet, hcounts, hring⟩ := h.queue (a := .client i) (fun _ => ⟨nofun, nofun⟩) hs
  obtain ⟨hhost, -, halloc, -⟩ := clientStep_frame hs
  refine ⟨hquiet, hcounts, hring, h.numbered.clientStep hs, ?_, h.nodup, h.arrived⟩
  rw [halloc, hhost]
  exact h.owners

/-- The host thread takes a step of the queue; `ok` is the outcome of its call. -/
theorem Queued.hostStep_queue [DecidableEq ι] [Fintype ι] (h : Queued s) {q : State ι} {ok : Bool}
    (hs : hostStep s.queue ok = some q) : Quiet q ∧ Counts q ∧ Ring q := by
  refine h.queue (a := .host ok) (fun _ => ⟨nofun, nofun⟩) ?_
  rw [step, if_neg (by simp [h.quiet.hostHandler])]
  exact hs

theorem unallocated_hostStep {q q' : State ι} (hs : hostStep q true = some q')
    (hr : q.host ≠ .reading) :
    q'.allocated + unallocated q'.host = q.allocated + unallocated q.host := by
  unfold Host.hostStep at hs
  cases hst : q.host <;> simp only [hst] at hs
  case reading => exact absurd hst hr
  case check =>
    obtain rfl := Option.some.inj hs
    dsimp only
    split_ifs <;> rfl
  all_goals try split_ifs at hs
  all_goals
    obtain rfl := Option.some.inj hs
    simp [unallocated]

theorem Queued.freed_le [Fintype ι] (h : Queued s) : s.queue.freed.length ≤ s.owners.length := by
  have hfreed := congrArg List.length h.ring.freed
  have htaken := h.ring.taken.length_le
  have halloc := h.numbered.allocated
  have howners := h.owners
  rw [List.length_append] at hfreed
  omega

/-! What the host does -/

theorem served_queue {q : State ι} (hfreed : q.freed = s.queue.freed) :
    ({ s with queue := q } : Connecting κ ι).served = s.served := by
  rw [Connecting.served, hfreed, Connecting.served]

/-- The queue changes, and the threads that serve clients stay the same. -/
theorem Paired.queue (h : Paired s) {q : State ι}
    (hserves : ∀ i, serves (q.client i) = serves (s.queue.client i))
    (hfreed : q.freed = s.queue.freed) : Paired { s with queue := q } where
  client := h.client
  opened := h.opened
  thread := h.thread
  sole := h.sole
  serving i := (h.serving i).trans (hserves i).symm
  taken i c hi := (served_queue hfreed).symm ▸ h.taken i c hi
  fresh c hc := h.fresh c (served_queue hfreed ▸ hc)
  served c hc := h.served c (served_queue hfreed ▸ hc)
  answers := h.answers
  replied := h.replied

/-- The clients served stay the same when more messages are read. -/
theorem Paired.owners (h : Paired s) {owners pipe : List κ}
    (hserved : owners.take s.queue.freed.length = s.served) :
    Paired { s with serverPipe := pipe, owners := owners } where
  client := h.client
  opened := h.opened
  thread := h.thread
  sole := h.sole
  serving := h.serving
  taken i c hi := by
    rw [Connecting.served, hserved]
    exact h.taken i c hi
  fresh c hc := by
    rw [Connecting.served, hserved] at hc
    exact h.fresh c hc
  served c hc := by
    rw [Connecting.served, hserved] at hc
    exact h.served c hc
  answers := h.answers
  replied := h.replied

theorem Orderly.host [DecidableEq ι] [Fintype ι] (h : Orderly s)
    (hs : hostMove s = some t) : Orderly t := by
  have hplain : ∀ {ok q}, hostStep s.queue ok = some q →
      q.allocated + unallocated q.host = s.queue.allocated + unallocated s.queue.host →
      Orderly { s with queue := q } := by
    intro ok q hq halloc
    obtain ⟨hquiet, hcounts, hring⟩ := h.queued.hostStep_queue hq
    obtain ⟨hclient, hfreed⟩ := hostStep_frame hq
    exact ⟨⟨hquiet, hcounts, hring, h.queued.numbered.hostStep hq,
      h.queued.owners.trans halloc.symm, h.queued.nodup, h.queued.arrived⟩,
      h.paired.queue (fun i => by rw [hclient]) hfreed⟩
  unfold hostMove at hs
  split at hs
  next c rest hr hpipe =>
    obtain ⟨q, hq, rfl⟩ := Option.map_eq_some_iff.mp hs
    obtain ⟨hquiet, hcounts, hring⟩ := h.queued.hostStep_queue hq
    obtain ⟨hclient, hfreed⟩ := hostStep_frame hq
    have hnumbered := h.queued.numbered.hostStep hq
    have hsame : (s.owners ++ [c]) ++ rest = s.owners ++ s.serverPipe := by rw [hpipe]; simp
    have hlen : (s.owners ++ [c]).length = q.allocated + unallocated q.host := by
      have howners := h.queued.owners
      rw [Host.hostStep, hr] at hq
      obtain rfl := Option.some.inj hq
      rw [hr] at howners
      rw [List.length_append, howners]
      rfl
    have hserved : (s.owners ++ [c]).take s.queue.freed.length = s.served :=
      List.take_append_of_le_length h.queued.freed_le
    exact ⟨⟨hquiet, hcounts, hring, hnumbered, hlen, hsame ▸ h.queued.nodup,
      fun x => hsame ▸ h.queued.arrived x⟩,
      (h.paired.owners hserved).queue (fun i => by rw [hclient]) hfreed⟩
  next hr hpipe =>
    obtain ⟨q, hq, rfl⟩ := Option.map_eq_some_iff.mp hs
    refine hplain hq ?_
    rw [Host.hostStep, hr] at hq
    obtain rfl := Option.some.inj hq
    rw [hr]
    rfl
  next hread hempty =>
    obtain ⟨q, hq, rfl⟩ := Option.map_eq_some_iff.mp hs
    refine hplain hq (unallocated_hostStep hq fun hr => ?_)
    cases hpipe : s.serverPipe with
    | nil => exact hempty hr hpipe
    | cons c rest => exact hread c rest hr hpipe

/-! What a client does -/

theorem Queued.goto [DecidableEq κ] [Fintype ι] (h : Queued s) {p : ClientPlace}
    (hp : s.place c ≠ .start) (hp' : p ≠ .start) : Queued (s.goto c p) := by
  refine ⟨h.quiet, h.counts, h.ring, h.numbered, h.owners, h.nodup, fun x => ?_⟩
  refine (h.arrived x).trans ?_
  by_cases hx : x = c
  · subst hx
    simp [Connecting.goto, hp, hp']
  · simp [Connecting.goto, hx]

theorem Queued.send [DecidableEq κ] [Fintype ι] (h : Queued s) (hp : s.place c = .start) :
    Queued ({ s with serverPipe := s.serverPipe ++ [c] }.goto c .opening) := by
  have hnew : c ∉ s.owners ++ s.serverPipe := fun hc => (h.arrived c).mp hc hp
  refine ⟨h.quiet, h.counts, h.ring, h.numbered, h.owners, ?_, fun x => ?_⟩
  · change (s.owners ++ (s.serverPipe ++ [c])).Nodup
    rw [← List.append_assoc, List.nodup_append]
    refine ⟨h.nodup, List.nodup_singleton c, fun a ha b hb => ?_⟩
    rintro rfl
    exact hnew (List.mem_singleton.mp hb ▸ ha)
  · change x ∈ s.owners ++ (s.serverPipe ++ [c]) ↔ update s.place c .opening x ≠ .start
    rw [← List.append_assoc, List.mem_append, h.arrived x, List.mem_singleton]
    by_cases hx : x = c
    · simp [hx]
    · simp [hx]

theorem Paired.goto [DecidableEq κ] (h : Paired s) {p : ClientPlace}
    (hopened : p.hasOpened = true → (s.client c).ends = [])
    (hreplied : p.hasAnswer = true → s.answered c = true) (hdone : s.place c ≠ .done) :
    Paired (s.goto c p) where
  client := h.client
  opened x hx := by
    by_cases hxc : x = c
    · subst hxc
      simp only [Connecting.goto, update_self] at hx
      exact hopened hx
    · simp only [Connecting.goto, update_of_ne hxc] at hx
      exact h.opened x hx
  thread := h.thread
  sole := h.sole
  serving := h.serving
  taken := h.taken
  fresh := h.fresh
  served x hx := by
    refine (h.served x hx).imp_right fun hd => ?_
    have hxc : x ≠ c := by
      rintro rfl
      exact hdone hd
    simp only [Connecting.goto, update_of_ne hxc, hd]
  answers := h.answers
  replied x hx := by
    by_cases hxc : x = c
    · subst hxc
      simp only [Connecting.goto, update_self] at hx
      exact hreplied hx
    · simp only [Connecting.goto, update_of_ne hxc] at hx
      exact h.replied x hx

/-- A client takes a step on its way through its pipes. -/
theorem Paired.open [DecidableEq κ] (h : Paired s) (hp : s.place c = .opening)
    {came : End → Bool} {p : Party End}
    (hs : (s.client c).step End.other (s.came c) = some (came, p)) :
    Paired { s with came := update s.came c came, client := update s.client c p } := by
  have hserver : ∀ e ∈ serverOpens, came e = s.came c e := fun e he =>
    (h.client c).came_eq hs (not_mem_clientOpens e he)
  exact
    { client := fun x => by
        by_cases hx : x = c
        · subst hx
          simpa using (h.client x).step hs
        · simpa [hx] using h.client x
      opened := fun x hx => by
        have hxc : x ≠ c := by
          rintro rfl
          rw [hp] at hx
          cases hx
        simpa [hxc] using h.opened x hx
      thread := fun i x hi => by
        by_cases hx : x = c
        · subst hx
          simpa using (h.thread i x hi).congr hserver
        · simpa [hx] using h.thread i x hi
      sole := h.sole
      serving := h.serving
      taken := h.taken
      fresh := fun x hx => by
        obtain ⟨hcame, hanswered⟩ := h.fresh x hx
        refine ⟨fun e he => ?_, hanswered⟩
        by_cases hxc : x = c
        · subst hxc
          simpa [hserver e he] using hcame e he
        · simpa [hxc] using hcame e he
      served := h.served
      answers := h.answers
      replied := h.replied }

theorem Orderly.client [DecidableEq κ] [Fintype ι] (h : Orderly s)
    (hs : clientMove s c = some t) : Orderly t := by
  obtain ⟨hqueued, hpaired⟩ := h
  unfold clientMove at hs
  cases hp : s.place c with
  | start =>
    rw [hp] at hs
    obtain rfl := Option.some.inj hs
    refine ⟨hqueued.send hp, Paired.goto (hpaired.owners rfl) nofun nofun ?_⟩
    rw [hp]
    nofun
  | opening =>
    simp only [hp] at hs
    split_ifs at hs with hends
    · obtain rfl := Option.some.inj hs
      exact ⟨hqueued.goto (by rw [hp]; nofun) nofun,
        hpaired.goto (fun _ => hends) nofun (by rw [hp]; nofun)⟩
    · obtain ⟨⟨came, p⟩, hstep, rfl⟩ := Option.map_eq_some_iff.mp hs
      exact ⟨{ hqueued with }, hpaired.open hp hstep⟩
  | answer =>
    simp only [hp] at hs
    split_ifs at hs with hanswered
    obtain rfl := Option.some.inj hs
    have hends := hpaired.opened c (by rw [hp]; rfl)
    exact ⟨hqueued.goto (by rw [hp]; nofun) nofun,
      hpaired.goto (fun _ => hends) (fun _ => hanswered) (by rw [hp]; nofun)⟩
  | connected =>
    rw [hp] at hs
    obtain rfl := Option.some.inj hs
    have hends := hpaired.opened c (by rw [hp]; rfl)
    have hanswered := hpaired.replied c (by rw [hp]; rfl)
    exact ⟨hqueued.goto (by rw [hp]; nofun) nofun,
      hpaired.goto (fun _ => hends) (fun _ => hanswered) (by rw [hp]; nofun)⟩
  | done =>
    rw [hp] at hs
    cases hs

/-! What a client thread does -/

/-- A client thread moves on outside of its sessions. -/
theorem Paired.pass [DecidableEq ι] (h : Paired s) {q : State ι}
    (hs : clientStep s.queue i = some q)
    (hserves : serves (q.client i) = serves (s.queue.client i))
    (hfreed : q.freed = s.queue.freed) : Paired { s with queue := q } := by
  obtain ⟨-, -, -, hothers⟩ := clientStep_frame hs
  refine h.queue (fun j => ?_) hfreed
  by_cases hj : j = i
  · subst hj
    exact hserves
  · rw [hothers j hj]

/-- The session of a thread after one thread has begun or ended its session. -/
theorem session_update [DecidableEq ι] {j : ι} {o : Option κ} {x : κ}
    (h : update s.session i o j = some x) :
    j = i ∧ o = some x ∨ j ≠ i ∧ s.session j = some x := by
  by_cases hji : j = i
  · subst hji
    rw [update_self] at h
    exact .inl ⟨rfl, h⟩
  · rw [update_of_ne hji] at h
    exact .inr ⟨hji, h⟩

/-- A client thread copies the paths of the first client whose paths were not copied. -/
theorem Paired.begin [DecidableEq ι] (h : Paired s) {q : State ι} {c : κ}
    (hs : clientStep s.queue i = some q) (hnone : s.session i = none)
    (hserves : serves (q.client i) = true) (hserved : q.freed.length = s.queue.freed.length + 1)
    (hc : s.owners[s.queue.freed.length]? = some c) (hnew : c ∉ s.served) :
    Paired { s with
      queue := q
      session := update s.session i (some c)
      thread := update s.thread i ⟨serverOpens, false⟩ } := by
  obtain ⟨-, -, -, hothers⟩ := clientStep_frame hs
  obtain ⟨hcame, hanswered⟩ := h.fresh c hnew
  have hserved' : s.owners.take q.freed.length = s.served ++ [c] := by
    rw [hserved, List.take_add_one, hc]
    rfl
  have hmem : ∀ x, x ∈ s.owners.take q.freed.length ↔ x ∈ s.served ∨ x = c := fun x => by
    rw [hserved', List.mem_append, List.mem_singleton]
  have hold : ∀ j x, s.session j = some x → x ≠ c := by
    rintro j x hj rfl
    exact hnew (h.taken j x hj)
  exact
    { client := h.client
      opened := h.opened
      thread := fun j x hj => by
        rcases session_update hj with ⟨rfl, ⟨⟩⟩ | ⟨hji, hj⟩
        · simpa using Party.on_start hcame
        · simpa [hji] using h.thread j x hj
      sole := fun j k x hj hk => by
        rcases session_update hj with ⟨hji, ⟨⟩⟩ | ⟨-, hj'⟩ <;>
          rcases session_update hk with ⟨hki, hx⟩ | ⟨-, hk'⟩
        · rw [hji, hki]
        · exact absurd rfl (hold k c hk')
        · exact absurd (Option.some.inj hx).symm (hold j x hj')
        · exact h.sole j k x hj' hk'
      serving := fun j => by
        by_cases hji : j = i
        · subst hji
          simp [hserves]
        · rw [hothers j hji]
          simpa [hji] using h.serving j
      taken := fun j x hj => by
        rcases session_update hj with ⟨-, ⟨⟩⟩ | ⟨-, hj⟩
        · exact (hmem c).mpr (.inr rfl)
        · exact (hmem x).mpr (.inl (h.taken j x hj))
      fresh := fun x hx => h.fresh x fun hm => hx ((hmem x).mpr (.inl hm))
      served := fun x hx => by
        rcases (hmem x).mp hx with hx | rfl
        · refine (h.served x hx).imp_left ?_
          rintro ⟨j, hj⟩
          have hji : j ≠ i := by
            rintro rfl
            rw [hnone] at hj
            cases hj
          exact ⟨j, by simpa [hji] using hj⟩
        · exact .inl ⟨i, update_self ..⟩
      answers := fun j x hj ha => by
        rcases session_update hj with ⟨-, ⟨⟩⟩ | ⟨hji, hj⟩
        · rw [hanswered] at ha
          cases ha
        · simpa [hji] using h.answers j x hj ha
      replied := h.replied }

/-- A client thread takes a step on its way through the pipes of its client. -/
theorem Paired.reopen [DecidableEq κ] [DecidableEq ι] (h : Paired s) (hi : s.session i = some c)
    (hends : (s.thread i).ends ≠ []) {came : End → Bool} {p : Party End}
    (hs : (s.thread i).step End.other (s.came c) = some (came, p)) :
    Paired { s with came := update s.came c came, thread := update s.thread i p } := by
  have hon := h.thread i c hi
  have hclient : ∀ e ∈ clientOpens, came e = s.came c e := fun e he =>
    hon.came_eq hs (not_mem_serverOpens e he)
  have hnot : s.answered c = false := by
    by_contra hanswered
    exact hends (h.answers i c hi (by simpa using hanswered))
  exact
    { client := fun x => by
        by_cases hx : x = c
        · subst hx
          simpa using (h.client x).congr hclient
        · simpa [hx] using h.client x
      opened := h.opened
      thread := fun j x hj => by
        by_cases hji : j = i
        · subst hji
          obtain rfl : c = x := Option.some.inj (hi.symm.trans hj)
          simpa using hon.step hs
        · have hx : x ≠ c := by
            rintro rfl
            exact hji (h.sole j i x hj hi)
          simpa [hji, hx] using h.thread j x hj
      sole := h.sole
      serving := h.serving
      taken := h.taken
      fresh := fun x hx => by
        have hxc : x ≠ c := by
          rintro rfl
          exact hx (h.taken i x hi)
        simpa [hxc] using h.fresh x hx
      served := h.served
      answers := fun j x hj ha => by
        by_cases hji : j = i
        · subst hji
          obtain rfl : c = x := Option.some.inj (hi.symm.trans hj)
          rw [hnot] at ha
          cases ha
        · simpa [hji] using h.answers j x hj ha
      replied := h.replied }

theorem Paired.answer [DecidableEq κ] (h : Paired s) (hi : s.session i = some c)
    (hends : (s.thread i).ends = []) : Paired { s with answered := update s.answered c true } where
  client := h.client
  opened := h.opened
  thread := h.thread
  sole := h.sole
  serving := h.serving
  taken := h.taken
  fresh x hx := by
    have hxc : x ≠ c := by
      rintro rfl
      exact hx (h.taken i x hi)
    simpa [hxc] using h.fresh x hx
  served := h.served
  answers j x hj ha := by
    by_cases hx : x = c
    · subst hx
      obtain rfl := h.sole j i x hj hi
      exact hends
    · exact h.answers j x hj (by simpa [hx] using ha)
  replied x hx := by
    by_cases hxc : x = c
    · simp [hxc]
    · simpa [hxc] using h.replied x hx

/-- A client thread ends the session of a client that is done. -/
theorem Paired.finish [DecidableEq ι] (h : Paired s) (hi : s.session i = some c)
    (hdone : s.place c = .done) {q : State ι} (hs : clientStep s.queue i = some q)
    (hserves : serves (q.client i) = false) (hfreed : q.freed = s.queue.freed) :
    Paired { s with queue := q, session := update s.session i none } := by
  obtain ⟨-, -, -, hothers⟩ := clientStep_frame hs
  have hserved : ({ s with queue := q } : Connecting κ ι).served = s.served :=
    served_queue hfreed
  have hold : ∀ j x, update s.session i none j = some x → s.session j = some x := fun j x hj =>
    ((session_update hj).resolve_left (by simp)).2
  exact
    { client := h.client
      opened := h.opened
      thread := fun j x hj => h.thread j x (hold j x hj)
      sole := fun j k x hj hk => h.sole j k x (hold j x hj) (hold k x hk)
      serving := fun j => by
        by_cases hji : j = i
        · subst hji
          simp [hserves]
        · rw [hothers j hji]
          simpa [hji] using h.serving j
      taken := fun j x hj => hserved ▸ h.taken j x (hold j x hj)
      fresh := fun x hx => h.fresh x (hserved ▸ hx)
      served := fun x hx => by
        rcases h.served x (hserved ▸ hx) with ⟨j, hj⟩ | hx
        · by_cases hji : j = i
          · subst hji
            obtain rfl : c = x := Option.some.inj (hi.symm.trans hj)
            exact .inr hdone
          · exact .inl ⟨j, by simpa [hji] using hj⟩
        · exact .inr hx
      answers := fun j x hj => h.answers j x (hold j x hj)
      replied := h.replied }

/-- The pointer that a client thread frees is that of the next client. -/
theorem Queued.next_owner [Fintype ι] (h : Queued s) {p : Pointer}
    (hp : s.queue.client i = .free p) :
    p = s.queue.freed.length ∧ ∃ c, s.owners[p]? = some c ∧ c ∉ s.served := by
  have hmutex := (h.ring.mutex i).mp (by rw [hp]; rfl)
  have hfreed := h.ring.freed
  rw [State.held, hmutex, Option.elim_some, hp, ClientStage.held] at hfreed
  have htaken := h.ring.taken
  rw [← hfreed, h.numbered.stored] at htaken
  have hlen := htaken.length_le
  rw [List.length_append, List.length_singleton, List.length_range] at hlen
  have hget := List.prefix_iff_getElem?.mp htaken s.queue.freed.length (by simp)
  rw [List.getElem?_range (by omega)] at hget
  have hp' : p = s.queue.freed.length := by simpa using (Option.some.inj hget).symm
  have halloc := h.numbered.allocated
  have hlength := h.owners
  have howners : s.queue.freed.length < s.owners.length := by omega
  rw [← hp'] at howners
  refine ⟨hp', s.owners[p], List.getElem?_eq_getElem howners, ?_⟩
  have hnodup := (List.nodup_append.mp h.nodup).1
  rw [← List.take_append_drop p s.owners, List.drop_eq_getElem_cons howners] at hnodup
  rw [Connecting.served, ← hp']
  exact fun hm => (List.nodup_append.mp hnodup).2.2 _ hm _ List.mem_cons_self rfl

theorem Orderly.thread [DecidableEq κ] [DecidableEq ι] [Fintype ι] (h : Orderly s)
    (hs : threadMove s i = some t) : Orderly t := by
  obtain ⟨hqueued, hpaired⟩ := h
  unfold threadMove at hs
  split at hs
  next p hp =>
    obtain ⟨q, hq, rfl⟩ := Option.map_eq_some_iff.mp hs
    obtain ⟨rfl, c, hc, hnew⟩ := hqueued.next_owner hp
    have hnone : s.session i = none := by
      have hserving := hpaired.serving i
      rw [hp] at hserving
      simpa [serves] using hserving
    rw [hc]
    refine ⟨hqueued.clientStep hq _ _, hpaired.begin hq hnone ?_ ?_ hc hnew⟩
    all_goals
      rw [Host.clientStep, hp] at hq
      obtain rfl := Option.some.inj hq
    · exact (congrArg serves (client_goto_self _ i _)).trans rfl
    · exact List.length_append
  next hp =>
    obtain ⟨c, hc, hs⟩ := Option.bind_eq_some_iff.mp hs
    unfold sessionMove at hs
    split_ifs at hs with hends hanswered hdone
    · obtain ⟨q, hq, rfl⟩ := Option.map_eq_some_iff.mp hs
      refine ⟨hqueued.clientStep hq _ _, hpaired.finish hc hdone hq ?_ ?_⟩
      all_goals
        rw [Host.clientStep, hp] at hq
        obtain rfl := Option.some.inj hq
      · exact (congrArg serves (client_goto_self _ i _)).trans rfl
      · rfl
    · obtain rfl := Option.some.inj hs
      exact ⟨{ hqueued with }, hpaired.answer hc hends⟩
    · obtain ⟨⟨came, p⟩, hstep, rfl⟩ := Option.map_eq_some_iff.mp hs
      exact ⟨{ hqueued with }, hpaired.reopen hc hends hstep⟩
  next hfree hsession =>
    obtain ⟨q, hq, rfl⟩ := Option.map_eq_some_iff.mp hs
    obtain ⟨hp, -⟩ | ⟨p, hp, -⟩ | ⟨-, -, hserves, hfreed⟩ := clientStep_stage hq
    · exact absurd hp hsession
    · exact absurd hp (hfree p)
    · exact ⟨hqueued.clientStep hq _ _, hpaired.pass hq hserves hfreed⟩

theorem orderly_of_run [DecidableEq κ] [DecidableEq ι] [Fintype ι] {ms : List (Mover κ ι)}
    (h : Run (stepOf move) .initial ms s) :
    Orderly s := by
  refine h.invariant orderly_initial ?_
  rintro u (c | i | _) v hu hs
  · exact hu.client hs
  · exact hu.thread hs
  · exact hu.host hs

end Sessions

end IstKvs.Host.Handshake
