import IstKvs.Sessions.Requests
import IstKvs.Systems.Run

/-! The descriptors and the `Client` of each session of a client thread: what `kvs_connect` opens
and allocates, and what `kvs_disconnect` closes and frees. The thread disconnects on every status
but -1, also when there is no client, and `kvs_connect` replies through a client that may be
NULL. -/

namespace IstKvs.Sessions.Handles

open IstKvs.Store IstKvs.Systems Function

/-- The three descriptors of a client. -/
structure Fds where
  fdReq : Fd
  fdResp : Fd
  fdNotif : Fd
  deriving DecidableEq

/-- A `Client` in `connectedClients`; `owner` is its number when this thread allocated it. -/
structure Entry where
  owner : Option ℕ
  fds : Fds
  deriving DecidableEq

/-- What a client thread has opened, closed, allocated and freed so far, and its own entries of
`connectedClients`. -/
structure Thread (n : ℕ) where
  entries : Fin n → Option Entry
  opened : List Fd
  closed : List Fd
  allocated : ℕ
  freed : List (Option ℕ)

/-- What a session meets: the results of the three opens and of `malloc`, the clients of other
threads in the list when `add_client` and when `remove_client` run, and the requests that are read
before a read fails, each with whether `kvs_subscribe` fails on it. -/
structure Session (n : ℕ) where
  fds : Fds
  memory : Bool
  joining : Fin n → Option Fds
  leaving : Fin n → Option Fds
  requests : List (Request × Bool)

section Functions
variable {n : ℕ}

/-- The list as all threads fill it. -/
def connectedClients (s : Thread n) (others : Fin n → Option Fds) (i : Fin n) : Option Entry :=
  (s.entries i).or ((others i).map fun fds => ⟨none, fds⟩)

def openPipe (s : Thread n) (fd : Fd) : Thread n :=
  if fd < 0 then s else { s with opened := fd :: s.opened }

/-- Only a descriptor that was opened can be closed. -/
def closePipe (s : Thread n) (fd : Fd) : Thread n :=
  if fd < 0 then s else { s with closed := fd :: s.closed }

def addClient (s : Thread n) (others : Fin n → Option Fds) (client : Entry) : Thread n × ℤ :=
  match Fin.find? fun i => (connectedClients s others i).isNone with
  | some i => ({ s with entries := update s.entries i (some client) }, 0)
  | none => (s, 1)

/-- The first client with these descriptors is freed. -/
def removeClient (s : Thread n) (others : Fin n → Option Fds) (fds : Fds) : Thread n :=
  match Fin.find? fun i => (connectedClients s others i).any fun e => e.fds = fds with
  | some i => { s with
      entries := update s.entries i none
      freed := (connectedClients s others i).bind Entry.owner :: s.freed }
  | none => s

/-- The status, the client and the thread after it. Without memory the pipes are closed, and then
the reply goes through the NULL client. -/
def kvsConnect (s : Thread n) (x : Session n) : Except Fault (ℤ × Option Entry × Thread n) :=
  let s := openPipe (openPipe s x.fds.fdNotif) x.fds.fdReq
  let result : ℤ := if x.fds.fdNotif < 0 ∨ x.fds.fdReq < 0 then 1 else 0
  if x.fds.fdResp < 0 then .ok (1, none, s)
  else
    let s := openPipe s x.fds.fdResp
    if !x.memory then .error .null
    else
      let client : Entry := ⟨some s.allocated, x.fds⟩
      let r := addClient { s with allocated := s.allocated + 1 } x.joining client
      .ok (if r.2 ≠ 0 then 1 else result, some client, r.1)

def kvsDisconnect (s : Thread n) (x : Session n) : Option Entry → Except Fault (Thread n)
  | none => .error .null
  | some client =>
    let s := closePipe (closePipe s client.fds.fdReq) client.fds.fdNotif
    .ok (removeClient (closePipe s client.fds.fdResp) x.leaving client.fds)

/-- The session goes on after the request. -/
def goesOn (request : Request) (fails : Bool) : Bool :=
  match request with
  | .subscribe _ => !fails
  | _ => request.continues

/-- The loop over the requests; a failed read disconnects like a request that ends the session. -/
def serve (s : Thread n) (x : Session n) (client : Option Entry) :
    List (Request × Bool) → Except Fault (Thread n)
  | [] => kvsDisconnect s x client
  | (request, fails) :: rest =>
    if goesOn request fails then serve s x client rest else kvsDisconnect s x client

/-- One turn of `process_client_thread`. -/
def processClient (s : Thread n) (x : Session n) : Except Fault (Thread n) := do
  let r ← kvsConnect s x
  if r.1 = -1 then pure r.2.2
  else if r.1 ≠ 0 then kvsDisconnect r.2.2 x r.2.1
  else serve r.2.2 x r.2.1 x.requests

end Functions

/-! ### The balance -/

/-- Every descriptor has been closed as often as it was opened, and every client freed once. -/
structure Balanced {n : ℕ} (s : Thread n) : Prop where
  closed : ∀ fd, s.closed.count fd = s.opened.count fd
  freed : ∀ k < s.allocated, s.freed.count (some k) = 1

/-- The thread has no client in the list, and has freed none that it did not allocate. -/
structure Clean {n : ℕ} (s : Thread n) : Prop extends Balanced s where
  entries : ∀ i, s.entries i = none
  fresh : ∀ k, s.allocated ≤ k → s.freed.count (some k) = 0

def Thread.initial (n : ℕ) : Thread n := ⟨fun _ => none, [], [], 0, []⟩

theorem clean_initial (n : ℕ) : Clean (Thread.initial n) where
  closed _ := rfl
  freed k hk := by
    simp only [Thread.initial] at hk
    omega
  entries _ := rfl
  fresh _ _ := rfl

/-- The response pipe opens, there is memory and a free slot, and no client of another thread with
the same descriptors stands before that slot when the session ends. -/
def Served {n : ℕ} (x : Session n) : Prop :=
  0 ≤ x.fds.fdResp ∧ x.memory = true ∧ ∃ i, x.joining i = none ∧
    ∀ j < i, x.joining j ≠ none ∧ x.leaving j ≠ some x.fds

section Turn
variable {n : ℕ} {s : Thread n} {x : Session n}

/-- A session with a client ends with one disconnection, whatever is requested. -/
theorem serve_eq (client : Option Entry) (requests : List (Request × Bool)) :
    serve s x client requests = kvsDisconnect s x client := by
  induction requests with
  | nil => rfl
  | cons r requests ih =>
    obtain ⟨request, fails⟩ := r
    rw [serve]
    split_ifs
    · exact ih
    · rfl

theorem processClient_null (h : x.fds.fdResp < 0 ∨ x.memory = false) :
    processClient s x = .error .null := by
  by_cases hresp : x.fds.fdResp < 0
  · rw [processClient, kvsConnect, if_pos hresp]
    rfl
  · rw [processClient, kvsConnect, if_neg hresp, if_pos (by simp [h.resolve_left hresp])]
    rfl

/-- The thread after the opens and the allocation of a session. -/
def acquire (s : Thread n) (x : Session n) : Thread n :=
  { openPipe (openPipe (openPipe s x.fds.fdNotif) x.fds.fdReq) x.fds.fdResp with
    allocated := s.allocated + 1 }

/-- What `kvs_disconnect` does with a client. -/
def release (s : Thread n) (x : Session n) (client : Entry) : Thread n :=
  removeClient (closePipe (closePipe (closePipe s client.fds.fdReq) client.fds.fdNotif)
    client.fds.fdResp) x.leaving client.fds

/-- The client of the next session. -/
def nextClient (s : Thread n) (x : Session n) : Entry := ⟨some s.allocated, x.fds⟩

section Fields
variable (s : Thread n) (fd g : Fd) (others : Fin n → Option Fds) (client : Entry)

@[simp] theorem openPipe_entries : (openPipe s fd).entries = s.entries := by
  unfold openPipe; split_ifs <;> rfl

@[simp] theorem openPipe_closed : (openPipe s fd).closed = s.closed := by
  unfold openPipe; split_ifs <;> rfl

@[simp] theorem openPipe_allocated : (openPipe s fd).allocated = s.allocated := by
  unfold openPipe; split_ifs <;> rfl

@[simp] theorem openPipe_freed : (openPipe s fd).freed = s.freed := by
  unfold openPipe; split_ifs <;> rfl

@[simp] theorem closePipe_entries : (closePipe s fd).entries = s.entries := by
  unfold closePipe; split_ifs <;> rfl

@[simp] theorem closePipe_opened : (closePipe s fd).opened = s.opened := by
  unfold closePipe; split_ifs <;> rfl

@[simp] theorem closePipe_allocated : (closePipe s fd).allocated = s.allocated := by
  unfold closePipe; split_ifs <;> rfl

@[simp] theorem closePipe_freed : (closePipe s fd).freed = s.freed := by
  unfold closePipe; split_ifs <;> rfl

theorem count_recorded (l : List Fd) : (if fd < 0 then l else fd :: l).count g =
    l.count g + if fd = g ∧ 0 ≤ fd then 1 else 0 := by
  by_cases hfd : fd < 0
  · rw [if_pos hfd, if_neg fun h => absurd h.2 (not_le.mpr hfd), Nat.add_zero]
  · by_cases hg : fd = g
    · rw [if_neg hfd, if_pos ⟨hg, not_lt.mp hfd⟩, hg, List.count_cons_self]
    · rw [if_neg hfd, if_neg fun h => hg h.1, List.count_cons_of_ne hg, Nat.add_zero]

theorem count_openPipe : (openPipe s fd).opened.count g =
    s.opened.count g + if fd = g ∧ 0 ≤ fd then 1 else 0 := by
  have hopened : (openPipe s fd).opened = if fd < 0 then s.opened else fd :: s.opened := by
    unfold openPipe
    split_ifs <;> rfl
  rw [hopened, count_recorded]

theorem count_closePipe : (closePipe s fd).closed.count g =
    s.closed.count g + if fd = g ∧ 0 ≤ fd then 1 else 0 := by
  have hclosed : (closePipe s fd).closed = if fd < 0 then s.closed else fd :: s.closed := by
    unfold closePipe
    split_ifs <;> rfl
  rw [hclosed, count_recorded]

/-- The list of clients is all that adding and removing a client changes, and what was freed. -/
theorem addClient_keeps : (addClient s others client).1.opened = s.opened ∧
    (addClient s others client).1.closed = s.closed ∧
    (addClient s others client).1.allocated = s.allocated ∧
    (addClient s others client).1.freed = s.freed := by
  unfold addClient
  split <;> exact ⟨rfl, rfl, rfl, rfl⟩

theorem removeClient_keeps (fds : Fds) : (removeClient s others fds).opened = s.opened ∧
    (removeClient s others fds).closed = s.closed ∧
    (removeClient s others fds).allocated = s.allocated := by
  unfold removeClient
  split <;> exact ⟨rfl, rfl, rfl⟩

end Fields

/-- With a response pipe and memory the session is one acquisition and one release. -/
theorem processClient_eq (hresp : 0 ≤ x.fds.fdResp) (hmem : x.memory = true) :
    processClient s x =
      .ok (release (addClient (acquire s x) x.joining (nextClient s x)).1 x (nextClient s x)) := by
  obtain ⟨status, hne, hconnect⟩ : ∃ status : ℤ, status ≠ -1 ∧ kvsConnect s x =
      .ok (status, some (nextClient s x),
        (addClient (acquire s x) x.joining (nextClient s x)).1) := by
    refine ⟨if (addClient (acquire s x) x.joining (nextClient s x)).2 ≠ 0 then 1
      else if x.fds.fdNotif < 0 ∨ x.fds.fdReq < 0 then 1 else 0, by split_ifs <;> decide, ?_⟩
    rw [kvsConnect, if_neg (not_lt.mpr hresp), if_neg (by simp [hmem])]
    simp only [openPipe_allocated]
    rfl
  rw [processClient, hconnect]
  change (if status = -1 then _ else if status ≠ 0 then _ else _) = _
  rw [if_neg hne]
  split_ifs
  · rfl
  · rw [serve_eq]
    rfl

/-! ### The list of clients -/

section Slots
variable {others : Fin n → Option Fds} {client : Entry} {i : Fin n}

theorem addClient_full (hs : ∀ i, s.entries i = none) (h : ∀ i, others i ≠ none) :
    (addClient s others client).1 = s := by
  have hfind : (Fin.find? fun i => (connectedClients s others i).isNone) = none := by
    rw [Fin.find?_eq_none_iff]
    intro i
    simpa [connectedClients, hs i, Option.isSome_iff_ne_none] using h i
  rw [addClient, hfind]

theorem addClient_free (hs : ∀ i, s.entries i = none) (hi : others i = none)
    (hlt : ∀ j < i, others j ≠ none) :
    (addClient s others client).1 = { s with entries := update s.entries i (some client) } := by
  have hfind : (Fin.find? fun i => (connectedClients s others i).isNone) = some i := by
    rw [Fin.find?_eq_some_iff]
    refine ⟨by simp [connectedClients, hs i, hi], fun j hj => ?_⟩
    simpa [connectedClients, hs j, Option.isSome_iff_ne_none] using hlt j hj
  rw [addClient, hfind]

theorem removeClient_none (hs : ∀ i, s.entries i = none) (fds : Fds) (k : ℕ) :
    (removeClient s others fds).freed.count (some k) = s.freed.count (some k) := by
  unfold removeClient
  split
  next i _ =>
    have howner : (connectedClients s others i).bind Entry.owner = none := by
      cases ho : others i <;> simp [connectedClients, hs i, ho]
    rw [howner, List.count_cons_of_ne (by simp)]
  · rfl

section Own
variable (hs : s.entries = update (fun _ => none) i (some client))
include hs

theorem connectedClients_own : connectedClients s others i = some client := by
  simp [connectedClients, hs]

theorem connectedClients_other {j : Fin n} (hj : j ≠ i) :
    connectedClients s others j = (others j).map fun fds => ⟨none, fds⟩ := by
  simp [connectedClients, hs, hj]

/-- The thread's own client is freed when no client before it has its descriptors. -/
theorem removeClient_own (h : ∀ j < i, others j ≠ some client.fds) :
    removeClient s others client.fds =
      { s with entries := fun _ => none, freed := client.owner :: s.freed } := by
  have hfind : (Fin.find? fun i =>
      (connectedClients s others i).any fun e => e.fds = client.fds) = some i := by
    rw [Fin.find?_eq_some_iff]
    refine ⟨by simp [connectedClients_own hs], fun j hj => ?_⟩
    rw [connectedClients_other hs hj.ne]
    cases ho : others j with
    | none => rfl
    | some fds =>
      have hne : fds ≠ client.fds := fun he => h j hj (by rw [ho, he])
      simpa using hne
  rw [removeClient, hfind]
  simp only [connectedClients_own hs, Option.bind_some]
  congr 1
  rw [hs, update_idem, update_eq_self_iff]

/-- A client of another thread before it with its descriptors is freed instead. -/
theorem removeClient_shadowed (h : ∃ j < i, others j = some client.fds) :
    (removeClient s others client.fds).freed = none :: s.freed := by
  obtain ⟨j, hj, ho⟩ := h
  unfold removeClient
  split
  next l hl =>
    obtain ⟨hmatch, hbefore⟩ := Fin.find?_eq_some_iff.mp hl
    -- the match is at `j` or before, so it is not the thread's own client
    have hle : ¬ j < l := fun hlt => by
      simpa [connectedClients_other hs hj.ne, ho] using hbefore j hlt
    have hne : l ≠ i := ((not_lt.mp hle).trans_lt hj).ne
    rw [connectedClients_other hs hne]
    cases others l <;> rfl
  next hnone =>
    have hno := Fin.find?_eq_none_iff.mp hnone j
    simp [connectedClients_other hs hj.ne, ho] at hno

end Own

end Slots

/-! ### Sessions -/

/-- How often a descriptor is among those of a client. -/
def uses (fds : Fds) (fd : Fd) : ℕ :=
  (if fds.fdReq = fd ∧ 0 ≤ fds.fdReq then 1 else 0) +
    (if fds.fdNotif = fd ∧ 0 ≤ fds.fdNotif then 1 else 0) +
    if fds.fdResp = fd ∧ 0 ≤ fds.fdResp then 1 else 0

theorem acquire_count (fd : Fd) :
    (acquire s x).opened.count fd = s.opened.count fd + uses x.fds fd ∧
      (acquire s x).closed = s.closed := by
  constructor
  · simp only [acquire, count_openPipe, uses]
    omega
  · simp [acquire]

theorem release_count (fd : Fd) (client : Entry) :
    (release s x client).closed.count fd = s.closed.count fd + uses client.fds fd ∧
      (release s x client).opened = s.opened ∧ (release s x client).allocated = s.allocated := by
  obtain ⟨hopened, hclosed, hallocated⟩ := removeClient_keeps
    (closePipe (closePipe (closePipe s client.fds.fdReq) client.fds.fdNotif) client.fds.fdResp)
    x.leaving client.fds
  refine ⟨?_, ?_, ?_⟩
  · rw [release, hclosed]
    simp only [count_closePipe, uses]
    omega
  · rw [release, hopened]
    simp
  · rw [release, hallocated]
    simp

/-- The pipes of a session are closed as often as they are opened, however it goes. -/
theorem count_session (hs : Clean s) (fd : Fd) :
    (release (addClient (acquire s x) x.joining (nextClient s x)).1 x
        (nextClient s x)).closed.count fd =
      (release (addClient (acquire s x) x.joining (nextClient s x)).1 x
        (nextClient s x)).opened.count fd := by
  obtain ⟨hopened, hclosed, -, -⟩ := addClient_keeps (acquire s x) x.joining (nextClient s x)
  obtain ⟨hcount, hkeep, -⟩ := release_count (x := x) (s :=
    (addClient (acquire s x) x.joining (nextClient s x)).1) fd (nextClient s x)
  obtain ⟨hacquired, hsame⟩ := acquire_count (s := s) (x := x) fd
  rw [hcount, hkeep, hopened, hclosed, hacquired, hsame, hs.closed]
  rfl

theorem allocated_session (s : Thread n) (x : Session n) :
    (release (addClient (acquire s x) x.joining (nextClient s x)).1 x
        (nextClient s x)).allocated = s.allocated + 1 := by
  obtain ⟨-, -, hallocated, -⟩ := addClient_keeps (acquire s x) x.joining (nextClient s x)
  rw [(release_count (x := x) 0 (nextClient s x)).2.2, hallocated]
  rfl

theorem acquire_entries (hs : Clean s) : (acquire s x).entries = fun _ => none := by
  funext i
  simp [acquire, hs.entries i]

theorem acquire_freed (s : Thread n) (x : Session n) : (acquire s x).freed = s.freed := by
  simp [acquire]

theorem release_free (hs : Clean s) {i : Fin n} (hi : x.joining i = none)
    (hlt : ∀ j < i, x.joining j ≠ none) :
    release (addClient (acquire s x) x.joining (nextClient s x)).1 x (nextClient s x) =
      removeClient (closePipe (closePipe (closePipe { acquire s x with
        entries := update (fun _ => none) i (some (nextClient s x)) } x.fds.fdReq) x.fds.fdNotif)
          x.fds.fdResp) x.leaving x.fds := by
  have hentries := acquire_entries (x := x) hs
  rw [addClient_free (fun i => by rw [hentries]) hi hlt, hentries]
  rfl

theorem processClient_served (hs : Clean s) (hx : Served x) :
    ∃ t, processClient s x = .ok t ∧ Clean t := by
  obtain ⟨hresp, hmem, i, hi, hlt⟩ := hx
  have hcount := fun fd => count_session (x := x) hs fd
  have hallocated := allocated_session s x
  have hrelease := release_free hs hi fun j hj => (hlt j hj).1
  refine ⟨_, processClient_eq hresp hmem, ?_⟩
  generalize release (addClient (acquire s x) x.joining (nextClient s x)).1 x (nextClient s x) = t
    at hcount hallocated hrelease ⊢
  have hown := @removeClient_own n (closePipe (closePipe (closePipe { acquire s x with
    entries := update (fun _ => none) i (some (nextClient s x)) } x.fds.fdReq) x.fds.fdNotif)
      x.fds.fdResp) x.leaving (nextClient s x) i (by simp) fun j hj => (hlt j hj).2
  rw [nextClient] at hown hrelease
  simp only at hown hrelease
  rw [hown] at hrelease
  have hfreed : t.freed = some s.allocated :: s.freed := by
    rw [hrelease]
    simp [acquire_freed]
  refine ⟨⟨hcount, fun k hk => ?_⟩, fun j => by rw [hrelease], fun k hk => ?_⟩
  · rw [hallocated] at hk
    rw [hfreed]
    by_cases hlast : k = s.allocated
    · rw [hlast, List.count_cons_self, hs.fresh _ le_rfl]
    · rw [List.count_cons_of_ne (by simpa using Ne.symm hlast)]
      exact hs.freed k (by omega)
  · rw [hallocated] at hk
    rw [hfreed, List.count_cons_of_ne (by simp; omega)]
    exact hs.fresh k (by omega)

theorem served_of_balanced (hs : Clean s) {t : Thread n} (h : processClient s x = .ok t)
    (ht : Balanced t) : Served x := by
  by_cases hnull : x.fds.fdResp < 0 ∨ x.memory = false
  · rw [processClient_null hnull] at h
    cases h
  · rw [not_or, not_lt, Bool.not_eq_false] at hnull
    refine ⟨hnull.1, hnull.2, ?_⟩
    rw [processClient_eq hnull.1 hnull.2] at h
    obtain rfl := Except.ok.inj h
    have hfreed := ht.freed s.allocated (by rw [allocated_session]; omega)
    have hentries := acquire_entries (x := x) hs
    cases hfind : Fin.find? fun i => (x.joining i).isNone with
    | none =>
      -- the client is in no slot
      have hfull : ∀ i, x.joining i ≠ none := fun i he => by
        simpa [he] using Fin.find?_eq_none_iff.mp hfind i
      rw [addClient_full (fun i => by rw [hentries]) hfull, release,
        removeClient_none (fun i => by simp [hentries])] at hfreed
      simp [acquire_freed, hs.fresh _ le_rfl] at hfreed
    | some i =>
      obtain ⟨hi, hbefore⟩ := Fin.find?_eq_some_iff.mp hfind
      have hlt : ∀ j < i, x.joining j ≠ none := fun j hj he => by
        simpa [he] using hbefore j hj
      rw [Option.isNone_iff_eq_none] at hi
      refine ⟨i, hi, fun j hj => ⟨hlt j hj, fun hshadow => ?_⟩⟩
      have hremoved := @removeClient_shadowed n (closePipe (closePipe (closePipe
        { acquire s x with entries := update (fun _ => none) i (some (nextClient s x)) }
          x.fds.fdReq) x.fds.fdNotif) x.fds.fdResp) x.leaving (nextClient s x) i (by simp)
            ⟨j, hj, hshadow⟩
      rw [release_free hs hi hlt] at hfreed
      rw [nextClient] at hfreed hremoved
      simp only at hfreed hremoved
      rw [hremoved] at hfreed
      simp [acquire_freed, hs.fresh _ le_rfl] at hfreed

/-- In every run of sessions that are served as they should be, the next session uses no NULL client
and leaves every descriptor closed once and every client freed once exactly when it is, too. -/
theorem released_once_iff {xs : List (Session n)}
    (hrun : Run (guarded (fun _ x => Served x) fun s x t => processClient s x = .ok t)
      (Thread.initial n) xs s) (x : Session n) :
    (∃ t, processClient s x = .ok t ∧ Balanced t) ↔ Served x := by
  have hclean : Clean s := hrun.invariant (clean_initial n) fun u y v hu hv => by
    obtain ⟨t, ht, hc⟩ := processClient_served hu hv.1
    obtain rfl := Except.ok.inj (ht.symm.trans hv.2)
    exact hc
  constructor
  · rintro ⟨t, ht, hb⟩
    exact served_of_balanced hclean ht hb
  · intro hx
    obtain ⟨t, ht, hc⟩ := processClient_served hclean hx
    exact ⟨t, ht, hc.toBalanced⟩

end Turn

/-- A session alone in the list, of which the response pipe opens as `fdResp`. -/
def alone (fdResp : Fd) : Session 1 where
  fds := ⟨4, fdResp, 3⟩
  memory := true
  joining _ := none
  leaving _ := none
  requests := [(.disconnect, false)]

/-- The response pipe cannot be opened: the thread disconnects a NULL client. -/
theorem not_released_once :
    processClient (Thread.initial 1) (alone (-1)) = .error .null := by
  rfl

/-- A session that subscribes, with the client of another thread in the list until it has ended. -/
def second : Session 1 where
  fds := ⟨7, 5, 6⟩
  memory := true
  joining _ := none
  leaving _ := some ⟨8, 9, 10⟩
  requests := [(.subscribe (.ofBuffer (chars ['k'])), false), (.disconnect, false)]

theorem released_once_iff_second :
    ∃ s t, processClient (Thread.initial 1) (alone 5) = .ok s ∧ processClient s second = .ok t ∧
      Balanced t := by
  have halone : Served (alone 5) :=
    ⟨by decide, rfl, 0, rfl, fun j hj => absurd hj (Fin.not_lt_zero j)⟩
  have hsecond : Served second :=
    ⟨by decide, rfl, 0, rfl, fun j hj => absurd hj (Fin.not_lt_zero j)⟩
  obtain ⟨s, hs⟩ : ∃ s, processClient (Thread.initial 1) (alone 5) = .ok s := ⟨_, rfl⟩
  obtain ⟨t, ht, hbalanced⟩ := (released_once_iff (.single ⟨halone, hs⟩) second).mpr hsecond
  exact ⟨s, t, hs, ht, hbalanced⟩

end IstKvs.Sessions.Handles
