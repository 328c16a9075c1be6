import IstKvs.Server.Refinement
import IstKvs.Systems.Registry

/-! The slots for connected clients as a registry: a client thread enters its client in
`add_client` and `remove_client` looks for it by its three descriptors. The list never has
more clients than there are threads in a session, as long as a thread that leaves because
of `disconnectControl` leaves no client with its descriptors on the list. -/

namespace IstKvs.Server

open IstKvs.Store IstKvs.Sessions IstKvs.Systems Function

variable {τ : Type*} {n : ℕ}

/-- What `remove_client` compares. -/
def fds (client : Client) : Fd × Fd × Fd := (client.fdReq, client.fdResp, client.fdNotif)

/-- Where a client thread is with its client: before, or after `add_client`. -/
def Stage.place : Stage → Tenure
  | .openPipe sid _ _ | .create sid _ | .addClient sid _ => .entering sid
  | st => match st.phase.session with
    | some sid => .within sid
    | none => .away

/-- The session of a thread that leaves if it finds `disconnectControl` set. -/
def Stage.flagged : Stage → Option Sid
  | .check sid _ | .failed sid => some sid
  | _ => none

def State.registry (s : State τ n) : Registry (Fin n) (Fin n) (Fd × Fd × Fd) where
  place i := (s.stage (.client i)).place
  slots := s.connectedClients
  tag sid := fds (s.client sid)
  next := s.nextSession

/-- What a step does to the list of clients. -/
def State.event (s : State τ n) : Label τ n → Registry.Event (Fin n) (Fin n)
  | .act (.client i) _ =>
    match s.stage (.client i) with
    | .idle => .take i
    | .openPipe sid _ _ => .retag i sid
    | .addClient sid _ =>
      match s.freeSlot with
      | some k => .enter i sid k
      | none => .full i sid
    | .remove sid =>
      match s.findClient sid with
      | some k => .remove i sid k
      | none => .miss i sid
    | .check sid _ | .failed sid => if s.disconnectControl then .desert i sid else .stay
    | _ => .stay
  | .act .host _ =>
    match s.stage .host with
    | .remove _ => if h : s.slot < n then .evict ⟨s.slot, h⟩ else .stay
    | _ => .stay
  | _ => .stay

/-- A thread that leaves because of `disconnectControl` has no client on the list any more. -/
def vacated (s : State τ n) : Label τ n → Prop
  | .act (.client i) _ => ∀ sid ∈ (s.stage (.client i)).flagged,
      s.disconnectControl = true → s.findClient sid = none
  | _ => True

instance (s : State τ n) (l : Label τ n) : Decidable (vacated s l) :=
  match l with
  | .act (.client i) _ => inferInstanceAs (Decidable (∀ sid ∈ (s.stage (.client i)).flagged,
      s.disconnectControl = true → s.findClient sid = none))
  | .act (.job _) _ | .act .host _ | .signal | .raise | .openFile _ | .closeFile _ => isTrue trivial

section Find
variable {s : State τ n} {sid : Sid} {k : Fin n}

theorem sameFds_iff (sid' : Sid) :
    s.sameFds sid' sid = true ↔ fds (s.client sid') = fds (s.client sid) := by
  simp [State.sameFds, fds, and_assoc]

theorem findClient_eq_none (h : s.findClient sid = none) : s.registry.Untagged sid := by
  intro k sid' hk htag
  have hall := Fin.find?_eq_none_iff.mp h k
  rw [show s.connectedClients k = some sid' from hk, Option.any_some] at hall
  exact Bool.false_ne_true (hall.symm.trans ((sameFds_iff sid').mpr htag))

theorem findClient_eq_some (h : s.findClient sid = some k) :
    ∃ sid', s.connectedClients k = some sid' ∧ fds (s.client sid') = fds (s.client sid) := by
  have hk := Fin.eq_true_of_find?_eq_some h
  obtain ⟨sid', hsid, hfds⟩ := (Option.any_eq_true ..).mp hk
  exact ⟨sid', hsid, (sameFds_iff sid').mp hfds⟩

theorem freeSlot_eq_some (h : s.freeSlot = some k) : s.connectedClients k = none := by
  simpa using Fin.eq_true_of_find?_eq_some h

theorem freeSlot_eq_none (h : s.freeSlot = none) (k : Fin n) : s.connectedClients k ≠ none := by
  simpa using Fin.find?_eq_none_iff.mp h k

end Find

/-! ### Events -/

section Events
variable {s : State τ n} {l : Label τ n} {i : Fin n} {sid : Sid}

/-- The step of a client thread behind an event. -/
theorem event_client {e : Registry.Event (Fin n) (Fin n)} (he : s.event l = e)
    (hstay : e ≠ .stay) (hevict : ∀ k, e ≠ .evict k) : ∃ j x, l = .act (.client j) x := by
  subst he
  cases l with
  | act a x =>
    cases a with
    | job j => exact absurd rfl hstay
    | client j => exact ⟨j, x, rfl⟩
    | host =>
      simp only [State.event] at hstay hevict
      split at hstay
      next hst =>
        rw [hst] at hevict
        split_ifs at hstay hevict
        · exact absurd rfl (hevict _)
        · exact absurd rfl hstay
      next => exact absurd rfl hstay
  | _ => exact absurd rfl hstay

theorem event_desert (he : s.event l = .desert i sid) :
    (∃ x, l = .act (.client i) x) ∧ (s.stage (.client i)).flagged = some sid ∧
      s.disconnectControl = true := by
  obtain ⟨j, x, rfl⟩ := event_client he nofun nofun
  cases hst : s.stage (.client j) <;> simp only [State.event, hst, reduceCtorEq] at he
  case check sid' opcode =>
    split_ifs at he with hcontrol
    cases he
    exact ⟨⟨x, rfl⟩, by rw [hst]; rfl, hcontrol⟩
  case failed sid' =>
    split_ifs at he with hcontrol
    cases he
    exact ⟨⟨x, rfl⟩, by rw [hst]; rfl, hcontrol⟩
  all_goals split at he <;> cases he

theorem event_remove {k : Fin n} (he : s.event l = .remove i sid k) :
    s.stage (.client i) = .remove sid := by
  obtain ⟨j, x, rfl⟩ := event_client he nofun nofun
  cases hst : s.stage (.client j) <;> simp only [State.event, hst, reduceCtorEq] at he
  case remove sid' =>
    cases hfind : s.findClient sid' <;> rw [hfind] at he <;> cases he
    exact hst
  all_goals split at he <;> cases he

theorem event_miss (he : s.event l = .miss i sid) : s.stage (.client i) = .remove sid := by
  obtain ⟨j, x, rfl⟩ := event_client he nofun nofun
  cases hst : s.stage (.client j) <;> simp only [State.event, hst, reduceCtorEq] at he
  case remove sid' =>
    cases hfind : s.findClient sid' <;> rw [hfind] at he <;> cases he
    exact hst
  all_goals split at he <;> cases he

theorem event_full (he : s.event l = .full i sid) :
    (∃ x, l = .act (.client i) x) ∧ (∃ f, s.stage (.client i) = .addClient sid f) ∧
      s.freeSlot = none := by
  obtain ⟨j, x, rfl⟩ := event_client he nofun nofun
  cases hst : s.stage (.client j) <;> simp only [State.event, hst, reduceCtorEq] at he
  case addClient sid' f =>
    cases hfree : s.freeSlot <;> rw [hfree] at he <;> cases he
    exact ⟨⟨x, rfl⟩, ⟨f, hst⟩, rfl⟩
  all_goals split at he <;> cases he

end Events

/-! ### Steps -/

section Steps
variable [DecidableEq τ] {s t u : State τ n} {a : Actor τ n} {st : Stage}

theorem registry_goto (s : State τ n) (i : Fin n) (st : Stage) :
    (s.goto (.client i) st).registry = s.registry.move i st.place := by
  simp only [State.registry, State.goto, Registry.move, Registry.mk.injEq, and_true]
  funext j
  simp only [update_apply, Actor.client.injEq]
  split_ifs <;> rfl

/-- A step that changes nothing of the clients and their threads. -/
theorem registry_stay (hu : u.registry = s.registry) (hp : st.place = (s.stage a).place) :
    (u.goto a st).registry = s.registry := by
  cases a with
  | client i =>
    rw [registry_goto, hu, hp, Registry.move]
    exact congrArg (fun f => { s.registry with place := f }) (update_eq_self i s.registry.place)
  | _ => exact hu

omit [DecidableEq τ] in
theorem registry_setSubscriptions (s : State τ n) (sid : Sid) (keys : List CStr) :
    (s.setSubscriptions sid keys).registry = s.registry := by
  simp only [State.registry, State.setSubscriptions, Registry.mk.injEq, and_true, true_and]
  funext sid'
  by_cases hs : sid' = sid
  · subst hs
    simp [fds]
  · simp [hs]

omit [DecidableEq τ] in
theorem registry_openFd (s : State τ n) (sid : Sid) (kind : Kind) (fd : Fd) :
    (s.openFd sid kind fd).registry =
      { s.registry with
        tag := update s.registry.tag sid (fds (setFd (s.client sid) kind fd)) } := by
  simp only [State.registry, State.openFd, Registry.mk.injEq, and_true, true_and]
  funext sid'
  by_cases hs : sid' = sid
  · subst hs
    simp
  · simp [hs]

omit [DecidableEq τ] in
theorem registry_lock {b : Bucket} (h : s.lock a b = some u) : u.registry = s.registry := by
  rw [(lock_eq h).2]
  rfl

theorem registry_teardownStep (hs : teardownStep s a = some t) : t.registry = s.registry := by
  cases hst : s.stage a <;> simp only [teardownStep, hst, reduceCtorEq] at hs
  case walk sid rest =>
    cases rest with
    | nil => cases hs; exact registry_stay rfl (by rw [hst]; rfl)
    | cons k rest =>
      obtain ⟨key, -, hs⟩ := Option.bind_eq_some_iff.mp hs
      obtain ⟨u, hu, rfl⟩ := Option.map_eq_some_iff.mp hs
      exact registry_stay (registry_lock hu) (by rw [hst]; rfl)
  case clear sid => cases hs; exact registry_stay (registry_setSubscriptions ..) (by rw [hst]; rfl)
  case close sid kind =>
    cases kind <;> cases hs
    case notif =>
      refine registry_stay (s := s) rfl ?_
      rw [hst]
      split_ifs <;> rfl
    all_goals exact registry_stay rfl (by rw [hst]; rfl)
  all_goals cases hs; exact registry_stay rfl (by rw [hst]; rfl)

theorem registry_openStep {i : Fin n} {sid : Sid} {kind : Kind} {x : Input} {opened : Stage}
    {refused : Option Stage} (hp : (s.stage (.client i)).place = .entering sid)
    (hopened : opened.place = .entering sid)
    (hrefused : ∀ st, refused = some st → st.place = .entering sid)
    (hs : openStep s (.client i) sid kind x (some opened) refused = some t) :
    Registry.Step s.registry (.retag i sid) t.registry := by
  have hplace : s.registry.place i = .entering sid := hp
  unfold openStep at hs
  split_ifs at hs
  · cases hs
    rw [registry_stay (s := s.openFd sid kind x.fd) rfl (hopened.trans hp.symm), registry_openFd]
    exact .retag _ hplace
  · obtain ⟨st, hst, rfl⟩ := Option.map_eq_some_iff.mp hs
    rw [registry_stay rfl ((hrefused st hst).trans hp.symm)]
    have hretag := Registry.Step.retag (s.registry.tag sid) hplace
    rwa [update_eq_self] at hretag

theorem registry_clientStep {i : Fin n} {x : Input} (hs : clientStep s i x = some t) :
    Registry.Step s.registry (s.event (.act (.client i) x)) t.registry := by
  have hstay : t.registry = s.registry → Registry.Step s.registry .stay t.registry := by
    intro ht
    rw [ht]
    exact .stay
  have hplace : s.registry.place i = (s.stage (.client i)).place := rfl
  cases hst : s.stage (.client i) <;> simp only [clientStep, hst] at hs <;>
    simp only [State.event, hst]
  case idle =>
    split_ifs at hs
    cases hs
    rw [registry_goto]
    exact .take (by rw [hplace, hst]; rfl)
  case openPipe sid kind f =>
    cases kind <;> refine registry_openStep (by rw [hst]; rfl) rfl ?_ hs <;> rintro st ⟨⟩ <;> rfl
  case addClient sid f =>
    split_ifs at hs
    cases hk : s.freeSlot with
    | some k =>
      simp only [hk] at hs
      cases hs
      rw [registry_goto]
      exact .enter (by rw [hplace, hst]; rfl) (freeSlot_eq_some hk)
    | none =>
      simp only [hk] at hs
      cases hs
      rw [registry_goto]
      exact .full (by rw [hplace, hst]; rfl) (freeSlot_eq_none hk)
  case check sid opcode =>
    split at hs
    next hd =>
      cases hs
      rw [registry_goto, if_pos hd]
      exact .desert (by rw [hplace, hst]; rfl)
    next hd =>
      rw [if_neg hd]
      apply hstay
      (repeat' split at hs) <;> cases hs <;> exact registry_stay rfl (by rw [hst]; rfl)
  case failed sid =>
    cases hs
    split_ifs with hd
    · rw [registry_goto]
      exact .desert (by rw [hplace, hst]; rfl)
    · rw [if_neg hd] at hstay
      exact hstay (registry_stay rfl (by rw [hst]; rfl))
  case remove sid =>
    split_ifs at hs
    cases hk : s.findClient sid with
    | some k =>
      obtain ⟨sid', hsid, hfds⟩ := findClient_eq_some hk
      simp only [hk] at hs
      cases hs
      rw [registry_goto]
      exact .remove (by rw [hplace, hst]; rfl) hsid hfds
    | none =>
      simp only [hk] at hs
      cases hs
      rw [registry_goto]
      exact .miss (by rw [hplace, hst]; rfl) (findClient_eq_none hk)
  case readKey sid subscribe =>
    apply hstay
    split at hs
    · cases hs; exact registry_stay rfl (by rw [hst]; rfl)
    · split at hs
      · cases hs; exact registry_stay rfl (by rw [hst]; rfl)
      · obtain ⟨key, -, rfl⟩ := Option.map_eq_some_iff.mp hs
        cases subscribe <;> exact registry_stay rfl (by rw [hst]; rfl)
  case answer sid what =>
    apply hstay
    cases what <;> cases hs <;> refine registry_stay (s := s) rfl ?_ <;> rw [hst]
    case subscribed => cases x.ok <;> rfl
    all_goals rfl
  case subscribe sid key =>
    obtain ⟨u, hu, rfl⟩ := Option.map_eq_some_iff.mp hs
    exact hstay (registry_stay (registry_lock hu) (by rw [hst]; rfl))
  case unsubscribe sid key =>
    obtain ⟨u, hu, rfl⟩ := Option.map_eq_some_iff.mp hs
    exact hstay (registry_stay (registry_lock hu) (by rw [hst]; rfl))
  case record sid key =>
    apply hstay
    split_ifs at hs <;> cases hs
    · exact registry_stay (registry_setSubscriptions ..) (by rw [hst]; rfl)
    · exact registry_stay rfl (by rw [hst]; rfl)
  case forget sid key =>
    cases hs
    exact hstay (registry_stay (registry_setSubscriptions ..) (by rw [hst]; rfl))
  case subscribeUnlock sid key added =>
    cases hs
    cases added <;> exact hstay (registry_stay rfl (by rw [hst]; rfl))
  case replyConnect sid f =>
    cases hs
    cases f <;> exact hstay (registry_stay rfl (by rw [hst]; rfl))
  all_goals first
    | exact hstay (registry_teardownStep hs)
    | cases hs; exact hstay (registry_stay rfl (by rw [hst]; rfl))
    | split_ifs at hs; cases hs; exact hstay (registry_stay rfl (by rw [hst]; rfl))

theorem registry_hostStep {x : Input} (hs : hostStep s x = some t) :
    Registry.Step s.registry (s.event (.act .host x)) t.registry := by
  cases hst : s.stage .host <;> simp only [hostStep, hst] at hs <;>
    simp only [State.event, hst]
  case remove sid =>
    split_ifs at hs with hk
    cases hs
    rw [dif_pos hk]
    exact .evict
  case cleanSlot =>
    split at hs
    · split at hs <;> cases hs <;> exact .stay
    · cases hs
      exact .stay
  all_goals first
    | rw [registry_teardownStep hs]; exact .stay
    | cases hs; exact .stay
    | split_ifs at hs; cases hs; exact .stay

/-- Every step of the server does to the list of clients what its event says. -/
theorem registry_step {l : Label τ n} (hs : step s l = some t) :
    Registry.Step s.registry (s.event l) t.registry := by
  cases l with
  | act a x =>
    cases a with
    | job i =>
      obtain ⟨ht, locks, arrived, updates, st, -, rfl⟩ := jobStep_frame hs
      exact .stay
    | client i => exact registry_clientStep hs
    | host => exact registry_hostStep hs
  | _ =>
    obtain ⟨files, control, restart, handlers, rfl⟩ := step_env rfl hs
    exact .stay

end Steps

/-! ### Runs -/

/-- The slots that are taken. -/
def State.occupied (s : State τ n) : Finset (Fin n) :=
  Finset.univ.filter fun k => s.connectedClients k ≠ none

/-- The client threads between the start of `kvs_connect` and the end of the session. -/
def State.inSession (s : State τ n) : Finset (Fin n) :=
  Finset.univ.filter fun i => (s.stage (.client i)).phase.session ≠ none

theorem session_of_entered {st : Stage} (h : st.place.entered ≠ none) :
    st.phase.session ≠ none := by
  contrapose! h
  unfold Stage.place
  split
  case h_4 => rw [h]; rfl
  all_goals rfl

theorem registry_initial : (State.initial : State τ n).registry.Inv := by
  constructor <;> intros <;> contradiction

theorem covered_initial : (State.initial : State τ n).registry.Covered := by
  intro p
  apply Nat.le_of_eq
  trans 0
  · exact tally_eq_zero fun k => rfl
  · exact (tally_eq_zero fun i => rfl).symm

section Runs
variable [DecidableEq τ] {s t : State τ n}

omit [DecidableEq τ] in
theorem untagged_of_vacated {l : Label τ n} (hv : vacated s l) {i : Fin n} {sid : Sid}
    (he : s.event l = .desert i sid) : s.registry.Untagged sid := by
  obtain ⟨⟨x, rfl⟩, hflagged, hcontrol⟩ := event_desert he
  exact findClient_eq_none (hv sid hflagged hcontrol)

/-- What holds of the list in every run. -/
theorem registry_of_run {ls : List (Label τ n)} (hrun : Run (stepOf step) State.initial ls s) :
    s.registry.Inv :=
  hrun.invariant (I := fun s => s.registry.Inv) registry_initial fun _ _ _ hu hs =>
    hu.step (registry_step hs)

theorem covered_of_run {ls : List (Label τ n)}
    (hrun : Run (guarded vacated (stepOf step)) State.initial ls s) : s.registry.Covered := by
  have hboth : s.registry.Inv ∧ s.registry.Covered :=
    hrun.invariant (I := fun s => s.registry.Inv ∧ s.registry.Covered)
      ⟨registry_initial, covered_initial⟩ fun _ _ _ hu hs =>
        ⟨hu.1.step (registry_step hs.2),
          hu.2.step hu.1 (fun _ _ he => untagged_of_vacated hs.1 he) (registry_step hs.2)⟩
  exact hboth.2

/-- If no thread leaves a client behind because of `disconnectControl`, the list has at most
as many clients as there are threads in a session, and `add_client` finds a free slot. -/
theorem occupied_le_inSession {ls : List (Label τ n)}
    (hrun : Run (guarded vacated (stepOf step)) State.initial ls s) :
    s.occupied.card ≤ s.inSession.card ∧
      ∀ i sid f, s.stage (.client i) = .addClient sid f → ∃ k, s.freeSlot = some k := by
  have hcovered := covered_of_run hrun
  constructor
  · apply hcovered.occupied_le.trans
    apply Finset.card_le_card
    intro i hi
    simp only [Finset.mem_filter, Finset.mem_univ, true_and, State.inSession] at hi ⊢
    exact session_of_entered hi
  · intro i sid f hst
    have hplace : s.registry.place i = .entering sid := congrArg Stage.place hst
    obtain ⟨k, hk⟩ := hcovered.exists_free le_rfl hplace
    cases hfree : s.freeSlot with
    | some k => exact ⟨k, rfl⟩
    | none => exact absurd hk (freeSlot_eq_none hfree k)

end Runs

/-- Both client threads are in the read of an opcode, a third client is queued, and SIGUSR1
arrives. -/
def fullHouse : List (Label Unit 2) :=
  connects former 1 2 3 ++ connects latter 4 5 6 ++ steps .host 4 ++ [.signal, .raise]

/-- The first client sends an opcode, and its thread leaves and takes the queued client. -/
def takesNext : List (Label Unit 2) :=
  [.act (.client former) { opcode := some opCodeSubscribe }, .act (.client former) {},
    .act (.client former) {}, .act (.client former) { fd := 7 }, .act (.client former) { fd := 8 },
    .act (.client former) { fd := 9 }, .act (.client former) {}]

/-- The host has cleaned both slots before the thread leaves. -/
theorem occupied_le_inSession_cleaned : ∃ ls, ∃ s : State Unit 2,
    Run (guarded vacated (stepOf step)) State.initial ls s ∧
      s.stage (.client 0) = .addClient 2 false ∧ s.teardowns 0 = 1 ∧ ∃ k, s.freeSlot = some k := by
  have hrun : Run (guarded (fun s l => decide (vacated s l) = true) (stepOf step)) State.initial
      (fullHouse ++ steps .host 19 ++ takesNext) _ := run_of_executeGuarded rfl
  have hvacated : Run (guarded vacated (stepOf step)) State.initial _ _ := hrun.of_decided
  exact ⟨_, _, hvacated, rfl, rfl, (occupied_le_inSession hvacated).2 0 2 false rfl⟩

/-- The thread leaves before the host has come to its client: the list has two clients with
one thread in a session, and the next client is refused. -/
theorem list_full : ∃ s t : State Unit 2,
    execute step State.initial (fullHouse ++ takesNext.take 2) = some s ∧
      s.inSession.card < s.occupied.card ∧
      execute step s (takesNext.drop 2) = some t ∧
      t.stage (.client 0) = .addClient 2 false ∧ t.freeSlot = none :=
  ⟨_, _, rfl, by decide, rfl, rfl, rfl⟩

end IstKvs.Server
