import IstKvs.Server.Removal

/-! The end of every session: it is torn down once, by `kvs_disconnect` of its thread or by
`clean_all_clients`, and no thread goes on with a client that was freed. This rests on where
the threads are when the host begins with a client, frees it, and ends a restart, and on
`disconnectControl` when a thread comes from the read of an opcode. -/

namespace IstKvs.Server

open IstKvs.Store IstKvs.Sessions IstKvs.Systems Function

variable {τ : Type*} {n : ℕ}

/-! ### The condition on a step -/

/-- `clean_all_clients` begins only with clients whose thread is in no request or has left, and a
thread that comes from the read of an opcode to a client of a restart finds `disconnectControl`
set. -/
def apart (s : State τ n) : Label τ n → Prop
  | .act .host _ => ∀ sid, s.cleaning = some sid →
      ∀ i, (s.stage (.client i)).phase.session = some sid →
        (s.stage (.client i)).phase = .parked sid
  | .act (.client i) _ => ∀ sid opcode, s.stage (.client i) = .check sid opcode →
      s.cleaned sid = true → s.disconnectControl = true
  | _ => True

instance (s : State τ n) (l : Label τ n) : Decidable (apart s l) :=
  match l with
  | .act .host _ => inferInstanceAs (Decidable (∀ sid ∈ s.cleaning,
      ∀ i, (s.stage (.client i)).phase.session = some sid →
        (s.stage (.client i)).phase = .parked sid))
  | .act (.client i) _ => decidable_of_iff
      (∀ sid ∈ (s.stage (.client i)).checked, s.cleaned sid = true → s.disconnectControl = true)
      ⟨fun h sid opcode hst => h sid (by rw [hst]; rfl), fun h sid hsid =>
        (Stage.checked_eq hsid).elim fun opcode hst => h sid opcode hst⟩
  | .act (.job _) _ | .signal | .raise | .openFile _ | .closeFile _ => isTrue trivial

/-- A restart is due, or soon will be. -/
def State.Pending (s : State τ n) : Prop := s.restartClients = true ∨ 0 < s.handlers

instance (s : State τ n) : Decidable s.Pending :=
  inferInstanceAs (Decidable (s.restartClients = true ∨ 0 < s.handlers))

/-- A client with the descriptors of the session has the session's own client in its slot or
in one below. -/
def State.First (s : State τ n) (sid : Sid) : Prop :=
  ∀ k, ∀ sid' ∈ s.connectedClients k, fds (s.client sid') = fds (s.client sid) →
    ∃ k' ≤ k, s.connectedClients k' = some sid

instance (s : State τ n) (sid : Sid) : Decidable (s.First sid) :=
  inferInstanceAs (Decidable (∀ k, ∀ sid' ∈ s.connectedClients k,
    fds (s.client sid') = fds (s.client sid) → ∃ k' ≤ k, s.connectedClients k' = some sid))

/-- The session of a thread that is in the read of an opcode, or just comes from it. -/
def Stage.waiting : Stage → Option Sid
  | .blocked sid | .check sid _ => some sid
  | _ => none

/-- The host frees no client whose thread is about to read, and ends a restart only when all
listed clients have their threads or another restart is due; a thread leaves because of
`disconnectControl` only if the host has begun with its client or a restart is due; and
`remove_client` finds no other client. -/
def timely (s : State τ n) : Label τ n → Prop
  | .act .host _ =>
    (∀ sid ∈ (s.stage .host).removing, ∀ i, s.stage (.client i) ≠ .readOp sid) ∧
      (s.stage .host = .resetRestart → 0 < s.handlers ∨ ∀ k, ∀ sid ∈ s.connectedClients k,
        ∃ i, (s.stage (.client i)).phase.session = some sid)
  | .act (.client i) _ =>
    (∀ sid ∈ (s.stage (.client i)).flagged, s.disconnectControl = true →
      s.cleaned sid = true ∨ s.Pending) ∧
      ∀ sid ∈ (s.stage (.client i)).removing, s.First sid
  | _ => True

instance (s : State τ n) (l : Label τ n) : Decidable (timely s l) :=
  match l with
  | .act .host _ => inferInstanceAs (Decidable
      ((∀ sid ∈ (s.stage .host).removing, ∀ i, s.stage (.client i) ≠ .readOp sid) ∧
        (s.stage .host = .resetRestart → 0 < s.handlers ∨ ∀ k, ∀ sid ∈ s.connectedClients k,
          ∃ i, (s.stage (.client i)).phase.session = some sid)))
  | .act (.client i) _ => inferInstanceAs (Decidable
      ((∀ sid ∈ (s.stage (.client i)).flagged, s.disconnectControl = true →
        s.cleaned sid = true ∨ s.Pending) ∧
        ∀ sid ∈ (s.stage (.client i)).removing, s.First sid))
  | .act (.job _) _ | .signal | .raise | .openFile _ | .closeFile _ => isTrue trivial

def careful (s : State τ n) (l : Label τ n) : Prop := apart s l ∧ timely s l

instance (s : State τ n) (l : Label τ n) : Decidable (careful s l) :=
  inferInstanceAs (Decidable (apart s l ∧ timely s l))

/-! ### The host and its slot -/

/-- While `clean_all_clients` works on a client, it holds the mutex of the list, and the
client is in the slot it is at. -/
structure Scan (s : State τ n) : Prop where
  locked : s.stage .host = .cleanSlot ∨ (s.stage .host).phase.session ≠ none →
    s.connectedClientsMutex = true
  slot : ∀ sid, (s.stage .host).phase.session = some sid →
    ∃ h : s.slot < n, s.connectedClients ⟨s.slot, h⟩ = some sid

theorem scan_initial : Scan (State.initial : State τ n) where
  locked h := by
    rcases h with h | h <;> simp [State.initial, Actor.start, Stage.phase, Phase.session] at h
  slot sid h := by cases h

/-- A step of another thread that leaves the mutex and the slot alone. -/
theorem Scan.other {s t : State τ n} (h : Scan s) (hstage : t.stage .host = s.stage .host)
    (hmutex : t.connectedClientsMutex = s.connectedClientsMutex) (hslot : t.slot = s.slot)
    (hlist : t.connectedClients = s.connectedClients ∨ s.connectedClientsMutex = false) :
    Scan t where
  locked hl := by
    rw [hmutex]
    exact h.locked (by rwa [hstage] at hl)
  slot sid hsid := by
    rw [hstage] at hsid
    have hheld := h.locked (.inr (by rw [hsid]; nofun))
    have hsame := hlist.resolve_right (by rw [hheld]; nofun)
    rw [hslot, hsame]
    exact h.slot sid hsid

section Steps
variable [DecidableEq τ] {s t : State τ n} {a : Actor τ n}

theorem session_teardownStep (hs : teardownStep s a = some t) :
    ∃ sid, (s.stage a).phase.session = some sid ∧ (t.stage a).phase.session = some sid := by
  cases hst : s.stage a <;> simp only [teardownStep, hst, reduceCtorEq] at hs
  case walk sid rest =>
    cases rest with
    | nil => cases hs; exact ⟨sid, rfl, by simp [stage_goto, Stage.phase, Phase.session]⟩
    | cons k rest =>
      obtain ⟨key, -, hs⟩ := Option.bind_eq_some_iff.mp hs
      obtain ⟨u, -, rfl⟩ := Option.map_eq_some_iff.mp hs
      exact ⟨sid, rfl, by simp [stage_goto, Stage.phase, Phase.session]⟩
  case close sid kind =>
    cases kind <;> cases hs <;> refine ⟨sid, rfl, ?_⟩ <;> rw [stage_goto, if_pos rfl]
    · rfl
    · rfl
    · split_ifs <;> rfl
  all_goals cases hs; exact ⟨_, rfl, by simp [stage_goto, Stage.phase, Phase.session]⟩

theorem Scan.hostStep (h : Scan s) {x : Input} (hs : hostStep s x = some t) : Scan t := by
  have hloop : ∀ {u : State τ n} {st : Stage}, st ≠ .cleanSlot → st.phase.session = none →
      Scan (u.goto .host st) := by
    intro u st hclean hsession
    constructor
    · intro hl
      simp only [stage_goto, if_pos] at hl
      exact absurd hl (by simp [hclean, hsession])
    · intro sid hsid
      simp only [stage_goto, if_pos, hsession] at hsid
      cases hsid
  have hscan : ∀ {u : State τ n}, u.connectedClientsMutex = true →
      Scan (u.goto .host .cleanSlot) := by
    intro u hu
    refine ⟨fun _ => hu, fun sid hsid => ?_⟩
    simp only [stage_goto, if_pos] at hsid
    cases hsid
  cases hst : s.stage .host <;> simp only [Server.hostStep, hst] at hs
  case hostCheck =>
    cases hs
    cases s.restartClients <;> exact hloop (by rintro ⟨⟩) rfl
  case hostRead =>
    cases hs
    cases x.ok <;> exact hloop (by rintro ⟨⟩) rfl
  case cleanLock =>
    split_ifs at hs
    cases hs
    exact hscan rfl
  case cleanSlot =>
    have hmutex := h.locked (.inl hst)
    split at hs
    next hk =>
      split at hs
      · cases hs
        refine ⟨fun _ => hmutex, fun sid hsid => ?_⟩
        rw [show s.stage .host = .cleanSlot from hst] at hsid
        cases hsid
      next sid hsid =>
        cases hs
        refine ⟨fun _ => hmutex, fun sid' hsid' => ⟨hk, ?_⟩⟩
        simp only [State.teardown, stage_goto, if_pos] at hsid'
        cases hsid'
        exact hsid
    next => cases hs; exact hloop (by rintro ⟨⟩) rfl
  case remove sid =>
    split_ifs at hs
    cases hs
    exact hscan (h.locked (.inr (by rw [hst]; rintro ⟨⟩)))
  case resetControl => cases hs; exact hloop (by rintro ⟨⟩) rfl
  case enqueue => cases hs; exact hloop (by rintro ⟨⟩) rfl
  case cleanUnlock => cases hs; exact hloop (by rintro ⟨⟩) rfl
  case resetRestart => cases hs; exact hloop (by rintro ⟨⟩) rfl
  all_goals
    obtain ⟨-, hflags⟩ := teardownStep_silent hs
    obtain ⟨sid, hsid, hsid'⟩ := session_teardownStep hs
    refine ⟨fun _ => ?_, fun sid'' hsid'' => ?_⟩
    · rw [hflags.mutex]
      exact h.locked (.inr (by rw [hsid]; rintro ⟨⟩))
    · rw [hflags.slot, (slots_teardownStep hs).1]
      exact h.slot sid'' (hsid.trans (hsid'.symm.trans hsid''))

theorem Scan.step (h : Scan s) {l : Label τ n} (hs : step s l = some t) : Scan t := by
  cases l with
  | act a x =>
    cases a with
    | job i =>
      obtain ⟨ht, locks, arrived, updates, st, -, rfl⟩ := jobStep_frame hs
      exact h.other rfl rfl rfl (.inl rfl)
    | client i =>
      obtain ⟨hsilent, hflags⟩ := clientStep_silent hs
      refine h.other (hsilent.others .host nofun) hflags.mutex hflags.slot ?_
      rcases slots_clientStep hs with ⟨hslots, -⟩ | ⟨hmutex, -⟩ | ⟨hmutex, -⟩
      · exact .inl hslots
      · exact .inr hmutex
      · exact .inr hmutex
    | host => exact h.hostStep hs
  | _ =>
    obtain ⟨files, control, restart, handlers, rfl⟩ := step_env rfl hs
    exact h.other rfl rfl rfl (.inl rfl)

end Steps

/-! ### Sessions and their ends -/

/-- What holds of sessions, their threads and the list after steps that were careful. -/
structure Settled (s : State τ n) : Prop where
  living : Living s
  inv : s.registry.Inv
  scan : Scan s
  listed : ∀ k sid, s.connectedClients k = some sid → s.freed sid = false
  begun : ∀ k sid, s.connectedClients k = some sid → s.teardowns sid ≠ 0 →
    ∃ a todo, (s.stage a).phase = .tearing sid todo
  freedOnce : ∀ sid, s.freed sid = true → s.teardowns sid = 1
  quiet : ∀ sid a, s.freed sid = true → (s.stage a).phase.session = some sid →
    s.cleaned sid = true ∧ (s.stage a).waiting = some sid
  known : ∀ i sid, (s.stage (.client i)).place = .within sid → s.cleaned sid = true ∨
    (∃ k, s.connectedClients k = some sid) ∨ (s.stage (.client i)).phase.doomed = true
  ended : ∀ sid < s.nextSession, (∀ a, (s.stage a).phase.session ≠ some sid) →
    s.teardowns sid = 1 ∨ s.Pending ∧ ∃ k, s.connectedClients k = some sid

theorem settled_initial : Settled (State.initial : State τ n) where
  living := living_initial
  inv := registry_initial
  scan := scan_initial
  listed k sid h := by cases h
  begun k sid h := by cases h
  freedOnce sid h := by cases h
  quiet sid a h := by cases h
  known i sid h := by cases h
  ended sid h := absurd h (Nat.not_lt_zero sid)

theorem place_item (st : Stage) : st.place.item = st.phase.session := by
  unfold Stage.place
  split
  case h_4 =>
    cases st.phase.session <;> rfl
  case h_1 sid kind f => cases kind <;> rfl
  all_goals rfl

theorem session_of_within {st : Stage} {sid : Sid} (h : st.place = .within sid) :
    st.phase.session = some sid := by
  rw [← place_item, h]
  rfl

theorem waiting_cases {st : Stage} {sid : Sid} (h : st.waiting = some sid) :
    st = .blocked sid ∨ ∃ opcode, st = .check sid opcode := by
  cases st <;> cases h
  · exact .inl rfl
  · exact .inr ⟨_, rfl⟩

theorem waiting_parked {st : Stage} {sid : Sid} (h : st.waiting = some sid) :
    st.phase = .parked sid := by
  cases st <;> cases h <;> rfl

theorem parked_waiting {st : Stage} {sid : Sid} (h : st.phase = .parked sid)
    (hread : st ≠ .readOp sid) : st.waiting = some sid := by
  cases st
  case readOp sid' => cases h; exact absurd rfl hread
  case close sid' kind => cases kind <;> cases h
  case openPipe sid' kind f => cases kind <;> cases h
  all_goals cases h <;> rfl

theorem stage_of_tearing_nil {st : Stage} {sid : Sid} (h : st.phase = .tearing sid []) :
    st = .remove sid := by
  cases st
  case close sid' kind => cases kind <;> cases h
  case openPipe sid' kind f => cases kind <;> cases h
  all_goals cases h <;> rfl

/-- A teardown that is going on has been counted. -/
theorem Living.tearing_once {s : State τ n} (h : Living s) {a : Actor τ n} {sid : Sid}
    {todo : List Kind} (ha : (s.stage a).phase = .tearing sid todo) : s.teardowns sid = 1 := by
  have hsession : (s.life.phase a).session = some sid := congrArg Phase.session ha
  cases hc : s.cleaned sid with
  | true => exact h.life.cleanedOnce sid hc
  | false =>
    have hbegun := h.life.begun a sid hsession hc
    rw [show s.life.phase a = .tearing sid todo from ha] at hbegun
    exact hbegun.trans (if_pos rfl)

section Settled
variable [DecidableEq τ] {s t : State τ n} {l : Label τ n}

/-- A restart stays due until the host ends it. -/
theorem pending_step (hp : s.Pending) (hs : step s l = some t) :
    t.Pending ∨ s.handlers = 0 ∧ s.stage .host = .resetRestart ∧ ∃ x, l = .act .host x := by
  cases l with
  | act a x =>
    cases a with
    | job i =>
      obtain ⟨ht, locks, arrived, updates, st, -, rfl⟩ := jobStep_frame hs
      exact .inl hp
    | client i =>
      have hflags := (clientStep_silent hs).2
      rw [State.Pending, hflags.restart, hflags.handlers]
      exact .inl hp
    | host =>
      cases hst : s.stage .host <;> simp only [step, hostStep, hst] at hs
      case resetRestart =>
        cases hs
        rcases Nat.eq_zero_or_pos s.handlers with h0 | hpos
        · exact .inr ⟨h0, rfl, x, rfl⟩
        · exact .inl (.inr hpos)
      case cleanSlot =>
        split at hs
        · split at hs <;> cases hs <;> exact .inl hp
        · cases hs
          exact .inl hp
      all_goals first
        | cases hs; exact .inl hp
        | split_ifs at hs; cases hs; exact .inl hp
        | have hflags := (teardownStep_silent hs).2
          rw [State.Pending, hflags.restart, hflags.handlers]
          exact .inl hp
  | signal =>
    cases hs
    exact .inl (.inr (Nat.succ_pos _))
  | raise =>
    simp only [step] at hs
    split_ifs at hs
    cases hs
    exact .inl (.inl rfl)
  | openFile fd =>
    simp only [step] at hs
    split_ifs at hs
    cases hs
    exact .inl hp
  | closeFile fd =>
    simp only [step] at hs
    split_ifs at hs
    cases hs
    exact .inl hp

/-- A thread that removes its client is away afterwards. -/
theorem session_removed {a : Actor τ n} {sid sid' : Sid} (hl : l.actor = some a)
    (hst : s.stage a = .remove sid) (hs : step s l = some t) :
    (t.stage a).phase.session ≠ some sid' := by
  cases l with
  | act b x =>
    cases hl
    cases a with
    | job i => simp only [step, jobStep, hst, reduceCtorEq] at hs
    | client i =>
      simp only [step, clientStep, hst] at hs
      split_ifs at hs
      split at hs <;> cases hs <;> simp [stage_goto, Stage.phase, Phase.session]
    | host =>
      simp only [step, hostStep, hst] at hs
      split_ifs at hs
      cases hs
      simp [stage_goto, Stage.phase, Phase.session]
  | _ => cases hl

namespace Settled

omit [DecidableEq τ] in
/-- The thread of a client that is added has not begun to tear it down. -/
theorem added (h : Settled s) {i : Fin n} {sid : Sid} {f : Bool} (hst : s.stage (.client i) = .addClient sid f) :
    s.teardowns sid = 0 := by
  have hphase : s.life.phase (.client i) = .opening sid [] f := congrArg Stage.phase hst
  have hsession : (s.life.phase (.client i)).session = some sid := congrArg Phase.session hphase
  cases hc : s.cleaned sid with
  | true =>
    rcases h.living.life.aside _ sid hsession hc with ha | hparked
    · cases ha
    · rw [hphase] at hparked
      cases hparked
  | false =>
    have hbegun := h.living.life.begun _ sid hsession hc
    rw [hphase] at hbegun
    exact hbegun

omit [DecidableEq τ] in
/-- A client on the list has not been torn down when `clean_all_clients` begins with it. -/
theorem orderly (h : Settled s) (ha : apart s l) : orderly s l := by
  cases l with
  | act a x =>
    cases a with
    | job i => trivial
    | client i => exact ha
    | host =>
      intro sid hclean
      refine ⟨?_, ha sid hclean⟩
      by_contra hbegun
      have hslot : s.stage .host = .cleanSlot ∧ ∃ k, s.connectedClients k = some sid := by
        unfold State.cleaning at hclean
        split_ifs at hclean with hst hk
        exact ⟨hst, _, hclean⟩
      obtain ⟨hst, k, hk⟩ := hslot
      obtain ⟨b, todo, hb⟩ := h.begun k sid hk hbegun
      cases b with
      | job i =>
        rw [phase_of_isJob (h.living.jobs i)] at hb
        cases hb
      | client i =>
        have hparked := ha sid hclean i (by rw [hb]; rfl)
        rw [hb] at hparked
        cases hparked
      | host =>
        rw [hst] at hb
        cases hb
  | _ => trivial

variable (h : Settled s) (hl : careful s l) (hs : step s l = some t)
include h hl hs

theorem life : Life.Step .host s.life t.life :=
  life_step h.living.jobs h.living.listed (h.orderly hl.1) hs

/-- The list changes as threads add their own clients, and as the own client of a thread, or
the one that the host works on, is removed. -/
theorem slots :
    (t.connectedClients = s.connectedClients ∧ t.freed = s.freed) ∨
      (∃ i sid f k, s.stage (.client i) = .addClient sid f ∧ s.connectedClients k = none ∧
        t.connectedClients = update s.connectedClients k (some sid) ∧ t.freed = s.freed) ∨
      ∃ a sid k, l.actor = some a ∧ s.stage a = .remove sid ∧ s.connectedClients k = some sid ∧
        t.connectedClients = update s.connectedClients k none ∧
        t.freed = update s.freed sid true := by
  cases l with
  | act a x =>
    cases a with
    | job i =>
      obtain ⟨ht, locks, arrived, updates, st, -, rfl⟩ := jobStep_frame hs
      exact .inl ⟨rfl, rfl⟩
    | client i =>
      rcases slots_clientStep hs with hsame | ⟨-, sid, f, k, hst, hk, hslots, hfreed⟩ |
        ⟨-, sid, k, hst, hk, hslots, hfreed⟩
      · exact .inl hsame
      · exact .inr (.inl ⟨i, sid, f, k, hst, freeSlot_eq_some hk, hslots, hfreed⟩)
      · obtain ⟨sid', hsid, hfds⟩ := findClient_eq_some hk
        obtain ⟨k', hle, hk'⟩ := hl.2.2 sid (by rw [hst]; rfl) k sid' hsid hfds
        obtain rfl : k = k' := le_antisymm (findClient_lowest hk hk' rfl) hle
        exact .inr (.inr ⟨.client i, sid, k, rfl, hst, hk', hslots, hfreed sid hk'⟩)
    | host =>
      rcases slots_hostStep hs with hsame | ⟨sid, hlt, hst, hslots, hfreed⟩
      · exact .inl hsame
      · obtain ⟨_, hk⟩ := h.scan.slot sid (by rw [hst]; rfl)
        exact .inr (.inr ⟨.host, sid, ⟨s.slot, hlt⟩, rfl, hst, hk, hslots, hfreed⟩)
  | _ =>
    obtain ⟨files, control, restart, handlers, rfl⟩ := step_env rfl hs
    exact .inl ⟨rfl, rfl⟩

theorem living_step : Living t := h.living.step (h.orderly hl.1) hs

/-- A slot loses its client only to the thread that has the session. -/
theorem kept {k : Fin n} {sid : Sid} (hk : s.connectedClients k = some sid) :
    t.connectedClients k = some sid ∨ ∃ a, l.actor = some a ∧ s.stage a = .remove sid := by
  rcases h.slots hl hs with ⟨hslots, -⟩ | ⟨i, sid', f, k', -, hk', hslots, -⟩ |
    ⟨a, sid', k', ha, hst, hk', hslots, -⟩
  · rw [hslots]
    exact .inl hk
  · left
    rw [hslots, update_of_ne ?_]
    · exact hk
    · rintro rfl
      rw [hk'] at hk
      cases hk
  · rcases eq_or_ne k k' with rfl | hne
    · rw [hk'] at hk
      cases hk
      exact .inr ⟨a, ha, hst⟩
    · rw [hslots, update_of_ne hne]
      exact .inl hk

theorem listed_step (k : Fin n) (sid : Sid) (hk : t.connectedClients k = some sid) :
    t.freed sid = false := by
  rcases h.slots hl hs with ⟨hslots, hfreed⟩ | ⟨i, sid', f, k', hst, -, hslots, hfreed⟩ |
    ⟨a, sid', k', -, -, hk', hslots, hfreed⟩
  · rw [hslots] at hk
    rw [hfreed]
    exact h.listed k sid hk
  · rw [hfreed]
    rw [hslots, update_apply] at hk
    split_ifs at hk
    · cases hk
      -- a client that is being added has not been freed, since its thread waits for nothing
      by_contra hno
      have hwaiting := (h.quiet sid (.client i) (Bool.of_not_eq_false hno) (by rw [hst]; rfl)).2
      rw [hst] at hwaiting
      cases hwaiting
    · exact h.listed k sid hk
  · rw [hslots, update_apply] at hk
    split_ifs at hk with hkk
    have hne : sid ≠ sid' := by
      rintro rfl
      exact hkk (h.inv.inj k k' sid hk hk')
    rw [hfreed, update_of_ne hne]
    exact h.listed k sid hk

/-- A thread that removes its client takes it off the list. -/
theorem removed {a : Actor τ n} {sid : Sid} (ha : l.actor = some a) (hst : s.stage a = .remove sid)
    (k : Fin n) : t.connectedClients k ≠ some sid := by
  intro hk
  have hnot : ∀ k', s.connectedClients k' = some sid →
      t.connectedClients = update s.connectedClients k' none → False := by
    intro k' hk' hslots
    rw [hslots, update_apply] at hk
    split_ifs at hk with hkk
    exact hkk (h.inv.inj k k' sid hk hk')
  cases l with
  | act b x =>
    cases ha
    cases a with
    | job i => simp only [Server.step, jobStep, hst, reduceCtorEq] at hs
    | client i =>
      simp only [Server.step, clientStep, hst] at hs
      split_ifs at hs
      split at hs
      next k' hfind =>
        obtain ⟨sid', hsid, hfds⟩ := findClient_eq_some hfind
        obtain ⟨k'', hle, hk''⟩ := hl.2.2 sid (by rw [hst]; rfl) k' sid' hsid hfds
        obtain rfl := le_antisymm (findClient_lowest hfind hk'' rfl) hle
        cases hs
        exact hnot _ hk'' rfl
      next hfind =>
        cases hs
        exact findClient_eq_none hfind k sid hk rfl
    | host =>
      obtain ⟨_, hslot⟩ := h.scan.slot sid (by rw [hst]; rfl)
      simp only [Server.step, hostStep, hst] at hs
      split_ifs at hs
      cases hs
      exact hnot _ hslot rfl
  | _ => cases ha

theorem begun_step (k : Fin n) (sid : Sid) (hk : t.connectedClients k = some sid)
    (ht : t.teardowns sid ≠ 0) : ∃ a todo, (t.stage a).phase = .tearing sid todo := by
  have hlife := h.life hl hs
  by_cases hcount : t.life.teardowns sid = s.life.teardowns sid
  · have hbefore : s.teardowns sid ≠ 0 := fun h0 => ht (hcount.trans h0)
    have hold : s.connectedClients k = some sid := by
      rcases h.slots hl hs with ⟨hslots, -⟩ | ⟨i, sid', f, k', hst, -, hslots, -⟩ |
        ⟨b, sid', k', -, -, -, hslots, -⟩
      · exact hslots ▸ hk
      · rw [hslots, update_apply] at hk
        split_ifs at hk
        · cases hk
          exact absurd (h.added hst) hbefore
        · exact hk
      · rw [hslots, update_apply] at hk
        split_ifs at hk
        exact hk
    obtain ⟨a, todo, ha⟩ := h.begun k sid hold hbefore
    rcases hlife.tearing ha with ⟨todo', htear⟩ | haway
    · exact ⟨a, todo', htear⟩
    · -- a thread whose teardown is over has just removed its client
      have hsession : (s.life.phase a).session = some sid := congrArg Phase.session ha
      have hlost : (t.life.phase a).session ≠ some sid := by
        rw [haway]
        nofun
      have hlast : s.stage a = .remove sid := by
        obtain hp | hp | hp := hlife.lost hsession hlost
        · exact stage_of_tearing_nil hp
        · cases ha.symm.trans hp
        · cases ha.symm.trans hp
      have hactor : l.actor = some a := by
        by_contra hne
        have hsame := stage_of_actor hs hne
        exact hlost (by rw [show t.life.phase a = s.life.phase a from congrArg Stage.phase hsame,
          hsession])
      exact absurd hk (h.removed hl hs hactor hlast k)
  · exact hlife.counted hcount

theorem freedOnce_step (sid : Sid) (hf : t.freed sid = true) : t.teardowns sid = 1 := by
  have hone : s.teardowns sid = 1 := by
    rcases h.slots hl hs with ⟨-, hfreed⟩ | ⟨-, -, -, -, -, -, -, hfreed⟩ |
      ⟨a, sid', -, -, hst, -, -, hfreed⟩
    · exact h.freedOnce sid (hfreed ▸ hf)
    · exact h.freedOnce sid (hfreed ▸ hf)
    · rw [hfreed, update_apply] at hf
      split_ifs at hf with hsid
      · rw [hsid]
        have htear : (s.stage a).phase = .tearing sid' [] := congrArg Stage.phase hst
        exact h.living.tearing_once htear
      · exact h.freedOnce sid hf
  have hle : s.teardowns sid ≤ t.teardowns sid := (h.life hl hs).teardowns_le
  have hmost : t.teardowns sid ≤ 1 := (h.living_step hl hs).life.atMostOnce sid
  omega

/-- A thread that waits with a client of a restart goes on waiting, or leaves. -/
theorem waiting_step {sid : Sid} {a : Actor τ n} (hw : (s.stage a).waiting = some sid)
    (hc : s.cleaned sid = true) (ht : (t.stage a).phase.session = some sid) :
    (t.stage a).waiting = some sid := by
  by_cases ha : l.actor = some a
  · cases l with
    | act b x =>
      cases ha
      cases a with
      | job i =>
        have hjob := phase_of_isJob (h.living.jobs i)
        rw [waiting_parked hw] at hjob
        cases hjob
      | host =>
        have hparked : s.life.phase .host = .parked sid := waiting_parked hw
        rcases h.living.life.undertaker with haway | ⟨sid', todo, htear, -⟩
        · rw [hparked] at haway
          cases haway
        · rw [hparked] at htear
          cases htear
      | client i =>
        rcases waiting_cases hw with hst | ⟨opcode, hst⟩
        · simp only [step, clientStep, hst] at hs
          cases hs
          simp [stage_goto, Stage.waiting]
        · -- `disconnectControl` is set, so the thread leaves
          simp only [step, clientStep, hst, hl.1 sid opcode hst hc, if_pos] at hs
          cases hs
          simp [stage_goto, Stage.phase, Phase.session] at ht
    | _ => cases ha
  · rw [stage_of_actor hs ha]
    exact hw

theorem quiet_step (sid : Sid) (a : Actor τ n) (hf : t.freed sid = true)
    (ht : (t.stage a).phase.session = some sid) :
    t.cleaned sid = true ∧ (t.stage a).waiting = some sid := by
  have hlife := h.life hl hs
  have hold : s.freed sid = true → t.cleaned sid = true ∧ (t.stage a).waiting = some sid := by
    intro hf
    have hone : s.life.teardowns sid = 1 := h.freedOnce sid hf
    rcases hlife.origin ht with hsession | hnew | ⟨-, hzero⟩
    · obtain ⟨hc, hw⟩ := h.quiet sid a hf hsession
      exact ⟨hlife.cleaned_of hc, h.waiting_step hl hs hw hc ht⟩
    · have hfresh := (h.living.life.fresh sid hnew.ge).2.1
      omega
    · omega
  rcases h.slots hl hs with ⟨-, hfreed⟩ | ⟨-, -, -, -, -, -, -, hfreed⟩ |
    ⟨b, sid', k, hb, hst, -, -, hfreed⟩
  · exact hold (hfreed ▸ hf)
  · exact hold (hfreed ▸ hf)
  · rw [hfreed, update_apply] at hf
    split_ifs at hf with hsid
    · -- the client is freed by this step: its other threads are in a read
      subst hsid
      have hab : a ≠ b := by
        rintro rfl
        exact session_removed hb hst hs ht
      have hactor : l.actor ≠ some a := by
        rw [hb]
        exact fun heq => hab (Option.some.inj heq).symm
      have hsame := stage_of_actor hs hactor
      rw [hsame] at ht ⊢
      have hbsession : (s.life.phase b).session = some sid :=
        congrArg (fun st => (Stage.phase st).session) hst
      cases hc : s.cleaned sid with
      | false => exact absurd (h.living.life.one a b sid ht hbsession hc) hab
      | true =>
        have hbhost : b = .host := by
          rcases h.living.life.aside b sid hbsession hc with hbh | hparked
          · exact hbh
          · rw [show s.life.phase b = .tearing sid [] from congrArg Stage.phase hst] at hparked
            cases hparked
        subst hbhost
        have hparked : (s.stage a).phase = .parked sid :=
          (h.living.life.aside a sid ht hc).resolve_left hab
        refine ⟨hlife.cleaned_of hc, parked_waiting hparked ?_⟩
        cases l with
        | act c x =>
          cases hb
          cases a with
          | host => exact absurd rfl hab
          | job i =>
            rw [phase_of_isJob (h.living.jobs i)] at hparked
            cases hparked
          | client i => exact hl.2.1 sid (by rw [hst]; rfl) i
        | _ => cases hb
    · exact hold hf

theorem known_step (i : Fin n) (sid : Sid) (ht : (t.stage (.client i)).place = .within sid) :
    t.cleaned sid = true ∨ (∃ k, t.connectedClients k = some sid) ∨
      (t.stage (.client i)).phase.doomed = true := by
  have hlife := h.life hl hs
  have htsession := session_of_within ht
  rcases (registry_step hs).entered ht with hwithin | hslot | hfull
  · have hsession := session_of_within hwithin
    rcases h.known i sid hwithin with hc | ⟨k, hk⟩ | hdoomed
    · exact .inl (hlife.cleaned_of hc)
    · rcases h.kept hl hs hk with hkept | ⟨a, ha, hst⟩
      · exact .inr (.inl ⟨k, hkept⟩)
      · have hasession : (s.life.phase a).session = some sid :=
          congrArg (fun st => (Stage.phase st).session) hst
        cases hc : s.cleaned sid with
        | true => exact .inl (hlife.cleaned_of hc)
        | false =>
          obtain rfl := h.living.life.one a (.client i) sid hasession hsession hc
          exact absurd htsession (session_removed ha hst hs)
    · rcases hlife.doomed hdoomed with hdoomed' | haway
      · exact .inr (.inr hdoomed')
      · rw [show (t.stage (.client i)).phase = .away from haway] at htsession
        cases htsession
  · exact .inr (.inl hslot)
  · obtain ⟨⟨x, rfl⟩, ⟨f, hst⟩, hfree⟩ := event_full hfull
    simp only [step, clientStep, hst, hfree] at hs
    split_ifs at hs
    cases hs
    simp [stage_goto, Stage.phase, Phase.doomed]

/-- A thread that ends a session has torn it down, or leaves it to the host. -/
theorem ended_now {sid : Sid} {a : Actor τ n} (ha : (s.stage a).phase.session = some sid)
    (ht : (t.stage a).phase.session ≠ some sid) :
    s.teardowns sid = 1 ∨ t.Pending ∧ ∃ k, t.connectedClients k = some sid := by
  have hstay : ∀ sid todo, (s.stage a).phase = .tearing sid todo → s.teardowns sid = 1 :=
    fun _ _ htear => h.living.tearing_once htear
  have hparked : (s.stage a).phase = .tearing sid [] ∨ (s.stage a).phase = .parked sid ∨
      (s.stage a).phase = .serving sid := (h.life hl hs).lost ha ht
  cases a with
  | job i =>
    rw [phase_of_isJob (h.living.jobs i)] at ha
    cases ha
  | host =>
    rcases h.living.life.undertaker with haway | ⟨sid', todo, htear, -⟩
    · rw [show (s.stage .host).phase = .away from haway] at ha
      cases ha
    · rw [show (s.stage .host).phase = .tearing sid' todo from htear] at ha
      cases ha
      exact .inl (hstay sid todo htear)
  | client i =>
    have hremove : s.stage (.client i) = .remove sid → s.teardowns sid = 1 :=
      fun hst => hstay sid [] (by rw [hst]; rfl)
    have hitem : (s.registry.place i).item = some sid := (place_item _).trans ha
    have hitem' : (t.registry.place i).item ≠ some sid := fun heq =>
      ht ((place_item _).symm.trans heq)
    have hstep := registry_step hs
    rcases hstep.lost hitem hitem' with ⟨k, he⟩ | he | he
    · exact .inl (hremove (event_remove he))
    · exact .inl (hremove (event_miss he))
    · obtain ⟨⟨x, rfl⟩, hflagged, hcontrol⟩ := event_desert he
      rcases hl.2.1 sid hflagged hcontrol with hc | hpending
      · exact .inl (h.living.life.cleanedOnce sid hc)
      · have hplace : (s.stage (.client i)).place = .within sid := by
          cases hst : s.stage (.client i) <;> rw [hst] at hflagged <;> cases hflagged <;> rfl
        rcases h.known i sid hplace with hc | ⟨k, hk⟩ | hdoomed
        · exact .inl (h.living.life.cleanedOnce sid hc)
        · have hflags := (clientStep_silent hs).2
          refine .inr ⟨?_, k, ?_⟩
          · rw [State.Pending, hflags.restart, hflags.handlers]
            exact hpending
          · rcases h.kept hl hs hk with hkept | ⟨b, hb, hst⟩
            · exact hkept
            · cases hb
              rw [hst] at hflagged
              cases hflagged
        · rcases hparked with htear | hp | hp
          · exact .inl (hstay sid [] htear)
          · rw [hp] at hdoomed
            cases hdoomed
          · rw [hp] at hdoomed
            cases hdoomed

theorem ended_step (sid : Sid) (hsid : sid < t.nextSession)
    (hover : ∀ a, (t.stage a).phase.session ≠ some sid) :
    t.teardowns sid = 1 ∨ t.Pending ∧ ∃ k, t.connectedClients k = some sid := by
  have hlife := h.life hl hs
  have hold : sid < s.nextSession := by
    rcases hlife.taken hsid with hlt | ⟨a, ha⟩
    · exact hlt
    · exact absurd ha (hover a)
  have honce : s.teardowns sid = 1 → t.teardowns sid = 1 := by
    intro hone
    have hle : s.teardowns sid ≤ t.teardowns sid := hlife.teardowns_le
    have hmost : t.teardowns sid ≤ 1 := (h.living_step hl hs).life.atMostOnce sid
    omega
  by_cases hbefore : ∀ a, (s.stage a).phase.session ≠ some sid
  · rcases h.ended sid hold hbefore with hone | ⟨hpending, k, hk⟩
    · exact .inl (honce hone)
    · rcases pending_step hpending hs with hpending' | ⟨hzero, hst, x, rfl⟩
      · rcases h.kept hl hs hk with hkept | ⟨a, -, hst⟩
        · exact .inr ⟨hpending', k, hkept⟩
        · exact absurd (by rw [hst]; rfl) (hbefore a)
      · -- the restart ends only with a thread for each listed client
        rcases hl.2.2 hst with hpos | hthreads
        · omega
        · obtain ⟨i, hi⟩ := hthreads k sid hk
          exact absurd hi (hbefore (.client i))
  · push Not at hbefore
    obtain ⟨a, ha⟩ := hbefore
    exact (h.ended_now hl hs ha (hover a)).imp_left honce

theorem step : Settled t where
  living := h.living_step hl hs
  inv := h.inv.step (registry_step hs)
  scan := h.scan.step hs
  listed := h.listed_step hl hs
  begun := h.begun_step hl hs
  freedOnce := h.freedOnce_step hl hs
  quiet := h.quiet_step hl hs
  known := h.known_step hl hs
  ended := h.ended_step hl hs

end Settled

theorem settled_of_run {ls : List (Label τ n)}
    (hrun : Run (guarded careful (stepOf step)) State.initial ls s) : Settled s :=
  hrun.invariant settled_initial fun _ _ _ hu hs => hu.step hs.1 hs.2

/-- In runs of careful steps no session is torn down twice; one that no thread has any more
has been torn down, unless a restart is due that finds it on the list; and a thread whose
client was freed is in the read of an opcode or comes from it. -/
theorem torn_down_once {ls : List (Label τ n)}
    (hrun : Run (guarded careful (stepOf step)) State.initial ls s) :
    (∀ sid, s.teardowns sid ≤ 1) ∧
      (∀ sid < s.nextSession, (∀ a, (s.stage a).phase.session ≠ some sid) →
        s.teardowns sid = 1 ∨ s.Pending ∧ ∃ k, s.connectedClients k = some sid) ∧
      ∀ sid a, s.freed sid = true → (s.stage a).phase.session = some sid →
        s.stage a = .blocked sid ∨ ∃ opcode, s.stage a = .check sid opcode := by
  have h := settled_of_run hrun
  exact ⟨h.living.life.atMostOnce, h.ended, fun sid a hf hsession =>
    waiting_cases (h.quiet sid a hf hsession).2⟩

end Settled

/-- A client is in the read of an opcode when SIGUSR1 arrives, and the host ends the restart. -/
def restarted : List (Label Unit 2) :=
  connects former 1 2 3 ++ [.signal, .raise] ++ steps .host 13

/-- The thread comes from the read after the restart, and leaves. -/
theorem torn_down_once_restarted : ∃ ls, ∃ s : State Unit 2,
    Run (guarded careful (stepOf step)) State.initial ls s ∧ s.stage (.client 0) = .idle ∧
      s.freed 0 = true ∧ s.teardowns 0 = 1 := by
  have hrun : Run (guarded (fun s l => decide (careful s l) = true) (stepOf step))
      State.initial (restarted ++ steps (.client 0) 2) _ := run_of_executeGuarded rfl
  have hcareful : Run (guarded careful (stepOf step)) State.initial _ _ := hrun.of_decided
  refine ⟨_, _, hcareful, rfl, rfl,
    ((torn_down_once hcareful).2.1 0 (by decide) fun a => ?_).resolve_right (by decide)⟩
  cases a with
  | job _ => rintro ⟨⟩
  | client i => fin_cases i <;> rintro ⟨⟩
  | host => rintro ⟨⟩

/-- A new client connects between the restart and the end of the read: the thread finds
`disconnectControl` reset and tears its client down, which the host has freed. -/
theorem torn_down_twice : ∃ s : State Unit 2,
    execute step State.initial (restarted ++ steps .host 4 ++ steps (.client 0) 3) = some s ∧
      s.freed 0 = true ∧ s.stage (.client 0) = .walk 0 [] ∧ s.teardowns 0 = 2 :=
  ⟨_, rfl, rfl, rfl, rfl⟩

end IstKvs.Server
