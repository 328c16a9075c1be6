import IstKvs.Server.Frames
import IstKvs.Server.Lifecycle

/-! The server as a life of sessions: every step of a thread is one step of the life of
the sessions or leaves it as it is, as long as the restarts are orderly. -/

namespace IstKvs.Server

open IstKvs.Store IstKvs.Sessions IstKvs.Systems Function

variable {τ : Type*} {n : ℕ}

/-- What a thread at this stage has to do with a session. -/
def Stage.phase : Stage → Phase
  | .openPipe sid .notif f => .opening sid Life.opens f
  | .openPipe sid .req f => .opening sid [.req, .resp] f
  | .openPipe sid .resp f => .opening sid [.resp] f
  | .create sid f | .addClient sid f | .replyConnect sid f => .opening sid [] f
  | .readKey sid _ | .failed sid | .answer sid _ | .subscribe sid _ | .subscribeFind sid _
  | .subscribeUnlock sid _ _ | .record sid _ | .forget sid _ | .unsubscribe sid _
  | .unsubscribeFind sid _ | .unsubscribeUnlock sid _ => .serving sid
  | .readOp sid | .blocked sid | .check sid _ => .parked sid
  | .disconnect sid => .leaving sid
  | .walk sid _ | .walkFind sid _ _ | .walkUnlock sid _ _ | .clear sid | .close sid .req =>
    .tearing sid Life.closes
  | .close sid .notif => .tearing sid [.notif, .resp]
  | .replyDisconnect sid | .close sid .resp => .tearing sid [.resp]
  | .remove sid => .tearing sid []
  | _ => .away

theorem phase_of_isJob {st : Stage} (h : st.isJob = true) : st.phase = .away := by
  cases st <;> first | rfl | cases h

def State.life (s : State τ n) : Life (Actor τ n) where
  phase a := (s.stage a).phase
  files := s.files
  fd sid := fdOf (s.client sid)
  next := s.nextSession
  teardowns := s.teardowns
  cleaned := s.cleaned

/-- The client that `clean_all_clients` begins with in its next step. -/
def State.cleaning (s : State τ n) : Option Sid :=
  if s.stage .host = .cleanSlot then
    if h : s.slot < n then s.connectedClients ⟨s.slot, h⟩ else none
  else none

/-- `clean_all_clients` begins only with clients whose teardown nobody has begun and whose
thread is in no request or has left; and a thread that comes from the read of an opcode to
a client of a restart finds `disconnectControl` set. -/
def orderly (s : State τ n) : Label τ n → Prop
  | .act .host _ => ∀ sid, s.cleaning = some sid → s.teardowns sid = 0 ∧
      ∀ i, (s.stage (.client i)).phase.session = some sid →
        (s.stage (.client i)).phase = .parked sid
  | .act (.client i) _ => ∀ sid opcode, s.stage (.client i) = .check sid opcode →
      s.cleaned sid = true → s.disconnectControl = true
  | _ => True

/-- The session of a thread that comes from the read of an opcode. -/
def Stage.checked : Stage → Option Sid
  | .check sid _ => some sid
  | _ => none

theorem Stage.checked_eq {st : Stage} {sid : Sid} (h : sid ∈ st.checked) :
    ∃ opcode, st = .check sid opcode := by
  cases st <;> cases h
  exact ⟨_, rfl⟩

instance (s : State τ n) (l : Label τ n) : Decidable (orderly s l) :=
  match l with
  | .act .host _ => inferInstanceAs (Decidable (∀ sid ∈ s.cleaning, s.teardowns sid = 0 ∧
      ∀ i, (s.stage (.client i)).phase.session = some sid →
        (s.stage (.client i)).phase = .parked sid))
  | .act (.client i) _ => decidable_of_iff
      (∀ sid ∈ (s.stage (.client i)).checked, s.cleaned sid = true → s.disconnectControl = true)
      ⟨fun h sid opcode hst => h sid (by rw [hst]; rfl), fun h sid hsid =>
        (Stage.checked_eq hsid).elim fun opcode hst => h sid opcode hst⟩
  | .act (.job _) _ | .signal | .raise | .openFile _ | .closeFile _ => isTrue trivial

section
variable [DecidableEq τ] (s : State τ n)

theorem life_goto (a : Actor τ n) (st : Stage) : (s.goto a st).life = s.life.goto a st.phase := by
  simp only [State.life, State.goto, Life.goto, Life.mk.injEq, and_true]
  funext b
  by_cases hb : b = a
  · subst hb; simp
  · simp [hb]

theorem Life.goto_self (c : Life (Actor τ n)) (a : Actor τ n) : c.goto a (c.phase a) = c := by
  simp [Life.goto]

omit [DecidableEq τ] in
@[simp] theorem life_deliver (fd : Fd) (bytes : List UInt8) :
    (s.deliver fd bytes).life = s.life := by
  obtain ⟨arrived, h⟩ := deliver_eq s fd bytes
  rw [h]
  rfl

omit [DecidableEq τ] in
@[simp] theorem life_setSubscriptions (sid : Sid) (keys : List CStr) :
    (s.setSubscriptions sid keys).life = s.life := by
  simp only [State.life, State.setSubscriptions, Life.mk.injEq, and_true, true_and]
  funext sid' kind
  by_cases hs : sid' = sid
  · subst hs; cases kind <;> simp [fdOf]
  · simp [hs]

omit [DecidableEq τ] in
theorem life_openFd (sid : Sid) (kind : Kind) (fd : Fd) : (s.openFd sid kind fd).life =
    { s.life with
      files := update s.life.files fd (some (.pipe sid kind))
      fd := Life.assign s.life.fd sid kind fd } := by
  simp only [State.life, State.openFd, Life.mk.injEq, and_true, true_and]
  funext sid' kind'
  by_cases hs : sid' = sid
  · subst hs
    by_cases hk : kind' = kind
    · subst hk; simp
    · simp [Life.assign, hk, fdOf_setFd_of_ne hk]
  · simp [Life.assign_of_ne _ _ (.inl hs), hs]

omit [DecidableEq τ] in
theorem life_of_lock {s u : State τ n} {a : Actor τ n} {b : Bucket} (h : s.lock a b = some u) :
    u.life = s.life := by
  rw [(lock_eq h).2]
  rfl

end

/-- The invariant of the life of the sessions. Job threads have no session, and slots hold
sessions that were taken. -/
structure Living (s : State τ n) : Prop where
  life : Life.Inv .host s.life
  jobs : ∀ t, (s.stage (.job t)).isJob = true
  listed : ∀ k sid, s.connectedClients k = some sid → sid < s.nextSession

theorem phase_initial (a : Actor τ n) : ((State.initial : State τ n).life.phase a) = .away := by
  cases a <;> rfl

theorem living_initial : Living (State.initial : State τ n) where
  life := by
    constructor
    case undertaker => exact .inl (phase_initial .host)
    case fresh =>
      exact fun sid _ => ⟨rfl, rfl, fun kind => by cases kind <;> rfl, fun fd kind h => by cases h⟩
    case named => exact fun fd sid kind h => by cases h
    case nonneg => exact fun fd h => absurd rfl h
    case cleanedOnce => exact fun sid h => by cases h
    case atMostOnce => exact fun sid => Nat.zero_le 1
    case left => exact fun sid kind h => absurd h (Nat.not_lt_zero sid)
    all_goals simp [phase_initial, Phase.session, Life.InCharge]
  jobs t := rfl
  listed k sid h := by cases h

/-! ### Steps of the threads -/

section Steps
variable [DecidableEq τ] {s t u : State τ n} {a : Actor τ n} {st : Stage}

omit [DecidableEq τ] in
theorem life_phase (h : s.stage a = st) : s.life.phase a = st.phase := congrArg Stage.phase h

/-- A step that changes nothing in the life of the sessions. -/
theorem life_stay (hu : u.life = s.life) (hp : st.phase = (s.stage a).phase) :
    Life.Step .host s.life (u.goto a st).life := by
  rw [life_goto, hu, hp]
  have h := Life.goto_self s.life a
  rw [show s.life.goto a (s.stage a).phase = s.life from h]
  exact .stay

theorem life_next (hu : u.life = s.life) (hp : Phase.Next (s.stage a).phase st.phase) :
    Life.Step .host s.life (u.goto a st).life := by
  rw [life_goto, hu]
  exact .next hp

theorem life_jobStep {i : τ} {x : Input} (hj : (s.stage (.job i)).isJob = true)
    (hs : jobStep s i x = some t) : t.life = s.life := by
  obtain ⟨ht, locks, arrived, updates, st, hst, rfl⟩ := jobStep_frame hs
  rw [life_goto, phase_of_isJob hst, ← phase_of_isJob hj]
  exact Life.goto_self s.life _

theorem life_teardownStep (hs : teardownStep s a = some t) : Life.Step .host s.life t.life := by
  cases hst : s.stage a <;> simp only [teardownStep, hst, reduceCtorEq] at hs
  case walk sid rest =>
    cases rest with
    | nil => cases hs; exact life_stay rfl (by rw [hst]; rfl)
    | cons k rest =>
      obtain ⟨key, -, hs⟩ := Option.bind_eq_some_iff.mp hs
      obtain ⟨u, hu, rfl⟩ := Option.map_eq_some_iff.mp hs
      exact life_stay (life_of_lock hu) (by rw [hst]; rfl)
  case walkFind sid key rest => cases hs; exact life_stay rfl (by rw [hst]; rfl)
  case walkUnlock sid key rest => cases hs; exact life_stay rfl (by rw [hst]; rfl)
  case clear sid => cases hs; exact life_stay (life_setSubscriptions ..) (by rw [hst]; rfl)
  case replyDisconnect sid => cases hs; exact life_stay rfl (by rw [hst]; rfl)
  case close sid kind =>
    have hclose : ∀ todo st, (s.stage a).phase = .tearing sid (kind :: todo) →
        st.phase = .tearing sid todo → kind ∉ todo →
        Life.Step .host s.life ((s.closeFd (fdOf (s.client sid) kind)).goto a st).life := by
      intro todo st hp hp' hk
      rw [life_goto, hp']
      exact .close hp hk
    cases kind <;> cases hs
    case req => exact hclose [.notif, .resp] _ (by rw [hst]; rfl) rfl (by decide)
    case notif => exact hclose [.resp] _ (by rw [hst]; rfl) (by split_ifs <;> rfl) (by decide)
    case resp => exact hclose [] _ (by rw [hst]; rfl) rfl (by decide)

theorem life_openStep {sid : Sid} {kind : Kind} {todo : List Kind} {f : Bool} {x : Input}
    {st : Stage} {refused : Option Stage} (hp : (s.stage a).phase = .opening sid (kind :: todo) f)
    (hkind : kind ∉ todo) (hst : st.phase = .opening sid todo f)
    (hrefused : ∀ st', refused = some st' → st'.phase = .opening sid todo true)
    (hs : openStep s a sid kind x (some st) refused = some t) :
    Life.Step .host s.life t.life := by
  unfold openStep at hs
  split at hs
  · split at hs
    next hfd =>
      cases hs
      rw [life_goto, life_openFd, hst]
      exact .opened hp hkind hfd.1 hfd.2
    next => cases hs
  · obtain ⟨st', hst', rfl⟩ := Option.map_eq_some_iff.mp hs
    rw [life_goto, hrefused st' hst']
    exact .refused hp

theorem life_clientStep {i : Fin n} {x : Input}
    (ho : ∀ sid opcode, s.stage (.client i) = .check sid opcode → s.cleaned sid = true →
      s.disconnectControl = true)
    (hs : clientStep s i x = some t) : Life.Step .host s.life t.life := by
  cases hst : s.stage (.client i) <;> simp only [clientStep, hst] at hs
  case idle =>
    split at hs <;> cases hs
    rw [life_goto]
    exact .take (by simp) (life_phase hst)
  case openPipe sid kind f =>
    cases kind <;> refine life_openStep (by rw [hst]; rfl) (by decide) rfl ?_ hs <;>
      rintro st' ⟨⟩ <;> rfl
  case addClient sid f =>
    split at hs
    · cases hs
    · split at hs <;> cases hs
      · exact life_stay rfl (by rw [hst]; rfl)
      · exact life_next rfl (by rw [hst]; exact .full sid f)
  case replyConnect sid f =>
    cases hs
    cases f
    · exact life_next rfl (by rw [hst]; exact .serve sid)
    · exact life_next rfl (by rw [hst]; exact .giveUp sid)
  case readOp sid => cases hs; exact life_stay rfl (by rw [hst]; rfl)
  case check sid opcode =>
    have hp : s.life.phase (.client i) = .parked sid := life_phase hst
    split at hs
    · cases hs
      rw [life_goto]
      exact .leave (.inl hp)
    next hd =>
      have hc : s.life.cleaned sid = false := by
        by_contra hc
        exact hd (ho sid opcode hst (Bool.of_not_eq_false hc))
      have hserve : ∀ st, st.phase = .serving sid ∨ st.phase = .leaving sid →
          Life.Step .host s.life (s.goto (.client i) st).life := by
        intro st hp'
        rw [life_goto]
        exact .unpark hp hc hp'
      repeat' split at hs
      all_goals
        cases hs
        first
          | exact hserve _ (.inl rfl)
          | exact hserve _ (.inr rfl)
          | exact life_stay rfl (by rw [hst]; rfl)
  case failed sid =>
    cases hs
    split_ifs
    · rw [life_goto]
      exact .leave (.inr (life_phase hst))
    · exact life_next rfl (by rw [hst]; exact .leave sid)
  case disconnect sid =>
    cases hs
    rw [State.teardown, life_goto]
    exact .teardown (life_phase hst)
  case readKey sid subscribe =>
    split at hs
    · cases hs; exact life_stay rfl (by rw [hst]; rfl)
    · split at hs
      · cases hs; exact life_stay rfl (by rw [hst]; rfl)
      · obtain ⟨key, -, rfl⟩ := Option.map_eq_some_iff.mp hs
        cases subscribe <;> exact life_stay rfl (by rw [hst]; rfl)
  case answer sid what =>
    cases what <;> cases hs
    case subscribed =>
      cases x.ok
      · exact life_stay rfl (by rw [hst]; rfl)
      · exact life_next rfl (by rw [hst]; exact .park sid)
    all_goals exact life_next rfl (by rw [hst]; exact .park sid)
  case subscribe sid key =>
    obtain ⟨u, hu, rfl⟩ := Option.map_eq_some_iff.mp hs
    exact life_stay (life_of_lock hu) (by rw [hst]; rfl)
  case unsubscribe sid key =>
    obtain ⟨u, hu, rfl⟩ := Option.map_eq_some_iff.mp hs
    exact life_stay (life_of_lock hu) (by rw [hst]; rfl)
  case subscribeUnlock sid key added =>
    cases hs
    cases added <;> exact life_stay rfl (by rw [hst]; rfl)
  case record sid key =>
    split at hs <;> cases hs
    · exact life_stay (life_setSubscriptions ..) (by rw [hst]; rfl)
    · exact life_stay rfl (by rw [hst]; rfl)
  case forget sid key =>
    cases hs
    exact life_stay (life_setSubscriptions ..) (by rw [hst]; rfl)
  case remove sid =>
    have hfinish : ∀ u : State τ n, u.life = s.life →
        Life.Step .host s.life (u.goto (.client i) .idle).life := by
      intro u hu
      rw [life_goto, hu]
      exact .finish (life_phase hst)
    repeat' split at hs
    all_goals cases hs
    all_goals exact hfinish _ rfl
  all_goals first
    | exact life_teardownStep hs
    | cases hs; exact life_stay rfl (by rw [hst]; rfl)
    | split at hs <;> cases hs; exact life_stay rfl (by rw [hst]; rfl)

theorem life_hostStep (hj : ∀ i, (s.stage (.job i)).isJob = true)
    (hlisted : ∀ k sid, s.connectedClients k = some sid → sid < s.nextSession) {x : Input}
    (ho : orderly s (.act .host x)) (hs : hostStep s x = some t) :
    Life.Step .host s.life t.life := by
  cases hst : s.stage .host <;> simp only [hostStep, hst] at hs
  case hostCheck =>
    cases hs
    cases s.restartClients <;> exact life_stay rfl (by rw [hst]; rfl)
  case hostRead => cases hs; cases x.ok <;> exact life_stay rfl (by rw [hst]; rfl)
  case cleanSlot =>
    split at hs
    next hk =>
      split at hs
      · cases hs; exact .stay
      next sid hsid =>
        cases hs
        have hclean : s.cleaning = some sid := by rw [State.cleaning, if_pos hst, dif_pos hk, hsid]
        obtain ⟨h0, hparked⟩ := ho sid hclean
        rw [State.teardown, life_goto]
        refine .clean (life_phase hst) (hlisted _ sid hsid) h0 fun a ha => ?_
        cases a with
        | job i => exact absurd ha (by rw [life_phase rfl, phase_of_isJob (hj i)]; rintro ⟨⟩)
        | client i => exact hparked i ha
        | host => exact absurd ha (by rw [life_phase hst]; rintro ⟨⟩)
    next => cases hs; exact life_stay rfl (by rw [hst]; rfl)
  case remove sid =>
    split at hs <;> cases hs
    rw [life_goto]
    exact .finish (life_phase hst)
  all_goals first
    | exact life_teardownStep hs
    | cases hs; exact life_stay rfl (by rw [hst]; rfl)
    | split at hs <;> cases hs; exact life_stay rfl (by rw [hst]; rfl)

/-- Every step of the server is a step in the life of the sessions. -/
theorem life_step (hj : ∀ i, (s.stage (.job i)).isJob = true)
    (hlisted : ∀ k sid, s.connectedClients k = some sid → sid < s.nextSession) {l : Label τ n}
    (ho : orderly s l) (hs : step s l = some t) : Life.Step .host s.life t.life := by
  cases l with
  | act a x =>
    cases a with
    | job i => rw [life_jobStep (hj i) hs]; exact .stay
    | client i => exact life_clientStep ho hs
    | host => exact life_hostStep hj hlisted ho hs
  | signal => cases hs; exact .stay
  | raise =>
    simp only [step] at hs
    split at hs <;> cases hs
    exact .stay
  | openFile fd =>
    simp only [step] at hs
    split at hs <;> cases hs
    next h => exact .openFile h.1 h.2
  | closeFile fd =>
    simp only [step] at hs
    split at hs <;> cases hs
    next h => exact .closeFile h

/-! ### The list of clients -/

theorem slots_teardownStep (hs : teardownStep s a = some t) :
    t.connectedClients = s.connectedClients ∧ t.freed = s.freed := by
  cases hst : s.stage a <;> simp only [teardownStep, hst, reduceCtorEq] at hs
  case walk sid rest =>
    cases rest with
    | nil => cases hs; exact ⟨rfl, rfl⟩
    | cons k rest =>
      obtain ⟨key, -, hs⟩ := Option.bind_eq_some_iff.mp hs
      obtain ⟨u, hu, rfl⟩ := Option.map_eq_some_iff.mp hs
      obtain ⟨-, rfl⟩ := lock_eq hu
      exact ⟨rfl, rfl⟩
  case close sid kind => cases kind <;> cases hs <;> exact ⟨rfl, rfl⟩
  all_goals cases hs; exact ⟨rfl, rfl⟩

theorem slots_openStep {sid : Sid} {kind : Kind} {x : Input} {opened refused : Option Stage}
    (hs : openStep s a sid kind x opened refused = some t) :
    t.connectedClients = s.connectedClients ∧ t.freed = s.freed := by
  unfold openStep at hs
  split_ifs at hs
  all_goals
    obtain ⟨st, -, rfl⟩ := Option.map_eq_some_iff.mp hs
    exact ⟨rfl, rfl⟩

/-- A client thread changes the list in `add_client` and `remove_client`. -/
theorem slots_clientStep {i : Fin n} {x : Input} (hs : clientStep s i x = some t) :
    (t.connectedClients = s.connectedClients ∧ t.freed = s.freed) ∨
      (s.connectedClientsMutex = false ∧
        ∃ sid f k, s.stage (.client i) = .addClient sid f ∧ s.freeSlot = some k ∧
          t.connectedClients = update s.connectedClients k (some sid) ∧ t.freed = s.freed) ∨
      (s.connectedClientsMutex = false ∧
        ∃ sid k, s.stage (.client i) = .remove sid ∧ s.findClient sid = some k ∧
          t.connectedClients = update s.connectedClients k none ∧
          ∀ sid', s.connectedClients k = some sid' → t.freed = update s.freed sid' true) := by
  have hmutex : ¬ s.connectedClientsMutex = true → s.connectedClientsMutex = false :=
    Bool.eq_false_of_not_eq_true
  cases hst : s.stage (.client i) <;> simp only [clientStep, hst] at hs
  case addClient sid f =>
    split at hs
    · cases hs
    next hm =>
      split at hs
      next k hk => cases hs; exact .inr (.inl ⟨hmutex hm, sid, f, k, rfl, hk, rfl, rfl⟩)
      next => cases hs; exact .inl ⟨rfl, rfl⟩
  case remove sid =>
    split at hs
    · cases hs
    next hm =>
      split at hs
      next k hk =>
        cases hs
        refine .inr (.inr ⟨hmutex hm, sid, k, rfl, hk, rfl, fun sid' hsid => ?_⟩)
        simp only [State.goto, hsid]
      next => cases hs; exact .inl ⟨rfl, rfl⟩
  case openPipe sid kind f =>
    cases kind <;> exact .inl (slots_openStep hs)
  case subscribe sid key =>
    obtain ⟨u, hu, rfl⟩ := Option.map_eq_some_iff.mp hs
    obtain ⟨-, rfl⟩ := lock_eq hu
    exact .inl ⟨rfl, rfl⟩
  case unsubscribe sid key =>
    obtain ⟨u, hu, rfl⟩ := Option.map_eq_some_iff.mp hs
    obtain ⟨-, rfl⟩ := lock_eq hu
    exact .inl ⟨rfl, rfl⟩
  case readKey sid subscribe =>
    split at hs
    · cases hs; exact .inl ⟨rfl, rfl⟩
    · split at hs
      · cases hs; exact .inl ⟨rfl, rfl⟩
      · obtain ⟨key, -, rfl⟩ := Option.map_eq_some_iff.mp hs
        cases subscribe <;> exact .inl ⟨rfl, rfl⟩
  case answer sid what => cases what <;> cases hs <;> exact .inl ⟨rfl, rfl⟩
  all_goals first
    | exact .inl (slots_teardownStep hs)
    | (repeat' split at hs) <;> cases hs <;> exact .inl ⟨rfl, rfl⟩

/-- The host takes clients off the list, with the slot it is at. -/
theorem slots_hostStep {x : Input} (hs : hostStep s x = some t) :
    (t.connectedClients = s.connectedClients ∧ t.freed = s.freed) ∨
      ∃ sid, ∃ h : s.slot < n, s.stage .host = .remove sid ∧
        t.connectedClients = update s.connectedClients ⟨s.slot, h⟩ none ∧
        t.freed = update s.freed sid true := by
  cases hst : s.stage .host <;> simp only [hostStep, hst] at hs
  case remove sid =>
    split at hs
    next h => cases hs; exact .inr ⟨sid, h, rfl, rfl, rfl⟩
    next => cases hs
  all_goals first
    | exact .inl (slots_teardownStep hs)
    | (repeat' split at hs) <;> cases hs <;> exact .inl ⟨rfl, rfl⟩

namespace Living

/-- A session on the list stays one that was taken. -/
theorem listed_step (h : Living s) {l : Label τ n} (hs : step s l = some t) {k : Fin n} {sid : Sid}
    (hk : t.connectedClients k = some sid) : sid < s.nextSession := by
  have hremoved : ∀ k', t.connectedClients = update s.connectedClients k' none →
      sid < s.nextSession := by
    intro k' ht
    rw [ht, update_apply] at hk
    split_ifs at hk
    exact h.listed k sid hk
  have hsame : t.connectedClients = s.connectedClients → sid < s.nextSession := by
    intro ht
    rw [ht] at hk
    exact h.listed k sid hk
  cases l with
  | act a x =>
    cases a with
    | job i =>
      obtain ⟨ht, locks, arrived, updates, st, -, rfl⟩ := jobStep_frame hs
      exact hsame rfl
    | client i =>
      rcases slots_clientStep hs with ⟨ht, -⟩ | ⟨-, sid', f, k', hst, -, ht, -⟩ |
        ⟨-, sid', k', -, -, ht, -⟩
      · exact hsame ht
      · rw [ht, update_apply] at hk
        split_ifs at hk
        · cases hk
          exact h.life.used (.client i) _ (by rw [life_phase hst]; rfl)
        · exact h.listed k sid hk
      · exact hremoved k' ht
    | host =>
      rcases slots_hostStep hs with ⟨ht, -⟩ | ⟨sid', hk', -, ht, -⟩
      · exact hsame ht
      · exact hremoved _ ht
  | _ =>
    obtain ⟨files, control, restart, handlers, rfl⟩ := step_env rfl hs
    exact hsame rfl

theorem step (h : Living s) {l : Label τ n} (ho : orderly s l) (hs : step s l = some t) :
    Living t := by
  have hlife := life_step h.jobs h.listed ho hs
  refine ⟨h.life.step hlife, fun i => ?_, fun k sid hk => ?_⟩
  · cases l with
    | act a x =>
      by_cases ha : Actor.job i = a
      · subst ha
        obtain ⟨ht, locks, arrived, updates, st, hst, rfl⟩ := jobStep_frame hs
        simpa [State.goto] using hst
      · rw [stage_of_ne hs ha]
        exact h.jobs i
    | _ =>
      obtain ⟨files, control, restart, handlers, rfl⟩ := step_env rfl hs
      exact h.jobs i
  · exact (h.listed_step hs hk).trans_le hlife.next_le

end Living

end Steps

end IstKvs.Server
