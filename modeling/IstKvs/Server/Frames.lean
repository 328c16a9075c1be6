import IstKvs.Server.Machine

/-! What the steps of a thread leave alone: the stages of the other threads and, unless
it is a job thread, the notifications that have arrived and the updates made. -/

namespace IstKvs.Server

open IstKvs.Store IstKvs.Sessions IstKvs.Systems Function

variable {τ : Type*} {n : ℕ}

/-- A step of `a` that sends nothing. -/
structure Silent (a : Actor τ n) (s t : State τ n) : Prop where
  others : ∀ b, b ≠ a → t.stage b = s.stage b
  arrived : t.arrived = s.arrived
  updates : t.updates = s.updates

/-- A step outside the handler and the loop of the host. -/
structure Unflagged (s t : State τ n) : Prop where
  control : t.disconnectControl = s.disconnectControl
  restart : t.restartClients = s.restartClients
  handlers : t.handlers = s.handlers
  mutex : t.connectedClientsMutex = s.connectedClientsMutex
  slot : t.slot = s.slot
  cleaned : t.cleaned = s.cleaned

variable [DecidableEq τ] {s t u : State τ n} {a : Actor τ n} {st : Stage}

theorem silent_goto (hstage : u.stage = s.stage) (harrived : u.arrived = s.arrived)
    (hupdates : u.updates = s.updates) : Silent a s (u.goto a st) :=
  ⟨fun b hb => by simp [State.goto, hb, hstage], harrived, hupdates⟩

theorem silent_lock {b : Bucket} (h : s.lock a b = some u) :
    Silent a s (u.goto a st) ∧ Unflagged s (u.goto a st) := by
  obtain ⟨-, rfl⟩ := lock_eq h
  exact ⟨silent_goto rfl rfl rfl, ⟨rfl, rfl, rfl, rfl, rfl, rfl⟩⟩

theorem teardownStep_silent (hs : teardownStep s a = some t) : Silent a s t ∧ Unflagged s t := by
  cases hst : s.stage a <;> simp only [teardownStep, hst, reduceCtorEq] at hs
  case walk sid rest =>
    cases rest with
    | nil => cases hs; exact ⟨silent_goto rfl rfl rfl, ⟨rfl, rfl, rfl, rfl, rfl, rfl⟩⟩
    | cons k rest =>
      obtain ⟨key, -, hs⟩ := Option.bind_eq_some_iff.mp hs
      obtain ⟨u, hu, rfl⟩ := Option.map_eq_some_iff.mp hs
      exact silent_lock hu
  case close sid kind =>
    cases kind <;> cases hs <;> exact ⟨silent_goto rfl rfl rfl, ⟨rfl, rfl, rfl, rfl, rfl, rfl⟩⟩
  all_goals cases hs; exact ⟨silent_goto rfl rfl rfl, ⟨rfl, rfl, rfl, rfl, rfl, rfl⟩⟩

theorem openStep_silent {sid : Sid} {kind : Kind} {x : Input} {opened refused : Option Stage}
    (hs : openStep s a sid kind x opened refused = some t) : Silent a s t ∧ Unflagged s t := by
  unfold openStep at hs
  split_ifs at hs
  all_goals
    obtain ⟨st, -, rfl⟩ := Option.map_eq_some_iff.mp hs
    exact ⟨silent_goto rfl rfl rfl, ⟨rfl, rfl, rfl, rfl, rfl, rfl⟩⟩

theorem clientStep_silent {i : Fin n} {x : Input} (hs : clientStep s i x = some t) :
    Silent (.client i) s t ∧ Unflagged s t := by
  cases hst : s.stage (.client i) <;> simp only [clientStep, hst] at hs
  case openPipe sid kind f => cases kind <;> exact openStep_silent hs
  case subscribe sid key =>
    obtain ⟨u, hu, rfl⟩ := Option.map_eq_some_iff.mp hs
    exact silent_lock hu
  case unsubscribe sid key =>
    obtain ⟨u, hu, rfl⟩ := Option.map_eq_some_iff.mp hs
    exact silent_lock hu
  case readKey sid subscribe =>
    have hgoto : ∀ st, Silent (.client i) s (s.goto (.client i) st) ∧
        Unflagged s (s.goto (.client i) st) :=
      fun st => ⟨silent_goto rfl rfl rfl, ⟨rfl, rfl, rfl, rfl, rfl, rfl⟩⟩
    split at hs
    · cases hs; exact hgoto _
    · split at hs
      · cases hs; exact hgoto _
      · obtain ⟨key, -, rfl⟩ := Option.map_eq_some_iff.mp hs
        cases subscribe
        · exact hgoto _
        · exact ⟨silent_goto rfl rfl rfl, ⟨rfl, rfl, rfl, rfl, rfl, rfl⟩⟩
  case answer sid what =>
    cases what <;> cases hs <;> exact ⟨silent_goto rfl rfl rfl, ⟨rfl, rfl, rfl, rfl, rfl, rfl⟩⟩
  all_goals first
    | exact teardownStep_silent hs
    | (repeat' split at hs) <;> cases hs <;>
        exact ⟨silent_goto rfl rfl rfl, ⟨rfl, rfl, rfl, rfl, rfl, rfl⟩⟩

theorem hostStep_silent {x : Input} (hs : hostStep s x = some t) : Silent .host s t := by
  cases hst : s.stage .host <;> simp only [hostStep, hst] at hs
  case cleanSlot =>
    split at hs
    · split at hs
      · cases hs; exact ⟨fun _ _ => rfl, rfl, rfl⟩
      · cases hs; exact silent_goto rfl rfl rfl
    · cases hs; exact silent_goto rfl rfl rfl
  all_goals first
    | exact (teardownStep_silent hs).1
    | (repeat' split at hs) <;> cases hs <;> exact silent_goto rfl rfl rfl

/-- A job thread changes the table, its locks, and what was sent and updated. -/
theorem jobStep_frame {i : τ} {x : Input} (hs : jobStep s i x = some t) :
    ∃ ht locks arrived updates st, st.isJob = true ∧ t = { s with
      ht := ht
      bucketLocks := locks
      arrived := arrived
      updates := updates }.goto (.job i) st := by
  cases hst : s.stage (.job i) <;> simp only [jobStep, hst, reduceCtorEq] at hs
  case locking todo work acq =>
    cases todo with
    | nil => cases hs; exact ⟨_, _, _, _, _, rfl, rfl⟩
    | cons key todo =>
      simp only at hs
      split at hs
      · cases hs; exact ⟨_, _, _, _, _, rfl, rfl⟩
      · obtain ⟨u, hu, rfl⟩ := Option.map_eq_some_iff.mp hs
        obtain ⟨-, rfl⟩ := lock_eq hu
        exact ⟨_, _, _, _, _, rfl, rfl⟩
  case working work acq =>
    rcases work with _ | ⟨_ | _, work⟩ <;> cases hs <;> exact ⟨_, _, _, _, _, rfl, rfl⟩
  case notifying v fds keySent work acq =>
    have hdeliver : ∀ fd bytes st, st.isJob = true → ∃ ht locks arrived updates st',
        st'.isJob = true ∧ (s.deliver fd bytes).goto (.job i) st = { s with
          ht := ht
          bucketLocks := locks
          arrived := arrived
          updates := updates }.goto (.job i) st' := by
      intro fd bytes st hst
      obtain ⟨arrived, h⟩ := deliver_eq s fd bytes
      rw [h]
      exact ⟨_, _, _, _, _, hst, rfl⟩
    cases fds <;> cases v <;> cases keySent <;> cases hs <;>
      first | exact ⟨_, _, _, _, _, rfl, rfl⟩ | exact hdeliver _ _ _ rfl
  case unlocking acq => cases acq <;> cases hs <;> exact ⟨_, _, _, _, _, rfl, rfl⟩
  all_goals cases hs; exact ⟨_, _, _, _, _, rfl, rfl⟩

/-- A step of one thread is no step of another. -/
theorem stage_of_ne {x : Input} (hs : step s (.act a x) = some t) {b : Actor τ n} (hb : b ≠ a) :
    t.stage b = s.stage b := by
  cases a with
  | client i => exact (clientStep_silent hs).1.others b hb
  | host => exact (hostStep_silent hs).others b hb
  | job i =>
    obtain ⟨ht, locks, arrived, updates, st, -, rfl⟩ := jobStep_frame hs
    simp [State.goto, hb]

/-- What is no step of a thread changes open files and the two flags of the handler. -/
theorem step_env {l : Label τ n} (hl : l.actor = none) (hs : step s l = some t) :
    ∃ files control restart handlers, t = { s with
      files := files
      disconnectControl := control
      restartClients := restart
      handlers := handlers } := by
  cases l with
  | act b x => cases hl
  | signal => cases hs; exact ⟨_, _, _, _, rfl⟩
  | raise => simp only [step] at hs; split at hs <;> cases hs; exact ⟨_, _, _, _, rfl⟩
  | openFile fd => simp only [step] at hs; split at hs <;> cases hs; exact ⟨_, _, _, _, rfl⟩
  | closeFile fd => simp only [step] at hs; split at hs <;> cases hs; exact ⟨_, _, _, _, rfl⟩

theorem stage_of_actor {l : Label τ n} (hs : step s l = some t) {b : Actor τ n}
    (hb : l.actor ≠ some b) : t.stage b = s.stage b := by
  cases l with
  | act c x =>
    apply stage_of_ne hs
    rintro rfl
    exact hb rfl
  | _ =>
    obtain ⟨files, control, restart, handlers, rfl⟩ := step_env rfl hs
    rfl

end IstKvs.Server
