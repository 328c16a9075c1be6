import IstKvs.Server.Frames

/-! The bucket locks: a thread that is inside a section under the lock of a bucket is
the holder of that lock, so no two threads are inside sections of one bucket. -/

namespace IstKvs.Server

open IstKvs.Store IstKvs.Sessions IstKvs.Systems Function

variable {τ : Type*} {n : ℕ}

/-- The buckets whose locks the thread has taken and not released. -/
def Stage.held : Stage → List Bucket
  | .locking _ _ acq | .working _ acq | .notifying _ _ _ _ acq | .unlocking acq => acq
  | .subscribeFind _ key | .subscribeUnlock _ key _ | .unsubscribeFind _ key
  | .unsubscribeUnlock _ key | .walkFind _ key _ | .walkUnlock _ key _ => [key.index]
  | _ => []

/-- A job thread locks the bucket of every update of its call before it works, and
releases each once. -/
def Stage.Covered : Stage → Prop
  | .locking todo work acq => ∀ u ∈ work, u.key ∈ todo ∨ u.key.index ∈ acq
  | .working work acq => ∀ u ∈ work, u.key.index ∈ acq
  | .notifying u _ _ work acq => u.key.index ∈ acq ∧ ∀ v ∈ work, v.key.index ∈ acq
  | .unlocking acq => acq.Nodup
  | _ => True

structure Locked (s : State τ n) : Prop where
  covered : ∀ a, (s.stage a).Covered
  held : ∀ a, ∀ b ∈ (s.stage a).held, s.bucketLocks b = some a

theorem locked_initial : Locked (State.initial : State τ n) where
  covered a := by cases a <;> trivial
  held a b hb := by cases a <;> cases hb

namespace Locked

variable {s t : State τ n} {a : Actor τ n} {st : Stage} {b : Bucket}

/-- No two threads are inside sections of one bucket. -/
theorem unique (h : Locked s) {a' : Actor τ n} (hb : b ∈ (s.stage a).held)
    (hb' : b ∈ (s.stage a').held) : a' = a := by
  have := h.held a b hb
  rw [h.held a' b hb'] at this
  exact Option.some.inj this

variable [DecidableEq τ]

theorem goto (h : Locked s) {u : State τ n} (hu : u.stage = s.stage) (hc : st.Covered)
    (hself : ∀ b ∈ st.held, u.bucketLocks b = some a)
    (hothers : ∀ b c, c ≠ a → s.bucketLocks b = some c → u.bucketLocks b = some c) :
    Locked (u.goto a st) := by
  constructor
  · intro c
    by_cases hca : c = a
    · subst hca; simpa [State.goto] using hc
    · simpa [State.goto, hca, hu] using h.covered c
  · intro c b hb
    by_cases hca : c = a
    · subst hca
      exact hself b (by simpa [State.goto] using hb)
    · exact hothers b c hca (h.held c b (by simpa [State.goto, hca, hu] using hb))

/-- A step that takes and releases no lock. -/
theorem move (h : Locked s) {u : State τ n} (hu : u.stage = s.stage)
    (hl : u.bucketLocks = s.bucketLocks) (hc : st.Covered) (hheld : st.held ⊆ (s.stage a).held) :
    Locked (u.goto a st) :=
  h.goto hu hc (fun b hb => by rw [hl]; exact h.held a b (hheld hb)) fun b c _ hb => by rwa [hl]

theorem lock (h : Locked s) {u : State τ n} (hu : s.lock a b = some u) (hc : st.Covered)
    (hheld : st.held ⊆ b :: (s.stage a).held) : Locked (u.goto a st) := by
  obtain ⟨hfree, rfl⟩ := lock_eq hu
  refine h.goto rfl hc (fun c hcb => ?_) fun c d _ hd => ?_
  · by_cases hb : c = b
    · simp [hb]
    · simpa [hb] using h.held a c (by simpa [hb] using hheld hcb)
  · have hb : c ≠ b := by
      rintro rfl
      rw [hfree] at hd
      cases hd
    simpa [hb] using hd

theorem unlock (h : Locked s) (hb : b ∈ (s.stage a).held) (hc : st.Covered)
    (hheld : ∀ c ∈ st.held, c ≠ b ∧ c ∈ (s.stage a).held) : Locked ((s.unlock b).goto a st) := by
  refine h.goto rfl hc (fun c hcb => ?_) fun c d hd hdc => ?_
  · obtain ⟨hne, hin⟩ := hheld c hcb
    simpa [State.unlock, hne] using h.held a c hin
  · have hne : c ≠ b := by
      rintro rfl
      rw [h.held a c hb] at hdc
      exact hd (Option.some.inj hdc).symm
    simpa [State.unlock, hne] using hdc

theorem jobStep (h : Locked s) {i : τ} {x : Input} (hs : jobStep s i x = some t) : Locked t := by
  have hc := h.covered (.job i)
  cases hst : s.stage (.job i) <;> simp only [Server.jobStep, hst, reduceCtorEq] at hs <;>
    rw [hst] at hc
  case idle =>
    cases hs
    exact h.move rfl rfl (fun u hu => .inl (List.mem_map_of_mem hu)) (by simp [Stage.held])
  case locking todo work acq =>
    cases todo with
    | nil =>
      cases hs
      exact h.move rfl rfl (fun u hu => (hc u hu).resolve_left (by simp))
        (by simp [Stage.held, hst])
    | cons key todo =>
      simp only at hs
      split at hs
      next hk =>
        cases hs
        refine h.move rfl rfl (fun u hu => ?_) (by simp [Stage.held, hst])
        rcases hc u hu with hu | hu
        · rcases List.mem_cons.mp hu with rfl | hu
          · exact .inr hk
          · exact .inl hu
        · exact .inr hu
      next hk =>
        obtain ⟨u, hu, rfl⟩ := Option.map_eq_some_iff.mp hs
        refine h.lock hu (fun v hv => ?_) (by simp [Stage.held, hst])
        rcases hc v hv with hv | hv
        · rcases List.mem_cons.mp hv with rfl | hv
          · exact .inr List.mem_cons_self
          · exact .inl hv
        · exact .inr (List.mem_cons_of_mem _ hv)
  case working work acq =>
    cases work with
    | nil =>
      cases hs
      refine h.move rfl rfl ((List.nodup_finRange _).filter _) fun b hb => ?_
      simpa [Stage.held, lockedBuckets, hst] using hb
    | cons u work =>
      obtain ⟨hu, hw⟩ := List.forall_mem_cons.mp hc
      cases u with
      | write key value =>
        cases hs
        exact h.move rfl rfl ⟨hu, hw⟩ (by simp [Stage.held, hst])
      | delete key =>
        cases hs
        exact h.move rfl rfl ⟨hu, hw⟩ (by simp [Stage.held, hst])
  case notifying u fds keySent work acq =>
    cases fds with
    | nil =>
      cases u with
      | write key value =>
        cases hs
        exact h.move rfl rfl hc.2 (by simp [Stage.held, hst])
      | delete key =>
        cases hs
        exact h.move rfl rfl hc.2 (by simp [Stage.held, hst])
    | cons fd fds =>
      have hdeliver : ∀ bytes st, st.Covered → st.held = acq →
          Locked ((s.deliver fd bytes).goto (.job i) st) := by
        intro bytes st hc hheld
        obtain ⟨arrived, hd⟩ := deliver_eq s fd bytes
        have hsub : st.held ⊆ (s.stage (.job i)).held := by
          rw [hheld, hst]
          exact fun _ hb => hb
        rw [hd]
        exact h.move rfl rfl hc hsub
      cases keySent with
      | false => cases hs; exact hdeliver _ _ hc rfl
      | true => cases hs; exact hdeliver _ _ hc rfl
  case unlocking acq =>
    cases acq with
    | nil =>
      cases hs
      exact h.move rfl rfl trivial (by simp [Stage.held])
    | cons b acq =>
      cases hs
      obtain ⟨hb, hn⟩ := List.nodup_cons.mp hc
      refine h.unlock (by simp [Stage.held, hst]) hn fun c hcb => ⟨?_, ?_⟩
      · rintro rfl
        exact hb hcb
      · simpa [Stage.held, hst] using .inr hcb

theorem teardownStep (h : Locked s) (hs : teardownStep s a = some t) : Locked t := by
  cases hst : s.stage a <;> simp only [Server.teardownStep, hst, reduceCtorEq] at hs
  case walk sid rest =>
    cases rest with
    | nil =>
      cases hs
      exact h.move rfl rfl trivial (by simp [Stage.held])
    | cons k rest =>
      obtain ⟨key, -, hs⟩ := Option.bind_eq_some_iff.mp hs
      obtain ⟨u, hu, rfl⟩ := Option.map_eq_some_iff.mp hs
      exact h.lock hu trivial (by simp [Stage.held])
  case walkFind sid key rest =>
    cases hs
    exact h.move rfl rfl trivial (by simp [Stage.held, hst])
  case walkUnlock sid key rest =>
    cases hs
    exact h.unlock (by simp [Stage.held, hst]) trivial (by simp [Stage.held])
  case clear sid =>
    cases hs
    exact h.move rfl rfl trivial (by simp [Stage.held])
  case close sid kind =>
    cases kind <;> cases hs
    case req => exact h.move rfl rfl trivial (by simp [Stage.held])
    case resp => exact h.move rfl rfl trivial (by simp [Stage.held])
    case notif =>
      refine h.move rfl rfl ?_ ?_ <;> split_ifs <;> simp [Stage.held, Stage.Covered]
  case replyDisconnect sid =>
    cases hs
    exact h.move rfl rfl trivial (by simp [Stage.held])

theorem openStep (h : Locked s) {sid : Sid} {kind : Kind} {x : Input}
    {opened refused : Option Stage}
    (ho : ∀ st, opened = some st ∨ refused = some st → st.Covered ∧ st.held = [])
    (hs : openStep s a sid kind x opened refused = some t) : Locked t := by
  unfold Server.openStep at hs
  split_ifs at hs
  · obtain ⟨st, hst, rfl⟩ := Option.map_eq_some_iff.mp hs
    exact h.move rfl rfl (ho st (.inl hst)).1 (by simp [(ho st (.inl hst)).2])
  · obtain ⟨st, hst, rfl⟩ := Option.map_eq_some_iff.mp hs
    exact h.move rfl rfl (ho st (.inr hst)).1 (by simp [(ho st (.inr hst)).2])

theorem clientStep (h : Locked s) {i : Fin n} {x : Input} (hs : clientStep s i x = some t) :
    Locked t := by
  have hquiet : ∀ {u : State τ n} {st : Stage}, u.stage = s.stage → u.bucketLocks = s.bucketLocks →
      st.Covered → st.held = [] → Locked (u.goto (.client i) st) := by
    intro u st hu hl hc hh
    exact h.move hu hl hc (by simp [hh])
  cases hst : s.stage (.client i) <;> simp only [Server.clientStep, hst] at hs
  case subscribe sid key =>
    obtain ⟨u, hu, rfl⟩ := Option.map_eq_some_iff.mp hs
    exact h.lock hu trivial (by simp [Stage.held])
  case unsubscribe sid key =>
    obtain ⟨u, hu, rfl⟩ := Option.map_eq_some_iff.mp hs
    exact h.lock hu trivial (by simp [Stage.held])
  case subscribeFind sid key =>
    cases hs
    exact h.move rfl rfl trivial (by simp [Stage.held, hst])
  case unsubscribeFind sid key =>
    cases hs
    exact h.move rfl rfl trivial (by simp [Stage.held, hst])
  case subscribeUnlock sid key added =>
    cases hs
    refine h.unlock (by simp [Stage.held, hst]) ?_ ?_ <;> cases added <;>
      simp [Stage.held, Stage.Covered]
  case unsubscribeUnlock sid key =>
    cases hs
    exact h.unlock (by simp [Stage.held, hst]) trivial (by simp [Stage.held])
  case openPipe sid kind failed =>
    cases kind <;> refine h.openStep (fun st hst => ?_) hs <;>
      rcases hst with hst | hst <;> cases hst <;> exact ⟨trivial, rfl⟩
  case readKey sid subscribe =>
    split at hs
    · cases hs; exact hquiet rfl rfl trivial rfl
    · split at hs
      · cases hs; exact hquiet rfl rfl trivial rfl
      · obtain ⟨key, -, rfl⟩ := Option.map_eq_some_iff.mp hs
        cases subscribe <;> exact hquiet rfl rfl trivial rfl
  case answer sid what =>
    cases what <;> cases hs
    case refused => exact hquiet rfl rfl trivial rfl
    case subscribed => cases x.ok <;> exact hquiet rfl rfl trivial rfl
    case unsubscribed key => exact hquiet rfl rfl trivial rfl
  case replyConnect sid failed =>
    cases hs
    cases failed <;> exact hquiet rfl rfl trivial rfl
  case failed sid =>
    cases hs
    cases s.disconnectControl <;> exact hquiet rfl rfl trivial rfl
  all_goals first
    | exact h.teardownStep hs
    | (repeat' split at hs) <;> cases hs <;> exact hquiet rfl rfl trivial rfl

theorem hostStep (h : Locked s) {x : Input} (hs : hostStep s x = some t) : Locked t := by
  have hquiet : ∀ {u : State τ n} {st : Stage}, u.stage = s.stage → u.bucketLocks = s.bucketLocks →
      st.Covered → st.held = [] → Locked (u.goto .host st) := by
    intro u st hu hl hc hh
    exact h.move hu hl hc (by simp [hh])
  cases hst : s.stage .host <;> simp only [Server.hostStep, hst] at hs
  case hostCheck =>
    cases hs
    cases s.restartClients <;> exact hquiet rfl rfl trivial rfl
  case hostRead =>
    cases hs
    cases x.ok <;> exact hquiet rfl rfl trivial rfl
  case cleanSlot =>
    split at hs
    · split at hs
      · cases hs
        exact ⟨h.covered, h.held⟩
      · cases hs
        exact hquiet rfl rfl trivial rfl
    · cases hs
      exact hquiet rfl rfl trivial rfl
  all_goals first
    | exact h.teardownStep hs
    | (repeat' split at hs) <;> cases hs <;> exact hquiet rfl rfl trivial rfl

theorem step (h : Locked s) {l : Label τ n} (hs : step s l = some t) : Locked t := by
  cases l with
  | act a x =>
    cases a with
    | job i => exact h.jobStep hs
    | client i => exact h.clientStep hs
    | host => exact h.hostStep hs
  | _ =>
    obtain ⟨files, control, restart, handlers, rfl⟩ := step_env rfl hs
    exact ⟨h.covered, h.held⟩

end Locked

/-- In every run a thread inside a section under a bucket lock holds that lock. -/
theorem locked_of_run [DecidableEq τ] {ls : List (Label τ n)} {s : State τ n}
    (h : Run (stepOf step) State.initial ls s) : Locked s :=
  h.invariant locked_initial fun _ _ _ hu hs => hu.step hs

end IstKvs.Server
