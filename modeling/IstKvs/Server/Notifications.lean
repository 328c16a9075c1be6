import IstKvs.Server.Subscriptions

/-! What the subscriber lists say at the end: which runs leave no descriptor of a client
that a restart removed, and that without restarts every notification goes to the open
pipe of a session that asked for the key. -/

namespace IstKvs.Server

open IstKvs.Store IstKvs.Sessions IstKvs.Systems Function

variable {τ : Type*} {n : ℕ}

/-! ### Runs with orderly restarts -/

/-- The steps after which the lists are as the sessions left them. -/
def tidy (s : State τ n) (l : Label τ n) : Prop := orderly s l ∧ recorded s l

instance (s : State τ n) (l : Label τ n) : Decidable (tidy s l) :=
  inferInstanceAs (Decidable (_ ∧ _))

/-- What holds in every state of such a run. -/
structure Consistent (s : State τ n) : Prop where
  locked : Locked s
  living : Living s
  tracked : Tracked s

theorem consistent_initial : Consistent (State.initial : State τ n) :=
  ⟨locked_initial, living_initial, tracked_initial⟩

section Tidy
variable [DecidableEq τ] {s t : State τ n} {ls : List (Label τ n)}

theorem Consistent.step (h : Consistent s) {l : Label τ n} (hl : tidy s l)
    (hs : step s l = some t) : Consistent t :=
  ⟨h.locked.step hs, h.living.step hl.1 hs, h.tracked.step h.locked h.living hl.1 hl.2 hs⟩

theorem consistent_of_run (hrun : Run (guarded tidy (stepOf step)) State.initial ls s) :
    Consistent s :=
  hrun.invariant consistent_initial fun _ _ _ hu hs => hu.step hs.1 hs.2

omit [DecidableEq τ] in
/-- A descriptor in a list is the open notification pipe of a session that asked for the key. -/
theorem Consistent.owner (h : Consistent s) {fd : Fd} {key : CStr} (hs : Subscribed s.ht fd key) :
    ∃ sid, s.files fd = some (.pipe sid .notif) ∧ key ∈ s.requested sid := by
  obtain ⟨sid, hfd⟩ := h.tracked.owned fd key hs
  exact ⟨sid, hfd, h.tracked.requested sid key ⟨fd, hfd, hs⟩⟩

/-- The list of the key has the descriptor of a client that a restart removed, unless it has
become that of a session that asked for the key itself. -/
def Orphaned (s : State τ n) (sid : Sid) (key : CStr) : Prop :=
  s.cleaned sid = true ∧ s.freed sid = true ∧ Subscribed s.ht (s.client sid).fdNotif key ∧
    ∀ sid', s.files (s.client sid).fdNotif = some (.pipe sid' .notif) → key ∉ s.requested sid'

/-- No restart and no request is in progress. -/
def AtRest (s : State τ n) : Prop :=
  s.stage .host = .hostCheck ∧ s.restartClients = false ∧ s.handlers = 0 ∧
    ∀ i, (s.stage (.client i)).phase.session = none ∨
      ∃ sid, (s.stage (.client i)).phase = .parked sid

/-- When restarts begin only with clients between requests, no list keeps a removed client, at
rest and before. -/
theorem not_orphaned_of_run (hrun : Run (guarded tidy (stepOf step)) State.initial ls s)
    (sid : Sid) (key : CStr) : ¬ Orphaned s sid key := by
  rintro ⟨-, -, hs, hno⟩
  obtain ⟨sid', hfd, hreq⟩ := (consistent_of_run hrun).owner hs
  exact hno sid' hfd hreq

end Tidy

/-- Key `a` exists, and a client asks for it until its thread is to record it. -/
def subscribing : List (Label Unit 1) :=
  writes () keyA valueA 7 ++ connects lone 1 2 3 ++ subscribes lone keyA.str 3

/-- The client is removed in a restart, and its thread then leaves. -/
def interrupted : List (Label Unit 1) :=
  subscribing ++ [.signal, .raise] ++ steps .host 12 ++ steps (.client lone) 5

/-- The restart falls between the subscriber list and the client's list: the thread is to
record the key when the client is removed. -/
theorem orphaned_at_rest :
    ∃ ls, ∃ s : State Unit 1, Run (stepOf step) State.initial ls s ∧ AtRest s ∧
      ∃ sid key, Orphaned s sid key := by
  obtain ⟨s, hs, hhost, hrestart, hhandlers, hidle, hcleaned, hfreed, hlist, hfd⟩ :
      ∃ s : State Unit 1, execute step State.initial interrupted = some s ∧
        s.stage .host = .hostCheck ∧ s.restartClients = false ∧ s.handlers = 0 ∧
        s.stage (.client 0) = .idle ∧ s.cleaned 0 = true ∧ s.freed 0 = true ∧
        subscribers s.ht keyA.str = some [1] ∧ (s.client 0).fdNotif = 1 :=
    ⟨_, rfl, rfl, rfl, rfl, rfl, rfl, rfl, rfl, rfl⟩
  have hclosed : (execute step (State.initial : State Unit 1) interrupted).map (·.files 1) =
      some none := by decide +kernel
  rw [hs, Option.map_some, Option.some_inj, ← hfd] at hclosed
  rw [← hfd] at hlist
  refine ⟨_, s, run_of_execute hs, ⟨hhost, hrestart, hhandlers, fun i => ?_⟩, 0, keyA.str,
    hcleaned, hfreed, ⟨_, hlist, List.mem_singleton_self _⟩, fun sid h => ?_⟩
  · obtain rfl : i = 0 := Subsingleton.elim _ _
    rw [hidle]
    exact .inl rfl
  · rw [hclosed] at h
    cases h

/-- The restart falls into the read of the next opcode: the removed client is in no list. -/
theorem not_orphaned_of_run_reading :
    ∃ ls, ∃ s : State Unit 1, Run (guarded tidy (stepOf step)) State.initial ls s ∧
      s.cleaned 0 = true ∧ s.freed 0 = true ∧ ¬ Orphaned s 0 keyA.str := by
  have hrun : Run (guarded (fun s l => decide (tidy s l) = true) (stepOf step)) State.initial
      (subscribing ++ steps (.client 0) 3 ++ [.signal, .raise] ++ steps .host 15) _ :=
    run_of_executeGuarded rfl
  have htidy : Run (guarded tidy (stepOf step)) State.initial _ _ :=
    hrun.of_decided
  exact ⟨_, _, htidy, rfl, rfl, not_orphaned_of_run htidy 0 keyA.str⟩

/-! ### Runs without restarts -/

/-- Steps without the signal and with successful allocations. -/
def Label.Ordinary : Label τ n → Prop
  | .act _ x => x.alloc = true ∧ x.mem = .ok
  | .signal => False
  | _ => True

instance (l : Label τ n) : Decidable l.Ordinary :=
  match l with
  | .act _ x => inferInstanceAs (Decidable (x.alloc = true ∧ x.mem = .ok))
  | .signal => isFalse id
  | .raise | .openFile _ | .closeFile _ => isTrue trivial

theorem Label.Ordinary.ne_signal {l : Label τ n} (h : l.Ordinary) : l ≠ .signal := by
  rintro rfl
  exact h

/-- The host does not clean, and no flag of the handler is set. -/
structure Unsignalled (s : State τ n) : Prop where
  handlers : s.handlers = 0
  restart : s.restartClients = false
  control : s.disconnectControl = false
  cleaned : ∀ sid, s.cleaned sid = false
  host : s.stage .host = .hostCheck ∨ s.stage .host = .hostRead ∨ s.stage .host = .resetControl ∨
    s.stage .host = .enqueue

theorem unsignalled_initial : Unsignalled (State.initial : State τ n) :=
  ⟨rfl, rfl, rfl, fun _ => rfl, .inl rfl⟩

namespace Unsignalled

variable {s t : State τ n} (h : Unsignalled s)
include h

theorem orderly (l : Label τ n) : orderly s l := by
  have hcleaning : s.cleaning = none := by
    unfold State.cleaning
    rcases h.host with hst | hst | hst | hst <;> rw [hst, if_neg (by simp)]
  cases l with
  | act a x =>
    cases a with
    | job i => trivial
    | client i =>
      intro sid opcode _ hc
      rw [h.cleaned] at hc
      cases hc
    | host =>
      intro sid hsid
      rw [hcleaning] at hsid
      cases hsid
  | _ => trivial

variable [DecidableEq τ]

theorem hostStep {x : Input} (hs : hostStep s x = some t) : Unsignalled t := by
  rcases h.host with hst | hst | hst | hst <;> simp only [Server.hostStep, hst] at hs <;> cases hs
  · refine ⟨h.handlers, h.restart, h.control, h.cleaned, ?_⟩
    simp [stage_goto, h.restart]
  · refine ⟨h.handlers, h.restart, h.control, h.cleaned, ?_⟩
    cases x.ok <;> simp [stage_goto]
  · exact ⟨h.handlers, h.restart, rfl, h.cleaned, by simp [stage_goto]⟩
  · exact ⟨h.handlers, h.restart, h.control, h.cleaned, by simp [stage_goto]⟩

theorem step {l : Label τ n} (hl : l ≠ .signal) (hs : step s l = some t) : Unsignalled t := by
  cases l with
  | act a x =>
    cases a with
    | job i =>
      obtain ⟨ht, locks, arrived, updates, st, -, rfl⟩ := jobStep_frame hs
      exact ⟨h.handlers, h.restart, h.control, h.cleaned, by simpa [stage_goto] using h.host⟩
    | client i =>
      obtain ⟨hsilent, hflags⟩ := clientStep_silent hs
      refine ⟨?_, ?_, ?_, fun sid => ?_, ?_⟩
      · rw [hflags.handlers, h.handlers]
      · rw [hflags.restart, h.restart]
      · rw [hflags.control, h.control]
      · rw [hflags.cleaned, h.cleaned]
      · rw [hsilent.others .host nofun]
        exact h.host
    | host => exact h.hostStep hs
  | signal => exact absurd rfl hl
  | raise =>
    simp only [Server.step, h.handlers] at hs
    cases hs
  | openFile fd =>
    simp only [Server.step] at hs
    split at hs <;> cases hs
    exact ⟨h.handlers, h.restart, h.control, h.cleaned, h.host⟩
  | closeFile fd =>
    simp only [Server.step] at hs
    split at hs <;> cases hs
    exact ⟨h.handlers, h.restart, h.control, h.cleaned, h.host⟩

end Unsignalled

section Ordinary
variable [DecidableEq τ] {s : State τ n} {ls : List (Label τ n)}

omit [DecidableEq τ] in
theorem recorded_of_ordinary {l : Label τ n} (hl : l.Ordinary) : recorded s l := by
  cases l with
  | act a x =>
    cases a with
    | client i => exact fun _ _ _ => hl.1
    | _ => trivial
  | _ => trivial

theorem unsignalled_of_run (hrun : Run (guarded (fun _ l => l.Ordinary) (stepOf step))
    State.initial ls s) : Unsignalled s ∧ Consistent s :=
  hrun.invariant (I := fun s => Unsignalled s ∧ Consistent s)
    ⟨unsignalled_initial, consistent_initial⟩ fun _ _ _ hu hs =>
      ⟨hu.1.step hs.1.ne_signal hs.2, hu.2.step ⟨hu.1.orderly _, recorded_of_ordinary hs.1⟩ hs.2⟩

/-- Without restarts and allocation failures no list has a descriptor twice, every block of a
notification is written to the open notification pipe of a session that has asked for the key
and has not been answered an unsubscription from it since, and the notification pipe that is
closed is in no list. -/
theorem notifications_of_run (hrun : Run (guarded (fun _ l => l.Ordinary) (stepOf step))
    State.initial ls s) :
    (∀ b, ∀ node ∈ s.ht b, node.subscriber.Nodup) ∧
      (∀ t u fd fds keySent work acq, s.stage (.job t) = .notifying u (fd :: fds) keySent work acq →
        ∃ sid, s.files fd = some (.pipe sid .notif) ∧ u.key.str ∈ s.requested sid) ∧
      ∀ a sid, s.stage a = .close sid .notif →
        ∀ b, ∀ node ∈ s.ht b, (s.client sid).fdNotif ∉ node.subscriber := by
  obtain ⟨-, h⟩ := unsignalled_of_run hrun
  have hsub := h.tracked.sub
  refine ⟨fun b node hn => ?_, fun t u fd fds keySent work acq hst => ?_,
    fun a sid hst b node hn hfd => ?_⟩
  · exact hsub.nodup node.key _ (subscribers_of_mem hsub.table hn)
  · exact h.owner (h.tracked.pending (.job t) fd u.key.str (by rw [hst]; exact List.mem_cons_self))
  · have hphase : (s.stage a).phase = .tearing sid (.notif :: [.resp]) := by rw [hst]; rfl
    exact h.tracked.not_subscribed_close h.living hphase (by rw [hst]; rfl) node.key
      ⟨node.subscriber, subscribers_of_mem hsub.table hn, hfd⟩

end Ordinary

/-- A second write of the key is about to notify the client. -/
theorem notifications_of_run_second :
    ∃ ls, ∃ s : State Unit 1,
      Run (guarded (fun _ l => l.Ordinary) (stepOf step)) State.initial ls s ∧
      s.stage (.job ()) = .notifying (.write keyA valueA) [1] false [] [0] ∧
      ∃ sid, s.files 1 = some (.pipe sid .notif) ∧ keyA.str ∈ s.requested sid := by
  have hrun : Run (guarded (fun _ l => decide (Label.Ordinary l) = true) (stepOf step))
      State.initial (subscribing ++ steps (.client 0) 3 ++ writes () keyA valueA 3) _ :=
    run_of_executeGuarded rfl
  have hordinary : Run (guarded (fun _ l => l.Ordinary) (stepOf step)) State.initial _ _ :=
    hrun.of_decided
  exact ⟨_, _, hordinary, rfl, (notifications_of_run hordinary).2.1 () _ 1 [] false [] [0] rfl⟩

end IstKvs.Server
