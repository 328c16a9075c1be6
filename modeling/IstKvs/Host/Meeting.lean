import IstKvs.Host.Handshake
import IstKvs.Systems.Tally

/-! Every client gets its session. Where a client is not done some party goes on, and a bound
on what all have still to do goes down, except while the host reads its empty pipe. -/

namespace IstKvs.Host.Handshake

open IstKvs.Systems Function

variable {κ ι : Type*}

section Progress
variable [DecidableEq κ] [DecidableEq ι] [Fintype ι] {s t : Connecting κ ι} {c : κ} {i : ι}

/-- The host finds no message. -/
def spins (s : Connecting κ ι) : Mover κ ι → Prop
  | .host => s.queue.host = .reading ∧ s.serverPipe = []
  | _ => False

omit [DecidableEq κ] in
theorem Queued.exists_take (h : Queued s) (hp : s.queue.client i = .take) :
    ∃ q, Host.clientStep s.queue i = some q := by
  have hlt := h.counts.take_lt hp
  have hmutex := (h.ring.mutex i).mp (by rw [hp]; rfl)
  have hout := h.ring.outIndex
  rw [State.outBehind, hmutex, Option.elim_some, hp] at hout
  have hslot := h.ring.slots s.queue.taken.length le_rfl hlt
  have hget : s.queue.clientsBuffer s.queue.outIndex =
      some s.queue.stored[s.queue.taken.length] := by
    rw [hout]
    exact hslot.trans (List.getElem?_eq_getElem hlt)
  rw [Host.clientStep, hp]
  simp only [hget, Option.map_some]
  exact ⟨_, rfl⟩

omit [DecidableEq κ] [DecidableEq ι] [Fintype ι] in
/-- When no client thread can go on, the two parties of a session have opened their pipes. -/
theorem Paired.one_steps (h : Paired s) (hi : s.session i = some c)
    (hclient : (s.client c).step End.other (s.came c) = none)
    (hthread : (s.thread i).step End.other (s.came c) = none) :
    (s.client c).ends = [] ∧ (s.thread i).ends = [] := by
  by_contra hne
  rw [not_and_or] at hne
  rcases (h.client c).one_steps End.other_other (h.thread i c hi) hne with ⟨r, hr⟩ | ⟨r, hr⟩
  · rw [hclient] at hr
    cases hr
  · rw [hthread] at hr
    cases hr

theorem Orderly.session_goes_on (h : Orderly s) (hp : s.queue.client i = .session) :
    (∃ c t, clientMove s c = some t) ∨ ∃ t, threadMove s i = some t := by
  have hserving := h.paired.serving i
  rw [hp] at hserving
  obtain ⟨c, hc⟩ := Option.isSome_iff_exists.mp hserving
  by_contra hno
  rw [not_or, not_exists, not_exists] at hno
  obtain ⟨hclient, hthread⟩ := hno
  have hclient : clientMove s c = none := Option.eq_none_iff_forall_ne_some.mpr fun t ht =>
    hclient c ⟨t, ht⟩
  have hthread : sessionMove s i c = none := by
    refine Option.eq_none_iff_forall_ne_some.mpr fun t ht => hthread t ?_
    rw [threadMove, hp]
    simp only [hc, Option.bind_some, ht]
  have hnil : ∀ p : Party End, p.ends = [] → p.step End.other (s.came c) = none := by
    rintro ⟨ends, waits⟩ rfl
    rfl
  have hstep : (s.client c).step End.other (s.came c) = none := by
    by_cases hends : (s.client c).ends = []
    · exact hnil _ hends
    · cases hplace : s.place c with
      | opening =>
        rw [clientMove, hplace] at hclient
        simpa [hends] using hclient
      | start => simp [clientMove, hplace] at hclient
      | answer | connected | done =>
        exact absurd (h.paired.opened c (by rw [hplace]; rfl)) hends
  have hstep' : (s.thread i).step End.other (s.came c) = none := by
    by_cases hends : (s.thread i).ends = []
    · exact hnil _ hends
    · simpa [sessionMove, hends] using hthread
  obtain ⟨hends, hends'⟩ := h.paired.one_steps hc hstep hstep'
  -- all pipes are open: the answer, the client's session or the end of the thread's is next
  have hanswered : s.answered c = true := by
    by_contra hnot
    simp [sessionMove, hends', hnot] at hthread
  have hplace : s.place c ≠ .done := by
    intro hdone
    simp [sessionMove, hends', hanswered, hdone, clientStep, hp] at hthread
  cases hp' : s.place c <;> simp [clientMove, hp', hends, hanswered] at hclient
  exact hplace hp'

/-- A client thread goes on, unless it waits for a pointer or for the mutex, or its client goes
on. -/
theorem Orderly.thread_goes_on (h : Orderly s)
    (hwait : s.queue.client i = .wait → 0 < s.queue.readSem)
    (hlock : s.queue.client i = .lock → s.queue.clientsBufferMutex = none) :
    (∃ c t, clientMove s c = some t) ∨ ∃ t, threadMove s i = some t := by
  have hmove : ∀ q, clientStep s.queue i = some q → s.queue.client i ≠ .session →
      ∃ t, threadMove s i = some t := by
    intro q hq hns
    rw [threadMove]
    cases hp : s.queue.client i with
    | session => exact absurd hp hns
    | _ => exact ⟨_, by rw [hq]; rfl⟩
  cases hp : s.queue.client i with
  | session => exact h.session_goes_on hp
  | wait =>
    exact .inr (hmove _ (by rw [clientStep, hp]; exact if_pos (hwait hp)) (by simp [hp]))
  | lock =>
    exact .inr (hmove _ (by rw [clientStep, hp]; exact if_pos (hlock hp)) (by simp [hp]))
  | take =>
    obtain ⟨q, hq⟩ := h.queued.exists_take hp
    exact .inr (hmove q hq (by simp [hp]))
  | free | advance | unlock | post =>
    exact .inr (hmove _ (by rw [clientStep, hp]) (by simp [hp]))

omit [DecidableEq κ] [DecidableEq ι] in
theorem Queued.mutex_free (h : Queued s)
    (hstage : ∀ i, s.queue.client i = .wait ∨ s.queue.client i = .lock) :
    s.queue.clientsBufferMutex = none := by
  cases hm : s.queue.clientsBufferMutex with
  | none => rfl
  | some j =>
    have hcritical := (h.ring.mutex j).mpr hm
    rcases hstage j with hj | hj <;> rw [hj] at hcritical <;> cases hcritical

omit [DecidableEq κ] [DecidableEq ι] in
theorem claims_of_wait (hwait : ∀ i, s.queue.client i = .wait) : s.queue.claims = 0 := by
  simp [State.claims, hwait, ClientStage.claim]

/-- Where neither a client nor a client thread goes on, the threads wait for a pointer that the
host has not posted. -/
theorem Orderly.all_wait (h : Orderly s) (hclient : ∀ c, clientMove s c = none)
    (hthread : ∀ i, threadMove s i = none) :
    (∀ i, s.queue.client i = .wait) ∧ ((∃ _ : ι, True) → s.queue.readSem = 0) := by
  have hstays : ∀ i, ¬ ((s.queue.client i = .wait → 0 < s.queue.readSem) ∧
      (s.queue.client i = .lock → s.queue.clientsBufferMutex = none)) := by
    rintro i ⟨hwait, hlock⟩
    rcases h.thread_goes_on hwait hlock with ⟨c, t, ht⟩ | ⟨t, ht⟩
    · rw [hclient c] at ht
      cases ht
    · rw [hthread i] at ht
      cases ht
  have hstage : ∀ i, s.queue.client i = .wait ∨ s.queue.client i = .lock := by
    intro i
    by_contra hother
    rw [not_or] at hother
    exact hstays i ⟨fun hp => absurd hp hother.1, fun hp => absurd hp hother.2⟩
  have hmutex := h.queued.mutex_free hstage
  have hwait : ∀ i, s.queue.client i = .wait := fun i => (hstage i).resolve_right fun hi =>
    hstays i ⟨fun hp => by simp [hi] at hp, fun _ => hmutex⟩
  refine ⟨hwait, ?_⟩
  rintro ⟨i, -⟩
  refine Nat.eq_zero_of_not_pos fun hpos => hstays i ⟨fun _ => hpos, fun hp => ?_⟩
  simp [hwait i] at hp

omit [DecidableEq κ] [DecidableEq ι] in
theorem Orderly.host_goes_on (h : Orderly s) (hwait : ∀ i, s.queue.client i = .wait)
    (hread : s.queue.readSem = 0) (hspin : ¬ spins s .host) : ∃ t, hostMove s = some t := by
  have hplain : ∀ {q}, hostStep s.queue true = some q → s.queue.host ≠ .reading →
      ∃ t, hostMove s = some t := by
    intro q hq hr
    unfold hostMove
    split
    next hr' _ => exact absurd hr' hr
    next hr' _ => exact absurd hr' hr
    next => exact ⟨_, by rw [hq]; rfl⟩
  cases hst : s.queue.host with
  | reading =>
    cases hpipe : s.serverPipe with
    | nil => exact absurd ⟨hst, hpipe⟩ hspin
    | cons c rest =>
      unfold hostMove
      rw [hst, hpipe, hostStep, hst]
      exact ⟨_, rfl⟩
  | blocked =>
    -- every token is back when no pointer is on its way
    have htokens := h.queued.counts.tokens
    have hreads := h.queued.counts.reads
    have hclaims := claims_of_wait hwait
    have hdebts : s.queue.debts = 0 := by simp [State.debts, hwait, ClientStage.debt]
    simp only [hst, hread, hclaims, hdebts, HostStage.unposted, HostStage.token, State.pending,
      State.extra, h.queued.quiet.restartClients, h.queued.quiet.mainHandler,
      h.queued.quiet.hostHandler, maxSessionCount, Bool.toNat_false, Bool.false_and]
      at htokens hreads
    have hfree : 0 < s.queue.writeSem := by omega
    exact hplain (by rw [hostStep, hst]; exact if_pos hfree) (by simp [hst])
  | wait =>
    have hstep : ∃ q, hostStep s.queue true = some q := by
      rw [hostStep, hst]
      dsimp only
      split_ifs <;> exact ⟨_, rfl⟩
    obtain ⟨q, hq⟩ := hstep
    exact hplain hq (by simp [hst])
  | alloc => exact hplain (by rw [hostStep, hst]; rfl) (by simp [hst])
  | check | restart | resetRestart | resetControl | failed | store | advance | postRead =>
    exact hplain (by rw [hostStep, hst]) (by simp [hst])

omit [DecidableEq κ] [DecidableEq ι] in
theorem Orderly.done_of_idle (h : Orderly s) (hwait : ∀ i, s.queue.client i = .wait)
    (hread : s.queue.readSem = 0) (hspin : spins s .host) (hc : s.place c ≠ .start) :
    s.place c = .done := by
  obtain ⟨hst, hpipe⟩ := hspin
  have hreads := h.queued.counts.reads
  have hclaims := claims_of_wait hwait
  simp only [hst, hread, hclaims, HostStage.unposted] at hreads
  have hmutex := h.queued.mutex_free fun i => .inl (hwait i)
  have hfreed := congrArg List.length h.queued.ring.freed
  rw [State.held, hmutex, Option.elim_none, List.append_nil] at hfreed
  have halloc := h.queued.numbered.allocated
  have howners := h.queued.owners
  rw [hst] at halloc howners
  simp only [unstored, unallocated] at halloc howners
  have hall : s.served = s.owners := List.take_of_length_le (by omega)
  have hmem : c ∈ s.served := by
    have harrived := (h.queued.arrived c).mpr hc
    rwa [hpipe, List.append_nil, ← hall] at harrived
  refine (h.paired.served c hmem).resolve_left ?_
  rintro ⟨i, hi⟩
  have hserving := h.paired.serving i
  rw [hi, hwait i] at hserving
  cases hserving

/-- While a client is not done, somebody goes on, and not only the host on its empty pipe. -/
theorem Orderly.exists_move [Nonempty ι] (h : Orderly s) (hc : s.place c ≠ .done) :
    ∃ m t, move s m = some t ∧ ¬ spins s m := by
  by_contra hno
  push Not at hno
  have hclient : ∀ c, clientMove s c = none := fun c =>
    Option.eq_none_iff_forall_ne_some.mpr fun t ht => hno (.client c) t ht
  have hthread : ∀ i, threadMove s i = none := fun i =>
    Option.eq_none_iff_forall_ne_some.mpr fun t ht => hno (.thread i) t ht
  obtain ⟨hwait, hread⟩ := h.all_wait hclient hthread
  obtain ⟨i⟩ := ‹Nonempty ι›
  have hread := hread ⟨i, trivial⟩
  have hspin : spins s .host := by
    by_contra hspin
    obtain ⟨t, ht⟩ := h.host_goes_on hwait hread hspin
    exact hspin (hno .host t ht)
  have hstart : s.place c ≠ .start := by
    intro hp
    have hmove := hclient c
    rw [clientMove, hp] at hmove
    cases hmove
  exact hc (h.done_of_idle hwait hread hspin hstart)

end Progress

/-! ### What is left to do -/

def placeWork : ClientPlace → ℕ
  | .start => 24
  | .opening => 3
  | .answer => 2
  | .connected => 1
  | .done => 0

def stageWork : ClientStage → ℕ
  | .wait => 0
  | .lock => 13
  | .take => 12
  | .free _ => 11
  | .advance => 4
  | .unlock => 3
  | .post => 2
  | .session => 1

def hostWork : HostStage → ℕ
  | .resetControl => 19
  | .alloc => 18
  | .store _ => 17
  | .advance => 16
  | .postRead => 15
  | _ => 0

/-- The stages of the host in front of a message. -/
def loopWork : HostStage → ℕ
  | .restart => 6
  | .resetRestart | .failed => 5
  | .wait => 4
  | .blocked => 3
  | .check => 2
  | .reading => 1
  | _ => 0

/-- A bound on the steps left until all clients are done, without those of the host in front of a
message. A message or a pointer costs more than what is done with it. -/
def Connecting.work [Fintype κ] [Fintype ι] (s : Connecting κ ι) : ℕ :=
  tally (fun _ => placeWork) s.place + tally (fun _ => Party.remaining) s.client +
    tally (fun _ b => (!b).toNat) s.answered + 20 * s.serverPipe.length + hostWork s.queue.host +
    14 * s.queue.readSem + tally (fun _ => stageWork) s.queue.client +
    tally (fun _ => Party.remaining) s.thread

def Connecting.rank [Fintype κ] [Fintype ι] (s : Connecting κ ι) : ℕ :=
  6 * s.work + loopWork s.queue.host

section Work
variable [DecidableEq κ] [DecidableEq ι] [Fintype κ] [Fintype ι] {s t : Connecting κ ι} {c : κ}
  {i : ι}

omit [DecidableEq κ] [Fintype κ] in
/-- A client thread has less to do after a step; what it does with the pipes of a client is still
to come when it frees the pointer. -/
theorem clientStep_work {q q' : State ι} (hs : clientStep q i = some q') :
    14 * q'.readSem + tally (fun _ => stageWork) q'.client + 1 ≤
        14 * q.readSem + tally (fun _ => stageWork) q.client ∧
      ((∃ p, q.client i = .free p) → 14 * q'.readSem + tally (fun _ => stageWork) q'.client + 7 ≤
        14 * q.readSem + tally (fun _ => stageWork) q.client) := by
  unfold clientStep at hs
  cases hst : q.client i <;> simp only [hst] at hs
  case take =>
    obtain ⟨p, -, rfl⟩ := Option.map_eq_some_iff.mp hs
    refine ⟨?_, by simp⟩
    rw [Nat.add_assoc]
    exact Nat.add_le_add_left (tally_update_le (by simp [hst, stageWork])) _
  case wait =>
    -- the thread takes a pointer that was counted in the semaphore
    split_ifs at hs
    obtain rfl := Option.some.inj hs
    have hmove := tally_update (fun _ => stageWork) q.client i .lock
    simp only [hst, State.goto, stageWork] at hmove ⊢
    exact ⟨by omega, by simp⟩
  case free p =>
    obtain rfl := Option.some.inj hs
    have hless : tally (fun _ => stageWork) (q.goto i .advance).client + 7 ≤
        tally (fun _ => stageWork) q.client := tally_update_le (by simp [hst, stageWork])
    simp only [State.goto] at hless ⊢
    exact ⟨by omega, fun _ => by omega⟩
  all_goals try split_ifs at hs
  all_goals
    obtain rfl := Option.some.inj hs
    refine ⟨?_, by simp⟩
    rw [Nat.add_assoc]
    exact Nat.add_le_add_left (tally_update_le (by simp [hst, stageWork])) _

omit [DecidableEq ι] in
theorem goto_work {p : ClientPlace} (h : placeWork p < placeWork (s.place c)) :
    (s.goto c p).work < s.work := by
  have hless : tally (fun _ => placeWork) (update s.place c p) + 1 ≤
      tally (fun _ => placeWork) s.place := tally_update_le h
  simp only [Connecting.work, Connecting.goto]
  omega

omit [DecidableEq ι] in
theorem clientMove_work (hs : clientMove s c = some t) :
    t.work < s.work ∧ t.queue.host = s.queue.host := by
  unfold clientMove at hs
  cases hp : s.place c <;> simp only [hp] at hs
  case start =>
    obtain rfl := Option.some.inj hs
    have hmove := tally_update (fun _ => placeWork) s.place c .opening
    simp only [hp, Connecting.work, Connecting.goto, placeWork, List.length_append,
      List.length_singleton] at hmove ⊢
    exact ⟨by omega, trivial⟩
  case opening =>
    split_ifs at hs with hends
    · obtain rfl := Option.some.inj hs
      exact ⟨goto_work (by simp [hp, placeWork]), rfl⟩
    · obtain ⟨⟨came, p⟩, hstep, rfl⟩ := Option.map_eq_some_iff.mp hs
      have hless : tally (fun _ => Party.remaining) (update s.client c p) + 1 ≤
          tally (fun _ => Party.remaining) s.client :=
        tally_update_le (Party.remaining_step hstep).le
      simp only [Connecting.work]
      exact ⟨by omega, trivial⟩
  case answer =>
    split_ifs at hs
    obtain rfl := Option.some.inj hs
    exact ⟨goto_work (by simp [hp, placeWork]), rfl⟩
  case connected =>
    obtain rfl := Option.some.inj hs
    exact ⟨goto_work (by simp [hp, placeWork]), rfl⟩
  case done => cases hs

theorem sessionMove_work (hs : sessionMove s i c = some t) :
    t.work < s.work ∧ t.queue.host = s.queue.host := by
  unfold sessionMove at hs
  split_ifs at hs with hends hanswered hdone
  · obtain ⟨q, hq, rfl⟩ := Option.map_eq_some_iff.mp hs
    obtain ⟨hless, -⟩ := clientStep_work hq
    obtain ⟨hhost, -⟩ := clientStep_frame hq
    simp only [Connecting.work, hhost]
    exact ⟨by omega, trivial⟩
  · obtain rfl := Option.some.inj hs
    have hless : tally (fun _ b => (!b).toNat) (update s.answered c true) + 1 ≤
        tally (fun _ b => (!b).toNat) s.answered := tally_update_le (by simp [hanswered])
    simp only [Connecting.work]
    exact ⟨by omega, trivial⟩
  · obtain ⟨⟨came, p⟩, hstep, rfl⟩ := Option.map_eq_some_iff.mp hs
    have hless : tally (fun _ => Party.remaining) (update s.thread i p) + 1 ≤
        tally (fun _ => Party.remaining) s.thread :=
      tally_update_le (Party.remaining_step hstep).le
    simp only [Connecting.work]
    exact ⟨by omega, trivial⟩

theorem threadMove_work (hs : threadMove s i = some t) :
    t.work < s.work ∧ t.queue.host = s.queue.host := by
  unfold threadMove at hs
  split at hs
  next p hp =>
    obtain ⟨q, hq, rfl⟩ := Option.map_eq_some_iff.mp hs
    obtain ⟨-, hless⟩ := clientStep_work hq
    have hless := hless ⟨p, hp⟩
    obtain ⟨hhost, -⟩ := clientStep_frame hq
    have hmove := tally_update (fun _ => Party.remaining) s.thread i ⟨serverOpens, false⟩
    have hsix : (⟨serverOpens, false⟩ : Party End).remaining = 6 := rfl
    simp only [Connecting.work, hhost, hsix] at hmove ⊢
    exact ⟨by omega, trivial⟩
  next =>
    obtain ⟨c, -, hs⟩ := Option.bind_eq_some_iff.mp hs
    exact sessionMove_work hs
  next =>
    obtain ⟨q, hq, rfl⟩ := Option.map_eq_some_iff.mp hs
    obtain ⟨hless, -⟩ := clientStep_work hq
    obtain ⟨hhost, -⟩ := clientStep_frame hq
    simp only [Connecting.work, hhost]
    exact ⟨by omega, trivial⟩

omit [DecidableEq κ] [DecidableEq ι] [Fintype κ] [Fintype ι] in
/-- A step of the host in the queue costs what it leaves to the client threads. -/
theorem hostStep_work {q q' : State ι} (hs : hostStep q true = some q')
    (hquiet : q.restartClients = false) (hr : q.host ≠ .reading) :
    hostWork q'.host + 14 * q'.readSem ≤ hostWork q.host + 14 * q.readSem ∧
      6 * (hostWork q'.host + 14 * q'.readSem) + loopWork q'.host <
        6 * (hostWork q.host + 14 * q.readSem) + loopWork q.host := by
  unfold Host.hostStep at hs
  cases hst : q.host <;> simp only [hst] at hs
  case reading => exact absurd hst hr
  case check =>
    obtain rfl := Option.some.inj hs
    simp [hquiet, hostWork, loopWork]
  all_goals try split_ifs at hs
  all_goals
    obtain rfl := Option.some.inj hs
    simp only [hostWork, loopWork]
    omega

omit [DecidableEq κ] [DecidableEq ι] in
theorem hostMove_work (h : Orderly s) (hs : hostMove s = some t) :
    t.work ≤ s.work ∧ (t.rank < s.rank ∨ spins s (.host : Mover κ ι)) := by
  unfold hostMove at hs
  split at hs
  next c rest hr hpipe =>
    obtain ⟨q, hq, rfl⟩ := Option.map_eq_some_iff.mp hs
    rw [Host.hostStep, hr] at hq
    obtain rfl := Option.some.inj hq
    simp only [Connecting.rank, Connecting.work, hpipe, hr, hostWork, loopWork, List.length_cons,
      if_true]
    exact ⟨by omega, .inl (by omega)⟩
  next hr hpipe =>
    obtain ⟨q, hq, rfl⟩ := Option.map_eq_some_iff.mp hs
    rw [Host.hostStep, hr] at hq
    obtain rfl := Option.some.inj hq
    refine ⟨?_, .inr ⟨hr, hpipe⟩⟩
    simp [Connecting.work, hr, hostWork]
  next hread hempty =>
    obtain ⟨q, hq, rfl⟩ := Option.map_eq_some_iff.mp hs
    have hr : s.queue.host ≠ .reading := fun hr => by
      cases hpipe : s.serverPipe with
      | nil => exact hempty hr hpipe
      | cons c rest => exact hread c rest hr hpipe
    obtain ⟨hle, hlt⟩ := hostStep_work hq h.queued.quiet.restartClients hr
    obtain ⟨hclient, -⟩ := hostStep_frame hq
    simp only [Connecting.rank, Connecting.work, hclient]
    exact ⟨by omega, .inl (by omega)⟩

end Work

/-! ### Whole runs -/

/-- The clients in the order of their messages. -/
def Connecting.sent (s : Connecting κ ι) : List κ := s.owners ++ s.serverPipe

def Mover.isHost : Mover κ ι → Bool
  | .host => true
  | _ => false

theorem mem_clientOpens_or (e : End) : e ∈ clientOpens ∨ e ∈ serverOpens := by
  obtain ⟨pipe, reads⟩ := e
  cases pipe <;> cases reads <;> decide

section Runs
variable [DecidableEq κ] [DecidableEq ι] [Fintype κ] [Fintype ι] {s t : Connecting κ ι}
  {ms : List (Mover κ ι)} {m : Mover κ ι} {c c' : κ} {i : ι}

omit [DecidableEq κ] [DecidableEq ι] [Fintype κ] in
/-- The thread of a connected client has opened the other ends of its pipes. -/
theorem Orderly.session_of_connected (h : Orderly s) (hc : s.place c = .connected) :
    ∃ i, s.session i = some c ∧ (∀ j, s.session j = some c → j = i) ∧ ∀ e, s.came c e = true := by
  have hanswered := h.paired.replied c (by rw [hc]; rfl)
  have hserved : c ∈ s.served := by
    by_contra hnot
    rw [(h.paired.fresh c hnot).2] at hanswered
    cases hanswered
  obtain ⟨i, hi⟩ := (h.paired.served c hserved).resolve_right (by simp [hc])
  refine ⟨i, hi, fun j hj => h.paired.sole j i c hj hi, fun e => ?_⟩
  rcases mem_clientOpens_or e with he | he
  · exact (h.paired.client c).all_came (h.paired.opened c (by rw [hc]; rfl)) e he
  · exact (h.paired.thread i c hi).all_came (h.paired.answers i c hi hanswered) e he

omit [DecidableEq κ] [DecidableEq ι] [Fintype κ] in
theorem Orderly.first_come (h : Orderly s) (hi : s.session i = some c) {before after : List κ}
    (hsent : s.sent = before ++ c :: after) (hc : c' ∈ before) :
    (∃ j, s.session j = some c') ∨ s.place c' = .done := by
  refine h.paired.served c' ?_
  have hmem := h.paired.taken i c hi
  have hprefix : s.served <+: before ++ c :: after :=
    hsent ▸ (List.take_prefix _ _).trans (List.prefix_append _ _)
  have hnodup : (before ++ c :: after).Nodup := hsent ▸ h.queued.nodup
  obtain ⟨rest, hrest⟩ := hprefix
  rcases List.append_eq_append_iff.mp hrest with ⟨more, hbefore, -⟩ | ⟨more, hserved, -⟩
  · rw [hbefore, List.append_assoc, List.nodup_append] at hnodup
    exact absurd rfl (hnodup.2.2 c hmem c (List.mem_append_right _ List.mem_cons_self))
  · rw [hserved]
    exact List.mem_append_left _ hc

theorem Orderly.step (h : Orderly s) (hs : move s m = some t) :
    Orderly t ∧ t.work + (!m.isHost).toNat ≤ s.work := by
  cases m with
  | client c => exact ⟨h.client hs, (clientMove_work hs).1⟩
  | thread i => exact ⟨h.thread hs, (threadMove_work hs).1⟩
  | host => exact ⟨h.host hs, (hostMove_work h hs).1⟩

theorem Orderly.rank_lt (h : Orderly s) (hs : move s m = some t) (hspin : ¬ spins s m) :
    t.rank < s.rank := by
  cases m with
  | client c =>
    obtain ⟨hless, hhost⟩ := clientMove_work hs
    rw [Connecting.rank, hhost, Connecting.rank]
    omega
  | thread i =>
    obtain ⟨hless, hhost⟩ := threadMove_work hs
    rw [Connecting.rank, hhost, Connecting.rank]
    omega
  | host => exact (hostMove_work h hs).2.resolve_right hspin

omit [DecidableEq κ] [DecidableEq ι] in
theorem work_initial : (Connecting.initial : Connecting κ ι).work = 31 * Fintype.card κ := by
  simp only [Connecting.work, Connecting.initial, tally, State.initial]
  simp [placeWork, stageWork, hostWork, Party.remaining, clientOpens]
  omega

/-- A connected client has one client thread, and both have opened the ends of its pipes. Clients
come to their sessions in the order of their messages. Clients and client threads take a bounded
number of steps, and wherever they are, all clients can come to their end. -/
theorem connects_of_run [Nonempty ι] (h : Run (stepOf move) .initial ms s) :
    (∀ c, s.place c = .connected → ∃ i, s.session i = some c ∧
        (∀ j, s.session j = some c → j = i) ∧ ∀ e, s.came c e = true) ∧
      (∀ i c before after, s.session i = some c → s.sent = before ++ c :: after →
        ∀ c' ∈ before, (∃ j, s.session j = some c') ∨ s.place c' = .done) ∧
      ms.countP (fun m => !m.isHost) ≤ 31 * Fintype.card κ ∧
      ∃ ms' t, Run (stepOf move) s ms' t ∧ ∀ c, t.place c = .done := by
  have hs := orderly_of_run h
  refine ⟨fun c => hs.session_of_connected, ?_, ?_, ?_⟩
  · intro i c before after hi hsent c' hc'
    exact hs.first_come hi hsent hc'
  · have hcount := (h.countP_le (μ := Connecting.work) orderly_initial
      fun u m v hu hm => hu.step hm).1
    rw [work_initial] at hcount
    omega
  · refine Run.exists_reach (I := Orderly) Connecting.rank (fun u hu hnot => ?_) hs
    push Not at hnot
    obtain ⟨c, hc⟩ := hnot
    obtain ⟨m, v, hm, hspin⟩ := hu.exists_move hc
    exact ⟨m, v, hm, (hu.step hm).1, hu.rank_lt hm hspin⟩

/-- A client connects, and another one has sent its message. -/
def oneConnects : List (Mover Bool Unit) :=
  .client false :: List.replicate 8 .host ++ List.replicate 7 (.thread ()) ++
    (List.replicate 6 [.client false, .thread ()]).flatten ++
    [.client false, .thread (), .client false, .client true]

theorem connects_of_run_oneConnects : ∃ s : Connecting Bool Unit,
    Run (stepOf move) .initial oneConnects s ∧ s.place false = .connected ∧
      s.session () = some false ∧ s.sent = [false, true] ∧ (∀ e, s.came false e = true) ∧
      ∃ ms' t, Run (stepOf move) s ms' t ∧ t.place true = .done := by
  obtain ⟨s, hexec, hplace, hsession, hsent⟩ : ∃ s : Connecting Bool Unit,
      execute move .initial oneConnects = some s ∧ s.place false = .connected ∧
        s.session () = some false ∧ s.sent = [false, true] := ⟨_, rfl, rfl, rfl, rfl⟩
  have hrun := run_of_execute hexec
  obtain ⟨hpaired, -, -, ms', t, hreach, hdone⟩ := connects_of_run hrun
  obtain ⟨-, -, -, hcame⟩ := hpaired false hplace
  exact ⟨s, hrun, hplace, hsession, hsent, hcame, ms', t, hreach, hdone true⟩

end Runs

end IstKvs.Host.Handshake
