import IstKvs.Systems.Run
import IstKvs.Systems.Tally

/-! The backup counter (`process_thread`, `CMD_BACKUP`). A thread takes one unit of
the counter or, when none is left, reaps a child, both under
`backupCounterMutex`; it forks after it has left the mutex. Every unit of the
limit is then in the counter, with a thread that has not forked, with a child
that has not been reaped, or lost to a fork that failed. -/

namespace IstKvs.Backups

open IstKvs.Systems Function

variable {τ : Type*}

/-! ### The machine -/

/-- Where a job thread is in BACKUP: `test`, `take`, `wait` and `leave` are inside the
critical section of the counter, `admitted` is past it and before the fork. -/
inductive Place
  | away | test | take | wait | leave | admitted
  deriving DecidableEq

def Place.critical : Place → Bool
  | .test | .take | .wait | .leave => true
  | .away | .admitted => false

/-- A job thread and the number of calls to `fork` it has made. -/
structure Thread where
  place : Place
  forked : ℕ

/-- `running` children have not terminated, `zombies` have and are not reaped. -/
structure State (τ : Type*) where
  backupCounter : UInt32
  backupCounterMutex : Option τ
  thread : τ → Thread
  running : ℕ
  zombies : ℕ

def State.initial (maxBackups : UInt32) : State τ :=
  ⟨maxBackups, none, fun _ => ⟨.away, 0⟩, 0, 0⟩

/-- Children that `wait` can return, now or once they terminate. -/
def State.unreaped (s : State τ) : ℕ := s.running + s.zombies

inductive Label (τ : Type*)
  | lock (t : τ)
  | test (t : τ)
  | take (t : τ)
  | wait (t : τ)
  | unlock (t : τ)
  | fork (t : τ)
  | terminate

section Step
variable [DecidableEq τ]

def State.goto (s : State τ) (t : τ) (p : Place) : State τ :=
  { s with thread := update s.thread t ⟨p, (s.thread t).forked⟩ }

/-- The parent's side of a fork: back to the loop over the job file. -/
def State.forkDone (s : State τ) (t : τ) (ok : Bool) : State τ :=
  { s with
    thread := update s.thread t ⟨.away, (s.thread t).forked + 1⟩
    running := if ok then s.running + 1 else s.running }

/-- One step, where `forks t k` says whether the `k`-th fork of thread `t` succeeds. A
`wait` without children returns -1 and the loop goes on; with children that all run,
it blocks. -/
def step (forks : τ → ℕ → Bool) (s : State τ) : Label τ → Option (State τ)
  | .lock t =>
    if (s.thread t).place = .away ∧ s.backupCounterMutex = none then
      some ({ s with backupCounterMutex := some t }.goto t .test)
    else none
  | .test t =>
    if (s.thread t).place = .test then
      some (s.goto t (if s.backupCounter > 0 then .take else .wait))
    else none
  | .take t =>
    if (s.thread t).place = .take then
      some ({ s with backupCounter := s.backupCounter - 1 }.goto t .leave)
    else none
  | .wait t =>
    if (s.thread t).place = .wait then
      if 0 < s.zombies then some ({ s with zombies := s.zombies - 1 }.goto t .leave)
      else if s.running = 0 then some s
      else none
    else none
  | .unlock t =>
    if (s.thread t).place = .leave then
      some ({ s with backupCounterMutex := none }.goto t .admitted)
    else none
  | .fork t =>
    if (s.thread t).place = .admitted then
      some (s.forkDone t (forks t (s.thread t).forked))
    else none
  | .terminate =>
    if 0 < s.running then some { s with running := s.running - 1, zombies := s.zombies + 1 }
    else none

end Step

/-! ### Where the units of the limit are -/

/-- A unit is paid and the thread has not forked. -/
def paid (_ : τ) (th : Thread) : ℕ :=
  match th.place with
  | .leave | .admitted => 1
  | _ => 0

/-- Past the counter section, not yet forked. -/
def inFlight (_ : τ) (th : Thread) : ℕ := if th.place = .admitted then 1 else 0

/-- In flight, and its fork is going to fail. -/
def doomed (forks : τ → ℕ → Bool) (t : τ) (th : Thread) : ℕ :=
  if th.place = .admitted ∧ forks t th.forked = false then 1 else 0

/-- The forks of a thread that have failed. -/
def failures (forks : τ → ℕ → Bool) (t : τ) (th : Thread) : ℕ :=
  ((List.range th.forked).filter fun k => !forks t k).length

theorem failures_succ (forks : τ → ℕ → Bool) (t : τ) (p : Place) (th : Thread) :
    failures forks t ⟨p, th.forked + 1⟩ =
      failures forks t th + if forks t th.forked then 0 else 1 := by
  simp only [failures, List.range_succ, List.filter_append, List.length_append]
  cases h : forks t th.forked <;> simp [h]

theorem inFlight_le_paid (t : τ) (th : Thread) : inFlight t th ≤ paid t th := by
  obtain ⟨p, k⟩ := th
  cases p <;> simp [inFlight, paid]

theorem paid_eq (forks : τ → ℕ → Bool) (t : τ) (th : Thread) (h : th.place ≠ .leave) :
    paid t th = (if th.place = .admitted ∧ forks t th.forked = true then 1 else 0) +
      doomed forks t th := by
  obtain ⟨p, k⟩ := th
  cases p <;> cases hk : forks t k <;> simp_all [paid, doomed]

/-- Every unit of the limit is in the counter, with a thread or a child, or lost to a
failed fork; the counter is only read and written by the holder of the mutex. -/
structure Accounts [Fintype τ] (forks : τ → ℕ → Bool) (maxBackups : UInt32) (s : State τ) :
    Prop where
  holder : ∀ t, (s.thread t).place.critical = true → s.backupCounterMutex = some t
  take : ∀ t, (s.thread t).place = .take → 0 < s.backupCounter.toNat
  wait : ∀ t, (s.thread t).place = .wait → s.backupCounter.toNat = 0
  units : s.backupCounter.toNat + tally paid s.thread + s.unreaped +
    tally (failures forks) s.thread = maxBackups.toNat

namespace Accounts

variable [Fintype τ] {forks : τ → ℕ → Bool} {maxBackups : UInt32} {s u : State τ} {t : τ}

theorem initial : Accounts forks maxBackups (State.initial maxBackups : State τ) where
  holder t h := by cases h
  take t h := by cases h
  wait t h := by cases h
  units := by
    have hpaid : tally paid (fun _ : τ => (⟨.away, 0⟩ : Thread)) = 0 := tally_eq_zero fun _ => rfl
    have hfail : tally (failures forks) (fun _ : τ => (⟨.away, 0⟩ : Thread)) = 0 :=
      tally_eq_zero fun _ => rfl
    simp [State.initial, State.unreaped, hpaid, hfail]

/-- Two threads are never inside the critical section. -/
theorem alone (h : Accounts forks maxBackups s) {v : τ}
    (ht : (s.thread t).place.critical = true) (hv : (s.thread v).place.critical = true) :
    v = t := by
  have := (h.holder v hv).symm.trans (h.holder t ht)
  exact Option.some.inj this

variable [DecidableEq τ]

/-- A thread of the critical section, or none, moves to another place: the units that it
pays come from the counter or a child. -/
theorem goto (h : Accounts forks maxBackups s) {p : Place} (hthread : u.thread = s.thread)
    (halone : ∀ v, v ≠ t → (s.thread v).place.critical = false)
    (hmutex : p.critical = true → u.backupCounterMutex = some t)
    (htake : p = .take → 0 < u.backupCounter.toNat)
    (hwait : p = .wait → u.backupCounter.toNat = 0)
    (hunits : u.backupCounter.toNat + paid t ⟨p, 0⟩ + u.unreaped =
      s.backupCounter.toNat + paid t (s.thread t) + s.unreaped) :
    Accounts forks maxBackups (u.goto t p) := by
  have hplace : ∀ v, ((u.goto t p).thread v).place.critical = true → v = t := by
    intro v hv
    by_contra hne
    simp only [State.goto, update_of_ne hne, hthread, halone v hne] at hv
    cases hv
  have hself : ((u.goto t p).thread t).place = p := by simp [State.goto]
  refine ⟨fun v hv => ?_, fun v hv => ?_, fun v hv => ?_, ?_⟩
  · obtain rfl := hplace v hv
    exact hmutex (hself ▸ hv)
  · obtain rfl := hplace v (by rw [hv]; rfl)
    exact htake (hself.symm.trans hv)
  · obtain rfl := hplace v (by rw [hv]; rfl)
    exact hwait (hself.symm.trans hv)
  · have hpaid := tally_update paid s.thread t ⟨p, (s.thread t).forked⟩
    have hfail := tally_update (failures forks) s.thread t ⟨p, (s.thread t).forked⟩
    have hp : paid t ⟨p, (s.thread t).forked⟩ = paid t ⟨p, 0⟩ := rfl
    have hf : failures forks t ⟨p, (s.thread t).forked⟩ = failures forks t (s.thread t) := rfl
    have hs := h.units
    rw [hp] at hpaid
    rw [hf] at hfail
    simp only [State.goto, State.unreaped, hthread] at *
    omega

theorem forkDone (h : Accounts forks maxBackups s) (hp : (s.thread t).place = .admitted) :
    Accounts forks maxBackups (s.forkDone t (forks t (s.thread t).forked)) := by
  have hplace : ∀ v, ((s.forkDone t (forks t (s.thread t).forked)).thread v).place ≠ .away →
      (s.forkDone t (forks t (s.thread t).forked)).thread v = s.thread v := by
    intro v hv
    by_cases hvt : v = t
    · subst hvt; simp [State.forkDone] at hv
    · simp [State.forkDone, hvt]
  refine ⟨fun v hv => ?_, fun v hv => ?_, fun v hv => ?_, ?_⟩
  · have he := hplace v (by intro ha; rw [ha] at hv; cases hv)
    exact h.holder v (he ▸ hv)
  · exact h.take v (hplace v (by rw [hv]; decide) ▸ hv)
  · exact h.wait v (hplace v (by rw [hv]; decide) ▸ hv)
  · have hpaid := tally_update paid s.thread t ⟨.away, (s.thread t).forked + 1⟩
    have hfail := tally_update (failures forks) s.thread t ⟨.away, (s.thread t).forked + 1⟩
    have hold : paid t (s.thread t) = 1 := by simp [paid, hp]
    have hnew : paid t ⟨.away, (s.thread t).forked + 1⟩ = 0 := rfl
    have hs := h.units
    rw [failures_succ] at hfail
    rw [hold, hnew] at hpaid
    simp only [State.forkDone, State.unreaped] at *
    split_ifs at * <;> omega

theorem step (h : Accounts forks maxBackups s) (l : Label τ) (hs : step forks s l = some u) :
    Accounts forks maxBackups u := by
  -- inside the section the mutex excludes the others
  have hout : ∀ t, (s.thread t).place.critical = true →
      ∀ v, v ≠ t → (s.thread v).place.critical = false := by
    intro t ht v hv
    by_contra hc
    exact hv (h.alone ht (by simpa using hc))
  cases l with
  | lock t =>
    simp only [Backups.step, Option.ite_none_right_eq_some, Option.some.injEq] at hs
    obtain ⟨⟨hp, hfree⟩, rfl⟩ := hs
    refine h.goto rfl (fun v _ => ?_) (fun _ => rfl) nofun nofun
      (by simp [paid, hp, State.unreaped])
    by_contra hc
    have := h.holder v (by simpa using hc)
    rw [hfree] at this
    cases this
  | test t =>
    simp only [Backups.step, Option.ite_none_right_eq_some, Option.some.injEq] at hs
    obtain ⟨hp, rfl⟩ := hs
    have hc : (s.thread t).place.critical = true := by rw [hp]; rfl
    have hzero : ¬ s.backupCounter > 0 → s.backupCounter.toNat = 0 := by
      intro hn
      have := UInt32.lt_iff_toNat_lt.not.mp hn
      simp only [UInt32.toNat_zero] at this
      omega
    have hpos : s.backupCounter > 0 → 0 < s.backupCounter.toNat := UInt32.lt_iff_toNat_lt.mp
    split_ifs with hgt
    · exact h.goto rfl (hout t hc) (fun _ => h.holder t hc) (fun _ => hpos hgt) nofun
        (by simp [paid, hp])
    · exact h.goto rfl (hout t hc) (fun _ => h.holder t hc) nofun (fun _ => hzero hgt)
        (by simp [paid, hp])
  | take t =>
    simp only [Backups.step, Option.ite_none_right_eq_some, Option.some.injEq] at hs
    obtain ⟨hp, rfl⟩ := hs
    have hc : (s.thread t).place.critical = true := by rw [hp]; rfl
    have hpos := h.take t hp
    have hone : (1 : UInt32) ≤ s.backupCounter := UInt32.le_iff_toNat_le.mpr hpos
    have hdec : (s.backupCounter - 1).toNat = s.backupCounter.toNat - 1 :=
      UInt32.toNat_sub_of_le _ _ hone
    refine h.goto rfl (hout t hc) (fun _ => h.holder t hc) nofun nofun ?_
    simp only [hdec, paid, hp, State.unreaped]
    omega
  | wait t =>
    simp only [Backups.step, Option.ite_none_right_eq_some] at hs
    obtain ⟨hp, hs⟩ := hs
    have hc : (s.thread t).place.critical = true := by rw [hp]; rfl
    split_ifs at hs with hz hr
    · obtain rfl := Option.some.inj hs
      refine h.goto rfl (hout t hc) (fun _ => h.holder t hc) nofun nofun ?_
      simp only [paid, hp, State.unreaped]
      omega
    · exact Option.some.inj hs ▸ h
  | unlock t =>
    simp only [Backups.step, Option.ite_none_right_eq_some, Option.some.injEq] at hs
    obtain ⟨hp, rfl⟩ := hs
    have hc : (s.thread t).place.critical = true := by rw [hp]; rfl
    exact h.goto rfl (hout t hc) nofun nofun nofun (by simp [paid, hp, State.unreaped])
  | fork t =>
    simp only [Backups.step, Option.ite_none_right_eq_some, Option.some.injEq] at hs
    obtain ⟨hp, rfl⟩ := hs
    exact h.forkDone hp
  | terminate =>
    simp only [Backups.step, Option.ite_none_right_eq_some, Option.some.injEq] at hs
    obtain ⟨hpos, rfl⟩ := hs
    refine ⟨h.holder, h.take, h.wait, ?_⟩
    have hs := h.units
    simp only [State.unreaped] at *
    omega

theorem of_run {ls : List (Label τ)}
    (hrun : Run (stepOf (Backups.step forks)) (State.initial maxBackups) ls s) :
    Accounts forks maxBackups s :=
  hrun.invariant initial fun _ l _ h hs => h.step l hs

end Accounts

/-! ### The limit -/

section Limit
variable [Fintype τ] [DecidableEq τ] {forks : τ → ℕ → Bool} {maxBackups : UInt32}
  {ls : List (Label τ)} {s : State τ}

/-- No step makes the counter larger, so it never wraps. -/
theorem Accounts.counter_le {u : State τ} (h : Accounts forks maxBackups s) (l : Label τ)
    (hs : Backups.step forks s l = some u) : u.backupCounter ≤ s.backupCounter := by
  cases l with
  | take t =>
    simp only [Backups.step, Option.ite_none_right_eq_some, Option.some.injEq] at hs
    obtain ⟨hp, rfl⟩ := hs
    have hone : (1 : UInt32) ≤ s.backupCounter := UInt32.le_iff_toNat_le.mpr (h.take t hp)
    have hdec : (s.backupCounter - 1).toNat = s.backupCounter.toNat - 1 :=
      UInt32.toNat_sub_of_le _ _ hone
    rw [UInt32.le_iff_toNat_le]
    show (s.backupCounter - 1).toNat ≤ _
    omega
  | wait t =>
    simp only [Backups.step, Option.ite_none_right_eq_some] at hs
    obtain ⟨-, hs⟩ := hs
    split_ifs at hs <;> obtain rfl := Option.some.inj hs <;> exact UInt32.le_refl _
  | lock t | test t | unlock t | fork t | terminate =>
    simp only [Backups.step, Option.ite_none_right_eq_some, Option.some.injEq] at hs
    obtain ⟨-, rfl⟩ := hs
    exact UInt32.le_refl _

/-- In every reachable state at most `maxBackups` children are alive, the counter does not
wrap in the next step, and counter, threads past the counter section and unreaped
children stay within the limit. -/
theorem backups_le_maxBackups
    (hrun : Run (stepOf (step forks)) (State.initial maxBackups) ls s) :
    s.running ≤ maxBackups.toNat ∧
      (∀ l u, step forks s l = some u → u.backupCounter ≤ s.backupCounter) ∧
      s.backupCounter.toNat + tally inFlight s.thread + s.unreaped ≤ maxBackups.toNat := by
  have h := Accounts.of_run hrun
  have hunits := h.units
  have hle : tally inFlight s.thread ≤ tally paid s.thread :=
    Finset.sum_le_sum fun t _ => inFlight_le_paid t (s.thread t)
  have hrunning : s.running ≤ s.unreaped := Nat.le_add_right _ _
  exact ⟨by omega, fun l u hs => h.counter_le l hs, by omega⟩

/-- Two threads, one unit: the first forks, the second waits for its child. -/
def oneChild : List (Label Bool) :=
  [.lock true, .test true, .take true, .unlock true, .fork true, .lock false, .test false]

theorem backups_le_maxBackups_two :
    ∃ s, Run (stepOf (step fun _ _ => true)) (State.initial 1 : State Bool) oneChild s ∧
      s.running ≤ (1 : UInt32).toNat ∧
      (∀ l u, step (fun _ _ => true) s l = some u → u.backupCounter ≤ s.backupCounter) ∧
      s.backupCounter.toNat + tally inFlight s.thread + s.unreaped ≤ (1 : UInt32).toNat := by
  have hrun : Run (stepOf (step fun _ _ => true)) (State.initial 1) oneChild _ :=
    run_of_execute rfl
  exact ⟨_, hrun, backups_le_maxBackups hrun⟩

/-! ### The wait loop -/

/-- `wait` has a child to return, or another thread is going to fork one. -/
def WaitEnds (forks : τ → ℕ → Bool) (s : State τ) (t : τ) : Prop :=
  0 < s.unreaped ∨ ∃ u, u ≠ t ∧ (s.thread u).place = .admitted ∧
    forks u (s.thread u).forked = true

/-- A thread in the wait loop is sure of a child exactly as long as fewer forks than the
limit have failed or are about to fail: a failed fork never gives its unit back. -/
theorem waitEnds_iff (hrun : Run (stepOf (step forks)) (State.initial maxBackups) ls s) {t : τ}
    (ht : (s.thread t).place = .wait) :
    WaitEnds forks s t ↔
      tally (failures forks) s.thread + tally (doomed forks) s.thread < maxBackups.toNat := by
  have h := Accounts.of_run hrun
  have hunits := h.units
  have hcounter := h.wait t ht
  have hleave : ∀ u, (s.thread u).place ≠ .leave := by
    intro u hu
    have hut : u = t := h.alone (by rw [ht]; rfl) (by rw [hu]; rfl)
    rw [hut, ht] at hu
    cases hu
  have hpaid : tally paid s.thread = tally (fun u th =>
      if th.place = .admitted ∧ forks u th.forked = true then 1 else 0) s.thread +
      tally (doomed forks) s.thread := by
    rw [← tally_add]
    exact tally_congr fun u => paid_eq forks u (s.thread u) (hleave u)
  have hgood : (∃ u, u ≠ t ∧ (s.thread u).place = .admitted ∧
      forks u (s.thread u).forked = true) ↔ 0 < tally (fun u th =>
      if th.place = .admitted ∧ forks u th.forked = true then 1 else 0) s.thread := by
    rw [tally_pos_iff]
    refine exists_congr fun u => ⟨fun hu => by simp [hu.2], fun hu => ?_⟩
    have hc : (s.thread u).place = .admitted ∧ forks u (s.thread u).forked = true := by
      by_contra hn
      rw [if_neg hn] at hu
      exact absurd hu (by decide)
    refine ⟨?_, hc⟩
    rintro rfl
    rw [ht] at hc
    exact nomatch hc.1
  rw [WaitEnds, hgood]
  omega

theorem waitEnds_iff_two :
    ∃ s, Run (stepOf (step fun _ _ => true)) (State.initial 1 : State Bool) oneChild s ∧
      (s.thread false).place = .wait ∧
      (WaitEnds (fun _ _ => true) s false ↔ tally (failures fun _ _ => true) s.thread +
        tally (doomed fun _ _ => true) s.thread < (1 : UInt32).toNat) := by
  have hrun : Run (stepOf (step fun _ _ => true)) (State.initial 1) oneChild _ :=
    run_of_execute rfl
  exact ⟨_, hrun, rfl, waitEnds_iff hrun rfl⟩

/-- One thread whose first fork fails and that comes back for another backup. -/
def noChild : List (Label Unit) :=
  [.lock (), .test (), .take (), .unlock (), .fork (), .lock (), .test ()]

/-- With one unit, whose fork fails, the next BACKUP waits for a child that nobody
creates and takes the same step again and again. -/
theorem not_waitEnds :
    ∃ s, Run (stepOf (step fun _ _ => false)) (State.initial 1 : State Unit) noChild s ∧
      (s.thread ()).place = .wait ∧ ¬ WaitEnds (fun _ _ => false) s () ∧
      step (fun _ _ => false) s (.wait ()) = some s := by
  have hrun : Run (stepOf (step fun _ _ => false)) (State.initial 1) noChild _ :=
    run_of_execute rfl
  exact ⟨_, hrun, rfl, by rintro (h | ⟨u, hu, -⟩) <;> [exact absurd h (by decide); exact hu rfl],
    rfl⟩

end Limit

end IstKvs.Backups
