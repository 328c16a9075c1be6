import IstKvs.Server.Frames
import IstKvs.Systems.Locks

/-! `fork` in the whole server. Job threads take `globalHashLock` around each of their
commands on the table, shared for an access and alone for BACKUP, but not for HELP, whose
`printf` allocates; client threads and the host thread never take it. So a BACKUP forks
while another thread is in a call that changes the table or allocates in some run as soon as
a connect message may be read, as two job threads share the HELP commands, or as the host
may still be creating its threads; and in no run otherwise. -/

namespace IstKvs.Server

open IstKvs.Store IstKvs.Sessions IstKvs.Systems Function

/-! ### The threads and the lock -/

/-- Where a job thread is: between two commands, with the shared lock before its call of
`kvs_write` or `kvs_delete`, in it, in `kvs_read` or `kvs_show`, with the exclusive lock
before or after `fork`, or in the `printf` of HELP. -/
inductive Place
  | outside
  | entered
  | updating
  | reading
  | exclusive
  | forked
  | helping
  deriving DecidableEq

def Place.mode : Place → Option Mode
  | outside | helping => none
  | entered | updating | reading => some .read
  | exclusive | forked => some .write

/-- The server with the places of its job threads, the calls of `pthread_create` that the host
has made, whether it is in one, and the client threads that it has created. -/
structure GlobalState (τ : Type*) (n : ℕ) where
  server : State τ n
  place : τ → Place
  created : ℕ
  creating : Bool
  thread : Fin n → Bool

variable {τ : Type*} {n : ℕ}

def GlobalState.initial : GlobalState τ n := ⟨.initial, fun _ => .outside, 0, false, fun _ => false⟩

def GlobalState.held (s : GlobalState τ n) : Holders τ Unit := fun t _ => (s.place t).mode

/-- The host has made its last call of `pthread_create`, and waits for connect messages. -/
def GlobalState.Started (s : GlobalState τ n) : Prop := s.created = n ∧ s.creating = false

instance (s : GlobalState τ n) : Decidable s.Started :=
  inferInstanceAs (Decidable (_ ∧ _))

/-- `server` labels are steps of client threads, of the host thread, of the signal handler
and of other uses of descriptors. -/
inductive GlobalLabel (τ : Type*) (n : ℕ)
  | rdlock (t : τ)
  | call (t : τ) (x : Input)
  | work (t : τ) (x : Input)
  | read (t : τ)
  | wrlock (t : τ)
  | fork (t : τ)
  | unlock (t : τ)
  | help (t : τ)
  | helped (t : τ)
  | create (ok : Bool)
  | created
  | server (l : Label τ n)

/-- A step of a job thread. -/
def Label.isJob : Label τ n → Bool
  | .act (.job _) _ => true
  | _ => false

/-- The thread of the step is there. -/
def GlobalState.Runs (s : GlobalState τ n) : Label τ n → Prop
  | .act (.client i) _ => s.thread i = true
  | .act .host _ => s.Started
  | _ => True

section Step
variable [DecidableEq τ]

def GlobalState.move (s : GlobalState τ n) (t : τ) (p : Place) : GlobalState τ n :=
  { s with place := update s.place t p }

/-- A thread runs from the call of `pthread_create` on that creates it; the host goes on with the
next one also when a call fails. -/
inductive GlobalStep (s : GlobalState τ n) : GlobalLabel τ n → GlobalState τ n → Prop
  | rdlock {t : τ} (hp : s.place t = .outside) (hg : s.held.Grants () .read) :
      GlobalStep s (.rdlock t) (s.move t .entered)
  | call {t : τ} {x : Input} {u : State τ n} (hp : s.place t = .entered)
      (hs : step s.server (.act (.job t) x) = some u) :
      GlobalStep s (.call t x) { s with server := u, place := update s.place t .updating }
  | work {t : τ} {x : Input} {u : State τ n} (hp : s.place t = .updating)
      (hin : s.server.stage (.job t) ≠ .idle) (hs : step s.server (.act (.job t) x) = some u) :
      GlobalStep s (.work t x) { s with server := u }
  | read {t : τ} (hp : s.place t = .entered) : GlobalStep s (.read t) (s.move t .reading)
  | wrlock {t : τ} (hp : s.place t = .outside) (hg : s.held.Grants () .write) :
      GlobalStep s (.wrlock t) (s.move t .exclusive)
  | fork {t : τ} (hp : s.place t = .exclusive) : GlobalStep s (.fork t) (s.move t .forked)
  | unlock {t : τ} (hp : (s.place t = .updating ∧ s.server.stage (.job t) = .idle) ∨
      s.place t = .reading ∨ s.place t = .forked) : GlobalStep s (.unlock t) (s.move t .outside)
  | help {t : τ} (hp : s.place t = .outside) : GlobalStep s (.help t) (s.move t .helping)
  | helped {t : τ} (hp : s.place t = .helping) : GlobalStep s (.helped t) (s.move t .outside)
  | create {ok : Bool} (hc : s.creating = false) (hlt : s.created < n) :
      GlobalStep s (.create ok) { s with
        created := s.created + 1
        creating := true
        thread := update s.thread ⟨s.created, hlt⟩ ok }
  | created (hc : s.creating = true) : GlobalStep s .created { s with creating := false }
  | server {l : Label τ n} {u : State τ n} (hl : l.isJob = false) (hr : s.Runs l)
      (hs : step s.server l = some u) : GlobalStep s (.server l) { s with server := u }

/-! ### Operations on the table and the memory -/

/-- In a call that changes the table, allocates or frees. Such calls are `kvs_write` and
`kvs_delete`, the taking of a connection with `kvs_connect`, `kvs_subscribe`,
`kvs_unsubscribe`, `kvs_disconnect`, the end of a client in `clean_all_clients`, and the host's
allocation. -/
def Stage.operating : Stage → Bool
  | .idle | .readOp _ | .blocked _ | .check .. | .readKey .. | .failed _ | .answer _ .refused
  | .hostCheck | .hostRead | .resetControl | .resetRestart | .cleanLock | .cleanSlot
  | .cleanUnlock => false
  | _ => true

/-- In `clean_all_clients`, between two clients. -/
def Stage.scanning : Stage → Bool
  | .cleanLock | .cleanSlot | .cleanUnlock => true
  | _ => false

/-- A thread is in the middle of such a call, in `kvs_read`, which allocates, or `kvs_show`, in
HELP, whose `printf` allocates the buffer of `stdout`, in `pthread_create`, or in a
`clean_all_clients` that has clients to free. -/
def GlobalState.operating (s : GlobalState τ n) : Actor τ n → Bool
  | .job t => s.place t = .reading || s.place t = .helping || (s.server.stage (.job t)).operating
  | .client i => (s.server.stage (.client i)).operating
  | .host => s.creating || (s.server.stage .host).operating ||
      ((s.server.stage .host).scanning && decide (∃ k, s.server.connectedClients k ≠ none))

/-- While a thread with the exclusive lock calls `fork`, no other thread is in such a call. -/
def Undisturbed (s : GlobalState τ n) : Prop :=
  ∀ t, s.place t = .exclusive → ∀ a, a ≠ .job t → s.operating a = false

/-- What happens at all while the server runs: BACKUP commands, connect messages that the host
reads, HELP commands, and a BACKUP that gets the lock before the host has created its threads. -/
structure Circumstances where
  backup : Bool
  connects : Bool
  help : Bool
  early : Bool

/-- The step is one of these circumstances. -/
def Circumstances.allows (e : Circumstances) (s : GlobalState τ n) : GlobalLabel τ n → Prop
  | .wrlock _ => e.backup = true ∧ (e.early = true ∨ s.Started)
  | .help _ => e.help = true
  | .server (.act .host x) => s.server.stage .host = .hostRead → x.ok = true → e.connects = true
  | _ => True

/-- The other steps of the machine leave the job threads where they are. -/
theorem stage_of_server {s u : State τ n} {l : Label τ n} (hl : l.isJob = false)
    (hs : step s l = some u) (t : τ) : u.stage (.job t) = s.stage (.job t) := by
  cases hactor : l.actor with
  | none =>
    obtain ⟨_, _, _, _, rfl⟩ := step_env hactor hs
    rfl
  | some a =>
    cases l with
    | act b x =>
      refine stage_of_ne hs ?_
      rintro rfl
      cases hl
    | _ => cases hactor

/-! ### The lock -/

/-- A job thread is in a call of the machine only where it is updating, and one with the
exclusive lock is the only one with any. -/
structure Ordered (s : GlobalState τ n) : Prop where
  idle : ∀ t, s.place t ≠ .updating → s.server.stage (.job t) = .idle
  exclusive : s.held.Exclusive

variable {s u : GlobalState τ n} {t : τ}

omit [DecidableEq τ] in
theorem ordered_initial : Ordered (GlobalState.initial : GlobalState τ n) where
  idle _ _ := rfl
  exclusive := Holders.exclusive_none

theorem held_move_some {p : Place} {m : Mode} (hm : p.mode = some m) :
    (s.move t p).held = s.held.acquire t () m := by
  funext v b
  by_cases hv : v = t <;> simp [GlobalState.held, GlobalState.move, Holders.acquire, hv, hm]

theorem held_move_none {p : Place} (hm : p.mode = none) :
    (s.move t p).held = s.held.release t () := by
  funext v b
  by_cases hv : v = t <;> simp [GlobalState.held, GlobalState.move, Holders.release, hv, hm]

namespace Ordered

theorem held_same {p : Place} (hm : p.mode = (s.place t).mode) : (s.move t p).held = s.held := by
  funext v b
  by_cases hv : v = t <;> simp [GlobalState.held, GlobalState.move, hv, hm]

omit [DecidableEq τ] in
/-- No job thread other than one with the exclusive lock is in a call, unless it is in HELP. -/
theorem job_idle (h : Ordered s) (ht : s.place t = .exclusive) {v : τ} (hv : v ≠ t)
    (hhelp : s.place v ≠ .helping) : s.operating (.job v) = false := by
  have hnone := h.exclusive t v () hv.symm (by simp [GlobalState.held, ht, Place.mode])
  have hplace : s.place v = .outside := by
    cases hp : s.place v <;> simp [GlobalState.held, hp, Place.mode] at hnone hhelp ⊢
  simp [GlobalState.operating, hplace, h.idle v (by simp [hplace]), Stage.operating]

theorem moved (h : Ordered s) {p : Place} (hidle : p ≠ .updating → s.server.stage (.job t) = .idle)
    (hheld : (s.move t p).held.Exclusive) : Ordered (s.move t p) where
  idle v hv := by
    by_cases hvt : v = t
    · subst hvt
      exact hidle (by simpa [GlobalState.move] using hv)
    · exact h.idle v (by simpa [GlobalState.move, hvt] using hv)
  exclusive := hheld

/-- A thread goes on with what it has of the lock. -/
theorem same (h : Ordered s) {p : Place} (hp : s.place t ≠ .updating)
    (hm : p.mode = (s.place t).mode) : Ordered (s.move t p) := by
  refine h.moved (fun _ => h.idle t hp) ?_
  rw [held_same hm]
  exact h.exclusive

theorem acquired (h : Ordered s) {p : Place} {m : Mode} (hp : s.place t = .outside)
    (hm : p.mode = some m) (hg : s.held.Grants () m) : Ordered (s.move t p) := by
  refine h.moved (fun _ => h.idle t (by simp [hp])) ?_
  rw [held_move_some hm]
  exact h.exclusive.acquire _ hg

theorem released (h : Ordered s) (hidle : s.server.stage (.job t) = .idle) :
    Ordered (s.move t .outside) := by
  refine h.moved (fun _ => hidle) ?_
  rw [held_move_none rfl]
  exact h.exclusive.release t ()

theorem step {l : GlobalLabel τ n} (h : Ordered s) (hs : GlobalStep s l u) : Ordered u := by
  cases hs with
  | rdlock hp hg => exact h.acquired hp rfl hg
  | wrlock hp hg => exact h.acquired hp rfl hg
  | @call t x v hp hs =>
    have hheld : (s.move t .updating).held = s.held := held_same (by simp [hp, Place.mode])
    refine ⟨fun w hw => ?_, hheld ▸ h.exclusive⟩
    have hwt : w ≠ t := by
      rintro rfl
      simp at hw
    have hidle := h.idle w (by simpa [hwt] using hw)
    rwa [← stage_of_ne hs (b := .job w) (by simpa using hwt)] at hidle
  | @work t x v hp hin hs =>
    refine ⟨fun w hw => ?_, h.exclusive⟩
    have hwt : w ≠ t := by
      rintro rfl
      exact hw hp
    have hidle := h.idle w hw
    rwa [← stage_of_ne hs (b := .job w) (by simpa using hwt)] at hidle
  | read hp | fork hp | help hp | helped hp =>
    exact h.same (by simp [hp]) (by simp [hp, Place.mode])
  | @unlock t hp =>
    rcases hp with ⟨-, hidle⟩ | hp | hp
    · exact h.released hidle
    · exact h.released (h.idle t (by simp [hp]))
    · exact h.released (h.idle t (by simp [hp]))
  | create => exact ⟨h.idle, h.exclusive⟩
  | created => exact ⟨h.idle, h.exclusive⟩
  | @server l v hl _ hs =>
    refine ⟨fun w hw => ?_, h.exclusive⟩
    have hidle := h.idle w hw
    rwa [← stage_of_server hl hs w] at hidle

end Ordered

/-! ### Without connections -/

/-- The host waits for a connect message or restarts. -/
def Stage.vacant : Stage → Bool
  | .hostCheck | .hostRead | .cleanLock | .cleanSlot | .cleanUnlock | .resetRestart => true
  | _ => false

/-- There is no client, and none on its way. -/
structure Deserted (s : State τ n) : Prop where
  queued : s.queued = 0
  idle : ∀ i, s.stage (.client i) = .idle
  list : ∀ k, s.connectedClients k = none
  host : (s.stage .host).vacant = true

omit [DecidableEq τ] in
theorem deserted_initial : Deserted (State.initial : State τ n) :=
  ⟨rfl, fun _ => rfl, fun _ => rfl, rfl⟩

namespace Deserted

variable {s t : State τ n}

theorem goto_host (h : Deserted s) {u : State τ n} {st : Stage} (hstage : u.stage = s.stage)
    (hqueued : u.queued = s.queued) (hlist : u.connectedClients = s.connectedClients)
    (hst : st.vacant = true) : Deserted (u.goto .host st) where
  queued := hqueued.trans h.queued
  idle i := by
    rw [stage_goto, if_neg nofun, hstage]
    exact h.idle i
  list k := by
    change u.connectedClients k = none
    rw [hlist]
    exact h.list k
  host := by
    rw [stage_goto, if_pos rfl]
    exact hst

theorem hostStep (h : Deserted s) {x : Input} (hx : s.stage .host = .hostRead → x.ok = false)
    (hs : hostStep s x = some t) : Deserted t := by
  have hvacant := h.host
  cases hst : s.stage .host <;> rw [hst] at hvacant <;> simp only [Stage.vacant, reduceCtorEq]
    at hvacant <;> simp only [Server.hostStep, hst] at hs
  case hostCheck =>
    cases hs
    refine h.goto_host rfl rfl rfl ?_
    cases s.restartClients <;> rfl
  case hostRead =>
    rw [hx hst] at hs
    cases hs
    exact h.goto_host rfl rfl rfl rfl
  case cleanLock =>
    split_ifs at hs
    cases hs
    exact h.goto_host rfl rfl rfl rfl
  case cleanSlot =>
    split at hs
    next hk =>
      rw [h.list] at hs
      cases hs
      exact ⟨h.queued, h.idle, h.list, h.host⟩
    next =>
      cases hs
      exact h.goto_host rfl rfl rfl rfl
  case cleanUnlock =>
    cases hs
    exact h.goto_host rfl rfl rfl rfl
  case resetRestart =>
    cases hs
    exact h.goto_host rfl rfl rfl rfl

theorem jobStep (h : Deserted s) {i : τ} {x : Input} (hs : jobStep s i x = some t) :
    Deserted t := by
  obtain ⟨ht, locks, arrived, updates, st, -, rfl⟩ := jobStep_frame hs
  refine ⟨h.queued, fun j => ?_, h.list, ?_⟩
  · rw [stage_goto, if_neg nofun]
    exact h.idle j
  · rw [stage_goto, if_neg nofun]
    exact h.host

theorem step (h : Deserted s) {l : Label τ n}
    (hx : ∀ x, l = .act .host x → s.stage .host = .hostRead → x.ok = false)
    (hs : Server.step s l = some t) : Deserted t := by
  cases l with
  | act a x =>
    cases a with
    | job i => exact h.jobStep hs
    | client i => simp [Server.step, clientStep, h.idle i, h.queued] at hs
    | host => exact h.hostStep (hx x rfl) hs
  | _ =>
    obtain ⟨files, control, restart, handlers, rfl⟩ := step_env rfl hs
    exact ⟨h.queued, h.idle, h.list, h.host⟩

end Deserted

/-! ### Circumstances in which no `fork` is disturbed -/

/-- What holds where nobody connects: HELP runs only if there are such commands, and the host has
created its threads when a BACKUP has the lock. -/
structure Calm (e : Circumstances) (s : GlobalState τ n) : Prop where
  ordered : Ordered s
  deserted : Deserted s.server
  helping : ∀ t, s.place t = .helping → e.help = true
  counted : s.created ≤ n
  creating : s.creating = true → 0 < s.created
  started : ∀ t, s.place t = .exclusive → s.Started

variable {e : Circumstances}

omit [DecidableEq τ] in
theorem calm_initial : Calm e (GlobalState.initial : GlobalState τ n) where
  ordered := ordered_initial
  deserted := deserted_initial
  helping _ h := by cases h
  counted := Nat.zero_le n
  creating h := by cases h
  started _ h := by cases h

omit [DecidableEq τ] in
theorem Calm.started_zero (h : Calm e s) (hn : n = 0) : s.Started := by
  have hcounted := h.counted
  refine ⟨by omega, ?_⟩
  cases hc : s.creating with
  | false => rfl
  | true =>
    have hpos := h.creating hc
    omega

theorem Calm.moved (h : Calm e s) {p : Place} {v : State τ n}
    (hord : Ordered { s with server := v, place := update s.place t p }) (hv : Deserted v)
    (hhelp : p = .helping → e.help = true) (hstart : p = .exclusive → s.Started) :
    Calm e { s with server := v, place := update s.place t p } where
  ordered := hord
  deserted := hv
  helping w hw := by
    by_cases hwt : w = t
    · subst hwt
      exact hhelp (by simpa using hw)
    · exact h.helping w (by simpa [hwt] using hw)
  counted := h.counted
  creating := h.creating
  started w hw := by
    by_cases hwt : w = t
    · subst hwt
      exact hstart (by simpa using hw)
    · exact h.started w (by simpa [hwt] using hw)

omit [DecidableEq τ] in
theorem Calm.machine (h : Calm e s) {v : State τ n} (hord : Ordered { s with server := v })
    (hv : Deserted v) : Calm e { s with server := v } :=
  ⟨hord, hv, h.helping, h.counted, h.creating, h.started⟩

theorem Calm.step {l : GlobalLabel τ n} (h : Calm e s) (hconnects : e.connects = false)
    (hearly : e.early = true → n = 0) (ha : e.allows s l) (hs : GlobalStep s l u) : Calm e u := by
  have hord := h.ordered.step hs
  cases hs with
  | rdlock => exact h.moved hord h.deserted nofun nofun
  | read => exact h.moved hord h.deserted nofun nofun
  | fork => exact h.moved hord h.deserted nofun nofun
  | unlock => exact h.moved hord h.deserted nofun nofun
  | helped => exact h.moved hord h.deserted nofun nofun
  | help => exact h.moved hord h.deserted (fun _ => ha) nofun
  | wrlock =>
    exact h.moved hord h.deserted nofun fun _ => ha.2.elim (fun he => h.started_zero (hearly he)) id
  | call hp hs => exact h.moved hord (h.deserted.jobStep hs) nofun nofun
  | work hp hin hs => exact h.machine hord (h.deserted.jobStep hs)
  | create hc hlt =>
    refine ⟨hord, h.deserted, h.helping, hlt, fun _ => Nat.succ_pos _, fun v hv => ?_⟩
    have hstarted := h.started v hv
    exact absurd hstarted.1 hlt.ne
  | created hc =>
    refine ⟨hord, h.deserted, h.helping, h.counted, nofun, fun v hv => ?_⟩
    exact ⟨(h.started v hv).1, rfl⟩
  | @server l v hl hr hs =>
    refine h.machine hord (h.deserted.step (fun x hx hst => ?_) hs)
    subst hx
    cases hok : x.ok with
    | false => rfl
    | true =>
      rw [ha hst hok] at hconnects
      cases hconnects

omit [DecidableEq τ] in
theorem Calm.undisturbed (h : Calm e s) (hhelp : e.help = true → Subsingleton τ) :
    Undisturbed s := by
  intro t ht a ha
  cases a with
  | job v =>
    have hv : v ≠ t := by simpa using ha
    refine h.ordered.job_idle ht hv fun hp => ?_
    have hone := hhelp (h.helping v hp)
    exact hv (Subsingleton.elim v t)
  | client i => simp [GlobalState.operating, h.deserted.idle i, Stage.operating]
  | host =>
    have hvacant := h.deserted.host
    have hout : (s.server.stage .host).operating = false := by
      cases hst : s.server.stage .host <;> rw [hst] at hvacant <;> first | rfl | cases hvacant
    simp [GlobalState.operating, (h.started t ht).2, hout, h.deserted.list]

theorem not_exclusive_step {l : GlobalLabel τ n} (hbackup : e.backup = false)
    (h : ∀ t, s.place t ≠ .exclusive) (ha : e.allows s l) (hs : GlobalStep s l u) (t : τ) :
    u.place t ≠ .exclusive := by
  have hmove : ∀ v p, p ≠ .exclusive → update s.place v p t ≠ .exclusive := by
    intro v p hp
    by_cases htv : t = v
    · subst htv
      simpa using hp
    · simpa [htv] using h t
  cases hs with
  | wrlock =>
    have hyes : e.backup = true := ha.1
    rw [hbackup] at hyes
    cases hyes
  | rdlock | call | read | fork | unlock | help | helped => exact hmove _ _ (by decide)
  | work | create | created | server => exact h t

/-! ### Circumstances in which one is -/

/-- The host after `k` calls of `pthread_create`. -/
def createdFirst (k : ℕ) : GlobalState τ n :=
  { GlobalState.initial with created := k, thread := fun i => decide (i.val < k) }

theorem run_createdFirst (e : Circumstances) {k : ℕ} (hk : k ≤ n) :
    ∃ ls, Run (guarded e.allows GlobalStep) (GlobalState.initial : GlobalState τ n) ls
      (createdFirst k) := by
  induction k with
  | zero =>
    have hnone : (createdFirst 0 : GlobalState τ n) = GlobalState.initial := by
      simp [createdFirst, GlobalState.initial]
    rw [hnone]
    exact ⟨[], .nil⟩
  | succ k ih =>
    obtain ⟨ls, hrun⟩ := ih (by omega)
    have hcreate : GlobalStep (createdFirst k : GlobalState τ n) (.create true) _ := .create rfl hk
    have hallowed : ∀ s : GlobalState τ n, e.allows s (.create true) ∧ e.allows s .created :=
      fun _ => ⟨trivial, trivial⟩
    have hnext := (hrun.snoc ⟨(hallowed _).1, hcreate⟩).snoc ⟨(hallowed _).2, .created rfl⟩
    have hsame : update (fun i : Fin n => decide (i.val < k)) ⟨k, hk⟩ true =
        fun i => decide (i.val < k + 1) := by
      funext i
      by_cases hi : i = ⟨k, hk⟩
      · subst hi
        simp
      · have hne : i.val ≠ k := fun he => hi (Fin.ext he)
        simp only [update_of_ne hi, decide_eq_decide]
        omega
    have hstate : ({ createdFirst k with
        created := k + 1
        thread := update (fun i => decide (i.val < k)) ⟨k, hk⟩ true } : GlobalState τ n) =
          createdFirst (k + 1) := by
      rw [hsame]
      rfl
    rw [← hstate]
    exact ⟨_, hnext⟩

omit [DecidableEq τ] in
theorem allows_server (hconnects : e.connects = true) (s : GlobalState τ n) (l : Label τ n) :
    e.allows s (.server l) := by
  cases l with
  | act a x =>
    cases a with
    | host => exact fun _ _ => hconnects
    | _ => trivial
  | _ => trivial

/-- A run of client threads and the host, which never take the lock. -/
theorem run_server (hconnects : e.connects = true) {ls : List (Label τ n)} {v : State τ n}
    (hstarted : s.Started) (hthread : ∀ i, s.thread i = true) (hls : ∀ l ∈ ls, l.isJob = false)
    (h : execute step s.server ls = some v) :
    Run (guarded e.allows GlobalStep) s (ls.map .server) { s with server := v } := by
  induction ls generalizing s with
  | nil =>
    cases h
    exact .nil
  | cons l ls ih =>
    obtain ⟨w, hw, hrest⟩ := Option.bind_eq_some_iff.mp h
    have hruns : s.Runs l := by
      cases l with
      | act a x =>
        cases a with
        | job i => trivial
        | client i => exact hthread i
        | host => exact hstarted
      | _ => trivial
    have hfirst : GlobalStep s (.server l) { s with server := w } :=
      .server (hls l List.mem_cons_self) hruns hw
    have hrun := ih (s := { s with server := w }) hstarted hthread
      (fun l hl => hls l (List.mem_cons_of_mem _ hl)) hrest
    exact (Run.single ⟨allows_server hconnects s l, hfirst⟩).append hrun

/-- A BACKUP gets the lock, in a state in which another thread is in a call. -/
theorem disturbed_of_wrlock {ls : List (GlobalLabel τ n)} {t : τ} {a : Actor τ n}
    (hrun : Run (guarded e.allows GlobalStep) GlobalState.initial ls s)
    (hallowed : e.allows s (.wrlock t)) (hp : s.place t = .outside)
    (hg : s.held.Grants () .write) (ha : a ≠ .job t)
    (hoperating : (s.move t .exclusive).operating a = true) :
    ∃ ls, ∃ s : GlobalState τ n, Run (guarded e.allows GlobalStep) GlobalState.initial ls s ∧
      ¬ Undisturbed s := by
  refine ⟨_, _, hrun.snoc ⟨hallowed, .wrlock hp hg⟩, fun h => ?_⟩
  have hfree := h t (by simp [GlobalState.move]) a ha
  rw [hoperating] at hfree
  cases hfree

omit [DecidableEq τ] in
theorem started_createdFirst : (createdFirst n : GlobalState τ n).Started := ⟨rfl, rfl⟩

/-- A connect message is read, and a BACKUP forks while the host allocates for it. -/
theorem disturbed_connect (hbackup : e.backup = true) (hconnects : e.connects = true) (t : τ) :
    ∃ ls, ∃ s : GlobalState τ n, Run (guarded e.allows GlobalStep) GlobalState.initial ls s ∧
      ¬ Undisturbed s := by
  obtain ⟨ls, hcreated⟩ := run_createdFirst (τ := τ) e (le_refl n)
  have hhost : ∃ v, execute step (State.initial : State τ n) (steps .host 3) = some v ∧
      v.stage .host = .enqueue := ⟨_, rfl, by simp [stage_goto]⟩
  obtain ⟨v, hv, hst⟩ := hhost
  have hjob : ∀ l ∈ (steps .host 3 : List (Label τ n)), l.isJob = false := by
    intro l hl
    rw [List.eq_of_mem_replicate hl]
    rfl
  have hserver := run_server (s := createdFirst n) hconnects started_createdFirst
    (fun i => by simp [createdFirst]) hjob hv
  refine disturbed_of_wrlock (t := t) (a := .host) (hcreated.append hserver)
    ⟨hbackup, .inr ⟨rfl, rfl⟩⟩ rfl (fun _ => rfl) nofun ?_
  simp [GlobalState.operating, GlobalState.move, hst, Stage.operating]

/-- A job thread is in HELP when the BACKUP of another one forks. -/
theorem disturbed_help (hbackup : e.backup = true) (hhelp : e.help = true) {t v : τ}
    (htv : t ≠ v) :
    ∃ ls, ∃ s : GlobalState τ n, Run (guarded e.allows GlobalStep) GlobalState.initial ls s ∧
      ¬ Undisturbed s := by
  obtain ⟨ls, hcreated⟩ := run_createdFirst (τ := τ) e (le_refl n)
  have hstep : GlobalStep (createdFirst n : GlobalState τ n) (.help t) _ := .help rfl
  have hallowed : e.allows (createdFirst n : GlobalState τ n) (.help t) := hhelp
  have hrun := hcreated.snoc ⟨hallowed, hstep⟩
  refine disturbed_of_wrlock (t := v) (a := .job t) hrun ⟨hbackup, .inr ⟨rfl, rfl⟩⟩ ?_
    (fun w => ?_) (by simpa using htv) ?_
  · simp [GlobalState.move, htv.symm, createdFirst, GlobalState.initial]
  · by_cases hw : w = t
    · simp [GlobalState.held, GlobalState.move, hw, Place.mode]
    · simp [GlobalState.held, GlobalState.move, hw, createdFirst, GlobalState.initial, Place.mode]
  · simp [GlobalState.operating, GlobalState.move, htv]

/-- The host is in `pthread_create` when a BACKUP forks. -/
theorem disturbed_early (hbackup : e.backup = true) (hearly : e.early = true) (hn : n ≠ 0) (t : τ) :
    ∃ ls, ∃ s : GlobalState τ n, Run (guarded e.allows GlobalStep) GlobalState.initial ls s ∧
      ¬ Undisturbed s := by
  have hcreate : GlobalStep (GlobalState.initial : GlobalState τ n) (.create true) _ :=
    .create rfl (Nat.pos_of_ne_zero hn)
  have hallowed : e.allows (GlobalState.initial : GlobalState τ n) (.create true) := trivial
  have hrun : Run (guarded e.allows GlobalStep) GlobalState.initial _ _ :=
    .single ⟨hallowed, hcreate⟩
  exact disturbed_of_wrlock (t := t) (a := .host) hrun ⟨hbackup, .inl hearly⟩ rfl (fun _ => rfl)
    nofun rfl

/-- Every `fork` of every run is undisturbed exactly where no BACKUP runs, or no connect message is
read, only a job thread that is alone runs HELP, and no BACKUP gets the lock before the host has
created its threads. -/
theorem undisturbed_iff (e : Circumstances) :
    (∀ (ls : List (GlobalLabel τ n)) s,
      Run (guarded e.allows GlobalStep) GlobalState.initial ls s → Undisturbed s) ↔
      e.backup = false ∨ IsEmpty τ ∨
        (e.connects = false ∧ (e.help = true → Subsingleton τ) ∧ (e.early = true → n = 0)) := by
  constructor
  · intro hall
    have hno : ¬ ∃ ls, ∃ s : GlobalState τ n,
        Run (guarded e.allows GlobalStep) GlobalState.initial ls s ∧ ¬ Undisturbed s :=
      fun ⟨ls, s, hrun, hdisturbed⟩ => hdisturbed (hall ls s hrun)
    by_contra hcon
    simp only [not_or, Bool.not_eq_false, not_isEmpty_iff] at hcon
    obtain ⟨hbackup, ⟨t⟩, hnot⟩ := hcon
    refine hnot ⟨?_, fun hhelp => ⟨fun v w => ?_⟩, fun hearly => ?_⟩
    · exact Bool.eq_false_iff.mpr fun hconnects => hno (disturbed_connect hbackup hconnects t)
    · by_contra hvw
      exact hno (disturbed_help hbackup hhelp hvw)
    · by_contra hn
      exact hno (disturbed_early hbackup hearly hn t)
  · rintro (hbackup | hempty | ⟨hconnects, hhelp, hearly⟩) ls s hrun
    · have hnever : ∀ t, s.place t ≠ .exclusive :=
        hrun.invariant (I := fun s => ∀ t, s.place t ≠ .exclusive)
          (fun _ => by simp [GlobalState.initial]) fun _ _ _ hu hs =>
            not_exclusive_step hbackup hu hs.1 hs.2
      exact fun t ht => absurd ht (hnever t)
    · exact fun t => hempty.elim t
    · have hcalm := hrun.invariant (calm_initial (e := e)) fun _ _ _ hu hs =>
        hu.step hconnects hearly hs.1 hs.2
      exact hcalm.undisturbed hhelp

end Step

/-- A client asks for a key that nobody wrote, until the allocation of its new subscription. -/
def subscribingNew : List (Label Unit 1) := connects lone 1 2 3 ++ subscribes lone keyA.str 3

/-- A BACKUP gets the lock and forks while `kvs_subscribe` is about to allocate. -/
theorem not_undisturbed :
    ∃ ls, ∃ s : GlobalState Unit 1, Run GlobalStep GlobalState.initial ls s ∧
      (∃ sid key, s.server.stage (.client 0) = .record sid key) ∧ ¬ Undisturbed s := by
  have hserver : ∃ v, execute step (State.initial : State Unit 1) subscribingNew = some v ∧
      ∃ sid key, v.stage (.client 0) = .record sid key := ⟨_, rfl, _, _, rfl⟩
  obtain ⟨v, hv, sid, key, hst⟩ := hserver
  let e : Circumstances := ⟨true, true, false, false⟩
  obtain ⟨ls, hcreated⟩ := run_createdFirst (τ := Unit) e (le_refl 1)
  have hserver := run_server (s := createdFirst 1) (e := e) rfl started_createdFirst
    (fun i => by simp [createdFirst]) (by decide) hv
  have hrun : Run GlobalStep _ _ _ := (hcreated.append hserver).mono fun _ _ _ hs => hs.2
  have hlock := hrun.snoc (.wrlock (t := ()) rfl (fun _ => rfl))
  refine ⟨_, _, hlock, ⟨sid, key, hst⟩, fun h => ?_⟩
  have hout : Stage.operating (v.stage (.client 0)) = false := h () rfl (.client 0) nofun
  rw [hst] at hout
  cases hout

end IstKvs.Server
