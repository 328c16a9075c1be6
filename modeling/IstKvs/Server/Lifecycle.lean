import IstKvs.Server.Machine

/-! The life of the sessions, without what they do: which thread is in charge of a
session, which of its pipes are open on which descriptors, and who tears it down. One
thread, the host, may take over the teardown of a session whose own thread is parked
in a read, or has left. -/

namespace IstKvs.Server

open IstKvs.Store Function

/-- What a thread has to do with a session. -/
inductive Phase
  | away
  | opening (sid : Sid) (todo : List Kind) (failed : Bool)
  | serving (sid : Sid)
  | parked (sid : Sid)
  | leaving (sid : Sid)
  | tearing (sid : Sid) (todo : List Kind)
  deriving DecidableEq

/-- What is known of a pipe: that it has not been opened, that it is open, that it is open
unless opening it failed, or that it is not open any more. -/
inductive PipeStatus
  | unopened | isOpen | own | absent
  deriving DecidableEq

namespace Phase

def session : Phase → Option Sid
  | away => none
  | opening sid _ _ | serving sid | parked sid | leaving sid | tearing sid _ => some sid

def isTearing : Phase → Bool
  | tearing _ _ => true
  | _ => false

/-- A thread that is bound to tear its session down. -/
def doomed : Phase → Bool
  | opening _ _ failed => failed
  | leaving _ | tearing _ _ => true
  | _ => false

def pipe : Phase → Kind → PipeStatus
  | opening _ todo failed, kind =>
    if kind ∈ todo then .unopened else if failed then .own else .isOpen
  | leaving _, _ => .own
  | tearing _ todo, kind => if kind ∈ todo then .own else .absent
  | _, _ => .isOpen

/-- A thread goes on with its session. -/
inductive Next : Phase → Phase → Prop
  | full (sid : Sid) (failed : Bool) : Next (opening sid [] failed) (opening sid [] true)
  | serve (sid : Sid) : Next (opening sid [] false) (parked sid)
  | giveUp (sid : Sid) : Next (opening sid [] true) (leaving sid)
  | park (sid : Sid) : Next (serving sid) (parked sid)
  | leave (sid : Sid) : Next (serving sid) (leaving sid)

theorem eq_tearing {p : Phase} {sid : Sid} (hs : p.session = some sid) (h : p.isTearing = true) :
    ∃ todo, p = tearing sid todo := by
  cases p with
  | tearing sid' todo =>
    cases hs
    exact ⟨todo, rfl⟩
  | _ => cases h

end Phase

/-- Where the threads are, the open files, and of each session its descriptors and its
teardowns. -/
structure Life (A : Type*) where
  phase : A → Phase
  files : Fd → Option File
  fd : Sid → Kind → Fd
  next : Sid
  teardowns : Sid → ℕ
  cleaned : Sid → Bool

namespace Life

variable {A : Type*}

/-- The thread that is to tear the session down: its own, or the host once it has begun. -/
def InCharge (host : A) (c : Life A) (a : A) (sid : Sid) : Prop :=
  (c.phase a).session = some sid ∧ (c.cleaned sid = true → a = host)

theorem InCharge.of_not_cleaned {host : A} {c : Life A} {a : A} {sid : Sid}
    (hs : (c.phase a).session = some sid) (hc : c.cleaned sid = false) : InCharge host c a sid :=
  ⟨hs, fun hcleaned => by rw [hc] at hcleaned; cases hcleaned⟩

/-- What the status of a pipe says, with its descriptor `fd`. -/
def PipeOk (files : Fd → Option File) (sid : Sid) (kind : Kind) (fd : Fd) : PipeStatus → Prop
  | .unopened => fd = -1 ∧ ∀ g, files g ≠ some (.pipe sid kind)
  | .isOpen => files fd = some (.pipe sid kind)
  | .own => fd = -1 ∨ files fd = some (.pipe sid kind)
  | .absent => ∀ g, files g ≠ some (.pipe sid kind)

/-- The order in which `kvs_connect` opens the pipes. -/
def opens : List Kind := [.notif, .req, .resp]

/-- The order in which a teardown closes them. -/
def closes : List Kind := [.req, .notif, .resp]

theorem mem_opens (kind : Kind) : kind ∈ opens := by
  cases kind <;> decide

theorem mem_closes (kind : Kind) : kind ∈ closes := by
  cases kind <;> decide

/-- The descriptors after one more pipe was opened. -/
def assign (fds : Sid → Kind → Fd) (sid : Sid) (kind : Kind) (fd : Fd) : Sid → Kind → Fd :=
  update fds sid (update (fds sid) kind fd)

@[simp] theorem assign_self (fds : Sid → Kind → Fd) (sid : Sid) (kind : Kind) (fd : Fd) :
    assign fds sid kind fd sid kind = fd := by
  simp [assign]

theorem assign_of_ne (fds : Sid → Kind → Fd) {sid sid' : Sid} {kind kind' : Kind} (fd : Fd)
    (h : sid' ≠ sid ∨ kind' ≠ kind) : assign fds sid kind fd sid' kind' = fds sid' kind' := by
  unfold assign
  by_cases hs : sid' = sid
  · subst hs
    simp [h.resolve_left (by simp)]
  · simp [hs]

section Step
variable [DecidableEq A] (host : A)

def goto (c : Life A) (a : A) (p : Phase) : Life A := { c with phase := update c.phase a p }

omit host in
theorem phase_goto_self (c : Life A) (a : A) (p : Phase) : (c.goto a p).phase a = p :=
  update_self ..

omit host in
theorem phase_goto_of_ne (c : Life A) {a b : A} {p : Phase} (hb : b ≠ a) :
    (c.goto a p).phase b = c.phase b :=
  update_of_ne hb ..

/-- One step in the life of the sessions. -/
inductive Step (c : Life A) : Life A → Prop
  | stay : Step c c
  | take {a : A} (ha : a ≠ host) (h : c.phase a = .away) :
      Step c ({ c with next := c.next + 1 }.goto a (.opening c.next opens false))
  | opened {a : A} {sid : Sid} {kind : Kind} {todo : List Kind} {failed : Bool} {fd : Fd}
      (h : c.phase a = .opening sid (kind :: todo) failed) (hkind : kind ∉ todo) (hfd : 0 ≤ fd)
      (hfree : c.files fd = none) :
      Step c ({ c with
        files := update c.files fd (some (.pipe sid kind))
        fd := assign c.fd sid kind fd }.goto a (.opening sid todo failed))
  | refused {a : A} {sid : Sid} {kind : Kind} {todo : List Kind} {failed : Bool}
      (h : c.phase a = .opening sid (kind :: todo) failed) :
      Step c (c.goto a (.opening sid todo true))
  | next {a : A} {p : Phase} (h : Phase.Next (c.phase a) p) : Step c (c.goto a p)
  | unpark {a : A} {sid : Sid} {p : Phase} (h : c.phase a = .parked sid)
      (hc : c.cleaned sid = false) (hp : p = .serving sid ∨ p = .leaving sid) :
      Step c (c.goto a p)
  | leave {a : A} {sid : Sid} (h : c.phase a = .parked sid ∨ c.phase a = .serving sid) :
      Step c (c.goto a .away)
  | teardown {a : A} {sid : Sid} (h : c.phase a = .leaving sid) :
      Step c ({ c with teardowns := update c.teardowns sid (c.teardowns sid + 1) }.goto a
        (.tearing sid closes))
  | clean {sid : Sid} (h : c.phase host = .away) (hsid : sid < c.next) (h0 : c.teardowns sid = 0)
      (hparked : ∀ a, (c.phase a).session = some sid → c.phase a = .parked sid) :
      Step c ({ c with
        teardowns := update c.teardowns sid (c.teardowns sid + 1)
        cleaned := update c.cleaned sid true }.goto host (.tearing sid closes))
  | close {a : A} {sid : Sid} {kind : Kind} {todo : List Kind}
      (h : c.phase a = .tearing sid (kind :: todo)) (hkind : kind ∉ todo) :
      Step c ({ c with files := update c.files (c.fd sid kind) none }.goto a (.tearing sid todo))
  | finish {a : A} {sid : Sid} (h : c.phase a = .tearing sid []) : Step c (c.goto a .away)
  | openFile {fd : Fd} (hfd : 0 ≤ fd) (hfree : c.files fd = none) :
      Step c { c with files := update c.files fd (some .other) }
  | closeFile {fd : Fd} (h : c.files fd = some .other) :
      Step c { c with files := update c.files fd none }

end Step

/-- One thread is in charge of each session until its teardown is over; the pipes of a
session are open as far as that thread has got; its teardown is begun once. -/
structure Inv (host : A) (c : Life A) : Prop where
  undertaker : c.phase host = .away ∨
    ∃ sid todo, c.phase host = .tearing sid todo ∧ c.cleaned sid = true
  used : ∀ a sid, (c.phase a).session = some sid → sid < c.next
  fresh : ∀ sid, c.next ≤ sid → c.cleaned sid = false ∧ c.teardowns sid = 0 ∧
    (∀ kind, c.fd sid kind = -1) ∧ ∀ fd kind, c.files fd ≠ some (.pipe sid kind)
  named : ∀ fd sid kind, c.files fd = some (.pipe sid kind) → fd = c.fd sid kind
  nonneg : ∀ fd, c.files fd ≠ none → 0 ≤ fd
  one : ∀ a b sid, (c.phase a).session = some sid → (c.phase b).session = some sid →
    c.cleaned sid = false → a = b
  aside : ∀ a sid, (c.phase a).session = some sid → c.cleaned sid = true →
    a = host ∨ c.phase a = .parked sid
  begun : ∀ a sid, (c.phase a).session = some sid → c.cleaned sid = false →
    c.teardowns sid = if (c.phase a).isTearing then 1 else 0
  cleanedOnce : ∀ sid, c.cleaned sid = true → c.teardowns sid = 1
  atMostOnce : ∀ sid, c.teardowns sid ≤ 1
  pipes : ∀ a sid kind, InCharge host c a sid →
    PipeOk c.files sid kind (c.fd sid kind) ((c.phase a).pipe kind)
  left : ∀ sid kind, sid < c.next → (∀ a, ¬ InCharge host c a sid) →
    PipeOk c.files sid kind (c.fd sid kind) (if c.teardowns sid = 0 then .isOpen else .absent)

/-- A change of one descriptor that has nothing to do with the pipe. -/
theorem PipeOk.frame {files : Fd → Option File} {sid : Sid} {kind : Kind} {fd g : Fd}
    {f : Option File} {st : PipeStatus} (h : PipeOk files sid kind fd st)
    (hold : files g ≠ some (.pipe sid kind)) (hnew : f ≠ some (.pipe sid kind)) :
    PipeOk (update files g f) sid kind fd st := by
  have hrest : ∀ g', files g' = some (.pipe sid kind) → update files g f g' = files g' := by
    intro g' hg
    refine update_of_ne ?_ ..
    rintro rfl
    exact hold hg
  have hall : (∀ g', files g' ≠ some (.pipe sid kind)) →
      ∀ g', update files g f g' ≠ some (.pipe sid kind) := by
    intro hno g'
    by_cases hg : g' = g
    · subst hg; simpa using hnew
    · simpa [hg] using hno g'
  cases st with
  | unopened => exact ⟨h.1, hall h.2⟩
  | isOpen => exact (hrest fd h).trans h
  | own => exact h.imp_right fun h => (hrest fd h).trans h
  | absent => exact hall h

namespace Inv

variable [DecidableEq A] {host : A} {c : Life A} (h : Inv host c) {a : A} {sid : Sid}
  {kind : Kind} {todo : List Kind} {failed : Bool} {fd : Fd} {p : Phase}
include h

theorem take (ha : a ≠ host) (hp : c.phase a = .away) :
    Inv host ({ c with next := c.next + 1 }.goto a (.opening c.next opens false)) := by
  obtain ⟨hc, h0, hfd, hfiles⟩ := h.fresh c.next le_rfl
  have hnot : c.cleaned c.next ≠ true := by simp [hc]
  have hnew : ∀ b, (c.phase b).session ≠ some c.next := fun b hb =>
    lt_irrefl _ (h.used b c.next hb)
  constructor
  case undertaker =>
    rw [phase_goto_of_ne _ ha.symm]
    exact h.undertaker
  case used =>
    intro b sid hb
    by_cases hba : b = a
    · rw [hba, phase_goto_self] at hb
      cases hb
      exact Nat.lt_succ_self _
    · rw [phase_goto_of_ne _ hba] at hb
      exact Nat.lt_succ_of_lt (h.used b sid hb)
  case fresh => exact fun sid hle => h.fresh sid (Nat.le_of_succ_le hle)
  case named => exact h.named
  case nonneg => exact h.nonneg
  case one =>
    intro b b' sid hb hb' hcleaned
    by_cases hba : b = a <;> by_cases hba' : b' = a
    · rw [hba, hba']
    · rw [hba, phase_goto_self] at hb
      rw [phase_goto_of_ne _ hba'] at hb'
      cases hb
      exact absurd hb' (hnew b')
    · rw [hba', phase_goto_self] at hb'
      rw [phase_goto_of_ne _ hba] at hb
      cases hb'
      exact absurd hb (hnew b)
    · rw [phase_goto_of_ne _ hba] at hb
      rw [phase_goto_of_ne _ hba'] at hb'
      exact h.one b b' sid hb hb' hcleaned
  case aside =>
    intro b sid hb hcleaned
    by_cases hba : b = a
    · rw [hba, phase_goto_self] at hb
      cases hb
      exact absurd hcleaned hnot
    · rw [phase_goto_of_ne _ hba] at hb ⊢
      exact h.aside b sid hb hcleaned
  case begun =>
    intro b sid hb hcleaned
    by_cases hba : b = a
    · rw [hba, phase_goto_self] at hb ⊢
      cases hb
      exact h0
    · rw [phase_goto_of_ne _ hba] at hb ⊢
      exact h.begun b sid hb hcleaned
  case cleanedOnce => exact h.cleanedOnce
  case atMostOnce => exact h.atMostOnce
  case pipes =>
    intro b sid kind hb
    by_cases hba : b = a
    · have hsid := hb.1
      rw [hba, phase_goto_self] at hsid ⊢
      cases hsid
      rw [Phase.pipe, if_pos (mem_opens kind)]
      exact ⟨hfd kind, fun g => hfiles g kind⟩
    · rw [phase_goto_of_ne _ hba]
      exact h.pipes b sid kind ⟨by rw [← phase_goto_of_ne _ hba]; exact hb.1, hb.2⟩
  case left =>
    intro sid kind hlt hno
    have hne : sid ≠ c.next := by
      rintro rfl
      exact hno a ⟨by rw [phase_goto_self]; rfl, fun hcleaned => absurd hcleaned hnot⟩
    have hlt' : sid < c.next := (Nat.lt_succ_iff_lt_or_eq.mp hlt).resolve_right hne
    refine h.left sid kind hlt' fun b hb => hno b ⟨?_, hb.2⟩
    have hba : b ≠ a := by
      rintro rfl
      have hs := hb.1
      rw [hp] at hs
      cases hs
    rw [phase_goto_of_ne _ hba]
    exact hb.1

omit [DecidableEq A] in
/-- The host is only in the phases of a teardown. -/
theorem ne_host (hp : (c.phase a).session = some sid) (htear : (c.phase a).isTearing = false) :
    a ≠ host := by
  rintro rfl
  rcases h.undertaker with haway | ⟨sid', todo', htearing, -⟩
  · rw [haway] at hp
    cases hp
  · rw [htearing] at htear
    cases htear

omit [DecidableEq A] in
theorem not_cleaned (hp : (c.phase a).session = some sid) (htear : (c.phase a).isTearing = false)
    (hparked : c.phase a ≠ .parked sid) : c.cleaned sid = false := by
  by_contra hc
  rcases h.aside a sid hp (Bool.of_not_eq_false hc) with hhost | hphase
  · exact h.ne_host hp htear hhost
  · exact hparked hphase

omit [DecidableEq A] in
theorem charge_unique {b : A} (ha : InCharge host c a sid) (hb : InCharge host c b sid) :
    a = b := by
  by_cases hc : c.cleaned sid = true
  · rw [ha.2 hc, hb.2 hc]
  · exact h.one a b sid ha.1 hb.1 (Bool.eq_false_of_not_eq_true hc)

omit [DecidableEq A] in
/-- The thread in charge of a session has begun its teardown, or nobody has. -/
theorem teardowns_eq (hcharge : InCharge host c a sid) :
    c.teardowns sid = if (c.phase a).isTearing then 1 else 0 := by
  by_cases hc : c.cleaned sid = true
  · have hhost := hcharge.2 hc
    have htear : (c.phase a).isTearing = true := by
      by_contra htear
      exact h.ne_host hcharge.1 (Bool.eq_false_of_not_eq_true htear) hhost
    rw [if_pos htear]
    exact h.cleanedOnce sid hc
  · exact h.begun a sid hcharge.1 (Bool.eq_false_of_not_eq_true hc)

omit [DecidableEq A] in
/-- A session is in the charge of its thread, and not torn down, unless the thread is parked. -/
theorem charge_of_session (hp : (c.phase a).session = some sid)
    (htear : (c.phase a).isTearing = false) (hparked : c.phase a ≠ .parked sid) :
    InCharge host c a sid ∧ c.teardowns sid = 0 := by
  have hcharge : InCharge host c a sid := .of_not_cleaned hp (h.not_cleaned hp htear hparked)
  have hcount := h.teardowns_eq hcharge
  rw [htear] at hcount
  exact ⟨hcharge, hcount⟩

/-- The thread in charge of a session goes on with it. -/
theorem moved {files : Fd → Option File} {fds : Sid → Kind → Fd} {count : Sid → ℕ}
    (hcharge : InCharge host c a sid) (hp : p.session = some sid)
    (hhost : a = host → p.isTearing = true) (hcount : count sid = if p.isTearing then 1 else 0)
    (hcounts : ∀ sid', sid' ≠ sid → count sid' = c.teardowns sid')
    (hnamed : ∀ g sid' kind, files g = some (.pipe sid' kind) → g = fds sid' kind)
    (hnonneg : ∀ g, files g ≠ none → 0 ≤ g)
    (hother : ∀ sid' kind st, sid' ≠ sid → PipeOk c.files sid' kind (c.fd sid' kind) st →
      PipeOk files sid' kind (fds sid' kind) st)
    (hself : ∀ kind, PipeOk c.files sid kind (c.fd sid kind) ((c.phase a).pipe kind) →
      PipeOk files sid kind (fds sid kind) (p.pipe kind)) :
    Inv host ({ c with files := files, fd := fds, teardowns := count }.goto a p) := by
  have hsession : ∀ b, (({ c with files := files, fd := fds, teardowns := count }.goto a p).phase
      b).session = (c.phase b).session := by
    intro b
    by_cases hba : b = a
    · rw [hba, phase_goto_self, hp, hcharge.1]
    · rw [phase_goto_of_ne _ hba]
  have hsid : ∀ sid', (c.phase a).session = some sid' → sid' = sid := by
    intro sid' ha
    rw [hcharge.1] at ha
    exact (Option.some.inj ha).symm
  constructor
  case undertaker =>
    by_cases ha : a = host
    · have hc : c.cleaned sid = true := by
        rcases h.undertaker with haway | ⟨sid', todo', htearing, hc⟩
        · have hs := hcharge.1
          rw [ha, haway] at hs
          cases hs
        · rwa [← hsid sid' (by rw [ha, htearing]; rfl)]
      obtain ⟨todo', rfl⟩ := Phase.eq_tearing hp (hhost ha)
      exact .inr ⟨sid, todo', by rw [← ha, phase_goto_self], hc⟩
    · rw [phase_goto_of_ne _ (Ne.symm ha)]
      exact h.undertaker
  case used => exact fun b sid' hb => h.used b sid' (by rwa [hsession] at hb)
  case fresh =>
    intro sid' hle
    have hne : sid' ≠ sid := (lt_of_lt_of_le (h.used a sid hcharge.1) hle).ne'
    obtain ⟨hc, h0, hfd, hfiles⟩ := h.fresh sid' hle
    have hunopened := fun kind => hother sid' kind .unopened hne ⟨hfd kind, fun g => hfiles g kind⟩
    exact ⟨hc, (hcounts sid' hne).trans h0, fun kind => (hunopened kind).1,
      fun g kind => (hunopened kind).2 g⟩
  case named => exact hnamed
  case nonneg => exact hnonneg
  case one =>
    intro b b' sid' hb hb'
    rw [hsession] at hb hb'
    exact h.one b b' sid' hb hb'
  case aside =>
    intro b sid' hb hc
    rw [hsession] at hb
    by_cases hba : b = a
    · subst hba
      rw [hsid sid' hb] at hc
      exact .inl (hcharge.2 hc)
    · rw [phase_goto_of_ne _ hba]
      exact h.aside b sid' hb hc
  case begun =>
    intro b sid' hb hc
    rw [hsession] at hb
    by_cases hba : b = a
    · subst hba
      rw [hsid sid' hb, phase_goto_self]
      exact hcount
    · have hne : sid' ≠ sid := by
        rintro rfl
        exact hba (h.one b a sid' hb hcharge.1 hc)
      rw [phase_goto_of_ne _ hba]
      exact (hcounts sid' hne).trans (h.begun b sid' hb hc)
  case cleanedOnce =>
    intro sid' hc
    by_cases hne : sid' = sid
    · rw [hne] at hc ⊢
      exact hcount.trans (if_pos (hhost (hcharge.2 hc)))
    · exact (hcounts sid' hne).trans (h.cleanedOnce sid' hc)
  case atMostOnce =>
    intro sid'
    by_cases hne : sid' = sid
    · rw [hne]
      refine hcount.trans_le ?_
      split_ifs <;> omega
    · exact (hcounts sid' hne).trans_le (h.atMostOnce sid')
  case pipes =>
    intro b sid' kind hb
    have hb' : InCharge host c b sid' := ⟨by rw [← hsession]; exact hb.1, hb.2⟩
    by_cases hba : b = a
    · subst hba
      obtain rfl := hsid sid' hb'.1
      rw [phase_goto_self]
      exact hself kind (h.pipes b sid' kind hb')
    · have hne : sid' ≠ sid := by
        rintro rfl
        exact hba (h.charge_unique hb' hcharge)
      rw [phase_goto_of_ne _ hba]
      exact hother sid' kind _ hne (h.pipes b sid' kind hb')
  case left =>
    intro sid' kind hlt hno
    have hno' : ∀ b, ¬ InCharge host c b sid' := fun b hb =>
      hno b ⟨by rw [hsession]; exact hb.1, hb.2⟩
    have hne : sid' ≠ sid := by
      rintro rfl
      exact hno' a hcharge
    have hleft := hother sid' kind _ hne (h.left sid' kind hlt hno')
    rwa [← hcounts sid' hne] at hleft

/-- A thread goes on with a session that the host has not taken over. -/
theorem rephase (hp : (c.phase a).session = some sid) (htear : (c.phase a).isTearing = false)
    (hc : c.cleaned sid = false) (hp' : p.session = some sid) (htear' : p.isTearing = false)
    (hpipe : ∀ kind, PipeOk c.files sid kind (c.fd sid kind) ((c.phase a).pipe kind) →
      PipeOk c.files sid kind (c.fd sid kind) (p.pipe kind)) : Inv host (c.goto a p) := by
  have hcharge : InCharge host c a sid := .of_not_cleaned hp hc
  have hcount := h.teardowns_eq hcharge
  rw [htear, ← htear'] at hcount
  exact h.moved hcharge hp' (fun ha => absurd ha (h.ne_host hp htear)) hcount (fun _ _ => rfl)
    h.named h.nonneg (fun _ _ _ _ hk => hk) hpipe

theorem opened (hp : c.phase a = .opening sid (kind :: todo) failed) (hkind : kind ∉ todo)
    (hfd : 0 ≤ fd) (hfree : c.files fd = none) :
    Inv host ({ c with
      files := update c.files fd (some (.pipe sid kind))
      fd := assign c.fd sid kind fd }.goto a (.opening sid todo failed)) := by
  have hs : (c.phase a).session = some sid := by rw [hp]; rfl
  have htear : (c.phase a).isTearing = false := by rw [hp]; rfl
  obtain ⟨hcharge, hcount⟩ := h.charge_of_session hs htear (by rw [hp]; nofun)
  -- no descriptor was open on the pipe
  have habsent : ∀ g, c.files g ≠ some (.pipe sid kind) := by
    have hk := h.pipes a sid kind hcharge
    rw [hp, Phase.pipe, if_pos List.mem_cons_self] at hk
    exact hk.2
  have hframe : ∀ sid' kind' st, sid' ≠ sid ∨ kind' ≠ kind →
      PipeOk c.files sid' kind' (c.fd sid' kind') st →
      PipeOk (update c.files fd (some (.pipe sid kind))) sid' kind'
        (assign c.fd sid kind fd sid' kind') st := by
    intro sid' kind' st hne hk
    rw [assign_of_ne _ _ hne]
    refine hk.frame (by simp [hfree]) fun heq => ?_
    simp only [Option.some.injEq, File.pipe.injEq] at heq
    rcases hne with hne | hne
    · exact hne heq.1.symm
    · exact hne heq.2.symm
  refine h.moved hcharge rfl (fun ha => absurd ha (h.ne_host hs htear)) hcount (fun _ _ => rfl)
    ?_ ?_ (fun sid' kind' st hne => hframe sid' kind' st (.inl hne)) fun kind' hk => ?_
  · intro g sid' kind' hg
    by_cases hgf : g = fd
    · subst hgf
      simp only [update_self, Option.some.injEq, File.pipe.injEq] at hg
      obtain ⟨rfl, rfl⟩ := hg
      rw [assign_self]
    · rw [update_of_ne hgf] at hg
      have hne : sid' ≠ sid ∨ kind' ≠ kind := by
        by_contra hcon
        push Not at hcon
        obtain ⟨rfl, rfl⟩ := hcon
        exact habsent g hg
      rw [assign_of_ne _ _ hne]
      exact h.named g sid' kind' hg
  · intro g hg
    by_cases hgf : g = fd
    · rwa [hgf]
    · rw [update_of_ne hgf] at hg
      exact h.nonneg g hg
  · rw [hp] at hk
    by_cases hkk : kind' = kind
    · subst hkk
      rw [Phase.pipe, if_neg hkind, assign_self]
      cases failed
      · exact update_self ..
      · exact .inr (update_self ..)
    · have hmem : (kind' ∈ kind :: todo) ↔ kind' ∈ todo := by simp [hkk]
      simp only [Phase.pipe, hmem] at hk
      exact hframe sid kind' _ (.inr hkk) hk

theorem refused (hp : c.phase a = .opening sid (kind :: todo) failed) :
    Inv host (c.goto a (.opening sid todo true)) := by
  have hs : (c.phase a).session = some sid := by rw [hp]; rfl
  have htear : (c.phase a).isTearing = false := by rw [hp]; rfl
  have hc := h.not_cleaned hs htear (by rw [hp]; nofun)
  refine h.rephase hs htear hc rfl rfl fun kind' hk => ?_
  rw [hp] at hk
  simp only [Phase.pipe, List.mem_cons] at hk ⊢
  by_cases hmem : kind' ∈ todo
  · rw [if_pos (.inr hmem)] at hk
    rwa [if_pos hmem]
  · rw [if_neg hmem]
    split_ifs at hk
    · exact .inl hk.1
    · exact hk
    · exact .inr hk

theorem next (hp : Phase.Next (c.phase a) p) : Inv host (c.goto a p) := by
  have hgoes : ∀ sid, (c.phase a).session = some sid → (c.phase a).isTearing = false →
      c.phase a ≠ .parked sid → p.session = some sid → p.isTearing = false →
      (∀ kind, (c.phase a).pipe kind = .isOpen ∧ p.pipe kind = .own ∨
        p.pipe kind = (c.phase a).pipe kind) → Inv host (c.goto a p) := by
    intro sid hs htear hparked hs' htear' hpipe
    refine h.rephase hs htear (h.not_cleaned hs htear hparked) hs' htear' fun kind hk => ?_
    rcases hpipe kind with ⟨hopen, hown⟩ | hsame
    · rw [hopen] at hk
      rw [hown]
      exact .inr hk
    · rwa [hsame]
  generalize c.phase a = q at hp hgoes
  cases hp with
  | full sid failed =>
    refine hgoes sid rfl rfl nofun rfl rfl fun kind => ?_
    cases failed
    · exact .inl ⟨rfl, rfl⟩
    · exact .inr rfl
  | serve sid => exact hgoes sid rfl rfl nofun rfl rfl fun _ => .inr rfl
  | giveUp sid => exact hgoes sid rfl rfl nofun rfl rfl fun _ => .inr rfl
  | park sid => exact hgoes sid rfl rfl nofun rfl rfl fun _ => .inr rfl
  | leave sid => exact hgoes sid rfl rfl nofun rfl rfl fun _ => .inl ⟨rfl, rfl⟩

theorem unpark (hp : c.phase a = .parked sid) (hc : c.cleaned sid = false)
    (hnext : p = .serving sid ∨ p = .leaving sid) : Inv host (c.goto a p) := by
  have hs : (c.phase a).session = some sid := by rw [hp]; rfl
  have htear : (c.phase a).isTearing = false := by rw [hp]; rfl
  rcases hnext with rfl | rfl <;> refine h.rephase hs htear hc rfl rfl fun kind hk => ?_ <;>
    rw [hp] at hk
  · exact hk
  · exact .inr hk

/-- A thread leaves its session; the one in charge leaves the pipes all open or all closed. -/
theorem away (hp : (c.phase a).session = some sid)
    (hpipe : InCharge host c a sid → ∀ kind,
      (c.phase a).pipe kind = if c.teardowns sid = 0 then .isOpen else .absent) :
    Inv host (c.goto a .away) := by
  have hne : ∀ {b sid'}, ((c.goto a .away).phase b).session = some sid' → b ≠ a := by
    rintro b sid' hb rfl
    rw [phase_goto_self] at hb
    cases hb
  have hsession : ∀ {b sid'}, ((c.goto a .away).phase b).session = some sid' →
      (c.phase b).session = some sid' := by
    intro b sid' hb
    rwa [phase_goto_of_ne _ (hne hb)] at hb
  constructor
  case undertaker =>
    by_cases ha : a = host
    · rw [← ha]
      exact .inl (phase_goto_self ..)
    · rw [phase_goto_of_ne _ (Ne.symm ha)]
      exact h.undertaker
  case used => exact fun b sid' hb => h.used b sid' (hsession hb)
  case fresh => exact h.fresh
  case named => exact h.named
  case nonneg => exact h.nonneg
  case one => exact fun b b' sid' hb hb' => h.one b b' sid' (hsession hb) (hsession hb')
  case aside =>
    intro b sid' hb hc
    rw [phase_goto_of_ne _ (hne hb)]
    exact h.aside b sid' (hsession hb) hc
  case begun =>
    intro b sid' hb hc
    rw [phase_goto_of_ne _ (hne hb)]
    exact h.begun b sid' (hsession hb) hc
  case cleanedOnce => exact h.cleanedOnce
  case atMostOnce => exact h.atMostOnce
  case pipes =>
    intro b sid' kind hb
    rw [phase_goto_of_ne _ (hne hb.1)]
    exact h.pipes b sid' kind ⟨hsession hb.1, hb.2⟩
  case left =>
    intro sid' kind hlt hno
    by_cases hcharge : InCharge host c a sid'
    · have hsid := hcharge.1
      rw [hp] at hsid
      cases hsid
      have hk := h.pipes a sid kind hcharge
      rw [hpipe hcharge kind] at hk
      exact hk
    · refine h.left sid' kind hlt fun b hb => ?_
      have hba : b ≠ a := by
        rintro rfl
        exact hcharge hb
      exact hno b ⟨by rw [phase_goto_of_ne _ hba]; exact hb.1, hb.2⟩

theorem leave (hp : c.phase a = .parked sid ∨ c.phase a = .serving sid) :
    Inv host (c.goto a .away) := by
  have hs : (c.phase a).session = some sid := by rcases hp with hp | hp <;> rw [hp] <;> rfl
  refine h.away hs fun hcharge kind => ?_
  have hcount := h.teardowns_eq hcharge
  rcases hp with hp | hp <;> rw [hp] at hcount ⊢ <;> exact (if_pos hcount).symm

theorem finish (hp : c.phase a = .tearing sid []) : Inv host (c.goto a .away) := by
  have hs : (c.phase a).session = some sid := by rw [hp]; rfl
  refine h.away hs fun hcharge kind => ?_
  have hcount := h.teardowns_eq hcharge
  rw [hp] at hcount ⊢
  exact (if_neg (by rw [hcount]; exact Nat.one_ne_zero)).symm

theorem teardown (hp : c.phase a = .leaving sid) :
    Inv host ({ c with teardowns := update c.teardowns sid (c.teardowns sid + 1) }.goto a
      (.tearing sid closes)) := by
  have hs : (c.phase a).session = some sid := by rw [hp]; rfl
  have htear : (c.phase a).isTearing = false := by rw [hp]; rfl
  obtain ⟨hcharge, hcount⟩ := h.charge_of_session hs htear (by rw [hp]; nofun)
  refine h.moved hcharge rfl (fun _ => rfl) (by rw [update_self, hcount]; rfl)
    (fun sid' hne => update_of_ne hne ..) h.named h.nonneg (fun _ _ _ _ hk => hk) fun kind hk => ?_
  rw [hp] at hk
  rw [Phase.pipe, if_pos (mem_closes kind)]
  exact hk

omit [DecidableEq A] in
/-- The pipes of a session whose teardown has not begun are open, whether its thread is parked
or has left. -/
theorem open_of_parked (hsid : sid < c.next) (h0 : c.teardowns sid = 0)
    (hparked : ∀ a, (c.phase a).session = some sid → c.phase a = .parked sid) (kind : Kind) :
    PipeOk c.files sid kind (c.fd sid kind) .isOpen := by
  by_cases hcharge : ∃ a, InCharge host c a sid
  · obtain ⟨a, ha⟩ := hcharge
    have hk := h.pipes a sid kind ha
    rwa [hparked a ha.1] at hk
  · have hk := h.left sid kind hsid fun a ha => hcharge ⟨a, ha⟩
    rwa [if_pos h0] at hk

theorem clean (hp : c.phase host = .away) (hsid : sid < c.next) (h0 : c.teardowns sid = 0)
    (hparked : ∀ a, (c.phase a).session = some sid → c.phase a = .parked sid) :
    Inv host ({ c with
      teardowns := update c.teardowns sid (c.teardowns sid + 1)
      cleaned := update c.cleaned sid true }.goto host (.tearing sid closes)) := by
  have hcounts : ∀ {sid'}, sid' ≠ sid →
      update c.teardowns sid (c.teardowns sid + 1) sid' = c.teardowns sid' :=
    fun hne => update_of_ne hne ..
  have hcleaned : ∀ {sid'}, sid' ≠ sid → update c.cleaned sid true sid' = c.cleaned sid' :=
    fun hne => update_of_ne hne ..
  have hne_of : ∀ {sid'}, update c.cleaned sid true sid' = false → sid' ≠ sid := by
    rintro sid' hc rfl
    rw [update_self] at hc
    cases hc
  -- only the host has a session that it did not have before
  have hsession : ∀ {b sid'}, sid' ≠ sid →
      (update c.phase host (.tearing sid closes) b).session = some sid' →
      b ≠ host ∧ (c.phase b).session = some sid' := by
    intro b sid' hne hb
    by_cases hbh : b = host
    · rw [hbh, update_self] at hb
      cases hb
      exact absurd rfl hne
    · rw [update_of_ne hbh] at hb
      exact ⟨hbh, hb⟩
  have hcharge : ∀ {b sid'}, sid' ≠ sid → InCharge host c b sid' → b ≠ host := by
    rintro b sid' hne hb rfl
    have hs := hb.1
    rw [hp] at hs
    cases hs
  constructor
  case undertaker => exact .inr ⟨sid, closes, phase_goto_self .., update_self ..⟩
  case used =>
    intro b sid' hb
    by_cases hne : sid' = sid
    · rw [hne]
      exact hsid
    · exact h.used b sid' (hsession hne hb).2
  case fresh =>
    intro sid' hle
    have hne : sid' ≠ sid := (lt_of_lt_of_le hsid hle).ne'
    obtain ⟨hc, hzero, hrest⟩ := h.fresh sid' hle
    exact ⟨(hcleaned hne).trans hc, (hcounts hne).trans hzero, hrest⟩
  case named => exact h.named
  case nonneg => exact h.nonneg
  case one =>
    intro b b' sid' hb hb' hc
    have hne := hne_of hc
    exact h.one b b' sid' (hsession hne hb).2 (hsession hne hb').2 ((hcleaned hne).symm.trans hc)
  case aside =>
    intro b sid' hb hc
    by_cases hbh : b = host
    · exact .inl hbh
    · rw [phase_goto_of_ne _ hbh] at hb ⊢
      by_cases hne : sid' = sid
      · rw [hne] at hb ⊢
        exact .inr (hparked b hb)
      · exact h.aside b sid' hb ((hcleaned hne).symm.trans hc)
  case begun =>
    intro b sid' hb hc
    have hne := hne_of hc
    obtain ⟨hbh, hb⟩ := hsession hne hb
    rw [phase_goto_of_ne _ hbh]
    exact (hcounts hne).trans (h.begun b sid' hb ((hcleaned hne).symm.trans hc))
  case cleanedOnce =>
    intro sid' hc
    by_cases hne : sid' = sid
    · rw [hne]
      exact (update_self ..).trans (by rw [h0])
    · exact (hcounts hne).trans (h.cleanedOnce sid' ((hcleaned hne).symm.trans hc))
  case atMostOnce =>
    intro sid'
    by_cases hne : sid' = sid
    · rw [hne]
      exact ((update_self ..).trans (by rw [h0])).le
    · exact (hcounts hne).trans_le (h.atMostOnce sid')
  case pipes =>
    intro b sid' kind hb
    by_cases hbh : b = host
    · have hs := hb.1
      rw [hbh, phase_goto_self] at hs ⊢
      cases hs
      rw [Phase.pipe, if_pos (mem_closes kind)]
      exact .inr (h.open_of_parked hsid h0 hparked kind)
    · have hc : update c.cleaned sid true sid' = false :=
        Bool.eq_false_of_not_eq_true fun hc => hbh (hb.2 hc)
      have hne := hne_of hc
      rw [phase_goto_of_ne _ hbh]
      exact h.pipes b sid' kind ⟨(hsession hne hb.1).2, fun hc' => hb.2 ((hcleaned hne).trans hc')⟩
  case left =>
    intro sid' kind hlt hno
    have hne : sid' ≠ sid := by
      rintro rfl
      exact hno host ⟨by rw [phase_goto_self]; rfl, fun _ => rfl⟩
    have hleft := h.left sid' kind hlt fun b hb => hno b
      ⟨by rw [phase_goto_of_ne _ (hcharge hne hb)]; exact hb.1,
        fun hc => hb.2 ((hcleaned hne).symm.trans hc)⟩
    rwa [← hcounts hne] at hleft

theorem close (hp : c.phase a = .tearing sid (kind :: todo)) (hkind : kind ∉ todo) :
    Inv host ({ c with files := update c.files (c.fd sid kind) none }.goto a
      (.tearing sid todo)) := by
  have hs : (c.phase a).session = some sid := by rw [hp]; rfl
  have hcharge : InCharge host c a sid :=
    ⟨hs, fun hc => (h.aside a sid hs hc).resolve_right (by rw [hp]; nofun)⟩
  have hcount := h.teardowns_eq hcharge
  rw [hp] at hcount
  -- the descriptor is the pipe's own, or -1 and not open
  have hown : c.files (c.fd sid kind) = some (.pipe sid kind) ∨ c.files (c.fd sid kind) = none := by
    have hk := h.pipes a sid kind hcharge
    rw [hp, Phase.pipe, if_pos List.mem_cons_self] at hk
    rcases hk with hk | hk
    · right
      by_contra hne
      have hle := h.nonneg _ hne
      rw [hk] at hle
      exact absurd hle (by decide)
    · exact .inl hk
  have hframe : ∀ sid' kind' st, sid' ≠ sid ∨ kind' ≠ kind →
      PipeOk c.files sid' kind' (c.fd sid' kind') st →
      PipeOk (update c.files (c.fd sid kind) none) sid' kind' (c.fd sid' kind') st := by
    intro sid' kind' st hne hk
    refine hk.frame (fun heq => ?_) (by simp)
    rcases hown with hfile | hfile <;> rw [hfile] at heq
    · simp only [Option.some.injEq, File.pipe.injEq] at heq
      rcases hne with hne | hne
      · exact hne heq.1.symm
      · exact hne heq.2.symm
    · cases heq
  have hkept : ∀ {g f}, update c.files (c.fd sid kind) none g = some f →
      g ≠ c.fd sid kind ∧ c.files g = some f := by
    intro g f hg
    by_cases hgf : g = c.fd sid kind
    · rw [hgf, update_self] at hg
      cases hg
    · rw [update_of_ne hgf] at hg
      exact ⟨hgf, hg⟩
  refine h.moved hcharge rfl (fun _ => rfl) hcount (fun _ _ => rfl)
    (fun g sid' kind' hg => h.named g sid' kind' (hkept hg).2) (fun g hg => ?_)
    (fun sid' kind' st hne => hframe sid' kind' st (.inl hne)) fun kind' hk => ?_
  · obtain ⟨f, hf⟩ := Option.ne_none_iff_exists'.mp hg
    exact h.nonneg g (by rw [(hkept hf).2]; nofun)
  · rw [hp] at hk
    by_cases hkk : kind' = kind
    · subst hkk
      rw [Phase.pipe, if_neg hkind]
      exact fun g hg => (hkept hg).1 (h.named g sid kind' (hkept hg).2)
    · have hmem : (kind' ∈ kind :: todo) ↔ kind' ∈ todo := by simp [hkk]
      simp only [Phase.pipe, hmem] at hk
      exact hframe sid kind' _ (.inr hkk) hk

omit [DecidableEq A] in
/-- A descriptor that is not a pipe of a session is opened or closed. -/
theorem other {f : Option File} (hold : ∀ sid kind, c.files fd ≠ some (.pipe sid kind))
    (hnew : ∀ sid kind, f ≠ some (.pipe sid kind)) (hfd : f ≠ none → 0 ≤ fd) :
    Inv host { c with files := update c.files fd f } := by
  have hframe : ∀ sid' kind' st, PipeOk c.files sid' kind' (c.fd sid' kind') st →
      PipeOk (update c.files fd f) sid' kind' (c.fd sid' kind') st :=
    fun sid' kind' st hk => hk.frame (hold sid' kind') (hnew sid' kind')
  constructor
  case undertaker => exact h.undertaker
  case used => exact h.used
  case fresh =>
    intro sid' hle
    obtain ⟨hc, h0, hfd', hfiles⟩ := h.fresh sid' hle
    have hunopened := fun kind' =>
      hframe sid' kind' .unopened ⟨hfd' kind', fun g => hfiles g kind'⟩
    exact ⟨hc, h0, hfd', fun g kind' => (hunopened kind').2 g⟩
  case named =>
    intro g sid' kind' hg
    change update c.files fd f g = some (.pipe sid' kind') at hg
    by_cases hgf : g = fd
    · rw [hgf, update_self] at hg
      exact absurd hg (hnew sid' kind')
    · rw [update_of_ne hgf] at hg
      exact h.named g sid' kind' hg
  case nonneg =>
    intro g hg
    change update c.files fd f g ≠ none at hg
    by_cases hgf : g = fd
    · rw [hgf, update_self] at hg
      rw [hgf]
      exact hfd hg
    · rw [update_of_ne hgf] at hg
      exact h.nonneg g hg
  case one => exact h.one
  case aside => exact h.aside
  case begun => exact h.begun
  case cleanedOnce => exact h.cleanedOnce
  case atMostOnce => exact h.atMostOnce
  case pipes => exact fun b sid' kind' hb => hframe sid' kind' _ (h.pipes b sid' kind' hb)
  case left => exact fun sid' kind' hlt hno => hframe sid' kind' _ (h.left sid' kind' hlt hno)

theorem step {d : Life A} (hs : Step host c d) : Inv host d := by
  cases hs with
  | stay => exact h
  | take ha hp => exact h.take ha hp
  | opened hp hkind hfd hfree => exact h.opened hp hkind hfd hfree
  | refused hp => exact h.refused hp
  | next hp => exact h.next hp
  | unpark hp hc hnext => exact h.unpark hp hc hnext
  | leave hp => exact h.leave hp
  | teardown hp => exact h.teardown hp
  | clean hp hsid h0 hparked => exact h.clean hp hsid h0 hparked
  | close hp hkind => exact h.close hp hkind
  | finish hp => exact h.finish hp
  | openFile hfd hfree => exact h.other (by simp [hfree]) (by simp) fun _ => hfd
  | closeFile hf => exact h.other (by simp [hf]) (by simp) (by simp)

end Inv

namespace Step

variable [DecidableEq A] {host : A} {c d : Life A} (hs : Step host c d) {a : A} {sid : Sid}
include hs

theorem next_le : c.next ≤ d.next := by
  cases hs with
  | take => exact Nat.le_succ _
  | _ => exact le_rfl

theorem teardowns_le : c.teardowns sid ≤ d.teardowns sid := by
  have hcount : ∀ sid', c.teardowns sid ≤
      update c.teardowns sid' (c.teardowns sid' + 1) sid := by
    intro sid'
    rw [update_apply]
    split_ifs with heq
    · rw [heq]
      exact Nat.le_succ _
    · exact le_rfl
  cases hs with
  | teardown => exact hcount _
  | clean => exact hcount _
  | _ => exact le_rfl

theorem cleaned_of (h : c.cleaned sid = true) : d.cleaned sid = true := by
  cases hs with
  | @clean sid' =>
    simp only [goto, update_apply]
    split_ifs
    · rfl
    · exact h
  | _ => exact h

omit a in
theorem taken (h : sid < d.next) : sid < c.next ∨ ∃ a, (d.phase a).session = some sid := by
  cases hs with
  | @take a =>
    rcases Nat.lt_succ_iff_lt_or_eq.mp h with hlt | rfl
    · exact .inl hlt
    · exact .inr ⟨a, by simp [goto, Phase.session]⟩
  | _ => exact .inl h

omit a in
/-- A teardown that is counted is going on. -/
theorem counted (h : d.teardowns sid ≠ c.teardowns sid) :
    ∃ a todo, d.phase a = .tearing sid todo := by
  have hsame : ∀ sid', update c.teardowns sid' (c.teardowns sid' + 1) sid ≠ c.teardowns sid →
      sid' = sid := by
    intro sid' hne
    by_contra hsid
    exact hne (update_of_ne (Ne.symm hsid) ..)
  cases hs with
  | teardown =>
    obtain rfl := hsame _ h
    exact ⟨_, _, phase_goto_self ..⟩
  | clean =>
    obtain rfl := hsame _ h
    exact ⟨_, _, phase_goto_self ..⟩
  | _ => exact absurd rfl h

/-- A thread goes on with a teardown until it is away. -/
theorem tearing {todo : List Kind} (h : c.phase a = .tearing sid todo) :
    (∃ todo, d.phase a = .tearing sid todo) ∨ d.phase a = .away := by
  have hgoto : ∀ b p, (c.phase b = .tearing sid todo → (∃ todo, p = .tearing sid todo) ∨
      p = .away) → (∃ todo, update c.phase b p a = .tearing sid todo) ∨
        update c.phase b p a = .away := by
    intro b p hp
    rw [update_apply]
    split_ifs with hab
    · exact hp (hab ▸ h)
    · exact .inl ⟨todo, h⟩
  cases hs with
  | stay => exact .inl ⟨todo, h⟩
  | openFile => exact .inl ⟨todo, h⟩
  | closeFile => exact .inl ⟨todo, h⟩
  | take _ hp => exact hgoto _ _ fun hb => by rw [hp] at hb; cases hb
  | opened hp => exact hgoto _ _ fun hb => by rw [hp] at hb; cases hb
  | refused hp => exact hgoto _ _ fun hb => by rw [hp] at hb; cases hb
  | next hp =>
    refine hgoto _ _ fun hb => ?_
    rw [hb] at hp
    cases hp
  | unpark hp => exact hgoto _ _ fun hb => by rw [hp] at hb; cases hb
  | leave => exact hgoto _ _ fun _ => .inr rfl
  | teardown hp => exact hgoto _ _ fun hb => by rw [hp] at hb; cases hb
  | clean hp => exact hgoto _ _ fun hb => by rw [hp] at hb; cases hb
  | close hp =>
    refine hgoto _ _ fun hb => .inl ?_
    rw [hp] at hb
    cases hb
    exact ⟨_, rfl⟩
  | finish => exact hgoto _ _ fun _ => .inr rfl

/-- The session of a thread is one it had, a new one, or one that the host takes over. -/
theorem origin (h : (d.phase a).session = some sid) :
    (c.phase a).session = some sid ∨ sid = c.next ∨ a = host ∧ c.teardowns sid = 0 := by
  have hgoto : ∀ b p, (update c.phase b p a).session = some sid →
      (p.session = some sid → (c.phase b).session = some sid ∨ sid = c.next ∨
        b = host ∧ c.teardowns sid = 0) →
      (c.phase a).session = some sid ∨ sid = c.next ∨ a = host ∧ c.teardowns sid = 0 := by
    intro b p hp hb
    rw [update_apply] at hp
    split_ifs at hp with hab
    · rw [hab]
      exact hb hp
    · exact .inl hp
  cases hs with
  | stay => exact .inl h
  | openFile => exact .inl h
  | closeFile => exact .inl h
  | take => exact hgoto _ _ h fun hp => .inr (.inl (Option.some.inj hp).symm)
  | opened hp => exact hgoto _ _ h fun h' => .inl (by rw [hp]; exact h')
  | refused hp => exact hgoto _ _ h fun h' => .inl (by rw [hp]; exact h')
  | next hp =>
    refine hgoto _ _ h fun h' => .inl ?_
    generalize c.phase _ = q at hp
    cases hp <;> exact h'
  | unpark hp _ hnext =>
    refine hgoto _ _ h fun h' => .inl ?_
    rw [hp]
    rcases hnext with rfl | rfl <;> exact h'
  | leave => exact hgoto _ _ h nofun
  | teardown hp => exact hgoto _ _ h fun h' => .inl (by rw [hp]; exact h')
  | clean _ _ h0 =>
    refine hgoto _ _ h fun h' => .inr (.inr ⟨rfl, ?_⟩)
    obtain rfl := Option.some.inj h'
    exact h0
  | close hp => exact hgoto _ _ h fun h' => .inl (by rw [hp]; exact h')
  | finish => exact hgoto _ _ h nofun

/-- A thread ends its session when it has torn it down, or without tearing it down. -/
theorem lost (h : (c.phase a).session = some sid) (h' : (d.phase a).session ≠ some sid) :
    c.phase a = .tearing sid [] ∨ c.phase a = .parked sid ∨ c.phase a = .serving sid := by
  have hgoto : ∀ b p, (update c.phase b p a).session ≠ some sid →
      ((c.phase b).session = some sid → p.session ≠ some sid → c.phase b = .tearing sid [] ∨
        c.phase b = .parked sid ∨ c.phase b = .serving sid) →
      c.phase a = .tearing sid [] ∨ c.phase a = .parked sid ∨ c.phase a = .serving sid := by
    intro b p hp hb
    rw [update_apply] at hp
    split_ifs at hp with hab
    · rw [hab] at h ⊢
      exact hb h hp
    · exact absurd h hp
  cases hs with
  | stay => exact absurd h h'
  | openFile => exact absurd h h'
  | closeFile => exact absurd h h'
  | take _ hp => exact hgoto _ _ h' fun hb => by rw [hp] at hb; cases hb
  | opened hp => exact hgoto _ _ h' fun hb hn => absurd (by rw [hp] at hb; exact hb) hn
  | refused hp => exact hgoto _ _ h' fun hb hn => absurd (by rw [hp] at hb; exact hb) hn
  | next hp =>
    refine hgoto _ _ h' fun hb hn => absurd ?_ hn
    generalize c.phase _ = q at hp hb
    cases hp <;> exact hb
  | unpark hp _ hnext =>
    refine hgoto _ _ h' fun hb hn => absurd ?_ hn
    rw [hp] at hb
    rcases hnext with rfl | rfl <;> exact hb
  | leave hp =>
    refine hgoto _ _ h' fun hb _ => .inr ?_
    rcases hp with hp | hp <;> rw [hp] at hb ⊢ <;> cases hb
    · exact .inl rfl
    · exact .inr rfl
  | teardown hp => exact hgoto _ _ h' fun hb hn => absurd (by rw [hp] at hb; exact hb) hn
  | clean hp => exact hgoto _ _ h' fun hb => by rw [hp] at hb; cases hb
  | close hp => exact hgoto _ _ h' fun hb hn => absurd (by rw [hp] at hb; exact hb) hn
  | finish hp =>
    refine hgoto _ _ h' fun hb _ => .inl ?_
    rw [hp] at hb ⊢
    cases hb
    rfl

/-- A thread that is bound to tear its session down stays so until it is away. -/
theorem doomed (h : (c.phase a).doomed = true) : (d.phase a).doomed = true ∨ d.phase a = .away := by
  have hgoto : ∀ b p, ((c.phase b).doomed = true → p.doomed = true ∨ p = .away) →
      (update c.phase b p a).doomed = true ∨ update c.phase b p a = .away := by
    intro b p hp
    rw [update_apply]
    split_ifs with hab
    · rw [hab] at h
      exact hp h
    · exact .inl h
  cases hs with
  | stay => exact .inl h
  | openFile => exact .inl h
  | closeFile => exact .inl h
  | take _ hp => exact hgoto _ _ fun hb => by rw [hp] at hb; cases hb
  | opened hp => exact hgoto _ _ fun hb => .inl (by rw [hp] at hb; exact hb)
  | refused => exact hgoto _ _ fun _ => .inl rfl
  | next hp =>
    refine hgoto _ _ fun hb => .inl ?_
    generalize c.phase _ = q at hp hb
    cases hp <;> first | rfl | cases hb
  | unpark hp => exact hgoto _ _ fun hb => by rw [hp] at hb; cases hb
  | leave => exact hgoto _ _ fun _ => .inr rfl
  | teardown => exact hgoto _ _ fun _ => .inl rfl
  | clean => exact hgoto _ _ fun _ => .inl rfl
  | close => exact hgoto _ _ fun _ => .inl rfl
  | finish => exact hgoto _ _ fun _ => .inr rfl

end Step

end Life

end IstKvs.Server
