import IstKvs.Host.Queue
import Mathlib.Algebra.Order.BigOperators.Group.Finset
import Mathlib.Data.Fintype.BigOperators

/-! The tokens of the two semaphores. As long as no signal arrives while a restart is
outstanding and none interrupts the host in `sem_wait`, every post of a handler is
consumed by the restart it asks for, so that the free slots, the stored pointers and
the tokens that threads hold always add up to the size of the buffer. -/

namespace IstKvs.Host

open IstKvs.Systems Function

variable {ι : Type*}

/-! ### Who holds tokens -/

/-- The host has waited for a slot and has not used it. -/
def HostStage.token : HostStage → ℕ
  | .check | .reading | .resetControl | .alloc | .failed | .store _ => 1
  | _ => 0

/-- The host has stored a pointer and not posted it. -/
def HostStage.unposted : HostStage → ℕ
  | .advance | .postRead => 1
  | _ => 0

def HostStage.restarting : HostStage → Bool
  | .restart | .resetRestart => true
  | _ => false

/-- The host is going to use its token for a pointer. -/
def HostStage.storing : HostStage → Bool
  | .reading | .resetControl | .alloc | .store _ => true
  | _ => false

/-- The thread has waited for a pointer and not taken it. -/
def ClientStage.claim : ClientStage → ℕ
  | .lock | .take => 1
  | _ => 0

/-- The thread has taken a pointer and not posted its slot. -/
def ClientStage.debt : ClientStage → ℕ
  | .free _ | .advance | .unlock | .post => 1
  | _ => 0

def ClientStage.critical : ClientStage → Bool
  | .take | .free _ | .advance | .unlock => true
  | _ => false

/-- Posts of handlers that are still to come. -/
def State.pending (s : State ι) : ℕ := s.mainHandler.toNat + s.hostHandler.toNat

/-- The token of a handler whose restart has not begun. -/
def State.extra (s : State ι) : ℕ := (s.restartClients && !s.host.restarting).toNat

section Sums
variable [Fintype ι]

def State.claims (s : State ι) : ℕ := ∑ i, (s.client i).claim

def State.debts (s : State ι) : ℕ := ∑ i, (s.client i).debt

variable [DecidableEq ι]

theorem sum_update (w : ClientStage → ℕ) (f : ι → ClientStage) (i : ι) (x : ClientStage) :
    ∑ j, w (update f i x j) + w (f i) = ∑ j, w (f j) + w x := by
  have h : ∀ g : ι → ClientStage, ∑ j, w (g j) = w (g i) + ∑ j ∈ Finset.univ.erase i, w (g j) :=
    fun g => (Finset.add_sum_erase Finset.univ (fun j => w (g j)) (Finset.mem_univ i)).symm
  have hrest : ∑ j ∈ Finset.univ.erase i, w (update f i x j) = ∑ j ∈ Finset.univ.erase i, w (f j) :=
    Finset.sum_congr rfl fun j hj => by rw [update_of_ne (Finset.ne_of_mem_erase hj)]
  rw [h (update f i x), h f, hrest, update_self]
  omega

theorem claims_goto (s : State ι) (i : ι) (x : ClientStage) :
    (s.goto i x).claims + (s.client i).claim = s.claims + x.claim :=
  sum_update ClientStage.claim s.client i x

theorem debts_goto (s : State ι) (i : ι) (x : ClientStage) :
    (s.goto i x).debts + (s.client i).debt = s.debts + x.debt :=
  sum_update ClientStage.debt s.client i x

/-! ### The counts -/

/-- Free slots, posts to come, stored pointers and the tokens that threads hold add up
to the size of the buffer, and one more while a restart has been asked for. -/
structure Counts (s : State ι) : Prop where
  tokens : s.writeSem + s.pending + s.host.token + s.stored.length + s.debts =
    maxSessionCount + s.extra + s.taken.length
  reads : s.readSem + s.host.unposted + s.claims + s.taken.length = s.stored.length
  restarting : s.host.restarting = true → s.restartClients = true
  room : s.host.storing = true → s.extra ≤ s.writeSem + s.pending
  bound : s.stored.length ≤ s.taken.length + maxSessionCount
  notBlocked : s.hostHandler = true → s.host ≠ .blocked

omit [DecidableEq ι] in
theorem counts_initial : Counts (State.initial : State ι) where
  tokens := by
    simp [State.initial, State.pending, HostStage.token, State.debts, ClientStage.debt, State.extra]
  reads := by simp [State.initial, HostStage.unposted, State.claims, ClientStage.claim]
  restarting := by simp [State.initial, HostStage.restarting]
  room := by simp [State.initial, HostStage.storing]
  bound := by simp [State.initial]
  notBlocked := by simp [State.initial]

variable {s t : State ι}

omit [DecidableEq ι] in
/-- Every step of the host moves its token on, gives it back or stores a pointer for it. -/
theorem Counts.hostStep (h : Counts s) {ok : Bool} (hh : s.hostHandler = false)
    (hs : hostStep s ok = some t) : Counts t := by
  obtain ⟨htok, hread, hrest, hroom, hbound, -⟩ := h
  unfold Host.hostStep at hs
  cases hr : s.restartClients <;> cases hst : s.host <;>
    simp only [hst, hr, Bool.false_eq_true, if_false, if_true] at hs
  all_goals try split_ifs at hs
  all_goals obtain rfl := Option.some.inj hs
  all_goals
    simp [hst, hr, hh, State.pending, State.extra, State.debts, State.claims, HostStage.token,
      HostStage.unposted, HostStage.restarting, HostStage.storing] at htok hread hrest hroom <;>
    refine ⟨?_, ?_, ?_, ?_, ?_, ?_⟩ <;>
      simp [hh, State.pending, State.extra, State.debts, State.claims, HostStage.token,
        HostStage.unposted, HostStage.restarting, HostStage.storing] <;> omega

/-- A client thread moves on and changes only the semaphores and what it has taken,
each by what its own tokens change. -/
theorem Counts.goto (h : Counts s) {i : ι} {x : ClientStage} {s' : State ι}
    (hsame : s'.host = s.host ∧ s'.restartClients = s.restartClients ∧
      s'.mainHandler = s.mainHandler ∧ s'.hostHandler = s.hostHandler ∧ s'.client = s.client ∧
      s'.stored = s.stored)
    (htok : s'.writeSem + x.debt + s.taken.length =
      s.writeSem + (s.client i).debt + s'.taken.length)
    (hread : s'.readSem + x.claim + s'.taken.length =
      s.readSem + (s.client i).claim + s.taken.length)
    (hroom : s.writeSem ≤ s'.writeSem) (htaken : s.taken.length ≤ s'.taken.length) :
    Counts (s'.goto i x) := by
  obtain ⟨hhost, hrs, hmain, hhh, hclient, hstored⟩ := hsame
  have hclaim := claims_goto s' i x
  have hdebt := debts_goto s' i x
  have hclaims : s'.claims = s.claims := by rw [State.claims, hclient, State.claims]
  have hdebts : s'.debts = s.debts := by rw [State.debts, hclient, State.debts]
  have hpend : (s'.goto i x).pending = s.pending := by
    rw [State.pending, State.pending, ← hmain, ← hhh]
    rfl
  have hextra : (s'.goto i x).extra = s.extra := by
    rw [State.extra, State.extra, ← hrs, ← hhost]
    rfl
  rw [hclient] at hclaim hdebt
  obtain ⟨h₁, h₂, h₃, h₄, h₅, h₆⟩ := h
  refine ⟨?_, ?_, ?_, ?_, ?_, ?_⟩
  · show s'.writeSem + (s'.goto i x).pending + s'.host.token + s'.stored.length +
      (s'.goto i x).debts = maxSessionCount + (s'.goto i x).extra + s'.taken.length
    rw [hpend, hextra, hhost, hstored]
    omega
  · show s'.readSem + s'.host.unposted + (s'.goto i x).claims + s'.taken.length = s'.stored.length
    rw [hhost, hstored]
    omega
  · simpa only [State.goto, hhost, hrs] using h₃
  · rw [hpend, hextra]
    simp only [State.goto, hhost]
    intro hst
    have := h₄ hst
    omega
  · simp only [State.goto, hstored]
    omega
  · simpa only [State.goto, hhost, hhh] using h₆

theorem Counts.clientStep (h : Counts s) {i : ι} (hs : clientStep s i = some t) : Counts t := by
  have hsame : s.host = s.host ∧ s.restartClients = s.restartClients ∧
      s.mainHandler = s.mainHandler ∧ s.hostHandler = s.hostHandler ∧ s.client = s.client ∧
      s.stored = s.stored := ⟨rfl, rfl, rfl, rfl, rfl, rfl⟩
  unfold Host.clientStep at hs
  cases hst : s.client i <;> rw [hst] at hs <;> simp only at hs
  case take =>
    obtain ⟨p, -, rfl⟩ := Option.map_eq_some_iff.mp hs
    refine h.goto hsame ?_ ?_ ?_ ?_ <;> simp [hst, ClientStage.debt, ClientStage.claim] <;> omega
  all_goals try split_ifs at hs
  all_goals obtain rfl := Option.some.inj hs
  all_goals
    refine h.goto hsame ?_ ?_ ?_ ?_ <;> simp [hst, ClientStage.debt, ClientStage.claim] <;> omega

omit [DecidableEq ι] in
/-- A handler asks for a restart only when none is outstanding, and promises its post. -/
theorem Counts.signalStep (h : Counts s) {onHost : Bool}
    (hfree : s.restartClients = false) (hblk : onHost = true → s.host ≠ .blocked)
    (hs : signalStep s onHost = some t) : Counts t := by
  obtain ⟨htok, hread, hrest, hroom, hbound, hnb⟩ := h
  have hnr : s.host.restarting = false := by
    by_contra hne
    simp [hfree] at hrest
    exact hne hrest
  simp only [State.pending, State.extra, hfree, Bool.false_and, Bool.toNat_false] at htok hroom
  cases onHost with
  | false =>
    simp only [Host.signalStep] at hs
    split_ifs at hs with hm
    obtain rfl := Option.some.inj hs
    simp only [Bool.not_eq_true] at hm
    rw [hm, Bool.toNat_false] at htok hroom
    refine ⟨?_, hread, fun _ => rfl, fun _ => ?_, hbound, hnb⟩
    · simp only [State.pending, State.extra, hnr, Bool.not_false, Bool.and_true, Bool.toNat_true]
      change _ + _ + _ + _ + s.debts = _
      omega
    · simp only [State.pending, State.extra, hnr, Bool.not_false, Bool.and_true, Bool.toNat_true]
      omega
  | true =>
    simp only [Host.signalStep] at hs
    split_ifs at hs with hm
    obtain rfl := Option.some.inj hs
    simp only [Bool.not_eq_true] at hm
    rw [hm, Bool.toNat_false] at htok hroom
    refine ⟨?_, hread, fun _ => rfl, fun _ => ?_, hbound, fun _ => hblk rfl⟩
    · simp only [State.pending, State.extra, hnr, Bool.not_false, Bool.and_true, Bool.toNat_true]
      change _ + _ + _ + _ + s.debts = _
      omega
    · simp only [State.pending, State.extra, hnr, Bool.not_false, Bool.and_true, Bool.toNat_true]
      omega

omit [DecidableEq ι] in
theorem Counts.postStep (h : Counts s) {onHost : Bool} (hs : postStep s onHost = some t) :
    Counts t := by
  obtain ⟨htok, hread, hrest, hroom, hbound, hnb⟩ := h
  simp only [State.pending] at htok hroom
  cases onHost with
  | false =>
    simp only [Host.postStep] at hs
    split_ifs at hs with hm
    obtain rfl := Option.some.inj hs
    rw [hm, Bool.toNat_true] at htok hroom
    refine ⟨?_, hread, hrest, fun hst => ?_, hbound, hnb⟩
    · simp only [State.pending, Bool.toNat_false]
      change _ + _ + _ + _ + s.debts = _ + s.extra + _
      omega
    · have := hroom hst
      simp only [State.pending, Bool.toNat_false]
      change s.extra ≤ _
      omega
  | true =>
    simp only [Host.postStep] at hs
    split_ifs at hs with hm hb
    · exact absurd hb (hnb hm)
    · obtain rfl := Option.some.inj hs
      rw [hm, Bool.toNat_true] at htok hroom
      refine ⟨?_, hread, hrest, fun hst => ?_, hbound, fun hh => by cases hh⟩
      · simp only [State.pending, Bool.toNat_false]
        change _ + _ + _ + _ + s.debts = _ + s.extra + _
        omega
      · have := hroom hst
        simp only [State.pending, Bool.toNat_false]
        change s.extra ≤ _
        omega

theorem Counts.step (h : Counts s) {a : Label ι} (hcalm : calm s a = true)
    (hs : step s a = some t) : Counts t := by
  cases a with
  | host ok =>
    rw [Host.step] at hs
    split_ifs at hs with hh
    exact h.hostStep (by simpa using hh) hs
  | client i => exact h.clientStep hs
  | signal onHost =>
    simp only [calm, Bool.and_eq_true, Bool.not_eq_true', Bool.and_eq_false_iff,
      decide_eq_false_iff_not] at hcalm
    refine h.signalStep hcalm.1 (fun ho => ?_) hs
    rcases hcalm.2 with hf | hf
    · simp [ho] at hf
    · exact hf
  | post onHost => exact h.postStep hs

omit [DecidableEq ι] in
/-- The token of the host keeps a slot free for the pointer it is about to store. -/
theorem Counts.store_lt (h : Counts s) {p : Pointer} (hst : s.host = .store p) :
    s.stored.length < s.taken.length + maxSessionCount := by
  have htok := h.tokens
  have hroom := h.room (by rw [hst]; rfl)
  rw [hst, HostStage.token] at htok
  omega

omit [DecidableEq ι] in
/-- A thread that has waited for a pointer finds one. -/
theorem Counts.take_lt (h : Counts s) {i : ι} (hst : s.client i = .take) :
    s.taken.length < s.stored.length := by
  have hread := h.reads
  have hle : (s.client i).claim ≤ s.claims :=
    Finset.single_le_sum (f := fun j => (s.client j).claim) (fun _ _ => Nat.zero_le _)
      (Finset.mem_univ i)
  rw [hst, ClientStage.claim] at hle
  omega

end Sums

/-! ### The circular buffer -/

def HostStage.behind : HostStage → ℕ
  | .advance => 1
  | _ => 0

def ClientStage.behind : ClientStage → ℕ
  | .free _ | .advance => 1
  | _ => 0

/-- A pointer that was taken and is still to be freed. -/
def ClientStage.held : ClientStage → List Pointer
  | .free p => [p]
  | _ => []

def State.outBehind (s : State ι) : ℕ := s.clientsBufferMutex.elim 0 fun i => (s.client i).behind

def State.held (s : State ι) : List Pointer :=
  s.clientsBufferMutex.elim [] fun i => (s.client i).held

/-- The pointers not yet taken are in the slots from `out` to `in`, and every pointer
taken is freed or held by the thread in the critical section. -/
structure Ring (s : State ι) : Prop where
  taken : s.taken <+: s.stored
  slots : ∀ j, s.taken.length ≤ j → j < s.stored.length →
    s.clientsBuffer (j % maxSessionCount) = s.stored[j]?
  inIndex : s.inIndex = (s.stored.length - s.host.behind) % maxSessionCount
  inPos : s.host.behind ≤ s.stored.length
  mutex : ∀ i, (s.client i).critical = true ↔ s.clientsBufferMutex = some i
  outIndex : s.outIndex = (s.taken.length - s.outBehind) % maxSessionCount
  outPos : s.outBehind ≤ s.taken.length
  freed : s.freed ++ s.held = s.taken
  fresh : ∀ p ∈ s.stored, p < s.allocated
  store : ∀ p, s.host = .store p → p < s.allocated ∧ p ∉ s.stored
  nodup : s.stored.Nodup

theorem ring_initial : Ring (State.initial : State ι) where
  taken := List.nil_prefix
  slots := by simp [State.initial]
  inIndex := rfl
  inPos := by simp [State.initial, HostStage.behind]
  mutex := by simp [State.initial, ClientStage.critical]
  outIndex := rfl
  outPos := by simp [State.initial, State.outBehind]
  freed := rfl
  fresh := by simp [State.initial]
  store := by simp [State.initial]
  nodup := List.nodup_nil

theorem next_mod (n : ℕ) : next (n % maxSessionCount) = (n + 1) % maxSessionCount := by
  rcases Nat.mod_two_eq_zero_or_one n with h | h <;> simp [next, maxSessionCount, h] <;> omega

section Ring
variable {s t : State ι}

/-- Steps that leave the buffer and the client threads alone. -/
theorem Ring.frame (h : Ring s) (hbuf : t.clientsBuffer = s.clientsBuffer)
    (hidx : t.inIndex = s.inIndex ∧ t.outIndex = s.outIndex)
    (hthread : t.clientsBufferMutex = s.clientsBufferMutex ∧ t.client = s.client)
    (hlists : t.stored = s.stored ∧ t.taken = s.taken ∧ t.freed = s.freed)
    (halloc : t.allocated = s.allocated) (hb : t.host.behind = s.host.behind)
    (hst : ∀ p, t.host = .store p → s.host = .store p) : Ring t := by
  obtain ⟨hin, hout⟩ := hidx
  obtain ⟨hm, hc⟩ := hthread
  obtain ⟨hs, ht, hf⟩ := hlists
  have hob : t.outBehind = s.outBehind := by rw [State.outBehind, hm, hc, State.outBehind]
  have hheld : t.held = s.held := by rw [State.held, hm, hc, State.held]
  refine ⟨?_, ?_, ?_, ?_, ?_, ?_, ?_, ?_, ?_, ?_, ?_⟩
  · rw [hs, ht]; exact h.taken
  · rw [hs, ht, hbuf]; exact h.slots
  · rw [hin, hs, hb]; exact h.inIndex
  · rw [hs, hb]; exact h.inPos
  · rw [hc, hm]; exact h.mutex
  · rw [hout, ht, hob]; exact h.outIndex
  · rw [ht, hob]; exact h.outPos
  · rw [hf, hheld, ht]; exact h.freed
  · rw [hs, halloc]; exact h.fresh
  · intro p hp
    rw [hs, halloc]
    exact h.store p (hst p hp)
  · rw [hs]; exact h.nodup

theorem Ring.hostStep (h : Ring s) (hroom : ∀ p, s.host = .store p →
    s.stored.length < s.taken.length + maxSessionCount) {ok : Bool}
    (hs : hostStep s ok = some t) : Ring t := by
  unfold Host.hostStep at hs
  cases hst : s.host with
  | store p =>
    rw [hst] at hs
    obtain rfl := Option.some.inj hs
    obtain ⟨hp, hnew⟩ := h.store p hst
    have hlt := hroom p hst
    have hle := h.taken.length_le
    have hin : s.inIndex = s.stored.length % maxSessionCount := by
      rw [h.inIndex, hst]
      rfl
    refine ⟨h.taken.trans (List.prefix_append _ _), fun j hj hjm => ?_, ?_, ?_, h.mutex, h.outIndex,
      h.outPos, h.freed, ?_, (fun q hq => by cases hq), ?_⟩
    · simp only [List.length_append, List.length_singleton] at hjm
      by_cases hjl : j = s.stored.length
      · simp [hjl, hin]
      · -- an untaken pointer is in another slot
        have hne : j % maxSessionCount ≠ s.inIndex := by
          rw [hin]
          simp only [maxSessionCount] at hlt ⊢
          simp only at hj
          omega
        simp only
        rw [update_of_ne hne, h.slots j hj (by omega), List.getElem?_append_left (by omega)]
    · simp [hin, HostStage.behind]
    · simp [HostStage.behind]
    · intro q hq
      rcases List.mem_append.mp hq with hq | hq
      · exact h.fresh q hq
      · simpa [List.mem_singleton.mp hq] using hp
    · exact h.nodup.append (List.nodup_singleton p) (by simpa using hnew)
  | advance =>
    rw [hst] at hs
    obtain rfl := Option.some.inj hs
    have hpos := h.inPos
    have hin := h.inIndex
    rw [hst, HostStage.behind] at hpos hin
    refine ⟨h.taken, h.slots, ?_, Nat.zero_le _, h.mutex, h.outIndex, h.outPos, h.freed, h.fresh,
      (fun q hq => by cases hq), h.nodup⟩
    simp only [HostStage.behind, hin, next_mod]
    congr 1
    omega
  | alloc =>
    rw [hst] at hs
    simp only at hs
    split_ifs at hs
    · obtain rfl := Option.some.inj hs
      have hin : s.inIndex = s.stored.length % maxSessionCount := by
        rw [h.inIndex, hst]
        rfl
      refine ⟨h.taken, h.slots, hin, Nat.zero_le _, h.mutex, h.outIndex, h.outPos, h.freed,
        fun q hq => (h.fresh q hq).trans (Nat.lt_succ_self _), fun q hq => ?_, h.nodup⟩
      obtain rfl := HostStage.store.inj hq
      exact ⟨Nat.lt_succ_self _, fun hm => absurd (h.fresh _ hm) (Nat.lt_irrefl _)⟩
    · obtain rfl := Option.some.inj hs
      refine h.frame rfl ⟨rfl, rfl⟩ ⟨rfl, rfl⟩ ⟨rfl, rfl, rfl⟩ rfl ?_ ?_ <;>
        simp [hst, HostStage.behind]
  | wait | blocked | check | restart | resetRestart | reading | resetControl | failed | postRead =>
    rw [hst] at hs
    simp only at hs
    try split_ifs at hs
    all_goals
      obtain rfl := Option.some.inj hs
      refine h.frame rfl ⟨rfl, rfl⟩ ⟨rfl, rfl⟩ ⟨rfl, rfl, rfl⟩ rfl ?_ ?_ <;>
        simp [hst, HostStage.behind]

theorem Ring.signalStep (h : Ring s) {onHost : Bool} (hs : signalStep s onHost = some t) :
    Ring t := by
  cases onHost <;> simp only [Host.signalStep] at hs <;> split_ifs at hs <;>
    obtain rfl := Option.some.inj hs <;>
    exact h.frame rfl ⟨rfl, rfl⟩ ⟨rfl, rfl⟩ ⟨rfl, rfl, rfl⟩ rfl rfl fun _ => id

theorem Ring.postStep (h : Ring s) {onHost : Bool} (hs : postStep s onHost = some t) : Ring t := by
  cases onHost <;> simp only [Host.postStep] at hs <;> split_ifs at hs
  all_goals obtain rfl := Option.some.inj hs
  · exact h.frame rfl ⟨rfl, rfl⟩ ⟨rfl, rfl⟩ ⟨rfl, rfl, rfl⟩ rfl rfl fun _ => id
  · next _ hb =>
    refine h.frame rfl ⟨rfl, rfl⟩ ⟨rfl, rfl⟩ ⟨rfl, rfl, rfl⟩ rfl ?_ ?_ <;>
      simp [hb, HostStage.behind]
  · exact h.frame rfl ⟨rfl, rfl⟩ ⟨rfl, rfl⟩ ⟨rfl, rfl, rfl⟩ rfl rfl fun _ => id

variable [DecidableEq ι]

/-- A thread outside its critical section moves on. -/
theorem Ring.outside (h : Ring s) {i : ι} {x : ClientStage} {s' : State ι}
    (hsame : s'.clientsBuffer = s.clientsBuffer ∧ s'.inIndex = s.inIndex ∧
      s'.outIndex = s.outIndex ∧ s'.clientsBufferMutex = s.clientsBufferMutex ∧
      s'.client = s.client ∧ s'.stored = s.stored ∧ s'.taken = s.taken ∧ s'.freed = s.freed ∧
      s'.allocated = s.allocated ∧ s'.host = s.host)
    (hold : (s.client i).critical = false) (hnew : x.critical = false) : Ring (s'.goto i x) := by
  obtain ⟨hbuf, hin, hout, hm, hc, hs, ht, hf, ha, hh⟩ := hsame
  have hother : ∀ j, s.clientsBufferMutex = some j → (s'.goto i x).client j = s.client j := by
    intro j hj
    have hji : j ≠ i := by
      rintro rfl
      rw [← h.mutex j, hold] at hj
      cases hj
    simp only [State.goto, hc, update_of_ne hji]
  have hob : (s'.goto i x).outBehind = s.outBehind := by
    show s'.clientsBufferMutex.elim 0 _ = _
    rw [State.outBehind, hm]
    cases hmx : s.clientsBufferMutex with
    | none => rfl
    | some j => rw [Option.elim_some, Option.elim_some, hother j hmx]
  have hheld : (s'.goto i x).held = s.held := by
    show s'.clientsBufferMutex.elim [] _ = _
    rw [State.held, hm]
    cases hmx : s.clientsBufferMutex with
    | none => rfl
    | some j => rw [Option.elim_some, Option.elim_some, hother j hmx]
  have hmutex : ∀ j, ((s'.goto i x).client j).critical = true ↔ s.clientsBufferMutex = some j := by
    intro j
    by_cases hji : j = i
    · subst hji
      rw [← h.mutex j, hold]
      simp [State.goto, hnew]
    · rw [← h.mutex j]
      simp only [State.goto, hc, update_of_ne hji]
  refine ⟨?_, ?_, ?_, ?_, ?_, ?_, ?_, ?_, ?_, ?_, ?_⟩
  · show s'.taken <+: s'.stored
    rw [hs, ht]
    exact h.taken
  · show ∀ j, s'.taken.length ≤ j → j < s'.stored.length → s'.clientsBuffer _ = s'.stored[j]?
    rw [hs, ht, hbuf]
    exact h.slots
  · show s'.inIndex = (s'.stored.length - s'.host.behind) % _
    rw [hin, hs, hh]
    exact h.inIndex
  · show s'.host.behind ≤ s'.stored.length
    rw [hs, hh]
    exact h.inPos
  · show ∀ j, _ ↔ s'.clientsBufferMutex = some j
    rw [hm]
    exact hmutex
  · show s'.outIndex = (s'.taken.length - _) % _
    rw [hout, ht, hob]
    exact h.outIndex
  · show _ ≤ s'.taken.length
    rw [ht, hob]
    exact h.outPos
  · show s'.freed ++ _ = s'.taken
    rw [hf, hheld, ht]
    exact h.freed
  · show ∀ p ∈ s'.stored, p < s'.allocated
    rw [hs, ha]
    exact h.fresh
  · show ∀ p, s'.host = .store p → p < s'.allocated ∧ p ∉ s'.stored
    rw [hs, ha, hh]
    exact h.store
  · show s'.stored.Nodup
    rw [hs]
    exact h.nodup

/-- What the steps inside the critical section have in common: the thread holds the
mutex, and which thread is inside does not change. -/
theorem Ring.inside (h : Ring s) {i : ι} (hold : (s.client i).critical = true) :
    s.clientsBufferMutex = some i ∧ s.outBehind = (s.client i).behind ∧
      s.held = (s.client i).held ∧ ∀ x : ClientStage, x.critical = true → ∀ j,
        (update s.client i x j).critical = true ↔ s.clientsBufferMutex = some j := by
  have hm := (h.mutex i).mp hold
  refine ⟨hm, by rw [State.outBehind, hm, Option.elim_some],
    by rw [State.held, hm, Option.elim_some], fun x hx j => ?_⟩
  by_cases hji : j = i
  · subst hji
    simp [hx, hm]
  · rw [update_of_ne hji]
    exact h.mutex j

/-- What the ring says of the thread that is inside, by its stage. -/
theorem Ring.inside_stage (h : Ring s) {i : ι} {x : ClientStage} (hst : s.client i = x)
    (hx : x.critical = true) :
    s.clientsBufferMutex = some i ∧
      s.outIndex = (s.taken.length - x.behind) % maxSessionCount ∧
      x.behind ≤ s.taken.length ∧ s.freed ++ x.held = s.taken := by
  obtain ⟨hm, hob, hheld, -⟩ := h.inside (i := i) (by rw [hst, hx])
  rw [hst] at hob hheld
  exact ⟨hm, hob ▸ h.outIndex, hob ▸ h.outPos, hheld ▸ h.freed⟩

section Steps
variable {i : ι} {p : Pointer}

theorem Ring.lock (h : Ring s) (hm : s.clientsBufferMutex = none) :
    Ring ({ s with clientsBufferMutex := some i }.goto i .take) := by
  have hout := h.outIndex
  have hfreed := h.freed
  rw [show s.outBehind = 0 by rw [State.outBehind, hm]; rfl] at hout
  rw [show s.held = [] by rw [State.held, hm]; rfl] at hfreed
  refine ⟨h.taken, h.slots, h.inIndex, h.inPos, fun j => ?_, ?_, ?_, ?_, h.fresh, h.store,
    h.nodup⟩
  · by_cases hji : j = i
    · subst hji
      simp [State.goto, ClientStage.critical]
    · have hj := h.mutex j
      rw [hm] at hj
      simp [State.goto, hji, Ne.symm hji, hj]
  · simpa [State.goto, State.outBehind, ClientStage.behind] using hout
  · simp [State.goto, State.outBehind, ClientStage.behind]
  · simpa [State.goto, State.held, ClientStage.held] using hfreed

theorem Ring.take (h : Ring s) (hst : s.client i = .take)
    (hlt : s.taken.length < s.stored.length) (hp : s.clientsBuffer s.outIndex = some p) :
    Ring ({ s with taken := s.taken ++ [p] }.goto i (.free p)) := by
  obtain ⟨hm, hout, -, hfreed⟩ := h.inside_stage hst rfl
  obtain ⟨-, -, -, hmutex⟩ := h.inside (i := i) (by rw [hst]; rfl)
  -- the slot at `out` holds the first pointer not yet taken
  have hget : s.stored[s.taken.length]? = some p := by
    rw [← h.slots _ (Nat.le_refl _) hlt, ← hp, hout]
    rfl
  refine ⟨?_, fun j hj => h.slots j (by simp [State.goto] at hj; omega), h.inIndex, h.inPos,
    hmutex _ rfl, ?_, ?_, ?_, h.fresh, h.store, h.nodup⟩
  · show s.taken ++ [p] <+: s.stored
    obtain ⟨rest, hrest⟩ := h.taken
    rw [← hrest, List.getElem?_append_right (Nat.le_refl _), Nat.sub_self] at hget
    obtain ⟨q, rest', rfl⟩ := List.exists_cons_of_ne_nil (show rest ≠ [] by
      rintro rfl
      simp at hget)
    obtain rfl : q = p := by simpa using hget
    exact ⟨rest', by simpa using hrest⟩
  · simpa [State.goto, State.outBehind, hm, ClientStage.behind] using hout
  · simp [State.goto, State.outBehind, hm, ClientStage.behind]
  · simpa [State.goto, State.held, hm, ClientStage.held] using hfreed

theorem Ring.free (h : Ring s) (hst : s.client i = .free p) :
    Ring ({ s with freed := s.freed ++ [p] }.goto i .advance) := by
  obtain ⟨hm, hout, hpos, hfreed⟩ := h.inside_stage hst rfl
  obtain ⟨-, -, -, hmutex⟩ := h.inside (i := i) (by rw [hst]; rfl)
  refine ⟨h.taken, h.slots, h.inIndex, h.inPos, hmutex _ rfl, ?_, ?_, ?_, h.fresh, h.store,
    h.nodup⟩
  · simpa [State.goto, State.outBehind, hm, ClientStage.behind] using hout
  · simpa [State.goto, State.outBehind, hm, ClientStage.behind] using hpos
  · simpa [State.goto, State.held, hm, ClientStage.held] using hfreed

/-- The index catches up with the pointer that was taken. -/
theorem Ring.advance (h : Ring s) (hst : s.client i = .advance) :
    Ring ({ s with outIndex := next s.outIndex }.goto i .unlock) := by
  obtain ⟨hm, hout, hpos, hfreed⟩ := h.inside_stage hst rfl
  obtain ⟨-, -, -, hmutex⟩ := h.inside (i := i) (by rw [hst]; rfl)
  refine ⟨h.taken, h.slots, h.inIndex, h.inPos, hmutex _ rfl, ?_, ?_, ?_, h.fresh, h.store,
    h.nodup⟩
  · simp only [ClientStage.behind] at hout hpos
    simp [State.goto, State.outBehind, hm, ClientStage.behind, hout, next_mod]
    congr 1
    omega
  · simp [State.goto, State.outBehind, hm, ClientStage.behind]
  · simpa [State.goto, State.held, hm, ClientStage.held] using hfreed

theorem Ring.unlock (h : Ring s) (hst : s.client i = .unlock) :
    Ring ({ s with clientsBufferMutex := none }.goto i .post) := by
  obtain ⟨hm, hout, -, hfreed⟩ := h.inside_stage hst rfl
  refine ⟨h.taken, h.slots, h.inIndex, h.inPos, fun j => ?_, ?_, ?_, ?_, h.fresh, h.store,
    h.nodup⟩
  · by_cases hji : j = i
    · subst hji
      simp [State.goto, ClientStage.critical]
    · have hj := h.mutex j
      rw [hm] at hj
      simp [State.goto, hji, hj, Ne.symm hji]
  · simpa [State.goto, State.outBehind, ClientStage.behind] using hout
  · simp [State.goto, State.outBehind]
  · simpa [State.goto, State.held, ClientStage.held] using hfreed

end Steps

theorem Ring.clientStep (h : Ring s) (hpos : ∀ i, s.client i = .take →
    s.taken.length < s.stored.length) {i : ι} (hs : clientStep s i = some t) : Ring t := by
  unfold Host.clientStep at hs
  cases hst : s.client i with
  | wait | post | session =>
    rw [hst] at hs
    simp only at hs
    try split_ifs at hs
    all_goals
      obtain rfl := Option.some.inj hs
      exact h.outside ⟨rfl, rfl, rfl, rfl, rfl, rfl, rfl, rfl, rfl, rfl⟩ (by rw [hst]; rfl) rfl
  | lock =>
    rw [hst] at hs
    simp only at hs
    split_ifs at hs with hm
    obtain rfl := Option.some.inj hs
    exact h.lock hm
  | take =>
    rw [hst] at hs
    obtain ⟨p, hp, rfl⟩ := Option.map_eq_some_iff.mp hs
    exact h.take hst (hpos i hst) hp
  | free p =>
    rw [hst] at hs
    obtain rfl := Option.some.inj hs
    exact h.free hst
  | advance =>
    rw [hst] at hs
    obtain rfl := Option.some.inj hs
    exact h.advance hst
  | unlock =>
    rw [hst] at hs
    obtain rfl := Option.some.inj hs
    exact h.unlock hst

theorem Ring.step (h : Ring s) (hstore : ∀ p, s.host = .store p →
      s.stored.length < s.taken.length + maxSessionCount)
    (htake : ∀ i, s.client i = .take → s.taken.length < s.stored.length) {a : Label ι}
    (hs : step s a = some t) : Ring t := by
  cases a with
  | host ok =>
    rw [Host.step] at hs
    split_ifs at hs
    exact h.hostStep hstore hs
  | client i => exact h.clientStep htake hs
  | signal onHost => exact h.signalStep hs
  | post onHost => exact h.postStep hs

end Ring

/-! ### Runs -/

section Runs
variable [Fintype ι] [DecidableEq ι] {as : List (Label ι)} {s : State ι}

theorem inv_of_run
    (hrun : Run (guarded (fun s a => calm s a = true) (stepOf step)) State.initial as s) :
    Counts s ∧ Ring s := by
  refine hrun.invariant (I := fun s => Counts s ∧ Ring s) ⟨counts_initial, ring_initial⟩
    fun u a v hu hs => ?_
  exact ⟨hu.1.step hs.1 hs.2,
    hu.2.step (fun p hp => hu.1.store_lt hp) (fun i hi => hu.1.take_lt hi) hs.2⟩

/-- In every run whose signals find no restart outstanding and do not interrupt the
host in `sem_wait`: the tokens add up, at most `maxSessionCount` pointers wait in the
buffer, the host stores into a slot whose pointer was taken, pointers are taken in
the order they were stored and freed in the order they were taken, each once, and
when no thread is between `readSem` and its copy nothing stored is left. -/
theorem tokens_of_run
    (hrun : Run (guarded (fun s a => calm s a = true) (stepOf step)) State.initial as s) :
    s.writeSem + s.pending + s.host.token + s.stored.length + s.debts =
        maxSessionCount + s.extra + s.taken.length ∧
      s.stored.length ≤ s.taken.length + maxSessionCount ∧
      (∀ p, s.host = .store p → ∀ j, s.taken.length ≤ j → j < s.stored.length →
        j % maxSessionCount ≠ s.inIndex) ∧
      s.taken <+: s.stored ∧ s.stored.Nodup ∧
      (s.freed = s.taken ∨ ∃ i p, s.client i = .free p ∧ s.taken = s.freed ++ [p]) ∧
      (s.readSem = 0 → s.host.unposted = 0 → (∀ i, (s.client i).claim = 0) →
        s.taken = s.stored) := by
  obtain ⟨hc, hr⟩ := inv_of_run hrun
  refine ⟨hc.tokens, hc.bound, fun p hp j hj hjm he => ?_, hr.taken, hr.nodup, ?_,
    fun hread hpost hclaim => ?_⟩
  · have hlt := hc.store_lt hp
    have hin := hr.inIndex
    rw [hp] at hin
    rw [hin] at he
    simp only [HostStage.behind, maxSessionCount] at he hlt
    omega
  · have hf := hr.freed
    rw [State.held] at hf
    cases hm : s.clientsBufferMutex with
    | none =>
      rw [hm] at hf
      exact .inl (by simpa using hf)
    | some i =>
      rw [hm, Option.elim_some] at hf
      cases hst : s.client i with
      | free p =>
        rw [hst] at hf
        exact .inr ⟨i, p, hst, hf.symm⟩
      | wait | lock | take | advance | unlock | post | session =>
        rw [hst] at hf
        exact .inl (by simpa [ClientStage.held] using hf)
  · have hreads := hc.reads
    have hzero : s.claims = 0 := by simp [State.claims, hclaim]
    rw [hread, hpost, hzero] at hreads
    exact hr.taken.eq_of_length (by omega)

end Runs

/-- A connection is stored, a signal arrives, the connection is taken and the restart done. -/
def oneSignal : List (Label Unit) :=
  List.replicate 8 (.host true) ++ [.signal false, .client (), .client ()] ++
    [.post false, .client (), .client (), .client (), .client (), .client ()] ++
    List.replicate 4 (.host true)

theorem tokens_of_run_oneSignal : ∃ s : State Unit,
    Run (guarded (fun s a => calm s a = true) (stepOf step)) State.initial oneSignal s ∧
      s.writeSem = 2 ∧ s.stored = [0] ∧ s.freed = [0] ∧ s.restartClients = false ∧
      s.stored.length ≤ s.taken.length + maxSessionCount ∧ s.taken <+: s.stored := by
  obtain ⟨s, hexec, hsem, hstored, hfreed, hrestart⟩ : ∃ s : State Unit,
      executeGuarded calm step State.initial oneSignal = some s ∧ s.writeSem = 2 ∧
        s.stored = [0] ∧ s.freed = [0] ∧ s.restartClients = false :=
    ⟨_, rfl, rfl, rfl, rfl, rfl⟩
  have hrun := run_of_executeGuarded hexec
  have h := tokens_of_run hrun
  exact ⟨s, hrun, hsem, hstored, hfreed, hrestart, h.2.1, h.2.2.2.1⟩

/-- Two signals arrive before the host runs, then three connections. -/
def twoSignals : List (Label Unit) :=
  [.signal false, .post false, .signal false, .post false] ++ List.replicate 28 (.host true)

/-- The second token is never consumed: three pointers are stored and none is taken. -/
theorem twoSignals_overwrites : ∃ s : State Unit,
    Run (stepOf step) State.initial twoSignals s ∧ s.stored = [0, 1, 2] ∧ s.taken = [] ∧
      s.clientsBuffer 0 = some 2 := by
  obtain ⟨s, hexec, h⟩ : ∃ s : State Unit, execute step State.initial twoSignals = some s ∧
      s.stored = [0, 1, 2] ∧ s.taken = [] ∧ s.clientsBuffer 0 = some 2 :=
    ⟨_, rfl, rfl, rfl, rfl⟩
  exact ⟨s, run_of_execute hexec, h⟩

end IstKvs.Host
