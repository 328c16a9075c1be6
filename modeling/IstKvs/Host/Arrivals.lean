import IstKvs.Client.Paths
import IstKvs.Host.Tokens

/-! The paths that go through the queue of new clients: from the connect messages that the
host thread reads into the `ClientInfo` of each pointer, and out of it to the client thread
that takes the pointer. -/

namespace IstKvs.Host

open IstKvs.Store IstKvs.Systems IstKvs.Client Function

/-! ### The machine -/

/-- The queue with the contents of every `ClientInfo`. `messages` are the messages read so far,
`none` for a read that fails, `paths` the arrays of the host thread, and `delivered` what the
client threads have copied, in order. -/
structure Arrivals (ι : Type*) where
  queue : State ι
  messages : List (Option (List UInt8))
  paths : Paths
  info : Pointer → List UInt8
  delivered : List Paths

/-- What an event brings: the message that the host reads, whether its allocation succeeds and
what is in the memory it gets; what lies behind the `ClientInfo` that a client thread copies. -/
inductive Event (ι : Type*)
  | host (message : Option (List UInt8)) (mem : Bool) (fresh : Vector UInt8 sizeofClientInfo)
  | client (i : ι) (after : List UInt8)
  | signal (onHost : Bool)
  | post (onHost : Bool)

/-- The paths of a message that is read as a connect message. -/
def connectPaths (message : Option (List UInt8)) : Option Paths :=
  message.bind readConnectMessage

/-- The paths of the valid messages, in order. -/
def valid (messages : List (Option (List UInt8))) : List Paths := messages.filterMap connectPaths

variable {ι : Type*}

def Arrivals.initial : Arrivals ι where
  queue := .initial
  messages := []
  paths := ⟨.ofBuffer [], .ofBuffer [], .ofBuffer []⟩
  info := fun _ => []
  delivered := []

/-- The outcome of the host's call at a stage. -/
def HostStage.outcome (message : Option (List UInt8)) (mem : Bool) : HostStage → Bool
  | .reading => (connectPaths message).isSome
  | .alloc => mem
  | _ => true

section Step
variable [DecidableEq ι]

/-- One step. The host thread fills a `ClientInfo` as it allocates it, and a client thread
copies the paths out before it frees it. -/
def arrive (s : Arrivals ι) : Event ι → Option (Arrivals ι)
  | .host message mem fresh =>
    (step s.queue (.host (s.queue.host.outcome message mem))).map fun q =>
      match s.queue.host with
      | .reading => { s with
          queue := q
          messages := s.messages ++ [message]
          paths := (connectPaths message).getD s.paths }
      | .alloc => { s with
          queue := q
          info := if mem then update s.info s.queue.allocated (storeClientInfo fresh s.paths)
            else s.info }
      | _ => { s with queue := q }
  | .client i after =>
    (step s.queue (.client i)).map fun q =>
      match s.queue.client i with
      | .free p => { s with
          queue := q
          delivered := s.delivered ++ [loadClientInfo (s.info p) after] }
      | _ => { s with queue := q }
  | .signal onHost => (step s.queue (.signal onHost)).map fun q => { s with queue := q }
  | .post onHost => (step s.queue (.post onHost)).map fun q => { s with queue := q }

/-- No signal arrives, no allocation fails, and the paths of a connect message have at most
39 bytes. -/
def Event.ordinary : Event ι → Bool
  | .host message mem _ =>
    mem && (connectPaths message).all fun p => p.all.all fun s => s.length < maxPipePathLength
  | .client _ _ => true
  | .signal _ | .post _ => false

/-! ### What the pointers carry -/

/-- The paths in a `ClientInfo`. -/
def Arrivals.triple (s : Arrivals ι) (p : Pointer) : Paths := loadClientInfo (s.info p) []

/-- The host has read the paths of a connect message and not stored a pointer to them. -/
def HostStage.reads : HostStage → Bool
  | .resetControl | .alloc | .store _ => true
  | _ => false

def Arrivals.unstored (s : Arrivals ι) : List Paths :=
  if s.queue.host.reads then [s.paths] else []

/-- No signal has arrived. -/
structure Quiet (s : State ι) : Prop where
  restartClients : s.restartClients = false
  mainHandler : s.mainHandler = false
  hostHandler : s.hostHandler = false

/-- Every pointer carries the paths of its message, whatever lies behind them. -/
structure Carried (s : Arrivals ι) : Prop where
  loads : ∀ p < s.queue.allocated, ∀ after, loadClientInfo (s.info p) after = s.triple p
  short : ∀ t ∈ s.unstored, ∀ path ∈ t.all, path.length < maxPipePathLength
  storing : ∀ p, s.queue.host = .store p → s.triple p = s.paths
  arrived : valid s.messages = s.queue.stored.map s.triple ++ s.unstored
  delivered : s.delivered = s.queue.freed.map s.triple

omit [DecidableEq ι] in
theorem carried_initial : Carried (Arrivals.initial : Arrivals ι) where
  loads := nofun
  short := nofun
  storing := nofun
  arrived := rfl
  delivered := rfl

variable {s t : Arrivals ι}

omit [DecidableEq ι] in
theorem Carried.frame (h : Carried s) {q : State ι} (hstored : q.stored = s.queue.stored)
    (hfreed : q.freed = s.queue.freed) (hallocated : q.allocated = s.queue.allocated)
    (hreads : q.host.reads = s.queue.host.reads)
    (hstore : ∀ p, q.host = .store p → s.queue.host = .store p) :
    Carried { s with queue := q } := by
  have hunstored : ({ s with queue := q } : Arrivals ι).unstored = s.unstored := by
    simp only [Arrivals.unstored, hreads]
  refine ⟨?_, ?_, fun p hp => h.storing p (hstore p hp), ?_, ?_⟩
  · dsimp only
    rw [hallocated]
    exact h.loads
  · rw [hunstored]
    exact h.short
  · rw [hunstored]
    dsimp only
    rw [hstored]
    exact h.arrived
  · dsimp only
    rw [hfreed]
    exact h.delivered

omit [DecidableEq ι] in
/-- The host reads a message: the paths of a connect message are still to be stored. -/
theorem Carried.read (h : Carried s) {message : Option (List UInt8)}
    (hshort : ∀ p, connectPaths message = some p →
      ∀ path ∈ p.all, path.length < maxPipePathLength)
    (hst : s.queue.host = .reading) : Carried { s with
      queue := { s.queue with
        host := if (connectPaths message).isSome then .resetControl else .failed }
      messages := s.messages ++ [message]
      paths := (connectPaths message).getD s.paths } := by
  have hunstored : s.unstored = [] := by simp [Arrivals.unstored, hst, HostStage.reads]
  have harrived := h.arrived
  rw [hunstored, List.append_nil] at harrived
  cases hc : connectPaths message with
  | none =>
    refine ⟨h.loads, nofun, nofun, ?_, h.delivered⟩
    change valid (s.messages ++ [message]) = s.queue.stored.map s.triple ++ []
    rw [valid, List.filterMap_append, ← valid, harrived]
    simp [hc]
  | some p =>
    refine ⟨h.loads, fun t ht => ?_, nofun, ?_, h.delivered⟩
    · exact List.mem_singleton.mp ht ▸ hshort p hc
    · change valid (s.messages ++ [message]) = s.queue.stored.map s.triple ++ [p]
      rw [valid, List.filterMap_append, ← valid, harrived]
      simp [hc]

omit [DecidableEq ι] in
theorem Carried.fill (h : Carried s) (hring : Ring s.queue) (hst : s.queue.host = .alloc)
    {info : Pointer → List UInt8} (hold : ∀ p < s.queue.allocated, info p = s.info p)
    (hload : ∀ after, loadClientInfo (info s.queue.allocated) after = s.paths) :
    Carried { s with
      queue := { s.queue with allocated := s.queue.allocated + 1, host := .store s.queue.allocated }
      info := info } := by
  have hunstored : s.unstored = [s.paths] := by simp [Arrivals.unstored, hst, HostStage.reads]
  have hmap : ∀ ps : List Pointer, (∀ p ∈ ps, p < s.queue.allocated) →
      ps.map (fun p => loadClientInfo (info p) []) = ps.map s.triple := by
    intro ps hps
    exact List.map_congr_left fun p hp => by rw [hold p (hps p hp), Arrivals.triple]
  have hfreed : ∀ p ∈ s.queue.freed, p < s.queue.allocated := by
    intro p hp
    refine hring.fresh p (hring.taken.subset ?_)
    rw [← hring.freed]
    exact List.mem_append_left _ hp
  refine ⟨fun p hp after => ?_, fun t ht => ?_, fun p hp => ?_, ?_, ?_⟩
  · change loadClientInfo (info p) after = loadClientInfo (info p) []
    rcases Nat.lt_succ_iff_lt_or_eq.mp hp with hlt | rfl
    · rw [hold p hlt]
      exact h.loads p hlt after
    · rw [hload, hload]
  · exact h.short t (hunstored ▸ ht)
  · obtain rfl := HostStage.store.inj hp
    exact hload []
  · change valid s.messages =
      s.queue.stored.map (fun p => loadClientInfo (info p) []) ++ [s.paths]
    rw [h.arrived, hunstored, hmap _ hring.fresh]
  · change s.delivered = s.queue.freed.map fun p => loadClientInfo (info p) []
    rw [h.delivered, hmap _ hfreed]

omit [DecidableEq ι] in
theorem Carried.store (h : Carried s) {p : Pointer} (hst : s.queue.host = .store p)
    (buffer : ℕ → Option Pointer) : Carried { s with queue := { s.queue with
      clientsBuffer := buffer, stored := s.queue.stored ++ [p], host := .advance } } := by
  have hunstored : s.unstored = [s.paths] := by simp [Arrivals.unstored, hst, HostStage.reads]
  refine ⟨h.loads, nofun, nofun, ?_, h.delivered⟩
  change valid s.messages = (s.queue.stored ++ [p]).map s.triple ++ []
  rw [h.arrived, hunstored, List.map_append, List.map_singleton, h.storing p hst, List.append_nil]

theorem Carried.host (h : Carried s) (hq : Quiet s.queue) (hring : Ring s.queue)
    {message : Option (List UInt8)} {mem : Bool} {fresh : Vector UInt8 sizeofClientInfo}
    (ho : (Event.host message mem fresh : Event ι).ordinary = true)
    (hs : arrive s (.host message mem fresh) = some t) : Carried t := by
  rw [Event.ordinary, Bool.and_eq_true] at ho
  obtain ⟨hmem, hall⟩ := ho
  subst hmem
  have hshort : ∀ p, connectPaths message = some p →
      ∀ path ∈ p.all, path.length < maxPipePathLength := by
    intro p hp
    rw [hp] at hall
    simpa using hall
  obtain ⟨q, hstep, ht⟩ := Option.map_eq_some_iff.mp hs
  rw [step, if_neg (by simp [hq.hostHandler])] at hstep
  cases hst : s.queue.host <;> simp only [hst, hostStep, HostStage.outcome] at hstep ht
  case reading =>
    obtain rfl := Option.some.inj hstep
    exact ht ▸ h.read hshort hst
  case alloc =>
    simp only [if_true] at hstep ht
    obtain rfl := Option.some.inj hstep
    have hunstored : s.unstored = [s.paths] := by
      simp [Arrivals.unstored, hst, HostStage.reads]
    have hpaths := h.short s.paths (by rw [hunstored]; exact List.mem_singleton_self _)
    refine ht ▸ h.fill hring hst (fun p hp => update_of_ne hp.ne ..) fun after => ?_
    rw [update_self]
    exact loadClientInfo_store fresh hpaths after
  case store p =>
    obtain rfl := Option.some.inj hstep
    exact ht ▸ h.store hst _
  case wait | blocked =>
    split_ifs at hstep <;> obtain rfl := Option.some.inj hstep <;>
      exact ht ▸ h.frame rfl rfl rfl (by rw [hst]; rfl) (by intros; contradiction)
  case check =>
    rw [hq.restartClients] at hstep
    obtain rfl := Option.some.inj hstep
    exact ht ▸ h.frame rfl rfl rfl (by rw [hst]; rfl) (by intros; contradiction)
  all_goals
    obtain rfl := Option.some.inj hstep
    exact ht ▸ h.frame rfl rfl rfl (by rw [hst]; rfl) (by intros; contradiction)

theorem Carried.client (h : Carried s) (hring : Ring s.queue) {i : ι} {after : List UInt8}
    (hs : arrive s (.client i after) = some t) : Carried t := by
  obtain ⟨q, hstep, ht⟩ := Option.map_eq_some_iff.mp hs
  rw [step, clientStep] at hstep
  cases hst : s.queue.client i <;> simp only [hst] at hstep ht
  case free p =>
    obtain rfl := Option.some.inj hstep
    obtain ⟨-, -, hheld, -⟩ := hring.inside (i := i) (by rw [hst]; rfl)
    have htaken : p ∈ s.queue.taken := by
      rw [← hring.freed, hheld, hst]
      exact List.mem_append_right _ (List.mem_singleton_self p)
    have hload := h.loads p (hring.fresh p (hring.taken.subset htaken)) after
    subst ht
    refine ⟨h.loads, h.short, h.storing, h.arrived, ?_⟩
    change s.delivered ++ [loadClientInfo (s.info p) after] = (s.queue.freed ++ [p]).map s.triple
    rw [hload, h.delivered, List.map_append, List.map_singleton]
  case take =>
    obtain ⟨p, -, rfl⟩ := Option.map_eq_some_iff.mp hstep
    exact ht ▸ h.frame rfl rfl rfl rfl fun _ hp => hp
  case wait | lock =>
    split_ifs at hstep
    obtain rfl := Option.some.inj hstep
    exact ht ▸ h.frame rfl rfl rfl rfl fun _ hp => hp
  all_goals
    obtain rfl := Option.some.inj hstep
    exact ht ▸ h.frame rfl rfl rfl rfl fun _ hp => hp

theorem Quiet.step {s t : State ι} (h : Quiet s) {a : Label ι}
    (ha : ∀ onHost, a ≠ .signal onHost ∧ a ≠ .post onHost) (hs : step s a = some t) : Quiet t := by
  obtain ⟨hr, hmain, hhost⟩ := h
  cases a with
  | host ok =>
    rw [Host.step, if_neg (by simp [hhost])] at hs
    unfold hostStep at hs
    cases hst : s.host <;> simp only [hst] at hs
    all_goals try split_ifs at hs
    all_goals
      obtain rfl := Option.some.inj hs
      first | exact ⟨hr, hmain, hhost⟩ | exact ⟨rfl, hmain, hhost⟩
  | client i =>
    rw [Host.step] at hs
    unfold clientStep at hs
    cases hst : s.client i <;> simp only [hst] at hs
    case take =>
      obtain ⟨p, -, rfl⟩ := Option.map_eq_some_iff.mp hs
      exact ⟨hr, hmain, hhost⟩
    all_goals try split_ifs at hs
    all_goals
      obtain rfl := Option.some.inj hs
      exact ⟨hr, hmain, hhost⟩
  | signal onHost => exact absurd rfl (ha onHost).1
  | post onHost => exact absurd rfl (ha onHost).2

/-! ### Runs -/

/-- What holds of the whole machine in every ordinary run. -/
structure Orderly [Fintype ι] (s : Arrivals ι) : Prop where
  quiet : Quiet s.queue
  counts : Counts s.queue
  ring : Ring s.queue
  carried : Carried s

/-- The queue takes a step of its own, and never one of a handler. -/
theorem exists_step_queue {e : Event ι} (ho : e.ordinary = true) (hs : arrive s e = some t) :
    ∃ a, (∀ onHost, a ≠ .signal onHost ∧ a ≠ .post onHost) ∧
      step s.queue a = some t.queue := by
  cases e with
  | host message mem fresh =>
    obtain ⟨q, hstep, rfl⟩ := Option.map_eq_some_iff.mp hs
    refine ⟨_, fun onHost => by simp, hstep.trans ?_⟩
    split <;> rfl
  | client i after =>
    obtain ⟨q, hstep, rfl⟩ := Option.map_eq_some_iff.mp hs
    refine ⟨_, fun onHost => by simp, hstep.trans ?_⟩
    split <;> rfl
  | signal onHost | post onHost => cases ho

theorem Orderly.step [Fintype ι] (h : Orderly s) {e : Event ι} (ho : e.ordinary = true)
    (hs : arrive s e = some t) : Orderly t := by
  obtain ⟨a, ha, hstep⟩ := exists_step_queue ho hs
  have hcalm : calm s.queue a = true := by
    cases a with
    | host | client => rfl
    | signal onHost => exact absurd rfl (ha onHost).1
    | post onHost => exact absurd rfl (ha onHost).2
  refine ⟨h.quiet.step ha hstep, h.counts.step hcalm hstep, h.ring.step
    (fun p hp => h.counts.store_lt hp) (fun i hi => h.counts.take_lt hi) hstep, ?_⟩
  cases e with
  | host message mem fresh => exact h.carried.host h.quiet h.ring ho hs
  | client i after => exact h.carried.client h.ring hs
  | signal onHost | post onHost => cases ho

theorem orderly_of_run [Fintype ι] {es : List (Event ι)}
    (hrun : Run (guarded (fun _ e => e.ordinary = true) (stepOf arrive)) .initial es s) :
    Orderly s :=
  hrun.invariant ⟨⟨rfl, rfl, rfl⟩, counts_initial, ring_initial, carried_initial⟩
    fun _ _ _ hu hs => hu.step hs.1 hs.2

/-- The host waits for a slot, reads a message that is not valid and gives the slot back. -/
theorem invalid_message (h : Quiet s.queue) {message : Option (List UInt8)}
    (hnone : connectPaths message = none) (hwait : s.queue.host = .wait)
    (hsem : 0 < s.queue.writeSem) (fresh : Vector UInt8 sizeofClientInfo) :
    execute arrive s (List.replicate 4 (.host message true fresh)) =
      some { s with messages := s.messages ++ [message] } := by
  obtain ⟨queue, messages, paths, info, delivered⟩ := s
  obtain ⟨writeSem, readSem, buffer, inIndex, outIndex, mutex, control, restart, mainHandler,
    hostHandler, host, client, allocated, stored, taken, freed⟩ := queue
  obtain ⟨hr, -, hh⟩ := h
  dsimp only at hwait hsem hr hh
  subst hwait hr hh
  have hback : writeSem - 1 + 1 = writeSem := Nat.sub_add_cancel hsem
  simp [List.replicate, execute, arrive, step, hostStep, HostStage.outcome, hnone, hsem, hback]

/-- In every run without a signal and with all allocations succeeding, the paths that the client
threads take out are a prefix of those of the valid messages, in their order; each valid
message takes one slot and each slot is of one; and a message that is not valid leaves all as
it was. -/
theorem delivered_in_order [Fintype ι] {es : List (Event ι)}
    (hrun : Run (guarded (fun _ e => e.ordinary = true) (stepOf arrive)) .initial es s) :
    s.delivered <+: valid s.messages ∧
      s.delivered.length = s.queue.freed.length ∧
      s.queue.stored.length + s.unstored.length = (valid s.messages).length ∧
      s.queue.writeSem + s.queue.host.token + s.queue.stored.length + s.queue.debts =
        maxSessionCount + s.queue.taken.length ∧
      ∀ message fresh, connectPaths message = none → s.queue.host = .wait →
        0 < s.queue.writeSem →
          execute arrive s (List.replicate 4 (.host message true fresh)) =
            some { s with messages := s.messages ++ [message] } := by
  obtain ⟨hquiet, hcounts, hring, hcarried⟩ := orderly_of_run hrun
  refine ⟨?_, ?_, ?_, ?_, fun message fresh hnone hwait hsem => ?_⟩
  · have htaken : s.queue.freed <+: s.queue.taken := ⟨_, hring.freed⟩
    have hfreed := htaken.trans hring.taken
    rw [hcarried.delivered, hcarried.arrived]
    exact (hfreed.map s.triple).trans (List.prefix_append _ _)
  · rw [hcarried.delivered, List.length_map]
  · rw [hcarried.arrived, List.length_append, List.length_map]
  · have htokens := hcounts.tokens
    simpa [State.pending, State.extra, hquiet.mainHandler, hquiet.hostHandler,
      hquiet.restartClients] using htokens
  · exact invalid_message hquiet hnone hwait hsem fresh

end Step

def shortPaths (c : Char) : Paths :=
  ⟨.ofBuffer (chars ['q', c]), .ofBuffer (chars ['p', c]), .ofBuffer (chars ['n', c])⟩

/-- Two connect messages with a failed read between them, and the first of them is taken out. -/
def twoConnects : List (Event Unit) :=
  let host : Option (List UInt8) → Event Unit :=
    fun message => .host message true (Vector.replicate _ 7)
  List.replicate 8 (host (some (writeConnectMessage (shortPaths '1')))) ++
    List.replicate 4 (host none) ++
    List.replicate 8 (host (some (writeConnectMessage (shortPaths '2')))) ++
    List.replicate 4 (.client () [9])

theorem delivered_in_order_twoConnects : ∃ s : Arrivals Unit,
    Run (guarded (fun _ e => e.ordinary = true) (stepOf arrive)) .initial twoConnects s ∧
      s.delivered = [shortPaths '1'] ∧ valid s.messages = [shortPaths '1', shortPaths '2'] ∧
      s.delivered <+: valid s.messages := by
  obtain ⟨s, hexec, hdelivered, hvalid⟩ : ∃ s : Arrivals Unit,
      executeGuarded (fun _ e => e.ordinary) arrive .initial twoConnects = some s ∧
        s.delivered = [shortPaths '1'] ∧
        valid s.messages = [shortPaths '1', shortPaths '2'] := ⟨_, rfl, rfl, rfl⟩
  have hrun := run_of_executeGuarded hexec
  exact ⟨s, hrun, hdelivered, hvalid, (delivered_in_order hrun).1⟩

end IstKvs.Host
