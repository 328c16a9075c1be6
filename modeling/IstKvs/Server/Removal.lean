import IstKvs.Server.Notifications
import IstKvs.Server.Occupancy

/-! `remove_client` at the end of `kvs_disconnect`. The three descriptors are closed by
then, so a concurrent `kvs_connect` may get the same numbers. Without restarts, the removal
takes the client of its own thread off the list if and only if no lower slot has a client
with these descriptors. -/

namespace IstKvs.Server

open IstKvs.Store IstKvs.Sessions IstKvs.Systems Function

variable {τ : Type*} {n : ℕ}

/-- No slot below that of the session has a client with the same descriptors. -/
def State.Unshadowed (s : State τ n) (sid : Sid) : Prop :=
  ∀ k, s.connectedClients k = some sid → ∀ k' < k, ∀ sid' ∈ s.connectedClients k',
    fds (s.client sid') ≠ fds (s.client sid)

instance (s : State τ n) (sid : Sid) : Decidable (s.Unshadowed sid) :=
  inferInstanceAs (Decidable (∀ k, s.connectedClients k = some sid → ∀ k' < k,
    ∀ sid' ∈ s.connectedClients k', fds (s.client sid') ≠ fds (s.client sid)))

/-- The session of a thread that is about to call `remove_client`. -/
def Stage.removing : Stage → Option Sid
  | .remove sid => some sid
  | _ => none

/-- There is no signal, and the client of a thread that calls `remove_client` is unshadowed. -/
def unshadowed (s : State τ n) : Label τ n → Prop
  | .act (.client i) _ => ∀ sid ∈ (s.stage (.client i)).removing, s.Unshadowed sid
  | .signal => False
  | _ => True

instance (s : State τ n) (l : Label τ n) : Decidable (unshadowed s l) :=
  match l with
  | .act (.client i) _ => inferInstanceAs
      (Decidable (∀ sid ∈ (s.stage (.client i)).removing, s.Unshadowed sid))
  | .signal => isFalse id
  | .act (.job _) _ | .act .host _ | .raise | .openFile _ | .closeFile _ => isTrue trivial

/-- The step empties the slot of the session, frees its client, and no other. -/
def RemovesOwn (s t : State τ n) (sid : Sid) : Prop :=
  ∃ k, s.connectedClients k = some sid ∧ t.connectedClients = update s.connectedClients k none ∧
    t.freed = update s.freed sid true

/-- What the list is like without restarts. -/
structure Tended (s : State τ n) : Prop where
  unsignalled : Unsignalled s
  inv : s.registry.Inv
  covered : s.registry.Covered
  present : s.registry.Present

theorem tended_initial : Tended (State.initial : State τ n) where
  unsignalled := unsignalled_initial
  inv := registry_initial
  covered := covered_initial
  present i x h := by cases h

/-- The slot that `remove_client` empties has the lowest client with these descriptors. -/
theorem findClient_lowest {s : State τ n} {sid sid' : Sid} {k k' : Fin n}
    (hk : s.findClient sid = some k) (hk' : s.connectedClients k' = some sid')
    (hfds : fds (s.client sid') = fds (s.client sid)) : k ≤ k' := by
  by_contra hlt
  have hno := Fin.eq_false_of_find?_eq_some_of_lt hk k' (not_le.mp hlt)
  rw [hk', Option.any_some, (sameFds_iff sid').mpr hfds] at hno
  cases hno

namespace Tended

variable {s : State τ n} (h : Tended s)
include h

theorem exists_slot {i : Fin n} {sid : Sid} (hst : s.stage (.client i) = .remove sid) :
    ∃ k k' sid', s.connectedClients k = some sid ∧ s.findClient sid = some k' ∧
      s.connectedClients k' = some sid' ∧ fds (s.client sid') = fds (s.client sid) ∧ k' ≤ k := by
  have hplace : s.registry.place i = .within sid := congrArg Stage.place hst
  obtain ⟨k, hk⟩ := h.present i sid hplace
  cases hfind : s.findClient sid with
  | none => exact absurd rfl (findClient_eq_none hfind k sid hk)
  | some k' =>
    obtain ⟨sid', hsid, hfds⟩ := findClient_eq_some hfind
    exact ⟨k, k', sid', hk, rfl, hsid, hfds, findClient_lowest hfind hk rfl⟩

/-- An unshadowed client is the one that `remove_client` finds. -/
theorem findClient_of_unshadowed {i : Fin n} {sid : Sid} (hst : s.stage (.client i) = .remove sid)
    (hu : s.Unshadowed sid) :
    ∃ k, s.findClient sid = some k ∧ s.connectedClients k = some sid := by
  obtain ⟨k, k', sid', hk, hfind, hsid, hfds, hle⟩ := h.exists_slot hst
  rcases hle.eq_or_lt with rfl | hlt
  · exact ⟨k', hfind, hk⟩
  · exact absurd hfds (hu k hk k' hlt sid' hsid)

theorem proper {l : Label τ n} (hl : unshadowed s l) : s.registry.Proper (s.event l) := by
  cases l with
  | act a x =>
    cases a with
    | job j => trivial
    | host =>
      simp only [State.event]
      rcases h.unsignalled.host with hst | hst | hst | hst <;> rw [hst] <;> trivial
    | client i =>
      have hcontrol := h.unsignalled.control
      cases hst : s.stage (.client i) <;> simp only [State.event, hst, hcontrol]
      case addClient sid f => cases s.freeSlot <;> trivial
      case remove sid =>
        obtain ⟨k, hfind, hk⟩ := h.findClient_of_unshadowed hst (hl sid (by rw [hst]; rfl))
        rw [hfind]
        exact hk
      all_goals trivial
  | _ => trivial

end Tended

section Steps
variable [DecidableEq τ] {s t : State τ n}

theorem remove_effect {i : Fin n} {sid sid' : Sid} {k : Fin n} {x : Input}
    (hst : s.stage (.client i) = .remove sid) (hk : s.findClient sid = some k)
    (hsid : s.connectedClients k = some sid') (hs : step s (.act (.client i) x) = some t) :
    t.connectedClients = update s.connectedClients k none ∧ t.freed = update s.freed sid' true := by
  simp only [step, clientStep, hst, hk, hsid] at hs
  split_ifs at hs
  cases hs
  exact ⟨rfl, rfl⟩

theorem Tended.step (h : Tended s) {l : Label τ n} (hl : unshadowed s l)
    (hs : step s l = some t) : Tended t := by
  have hregistry := registry_step hs
  have hproper := h.proper hl
  refine ⟨h.unsignalled.step ?_ hs, h.inv.step hregistry, h.covered.step h.inv ?_ hregistry,
    h.present.step h.inv h.covered le_rfl hproper hregistry⟩
  · rintro rfl
    exact hl
  · intro i sid he
    rw [he] at hproper
    exact hproper.elim

theorem tended_of_run {ls : List (Label τ n)}
    (hrun : Run (guarded unshadowed (stepOf step)) State.initial ls s) : Tended s :=
  hrun.invariant tended_initial fun _ _ _ hu hs => hu.step hs.1 hs.2

/-- After any run without signals in which no removal met a shadowed client, a removal takes
the client of its own thread off the list if and only if that client is unshadowed. -/
theorem removesOwn_iff {ls : List (Label τ n)}
    (hrun : Run (guarded unshadowed (stepOf step)) State.initial ls s) {i : Fin n} {sid : Sid}
    (hst : s.stage (.client i) = .remove sid) {x : Input}
    (hs : step s (.act (.client i) x) = some t) : RemovesOwn s t sid ↔ s.Unshadowed sid := by
  have htended := tended_of_run hrun
  constructor
  · rintro ⟨k, hk, hslots, -⟩ k₁ hk₁ k₂ hlt sid₂ hsid₂ hfds
    obtain ⟨-, k', sid', -, hfind, hsid, -, -⟩ := htended.exists_slot hst
    have hslots' := (remove_effect hst hfind hsid hs).1
    -- both slots are emptied, so the removal found the session's own slot
    have hkk : k = k' := by
      by_contra hne
      have hat := congrFun (hslots.symm.trans hslots') k
      rw [update_self, update_of_ne hne, hk] at hat
      cases hat
    obtain rfl : k₁ = k := htended.inv.inj k₁ k sid hk₁ hk
    have hle := findClient_lowest hfind hsid₂ hfds
    rw [← hkk] at hle
    exact absurd hlt (not_lt.mpr hle)
  · intro hu
    obtain ⟨k, hfind, hk⟩ := htended.findClient_of_unshadowed hst hu
    obtain ⟨hslots, hfreed⟩ := remove_effect hst hfind hk hs
    exact ⟨k, hk, hslots, hfreed⟩

end Steps

/-- Two clients are connected, the first disconnects, and the second one's thread is about to
call `remove_client`. -/
def secondLeaving : List (Label Unit 2) :=
  connects former 1 2 3 ++ connects latter 4 5 6 ++
    [.act (.client former) { opcode := some opCodeDisconnect }] ++ steps (.client former) 9 ++
    [.act (.client latter) { opcode := some opCodeDisconnect }] ++ steps (.client latter) 8

/-- A third client gets the descriptors of the second one for other pipes. -/
theorem removesOwn_iff_otherOrder : ∃ ls, ∃ s t : State Unit 2,
    Run (guarded unshadowed (stepOf step)) State.initial ls s ∧
      s.connectedClients 0 = some 2 ∧ step s (.act (.client 1) {}) = some t ∧ RemovesOwn s t 1 := by
  have hrun : Run (guarded (fun s l => decide (unshadowed s l) = true) (stepOf step))
      State.initial (secondLeaving ++ connects 0 5 4 6) _ := run_of_executeGuarded rfl
  have hunshadowed : Run (guarded unshadowed (stepOf step)) State.initial _ _ := hrun.of_decided
  exact ⟨_, _, _, hunshadowed, rfl, rfl,
    (removesOwn_iff (i := 1) (x := {}) hunshadowed rfl rfl).mpr (by decide)⟩

/-- A third client gets the descriptors of the second one for the same pipes and the lower
slot: it is freed while its thread reads its requests, and the second one stays listed. -/
theorem not_removesOwn : ∃ s t : State Unit 2,
    execute step State.initial (secondLeaving ++ connects 0 4 5 6) = some s ∧
      s.stage (.client 1) = .remove 1 ∧ step s (.act (.client 1) {}) = some t ∧
      ¬ RemovesOwn s t 1 ∧ t.stage (.client 0) = .blocked 2 ∧ t.freed 2 = true ∧
      t.connectedClients 1 = some 1 := by
  refine ⟨_, _, rfl, rfl, rfl, ?_, rfl, rfl, rfl⟩
  rintro ⟨k, -, -, hfreed⟩
  have hfreed2 := congrFun hfreed 2
  cases hfreed2

end IstKvs.Server
