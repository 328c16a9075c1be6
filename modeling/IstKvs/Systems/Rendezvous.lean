import IstKvs.Systems.Run
import Mathlib.Logic.Function.Basic

/-! Ends that are opened in pairs, such as the two ends of a FIFO: who opens one end comes to
it and waits until somebody has come to the other one. Two parties that open the two ends of
the same things in the same order do not keep each other waiting. -/

namespace IstKvs.Systems

open Function

/-- The ends that a party has still to open, and whether it waits at the first of them. -/
structure Party (ε : Type*) where
  ends : List ε
  waits : Bool
  deriving DecidableEq

variable {ε : Type*} [DecidableEq ε] {other : ε → ε} {came came' : ε → Bool} {all : List ε}
  {p p' q : Party ε} {e : ε}

/-- A party comes to its next end, or goes through it when somebody is at the other one. -/
def Party.step (other : ε → ε) (came : ε → Bool) (p : Party ε) :
    Option ((ε → Bool) × Party ε) :=
  match p.ends with
  | [] => none
  | e :: rest =>
    if p.waits then if came (other e) then some (came, ⟨rest, false⟩) else none
    else some (update came e true, ⟨e :: rest, true⟩)

/-- A bound on the steps of a party. -/
def Party.remaining (p : Party ε) : ℕ := 2 * p.ends.length - p.waits.toNat

/-- What a step can do. -/
theorem Party.step_cases (h : p.step other came = some (came', p')) :
    (∃ e rest, p = ⟨e :: rest, false⟩ ∧ came' = update came e true ∧ p' = ⟨e :: rest, true⟩) ∨
      ∃ e rest, p = ⟨e :: rest, true⟩ ∧ came (other e) = true ∧ came' = came ∧
        p' = ⟨rest, false⟩ := by
  obtain ⟨ends, waits⟩ := p
  cases ends with
  | nil => cases h
  | cons e rest =>
    cases waits with
    | false =>
      obtain ⟨rfl, rfl⟩ := Prod.ext_iff.mp (Option.some.inj h)
      exact .inl ⟨e, rest, rfl, rfl, rfl⟩
    | true =>
      simp only [Party.step, if_true] at h
      split_ifs at h with hc
      obtain ⟨rfl, rfl⟩ := Prod.ext_iff.mp (Option.some.inj h)
      exact .inr ⟨e, rest, rfl, hc, rfl, rfl⟩

theorem Party.remaining_step (h : p.step other came = some (came', p')) :
    p'.remaining + 1 = p.remaining := by
  obtain ⟨e, rest, rfl, -, rfl⟩ | ⟨e, rest, rfl, -, -, rfl⟩ := Party.step_cases h
  · simp [Party.remaining]
    omega
  · simp [Party.remaining]
    omega

/-- A party on its way through its ends: it has come to those that it has opened, and to the one
that it waits at. -/
structure Party.On (all : List ε) (came : ε → Bool) (p : Party ε) : Prop where
  waiting : p.waits = true → p.ends ≠ []
  came : ∃ opened, all = opened ++ p.ends ∧ ∀ e ∈ all,
    came e = true ↔ e ∈ opened ∨ p.waits = true ∧ p.ends.head? = some e

omit [DecidableEq ε] in
theorem Party.on_start (h : ∀ e ∈ all, came e = false) : (⟨all, false⟩ : Party ε).On all came where
  waiting := nofun
  came := ⟨[], rfl, fun e he => by simp [h e he]⟩

omit [DecidableEq ε] in
theorem Party.On.congr (h : p.On all came) (hsame : ∀ e ∈ all, came' e = came e) :
    p.On all came' := by
  obtain ⟨opened, hall, hcame⟩ := h.came
  exact ⟨h.waiting, opened, hall, fun e he => by rw [hsame e he, hcame e he]⟩

theorem Party.On.step (h : p.On all came) (hs : p.step other came = some (came', p')) :
    p'.On all came' := by
  obtain ⟨opened, hall, hcame⟩ := h.came
  obtain ⟨e, rest, rfl, rfl, rfl⟩ | ⟨e, rest, rfl, -, rfl, rfl⟩ := Party.step_cases hs
  · refine ⟨fun _ => List.cons_ne_nil _ _, opened, hall, fun x hx => ?_⟩
    have hx' := hcame x hx
    by_cases hxe : x = e
    · subst hxe
      simp
    · rw [update_of_ne hxe, hx']
      simp [Ne.symm hxe]
  · refine ⟨nofun, opened ++ [e], by rw [hall]; simp, fun x hx => ?_⟩
    rw [hcame x hx]
    simp [eq_comm]

/-- A step of a party makes no difference at ends that are not its own. -/
theorem Party.On.came_eq (h : p.On all came) (hs : p.step other came = some (came', p')) {x : ε}
    (hx : x ∉ all) : came' x = came x := by
  obtain ⟨opened, hall, -⟩ := h.came
  obtain ⟨e, rest, rfl, rfl, -⟩ | ⟨e, rest, rfl, -, rfl, -⟩ := Party.step_cases hs
  · refine update_of_ne ?_ _ _
    rintro rfl
    exact hx (hall ▸ List.mem_append_right _ List.mem_cons_self)
  · rfl

omit [DecidableEq ε] in
/-- A party that has opened all its ends has come to each. -/
theorem Party.On.all_came (h : p.On all came) (hp : p.ends = []) : ∀ e ∈ all, came e = true := by
  obtain ⟨opened, hall, hcame⟩ := h.came
  rw [hp, List.append_nil] at hall
  exact fun e he => (hcame e he).mpr (.inl (hall ▸ he))

theorem Party.step_of_came {rest : List ε} (h : came (other e) = true) :
    (⟨e :: rest, true⟩ : Party ε).step other came = some (came, ⟨rest, false⟩) := by
  simp [Party.step, h]

/-- Of two parties on corresponding ends, one that is not ahead of the other goes on, unless they
are at the same ends and the other one has still to come. -/
theorem Party.On.goes_on (hp : p.On all came) (hq : q.On (all.map other) came)
    (hle : q.ends.length ≤ p.ends.length) (hne : p.ends ≠ []) :
    (∃ r, p.step other came = some r) ∨ ∃ r, q.step other came = some r := by
  obtain ⟨opened, hall, -⟩ := hp.came
  obtain ⟨opened', hall', hcame'⟩ := hq.came
  obtain ⟨ends, waits⟩ := p
  obtain ⟨e, rest, rfl⟩ := List.exists_cons_of_ne_nil hne
  cases waits with
  | false => exact .inl ⟨_, rfl⟩
  | true =>
    have hmem : other e ∈ all.map other := by
      rw [hall]
      exact List.mem_map_of_mem (List.mem_append_right _ List.mem_cons_self)
    rw [hall, List.map_append, List.map_cons] at hall'
    have hplace : other e ∈ opened' ∨ q.ends = other e :: rest.map other := by
      rcases List.append_eq_append_iff.mp hall' with ⟨more, hopened, hmore⟩ | ⟨more, -, hmore⟩
      · cases more with
        | nil => exact .inr hmore.symm
        | cons x more =>
          obtain ⟨rfl, -⟩ := List.cons.inj hmore
          exact .inl (hopened ▸ by simp)
      · have hlen := congrArg List.length hmore
        simp only [List.length_append, List.length_cons, List.length_map] at hlen hle
        obtain rfl : more = [] := List.length_eq_zero_iff.mp (by omega)
        exact .inr hmore
    rcases hplace with hopened | hends
    · exact .inl ⟨_, Party.step_of_came ((hcame' _ hmem).mpr (.inl hopened))⟩
    · obtain ⟨ends', waits'⟩ := q
      obtain rfl : ends' = other e :: rest.map other := hends
      cases waits' with
      | true => exact .inl ⟨_, Party.step_of_came ((hcame' _ hmem).mpr (.inr ⟨rfl, rfl⟩))⟩
      | false => exact .inr ⟨_, rfl⟩

/-- While one of two parties on corresponding ends has not opened all, one of them goes on. -/
theorem Party.On.one_steps (hinv : ∀ e, other (other e) = e) (hp : p.On all came)
    (hq : q.On (all.map other) came) (hne : p.ends ≠ [] ∨ q.ends ≠ []) :
    (∃ r, p.step other came = some r) ∨ ∃ r, q.step other came = some r := by
  rcases Nat.le_total q.ends.length p.ends.length with hle | hle
  · refine hp.goes_on hq hle fun hnil => ?_
    rw [hnil, List.length_nil, Nat.le_zero, List.length_eq_zero_iff] at hle
    exact hne.elim (fun h => h hnil) fun h => h hle
  · have hback : (all.map other).map other = all := by
      rw [List.map_map]
      exact (List.map_congr_left fun e _ => hinv e).trans (List.map_id _)
    refine (hq.goes_on (hback.symm ▸ hp) hle fun hnil => ?_).symm
    rw [hnil, List.length_nil, Nat.le_zero, List.length_eq_zero_iff] at hle
    exact hne.elim (fun h => h hle) fun h => h hnil

end IstKvs.Systems
