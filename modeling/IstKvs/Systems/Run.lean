import Mathlib.Data.List.Basic
import Mathlib.Logic.Basic

/-! Finite runs of a labelled transition relation, the induction rule for
invariants, runs all of whose steps meet a guard, and the runs of an executable
step function. Nothing here depends on what the states and labels are. -/

namespace IstKvs.Systems

variable {σ α : Type*}

/-- The labels `as` lead from `s` to the last state, one step for each label. -/
inductive Run (step : σ → α → σ → Prop) (s : σ) : List α → σ → Prop
  | nil : Run step s [] s
  | snoc {as : List α} {u v : σ} {a : α} :
      Run step s as u → step u a v → Run step s (as ++ [a]) v

namespace Run

variable {step step' : σ → α → σ → Prop} {s t u : σ} {as bs : List α}

/-- What holds at the start and is kept by every step holds after every run. -/
theorem invariant {I : σ → Prop} (h : Run step s as t) (h0 : I s)
    (hstep : ∀ u a v, I u → step u a v → I v) : I t := by
  induction h with
  | nil => exact h0
  | snoc _ hs ih => exact hstep _ _ _ ih hs

theorem mono (h : Run step s as t) (hstep : ∀ u a v, step u a v → step' u a v) :
    Run step' s as t := by
  induction h with
  | nil => exact nil
  | snoc _ hs ih => exact ih.snoc (hstep _ _ _ hs)

theorem append (h : Run step s as t) (h' : Run step t bs u) : Run step s (as ++ bs) u := by
  induction h' with
  | nil => simpa using h
  | snoc _ hs ih =>
    rw [← List.append_assoc]
    exact ih.snoc hs

theorem single {a : α} (h : step s a t) : Run step s [a] t := by
  have h0 : Run step s [] s := nil
  simpa using h0.snoc h

theorem of_snoc {a : α} (h : Run step s (as ++ [a]) t) : ∃ u, Run step s as u ∧ step u a t := by
  generalize hbs : as ++ [a] = bs at h
  cases h with
  | nil => simp at hbs
  | snoc hr hs =>
    obtain ⟨rfl, hx⟩ := List.append_inj' hbs rfl
    obtain rfl := List.head_eq_of_cons_eq hx
    exact ⟨_, hr, hs⟩

/-- Where every step from a state that is not good can be chosen to make a measure smaller, a
good state can be reached. -/
theorem exists_reach {I good : σ → Prop} (μ : σ → ℕ)
    (hstep : ∀ s, I s → ¬ good s → ∃ a t, step s a t ∧ I t ∧ μ t < μ s) (hs : I s) :
    ∃ as t, Run step s as t ∧ good t := by
  generalize hn : μ s = n
  induction n using Nat.strongRecOn generalizing s with
  | _ n ih =>
    by_cases hg : good s
    · exact ⟨[], s, nil, hg⟩
    · obtain ⟨a, t, ha, ht, hlt⟩ := hstep s hs hg
      obtain ⟨as, u, hu, hgu⟩ := ih (μ t) (hn ▸ hlt) ht rfl
      exact ⟨[a] ++ as, u, (single ha).append hu, hgu⟩

/-- The labels that make a measure smaller occur only so often. -/
theorem countP_le {I : σ → Prop} {μ : σ → ℕ} {p : α → Bool} (h : Run step s as t) (hs : I s)
    (hstep : ∀ u a v, I u → step u a v → I v ∧ μ v + (p a).toNat ≤ μ u) :
    as.countP p + μ t ≤ μ s ∧ I t := by
  induction h with
  | nil => exact ⟨by simp, hs⟩
  | @snoc as u v a _ ha ih =>
    obtain ⟨hcount, hu⟩ := ih
    obtain ⟨hv, hle⟩ := hstep u a v hu ha
    refine ⟨?_, hv⟩
    rw [List.countP_append, List.countP_singleton]
    cases hp : p a with
    | false =>
      rw [hp, Bool.toNat_false] at hle
      rw [if_neg (by decide)]
      omega
    | true =>
      rw [hp, Bool.toNat_true] at hle
      rw [if_pos rfl]
      omega

/-- A run of a deterministic relation ends in one state. -/
theorem deterministic (hdet : ∀ u a v w, step u a v → step u a w → v = w)
    (h : Run step s as t) (h' : Run step s as u) : t = u := by
  induction h generalizing u with
  | nil =>
    generalize hbs : ([] : List α) = bs at h'
    cases h' with
    | nil => rfl
    | snoc => simp at hbs
  | snoc _ hs ih =>
    obtain ⟨w, hr, hw⟩ := of_snoc h'
    obtain rfl := ih hr
    exact hdet _ _ _ _ hs hw

end Run

/-- The steps whose label and prior state meet a guard. -/
def guarded (guard : σ → α → Prop) (step : σ → α → σ → Prop) : σ → α → σ → Prop :=
  fun s a t => guard s a ∧ step s a t

/-- The relation of an executable step function; `none` is a step that cannot be taken. -/
def stepOf (f : σ → α → Option σ) : σ → α → σ → Prop := fun s a t => f s a = some t

/-- Execution of a list of labels. -/
def execute (f : σ → α → Option σ) : σ → List α → Option σ
  | s, [] => some s
  | s, a :: as => (f s a).bind fun t => execute f t as

/-- Execution of a list of labels that stops where a label fails the guard. -/
def executeGuarded (guard : σ → α → Bool) (f : σ → α → Option σ) : σ → List α → Option σ :=
  execute fun s a => if guard s a then f s a else none

theorem run_of_execute {f : σ → α → Option σ} {s t : σ} {as : List α}
    (h : execute f s as = some t) : Run (stepOf f) s as t := by
  induction as generalizing s with
  | nil =>
    cases h
    exact .nil
  | cons a as ih =>
    obtain ⟨u, hu, ht⟩ := Option.bind_eq_some_iff.mp h
    exact (Run.single hu).append (ih ht)

theorem execute_append (f : σ → α → Option σ) (s : σ) (as bs : List α) :
    execute f s (as ++ bs) = (execute f s as).bind fun t => execute f t bs := by
  induction as generalizing s with
  | nil => rfl
  | cons a as ih =>
    simp only [List.cons_append, execute, ih, Option.bind_assoc]

theorem run_stepOf_iff {f : σ → α → Option σ} {s t : σ} {as : List α} :
    Run (stepOf f) s as t ↔ execute f s as = some t := by
  refine ⟨fun h => ?_, run_of_execute⟩
  induction h with
  | nil => rfl
  | snoc _ hs ih =>
    rw [execute_append, ih, Option.bind_some, execute, hs]
    rfl

/-- The states that stand for others step as these do, so they have the same runs. -/
theorem Run.image_iff {ρ : Type*} {f : σ → ρ} {step : σ → α → σ → Prop} {step' : ρ → α → ρ → Prop}
    (hstep : ∀ s a r, step' (f s) a r ↔ ∃ t, step s a t ∧ r = f t) {s : σ} {as : List α} {r : ρ} :
    Run step' (f s) as r ↔ ∃ t, Run step s as t ∧ r = f t := by
  constructor
  · intro h
    induction h with
    | nil => exact ⟨s, .nil, rfl⟩
    | snoc _ hs ih =>
      obtain ⟨u, hu, rfl⟩ := ih
      obtain ⟨t, ht, rfl⟩ := (hstep u _ _).mp hs
      exact ⟨t, hu.snoc ht, rfl⟩
  · rintro ⟨t, h, rfl⟩
    induction h with
    | nil => exact .nil
    | snoc _ hs ih => exact ih.snoc ((hstep _ _ _).mpr ⟨_, hs, rfl⟩)

/-- Two states are related, and stay so over a step of the first one that is hidden from the
second, and over a step that both take. -/
structure Unwinding (f : σ → α → Option σ) (hidden : α → Bool) (R : σ → σ → Prop) : Prop where
  respects : ∀ ⦃s s' t : σ⦄ ⦃a : α⦄, R s s' → hidden a = true → f s a = some t → R t s'
  consistent : ∀ ⦃s s' t : σ⦄ ⦃a : α⦄, R s s' → hidden a = false → f s a = some t →
    ∃ t', f s' a = some t' ∧ R t t'

/-- Without its hidden steps an execution is possible too, and leads to a related state. -/
theorem Unwinding.purge {f : σ → α → Option σ} {hidden : α → Bool} {R : σ → σ → Prop}
    (h : Unwinding f hidden R) {s s' t : σ} {as : List α} (hR : R s s')
    (hrun : execute f s as = some t) :
    ∃ t', execute f s' (as.filter fun a => !hidden a) = some t' ∧ R t t' := by
  induction as generalizing s s' with
  | nil =>
    cases hrun
    exact ⟨s', rfl, hR⟩
  | cons a as ih =>
    obtain ⟨u, hu, hrest⟩ := Option.bind_eq_some_iff.mp hrun
    cases ha : hidden a with
    | true =>
      rw [List.filter_cons_of_neg (by simp [ha])]
      exact ih (h.respects hR ha hu) hrest
    | false =>
      obtain ⟨u', hu', hR'⟩ := h.consistent hR ha hu
      obtain ⟨t', ht', hRt⟩ := ih hR' hrest
      rw [List.filter_cons_of_pos (by simp [ha])]
      refine ⟨t', ?_, hRt⟩
      rw [execute, hu']
      exact ht'

theorem run_of_executeGuarded {guard : σ → α → Bool} {f : σ → α → Option σ} {s t : σ}
    {as : List α} (h : executeGuarded guard f s as = some t) :
    Run (guarded (fun s a => guard s a = true) (stepOf f)) s as t := by
  refine (run_of_execute h).mono fun u a v hs => ?_
  simp only [stepOf] at hs
  split at hs
  next hg => exact ⟨hg, hs⟩
  next => cases hs

/-- A run under the Boolean of a guard is one under the guard. -/
theorem Run.of_decided {guard : σ → α → Prop} [∀ s a, Decidable (guard s a)]
    {step : σ → α → σ → Prop} {s t : σ} {as : List α}
    (h : Run (guarded (fun s a => decide (guard s a) = true) step) s as t) :
    Run (guarded guard step) s as t :=
  h.mono fun _ _ _ hs => ⟨of_decide_eq_true hs.1, hs.2⟩

end IstKvs.Systems
