import Mathlib.Logic.Function.Basic

/-! Families of readers-writer locks, as the table of who holds which lock in
which mode. A lock is granted when its holders are compatible; granting and
releasing keep the holder of a write lock alone. -/

namespace IstKvs.Systems

open Function

inductive Mode
  | read | write
  deriving DecidableEq

variable {τ β : Type*}

/-- Who holds which lock, and how. -/
abbrev Holders (τ β : Type*) := τ → β → Option Mode

namespace Holders

variable {held : Holders τ β}

/-- A lock is free for reading when no thread writes, for writing when no thread holds it. -/
def Grants (held : Holders τ β) (b : β) : Mode → Prop
  | .read => ∀ t, held t b ≠ some .write
  | .write => ∀ t, held t b = none

/-- A write lock has no other holder. -/
def Exclusive (held : Holders τ β) : Prop :=
  ∀ t u b, t ≠ u → held t b = some .write → held u b = none

variable [DecidableEq τ] [DecidableEq β]

def acquire (held : Holders τ β) (t : τ) (b : β) (m : Mode) : Holders τ β :=
  update held t (update (held t) b (some m))

def release (held : Holders τ β) (t : τ) (b : β) : Holders τ β :=
  update held t (update (held t) b none)

@[simp] theorem acquire_self (t : τ) (b : β) (m : Mode) :
    held.acquire t b m t b = some m := by
  simp [acquire]

theorem acquire_of_ne {t u : τ} (hu : u ≠ t) (b : β) (m : Mode) :
    held.acquire t b m u = held u := by
  simp [acquire, hu]

theorem acquire_other {b c : β} (hc : c ≠ b) (t u : τ) (m : Mode) :
    held.acquire t b m u c = held u c := by
  by_cases hu : u = t
  · subst hu; simp [acquire, hc]
  · rw [acquire_of_ne hu]

@[simp] theorem release_self (t : τ) (b : β) : held.release t b t b = none := by
  simp [release]

theorem release_of_ne {t u : τ} (hu : u ≠ t) (b : β) : held.release t b u = held u := by
  simp [release, hu]

theorem release_other {b c : β} (hc : c ≠ b) (t u : τ) : held.release t b u c = held u c := by
  by_cases hu : u = t
  · subst hu; simp [release, hc]
  · rw [release_of_ne hu]

/-- What is held after a release was held before. -/
theorem held_of_release {t u : τ} {b c : β} {m : Mode} (h : held.release t b u c = some m) :
    held u c = some m := by
  by_cases hc : c = b
  · by_cases hu : u = t
    · subst hc hu; simp at h
    · rwa [release_of_ne hu] at h
  · rwa [release_other hc] at h

omit [DecidableEq τ] [DecidableEq β] in
theorem exclusive_none : Exclusive (fun _ _ => none : Holders τ β) := by
  simp [Exclusive]

theorem Exclusive.acquire (h : Exclusive held) (t : τ) {b : β} {m : Mode}
    (hg : held.Grants b m) : Exclusive (held.acquire t b m) := by
  intro u v c huv hu
  by_cases hc : c = b
  · subst hc
    by_cases hut : u = t
    · -- the new holder in write mode: the grant found no other
      subst hut
      simp only [acquire_self, Option.some.injEq] at hu
      subst hu
      rw [acquire_of_ne huv.symm]
      exact hg v
    · -- an old holder in write mode forbids the grant
      rw [acquire_of_ne hut] at hu
      cases m with
      | read => exact absurd hu (hg u)
      | write => exact absurd hu (by simp [hg u])
  · rw [acquire_other hc] at hu ⊢
    exact h u v c huv hu

theorem Exclusive.release (h : Exclusive held) (t : τ) (b : β) :
    Exclusive (held.release t b) := by
  intro u v c huv hu
  have hn := h u v c huv (held_of_release hu)
  cases hv : held.release t b v c with
  | none => rfl
  | some m => rw [held_of_release hv] at hn; cases hn

omit [DecidableEq τ] [DecidableEq β] in
/-- A grant never meets the same thread's own hold in another mode. -/
theorem mode_eq_of_grants {t : τ} {b : β} {m m' : Mode} (hg : held.Grants b m)
    (hh : held t b = some m') : m' = m := by
  cases m with
  | read =>
    cases m' with
    | read => rfl
    | write => exact absurd hh (hg t)
  | write => exact absurd hh (by simp [hg t])

end Holders

end IstKvs.Systems
