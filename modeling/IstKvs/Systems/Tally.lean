import Mathlib.Algebra.Order.BigOperators.Group.Finset
import Mathlib.Data.Fintype.BigOperators

/-! Counting over the threads of a system: each thread weighs something by the
place it is at, and a step that moves one thread changes the total by the weights
of its two places. -/

namespace IstKvs.Systems

open Function

variable {ι P : Type*} [Fintype ι]

/-- The total weight of all threads. -/
def tally (w : ι → P → ℕ) (f : ι → P) : ℕ := ∑ i, w i (f i)

theorem tally_congr {w v : ι → P → ℕ} {f : ι → P} (h : ∀ i, w i (f i) = v i (f i)) :
    tally w f = tally v f :=
  Finset.sum_congr rfl fun i _ => h i

theorem tally_add (w v : ι → P → ℕ) (f : ι → P) :
    tally (fun i p => w i p + v i p) f = tally w f + tally v f :=
  Finset.sum_add_distrib

theorem le_tally (w : ι → P → ℕ) (f : ι → P) (i : ι) : w i (f i) ≤ tally w f :=
  Finset.single_le_sum (f := fun j => w j (f j)) (fun _ _ => Nat.zero_le _) (Finset.mem_univ i)

theorem tally_eq_zero {w : ι → P → ℕ} {f : ι → P} (h : ∀ i, w i (f i) = 0) : tally w f = 0 :=
  Finset.sum_eq_zero fun i _ => h i

theorem tally_pos_iff {w : ι → P → ℕ} {f : ι → P} : 0 < tally w f ↔ ∃ i, 0 < w i (f i) := by
  constructor
  · intro h
    by_contra hall
    have hzero : tally w f = 0 := tally_eq_zero fun i => by
      by_contra hi
      exact hall ⟨i, Nat.pos_of_ne_zero hi⟩
    omega
  · rintro ⟨i, hi⟩
    exact lt_of_lt_of_le hi (le_tally w f i)

/-- Moving one thread takes the weight of its old place and adds that of its new one. -/
theorem tally_update [DecidableEq ι] (w : ι → P → ℕ) (f : ι → P) (i : ι) (x : P) :
    tally w (update f i x) + w i (f i) = tally w f + w i x := by
  have hsplit : ∀ g : ι → P, tally w g =
      w i (g i) + ∑ j ∈ Finset.univ.erase i, w j (g j) :=
    fun g => (Finset.add_sum_erase Finset.univ (fun j => w j (g j)) (Finset.mem_univ i)).symm
  have hrest : ∑ j ∈ Finset.univ.erase i, w j (update f i x j) =
      ∑ j ∈ Finset.univ.erase i, w j (f j) :=
    Finset.sum_congr rfl fun j hj => by rw [update_of_ne (Finset.ne_of_mem_erase hj)]
  rw [hsplit, hsplit f, hrest, update_self]
  omega

/-- Moving one thread to a place that weighs less takes as much from the total. -/
theorem tally_update_le [DecidableEq ι] {w : ι → P → ℕ} {f : ι → P} {i : ι} {x : P} {k : ℕ}
    (h : w i x + k ≤ w i (f i)) : tally w (update f i x) + k ≤ tally w f := by
  have hmove := tally_update w f i x
  omega

end IstKvs.Systems
