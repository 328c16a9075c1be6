import Mathlib.Data.List.Basic
import Mathlib.Logic.Function.Basic

/-! Stores of values at indices of an array, in the order in which they are made: which of them
are inside an array of a given size, and what the array holds afterwards. A program that
copies piece by piece makes the stores of consecutive values. Nothing here depends on what is
stored. -/

namespace IstKvs.Systems.Stores

open Function

variable {α : Type*}

/-- The stores of consecutive values from an index on. -/
def storesAt : ℕ → List α → List (ℕ × α)
  | _, [] => []
  | i, x :: xs => (i, x) :: storesAt (i + 1) xs

/-- Every store is inside an array of this size. -/
def Inside (size : ℕ) (stores : List (ℕ × α)) : Prop := ∀ s ∈ stores, s.1 < size

instance (size : ℕ) (stores : List (ℕ × α)) : Decidable (Inside size stores) :=
  inferInstanceAs (Decidable (∀ s ∈ stores, s.1 < size))

/-- The array after the stores. -/
def apply (mem : ℕ → α) (stores : List (ℕ × α)) : ℕ → α :=
  stores.foldl (fun mem s => update mem s.1 s.2) mem

@[simp] theorem storesAt_nil (i : ℕ) : storesAt i ([] : List α) = [] := rfl

@[simp] theorem apply_nil (mem : ℕ → α) : apply mem [] = mem := rfl

/-- The stores of a text are those of its pieces, one piece behind the other. -/
theorem storesAt_append (i : ℕ) (xs ys : List α) :
    storesAt i (xs ++ ys) = storesAt i xs ++ storesAt (i + xs.length) ys := by
  induction xs generalizing i with
  | nil => rfl
  | cons x xs ih =>
    have hi : i + 1 + xs.length = i + (xs.length + 1) := by omega
    rw [List.cons_append, storesAt, storesAt, ih, hi]
    rfl

theorem inside_storesAt {size i : ℕ} {xs : List α} :
    Inside size (storesAt i xs) ↔ xs = [] ∨ i + xs.length ≤ size := by
  induction xs generalizing i with
  | nil => simp [Inside]
  | cons x xs ih =>
    have hcons : Inside size (storesAt i (x :: xs)) ↔
        i < size ∧ Inside size (storesAt (i + 1) xs) := List.forall_mem_cons
    rw [hcons, ih, List.length_cons]
    cases xs with
    | nil =>
      simp only [true_or, and_true, reduceCtorEq, false_or, List.length_nil]
      omega
    | cons y xs =>
      simp only [List.length_cons, reduceCtorEq, false_or]
      omega

theorem apply_storesAt_of_lt (mem : ℕ → α) {i j : ℕ} (xs : List α) (h : j < i) :
    apply mem (storesAt i xs) j = mem j := by
  induction xs generalizing mem i with
  | nil => rfl
  | cons x xs ih =>
    have hstep : apply mem (storesAt i (x :: xs)) = apply (update mem i x) (storesAt (i + 1) xs) :=
      rfl
    rw [hstep, ih _ (Nat.lt_succ_of_lt h), update_of_ne (Nat.ne_of_lt h)]

theorem apply_storesAt_add (mem : ℕ → α) (i : ℕ) {xs : List α} {j : ℕ} (h : j < xs.length) :
    apply mem (storesAt i xs) (i + j) = xs[j] := by
  induction xs generalizing mem i j with
  | nil => cases h
  | cons x xs ih =>
    have hstep : apply mem (storesAt i (x :: xs)) = apply (update mem i x) (storesAt (i + 1) xs) :=
      rfl
    rw [hstep]
    cases j with
    | zero => rw [apply_storesAt_of_lt _ _ (by omega)]; exact update_self ..
    | succ j =>
      have hi : i + (j + 1) = i + 1 + j := by omega
      rw [hi, ih _ _ (Nat.lt_of_succ_lt_succ h)]
      rfl

theorem map_range_apply (mem : ℕ → α) {xs : List α} {size : ℕ} (h : xs.length ≤ size) :
    ∃ rest, (List.range size).map (apply mem (storesAt 0 xs)) = xs ++ rest := by
  obtain ⟨n, rfl⟩ := Nat.exists_eq_add_of_le h
  have hxs : (List.range xs.length).map (apply mem (storesAt 0 xs)) = xs := by
    refine List.ext_getElem (by simp) fun j _ hj => ?_
    have hget := apply_storesAt_add mem 0 hj
    rw [Nat.zero_add] at hget
    rw [List.getElem_map, List.getElem_range, hget]
  refine ⟨((List.range n).map (xs.length + ·)).map (apply mem (storesAt 0 xs)), ?_⟩
  rw [List.range_add, List.map_append, hxs]

end IstKvs.Systems.Stores
