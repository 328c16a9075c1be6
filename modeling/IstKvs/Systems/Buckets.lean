import IstKvs.Systems.Chain
import Mathlib.Data.List.FinRange
import Mathlib.Logic.Function.Basic

/-! Tables of chains and the lists of entries that they stand for. A list is split
into one chain for each bucket, in its own order, and an operation on the first
entry of a key is the same operation on the chain of its bucket, whatever the
function that places the keys. -/

namespace IstKvs.Systems

variable {A A' K : Type*} [DecidableEq K] {key : A → K}

/-! ### Chains of images -/

namespace Chain

/-- Other entries in place of the first entry with key `k`. -/
def replace (key : A → K) (k : K) (g : A → List A) : List A → List A
  | [] => []
  | n :: c => if key n = k then g n ++ c else n :: replace key k g c

theorem modify_eq_replace (k : K) (f : A → A) (c : List A) :
    modify key k f c = replace key k (fun n => [f n]) c := by
  induction c with
  | nil => rfl
  | cons n c ih => simp only [modify, replace, ih, List.singleton_append]

theorem unlink_eq_replace (k : K) (c : List A) :
    unlink key k c = replace key k (fun _ => []) c := by
  induction c with
  | nil => rfl
  | cons n c ih => simp only [unlink, replace, ih, List.nil_append]

section Map
variable {key' : A' → K} {h : A → A'} (hh : ∀ n, key' (h n) = key n)
include hh

theorem lookup_map (k : K) (c : List A) : lookup key' k (c.map h) = (lookup key k c).map h := by
  induction c with
  | nil => rfl
  | cons n c ih =>
    rw [List.map_cons, lookup_cons, lookup_cons, hh, ih]
    split_ifs <;> rfl

theorem replace_map {g : A → List A} {g' : A' → List A'} (hg : ∀ n, g' (h n) = (g n).map h)
    (k : K) (c : List A) : replace key' k g' (c.map h) = (replace key k g c).map h := by
  induction c with
  | nil => rfl
  | cons n c ih =>
    simp only [List.map_cons, replace, hh, ih]
    split_ifs
    · rw [hg, List.map_append]
    · rfl

theorem modify_map {f : A → A} {f' : A' → A'} (hf : ∀ n, f' (h n) = h (f n)) (k : K)
    (c : List A) : modify key' k f' (c.map h) = (modify key k f c).map h := by
  rw [modify_eq_replace, modify_eq_replace]
  refine replace_map hh (fun n => ?_) k c
  rw [hf, List.map_singleton]

theorem unlink_map (k : K) (c : List A) : unlink key' k (c.map h) = (unlink key k c).map h := by
  rw [unlink_eq_replace, unlink_eq_replace]
  exact replace_map hh (fun _ => rfl) k c

end Map

/-- What is found after an entry was put in front, or updated if there was one. -/
def put (key : A → K) (n : A) (f : A → A) (c : List A) : List A :=
  if (lookup key (key n) c).isSome then modify key (key n) f c else n :: c

section Put
variable {n : A} {f : A → A}

theorem put_of_none {c : List A} (h : lookup key (key n) c = none) : put key n f c = n :: c := by
  rw [put, h]
  rfl

theorem put_of_some {c : List A} {m : A} (h : lookup key (key n) c = some m) :
    put key n f c = modify key (key n) f c := by
  rw [put, h]
  rfl

theorem Unique.put (hf : ∀ m, key (f m) = key m) {c : List A} (hu : Unique key c) :
    Unique key (put key n f c) := by
  unfold Chain.put
  split_ifs with h
  · exact hu.modify hf
  · exact hu.cons (by simpa using h)

theorem lookup_put_self (hf : ∀ m, key (f m) = key m) (c : List A) :
    lookup key (key n) (Chain.put key n f c) = some (((lookup key (key n) c).map f).getD n) := by
  unfold Chain.put
  split_ifs with h
  · obtain ⟨m, hm⟩ := Option.isSome_iff_exists.mp h
    rw [lookup_modify_self hf, hm]
    rfl
  · have hnone : lookup key (key n) c = none := by simpa using h
    rw [lookup_cons, if_pos rfl, hnone]
    rfl

theorem lookup_put_of_ne (hf : ∀ m, key (f m) = key m) {j : K} (hj : j ≠ key n) (c : List A) :
    lookup key j (Chain.put key n f c) = lookup key j c := by
  unfold Chain.put
  split_ifs with h
  · exact lookup_modify_of_ne hf hj c
  · rw [lookup_cons, if_neg hj.symm]

end Put

end Chain

/-! ### One chain for each bucket -/

namespace Buckets

variable {B : Type*} [DecidableEq B] (key) (bucket : K → B)

/-- The entries of each bucket. -/
def split (l : List A) (b : B) : List A := l.filter fun n => bucket (key n) = b

variable {key bucket}

theorem lookup_split (k : K) (l : List A) :
    Chain.lookup key k (split key bucket l (bucket k)) = Chain.lookup key k l := by
  induction l with
  | nil => rfl
  | cons n l ih =>
    rw [Chain.lookup_cons, ← ih]
    by_cases hk : key n = k
    · simp [split, hk, Chain.lookup_cons]
    · rw [if_neg hk]
      by_cases hb : bucket (key n) = bucket k
      · simp [split, hb, hk, Chain.lookup_cons]
      · simp [split, hb]

omit [DecidableEq K] in
theorem split_cons (n : A) (l : List A) :
    split key bucket (n :: l) = Function.update (split key bucket l) (bucket (key n))
      (n :: split key bucket l (bucket (key n))) := by
  funext b
  by_cases hb : b = bucket (key n)
  · subst hb
    rw [Function.update_self]
    simp [split]
  · rw [Function.update_of_ne hb]
    simp [split, Ne.symm hb]

/-- What takes the place of the first entry of a key stays in its bucket. -/
theorem split_replace {k : K} {g : A → List A} (hg : ∀ n, key n = k → ∀ m ∈ g n, key m = k)
    (l : List A) :
    split key bucket (Chain.replace key k g l) = Function.update (split key bucket l) (bucket k)
      (Chain.replace key k g (split key bucket l (bucket k))) := by
  induction l with
  | nil =>
    funext b
    by_cases hb : b = bucket k <;> simp [split, Chain.replace, Function.update_apply]
  | cons n l ih =>
    funext b
    have hb := congrFun ih b
    by_cases hk : key n = k
    · rw [Chain.replace, if_pos hk]
      by_cases hbk : b = bucket k
      · subst hbk
        have hkeep : split key bucket (g n) (bucket k) = g n :=
          List.filter_eq_self.mpr fun m hm => by simp [hg n hk m hm]
        rw [Function.update_self]
        simp only [split] at hkeep ⊢
        simp [hkeep, hk, Chain.replace]
      · have hdrop : split key bucket (g n) b = [] :=
          List.filter_eq_nil_iff.mpr fun m hm => by simp [hg n hk m hm, Ne.symm hbk]
        rw [Function.update_of_ne hbk]
        simp only [split] at hdrop ⊢
        simp [hdrop, hk, Ne.symm hbk]
    · simp only [Chain.replace, if_neg hk]
      by_cases hbk : b = bucket k
      · subst hbk
        rw [Function.update_self] at hb ⊢
        by_cases hbn : bucket (key n) = bucket k
        · simp only [split, List.filter_cons, hbn, decide_true, if_true, Chain.replace, if_neg hk]
          exact congrArg (n :: ·) hb
        · simp only [split, List.filter_cons, hbn, decide_false, Bool.false_eq_true, if_false]
          exact hb
      · rw [Function.update_of_ne hbk] at hb ⊢
        simp only [split, List.filter_cons]
        split_ifs
        · exact congrArg (n :: ·) hb
        · exact hb

theorem split_modify {f : A → A} (hf : ∀ n, key (f n) = key n) (k : K) (l : List A) :
    split key bucket (Chain.modify key k f l) = Function.update (split key bucket l) (bucket k)
      (Chain.modify key k f (split key bucket l (bucket k))) := by
  rw [Chain.modify_eq_replace, Chain.modify_eq_replace]
  refine split_replace (fun n hn m hm => ?_) l
  rw [List.mem_singleton.mp hm, hf, hn]

theorem split_unlink (k : K) (l : List A) :
    split key bucket (Chain.unlink key k l) = Function.update (split key bucket l) (bucket k)
      (Chain.unlink key k (split key bucket l (bucket k))) := by
  rw [Chain.unlink_eq_replace, Chain.unlink_eq_replace]
  exact split_replace (fun n _ m hm => absurd hm List.not_mem_nil) l

end Buckets

end IstKvs.Systems
