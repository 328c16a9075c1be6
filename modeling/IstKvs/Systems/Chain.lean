import Mathlib.Data.List.Nodup

/-! Chains of entries searched by key: lookup, update and unlinking of the first
entry with a key. With distinct keys a chain is a finite map, and each operation
leaves what is found under every other key alone. -/

namespace IstKvs.Systems.Chain

variable {A K : Type*} [DecidableEq K] (key : A → K)

/-- The first entry with key `k`. -/
def lookup (k : K) (c : List A) : Option A := c.find? fun n => key n = k

/-- Apply `f` to the first entry with key `k`. -/
def modify (k : K) (f : A → A) : List A → List A
  | [] => []
  | n :: c => if key n = k then f n :: c else n :: modify k f c

/-- Remove the first entry with key `k`. -/
def unlink (k : K) : List A → List A
  | [] => []
  | n :: c => if key n = k then c else n :: unlink k c

/-- No key occurs twice. -/
def Unique (c : List A) : Prop := (c.map key).Nodup

variable {key}

@[simp] theorem lookup_nil (k : K) : lookup key k [] = none := rfl

theorem lookup_cons (k : K) (n : A) (c : List A) :
    lookup key k (n :: c) = if key n = k then some n else lookup key k c := by
  by_cases h : key n = k <;> simp [lookup, h]

theorem key_of_lookup {k : K} {c : List A} {n : A} (h : lookup key k c = some n) : key n = k := by
  simpa using List.find?_some h

theorem mem_of_lookup {k : K} {c : List A} {n : A} (h : lookup key k c = some n) : n ∈ c :=
  List.mem_of_find?_eq_some h

theorem lookup_eq_none {k : K} {c : List A} : lookup key k c = none ↔ ∀ n ∈ c, key n ≠ k := by
  simp [lookup]

/-- In a chain with distinct keys every entry is found under its key. -/
theorem lookup_of_mem {c : List A} (hu : Unique key c) {n : A} (hn : n ∈ c) :
    lookup key (key n) c = some n := by
  induction c with
  | nil => cases hn
  | cons m c ih =>
    obtain ⟨hm, hc⟩ := List.nodup_cons.mp hu
    rcases List.mem_cons.mp hn with rfl | hn
    · simp [lookup_cons]
    · have hne : key m ≠ key n := fun he => hm (List.mem_map.mpr ⟨n, hn, he.symm⟩)
      rw [lookup_cons, if_neg hne]
      exact ih hc hn

section Modify
variable {k : K} {f : A → A} (hf : ∀ n, key (f n) = key n)
include hf

theorem map_key_modify (c : List A) : (modify key k f c).map key = c.map key := by
  induction c with
  | nil => rfl
  | cons n c ih =>
    simp only [modify]
    split_ifs
    · simp [hf]
    · simp [ih]

theorem Unique.modify {c : List A} (hu : Unique key c) : Unique key (modify key k f c) := by
  unfold Unique
  rw [map_key_modify hf]
  exact hu

theorem lookup_modify_self (c : List A) :
    lookup key k (Chain.modify key k f c) = (lookup key k c).map f := by
  induction c with
  | nil => rfl
  | cons n c ih =>
    simp only [Chain.modify]
    split_ifs with h
    · simp [lookup_cons, hf, h]
    · simp [lookup_cons, h, ih]

theorem lookup_modify_of_ne {j : K} (hj : j ≠ k) (c : List A) :
    lookup key j (Chain.modify key k f c) = lookup key j c := by
  induction c with
  | nil => rfl
  | cons n c ih =>
    simp only [Chain.modify]
    split_ifs with h
    · have hn : key n ≠ j := fun he => hj (he.symm.trans h)
      simp [lookup_cons, hf, hn]
    · simp [lookup_cons, ih]

end Modify

/-- An entry after an update is an old one or the updated one. -/
theorem mem_modify {k : K} {f : A → A} {c : List A} {n : A} (h : n ∈ modify key k f c) :
    n ∈ c ∨ ∃ m, lookup key k c = some m ∧ n = f m := by
  induction c with
  | nil => cases h
  | cons m c ih =>
    simp only [modify] at h
    split_ifs at h with hm
    · rcases List.mem_cons.mp h with rfl | h
      · exact .inr ⟨m, by simp [lookup_cons, hm], rfl⟩
      · exact .inl (List.mem_cons_of_mem _ h)
    · rcases List.mem_cons.mp h with rfl | h
      · exact .inl List.mem_cons_self
      · rcases ih h with h | ⟨m', hl, rfl⟩
        · exact .inl (List.mem_cons_of_mem _ h)
        · exact .inr ⟨m', by rw [lookup_cons, if_neg hm, hl], rfl⟩

theorem unlink_sublist (k : K) (c : List A) : (unlink key k c).Sublist c := by
  induction c with
  | nil => exact .slnil
  | cons n c ih =>
    simp only [unlink]
    split_ifs
    · exact List.sublist_cons_self n c
    · exact ih.cons_cons n

theorem unlink_of_none {k : K} {c : List A} (h : lookup key k c = none) : unlink key k c = c := by
  induction c with
  | nil => rfl
  | cons n c ih =>
    rw [lookup_cons] at h
    split_ifs at h with hn
    rw [unlink, if_neg hn, ih h]

/-- With distinct keys, unlinking a key is filtering it out. -/
theorem unlink_eq_filter {c : List A} (hu : Unique key c) (k : K) :
    unlink key k c = c.filter fun n => key n ≠ k := by
  induction c with
  | nil => rfl
  | cons n c ih =>
    obtain ⟨hn, hc⟩ := List.nodup_cons.mp hu
    rw [unlink]
    split_ifs with hk
    · rw [List.filter_cons_of_neg (by simpa using hk)]
      refine (List.filter_eq_self.mpr fun m hm => ?_).symm
      have hne : key m ≠ k := fun he => hn (List.mem_map.mpr ⟨m, hm, he.trans hk.symm⟩)
      simpa using hne
    · rw [List.filter_cons_of_pos (by simpa using hk), ih hc]

theorem Unique.unlink {c : List A} (hu : Unique key c) (k : K) : Unique key (unlink key k c) :=
  hu.sublist ((unlink_sublist k c).map key)

theorem lookup_unlink_of_ne {j k : K} (hj : j ≠ k) (c : List A) :
    lookup key j (unlink key k c) = lookup key j c := by
  induction c with
  | nil => rfl
  | cons n c ih =>
    simp only [Chain.unlink]
    split_ifs with h
    · have hn : key n ≠ j := fun he => hj (he.symm.trans h)
      rw [lookup_cons, if_neg hn]
    · rw [lookup_cons, lookup_cons, ih]

theorem lookup_unlink_self {c : List A} (hu : Unique key c) (k : K) :
    lookup key k (Chain.unlink key k c) = none := by
  induction c with
  | nil => rfl
  | cons n c ih =>
    obtain ⟨hn, hc⟩ := List.nodup_cons.mp hu
    simp only [Chain.unlink]
    split_ifs with h
    · rw [lookup_eq_none]
      intro m hm he
      exact hn (List.mem_map.mpr ⟨m, hm, he.trans h.symm⟩)
    · rw [lookup_cons, if_neg h, ih hc]

/-- A new key is put in front. -/
theorem Unique.cons {c : List A} (hu : Unique key c) {n : A} (hn : lookup key (key n) c = none) :
    Unique key (n :: c) := by
  refine List.nodup_cons.mpr ⟨fun hm => ?_, hu⟩
  obtain ⟨m, hm, he⟩ := List.mem_map.mp hm
  exact lookup_eq_none.mp hn m hm he

end IstKvs.Systems.Chain
