import IstKvs.Store.Operations

/-! The order in which a command takes its bucket locks. Keys that begin with a
lowercase letter have their buckets in the order of `strcmp`, so a sorted list of
them locks buckets of strictly ascending index, and `unlock_list` releases each. -/

namespace IstKvs.Store

open Function

/-- The key begins with a lowercase ASCII letter. -/
def CStr.startsLower (key : CStr) : Bool :=
  'a'.toNat ≤ (key.bytes.headD 0).toNat && (key.bytes.headD 0).toNat ≤ 'z'.toNat

theorem CStr.startsAlnum_of_startsLower {key : CStr} (h : key.startsLower = true) :
    key.startsAlnum = true := by
  unfold startsAlnum isAlnum
  unfold startsLower at h
  rw [h]
  rfl

theorem hash_of_startsLower {key : CStr} (h : key.startsLower = true) :
    hash key = (key.bytes.headD 0).toNat - 'a'.toNat := by
  simp only [CStr.startsLower, Char.reduceToNat, Bool.and_eq_true, decide_eq_true_eq] at h
  simp only [hash, tolower, charValue, Char.reduceToNat]
  split_ifs <;> omega

/-- `strcmp` does not order a string before one with a smaller first byte. -/
theorem headD_le_of_strcmp {s t : CStr} (h : strcmp s t ≤ 0) :
    (s.bytes.headD 0).toNat ≤ (t.bytes.headD 0).toNat := by
  unfold strcmp at h
  cases hs : s.bytes with
  | nil => simp
  | cons a as =>
    cases ht : t.bytes with
    | nil =>
      simp only [hs, ht, strcmpBytes] at h
      simp only [List.headD_cons, List.headD_nil, UInt8.toNat_ofNat]
      omega
    | cons b bs =>
      simp only [hs, ht, strcmpBytes] at h
      simp only [List.headD_cons]
      split_ifs at h with hab
      · rw [hab]
      · omega

theorem bucketOf_le {s t : CStr} {b c : Bucket} (hs : s.startsLower = true)
    (ht : t.startsLower = true) (hle : strcmp s t ≤ 0) (hb : bucketOf s = .ok b)
    (hc : bucketOf t = .ok c) : b ≤ c := by
  have hhead := headD_le_of_strcmp hle
  have hb' := hash_of_bucketOf hb
  have hc' := hash_of_bucketOf hc
  rw [hash_of_startsLower hs] at hb'
  rw [hash_of_startsLower ht] at hc'
  rw [Fin.le_def]
  omega

theorem of_mem_lockList {indexList : IndexList} {keys : List CStr} {r : List Bucket × IndexList}
    (h : lockList indexList keys = .ok r) {b : Bucket} (hb : b ∈ r.1) :
    indexList b = false ∧ ∃ key ∈ keys, bucketOf key = .ok b := by
  induction keys generalizing indexList r with
  | nil =>
    cases h
    cases hb
  | cons k keys ih =>
    obtain ⟨c, hc, ⟨-, hr⟩ | ⟨hm, rest, hr, rfl⟩⟩ := lockList_cons h
    · obtain ⟨hnot, key, hk, he⟩ := ih hr hb
      exact ⟨hnot, key, List.mem_cons_of_mem _ hk, he⟩
    · rcases List.mem_cons.mp hb with rfl | hb
      · exact ⟨hm, k, List.mem_cons_self, hc⟩
      · obtain ⟨hnot, key, hk, he⟩ := ih hr hb
        have hne : b ≠ c := by
          rintro rfl
          simp at hnot
        rw [update_of_ne hne] at hnot
        exact ⟨hnot, key, List.mem_cons_of_mem _ hk, he⟩

/-- Sorted keys that begin with lowercase letters lock buckets of ascending index. -/
theorem lockList_ascending {indexList : IndexList} {keys : List CStr}
    {r : List Bucket × IndexList} (h : lockList indexList keys = .ok r)
    (hsorted : keys.Pairwise fun a b => compareKeys a b ≤ 0)
    (hlower : ∀ key ∈ keys, key.startsLower = true) : r.1.Pairwise (· < ·) := by
  induction keys generalizing indexList r with
  | nil =>
    cases h
    exact .nil
  | cons k keys ih =>
    obtain ⟨hfirst, hrest⟩ := List.pairwise_cons.mp hsorted
    have hlower' := fun key hk => hlower key (List.mem_cons_of_mem _ hk)
    obtain ⟨b, hb, ⟨-, hr⟩ | ⟨-, rest, hr, rfl⟩⟩ := lockList_cons h
    · exact ih hr hrest hlower'
    · refine List.pairwise_cons.mpr ⟨fun c hc => ?_, ih hr hrest hlower'⟩
      obtain ⟨hnot, key, hk, he⟩ := of_mem_lockList hr hc
      have hle : b ≤ c :=
        bucketOf_le (hlower k List.mem_cons_self) (hlower' key hk) (hfirst key hk) hb he
      have hne : b ≠ c := by
        rintro rfl
        simp at hnot
      exact lt_of_le_of_ne hle hne

theorem lockList_marks {indexList : IndexList} {keys : List CStr} {r : List Bucket × IndexList}
    (h : lockList indexList keys = .ok r) {b : Bucket} (hb : indexList b = true ∨ b ∈ r.1) :
    r.2 b = true := by
  induction keys generalizing indexList r with
  | nil =>
    cases h
    simpa using hb
  | cons k keys ih =>
    obtain ⟨c, -, ⟨-, hr⟩ | ⟨-, rest, hr, rfl⟩⟩ := lockList_cons h
    · exact ih hr hb
    · show rest.2 b = true
      refine ih hr ?_
      by_cases hbc : b = c
      · exact .inl (by simp [hbc])
      · rw [update_of_ne hbc]
        exact hb.imp_right fun hm => (List.mem_cons.mp hm).resolve_left hbc

theorem mem_unlockList {keys : List CStr} {r : List Bucket × IndexList}
    (h : lockList (fun _ => false) keys = .ok r) {b : Bucket} (hb : b ∈ r.1) :
    b ∈ unlockList r.2 :=
  List.mem_filter.mpr ⟨List.mem_finRange b, lockList_marks h (.inr hb)⟩

end IstKvs.Store
