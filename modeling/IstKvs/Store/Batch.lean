import IstKvs.Store.Placement
import IstKvs.Store.Operations

/-! A batch of writes. `kvs_write` applies its pairs in the order in which `qsort` leaves
them, and `qsort` may put the pairs of one key in any order: the value that a key given
several times ends with is the one of any of its pairs. -/

namespace IstKvs.Store

open Function

/-- The value stored under a key, `some none` for the NULL of a failed copy. -/
def contents (ht : HashTable) (key : CStr) : Option (Option CStr) :=
  (nodeOf ht key).map KeyNode.value

/-- The value under a key after a write to it. -/
def written (old : Option (Option CStr)) (value : CStr) (mem : WriteMem) :
    Option (Option CStr) :=
  match old with
  | some _ => some (if mem.value then some value else none)
  | none => if mem.keyNode && mem.key && mem.value then some (some value) else none

/-! ### One pair -/

theorem contents_writeChain (ht : HashTable) {key : CStr} {b : Bucket}
    (hb : bucketOf key = .ok b) (value : CStr) (mem : WriteMem) :
    contents (update ht b (writeChain (ht b) key value mem).chain) =
      update (contents ht) key (written (contents ht key) value mem) := by
  funext j
  by_cases hj : j = key
  · subst hj
    rw [update_self, contents, contents, nodeOf_eq hb, nodeOf_eq hb, update_self]
    cases hn : findNode j (ht b) with
    | some n =>
      have hf := findNode_updateNode j (show ∀ n : KeyNode,
        ({ n with value := if mem.value then some value else none } : KeyNode).key = n.key from
          fun _ => rfl) (ht b)
      rw [hn] at hf
      simp [writeChain, hn, hf, written]
    | none =>
      obtain ⟨_ | _, _ | _, _ | _⟩ := mem <;>
        simp [writeChain, hn, written, findNode, strcmp_eq_zero]
  · rw [update_of_ne hj, contents, contents, (writeChain_changes _ _ _ _).nodeOf_of_ne hj]

/-! ### The loop -/

/-- The pairs of a batch that are of one key. -/
def ofKey (key : CStr) (pairs : List ((CStr × CStr) × WriteMem)) :
    List ((CStr × CStr) × WriteMem) :=
  pairs.filter fun p => p.1.1 = key

/-- The loop leaves under each key what the pairs of that key leave, in their order. -/
theorem contents_writeLoop (ht : HashTable) (pairs : List ((CStr × CStr) × WriteMem))
    (hk : ∀ p ∈ pairs, p.1.1.startsAlnum = true) :
    ∃ ht', writeLoop ht pairs = .ok ht' ∧ ∀ key,
      contents ht' key =
        (ofKey key pairs).foldl (fun old p => written old p.1.2 p.2) (contents ht key) := by
  induction pairs generalizing ht with
  | nil => exact ⟨ht, rfl, fun _ => rfl⟩
  | cons p pairs ih =>
    obtain ⟨b, hb⟩ := bucketOf_eq_ok_iff.mpr (hk p List.mem_cons_self)
    have hc := contents_writeChain ht hb p.1.2 p.2
    obtain ⟨ht', hloop, hrest⟩ := ih (update ht b (writeChain (ht b) p.1.1 p.1.2 p.2).chain)
      fun q hq => hk q (List.mem_cons_of_mem _ hq)
    refine ⟨ht', ?_, fun key => ?_⟩
    · rw [writeLoop, List.foldlM_cons, writePair_eq hb]
      exact hloop
    · rw [hrest, hc, ofKey, ofKey]
      by_cases hkey : p.1.1 = key
      · subst hkey
        rw [List.filter_cons_of_pos (by simp), List.foldl_cons, update_self]
      · rw [List.filter_cons_of_neg (by simpa using hkey), update_of_ne (Ne.symm hkey)]

/-- With all allocations succeeding the last pair of the key counts. -/
theorem foldl_written (old : Option (Option CStr)) (pairs : List (CStr × CStr)) :
    pairs.foldl (fun old p => written old p.2 .ok) old =
      (pairs.getLast?.map fun p => some p.2).or old := by
  induction pairs using List.reverseRecOn with
  | nil => rfl
  | append_singleton pairs p ih =>
    rw [List.foldl_append, List.foldl_cons, List.foldl_nil, List.getLast?_concat]
    cases pairs.foldl (fun old p => written old p.2 .ok) old <;> rfl

/-- The pairs with the outcome of their allocations. -/
def allocated (pairs : List (CStr × CStr)) : List ((CStr × CStr) × WriteMem) :=
  pairs.map fun p => (p, .ok)

theorem contents_writeLoop_allocated (ht : HashTable) (pairs : List (CStr × CStr))
    (hk : ∀ p ∈ pairs, p.1.startsAlnum = true) :
    ∃ ht', writeLoop ht (allocated pairs) = .ok ht' ∧ ∀ key,
      contents ht' key =
        ((pairs.filter fun p => p.1 = key).getLast?.map fun p => some p.2).or
          (contents ht key) := by
  have hk' : ∀ p ∈ allocated pairs, p.1.1.startsAlnum = true := by
    intro p hp
    obtain ⟨q, hq, rfl⟩ := List.mem_map.mp hp
    exact hk q hq
  obtain ⟨ht', hloop, hrest⟩ := contents_writeLoop ht (allocated pairs) hk'
  refine ⟨ht', hloop, fun key => ?_⟩
  have hmap : ofKey key (allocated pairs) = allocated (pairs.filter fun p => p.1 = key) := by
    rw [ofKey, allocated, allocated, List.filter_map]
    rfl
  rw [hrest, hmap, allocated, List.foldl_map, foldl_written]

/-! ### Sorting -/

/-- Pairs by their keys, and one pair after all others of its key. -/
def compareLast (p a b : CStr × CStr) : ℤ :=
  if comparePairs a b = 0 then if a = p ∧ b ≠ p then 1 else 0 else comparePairs a b

theorem comparePairs_eq_zero {a b : CStr × CStr} : comparePairs a b = 0 ↔ a.1 = b.1 :=
  strcmp_eq_zero

theorem compareLast_le {p a b : CStr × CStr} :
    compareLast p a b ≤ 0 ↔ comparePairs a b ≤ 0 ∧ (a.1 = b.1 → a = p → b = p) := by
  unfold compareLast
  rw [← comparePairs_eq_zero]
  split_ifs with h0 hp
  · refine iff_of_false (by decide) fun h => hp.2 (h.2 h0 hp.1)
  · simp only [h0, le_refl, true_and, true_implies, true_iff]
    tauto
  · simp [h0]

theorem compareLast_total (p a b : CStr × CStr) :
    compareLast p a b ≤ 0 ∨ compareLast p b a ≤ 0 := by
  rw [compareLast_le, compareLast_le]
  by_cases hab : a.1 = b.1
  · have h := comparePairs_eq_zero.mpr hab
    have h' := comparePairs_eq_zero.mpr hab.symm
    by_cases hb : b = p
    · exact .inl ⟨h.le, fun _ _ => hb⟩
    · exact .inr ⟨h'.le, fun _ he => absurd he hb⟩
  · exact (strcmp_total a.1 b.1).imp (fun h => ⟨h, fun he => absurd he hab⟩)
      fun h => ⟨h, fun he => absurd he.symm hab⟩

theorem compareLast_trans (p a b c : CStr × CStr) (h : compareLast p a b ≤ 0)
    (h' : compareLast p b c ≤ 0) : compareLast p a c ≤ 0 := by
  rw [compareLast_le] at h h' ⊢
  refine ⟨strcmp_trans h.1 h'.1, fun hac hap => ?_⟩
  -- the key between two equal keys is that key
  have hba : comparePairs b a ≤ 0 := by
    have hbc := h'.1
    unfold comparePairs at hbc ⊢
    rwa [hac]
  have hab := h.1
  have hswap : comparePairs b a = -comparePairs a b := strcmp_swap a.1 b.1
  have hkey : a.1 = b.1 := comparePairs_eq_zero.mp (by omega)
  exact h'.2 (hkey ▸ hac) (h.2 hkey hap)

/-- `qsort` may leave any pair of a key after all others of that key. -/
theorem exists_sorted_last {pairs : List (CStr × CStr)} {p : CStr × CStr} (hp : p ∈ pairs) :
    ∃ sorted, QsortResult comparePairs pairs sorted ∧
      (sorted.filter fun q => q.1 = p.1).getLast? = some p := by
  obtain ⟨sorted, hperm, hsorted⟩ :=
    exists_qsortResult (compareLast p) (compareLast_total p) (compareLast_trans p) pairs
  refine ⟨sorted, ⟨hperm, hsorted.imp fun h => (compareLast_le.mp h).1⟩, ?_⟩
  have hmem : p ∈ sorted.filter fun q => q.1 = p.1 := by
    simp [hperm.mem_iff, hp]
  have hlast := (hsorted.imp fun h => (compareLast_le.mp h).2).filter fun q => q.1 = p.1
  have hkey : ∀ q ∈ sorted.filter (fun q => q.1 = p.1), q.1 = p.1 := by
    intro q hq
    simpa using (List.mem_filter.mp hq).2
  generalize sorted.filter (fun q => q.1 = p.1) = qs at hmem hlast hkey
  rcases List.eq_nil_or_concat qs with rfl | ⟨qs, q, rfl⟩
  · cases hmem
  · rw [List.concat_eq_append] at hmem hlast hkey ⊢
    rw [List.getLast?_concat]
    rcases List.mem_append.mp hmem with hin | hin
    · have hq := (List.pairwise_append.mp hlast).2.2 p hin q (List.mem_singleton_self q)
      rw [hq (hkey q (by simp)).symm rfl]
    · rw [List.mem_singleton.mp hin]

/-! ### The batch -/

/-- For every result of `qsort`, the batch leaves under each key what writing its pairs in the
order of the command leaves. -/
def AsGiven (ht : HashTable) (pairs : List (CStr × CStr)) : Prop :=
  ∀ sorted, QsortResult comparePairs pairs sorted →
    ∃ ht' ht'', kvsWrite ht (allocated sorted) = .ok ht' ∧
      writeLoop ht (allocated pairs) = .ok ht'' ∧ contents ht' = contents ht''

/-- A batch does what its pairs do in the order given exactly when no key is given two values. -/
theorem asGiven_iff (ht : HashTable) (pairs : List (CStr × CStr))
    (hk : ∀ p ∈ pairs, p.1.startsAlnum = true) :
    AsGiven ht pairs ↔ ∀ p ∈ pairs, ∀ q ∈ pairs, p.1 = q.1 → p.2 = q.2 := by
  have hwrite : ∀ sorted, QsortResult comparePairs pairs sorted →
      ∃ ht', kvsWrite ht (allocated sorted) = .ok ht' ∧ ∀ key,
        contents ht' key = ((sorted.filter fun p => p.1 = key).getLast?.map fun p => some p.2).or
          (contents ht key) := by
    intro sorted hq
    have hvalid : ∀ p ∈ sorted, p.1.startsAlnum = true := fun p hp => hk p (hq.1.mem_iff.mp hp)
    obtain ⟨ht', hloop, hc⟩ := contents_writeLoop_allocated ht sorted hvalid
    have hvalid' : ∀ p ∈ allocated sorted, p.1.1.startsAlnum = true :=
      List.forall_mem_map.mpr hvalid
    exact ⟨ht', (kvsWrite_eq_loop hvalid').trans hloop, hc⟩
  obtain ⟨ht'', hseq, hgiven⟩ := contents_writeLoop_allocated ht pairs hk
  constructor
  · intro h p hp q hq hpq
    -- either pair may be the last of its key
    have hlast : ∀ r ∈ pairs, r.1 = p.1 → contents ht'' p.1 = some (some r.2) := by
      intro r hr hkey
      obtain ⟨sorted, hs, hsl⟩ := exists_sorted_last hr
      obtain ⟨ht₁, ht₂, hbatch, hloop, he⟩ := h sorted hs
      obtain ⟨ht', hbatch', hc⟩ := hwrite sorted hs
      rw [hbatch'] at hbatch
      rw [hseq] at hloop
      cases hbatch
      cases hloop
      rw [← he, hc, ← hkey, hsl]
      rfl
    have h₁ := hlast p hp rfl
    rw [hlast q hq hpq.symm] at h₁
    simpa using h₁.symm
  · intro h sorted hs
    obtain ⟨ht', hbatch, hc⟩ := hwrite sorted hs
    refine ⟨ht', ht'', hbatch, hseq, ?_⟩
    funext key
    rw [hc, hgiven]
    congr 1
    have hperm := hs.1.filter fun p => p.1 = key
    cases hl : (pairs.filter fun p => p.1 = key).getLast? with
    | none =>
      rw [List.getLast?_eq_none_iff] at hl
      rw [hl] at hperm
      rw [hperm.eq_nil]
      rfl
    | some p =>
      have hne : sorted.filter (fun p => p.1 = key) ≠ [] := by
        intro hnil
        rw [hnil] at hperm
        rw [hperm.symm.eq_nil] at hl
        cases hl
      have hp := List.mem_filter.mp (List.mem_of_getLast? hl)
      have hq := List.mem_filter.mp (hperm.mem_iff.mp (List.getLast_mem hne))
      have hkey := (of_decide_eq_true hq.2).trans (of_decide_eq_true hp.2).symm
      rw [List.getLast?_eq_some_getLast hne, Option.map_some, Option.map_some, h _ hq.1 p hp.1 hkey]

/-- A key given the values 1 and 2, with the second pair sorted first. -/
theorem not_asGiven : ¬ AsGiven createHashTable
    [(⟨chars ['a'], by decide⟩, ⟨chars ['1'], by decide⟩),
      (⟨chars ['a'], by decide⟩, ⟨chars ['2'], by decide⟩)] := by
  intro h
  obtain ⟨ht', ht'', hbatch, hloop, he⟩ := h
    [(⟨chars ['a'], by decide⟩, ⟨chars ['2'], by decide⟩),
      (⟨chars ['a'], by decide⟩, ⟨chars ['1'], by decide⟩)] ⟨.swap _ _ _, by decide⟩
  have hkey := congrFun he ⟨chars ['a'], by decide⟩
  cases hbatch
  cases hloop
  revert hkey
  decide

/-- A key given twice with one value, and another key. -/
theorem asGiven_iff_repeated : AsGiven createHashTable
    [(⟨chars ['b'], by decide⟩, ⟨chars ['1'], by decide⟩),
      (⟨chars ['a'], by decide⟩, ⟨chars ['2'], by decide⟩),
      (⟨chars ['b'], by decide⟩, ⟨chars ['1'], by decide⟩)] :=
  (asGiven_iff _ _ (by decide)).mpr (by decide)

end IstKvs.Store
