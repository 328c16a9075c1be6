import IstKvs.Store.Order
import IstKvs.Store.Serial

/-! Which commands take their bucket locks in the order of `kvs_show`. The keys are sorted
by `strcmp`, but the bucket of a key comes from its first character with letters folded to
lowercase and digits folded onto letters, so a digit or an uppercase letter may come before
a letter of a lower bucket. -/

namespace IstKvs.Store

open IstKvs.Systems IstKvs.Systems.TwoPhase Function

/-! ### First occurrences -/

section Firsts
variable {α : Type*} [LinearOrder α]

theorem eraseDups_concat (xs : List α) (x : α) :
    (xs ++ [x]).eraseDups = if x ∈ xs then xs.eraseDups else xs.eraseDups ++ [x] := by
  rw [List.eraseDups_append]
  by_cases h : x ∈ xs
  · simp [List.removeAll, h]
  · simp [List.removeAll, h, List.eraseDups_cons]

/-- First occurrences ascend when each is greater than all that is before it. -/
theorem pairwise_eraseDups_iff (xs : List α) :
    xs.eraseDups.Pairwise (· < ·) ↔
      ∀ before x after, xs = before ++ x :: after → x ∉ before → ∀ y ∈ before, y < x := by
  induction xs using List.reverseRecOn with
  | nil =>
    refine iff_of_true List.Pairwise.nil fun before x after h => ?_
    simp at h
  | append_singleton xs z ih =>
    have hsplit : (∀ before x after, xs ++ [z] = before ++ x :: after → x ∉ before →
        ∀ y ∈ before, y < x) ↔
        (∀ before x after, xs = before ++ x :: after → x ∉ before → ∀ y ∈ before, y < x) ∧
          (z ∉ xs → ∀ y ∈ xs, y < z) := by
      constructor
      · intro h
        refine ⟨fun before x after hxs => h before x (after ++ [z]) (by simp [hxs]),
          h xs z [] rfl⟩
      · rintro ⟨h, hz⟩ before x after hxs
        rcases List.eq_nil_or_concat after with rfl | ⟨after, w, rfl⟩
        · obtain ⟨rfl, hzx⟩ := List.append_inj' hxs rfl
          obtain rfl : z = x := by simpa using hzx
          exact hz
        · have hxs' : xs ++ [z] = (before ++ x :: after) ++ [w] := by simpa using hxs
          exact h before x after (List.append_inj' hxs' rfl).1
    rw [hsplit, ← ih, eraseDups_concat]
    split_ifs with h
    · simp [h]
    · simp [List.pairwise_append, h]

end Firsts

/-! ### The buckets of a command -/

/-- The buckets locked for a list of keys are their buckets at the first occurrence. -/
theorem lockList_eq {indexList : IndexList} {keys : List CStr} {r : List Bucket × IndexList}
    (h : lockList indexList keys = .ok r) :
    r.1 = ((keys.map bucketIndex).filter fun b => !indexList b).eraseDups := by
  induction keys generalizing indexList r with
  | nil =>
    cases h
    rfl
  | cons key keys ih =>
    obtain ⟨b, hb, ⟨hm, hr⟩ | ⟨hm, rest, hr, rfl⟩⟩ := lockList_cons h
    · rw [ih hr, List.map_cons, bucketIndex_eq hb, List.filter_cons_of_neg (by simp [hm])]
    · rw [List.map_cons, bucketIndex_eq hb, List.filter_cons_of_pos (by simp [hm]),
        List.eraseDups_cons, List.filter_filter]
      refine congrArg (b :: ·) ((ih hr).trans ?_)
      congr 2
      funext c
      by_cases hc : c = b
      · simp [hc]
      · simp [hc]

/-- The buckets that a command has to lock: those of its keys, all of them for SHOW. -/
def Command.Locks (c : Command) (b : Bucket) : Prop :=
  c = .showAll ∨ ∃ key ∈ c.keys, bucketOf key = .ok b

/-- The buckets that a call locks, in order. -/
def buckets (call : Call Bucket (List KeyNode) Local) : List Bucket := call.acquires.map Prod.fst

open Classical in
/-- The call locks each bucket of the command once, in the order in which `kvs_show` locks
them. -/
def InShowOrder (c : Command) (call : Call Bucket (List KeyNode) Local) : Prop :=
  buckets call = (buckets showCall).filter fun b => c.Locks b

/-- A key whose bucket is lower than that of a key sorted before it has the bucket of a
key that is sorted before both. -/
def Command.Ascends (c : Command) : Prop :=
  ∀ prior ∈ c.keys, ∀ key ∈ c.keys, strcmp prior key < 0 → hash key < hash prior →
    ∃ first ∈ c.keys, strcmp first prior < 0 ∧ hash first = hash key

section Sorted
variable {sorted : List CStr} (hsorted : sorted.Pairwise fun a b => compareKeys a b ≤ 0)
include hsorted

theorem mem_before {before after : List CStr} {key first prior : CStr}
    (he : sorted = before ++ key :: after) (hprior : prior ∈ before) (hf : first ∈ sorted)
    (hlt : strcmp first prior < 0) : first ∈ before := by
  rw [he, List.mem_append] at hf
  refine hf.resolve_right fun hf => ?_
  rw [he, List.pairwise_append] at hsorted
  have hle := hsorted.2.2 prior hprior first hf
  have hswap := strcmp_swap first prior
  simp only [compareKeys] at hle
  omega

theorem ascends_iff (hk : ∀ key ∈ sorted, key.startsAlnum = true) :
    (sorted.map bucketIndex).eraseDups.Pairwise (· < ·) ↔
      ∀ prior ∈ sorted, ∀ key ∈ sorted, strcmp prior key < 0 → hash key < hash prior →
        ∃ first ∈ sorted, strcmp first prior < 0 ∧ hash first = hash key := by
  have hash_eq : ∀ key ∈ sorted, hash key = (bucketIndex key).val := by
    intro key hkey
    obtain ⟨b, hb⟩ := bucketOf_eq_ok_iff.mpr (hk key hkey)
    rw [hash_of_bucketOf hb, bucketIndex_eq hb]
  have bucket_eq : ∀ k ∈ sorted, ∀ j ∈ sorted, bucketIndex k = bucketIndex j → hash k = hash j := by
    intro k hk' j hj he
    rw [hash_eq k hk', hash_eq j hj, he]
  rw [pairwise_eraseDups_iff]
  constructor
  · intro h prior hprior key hkey hlt hhash
    -- the first key of the same bucket comes before `prior`
    obtain ⟨before, after, he, hnot⟩ := List.eq_append_cons_of_mem (List.mem_map_of_mem hkey)
    have hbefore := h before _ after he hnot
    obtain ⟨xs, ys, hs, rfl, hys⟩ := List.map_eq_append_iff.mp he
    obtain ⟨first, ys, rfl, hfirst, rfl⟩ := List.map_eq_cons_iff.mp hys
    have hmem : first ∈ sorted := by simp [hs]
    have hfk := bucket_eq first hmem key hkey hfirst
    refine ⟨first, hmem, ?_, hfk⟩
    rw [hs] at hprior hsorted
    rcases List.mem_append.mp hprior with hx | hx
    · have hless := hbefore _ (List.mem_map_of_mem hx)
      rw [Fin.lt_def, ← Int.ofNat_lt, ← hash_eq key hkey,
        ← hash_eq prior (by simp [hs, hx])] at hless
      omega
    · have hne : first ≠ prior := by
        rintro rfl
        omega
      have hafter := (List.mem_cons.mp hx).resolve_left hne.symm
      have hle := (List.pairwise_cons.mp (List.pairwise_append.mp hsorted).2.1).1 prior hafter
      have hzero : strcmp first prior ≠ 0 := fun h0 => hne (strcmp_eq_zero.mp h0)
      simp only [compareKeys] at hle
      omega
  · rintro h before x after he hnot y hy
    obtain ⟨xs, ys, hs, rfl, hys⟩ := List.map_eq_append_iff.mp he
    obtain ⟨key, ys, rfl, rfl, rfl⟩ := List.map_eq_cons_iff.mp hys
    obtain ⟨prior, hx, rfl⟩ := List.mem_map.mp hy
    have hkey : key ∈ sorted := by simp [hs]
    have hprior : prior ∈ sorted := by simp [hs, hx]
    by_contra hge
    have hne : bucketIndex prior ≠ bucketIndex key := fun hb => hnot (hb ▸ hy)
    have hhash : hash key < hash prior := by
      rw [hash_eq key hkey, hash_eq prior hprior, Int.ofNat_lt, ← Fin.lt_def]
      exact lt_of_le_of_ne (not_lt.mp hge) hne.symm
    have hlt : strcmp prior key < 0 := by
      have hle := (List.pairwise_append.mp (hs ▸ hsorted)).2.2 prior hx key List.mem_cons_self
      have hzero : strcmp prior key ≠ 0 := fun h0 => by
        rw [strcmp_eq_zero.mp h0] at hhash
        omega
      simp only [compareKeys] at hle
      omega
    obtain ⟨first, hf, hlow, hsame⟩ := h prior hprior key hkey hlt hhash
    have hin := mem_before hsorted hs hx hf hlow
    refine hnot (List.mem_map.mpr ⟨first, hin, ?_⟩)
    rw [hash_eq first hf, hash_eq key hkey, Int.ofNat_inj] at hsame
    exact Fin.ext hsame

end Sorted

/-! ### Commands -/

/-- What a plan locks are the first occurrences of the buckets of its sorted keys. -/
theorem buckets_of_plan {c : Command} {call : Call Bucket (List KeyNode) Local} (h : Plan c call)
    (hc : c ≠ .showAll) :
    ∃ sorted : List CStr, sorted.Perm c.keys ∧
      (sorted.Pairwise fun a b => compareKeys a b ≤ 0) ∧
      buckets call = (sorted.map bucketIndex).eraseDups := by
  have hfst : ∀ (r : List Bucket) (m : Mode), (r.map fun b => (b, m)).map Prod.fst = r := by
    intro r m
    rw [List.map_map]
    exact List.map_id r
  have hkeys : ∀ {sorted : List CStr} {r : List Bucket × IndexList} (m : Mode),
      lockList (fun _ => false) sorted = .ok r →
        (r.1.map fun b => (b, m)).map Prod.fst = (sorted.map bucketIndex).eraseDups := by
    intro sorted r m h
    rw [hfst, lockList_eq h]
    congr 1
    exact List.filter_eq_self.mpr fun _ _ => rfl
  cases h with
  | write sorted hq r h =>
    refine ⟨sorted.map fun p => p.1.1, ?_, ?_, ?_⟩
    · have hperm := hq.1.map Prod.fst
      rwa [List.map_map] at hperm
    · exact List.pairwise_map.mpr (List.pairwise_map.mp hq.2)
    · exact hkeys .write h
  | read sorted hq r h => exact ⟨sorted.map Prod.fst, hq.1, hq.2, hkeys .read h⟩
  | delete sorted hq r h => exact ⟨sorted, hq.1, hq.2, hkeys .write h⟩
  | showAll => exact absurd rfl hc

/-- The calls lock the buckets that both lock in the same order. -/
def SameOrder (call call' : Call Bucket (List KeyNode) Local) : Prop :=
  ((buckets call).filter fun b => b ∈ buckets call') =
    (buckets call').filter fun b => b ∈ buckets call

theorem buckets_showCall : buckets showCall = List.finRange tableSize := by
  rw [buckets, showCall, List.map_map]
  exact List.map_id _

open Classical in
theorem inShowOrder_iff_pairwise {c : Command} {call : Call Bucket (List KeyNode) Local}
    (h : ∀ b, b ∈ buckets call ↔ c.Locks b) :
    InShowOrder c call ↔ (buckets call).Pairwise (· < ·) := by
  have hshow : (buckets showCall).Pairwise (· < ·) := by
    rw [buckets_showCall]
    exact List.pairwise_lt_finRange tableSize
  unfold InShowOrder
  constructor
  · intro he
    rw [he]
    exact hshow.filter _
  · intro hlt
    have hlt' := hshow.filter fun b => decide (c.Locks b)
    refine List.Perm.eq_of_pairwise' hlt hlt' ?_
    refine (List.perm_ext_iff_of_nodup (hlt.imp ne_of_lt) (hlt'.imp ne_of_lt)).mpr fun b => ?_
    rw [h, List.mem_filter, buckets_showCall]
    simp

theorem mem_buckets {c : Command} {call : Call Bucket (List KeyNode) Local} (h : Plan c call)
    (hk : ∀ key ∈ c.keys, key.startsAlnum = true) (b : Bucket) :
    b ∈ buckets call ↔ c.Locks b := by
  by_cases hc : c = .showAll
  · subst hc
    cases h
    rw [buckets_showCall]
    exact iff_of_true (List.mem_finRange b) (.inl rfl)
  · obtain ⟨sorted, hperm, -, he⟩ := buckets_of_plan h hc
    rw [he, List.mem_eraseDups, List.mem_map, Command.Locks, or_iff_right hc]
    refine exists_congr fun key => ?_
    rw [hperm.mem_iff]
    refine and_congr_right fun hkey => ?_
    obtain ⟨b', hb'⟩ := bucketOf_eq_ok_iff.mpr (hk key hkey)
    rw [bucketIndex_eq hb', hb', Except.ok.injEq]

open Classical in
theorem sameOrder_of_inShowOrder {c c' : Command} {call call' : Call Bucket (List KeyNode) Local}
    (h : InShowOrder c call) (h' : InShowOrder c' call') : SameOrder call call' := by
  unfold InShowOrder at h h'
  unfold SameOrder
  have hmem : ∀ (d : Command) b, b ∈ (buckets showCall).filter (fun b => decide (d.Locks b)) ↔
      d.Locks b := by
    intro d b
    rw [List.mem_filter, buckets_showCall]
    simp
  rw [h, h']
  simp only [hmem, List.filter_filter]
  exact List.filter_congr fun b _ => Bool.and_comm _ _

/-- A command locks its buckets once each, in the order of `kvs_show`, exactly when no key of a
lower bucket is sorted after one of a higher bucket unless its bucket is locked before; any two
commands of this kind lock their common buckets in the same order. -/
theorem inShowOrder_iff {c c' : Command} {call call' : Call Bucket (List KeyNode) Local}
    (h : Plan c call) (h' : Plan c' call') (hk : ∀ key ∈ c.keys, key.startsAlnum = true)
    (hk' : ∀ key ∈ c'.keys, key.startsAlnum = true) :
    (InShowOrder c call ↔ c.Ascends) ∧ (c.Ascends → c'.Ascends → SameOrder call call') := by
  have hiff : ∀ {d : Command} {k : Call Bucket (List KeyNode) Local}, Plan d k →
      (∀ key ∈ d.keys, key.startsAlnum = true) → (InShowOrder d k ↔ d.Ascends) := by
    intro d k hp hd
    rw [inShowOrder_iff_pairwise (mem_buckets hp hd)]
    by_cases hs : d = .showAll
    · subst hs
      cases hp
      rw [buckets_showCall]
      exact iff_of_true (List.pairwise_lt_finRange tableSize) nofun
    · obtain ⟨sorted, hperm, hsorted, he⟩ := buckets_of_plan hp hs
      rw [he, ascends_iff hsorted fun key hkey => hd key (hperm.mem_iff.mp hkey)]
      simp only [hperm.mem_iff]
      exact Iff.rfl
  exact ⟨hiff h hk, fun ha ha' =>
    sameOrder_of_inShowOrder ((hiff h hk).mpr ha) ((hiff h' hk').mpr ha')⟩

/-- A digit comes before an uppercase letter of a lower bucket. -/
def digitFirst : Command :=
  .delete [.ofBuffer (chars ['9']), .ofBuffer (chars ['A'])]

theorem not_inShowOrder :
    (∀ key ∈ digitFirst.keys, key.startsAlnum = true) ∧
      ∃ call, Plan digitFirst call ∧ buckets call = [9, 0] ∧ ¬ InShowOrder digitFirst call := by
  have hplan : Plan digitFirst _ := .delete _ ⟨List.Perm.refl _, by decide⟩ _ rfl
  refine ⟨by decide, _, hplan, rfl, fun h => ?_⟩
  have hlt := (inShowOrder_iff_pairwise (mem_buckets hplan (by decide))).mp h
  revert hlt
  decide

instance (c : Command) : Decidable c.Ascends :=
  inferInstanceAs (Decidable (∀ prior ∈ c.keys, ∀ key ∈ c.keys, _ → _ → ∃ first ∈ c.keys, _ ∧ _))

/-- The same keys after a key of the lower bucket. -/
def zeroFirst : Command :=
  .delete [.ofBuffer (chars ['0']), .ofBuffer (chars ['9']), .ofBuffer (chars ['A'])]

/-- Keys of the same buckets in lowercase. -/
def lowercase : Command := .delete [.ofBuffer (chars ['a']), .ofBuffer (chars ['j'])]

theorem inShowOrder_iff_zeroFirst :
    ∃ call call', Plan zeroFirst call ∧ Plan lowercase call' ∧ InShowOrder zeroFirst call ∧
      SameOrder call call' := by
  have hplan : Plan zeroFirst _ := .delete _ ⟨List.Perm.refl _, by decide⟩ _ rfl
  have hplan' : Plan lowercase _ := .delete _ ⟨List.Perm.refl _, by decide⟩ _ rfl
  obtain ⟨hiff, hsame⟩ := inShowOrder_iff hplan hplan' (by decide) (by decide)
  exact ⟨_, _, hplan, hplan', hiff.mpr (by decide), hsame (by decide) (by decide)⟩

end IstKvs.Store
