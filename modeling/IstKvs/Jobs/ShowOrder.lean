import IstKvs.Backups.Contents
import IstKvs.Store.KeyLists

/-! The order of a listing. SHOW goes through the buckets in the order of their index and
through each chain from its head, where new nodes are put. So the keys of one bucket come
out with the one created last first, and digits and uppercase letters come out among the
lowercase letters with which they share a bucket. -/

namespace IstKvs.Jobs

open IstKvs.Store IstKvs.Systems IstKvs.Backups Function

/-! ### Commands -/

/-- A command that changes the table, with its list in the order in which `qsort` leaves it. -/
inductive Change
  | write (pairs : List ((CStr × CStr) × WriteMem))
  | delete (keys : List CStr)
  deriving DecidableEq

def Change.run (ht : HashTable) : Change → Except Fault HashTable
  | .write pairs => kvsWrite ht pairs
  | .delete keys => (kvsDelete ht keys).map Prod.fst

def runChanges (ht : HashTable) (changes : List Change) : Except Fault HashTable :=
  changes.foldlM Change.run ht

/-- The keys in the order of their creation, the last one first, after a write of one pair. A key
that is there stays in its place, and a failed allocation creates none. -/
def createKey (created : List CStr) (p : (CStr × CStr) × WriteMem) : List CStr :=
  if p.1.1 ∈ created then created else if p.2 = .ok then p.1.1 :: created else created

/-- The keys in the order of their creation after a command. -/
def Change.createdAfter (created : List CStr) : Change → List CStr
  | .write pairs => pairs.foldl createKey created
  | .delete keys => created.filter fun key => key ∉ keys

/-- The keys that the commands create and do not delete again, the one created last first. -/
def createdBy (changes : List Change) : List CStr := changes.foldl Change.createdAfter []

/-! ### Chains -/

/-- Each chain has the keys of its bucket in the order of their creation. -/
structure Ordered (created : List CStr) (ht : HashTable) : Prop where
  table : TableInv ht
  valid : ∀ key ∈ created, key.startsAlnum = true
  chains : ∀ b, (ht b).map KeyNode.key = created.filter fun key => bucketOf key = .ok b

theorem ordered_create : Ordered [] createHashTable where
  table := tableInv_create
  valid _ h := by cases h
  chains _ := rfl

section Steps
variable {created : List CStr} {ht : HashTable} (h : Ordered created ht)
include h

/-- The chain of a key has a node for it exactly when the key was created. -/
theorem Ordered.findNode_isSome {key : CStr} {b : Bucket} (hb : bucketOf key = .ok b) :
    (findNode key (ht b)).isSome = true ↔ key ∈ created := by
  have hmem : key ∈ (ht b).map KeyNode.key ↔ key ∈ created := by
    rw [h.chains b, List.mem_filter]
    simp [hb]
  rw [← hmem, findNode_eq, Chain.lookup, List.find?_isSome, List.mem_map]
  simp

theorem Ordered.writeChain {p : (CStr × CStr) × WriteMem} {b : Bucket}
    (hb : bucketOf p.1.1 = .ok b) :
    Ordered (createKey created p) (update ht b (writeChain (ht b) p.1.1 p.1.2 p.2).chain) where
  table := (writeChain_changes _ _ _ _).tableInv h.table hb
  valid key hk := by
    unfold createKey at hk
    split_ifs at hk
    · exact h.valid key hk
    · rcases List.mem_cons.mp hk with rfl | hk
      · exact bucketOf_eq_ok_iff.mp ⟨b, hb⟩
      · exact h.valid key hk
    · exact h.valid key hk
  chains b' := by
    have hsome := h.findNode_isSome hb
    have hchain := h.chains b
    rw [createKey]
    by_cases hb' : b' = b
    · subst hb'
      rw [update_self, Store.writeChain]
      cases hf : findNode p.1.1 (ht b') with
      | some n =>
        have hmem : p.1.1 ∈ created := hsome.mp (by rw [hf]; rfl)
        simp only [hmem, if_true, updateNode_eq]
        refine Eq.trans (Chain.map_key_modify ?_ (ht b')) hchain
        exact fun _ => rfl
      | none =>
        have hnot : p.1.1 ∉ created := by
          intro hmem
          have hisSome := hsome.mpr hmem
          rw [hf] at hisSome
          cases hisSome
        obtain ⟨q, _ | _, _ | _, _ | _⟩ := p <;> simp_all [WriteMem.ok]
    · have hne : bucketOf p.1.1 ≠ .ok b' := by
        rw [hb]
        intro he
        exact hb' (Except.ok.inj he).symm
      rw [update_of_ne hb', h.chains b']
      split_ifs
      · rfl
      · rw [List.filter_cons_of_neg (by simpa using hne)]
      · rfl

theorem Ordered.without (keys : List CStr) :
    Ordered (created.filter fun key => key ∉ keys) (without ht keys) where
  table := tableInv_without h.table keys
  valid key hk := h.valid key (List.mem_of_mem_filter hk)
  chains b := by
    have hmap : ((ht b).filter fun n => n.key ∉ keys).map KeyNode.key =
        ((ht b).map KeyNode.key).filter fun key => key ∉ keys := by
      rw [List.filter_map]
      rfl
    rw [Store.without, hmap, h.chains b, List.filter_filter, List.filter_filter]
    exact List.filter_congr fun key _ => Bool.and_comm ..

end Steps

theorem Ordered.writeLoop {created : List CStr} {ht ht' : HashTable} (h : Ordered created ht)
    {pairs : List ((CStr × CStr) × WriteMem)} (hw : writeLoop ht pairs = .ok ht') :
    Ordered (pairs.foldl createKey created) ht' := by
  induction pairs generalizing created ht with
  | nil =>
    obtain rfl := Except.ok.inj hw
    exact h
  | cons p pairs ih =>
    unfold Store.writeLoop at hw
    rw [List.foldlM_cons] at hw
    obtain ⟨ht₁, hp, hw⟩ := ok_of_bind hw
    obtain ⟨r, hp, hr⟩ := ok_of_bind hp
    obtain ⟨b, hb⟩ := bucketOf_of_writePair hp
    rw [writePair_eq hb] at hp
    obtain rfl := Except.ok.inj hp
    obtain rfl := Except.ok.inj hr
    exact ih (h.writeChain hb) hw

theorem Ordered.run {created : List CStr} {ht ht' : HashTable} (h : Ordered created ht)
    {c : Change} (hc : c.run ht = .ok ht') : Ordered (c.createdAfter created) ht' := by
  cases c with
  | write pairs =>
    change kvsWrite ht pairs = _ at hc
    rw [kvsWrite_eq_loop (startsAlnum_of_kvsWrite hc)] at hc
    exact h.writeLoop hc
  | delete keys =>
    obtain ⟨r, hd, rfl⟩ := ok_of_map hc
    rw [kvsDelete_eq_missing h.table (startsAlnum_of_kvsDelete hd)] at hd
    obtain rfl := Except.ok.inj hd
    exact h.without keys

/-- What holds of the keys holds after every sequence of commands. -/
theorem ordered_runChanges {changes : List Change} {ht : HashTable}
    (h : runChanges createHashTable changes = .ok ht) : Ordered (createdBy changes) ht := by
  have hgen : ∀ (changes : List Change) created ht₀, Ordered created ht₀ →
      runChanges ht₀ changes = .ok ht → Ordered (changes.foldl Change.createdAfter created) ht := by
    intro changes
    induction changes with
    | nil =>
      intro created ht₀ h₀ hr
      obtain rfl := Except.ok.inj hr
      exact h₀
    | cons c changes ih =>
      intro created ht₀ h₀ hr
      unfold runChanges at hr
      rw [List.foldlM_cons] at hr
      obtain ⟨ht₁, hc, hr⟩ := ok_of_bind hr
      exact ih _ ht₁ (h₀.run hc) hr
  exact hgen changes [] createHashTable ordered_create h

/-! ### The listing -/

/-- The lines of SHOW have ascending keys. -/
def ShowsAscending (ht : HashTable) : Prop :=
  (nodes ht).Pairwise fun n m => strcmp n.key m.key < 0

instance (ht : HashTable) : Decidable (ShowsAscending ht) :=
  inferInstanceAs (Decidable (List.Pairwise _ _))

/-- A key of a lower bucket is less than one of a higher bucket, and of two keys of one bucket
the one created last is the lesser. -/
def InOrder (created : List CStr) : Prop :=
  (∀ key ∈ created, ∀ other ∈ created, hash key < hash other → strcmp key other < 0) ∧
    created.Pairwise fun later earlier => hash later = hash earlier → strcmp later earlier < 0

instance (created : List CStr) : Decidable (InOrder created) :=
  inferInstanceAs (Decidable (_ ∧ List.Pairwise _ _))

theorem Ordered.showsAscending_iff {created : List CStr} {ht : HashTable}
    (h : Ordered created ht) : ShowsAscending ht ↔ InOrder created := by
  have hkeys : (nodes ht).map KeyNode.key =
      (List.finRange tableSize).flatMap fun b =>
        created.filter fun key => bucketOf key = .ok b := by
    rw [nodes, List.map_flatMap]
    exact List.flatMap_congr fun b _ => h.chains b
  have hbucket : ∀ key ∈ created, ∃ b : Bucket, bucketOf key = .ok b ∧ hash key = b.val := by
    intro key hk
    obtain ⟨b, hb⟩ := bucketOf_eq_ok_iff.mpr (h.valid key hk)
    exact ⟨b, hb, hash_of_bucketOf hb⟩
  have hshow : ShowsAscending ht ↔
      ((nodes ht).map KeyNode.key).Pairwise fun k j => strcmp k j < 0 := by
    rw [List.pairwise_map]
    rfl
  rw [hshow, hkeys, List.pairwise_flatMap, InOrder, and_comm]
  refine and_congr ⟨fun hp key hk other ho hlt => ?_, fun ho => ?_⟩
    ⟨fun hp => ?_, fun hp b _ => ?_⟩
  · obtain ⟨b, hb, hkb⟩ := hbucket key hk
    obtain ⟨c, hc, hoc⟩ := hbucket other ho
    have hget := List.pairwise_iff_getElem.mp hp b.val c.val (by simp) (by simp) (by omega)
    simp only [List.getElem_finRange, Fin.cast_mk, Fin.eta] at hget
    exact hget key (by simp [hk, hb]) other (by simp [ho, hc])
  · refine (List.pairwise_lt_finRange tableSize).imp fun {b c} hbc key hk other hother => ?_
    obtain ⟨hk, hkb⟩ := List.mem_filter.mp hk
    obtain ⟨hother, hoc⟩ := List.mem_filter.mp hother
    have hhash := hash_of_bucketOf (of_decide_eq_true hkb)
    have hhash' := hash_of_bucketOf (of_decide_eq_true hoc)
    exact ho key hk other hother (by rw [hhash, hhash']; exact_mod_cast hbc)
  · refine List.pairwise_iff_forall_sublist.mpr fun {later earlier} hsub heq => ?_
    obtain ⟨b, hb, hlb⟩ := hbucket later (hsub.subset (by simp))
    have hb' : bucketOf earlier = .ok b := bucketOf_of_hash (heq ▸ hlb)
    have hfilter := List.pairwise_filter.mp (hp b (List.mem_finRange b))
    exact List.pairwise_iff_forall_sublist.mp hfilter hsub (by simpa using hb) (by simpa using hb')
  · refine List.pairwise_filter.mpr (hp.imp fun {later earlier} hlt hl he => hlt ?_)
    rw [hash_of_bucketOf (of_decide_eq_true hl), hash_of_bucketOf (of_decide_eq_true he)]

/-- SHOW prints one line for each node in this order, and the keys ascend exactly when the order
of the buckets and of the creations is that of the keys. -/
theorem show_ascending_iff {changes : List Change} {ht : HashTable}
    (h : runChanges createHashTable changes = .ok ht) :
    (kvsShow ht = if ∃ n ∈ nodes ht, Valueless n then .error .null
      else .ok ((nodes ht).flatMap (printed showItem))) ∧
    (ShowsAscending ht ↔ InOrder (createdBy changes)) :=
  ⟨kvsShow_eq ht, (ordered_runChanges h).showsAscending_iff⟩

/-- Two keys of one bucket are written in one command. -/
def writtenTogether : List Change :=
  [.write [((.ofBuffer (chars ['a']), .ofBuffer (chars ['1'])), .ok),
    ((.ofBuffer (chars ['a', 'b']), .ofBuffer (chars ['2'])), .ok)]]

/-- The lesser key is listed after the greater one. -/
theorem not_showsAscending : ∃ ht, runChanges createHashTable writtenTogether = .ok ht ∧
    kvsShow ht = .ok (chars ['(', 'a', 'b', ',', ' ', '2', ')', '\n', '(', 'a', ',', ' ', '1',
      ')', '\n']) ∧ ¬ ShowsAscending ht := by
  refine ⟨_, rfl, ?_, ?_⟩
  · decide
  · decide

/-- Two keys of different buckets, the greater one written first. -/
def writtenApart : List Change :=
  [.write [((.ofBuffer (chars ['b']), .ofBuffer (chars ['1'])), .ok)],
    .write [((.ofBuffer (chars ['a']), .ofBuffer (chars ['2'])), .ok)]]

theorem show_ascending_iff_apart :
    ∃ ht, runChanges createHashTable writtenApart = .ok ht ∧ ShowsAscending ht := by
  obtain ⟨ht, hrun⟩ : ∃ ht, runChanges createHashTable writtenApart = .ok ht := ⟨_, rfl⟩
  exact ⟨ht, hrun, (show_ascending_iff hrun).2.mpr (by decide)⟩

end IstKvs.Jobs
