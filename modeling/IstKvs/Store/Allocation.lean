import IstKvs.Store.KeyLists
import IstKvs.Store.LockFailures

/-! Writes whose allocations fail. `kvs_write` only reports a pair that could not be stored and
returns 0, and an update frees the old value before it copies the new one. -/

namespace IstKvs.Store

open IstKvs.Systems Function LockFailures

/-! ### The values of one key -/

/-- After its writes a key has a value exactly when the last of them could copy its value and the
key was there before or one of them could create it. -/
theorem foldl_written_iff (old : Option (Option CStr)) (writes : List ((CStr × CStr) × WriteMem))
    (v : CStr) :
    writes.foldl (fun old p => written old p.1.2 p.2) old = some (some v) ↔
      match writes.getLast? with
      | none => old = some (some v)
      | some p => p.1.2 = v ∧ p.2.value = true ∧
        (old.isSome = true ∨ ∃ q ∈ writes, q.2 = .ok) := by
  -- a key is there when it was there or one write could create it
  have hsome : ∀ writes : List ((CStr × CStr) × WriteMem),
      (writes.foldl (fun old p => written old p.1.2 p.2) old).isSome = true ↔
        old.isSome = true ∨ ∃ q ∈ writes, q.2 = .ok := by
    intro writes
    induction writes using List.reverseRecOn with
    | nil => simp
    | append_singleton writes p ih =>
      rw [List.foldl_append, List.foldl_cons, List.foldl_nil]
      have hiff : (∃ q ∈ writes ++ [p], q.2 = .ok) ↔ (∃ q ∈ writes, q.2 = .ok) ∨ p.2 = .ok := by
        simp [or_and_right, exists_or]
      rw [hiff, ← or_assoc, ← ih]
      cases writes.foldl (fun old p => written old p.1.2 p.2) old with
      | some x => simp [written]
      | none =>
        obtain ⟨q, _ | _, _ | _, _ | _⟩ := p <;> simp [written, WriteMem.ok]
  induction writes using List.reverseRecOn with
  | nil => rfl
  | append_singleton writes p _ =>
    have hall := hsome (writes ++ [p])
    rw [List.getLast?_concat]
    simp only
    rw [← hall, List.foldl_append, List.foldl_cons, List.foldl_nil]
    cases writes.foldl (fun old p => written old p.1.2 p.2) old with
    | some x =>
      cases hv : p.2.value <;> simp [written, hv]
    | none =>
      obtain ⟨q, _ | _, _ | _, _ | _⟩ := p <;> simp [written]

/-! ### What `kvs_write` reports -/

/-- A status of 0 means that every listed pair can be read, and every node has a value. -/
structure Reports (pairs : List ((CStr × CStr) × WriteMem)) (r : Bool × Thread) : Prop where
  stored : r.1 = false → ∀ p ∈ pairs, readPair r.2.ht p.1.1 true = .ok (some p.1.2)
  valued : ∀ b, ∀ n ∈ r.2.ht b, n.value ≠ none

/-- The pairs of a key agree, the last of them copies its value, and the key is in the table or
one of them can create it. -/
def Storable (ht : HashTable) (pairs : List ((CStr × CStr) × WriteMem)) (key value : CStr) :
    Prop :=
  (∀ q ∈ pairs, q.1.1 = key → q.1.2 = value) ∧
    (∀ q ∈ (ofKey key pairs).getLast?, q.2.value = true) ∧
    (Present ht key ∨ ∃ q ∈ pairs, q.1.1 = key ∧ q.2 = .ok)

instance (ht : HashTable) (pairs : List ((CStr × CStr) × WriteMem)) (key value : CStr) :
    Decidable (Storable ht pairs key value) :=
  inferInstanceAs (Decidable (_ ∧ _ ∧ _))

theorem lockList_never {indexList : IndexList} {keys : List CStr} {s : Thread}
    {a : Bool × IndexList × Thread}
    (h : LockFailures.lockList (fun _ => false) indexList keys s = .ok a) : a.1 = false := by
  induction keys generalizing indexList s with
  | nil =>
    obtain rfl := Except.ok.inj h
    rfl
  | cons key keys ih =>
    obtain ⟨b, -, ⟨-, h⟩ | ⟨-, hf, -⟩ | ⟨-, -, h⟩⟩ := LockFailures.lockList_cons h
    · exact ih h
    · cases hf
    · exact ih h

theorem kvsWrite_never {pairs : List ((CStr × CStr) × WriteMem)} {s : Thread}
    {r : Bool × Thread} (h : LockFailures.kvsWrite (fun _ => false) pairs s = .ok r) :
    r.1 = false := by
  simp only [LockFailures.kvsWrite, LockFailures.lockWriteList] at h
  obtain ⟨a, hacq, ⟨hfail, rfl⟩ | ⟨-, v, -, rfl⟩⟩ := locked_cases h
  · rw [lockList_never hacq] at hfail
    cases hfail
  · exact (unlockFrom_spec _ _).2.1.mpr fun _ _ => rfl

theorem table_of_kvsWrite {pairs : List ((CStr × CStr) × WriteMem)} {s : Thread}
    {r : Bool × Thread} (h : LockFailures.kvsWrite (fun _ => false) pairs s = .ok r) :
    Store.kvsWrite s.ht pairs = .ok r.2.ht := by
  obtain ⟨out, he, -⟩ := effect_of_run (c := .write pairs) h (kvsWrite_never h)
  obtain ⟨ht, hw, hr⟩ := ok_of_map he
  obtain ⟨rfl, -⟩ := Prod.mk.inj hr
  exact hw

theorem contents_kvsWrite {ht ht' : HashTable} {pairs : List ((CStr × CStr) × WriteMem)}
    (h : Store.kvsWrite ht pairs = .ok ht') :
    (∀ p ∈ pairs, p.1.1.startsAlnum = true) ∧ ∀ key, contents ht' key =
      (ofKey key pairs).foldl (fun old p => written old p.1.2 p.2) (contents ht key) := by
  have hvalid := startsAlnum_of_kvsWrite h
  obtain ⟨ht'', hloop, hc⟩ := contents_writeLoop ht pairs hvalid
  rw [kvsWrite_eq_loop hvalid, hloop] at h
  obtain rfl := Except.ok.inj h
  exact ⟨hvalid, hc⟩

theorem readPair_iff (ht : HashTable) {key : CStr} (hk : key.startsAlnum = true) (v : CStr) :
    readPair ht key true = .ok (some v) ↔ contents ht key = some (some v) := by
  have hread := @readPair_contents ht (key, true) hk
  rw [hread, readResult]
  rcases contents ht key with _ | _ | v' <;> simp

theorem contents_isSome {ht : HashTable} {key : CStr} :
    (contents ht key).isSome = true ↔ Present ht key := by
  simp [contents, Present, subscribers]

theorem contents_ne_lost {ht : HashTable} (h : ∀ b, ∀ n ∈ ht b, n.value ≠ none) (key : CStr) :
    contents ht key ≠ some none := by
  intro hc
  obtain ⟨b, n, hn, -, hv⟩ := contents_of_mem hc
  exact h b n hn hv

theorem mem_ofKey {key : CStr} {pairs : List ((CStr × CStr) × WriteMem)}
    {q : (CStr × CStr) × WriteMem} : q ∈ ofKey key pairs ↔ q ∈ pairs ∧ q.1.1 = key := by
  simp [ofKey]

section Reports
variable {pairs : List ((CStr × CStr) × WriteMem)} {s : Thread} {r : Bool × Thread}
  (h : LockFailures.kvsWrite (fun _ => false) pairs s = .ok r)
include h

/-- When every listed pair has been stored, no node has lost its value, either. -/
theorem reports_iff_contents (hinv : TableInv s.ht)
    (hvalued : ∀ b, ∀ n ∈ s.ht b, n.value ≠ none) :
    Reports pairs r ↔ ∀ p ∈ pairs, contents r.2.ht p.1.1 = some (some p.1.2) := by
  have hw := table_of_kvsWrite h
  obtain ⟨hvalid, hcontents⟩ := contents_kvsWrite hw
  have hinv' : TableInv r.2.ht := kvsWrite_keeps (I := TableInv)
    (fun _ _ _ _ hb hi => (writeChain_changes _ _ _ _).tableInv hi hb) hinv hw
  constructor
  · intro hr p hp
    exact (readPair_iff r.2.ht (hvalid p hp) p.1.2).mp (hr.stored (kvsWrite_never h) p hp)
  · intro hall
    refine ⟨fun _ p hp => (readPair_iff r.2.ht (hvalid p hp) p.1.2).mpr (hall p hp), ?_⟩
    intro b n hn hlost
    have hnode : contents r.2.ht n.key = some none := by
      have hfind := Chain.lookup_of_mem (hinv'.unique b) hn
      rw [contents, nodeOf_eq (bucketOf_of_hash (hinv'.placed b n hn)), findNode_eq, hfind,
        Option.map_some, hlost]
    -- a key of the batch has its value, and any other key has what it had
    by_cases hkey : ∃ p ∈ pairs, p.1.1 = n.key
    · obtain ⟨p, hp, hpn⟩ := hkey
      have hstored := hall p hp
      rw [hpn, hnode] at hstored
      cases hstored
    · have hnil : ofKey n.key pairs = [] := by
        refine List.eq_nil_iff_forall_not_mem.mpr fun p hp => ?_
        obtain ⟨hp, he⟩ := mem_ofKey.mp hp
        exact hkey ⟨p, hp, he⟩
      rw [hcontents, hnil] at hnode
      exact contents_ne_lost hvalued n.key hnode

theorem contents_iff_last {key value : CStr} {q : (CStr × CStr) × WriteMem}
    (hq : (ofKey key pairs).getLast? = some q) :
    contents r.2.ht key = some (some value) ↔ q.1.2 = value ∧ q.2.value = true ∧
      (Present s.ht key ∨ ∃ p ∈ pairs, p.1.1 = key ∧ p.2 = .ok) := by
  rw [(contents_kvsWrite (table_of_kvsWrite h)).2, foldl_written_iff, hq, contents_isSome]
  simp only [mem_ofKey, and_assoc]

end Reports

/-- On a table without lost values a write tells the truth, and loses no value, exactly when every
listed pair is storable. -/
theorem reports_iff {pairs : List ((CStr × CStr) × WriteMem)} {s : Thread} {r : Bool × Thread}
    (hinv : TableInv s.ht) (hvalued : ∀ b, ∀ n ∈ s.ht b, n.value ≠ none)
    (h : LockFailures.kvsWrite (fun _ => false) pairs s = .ok r) :
    Reports pairs r ↔ ∀ p ∈ pairs, Storable s.ht pairs p.1.1 p.1.2 := by
  have hlast : ∀ p ∈ pairs, ∃ q, (ofKey p.1.1 pairs).getLast? = some q := by
    intro p hp
    exact Option.isSome_iff_exists.mp (List.getLast?_isSome.mpr
      (List.ne_nil_of_mem (mem_ofKey.mpr ⟨hp, rfl⟩)))
  rw [reports_iff_contents h hinv hvalued]
  constructor
  · intro hall p hp
    obtain ⟨q, hq⟩ := hlast p hp
    obtain ⟨hvalue, hcopied, hthere⟩ := (contents_iff_last h hq).mp (hall p hp)
    refine ⟨fun p' hp' hkey => ?_, fun q' hq' => ?_, hthere⟩
    · have hvalue' := ((contents_iff_last h (hkey ▸ hq)).mp (hall p' hp')).1
      exact hvalue'.symm.trans hvalue
    · rw [hq, Option.mem_def] at hq'
      exact Option.some.inj hq' ▸ hcopied
  · intro hall p hp
    obtain ⟨q, hq⟩ := hlast p hp
    obtain ⟨hagree, hcopied, hthere⟩ := hall p hp
    obtain ⟨hqm, hqk⟩ := mem_ofKey.mp (List.mem_of_getLast? hq)
    exact (contents_iff_last h hq).mpr ⟨hagree q hqm hqk, hcopied q hq, hthere⟩

/-- A thread with one pair in its table. -/
def onePair : Thread where
  ht := update createHashTable 0 [⟨.ofBuffer (chars ['a']), some (.ofBuffer (chars ['1'])), []⟩]
  out := []
  held := fun _ => false
  calls := 0

/-- The value of an update cannot be copied: the status is 0 and the value is lost. -/
theorem not_reports : ∃ r, LockFailures.kvsWrite (fun _ => false)
    [((.ofBuffer (chars ['a']), .ofBuffer (chars ['2'])), ⟨true, true, false⟩)] onePair = .ok r ∧
    r.1 = false ∧ contents r.2.ht (.ofBuffer (chars ['a'])) = some none := by
  refine ⟨_, rfl, ?_, ?_⟩
  · decide
  · decide

/-- The same update, and a new key, with every allocation succeeding. -/
theorem reports_iff_onePair :
    let pairs := allocated [(.ofBuffer (chars ['a']), .ofBuffer (chars ['2'])),
      (.ofBuffer (chars ['b']), .ofBuffer (chars ['1']))]
    ∃ r, LockFailures.kvsWrite (fun _ => false) pairs onePair = .ok r ∧ Reports pairs r := by
  intro pairs
  obtain ⟨r, hr⟩ : ∃ r, LockFailures.kvsWrite (fun _ => false) pairs onePair = .ok r := ⟨_, rfl⟩
  have hvalued : ∀ b, ∀ n ∈ onePair.ht b, n.value ≠ none := by decide
  refine ⟨r, hr, (reports_iff ?_ hvalued hr).mpr ?_⟩
  · exact tableInv_create.update (by decide) (List.nodup_singleton _)
  · decide

end IstKvs.Store
