import IstKvs.Store.Table

/-! The commands of the server on a sorted list of keys (`operations.c`): which
bucket locks a command takes, its loop over the keys, and the bytes it writes to
its output file. The outcome of each allocation comes with its key. -/

namespace IstKvs.Store

def maxWriteSize : ℕ := 256

def maxStringSize : ℕ := 40

/-! ### Sorting -/

def comparePairs (a b : CStr × CStr) : ℤ := strcmp a.1 b.1

def compareKeys (a b : CStr) : ℤ := strcmp a b

/-- What `qsort` may leave of an array: any of its sorted permutations. -/
def QsortResult {A : Type*} (compare : A → A → ℤ) (xs ys : List A) : Prop :=
  ys.Perm xs ∧ ys.Pairwise fun a b => compare a b ≤ 0

theorem exists_qsortResult {A : Type*} (compare : A → A → ℤ)
    (total : ∀ a b, compare a b ≤ 0 ∨ compare b a ≤ 0)
    (trans : ∀ a b c, compare a b ≤ 0 → compare b c ≤ 0 → compare a c ≤ 0) (xs : List A) :
    ∃ ys, QsortResult compare xs ys := by
  refine ⟨xs.mergeSort fun a b => decide (compare a b ≤ 0), List.mergeSort_perm _ _, ?_⟩
  have h : (xs.mergeSort fun a b => decide (compare a b ≤ 0)).Pairwise
      fun a b => decide (compare a b ≤ 0) = true :=
    List.pairwise_mergeSort (by simpa using trans) (by simpa using total) xs
  exact h.imp fun hab => of_decide_eq_true hab

/-! ### Bucket locks -/

abbrev IndexList := Bucket → Bool

/-- The buckets locked for a list of keys, in order: each index that is not yet
marked in `indexList` is locked and marked. -/
def lockList (indexList : IndexList) : List CStr → Except Fault (List Bucket × IndexList)
  | [] => pure ([], indexList)
  | key :: keys => do
    let index ← bucketOf key
    if indexList index then lockList indexList keys
    else
      let rest ← lockList (Function.update indexList index true) keys
      pure (index :: rest.1, rest.2)

def lockWriteList (keys : List CStr) : Except Fault (List Bucket × IndexList) :=
  lockList (fun _ => false) keys

def lockReadList (keys : List CStr) : Except Fault (List Bucket × IndexList) :=
  lockList (fun _ => false) keys

/-- The buckets unlocked at the end of a command, in order of their index. -/
def unlockList (indexList : IndexList) : List Bucket :=
  (List.finRange tableSize).filter indexList

/-- The bucket of the first key is locked when it is not marked. -/
theorem lockList_unmarked {indexList : IndexList} {key : CStr} {b : Bucket}
    (h : bucketOf key = .ok b) (hb : indexList b = false) (keys : List CStr) :
    lockList indexList (key :: keys) =
      (lockList (Function.update indexList b true) keys).map fun rest => (b :: rest.1, rest.2) := by
  rw [lockList, h]
  change (if indexList b = true then _ else _) = _
  rw [hb]
  cases lockList (Function.update indexList b true) keys <;> rfl

theorem lockList_singleton {key : CStr} {b : Bucket} (h : bucketOf key = .ok b) :
    lockList (fun _ => false) [key] = .ok ([b], Function.update (fun _ => false) b true) := by
  rw [lockList_unmarked h rfl]
  rfl

theorem lockList_pair {key key' : CStr} {b b' : Bucket} (h : bucketOf key = .ok b)
    (h' : bucketOf key' = .ok b') (hne : b' ≠ b) :
    lockList (fun _ => false) [key, key'] =
      .ok ([b, b'], Function.update (Function.update (fun _ => false) b true) b' true) := by
  rw [lockList_unmarked h rfl, lockList_unmarked h' (Function.update_of_ne hne ..)]
  rfl

/-- The first key is of a marked bucket, or its bucket is locked and marked. -/
theorem lockList_cons {indexList : IndexList} {key : CStr} {keys : List CStr}
    {r : List Bucket × IndexList} (h : lockList indexList (key :: keys) = .ok r) :
    ∃ b, bucketOf key = .ok b ∧ ((indexList b = true ∧ lockList indexList keys = .ok r) ∨
      (indexList b = false ∧ ∃ rest, lockList (Function.update indexList b true) keys = .ok rest ∧
        r = (b :: rest.1, rest.2))) := by
  obtain ⟨b, hb, h⟩ := ok_of_bind h
  refine ⟨b, hb, ?_⟩
  split_ifs at h with hm
  · exact .inl ⟨hm, h⟩
  · obtain ⟨rest, hr, h⟩ := ok_of_bind h
    exact .inr ⟨by simpa using hm, rest, hr, (Except.ok.inj h).symm⟩

/-- Every key whose bucket was not marked before gets its bucket locked. -/
theorem mem_lockList {indexList : IndexList} {keys : List CStr} {r : List Bucket × IndexList}
    (h : lockList indexList keys = .ok r) {key : CStr} (hk : key ∈ keys) :
    ∃ b, bucketOf key = .ok b ∧ (indexList b = true ∨ b ∈ r.1) := by
  induction keys generalizing indexList r with
  | nil => cases hk
  | cons k keys ih =>
    obtain ⟨b, hb, ⟨hm, hr⟩ | ⟨hm, rest, hr, rfl⟩⟩ := lockList_cons h
    · rcases List.mem_cons.mp hk with rfl | hk
      · exact ⟨b, hb, .inl hm⟩
      · exact ih hr hk
    · rcases List.mem_cons.mp hk with rfl | hk
      · exact ⟨b, hb, .inr List.mem_cons_self⟩
      · obtain ⟨b', hb', hor⟩ := ih hr hk
        refine ⟨b', hb', ?_⟩
        by_cases he : b' = b
        · exact .inr (by simp [he])
        · rw [Function.update_of_ne he] at hor
          exact hor.imp_right (List.mem_cons_of_mem _)

/-- Keys that all have a bucket can be locked. -/
theorem lockList_ok (indexList : IndexList) (keys : List CStr)
    (h : ∀ key ∈ keys, key.startsAlnum = true) : ∃ r, lockList indexList keys = .ok r := by
  induction keys generalizing indexList with
  | nil => exact ⟨_, rfl⟩
  | cons k keys ih =>
    have hrest := fun il => ih il fun key hk => h key (List.mem_cons_of_mem _ hk)
    obtain ⟨b, hb⟩ := bucketOf_eq_ok_iff.mpr (h k List.mem_cons_self)
    rw [lockList, hb]
    change ∃ r, (if indexList b = true then lockList indexList keys else _) = _
    split_ifs
    · exact hrest indexList
    · obtain ⟨r, hr⟩ := hrest (Function.update indexList b true)
      rw [hr]
      exact ⟨_, rfl⟩

/-- A key without a bucket is used as an index before anything is stored. -/
theorem lockList_error {indexList : IndexList} {keys : List CStr} {key : CStr} (hk : key ∈ keys)
    (h : key.startsAlnum = false) : lockList indexList keys = .error (.index (-1)) := by
  induction keys generalizing indexList with
  | nil => cases hk
  | cons k keys ih =>
    rw [lockList]
    cases hs : k.startsAlnum with
    | false => rw [bucketOf_eq_error hs]; rfl
    | true =>
      have hk' : key ∈ keys := by
        rcases List.mem_cons.mp hk with rfl | hk
        · simp [h] at hs
        · exact hk
      obtain ⟨b, hb⟩ := bucketOf_eq_ok_iff.mpr hs
      rw [hb]
      change (if indexList b = true then lockList indexList keys else _) = _
      split_ifs
      · exact ih hk'
      · rw [ih hk']
        rfl

/-! ### Output -/

/-- Bytes formatted into a buffer of `size` bytes, the last of them for the NUL. -/
def snprintf (size : ℕ) (s : List UInt8) : List UInt8 := s.take (size - 1)

/-- `(key,value)`, or `(key,KVSERROR)` for a NULL result. -/
def readItem (key : CStr) (result : Option CStr) : List UInt8 :=
  snprintf maxWriteSize (chars ['('] ++ key.bytes ++ chars [','] ++
    (match result with
      | some value => value.bytes
      | none => chars ['K', 'V', 'S', 'E', 'R', 'R', 'O', 'R']) ++ chars [')'])

def missingItem (key : CStr) : List UInt8 :=
  snprintf maxWriteSize (chars ['('] ++ key.bytes ++
    chars [',', 'K', 'V', 'S', 'M', 'I', 'S', 'S', 'I', 'N', 'G', ')'])

def showItem (key value : CStr) : List UInt8 :=
  snprintf maxWriteSize (chars ['('] ++ key.bytes ++ chars [',', ' '] ++ value.bytes ++
    chars [')', '\n'])

def openList : List UInt8 := chars ['[']

def closeList : List UInt8 := chars [']', '\n']

/-- What a command has written so far, and whether `kvs_delete` has opened its list. -/
structure Writer where
  out : List UInt8
  aux : Bool
  deriving DecidableEq

/-! ### The commands -/

/-- The pair loop of `kvs_write`; a failed pair is only reported. -/
def writeLoop (ht : HashTable) (pairs : List ((CStr × CStr) × WriteMem)) :
    Except Fault HashTable :=
  pairs.foldlM (fun ht p => do
    let r ← writePair ht p.1.1 p.1.2 p.2
    pure r.1) ht

def kvsWrite (ht : HashTable) (pairs : List ((CStr × CStr) × WriteMem)) :
    Except Fault HashTable := do
  let _ ← lockWriteList (pairs.map fun p => p.1.1)
  writeLoop ht pairs

def readStep (ht : HashTable) (w : Writer) (item : CStr × Bool) : Except Fault Writer := do
  let result ← readPair ht item.1 item.2
  pure { w with out := w.out ++ readItem item.1 result }

def kvsRead (ht : HashTable) (keys : List (CStr × Bool)) : Except Fault (List UInt8) := do
  let _ ← lockReadList (keys.map Prod.fst)
  let w ← keys.foldlM (readStep ht) ⟨openList, false⟩
  pure (w.out ++ closeList)

/-- The list is opened by the first key that is missing. -/
def noteMissing (w : Writer) (key : CStr) : Writer :=
  { out := (if w.aux then w.out else w.out ++ openList) ++ missingItem key, aux := true }

def deleteStep (x : HashTable × Writer) (key : CStr) : Except Fault (HashTable × Writer) := do
  let r ← deletePair x.1 key
  pure (r.1, if r.2.1 ≠ 0 then noteMissing x.2 key else x.2)

def closeMissing (w : Writer) : List UInt8 := if w.aux then w.out ++ closeList else w.out

def kvsDelete (ht : HashTable) (keys : List CStr) : Except Fault (HashTable × List UInt8) := do
  let _ ← lockWriteList keys
  let r ← keys.foldlM deleteStep (ht, ⟨[], false⟩)
  pure (r.1, closeMissing r.2)

/-- The nodes of one bucket, one line each. -/
def showChain (w : Writer) (chain : List KeyNode) : Except Fault Writer :=
  chain.foldlM (fun w keyNode => match keyNode.value with
    | some value => .ok { w with out := w.out ++ showItem keyNode.key value }
    | none => .error .null) w

/-- What the command writes, if no value is NULL. What it has written before it meets a NULL
value is the first part of `Backups.showFile`. -/
def kvsShow (ht : HashTable) : Except Fault (List UInt8) := do
  let w ← (List.finRange tableSize).foldlM (fun w i => showChain w (ht i)) ⟨[], false⟩
  pure w.out

/-! ### Commands whose keys have buckets -/

theorem startsAlnum_of_lockList {indexList : IndexList} {keys : List CStr}
    {r : List Bucket × IndexList} (h : lockList indexList keys = .ok r) :
    ∀ key ∈ keys, key.startsAlnum = true := by
  intro key hk
  obtain ⟨b, hb, -⟩ := mem_lockList h hk
  exact bucketOf_eq_ok_iff.mp ⟨b, hb⟩

section Buckets
variable {ht : HashTable} {pairs : List ((CStr × CStr) × WriteMem)} {items : List (CStr × Bool)}
  {keys : List CStr}

/-- Locking never fails here, so a write is its loop. -/
theorem kvsWrite_eq_loop (h : ∀ p ∈ pairs, p.1.1.startsAlnum = true) :
    kvsWrite ht pairs = writeLoop ht pairs := by
  obtain ⟨r, hr⟩ := lockList_ok (fun _ => false) (pairs.map fun p => p.1.1)
    (List.forall_mem_map.mpr h)
  rw [kvsWrite, lockWriteList, hr]
  rfl

theorem kvsRead_eq_loop (h : ∀ x ∈ items, x.1.startsAlnum = true) :
    kvsRead ht items =
      (items.foldlM (readStep ht) ⟨openList, false⟩).map fun w => w.out ++ closeList := by
  obtain ⟨r, hr⟩ := lockList_ok (fun _ => false) (items.map Prod.fst) (List.forall_mem_map.mpr h)
  rw [kvsRead, lockReadList, hr]
  change (items.foldlM (readStep ht) ⟨openList, false⟩ >>= _) = _
  cases items.foldlM (readStep ht) ⟨openList, false⟩ <;> rfl

theorem kvsDelete_eq_loop (h : ∀ key ∈ keys, key.startsAlnum = true) :
    kvsDelete ht keys =
      (keys.foldlM deleteStep (ht, ⟨[], false⟩)).map fun r => (r.1, closeMissing r.2) := by
  obtain ⟨r, hr⟩ := lockList_ok (fun _ => false) keys h
  rw [kvsDelete, lockWriteList, hr]
  change (keys.foldlM deleteStep (ht, ⟨[], false⟩) >>= _) = _
  cases keys.foldlM deleteStep (ht, ⟨[], false⟩) <;> rfl

theorem startsAlnum_of_kvsWrite {ht' : HashTable} (h : kvsWrite ht pairs = .ok ht') :
    ∀ p ∈ pairs, p.1.1.startsAlnum = true := by
  obtain ⟨r, hl, -⟩ := ok_of_bind h
  exact List.forall_mem_map.mp (startsAlnum_of_lockList hl)

theorem startsAlnum_of_kvsRead {out : List UInt8} (h : kvsRead ht items = .ok out) :
    ∀ x ∈ items, x.1.startsAlnum = true := by
  obtain ⟨r, hl, -⟩ := ok_of_bind h
  exact List.forall_mem_map.mp (startsAlnum_of_lockList hl)

theorem startsAlnum_of_kvsDelete {r : HashTable × List UInt8} (h : kvsDelete ht keys = .ok r) :
    ∀ key ∈ keys, key.startsAlnum = true := by
  obtain ⟨l, hl, -⟩ := ok_of_bind h
  exact startsAlnum_of_lockList hl

end Buckets

/-! ### Commands of a job file -/

inductive Command
  | write (pairs : List (CStr × CStr))
  | read (keys : List CStr)
  | delete (keys : List CStr)
  | showAll
  deriving DecidableEq

def Command.keys : Command → List CStr
  | .write pairs => pairs.map Prod.fst
  | .read keys | .delete keys => keys
  | .showAll => []

/-- One command on a table, for any result of `qsort` and of the allocations: the
bytes of its output, or the fault that ends the program, and the table after it. -/
inductive Exec : Command → HashTable → Except Fault (List UInt8) → HashTable → Prop
  | write {pairs : List (CStr × CStr)} {ht ht' : HashTable}
      (sorted : List ((CStr × CStr) × WriteMem))
      (hq : QsortResult comparePairs pairs (sorted.map Prod.fst))
      (h : kvsWrite ht sorted = .ok ht') : Exec (.write pairs) ht (.ok []) ht'
  | read {keys : List CStr} {ht : HashTable} (sorted : List (CStr × Bool))
      (hq : QsortResult compareKeys keys (sorted.map Prod.fst)) :
      Exec (.read keys) ht (kvsRead ht sorted) ht
  | delete {keys : List CStr} {ht ht' : HashTable} {out : List UInt8} (sorted : List CStr)
      (hq : QsortResult compareKeys keys sorted)
      (h : kvsDelete ht sorted = .ok (ht', out)) : Exec (.delete keys) ht (.ok out) ht'
  | showAll {ht : HashTable} : Exec .showAll ht (kvsShow ht) ht

end IstKvs.Store
