import IstKvs.Client.Paths
import IstKvs.Sessions.Agreement
import IstKvs.Store.Order

/-! What a WRITE sends behind the strings of its notifications. `kvs_write` copies each pair
into two adjacent arrays of 40 bytes on its stack and sorts the elements of 80 bytes as a
whole; `notify_subscribers` sends 41 bytes from the start of either array. So a block ends with
what the stack held behind the string and with the first byte of what comes after the array:
of the value, of the next pair in the sorted order, or of the memory behind the last one. -/

namespace IstKvs.Sessions

open IstKvs.Store IstKvs.Systems Function
open IstKvs.Client (strcpy)

/-! ### The array of `kvs_write` -/

/-- The size of an element of `pairs`. -/
def sizeofPair : ℕ := 2 * maxStringSize

/-- An element after the two copies, for what it held before. -/
def fillPair (prior : List UInt8) (p : CStr × CStr) : List UInt8 :=
  strcpy (strcpy prior 0 p.1) maxStringSize p.2

def fillPairs (prior : ℕ → List UInt8) (pairs : List (CStr × CStr)) : List (List UInt8) :=
  pairs.mapIdx fun i p => fillPair (prior i) p

def keyOf (pair : List UInt8) : CStr := .ofBuffer pair

def valueOf (pair : List UInt8) : CStr := .ofBuffer (pair.drop maxStringSize)

/-- `compare_pairs` on elements of the array. -/
def compareElements (a b : List UInt8) : ℤ := strcmp (keyOf a) (keyOf b)

/-- The two blocks that are sent of the pair at the start of a piece of memory. -/
def blocksOf (mem : List UInt8) : List UInt8 :=
  mem.take keyMessageSize ++ (mem.drop maxStringSize).take keyMessageSize

/-- The pair loop of `kvs_write` with the bytes of each notification; `beyond` is the memory
behind the array. -/
def sendLoop (beyond : List UInt8) : HashTable → List (List UInt8 × WriteMem) →
    Except Fault (HashTable × List (Message × List UInt8))
  | ht, [] => pure (ht, [])
  | ht, pair :: pairs => do
    let r ← writePair ht (keyOf pair.1) (valueOf pair.1) pair.2
    let blocks := blocksOf (pair.1 ++ (pairs.map Prod.fst).flatten ++ beyond)
    let rest ← sendLoop beyond r.1 pairs
    pure (rest.1, r.2.2.map (fun m => (m, blocks)) ++ rest.2)

/-- `kvs_write` from the sorted array on. -/
def kvsWriteBytes (ht : HashTable) (beyond : List UInt8) (pairs : List (List UInt8 × WriteMem)) :
    Except Fault (HashTable × List (Message × List UInt8)) := do
  let _ ← lockWriteList (pairs.map fun p => keyOf p.1)
  sendLoop beyond ht pairs

/-- What the subscribers of a key are sent about it. -/
def about (key : CStr) (sent : List (Message × List UInt8)) : List (Fd × List UInt8) :=
  (sent.filter fun m => m.1.key = key).map fun m => (m.1.fd, m.2)

/-- The table of the loop is that of `writeLoop` on the strings of the pairs. -/
theorem sendLoop_table (beyond : List UInt8) (ht : HashTable)
    (pairs : List (List UInt8 × WriteMem)) :
    (sendLoop beyond ht pairs).map Prod.fst =
      writeLoop ht (pairs.map fun p => ((keyOf p.1, valueOf p.1), p.2)) := by
  induction pairs generalizing ht with
  | nil => rfl
  | cons pair pairs ih =>
    rw [List.map_cons, writeLoop, List.foldlM_cons, sendLoop]
    cases hw : writePair ht (keyOf pair.1) (valueOf pair.1) pair.2 with
    | error e => rfl
    | ok r =>
      have hrest := ih r.1
      change (sendLoop beyond r.1 pairs >>= _).map Prod.fst = writeLoop r.1 _
      rw [← hrest]
      cases sendLoop beyond r.1 pairs <;> rfl

theorem kvsWriteBytes_table (ht : HashTable) (beyond : List UInt8)
    (pairs : List (List UInt8 × WriteMem)) :
    (kvsWriteBytes ht beyond pairs).map Prod.fst =
      kvsWrite ht (pairs.map fun p => ((keyOf p.1, valueOf p.1), p.2)) := by
  rw [kvsWrite, List.map_map, ← sendLoop_table beyond]
  change (lockWriteList (pairs.map fun p => keyOf p.1) >>= _).map Prod.fst =
    (lockWriteList (pairs.map fun p => keyOf p.1) >>= _)
  cases lockWriteList (pairs.map fun p => keyOf p.1) <;> rfl

/-! ### One element -/

section Element
variable {prior : List UInt8} {key value : CStr}

/-- The bytes that the two copies leave as they were. -/
def unused (prior : List UInt8) (key value : CStr) : List UInt8 × List UInt8 :=
  ((prior.take maxStringSize).drop (key.length + 1), prior.drop (maxStringSize + value.length + 1))

/-- A string with its terminator and the rest of its array. -/
def field (s : CStr) (rest : List UInt8) : List UInt8 := s.bytes ++ 0 :: rest

theorem fillPair_eq (prior : List UInt8) (value : CStr) (hk : key.length < maxStringSize) :
    fillPair prior (key, value) =
      field key (unused prior key value).1 ++ field value (unused prior key value).2 := by
  have hkey : strcpy prior 0 key = (key.bytes ++ [0]) ++ prior.drop (key.length + 1) := by
    simp [strcpy]
  have hlen : (key.bytes ++ [0]).length = key.length + 1 := by simp [CStr.length]
  have htake : (strcpy prior 0 key).take maxStringSize =
      field key ((prior.take maxStringSize).drop (key.length + 1)) := by
    rw [hkey, List.take_append, List.take_of_length_le (by omega), hlen, List.drop_take]
    simp [field]
  have hdrop : (strcpy prior 0 key).drop (maxStringSize + value.length + 1) =
      prior.drop (maxStringSize + value.length + 1) := by
    rw [hkey, List.drop_append, List.drop_of_length_le (by omega), hlen, List.drop_drop,
      List.nil_append]
    congr 1
    omega
  rw [fillPair]
  show (strcpy prior 0 key).take _ ++ (_ ++ 0 :: (strcpy prior 0 key).drop _) = _
  rw [htake, hdrop]
  rfl

theorem length_field (value : CStr) (hp : prior.length = sizeofPair)
    (hk : key.length < maxStringSize) :
    (field key (unused prior key value).1).length = maxStringSize := by
  simp only [field, unused, List.length_append, List.length_cons, List.length_drop,
    List.length_take, hp]
  simp only [CStr.length, sizeofPair, maxStringSize] at hk ⊢
  omega

theorem length_fillPair (hp : prior.length = sizeofPair) (hk : key.length < maxStringSize)
    (hv : value.length < maxStringSize) : (fillPair prior (key, value)).length = sizeofPair := by
  rw [fillPair_eq prior value hk, List.length_append, length_field value hp hk]
  simp only [field, unused, List.length_append, List.length_cons, List.length_drop, hp]
  simp only [CStr.length, sizeofPair, maxStringSize] at hv ⊢
  omega

/-- The blocks of a pair with what follows it in memory. -/
theorem blocksOf_fillPair (hp : prior.length = sizeofPair) (hk : key.length < maxStringSize)
    (hv : value.length < maxStringSize) {next : List UInt8} (hn : next ≠ []) :
    blocksOf (fillPair prior (key, value) ++ next) =
      (field key (unused prior key value).1 ++ [value.bytes.headD 0]) ++
        (field value (unused prior key value).2 ++ [next.headD 0]) := by
  have hkey := length_field value hp hk
  have hpair := length_fillPair hp hk hv
  rw [fillPair_eq prior value hk] at hpair ⊢
  generalize hf : field key (unused prior key value).1 = f at hkey hpair ⊢
  have hvalue : (field value (unused prior key value).2).length = maxStringSize := by
    rw [List.length_append, hkey, sizeofPair] at hpair
    omega
  have hhead : (field value (unused prior key value).2 ++ next).take 1 =
      [value.bytes.headD 0] := by
    unfold field
    cases value.bytes <;> rfl
  have hnext : next.take 1 = [next.headD 0] := by
    cases next with
    | nil => exact absurd rfl hn
    | cons b next => rfl
  generalize field value (unused prior key value).2 = g at hvalue hhead ⊢
  have htake : ∀ s t : List UInt8, s.length = maxStringSize →
      (s ++ t).take keyMessageSize = s ++ t.take 1 := by
    intro s t hs
    have hsize : keyMessageSize = s.length + 1 := by rw [hs]; rfl
    rw [hsize, List.take_length_add_append]
  rw [blocksOf, List.append_assoc f g next, List.drop_left' hkey, htake f _ hkey,
    htake g _ hvalue, hhead, hnext]

theorem blocksOf_inj {prior' : List UInt8} (hp : prior.length = sizeofPair)
    (hp' : prior'.length = sizeofPair) (hk : key.length < maxStringSize)
    (hv : value.length < maxStringSize) {next next' : List UInt8} (hn : next ≠ [])
    (hn' : next' ≠ []) :
    blocksOf (fillPair prior (key, value) ++ next) =
        blocksOf (fillPair prior' (key, value) ++ next') ↔
      unused prior key value = unused prior' key value ∧ next.headD 0 = next'.headD 0 := by
  have hlen := length_field value hp hk
  have hlen' := length_field value hp' hk
  rw [blocksOf_fillPair hp hk hv hn, blocksOf_fillPair hp' hk hv hn', Prod.ext_iff]
  constructor
  · intro h
    obtain ⟨hkey, hvalue⟩ := List.append_inj h (by simp [hlen, hlen'])
    have hkey' := List.append_cancel_right hkey
    obtain ⟨hfield, hnext⟩ := List.append_inj' hvalue rfl
    exact ⟨⟨List.cons_injective (List.append_cancel_left hkey'),
      List.cons_injective (List.append_cancel_left hfield)⟩, List.head_eq_of_cons_eq hnext⟩
  · rintro ⟨⟨hkey, hvalue⟩, hnext⟩
    rw [hkey, hvalue, hnext]

end Element

/-! ### The sorted array -/

/-- A WRITE of strings that fit, on keys with a bucket, that gives the value to the key once. -/
structure WritesOnce (key value : CStr) (pairs : List (CStr × CStr)) : Prop where
  keys : ∀ p ∈ pairs, p.1.startsAlnum = true
  short : ∀ p ∈ pairs, p.1.length < maxStringSize ∧ p.2.length < maxStringSize
  once : pairs.filter (fun p => p.1 = key) = [(key, value)]

theorem WritesOnce.mem {key value : CStr} {pairs : List (CStr × CStr)}
    (h : WritesOnce key value pairs) : (key, value) ∈ pairs := by
  have hf : (key, value) ∈ pairs.filter (fun p => p.1 = key) := by
    rw [h.once]
    exact List.mem_singleton_self _
  exact List.mem_of_mem_filter hf

/-- The first byte of the key that follows, or of the memory behind the array. -/
def nextInitial (key : CStr) (pairs : List (CStr × CStr)) (beyond : List UInt8) : UInt8 :=
  (((pairs.map Prod.fst).filter fun k => 0 < strcmp k key).map fun k =>
    k.bytes.headD 0).min?.getD (beyond.headD 0)

theorem keyOf_fillPair (prior : List UInt8) {p : CStr × CStr} (hk : p.1.length < maxStringSize) :
    keyOf (fillPair prior p) = p.1 := by
  have h := fillPair_eq prior p.2 hk
  rw [keyOf, h, field, List.append_assoc]
  exact p.1.ofBuffer_terminated _

theorem map_keyOf_fillPairs (prior : ℕ → List UInt8) {pairs : List (CStr × CStr)}
    (h : ∀ p ∈ pairs, p.1.length < maxStringSize) :
    (fillPairs prior pairs).map keyOf = pairs.map Prod.fst := by
  induction pairs generalizing prior with
  | nil => rfl
  | cons p pairs ih =>
    have hrest := ih (fun i => prior (i + 1)) fun q hq => h q (List.mem_cons_of_mem _ hq)
    rw [fillPairs, List.mapIdx_cons, List.map_cons, keyOf_fillPair _ (h p List.mem_cons_self),
      List.map_cons]
    exact congrArg _ hrest

theorem headD_append {pair : List UInt8} (h : pair ≠ []) (s : List UInt8) :
    (pair ++ s).headD 0 = (keyOf pair).bytes.headD 0 := by
  cases pair with
  | nil => exact absurd rfl h
  | cons b pair =>
    by_cases hb : b = 0
    · simp [keyOf, CStr.ofBuffer, hb]
    · simp [keyOf, CStr.ofBuffer, hb]

/-- The sorted array around the element of the key. -/
structure Around (key : CStr) (before rest : List (List UInt8 × WriteMem)) : Prop where
  before : ∀ x ∈ before, keyOf x.1 ≠ key
  rest : ∀ x ∈ rest, keyOf x.1 ≠ key

section Sorted
variable {key value : CStr} {pairs : List (CStr × CStr)} {prior : ℕ → List UInt8}
  {sorted : List (List UInt8 × WriteMem)}

theorem keys_perm (h : WritesOnce key value pairs)
    (hq : QsortResult compareElements (fillPairs prior pairs) (sorted.map Prod.fst)) :
    (sorted.map fun x => keyOf x.1).Perm (pairs.map Prod.fst) := by
  have hp := hq.1.map keyOf
  rw [map_keyOf_fillPairs prior fun p hp => (h.short p hp).1, List.map_map] at hp
  exact hp

/-- The element of the key is that of its index, and no other has the key. -/
theorem exists_around (h : WritesOnce key value pairs)
    (hq : QsortResult compareElements (fillPairs prior pairs) (sorted.map Prod.fst)) :
    ∃ before mem rest, Around key before rest ∧ sorted = before ++
      (fillPair (prior (pairs.idxOf (key, value))) (key, value), mem) :: rest := by
  have hm := h.mem
  have hi : pairs.idxOf (key, value) < pairs.length := List.idxOf_lt_length_of_mem hm
  have he : fillPair (prior (pairs.idxOf (key, value))) (key, value) ∈ fillPairs prior pairs := by
    refine List.mem_mapIdx.mpr ⟨pairs.idxOf (key, value), hi, ?_⟩
    rw [List.getElem_idxOf hi]
  obtain ⟨⟨pair, mem⟩, hx, hpair⟩ := List.mem_map.mp (hq.1.mem_iff.mpr he)
  obtain ⟨before, rest, rfl⟩ := List.append_of_mem hx
  obtain rfl : pair = _ := hpair
  refine ⟨before, mem, rest, ?_, rfl⟩
  -- the key occurs once among the keys of the array
  have hcount := (keys_perm h hq).count_eq key
  have hone : (pairs.map Prod.fst).count key = 1 := by
    have hlen := congrArg List.length h.once
    rw [← List.countP_eq_length_filter] at hlen
    rw [List.count, List.countP_map]
    exact hlen
  have hkey : keyOf (fillPair (prior (pairs.idxOf (key, value))) (key, value)) = key :=
    keyOf_fillPair _ (h.short _ hm).1
  rw [hone, List.map_append, List.count_append, List.map_cons, hkey, List.count_cons_self] at hcount
  have hbefore : (before.map fun x => keyOf x.1).count key = 0 := by omega
  have hrest : (rest.map fun x => keyOf x.1).count key = 0 := by omega
  constructor
  · intro x hx he
    exact List.count_eq_zero.mp hbefore (List.mem_map.mpr ⟨x, hx, he⟩)
  · intro x hx he
    exact List.count_eq_zero.mp hrest (List.mem_map.mpr ⟨x, hx, he⟩)

theorem headD_rest (h : WritesOnce key value pairs)
    (hq : QsortResult compareElements (fillPairs prior pairs) (sorted.map Prod.fst))
    {before rest : List (List UInt8 × WriteMem)} {pair : List UInt8} {mem : WriteMem}
    (ha : Around key before rest) (hpair : keyOf pair = key)
    (hs : sorted = before ++ (pair, mem) :: rest) (beyond : List UInt8) :
    ((rest.map Prod.fst).flatten ++ beyond).headD 0 = nextInitial key pairs beyond := by
  have hperm := keys_perm h hq
  have hsorted := hq.2
  have hmem : ∀ x ∈ rest, x.1 ≠ [] := by
    intro x hx
    have hin : x.1 ∈ fillPairs prior pairs := by
      apply hq.1.mem_iff.mp
      rw [hs]
      exact List.mem_map_of_mem (by simp [hx])
    obtain ⟨i, hi, he⟩ := List.mem_mapIdx.mp hin
    rw [← he]
    simp [fillPair, strcpy]
  rw [hs, List.map_append, List.map_cons, List.pairwise_append, List.pairwise_cons] at hsorted
  obtain ⟨-, ⟨hafter, hrest⟩, hcross⟩ := hsorted
  -- the keys that are greater are those of the rest
  have hgreater : ((pairs.map Prod.fst).filter fun k => 0 < strcmp k key).Perm
      (rest.map fun x => keyOf x.1) := by
    refine (hperm.filter _).symm.trans (List.Perm.of_eq ?_)
    rw [hs, List.map_append, List.map_cons, List.filter_append, List.filter_cons, hpair]
    have hb : (before.map fun x => keyOf x.1).filter (fun k => 0 < strcmp k key) = [] := by
      apply List.filter_eq_nil_iff.mpr
      intro k hk
      obtain ⟨x, hx, rfl⟩ := List.mem_map.mp hk
      have hle := hcross x.1 (List.mem_map_of_mem hx) pair List.mem_cons_self
      rw [compareElements, hpair] at hle
      simpa using hle
    have hr : (rest.map fun x => keyOf x.1).filter (fun k => 0 < strcmp k key) =
        rest.map fun x => keyOf x.1 := by
      apply List.filter_eq_self.mpr
      intro k hk
      obtain ⟨x, hx, rfl⟩ := List.mem_map.mp hk
      have hle := hafter x.1 (List.mem_map_of_mem hx)
      rw [compareElements, hpair, strcmp_swap] at hle
      have hne : strcmp (keyOf x.1) key ≠ 0 := fun he => ha.rest x hx (strcmp_eq_zero.mp he)
      rw [decide_eq_true_eq]
      omega
    rw [hb, hr, if_neg (by simp [strcmp_eq_zero.mpr]), List.nil_append]
  rw [nextInitial]
  cases rest with
  | nil =>
    rw [hgreater.eq_nil]
    rfl
  | cons x rest =>
    have hmin : (((pairs.map Prod.fst).filter fun k => 0 < strcmp k key).map fun k =>
        k.bytes.headD 0).min? = some ((keyOf x.1).bytes.headD 0) := by
      apply List.min?_eq_some_iff.mpr
      have hm := hgreater.map fun k => k.bytes.headD 0
      refine ⟨hm.mem_iff.mpr (by simp), fun b hb => ?_⟩
      obtain ⟨k, hk, rfl⟩ := List.mem_map.mp (hm.mem_iff.mp hb)
      obtain ⟨y, hy, rfl⟩ := List.mem_map.mp hk
      rcases List.mem_cons.mp hy with rfl | hy
      · exact Nat.le_refl _
      · exact headD_le_of_strcmp (List.rel_of_pairwise_cons hrest (List.mem_map_of_mem hy))
    rw [hmin, Option.getD_some, List.map_cons, List.flatten_cons, List.append_assoc,
      headD_append (hmem x List.mem_cons_self)]

end Sorted

/-! ### The messages about a key -/

theorem key_of_mem_sent {chain : List KeyNode} {key value : CStr} {mem : WriteMem} {m : Message}
    (h : m ∈ (writeChain chain key value mem).sent) : m.key = key := by
  unfold writeChain at h
  split at h
  · obtain ⟨fd, -, rfl⟩ := List.mem_map.mp h
    rfl
  · split_ifs at h <;> cases h

theorem sendLoop_cons (beyond : List UInt8) (ht : HashTable) {x : List UInt8 × WriteMem}
    {b : Bucket} (hb : bucketOf (keyOf x.1) = .ok b) (xs : List (List UInt8 × WriteMem)) :
    sendLoop beyond ht (x :: xs) =
      (sendLoop beyond (update ht b (writeChain (ht b) (keyOf x.1) (valueOf x.1) x.2).chain)
        xs).map fun rest => (rest.1, (writeChain (ht b) (keyOf x.1) (valueOf x.1) x.2).sent.map
          (fun m => (m, blocksOf (x.1 ++ (xs.map Prod.fst).flatten ++ beyond))) ++ rest.2) := by
  rw [sendLoop, writePair_eq hb]
  change (sendLoop beyond _ xs >>= _) = _
  cases sendLoop beyond (update ht b (writeChain (ht b) (keyOf x.1) (valueOf x.1) x.2).chain) xs <;>
    rfl

theorem about_append (key : CStr) (sent sent' : List (Message × List UInt8)) :
    about key (sent ++ sent') = about key sent ++ about key sent' := by
  rw [about, List.filter_append, List.map_append]
  rfl

theorem about_of_ne {chain : List KeyNode} {key k value : CStr} (hne : k ≠ key) (mem : WriteMem)
    (bytes : List UInt8) :
    about key ((writeChain chain k value mem).sent.map fun m => (m, bytes)) = [] := by
  rw [about, List.map_eq_nil_iff, List.filter_eq_nil_iff]
  intro x hx
  obtain ⟨m, hm, rfl⟩ := List.mem_map.mp hx
  simpa [key_of_mem_sent hm] using hne

theorem about_self {key : CStr} {b : Bucket} (hb : bucketOf key = .ok b) (ht : HashTable)
    (value : CStr) (mem : WriteMem) (bytes : List UInt8) :
    about key ((writeChain (ht b) key value mem).sent.map fun m => (m, bytes)) =
      ((subscribers ht key).getD []).map fun fd => (fd, bytes) := by
  have hall : ∀ x ∈ (writeChain (ht b) key value mem).sent.map (fun m => (m, bytes)),
      decide (x.1.key = key) = true := by
    intro x hx
    obtain ⟨m, hm, rfl⟩ := List.mem_map.mp hx
    exact decide_eq_true (key_of_mem_sent hm)
  rw [about, List.filter_eq_self.mpr hall, subscribers_eq ht hb]
  unfold writeChain
  cases findNode key (ht b) with
  | none => split_ifs <;> rfl
  | some n => simp [notifySubscribers, comp_def]

section Loop
variable (beyond : List UInt8) {key : CStr} {before rest : List (List UInt8 × WriteMem)}

theorem about_sendLoop_of_ne {pairs : List (List UInt8 × WriteMem)}
    (hk : ∀ x ∈ pairs, (keyOf x.1).startsAlnum = true) (hne : ∀ x ∈ pairs, keyOf x.1 ≠ key)
    (ht : HashTable) : ∃ r, sendLoop beyond ht pairs = .ok r ∧ about key r.2 = [] := by
  induction pairs generalizing ht with
  | nil => exact ⟨_, rfl, rfl⟩
  | cons x pairs ih =>
    obtain ⟨b, hb⟩ := bucketOf_eq_ok_iff.mpr (hk x List.mem_cons_self)
    obtain ⟨r, hr, hrest⟩ := ih (fun y hy => hk y (List.mem_cons_of_mem _ hy))
      (fun y hy => hne y (List.mem_cons_of_mem _ hy))
      (update ht b (writeChain (ht b) (keyOf x.1) (valueOf x.1) x.2).chain)
    rw [sendLoop_cons beyond ht hb, hr]
    refine ⟨_, rfl, ?_⟩
    rw [about_append, about_of_ne (hne x List.mem_cons_self), hrest, List.append_nil]

theorem about_sendLoop {pair : List UInt8} {mem : WriteMem} (ha : Around key before rest)
    (hpair : keyOf pair = key)
    (hk : ∀ x ∈ before ++ (pair, mem) :: rest, (keyOf x.1).startsAlnum = true) (ht : HashTable) :
    ∃ r, sendLoop beyond ht (before ++ (pair, mem) :: rest) = .ok r ∧
      about key r.2 = ((subscribers ht key).getD []).map fun fd =>
        (fd, blocksOf (pair ++ ((rest.map Prod.fst).flatten ++ beyond))) := by
  induction before generalizing ht with
  | nil =>
    obtain ⟨b, hb⟩ := bucketOf_eq_ok_iff.mpr (hk (pair, mem) List.mem_cons_self)
    obtain ⟨r, hr, hrest⟩ := about_sendLoop_of_ne beyond
      (fun y hy => hk y (List.mem_cons_of_mem _ hy)) ha.rest
      (update ht b (writeChain (ht b) (keyOf pair) (valueOf pair) mem).chain)
    rw [List.nil_append, sendLoop_cons beyond ht hb, hr]
    refine ⟨_, rfl, ?_⟩
    dsimp only at hb ⊢
    rw [hpair] at hb ⊢
    rw [about_append, about_self hb, hrest, List.append_nil, List.append_assoc]
  | cons x before ih =>
    obtain ⟨b, hb⟩ := bucketOf_eq_ok_iff.mpr (hk x List.mem_cons_self)
    have hne := ha.before x List.mem_cons_self
    obtain ⟨r, hr, hrest⟩ := ih ⟨fun y hy => ha.before y (List.mem_cons_of_mem _ hy), ha.rest⟩
      (fun y hy => hk y (List.mem_cons_of_mem _ hy))
      (update ht b (writeChain (ht b) (keyOf x.1) (valueOf x.1) x.2).chain)
    have hsame : subscribers
        (update ht b (writeChain (ht b) (keyOf x.1) (valueOf x.1) x.2).chain) key =
          subscribers ht key := by
      rw [subscribers_changes hb (writeChain_changes _ _ _ _), update_of_ne hne.symm]
    rw [List.cons_append, sendLoop_cons beyond ht hb, hr]
    refine ⟨_, rfl, ?_⟩
    rw [about_append, about_of_ne hne, hrest, hsame, List.nil_append]

end Loop

/-! ### Two commands -/

/-- A WRITE sends the subscribers of the key its element with the byte behind it. -/
theorem about_kvsWriteBytes {key value : CStr} {pairs : List (CStr × CStr)}
    (h : WritesOnce key value pairs) {prior : ℕ → List UInt8}
    {sorted : List (List UInt8 × WriteMem)}
    (hq : QsortResult compareElements (fillPairs prior pairs) (sorted.map Prod.fst))
    (ht : HashTable) {beyond : List UInt8} (hb : beyond ≠ []) :
    ∃ r next, kvsWriteBytes ht beyond sorted = .ok r ∧ next ≠ [] ∧
      next.headD 0 = nextInitial key pairs beyond ∧
      about key r.2 = ((subscribers ht key).getD []).map fun fd =>
        (fd, blocksOf (fillPair (prior (pairs.idxOf (key, value))) (key, value) ++ next)) := by
  have hm := h.mem
  have hpair : keyOf (fillPair (prior (pairs.idxOf (key, value))) (key, value)) = key :=
    keyOf_fillPair _ (h.short _ hm).1
  have hkeys : ∀ k ∈ sorted.map fun x => keyOf x.1, k.startsAlnum = true := by
    intro k hk
    obtain ⟨p, hp, rfl⟩ := List.mem_map.mp ((keys_perm h hq).mem_iff.mp hk)
    exact h.keys p hp
  obtain ⟨before, mem, rest, ha, hs⟩ := exists_around h hq
  obtain ⟨locks, hlocks⟩ := lockList_ok (fun _ => false) _ hkeys
  obtain ⟨r, hr, habout⟩ := about_sendLoop beyond ha hpair (by
    rw [← hs]
    exact fun x hx => hkeys _ (List.mem_map_of_mem hx)) ht
  refine ⟨r, _, ?_, ?_, headD_rest h hq ha hpair hs beyond, habout⟩
  · rw [kvsWriteBytes, lockWriteList, hlocks, hs]
    exact hr
  · simp [hb]

/-- Two commands that give the same value to a key send its subscribers the same bytes about it
exactly when the stack held the same bytes behind the two strings and the same byte follows. -/
theorem sameBlocks_iff {ht : HashTable} {fd : Fd} {key value : CStr}
    (hsub : Subscribed ht fd key) {pairs pairs' : List (CStr × CStr)}
    (h : WritesOnce key value pairs) (h' : WritesOnce key value pairs')
    {prior : ℕ → List UInt8} (hp : ∀ i, (prior i).length = sizeofPair)
    {beyond beyond' : List UInt8} (hb : beyond ≠ []) (hb' : beyond' ≠ [])
    {sorted sorted' : List (List UInt8 × WriteMem)}
    (hq : QsortResult compareElements (fillPairs prior pairs) (sorted.map Prod.fst))
    (hq' : QsortResult compareElements (fillPairs prior pairs') (sorted'.map Prod.fst)) :
    ∃ r r', kvsWriteBytes ht beyond sorted = .ok r ∧ kvsWriteBytes ht beyond' sorted' = .ok r' ∧
      (about key r.2 = about key r'.2 ↔
        unused (prior (pairs.idxOf (key, value))) key value =
            unused (prior (pairs'.idxOf (key, value))) key value ∧
          nextInitial key pairs beyond = nextInitial key pairs' beyond') := by
  obtain ⟨r, next, hr, hn, hhead, habout⟩ := about_kvsWriteBytes h hq ht hb
  obtain ⟨r', next', hr', hn', hhead', habout'⟩ := about_kvsWriteBytes h' hq' ht hb'
  obtain ⟨hk, hv⟩ := h.short _ h.mem
  refine ⟨r, r', hr, hr', ?_⟩
  rw [habout, habout', ← hhead, ← hhead', ← blocksOf_inj (hp _) (hp _) hk hv hn hn']
  obtain ⟨fds, hfds, hfd⟩ := hsub
  rw [hfds, Option.getD_some, List.map_inj_left]
  constructor
  · intro hall
    exact (Prod.mk.inj (hall fd hfd)).2
  · intro he g _
    rw [he]

/-- A pair next to one of another key. -/
def withOther (key : List Char) : List (CStr × CStr) :=
  [(.ofBuffer (chars ['a']), .ofBuffer (chars ['1'])),
    (.ofBuffer (chars key), .ofBuffer (chars ['2']))]

theorem run_subscribed : ∃ s : State Unit, Run Step State.initial
    [.connect () ⟨3, 4, 5, []⟩, .writePair (.ofBuffer (chars ['a'])) (.ofBuffer (chars ['0'])),
      .subscribe () (.ofBuffer (chars ['a']))] s ∧
    Subscribed s.ht 5 (.ofBuffer (chars ['a'])) := by
  have hb : bucketOf (.ofBuffer (chars ['a'])) = .ok 0 := by decide
  have h₁ : Step (State.initial : State Unit) (.connect () ⟨3, 4, 5, []⟩) _ :=
    .connect rfl rfl (by rintro _ _ ⟨⟩)
  have h₂ := (Run.single h₁).snoc (.writePair (writePair_eq hb (.ofBuffer (chars ['0'])) .ok))
  have h₃ := h₂.snoc (.subscribe (c := ()) rfl (kvsSubscribe_eq (by decide) hb))
  exact ⟨_, h₃, [5], rfl, List.mem_singleton_self _⟩

/-- The block of the value ends with the first byte of the other key. -/
theorem not_sameBlocks : ∃ (s : State Unit) (prior : ℕ → List UInt8) (beyond : List UInt8)
    (sorted sorted' : List (List UInt8 × WriteMem))
    (r r' : HashTable × List (Message × List UInt8)),
    Subscribed s.ht 5 (.ofBuffer (chars ['a'])) ∧
    WritesOnce (.ofBuffer (chars ['a'])) (.ofBuffer (chars ['1'])) (withOther ['b']) ∧
    WritesOnce (.ofBuffer (chars ['a'])) (.ofBuffer (chars ['1'])) (withOther ['c']) ∧
    QsortResult compareElements (fillPairs prior (withOther ['b'])) (sorted.map Prod.fst) ∧
    QsortResult compareElements (fillPairs prior (withOther ['c'])) (sorted'.map Prod.fst) ∧
    kvsWriteBytes s.ht beyond sorted = .ok r ∧ kvsWriteBytes s.ht beyond sorted' = .ok r' ∧
    about (.ofBuffer (chars ['a'])) r.2 ≠ about (.ofBuffer (chars ['a'])) r'.2 := by
  obtain ⟨s, -, hsub⟩ := run_subscribed
  let prior : ℕ → List UInt8 := fun _ => List.replicate sizeofPair 0
  have hb : WritesOnce (.ofBuffer (chars ['a'])) (.ofBuffer (chars ['1'])) (withOther ['b']) :=
    ⟨by decide, by decide, by decide⟩
  have hc : WritesOnce (.ofBuffer (chars ['a'])) (.ofBuffer (chars ['1'])) (withOther ['c']) :=
    ⟨by decide, by decide, by decide⟩
  let sorted := (fillPairs prior (withOther ['b'])).map fun x => (x, WriteMem.ok)
  let sorted' := (fillPairs prior (withOther ['c'])).map fun x => (x, WriteMem.ok)
  have hq : QsortResult compareElements (fillPairs prior (withOther ['b'])) (sorted.map Prod.fst) :=
    ⟨List.Perm.refl _, by decide⟩
  have hq' : QsortResult compareElements (fillPairs prior (withOther ['c']))
      (sorted'.map Prod.fst) := ⟨List.Perm.refl _, by decide⟩
  obtain ⟨r, next, hr, hn, hhead, habout⟩ := about_kvsWriteBytes hb hq s.ht (List.cons_ne_nil 0 [])
  obtain ⟨r', next', hr', hn', hhead', habout'⟩ :=
    about_kvsWriteBytes hc hq' s.ht (List.cons_ne_nil 0 [])
  refine ⟨s, prior, [0], sorted, sorted', r, r', hsub, hb, hc, hq, hq', hr, hr', ?_⟩
  obtain ⟨fds, hfds, hfd⟩ := hsub
  rw [habout, habout', hfds, Option.getD_some, ne_eq, List.map_inj_left]
  intro hall
  have hblocks := (blocksOf_inj rfl rfl (by decide) (by decide) hn hn').mp
    (Prod.mk.inj (hall 5 hfd)).2
  rw [hhead, hhead'] at hblocks
  exact absurd hblocks.2 (by decide)

/-- Two other keys with the same first byte. -/
theorem sameBlocks_iff_sameInitial : ∃ (s : State Unit) (prior : ℕ → List UInt8)
    (sorted sorted' : List (List UInt8 × WriteMem))
    (r r' : HashTable × List (Message × List UInt8)),
    sorted.map Prod.fst = fillPairs prior (withOther ['b', 'c']) ∧
    sorted'.map Prod.fst = fillPairs prior (withOther ['b', 'd']) ∧
    kvsWriteBytes s.ht [0] sorted = .ok r ∧ kvsWriteBytes s.ht [0] sorted' = .ok r' ∧
    about (.ofBuffer (chars ['a'])) r.2 = about (.ofBuffer (chars ['a'])) r'.2 := by
  obtain ⟨s, -, hsub⟩ := run_subscribed
  let prior : ℕ → List UInt8 := fun _ => List.replicate sizeofPair 0
  let sorted := (fillPairs prior (withOther ['b', 'c'])).map fun x => (x, WriteMem.ok)
  let sorted' := (fillPairs prior (withOther ['b', 'd'])).map fun x => (x, WriteMem.ok)
  have h : WritesOnce (.ofBuffer (chars ['a'])) (.ofBuffer (chars ['1']))
      (withOther ['b', 'c']) := ⟨by decide, by decide, by decide⟩
  have h' : WritesOnce (.ofBuffer (chars ['a'])) (.ofBuffer (chars ['1']))
      (withOther ['b', 'd']) := ⟨by decide, by decide, by decide⟩
  have hq : QsortResult compareElements (fillPairs prior (withOther ['b', 'c']))
      (sorted.map Prod.fst) := ⟨List.Perm.refl _, by decide⟩
  have hq' : QsortResult compareElements (fillPairs prior (withOther ['b', 'd']))
      (sorted'.map Prod.fst) := ⟨List.Perm.refl _, by decide⟩
  obtain ⟨r, r', hr, hr', hiff⟩ := sameBlocks_iff hsub h h' (fun _ => rfl)
    (List.cons_ne_nil 0 []) (List.cons_ne_nil 0 []) hq hq'
  exact ⟨s, prior, sorted, sorted', r, r', rfl, rfl, hr, hr', hiff.mpr ⟨rfl, by decide⟩⟩

end IstKvs.Sessions
