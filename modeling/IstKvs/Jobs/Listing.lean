import IstKvs.Jobs.Grammar
import IstKvs.Backups.Contents
import IstKvs.Store.KeyLists

/-! The listing of a table (`kvs_show`) can be read back. The parser lets no comma into a
key and no closing parenthesis into a value, and it bounds both to 39 bytes. So in the text
of a pair the first comma ends the key, the first parenthesis after it ends the value, and
no line is cut off by the buffer. -/

namespace IstKvs.Jobs

open IstKvs.Store IstKvs.Systems IstKvs.Backups Function

/-! ### What the parser accepts -/

/-- What is left of a field in the buffer is a field. -/
theorem isField_fieldString {k : List UInt8} (h : IsField k) : IsField (fieldString k).bytes := by
  have hmem : ∀ b ∈ (fieldString k).bytes, b ∈ k := by
    intro b hb
    have hb' : b ∈ k ++ [0] := (List.takeWhile_sublist _).subset hb
    have hne : b ≠ 0 := by
      rintro rfl
      exact (fieldString k).nulFree hb
    simpa [hne] using hb'
  refine ⟨fun b hb => h.plain b (hmem b hb), ?_⟩
  have hlast : (fieldString k).bytes.length ≠ (k ++ [0]).length := by
    intro he
    have hall : (fieldString k).bytes = k ++ [0] :=
      (List.takeWhile_sublist _).eq_of_length he
    exact (fieldString k).nulFree (by simp [hall])
  have hle : (fieldString k).bytes.length ≤ (k ++ [0]).length :=
    (List.takeWhile_sublist _).length_le
  have hfits := h.fits
  simp only [List.length_append, List.length_cons, List.length_nil] at hle hlast
  omega

/-- `read_string` stops at a delimiter with a field in the buffer, or it returns -1. -/
theorem isField_readString {s : List UInt8} (h : (readString maxStringSize s).value ≠ -1) :
    IsField (readString maxStringSize s).string.bytes := by
  cases fieldEnd maxStringSize s with
  | delimited k ch rest hk hn hch hs =>
    rw [hs, readString_field hk hn ch hch]
    exact isField_fieldString ⟨hk, hn⟩
  | full k rest hk hn hs =>
    rw [hs, ← hn, readString_full hk] at h
    exact absurd rfl h
  | eof hk hn =>
    rw [readString_eof hk hn] at h
    exact absurd rfl h

/-- The keys and values of a command are fields. -/
def FieldsOnly : Command → Prop
  | .write pairs => ∀ p ∈ pairs, IsField p.1.bytes ∧ IsField p.2.bytes
  | .read keys | .delete keys => ∀ key ∈ keys, IsField key.bytes
  | .showAll => True

theorem isField_parsePair {s : List UInt8} {p : CStr × CStr} (h : (parsePair s).result = some p) :
    IsField p.1.bytes ∧ IsField p.2.bytes := by
  simp only [parsePair, Parsed.cleanup] at h
  split_ifs at h with hkey hvalue
  obtain rfl := Option.some.inj h
  exact ⟨isField_readString (by omega), isField_readString (by omega)⟩

theorem isField_parsePairs {n : ℕ} {s : List UInt8} {ps : List (CStr × CStr)}
    (h : (parsePairs n s).result = some ps) : FieldsOnly (.write ps) := by
  induction n generalizing s ps with
  | zero =>
    cases h
    exact nofun
  | succ n ih =>
    simp only [parsePairs, Parsed.cleanup] at h
    split at h
    · cases h
    next pair hpair =>
      have hp := isField_parsePair hpair
      split at h
      · cases h
      · split_ifs at h
        · obtain rfl := Option.some.inj h
          exact fun q hq => List.mem_singleton.mp hq ▸ hp
        · obtain ⟨qs, hqs, rfl⟩ := Option.map_eq_some_iff.mp h
          exact List.forall_mem_cons.mpr ⟨hp, ih hqs⟩

theorem isField_parseKeys {n : ℕ} {s : List UInt8} {keys : List CStr}
    (h : (parseKeys maxStringSize n s).result = some keys) : ∀ key ∈ keys, IsField key.bytes := by
  induction n generalizing s keys with
  | zero =>
    cases h
    exact nofun
  | succ n ih =>
    simp only [parseKeys, Parsed.cleanup] at h
    split_ifs at h with hbad hlast
    · obtain rfl := Option.some.inj h
      exact fun k hk => List.mem_singleton.mp hk ▸ isField_readString (by omega)
    · obtain ⟨ks, hks, rfl⟩ := Option.map_eq_some_iff.mp h
      exact List.forall_mem_cons.mpr ⟨isField_readString (by omega), ih hks⟩

/-- The end of a list passes on what was parsed, or nothing. -/
theorem parseEnd_result {A : Type*} {max : ℕ} {r : Parsed (Option (List A))} {P : List A → Prop}
    (hnil : P []) (h : ∀ xs, r.result = some xs → P xs) : P (parseEnd max r).result := by
  simp only [parseEnd, Parsed.cleanup]
  split
  · exact hnil
  next xs hxs =>
    split_ifs
    · exact hnil
    · split
      · exact hnil
      · split_ifs
        · exact hnil
        · exact h xs hxs

theorem fieldsOnly_parseWrite (s : List UInt8) (n : ℕ) :
    FieldsOnly (.write (parseWrite s n).result) := by
  have hnil : FieldsOnly (.write []) := nofun
  unfold parseWrite
  split
  · exact hnil
  · split_ifs
    · exact hnil
    · split
      · exact hnil
      · split_ifs
        · exact hnil
        · exact parseEnd_result hnil fun ps hps => isField_parsePairs hps

theorem isField_parseReadDelete (s : List UInt8) (n : ℕ) :
    ∀ key ∈ (parseReadDelete s n maxStringSize).result, IsField key.bytes := by
  unfold parseReadDelete
  split
  · exact nofun
  · split_ifs
    · exact nofun
    · exact parseEnd_result (P := fun keys => ∀ key ∈ keys, IsField key.bytes) nofun
        fun ps hps => isField_parseKeys hps

/-- The parser returns the command from some place of a job file. -/
def Accepted (c : Command) : Prop :=
  ∃ stack s rest, nextItem stack s = some ⟨.command c, rest⟩

theorem Accepted.fieldsOnly {c : Command} (h : Accepted c) : FieldsOnly c := by
  obtain ⟨stack, s, rest, h⟩ := h
  have hw := fieldsOnly_parseWrite (getNext s).rest maxWriteSize
  have hk := isField_parseReadDelete (getNext s).rest maxWriteSize
  simp only [nextItem, writeItem, keysItem, waitItem] at h
  split at h
  all_goals try split_ifs at h
  all_goals cases h
  · exact hw
  · exact hk
  · exact hk
  · trivial

/-! ### What is stored -/

/-- Every key and every value in the table is a field. -/
structure StoredFields (ht : HashTable) : Prop where
  table : TableInv ht
  key : ∀ b, ∀ n ∈ ht b, IsField n.key.bytes
  value : ∀ b, ∀ n ∈ ht b, ∀ v, n.value = some v → IsField v.bytes

theorem storedFields_create : StoredFields createHashTable where
  table := tableInv_create
  key _ _ h := by cases h
  value _ _ h := by cases h

/-- The nodes hold a key and a value of one kind. -/
theorem storedFields_iff {ht : HashTable} : StoredFields ht ↔ TableInv ht ∧
    NodesHold (fun key value => IsField key.bytes ∧ ∀ v, value = some v → IsField v.bytes) ht := by
  constructor
  · intro h
    exact ⟨h.table, fun b n hn => ⟨h.key b n hn, h.value b n hn⟩⟩
  · rintro ⟨hinv, hnodes⟩
    exact ⟨hinv, fun b n hn => (hnodes b n hn).1, fun b n hn => (hnodes b n hn).2⟩

section Chains
variable {ht : HashTable} {key : CStr} {b : Bucket}

theorem StoredFields.writeChain (h : StoredFields ht) (hb : bucketOf key = .ok b)
    {value : CStr} (hk : IsField key.bytes) (hv : IsField value.bytes) (mem : WriteMem) :
    StoredFields (update ht b (writeChain (ht b) key value mem).chain) := by
  obtain ⟨hinv, hnodes⟩ := storedFields_iff.mp h
  refine storedFields_iff.mpr ⟨(writeChain_changes _ _ _ _).tableInv hinv hb,
    hnodes.writeChain b ⟨hk, fun v hval => ?_⟩⟩
  split_ifs at hval
  exact Option.some.inj hval ▸ hv

theorem StoredFields.deleteChain (h : StoredFields ht) (hb : bucketOf key = .ok b) :
    StoredFields (update ht b (deleteChain (ht b) key).chain) := by
  obtain ⟨hinv, hnodes⟩ := storedFields_iff.mp h
  exact storedFields_iff.mpr ⟨(deleteChain_changes _ _).tableInv hinv hb,
    hnodes.deleteChain b key⟩

end Chains

/-- A command of fields keeps the table one of fields. -/
theorem StoredFields.exec {c : Command} {ht ht' : HashTable} {out : Except Fault (List UInt8)}
    (h : StoredFields ht) (hc : FieldsOnly c) (he : Exec c ht out ht') : StoredFields ht' := by
  cases he with
  | write sorted hq hw =>
    refine kvsWrite_keeps (fun ht p hp b hb hs => ?_) h hw
    have hp' := hc p.1 (hq.1.mem_iff.mp (List.mem_map_of_mem hp))
    exact hs.writeChain hb hp'.1 hp'.2 p.2
  | read => exact h
  | delete sorted hq hd => exact kvsDelete_keeps (fun ht key _ b hb hs => hs.deleteChain hb) h hd
  | showAll => exact h

/-- The tables after WRITE and DELETE commands that the parser accepts, on keys with a bucket. -/
inductive Reachable : HashTable → Prop
  | create : Reachable createHashTable
  | exec {c : Command} {ht ht' : HashTable} {out : Except Fault (List UInt8)}
      (h : Reachable ht) (hc : Accepted c) (hk : ∀ key ∈ c.keys, key.startsAlnum = true)
      (he : Exec c ht out ht') : Reachable ht'

theorem Reachable.storedFields {ht : HashTable} (h : Reachable ht) : StoredFields ht := by
  induction h with
  | create => exact storedFields_create
  | exec _ hc _ he ih => exact ih.exec hc.fieldsOnly he

/-! ### The text of pairs -/

/-- `(key,value)` with what stands after the comma and after the parenthesis. -/
def itemText (gap tail : List UInt8) (p : List UInt8 × List UInt8) : List UInt8 :=
  byte '(' :: (p.1 ++ byte ',' :: (gap ++ (p.2 ++ byte ')' :: tail)))

/-- Reads at most `n` pairs off the front of a text, by the lengths of the gap and the tail. -/
def readItems (gap tail : ℕ) : ℕ → List UInt8 → List (List UInt8 × List UInt8)
  | n + 1, ch :: s =>
    if ch = byte '(' then
      let key := s.takeWhile fun b => decide (b ≠ byte ',')
      let s := s.drop (key.length + 1 + gap)
      let value := s.takeWhile fun b => decide (b ≠ byte ')')
      (key, value) :: readItems gap tail n (s.drop (value.length + 1 + tail))
    else []
  | _, _ => []

/-- The strings of the pairs. -/
def decodeItems (gap tail : ℕ) (s : List UInt8) : List (CStr × CStr) :=
  (readItems gap tail s.length s).map fun p => (CStr.ofBuffer p.1, CStr.ofBuffer p.2)

/-- A text up to the first occurrence of a byte. -/
theorem takeWhile_stop {k : List UInt8} {ch : UInt8} (h : ch ∉ k) (s : List UInt8) :
    (k ++ ch :: s).takeWhile (fun b => decide (b ≠ ch)) = k := by
  have hall : ∀ b ∈ k, decide (b ≠ ch) = true := by
    intro b hb
    simp only [decide_eq_true_eq]
    rintro rfl
    exact h hb
  rw [List.takeWhile_append_of_pos hall]
  simp

/-- What is left after a text, one byte and a gap. -/
theorem drop_past (k gap s : List UInt8) (ch : UInt8) :
    (k ++ ch :: (gap ++ s)).drop (k.length + 1 + gap.length) = s := by
  have hlen : k.length + 1 + gap.length = (k ++ ch :: gap).length := by
    simp only [List.length_append, List.length_cons]
    omega
  have htext : k ++ ch :: (gap ++ s) = (k ++ ch :: gap) ++ s := by simp
  rw [hlen, htext, List.drop_left]

theorem readItems_items (gap tail : List UInt8) {items : List (List UInt8 × List UInt8)}
    (h : ∀ p ∈ items, byte ',' ∉ p.1 ∧ byte ')' ∉ p.2) {rest : List UInt8}
    (hrest : ∀ s, rest ≠ byte '(' :: s) {n : ℕ} (hn : items.length ≤ n) :
    readItems gap.length tail.length n (items.flatMap (itemText gap tail) ++ rest) = items := by
  induction items generalizing n with
  | nil =>
    rw [List.flatMap_nil, List.nil_append]
    cases n with
    | zero => rfl
    | succ n =>
      cases rest with
      | nil => rfl
      | cons ch s =>
        have hch : ch ≠ byte '(' := fun he => hrest s (by rw [he])
        rw [readItems, if_neg hch]
  | cons p items ih =>
    obtain ⟨hkey, hvalue⟩ := h p List.mem_cons_self
    obtain ⟨m, rfl⟩ : ∃ m, n = m + 1 := ⟨n - 1, by rw [List.length_cons] at hn; omega⟩
    have htext : (p :: items).flatMap (itemText gap tail) ++ rest =
        byte '(' :: (p.1 ++ byte ',' :: (gap ++ (p.2 ++ byte ')' ::
          (tail ++ (items.flatMap (itemText gap tail) ++ rest))))) := by
      simp [itemText]
    have hitems := ih (fun q hq => h q (List.mem_cons_of_mem _ hq))
      (n := m) (by rw [List.length_cons] at hn; omega)
    rw [htext, readItems, if_pos rfl]
    simp only [takeWhile_stop hkey, drop_past, takeWhile_stop hvalue, hitems]

theorem ofBuffer_bytes (s : CStr) : CStr.ofBuffer s.bytes = s := by
  apply CStr.ext_bytes
  exact List.takeWhile_eq_self_iff.mpr CStr.ne_zero_of_mem

theorem length_le_flatMap {A : Type*} {f : A → List UInt8} (hf : ∀ x, 0 < (f x).length)
    (xs : List A) : xs.length ≤ (xs.flatMap f).length := by
  induction xs with
  | nil => exact Nat.le_refl _
  | cons x xs ih =>
    have hx := hf x
    rw [List.flatMap_cons, List.length_append, List.length_cons]
    omega

/-- Pairs of strings are read back from their text. -/
theorem decodeItems_text (gap tail : List UInt8) {pairs : List (CStr × CStr)}
    (h : ∀ p ∈ pairs, byte ',' ∉ p.1.bytes ∧ byte ')' ∉ p.2.bytes) {rest : List UInt8}
    (hrest : ∀ s, rest ≠ byte '(' :: s) :
    decodeItems gap.length tail.length
      (pairs.flatMap (fun p => itemText gap tail (p.1.bytes, p.2.bytes)) ++ rest) = pairs := by
  have hmap : pairs.flatMap (fun p => itemText gap tail (p.1.bytes, p.2.bytes)) =
      (pairs.map fun p => (p.1.bytes, p.2.bytes)).flatMap (itemText gap tail) := by
    rw [List.flatMap_map]
  have hlen : (pairs.map fun p => (p.1.bytes, p.2.bytes)).length ≤
      ((pairs.map fun p => (p.1.bytes, p.2.bytes)).flatMap (itemText gap tail) ++ rest).length := by
    rw [List.length_append]
    exact (length_le_flatMap (fun p => by simp [itemText]) _).trans (Nat.le_add_right _ _)
  rw [decodeItems, hmap, readItems_items gap tail ?_ hrest hlen, List.map_map]
  · refine (List.map_congr_left fun p _ => ?_).trans (List.map_id pairs)
    simp [ofBuffer_bytes]
  · intro q hq
    obtain ⟨p, hp, rfl⟩ := List.mem_map.mp hq
    exact h p hp

/-! ### SHOW -/

/-- The pairs of the table in the order of its buckets and chains. -/
def storedPairs (ht : HashTable) : List (CStr × CStr) :=
  (nodes ht).filterMap fun n => n.value.map fun v => (n.key, v)

/-- The pairs that a listing shows. -/
def decodeShow (out : List UInt8) : List (CStr × CStr) := decodeItems 1 1 out

theorem mem_storedPairs {ht : HashTable} {p : CStr × CStr} :
    p ∈ storedPairs ht ↔ ∃ b, ∃ n ∈ ht b, n.key = p.1 ∧ n.value = some p.2 := by
  simp only [storedPairs, List.mem_filterMap, mem_nodes, Option.map_eq_some_iff]
  constructor
  · rintro ⟨n, ⟨b, hn⟩, v, hv, rfl⟩
    exact ⟨b, n, hn, rfl, hv⟩
  · rintro ⟨b, n, hn, hk, hv⟩
    exact ⟨n, ⟨b, hn⟩, p.2, hv, by rw [hk]⟩

theorem nodup_storedPairs {ht : HashTable} (h : TableInv ht) :
    ((storedPairs ht).map Prod.fst).Nodup := by
  have hsub : ((storedPairs ht).map Prod.fst).Sublist ((nodes ht).map KeyNode.key) := by
    rw [storedPairs, List.map_filterMap]
    generalize nodes ht = ns
    induction ns with
    | nil => exact List.Sublist.slnil
    | cons n ns ih =>
      cases hv : n.value with
      | none => simpa [hv] using ih.cons n.key
      | some v => simpa [hv] using ih.cons_cons n.key
  exact h.nodup_nodes.sublist hsub

/-- The pairs are those that `read_pair` finds. -/
theorem mem_storedPairs_iff_read {ht : HashTable} (h : TableInv ht) (key value : CStr) :
    (key, value) ∈ storedPairs ht ↔ readPair ht key true = .ok (some value) := by
  rw [mem_storedPairs]
  constructor
  · rintro ⟨b, n, hn, rfl, hv⟩
    have hfind := Chain.lookup_of_mem (h.unique b) hn
    rw [← findNode_eq] at hfind
    rw [readPair_eq (bucketOf_of_hash (h.placed b n hn)), readChain, hfind]
    dsimp only at hv ⊢
    rw [hv]
    rfl
  · intro hr
    cases hb : bucketOf key with
    | error e => rw [readPair, hb] at hr; cases hr
    | ok b =>
      rw [readPair_eq hb, readChain] at hr
      cases hf : findNode key (ht b) with
      | none => rw [hf] at hr; cases hr
      | some n =>
        have hmem : n ∈ ht b := by
          rw [findNode_eq] at hf
          exact Chain.mem_of_lookup hf
        rw [hf] at hr
        cases hv : n.value with
        | none => simp [hv] at hr
        | some v =>
          simp only [hv, if_true, Except.ok.injEq, Option.some.injEq] at hr
          exact ⟨b, n, hmem, key_of_findNode hf, by rw [hv, hr]⟩

/-- The line of a stored pair fits into the buffer. -/
theorem showItem_of_isField {key value : CStr} (hk : IsField key.bytes)
    (hv : IsField value.bytes) :
    showItem key value = itemText [byte ' '] [byte '\n'] (key.bytes, value.bytes) := by
  have hlen := length_pairLine key value
  have hkl := hk.fits
  have hvl := hv.fits
  simp only [CStr.length, maxStringSize] at hlen hkl hvl
  rw [showItem_eq, List.take_of_length_le (by omega)]
  simp [pairLine, itemText, chars, byte]

/-- The listing is the text of the stored pairs. -/
theorem flatMap_printed {ht : HashTable} (h : StoredFields ht) :
    (nodes ht).flatMap (printed showItem) = (storedPairs ht).flatMap fun p =>
      itemText [byte ' '] [byte '\n'] (p.1.bytes, p.2.bytes) := by
  have hnodes : ∀ n ∈ nodes ht, IsField n.key.bytes ∧ ∀ v, n.value = some v → IsField v.bytes := by
    intro n hn
    obtain ⟨b, hn⟩ := mem_nodes.mp hn
    exact ⟨h.key b n hn, h.value b n hn⟩
  rw [storedPairs]
  generalize nodes ht = ns at hnodes
  induction ns with
  | nil => rfl
  | cons n ns ih =>
    obtain ⟨hk, hv⟩ := hnodes n List.mem_cons_self
    have hns := ih fun m hm => hnodes m (List.mem_cons_of_mem _ hm)
    cases hval : n.value with
    | none => simpa [printed, hval] using hns
    | some v => simpa [printed, hval, showItem_of_isField hk (hv v hval)] using hns

theorem decodeShow_eq {ht : HashTable} (h : Reachable ht) {out : List UInt8}
    (hout : kvsShow ht = .ok out) : decodeShow out = storedPairs ht := by
  have hs := h.storedFields
  rw [kvsShow_eq] at hout
  split_ifs at hout
  obtain rfl := Except.ok.inj hout
  rw [flatMap_printed hs]
  have hfields : ∀ p ∈ storedPairs ht, byte ',' ∉ p.1.bytes ∧ byte ')' ∉ p.2.bytes := by
    intro p hp
    obtain ⟨b, n, hn, hk, hv⟩ := mem_storedPairs.mp hp
    rw [← hk]
    exact ⟨fun hm => ((hs.key b n hn).plain _ hm).2.1 rfl,
      fun hm => ((hs.value b n hn _ hv).plain _ hm).2.2.1 rfl⟩
  have hend : ∀ s, ([] : List UInt8) ≠ byte '(' :: s := nofun
  have htext := decodeItems_text [byte ' '] [byte '\n'] hfields hend
  rwa [List.append_nil] at htext

/-- The output shows each stored pair once, whole and in table order, and can be read back. -/
structure Shows (ht : HashTable) (out : List UInt8) : Prop where
  once : ((storedPairs ht).map Prod.fst).Nodup
  stored : ∀ key value, (key, value) ∈ storedPairs ht ↔ readPair ht key true = .ok (some value)
  whole : out = (storedPairs ht).flatMap fun p => pairLine p.1 p.2
  decoded : decodeShow out = storedPairs ht
  determines : ∀ ht', Reachable ht' → kvsShow ht' = .ok out → storedPairs ht' = storedPairs ht

theorem Reachable.shows {ht : HashTable} (h : Reachable ht) {out : List UInt8}
    (hout : kvsShow ht = .ok out) : Shows ht out where
  once := nodup_storedPairs h.storedFields.table
  stored := mem_storedPairs_iff_read h.storedFields.table
  whole := by
    rw [kvsShow_eq] at hout
    split_ifs at hout
    obtain rfl := Except.ok.inj hout
    rw [flatMap_printed h.storedFields]
    exact List.flatMap_congr fun p _ => by simp [pairLine, itemText, chars, byte]
  decoded := decodeShow_eq h hout
  determines ht' h' hout' := by rw [← decodeShow_eq h' hout', decodeShow_eq h hout]

/-- A table that commands left can be read back from its listing exactly when no value in it was
lost to a failed copy. -/
theorem show_decodes_iff {ht : HashTable} (h : Reachable ht) :
    (∃ out, kvsShow ht = .ok out ∧ Shows ht out) ↔ ∀ n ∈ nodes ht, ¬ Valueless n := by
  constructor
  · rintro ⟨out, hout, -⟩ n hn hlost
    rw [kvsShow_eq, if_pos ⟨n, hn, hlost⟩] at hout
    cases hout
  · intro hkept
    have hout := kvsShow_eq ht
    rw [if_neg fun ⟨n, hn, hlost⟩ => hkept n hn hlost] at hout
    exact ⟨_, hout, h.shows hout⟩

/-- Two keys, and a value that looks like the end of a line and the start of another. -/
def listedJob : List UInt8 :=
  chars ['W', 'R', 'I', 'T', 'E', ' ', '[', '(', 'a', ',', '\n', '(', 'b', ')', '(', 'c', ',', '1',
    ')', ']', '\n']

theorem show_decodes_listedJob :
    ∃ ht out, Reachable ht ∧ kvsShow ht = .ok out ∧ decodeShow out = storedPairs ht ∧
      (storedPairs ht).map (fun p => p.2.bytes) = [chars ['\n', '(', 'b'], chars ['1']] := by
  let pairs : List (CStr × CStr) :=
    [(⟨chars ['a'], by decide⟩, ⟨chars ['\n', '(', 'b'], by decide⟩),
      (⟨chars ['c'], by decide⟩, ⟨chars ['1'], by decide⟩)]
  have haccepted : Accepted (.write pairs) := ⟨[], listedJob, [], by rfl⟩
  have hexec : Exec (.write pairs) createHashTable (.ok []) _ :=
    .write (pairs.map fun p => (p, .ok)) ⟨List.Perm.refl _, by decide⟩ rfl
  have hreach := Reachable.create.exec haccepted (by decide) hexec
  obtain ⟨out, hout, hshows⟩ := (show_decodes_iff hreach).mpr (by decide)
  exact ⟨_, out, hreach, hout, hshows.decoded, rfl⟩

/-- `WRITE [(a,1)]` -/
def rewrittenJob : List UInt8 :=
  chars ['W', 'R', 'I', 'T', 'E', ' ', '[', '(', 'a', ',', '1', ')', ']', '\n']

def rewritten : CStr × CStr := (.ofBuffer (chars ['a']), .ofBuffer (chars ['1']))

/-- The same pair is written twice, and the second copy of its value fails. -/
theorem show_lostValue :
    ∃ ht ht', Reachable ht ∧ Reachable ht' ∧
      kvsWrite createHashTable [(rewritten, .ok)] = .ok ht ∧
      kvsWrite ht [(rewritten, ⟨true, true, false⟩)] = .ok ht' ∧
      ¬ ∃ out, kvsShow ht' = .ok out ∧ Shows ht' out := by
  have haccepted : Accepted (.write [rewritten]) := ⟨[], rewrittenJob, [], by rfl⟩
  have hq : ∀ mem : WriteMem, QsortResult comparePairs [rewritten] ([(rewritten, mem)].map Prod.fst) :=
    fun _ => ⟨List.Perm.refl _, List.pairwise_singleton _ _⟩
  obtain ⟨ht, hfirst⟩ : ∃ ht, kvsWrite createHashTable [(rewritten, .ok)] = .ok ht := ⟨_, rfl⟩
  obtain ⟨ht', hsecond⟩ : ∃ ht', kvsWrite ht [(rewritten, ⟨true, true, false⟩)] = .ok ht' :=
    ⟨_, rfl⟩
  have hreach := Reachable.create.exec haccepted (by decide) (.write _ (hq _) hfirst)
  refine ⟨ht, ht', hreach, hreach.exec haccepted (by decide) (.write _ (hq _) hsecond), hfirst,
    hsecond, ?_⟩
  rintro ⟨out, hout, -⟩
  cases hfirst
  cases hsecond
  cases hout

end IstKvs.Jobs
