import IstKvs.Jobs.Interpreter
import IstKvs.Jobs.Printer
import IstKvs.Store.KeyLists
import IstKvs.Store.Serial
import IstKvs.Systems.Buckets

/-! What the lines of a job file mean on a list of bindings, the newest first: no hash
table, no locks, no parser and no limits of buffers. The loops over the files of any
number of jobs do exactly what their lines mean, in whatever order they take turns. -/

namespace IstKvs.Jobs

open IstKvs.Store IstKvs.Systems IstKvs.Backups Function

/-! ### Bindings -/

structure Binding where
  key : Token
  value : Token
  subscribers : List Fd

abbrev Bindings := List Binding

def Binding.name (n : Binding) : CStr := n.key.toCStr

def Binding.setValue (value : Token) (n : Binding) : Binding := { n with value := value }

theorem Binding.name_setValue (value : Token) (n : Binding) :
    (n.setValue value).name = n.name := rfl

def find (key : CStr) (bs : Bindings) : Option Binding := Chain.lookup Binding.name key bs

/-- What the subscribers of a key get when its value changes. -/
def notices (bs : Bindings) (key value : CStr) : List Message :=
  ((find key bs).map fun n => n.subscribers.map fun fd => ⟨fd, key, value⟩).getD []

/-- A new key is bound in front of all others; an old one keeps its place and its subscribers. -/
def putPair (bs : Bindings) (p : Token × Token) : Bindings :=
  Chain.put Binding.name ⟨p.1, p.2, []⟩ (Binding.setValue p.2) bs

def dropKey (bs : Bindings) (key : CStr) : Bindings := Chain.unlink Binding.name key bs

/-- The bindings in the order of the buckets, the newest of a bucket first. -/
def shown (bs : Bindings) : Bindings :=
  (List.finRange tableSize).flatMap (Buckets.split Binding.name bucketIndex bs)

/-! ### Lines -/

def pairStrs (p : Token × Token) : CStr × CStr := (p.1.toCStr, p.2.toCStr)

def sortPairs (pairs : List (Token × Token)) : List (Token × Token) :=
  pairs.mergeSort fun a b => decide (comparePairs (pairStrs a) (pairStrs b) ≤ 0)

def sortKeys (keys : List Token) : List Token :=
  keys.mergeSort fun a b => decide (compareKeys a.toCStr b.toCStr ≤ 0)

def writeStep (x : Bindings × List Message) (p : Token × Token) : Bindings × List Message :=
  (putPair x.1 p, x.2 ++ notices x.1 p.1.toCStr p.2.toCStr)

def writePairs (bs : Bindings) (pairs : List (Token × Token)) : Bindings × List Message :=
  pairs.foldl writeStep (bs, [])

/-- A key and its value, or `KVSERROR` in place of the value. -/
def readKey (bs : Bindings) (key : Token) : List UInt8 :=
  Store.pairText key.bytes (((find key.toCStr bs).map fun n => n.value.bytes).getD errorWord)

/-- The bindings that are left, the keys that were missing, and what was sent. -/
structure Deletion where
  bindings : Bindings
  missing : List CStr
  sent : List Message

def Deletion.step (x : Deletion) (key : Token) : Deletion where
  bindings := dropKey x.bindings key.toCStr
  missing := if (find key.toCStr x.bindings).isSome then x.missing else x.missing ++ [key.toCStr]
  sent := x.sent ++ notices x.bindings key.toCStr deleteValue

def deleteKeys (bs : Bindings) (keys : List Token) : Deletion :=
  keys.foldl Deletion.step ⟨bs, [], []⟩

def Binding.line (n : Binding) : List UInt8 := pairLine n.name n.value.toCStr

/-- What a line does. A line of a backup is cut off at 39 bytes. -/
def Line.meaning (bs : Bindings) : Line → Effect Bindings
  | .write pairs _ _ =>
    { Effect.none (writePairs bs (sortPairs pairs)).1 with
      sent := (writePairs bs (sortPairs pairs)).2 }
  | .read keys _ _ =>
    { Effect.none bs with out := openList ++ (sortKeys keys).flatMap (readKey bs) ++ closeList }
  | .delete keys _ _ =>
    let d := deleteKeys bs (sortKeys keys)
    { Effect.none d.bindings with out := missingText d.missing, sent := d.sent }
  | .wait digits .. =>
    { Effect.none bs with out := if digitsValue digits > 0 then waiting else [] }
  | .showAll => { Effect.none bs with out := (shown bs).flatMap Binding.line }
  | .backup => { Effect.none bs with
      backup := some (.ok ((shown bs).flatMap fun n => n.line.take (maxStringSize - 1))) }
  | .help => { Effect.none bs with stdout := helpText }
  | .comment .. | .empty => .none bs

/-- All keys have buckets, and a WRITE has no two values for one key. -/
def Line.Sound : Line → Prop
  | .write pairs _ _ => (∀ p ∈ pairs, p.1.startsAlnum = true) ∧
      ∀ p ∈ pairs, ∀ q ∈ pairs, p.1.toCStr = q.1.toCStr → p.2.toCStr = q.2.toCStr
  | .read keys _ _ | .delete keys _ _ => ∀ key ∈ keys, key.startsAlnum = true
  | _ => True

structure Statement where
  line : Line
  sound : line.Sound

/-! ### The table of a list of bindings -/

def Binding.node (n : Binding) : KeyNode := ⟨n.name, some n.value.toCStr, n.subscribers⟩

theorem Binding.node_key (n : Binding) : n.node.key = n.name := rfl

def tableOf (bs : Bindings) : HashTable :=
  fun b => (Buckets.split Binding.name bucketIndex bs b).map Binding.node

theorem Token.length_lt (k : Token) : k.toCStr.length < maxStringSize := k.isField.fits

section Table
variable {bs : Bindings} {key : CStr} {b : Bucket}

theorem findNode_tableOf (bs : Bindings) (hb : bucketOf key = .ok b) :
    findNode key (tableOf bs b) = (find key bs).map Binding.node := by
  obtain rfl := bucketIndex_eq hb
  rw [findNode_eq, tableOf, Chain.lookup_map Binding.node_key, Buckets.lookup_split]
  rfl

theorem contents_tableOf (bs : Bindings) (hk : key.startsAlnum = true) :
    contents (tableOf bs) key = (find key bs).map fun n => some n.value.toCStr := by
  obtain ⟨b, hb⟩ := bucketOf_eq_ok_iff.mpr hk
  rw [contents, nodeOf_eq hb, findNode_tableOf bs hb, Option.map_map]
  rfl

/-- Other bindings in the bucket of a key are another chain in that bucket. -/
theorem tableOf_update {bs' c : Bindings} (hb : bucketOf key = .ok b)
    (h : Buckets.split Binding.name bucketIndex bs' =
      update (Buckets.split Binding.name bucketIndex bs) (bucketIndex key) c) :
    tableOf bs' = update (tableOf bs) b (c.map Binding.node) := by
  obtain rfl := bucketIndex_eq hb
  funext b
  rw [tableOf, h]
  by_cases he : b = bucketIndex key
  · rw [he, update_self, update_self]
  · rw [update_of_ne he, update_of_ne he]
    rfl

theorem writePair_tableOf (p : Token × Token) (hk : p.1.startsAlnum = true) :
    writePair (tableOf bs) p.1.toCStr p.2.toCStr .ok =
      .ok (tableOf (putPair bs p), 0, notices bs p.1.toCStr p.2.toCStr) := by
  obtain ⟨b, hb⟩ := bucketOf_eq_ok_iff.mpr hk
  have hfind := findNode_tableOf bs hb
  obtain hbucket := bucketIndex_eq hb
  cases hf : find p.1.toCStr bs with
  | none =>
    have hput : putPair bs p = ⟨p.1, p.2, []⟩ :: bs := Chain.put_of_none hf
    have htable := tableOf_update hb ((congrArg _ hput).trans (Buckets.split_cons _ bs))
    rw [writePair_eq hb, writeChain, hfind, hf, notices, hf, htable, ← hbucket]
    rfl
  | some n =>
    have hput : putPair bs p = Chain.modify Binding.name p.1.toCStr (Binding.setValue p.2) bs :=
      Chain.put_of_some hf
    have htable := tableOf_update hb ((congrArg _ hput).trans
      (Buckets.split_modify (Binding.name_setValue p.2) p.1.toCStr bs))
    rw [writePair_eq hb, writeChain, hfind, hf, notices, hf, htable, ← hbucket]
    have hnode : ∀ m : Binding, { m.node with value := some p.2.toCStr } =
        (m.setValue p.2).node := fun _ => rfl
    simp only [Option.map_some, WriteMem.ok, if_true, updateNode_eq, tableOf]
    rw [Chain.modify_map Binding.node_key hnode]
    rfl

theorem deletePair_tableOf (hk : key.startsAlnum = true) :
    deletePair (tableOf bs) key = .ok (tableOf (dropKey bs key),
      if (find key bs).isSome then 0 else 1, notices bs key deleteValue) := by
  obtain ⟨b, hb⟩ := bucketOf_eq_ok_iff.mpr hk
  have hfind := findNode_tableOf bs hb
  obtain hbucket := bucketIndex_eq hb
  have htable := tableOf_update hb (Buckets.split_unlink key bs)
  cases hf : find key bs with
  | none =>
    have hdrop : dropKey bs key = bs := Chain.unlink_of_none hf
    rw [deletePair_eq hb, deleteChain, hfind, hf, notices, hf, hdrop]
    simp
  | some n =>
    rw [deletePair_eq hb, deleteChain, hfind, hf, notices, hf, dropKey, htable, ← hbucket]
    simp only [Option.map_some, unlinkNode_eq, tableOf]
    rw [Chain.unlink_map Binding.node_key]
    rfl

end Table

/-! ### Sorting -/

/-- There is one sorted order when equal keys have equal values. -/
theorem qsortResult_unique {A : Type} {compare : A → A → ℤ} {xs ys zs : List A}
    (hanti : ∀ a ∈ xs, ∀ b ∈ xs, compare a b ≤ 0 → compare b a ≤ 0 → a = b)
    (hy : QsortResult compare xs ys) (hz : QsortResult compare xs zs) : ys = zs := by
  refine List.Perm.eq_of_pairwise (fun a b ha hb => ?_) hy.2 hz.2 (hy.1.trans hz.1.symm)
  exact hanti a (hy.1.mem_iff.mp ha) b (hz.1.mem_iff.mp hb)

theorem eq_of_strcmp {s t : CStr} (h : strcmp s t ≤ 0) (h' : strcmp t s ≤ 0) : s = t := by
  rw [strcmp_swap s t] at h'
  exact strcmp_eq_zero.mp (by omega)

/-- Sorting before a map that the comparison looks through. -/
theorem qsortResult_map {A B : Type} {c : B → B → ℤ} (f : A → B)
    (htotal : ∀ a b, c a b ≤ 0 ∨ c b a ≤ 0)
    (htrans : ∀ x y z, c x y ≤ 0 → c y z ≤ 0 → c x z ≤ 0) (xs : List A) :
    QsortResult c (xs.map f)
      ((xs.mergeSort fun a b => decide (c (f a) (f b) ≤ 0)).map f) := by
  refine ⟨(List.mergeSort_perm ..).map _, List.pairwise_map.mpr ?_⟩
  have h : (xs.mergeSort fun a b => decide (c (f a) (f b) ≤ 0)).Pairwise
      fun a b => decide (c (f a) (f b) ≤ 0) = true := by
    refine List.pairwise_mergeSort (fun x y z hxy hyz => ?_) (fun a b => ?_) xs
    · exact decide_eq_true (htrans _ _ _ (of_decide_eq_true hxy) (of_decide_eq_true hyz))
    · simpa using htotal (f a) (f b)
  exact h.imp of_decide_eq_true

theorem qsortResult_sortPairs (pairs : List (Token × Token)) :
    QsortResult comparePairs (pairs.map pairStrs) ((sortPairs pairs).map pairStrs) :=
  qsortResult_map (c := comparePairs) pairStrs (fun a b => strcmp_total a.1 b.1)
    (fun _ _ _ => strcmp_trans) pairs

theorem qsortResult_sortKeys (keys : List Token) :
    QsortResult compareKeys (keys.map Token.toCStr) ((sortKeys keys).map Token.toCStr) :=
  qsortResult_map (c := compareKeys) Token.toCStr strcmp_total (fun _ _ _ => strcmp_trans) keys

theorem mem_sortPairs {pairs : List (Token × Token)} {p : Token × Token} :
    p ∈ sortPairs pairs ↔ p ∈ pairs := (List.mergeSort_perm ..).mem_iff

theorem mem_sortKeys {keys : List Token} {key : Token} : key ∈ sortKeys keys ↔ key ∈ keys :=
  (List.mergeSort_perm ..).mem_iff

/-- READ and DELETE have one sorted order. -/
theorem eq_sortKeys {keys : List Token} {sorted : List CStr}
    (h : QsortResult compareKeys (keys.map Token.toCStr) sorted) :
    sorted = (sortKeys keys).map Token.toCStr :=
  qsortResult_unique (fun _ _ _ _ => eq_of_strcmp) h (qsortResult_sortKeys keys)

theorem eq_sortPairs {pairs : List (Token × Token)} {sorted : List (CStr × CStr)}
    (hv : ∀ p ∈ pairs, ∀ q ∈ pairs, p.1.toCStr = q.1.toCStr → p.2.toCStr = q.2.toCStr)
    (h : QsortResult comparePairs (pairs.map pairStrs) sorted) :
    sorted = (sortPairs pairs).map pairStrs := by
  refine qsortResult_unique (fun a ha b hb hab hba => ?_) h (qsortResult_sortPairs pairs)
  obtain ⟨p, hp, rfl⟩ := List.mem_map.mp ha
  obtain ⟨q, hq, rfl⟩ := List.mem_map.mp hb
  have hkey : p.1.toCStr = q.1.toCStr := eq_of_strcmp hab hba
  exact Prod.ext hkey (hv p hp q hq hkey)

/-! ### The loops of the commands -/

section Loops
variable (bs : Bindings)

theorem foldlM_writeSends {pairs : List (Token × Token)}
    (hk : ∀ p ∈ pairs, p.1.startsAlnum = true) (x : Bindings × List Message) :
    (allocated (pairs.map pairStrs)).foldlM writeSends (tableOf x.1, x.2) =
      .ok (tableOf (pairs.foldl writeStep x).1, (pairs.foldl writeStep x).2) := by
  induction pairs generalizing x with
  | nil => rfl
  | cons p pairs ih =>
    have hstep : writeSends (tableOf x.1, x.2) (pairStrs p, .ok) =
        .ok (tableOf (writeStep x p).1, (writeStep x p).2) := by
      rw [writeSends, pairStrs, writePair_tableOf p (hk p List.mem_cons_self)]
      rfl
    rw [List.map_cons, allocated, List.map_cons, List.foldlM_cons, hstep, List.foldl_cons]
    exact ih (x := writeStep x p) (fun q hq => hk q (List.mem_cons_of_mem _ hq))

theorem kvsWriteSends_tableOf {pairs : List (Token × Token)}
    (hk : ∀ p ∈ pairs, p.1.startsAlnum = true) :
    kvsWriteSends (tableOf bs) (allocated (pairs.map pairStrs)) =
      .ok (tableOf (writePairs bs pairs).1, (writePairs bs pairs).2) := by
  have hkeys : ∀ key ∈ (allocated (pairs.map pairStrs)).map (fun p => p.1.1),
      key.startsAlnum = true := by
    intro key hkey
    simp only [allocated, List.map_map, List.mem_map, Function.comp_apply] at hkey
    obtain ⟨p, hp, rfl⟩ := hkey
    exact hk p hp
  obtain ⟨l, hl⟩ := lockList_ok (fun _ => false) _ hkeys
  rw [kvsWriteSends, lockWriteList, hl]
  exact foldlM_writeSends hk (bs, [])

theorem foldlM_deleteSends {keys : List Token} (hk : ∀ key ∈ keys, key.startsAlnum = true)
    (x : Deletion) :
    (keys.map Token.toCStr).foldlM deleteSends
        ((tableOf x.bindings, x.missing.foldl noteMissing ⟨[], false⟩), x.sent) =
      .ok ((tableOf (keys.foldl Deletion.step x).bindings,
        (keys.foldl Deletion.step x).missing.foldl noteMissing ⟨[], false⟩),
        (keys.foldl Deletion.step x).sent) := by
  induction keys generalizing x with
  | nil => rfl
  | cons key keys ih =>
    have hstep : deleteSends ((tableOf x.bindings, x.missing.foldl noteMissing ⟨[], false⟩), x.sent)
        key.toCStr = .ok ((tableOf (x.step key).bindings,
          (x.step key).missing.foldl noteMissing ⟨[], false⟩), (x.step key).sent) := by
      rw [deleteSends, deletePair_tableOf (hk key List.mem_cons_self)]
      simp only [Deletion.step]
      cases find key.toCStr x.bindings <;> simp [List.foldl_append]
    rw [List.map_cons, List.foldlM_cons, hstep, List.foldl_cons]
    exact ih (fun k hk' => hk k (List.mem_cons_of_mem _ hk')) _

theorem missing_deleteKeys (keys : List Token) :
    ∀ key ∈ (deleteKeys bs keys).missing, key.length < maxStringSize := by
  have hstep : ∀ (keys : List Token) (x : Deletion),
      (∀ key ∈ x.missing, key.length < maxStringSize) →
      ∀ key ∈ (keys.foldl Deletion.step x).missing, key.length < maxStringSize := by
    intro keys
    induction keys with
    | nil => exact fun x hx => hx
    | cons key keys ih =>
      intro x hx
      refine ih _ fun k hk => ?_
      simp only [Deletion.step] at hk
      split_ifs at hk
      · exact hx k hk
      · rcases List.mem_append.mp hk with hk | hk
        · exact hx k hk
        · rw [List.mem_singleton.mp hk]
          exact key.length_lt
  exact hstep keys _ fun _ h => absurd h List.not_mem_nil

theorem kvsDeleteSends_tableOf {keys : List Token} (hk : ∀ key ∈ keys, key.startsAlnum = true) :
    kvsDeleteSends (tableOf bs) (keys.map Token.toCStr) =
      .ok (tableOf (deleteKeys bs keys).bindings, missingText (deleteKeys bs keys).missing,
        (deleteKeys bs keys).sent) := by
  obtain ⟨l, hl⟩ := lockList_ok (fun _ => false) (keys.map Token.toCStr)
    (List.forall_mem_map.mpr hk)
  have hloop := foldlM_deleteSends hk ⟨bs, [], []⟩
  rw [kvsDeleteSends, lockWriteList, hl, ← closeMissing_eq (missing_deleteKeys bs keys)]
  change ((keys.map Token.toCStr).foldlM deleteSends ((tableOf bs, ⟨[], false⟩), []) >>= _) = _
  simp only [List.foldl_nil] at hloop
  rw [hloop]
  rfl

theorem readItem_tableOf {key : Token} (hk : key.startsAlnum = true) :
    readItem key.toCStr (readResult (tableOf bs) (key.toCStr, true)) = readKey bs key := by
  have hresult : readResult (tableOf bs) (key.toCStr, true) =
      (find key.toCStr bs).map fun n => n.value.toCStr := by
    rw [readResult, if_pos rfl, contents_tableOf bs hk]
    cases find key.toCStr bs <;> rfl
  rw [hresult, readItem_fits key.length_lt, readKey, Option.map_map]
  · rfl
  · intro v hv
    obtain ⟨n, -, rfl⟩ := Option.map_eq_some_iff.mp hv
    exact n.value.length_lt

theorem kvsRead_tableOf {keys : List Token} (hk : ∀ key ∈ keys, key.startsAlnum = true) :
    kvsRead (tableOf bs) ((keys.map Token.toCStr).map fun key => (key, true)) =
      .ok (openList ++ keys.flatMap (readKey bs) ++ closeList) := by
  have hvalues : ¬ ∃ x ∈ (keys.map Token.toCStr).map fun key => (key, true),
      contents (tableOf bs) x.1 = some none := by
    rintro ⟨x, hx, hnull⟩
    simp only [List.map_map, List.mem_map, Function.comp_apply] at hx
    obtain ⟨key, hkey, rfl⟩ := hx
    rw [contents_tableOf bs (hk key hkey)] at hnull
    obtain ⟨n, -, hn⟩ := Option.map_eq_some_iff.mp hnull
    cases hn
  rw [kvsRead_eq_items, if_neg hvalues, List.map_map, List.flatMap_map]
  · congr 3
    exact List.flatMap_congr fun key hkey => readItem_tableOf bs (hk key hkey)
  · intro x hx
    simp only [List.map_map, List.mem_map, Function.comp_apply] at hx
    obtain ⟨key, hkey, rfl⟩ := hx
    exact hk key hkey

theorem nodes_tableOf : nodes (tableOf bs) = (shown bs).map Binding.node := by
  rw [nodes, shown, List.map_flatMap]
  rfl

theorem not_valueless : ¬ ∃ keyNode ∈ nodes (tableOf bs), Valueless keyNode := by
  rintro ⟨m, hm, hv⟩
  rw [nodes_tableOf] at hm
  obtain ⟨n, -, rfl⟩ := List.mem_map.mp hm
  cases hv

theorem kvsShow_tableOf : kvsShow (tableOf bs) = .ok ((shown bs).flatMap Binding.line) := by
  rw [kvsShow_eq, if_neg (not_valueless bs), nodes_tableOf, List.flatMap_map]
  congr 1
  refine List.flatMap_congr fun n _ => ?_
  have hlen := length_pairLine n.name n.value.toCStr
  have hkey := n.key.length_lt
  have hvalue := n.value.length_lt
  have hfits : (pairLine n.name n.value.toCStr).length ≤ 255 := by
    simp only [maxStringSize] at hkey hvalue
    rw [hlen, Binding.name]
    omega
  exact List.take_of_length_le hfits

theorem kvsBackup_tableOf :
    kvsBackup (tableOf bs) =
      .ok ((shown bs).flatMap fun n => n.line.take (maxStringSize - 1)) := by
  rw [kvsBackup_eq, if_neg (not_valueless bs), nodes_tableOf, List.flatMap_map]
  congr 1
  exact List.flatMap_congr fun n _ => backupItem_eq n.name n.value.toCStr

end Loops

/-! ### Lines -/

def Effect.map {S T : Type*} (f : S → T) (e : Effect S) : Effect T := { e with store := f e.store }

/-- A turn on a line does what the line means, and never faults. -/
theorem performs_iff (st : Statement) (bs : Bindings) (e : Except Fault (Effect HashTable)) :
    Performs st.line.item (tableOf bs) e ↔ e = .ok ((st.line.meaning bs).map tableOf) := by
  obtain ⟨line, sound⟩ := st
  cases line with
  | write pairs hne hroom =>
    have hwrite := kvsWriteSends_tableOf bs fun p (hp : p ∈ sortPairs pairs) =>
      sound.1 p (mem_sortPairs.mp hp)
    constructor
    · intro h
      cases h with
      | write _ sorted hq =>
        rw [eq_sortPairs sound.2 hq, hwrite]
        rfl
    · rintro rfl
      have h := Performs.write (tableOf bs) _ (qsortResult_sortPairs pairs)
      rw [hwrite] at h
      exact h
  | read keys hne hroom =>
    have hread := kvsRead_tableOf bs fun key (hk : key ∈ sortKeys keys) =>
      sound key (mem_sortKeys.mp hk)
    constructor
    · intro h
      cases h with
      | read _ sorted hq =>
        rw [eq_sortKeys hq, hread]
        rfl
    · rintro rfl
      have h := Performs.read (tableOf bs) _ (qsortResult_sortKeys keys)
      rw [hread] at h
      exact h
  | delete keys hne hroom =>
    have hdelete := kvsDeleteSends_tableOf bs fun key (hk : key ∈ sortKeys keys) =>
      sound key (mem_sortKeys.mp hk)
    constructor
    · intro h
      cases h with
      | delete _ sorted hq =>
        rw [eq_sortKeys hq, hdelete]
        rfl
    · rintro rfl
      have h := Performs.delete (tableOf bs) _ (qsortResult_sortKeys keys)
      rw [hdelete] at h
      exact h
  | showAll =>
    constructor
    · intro h
      cases h with
      | showAll => rw [kvsShow_tableOf]; rfl
    · rintro rfl
      have h := Performs.showAll (tableOf bs)
      rw [kvsShow_tableOf] at h
      exact h
  | wait digits hd hne hroom hfits =>
    constructor
    · intro h
      cases h with
      | wait => rfl
    · rintro rfl
      exact .wait _
  | backup =>
    constructor
    · intro h
      cases h with
      | backup => rw [kvsBackup_tableOf]; rfl
    · rintro rfl
      have h := Performs.backup (tableOf bs)
      rw [kvsBackup_tableOf] at h
      exact h
  | help =>
    constructor
    · intro h
      cases h with
      | help => simp only [Line.meaning, Effect.map, Effect.none]
    · rintro rfl
      simp only [Line.item, Line.meaning, Effect.map]
      exact .help _
  | comment text hline =>
    constructor
    · intro h
      cases h with
      | empty => rfl
    · rintro rfl
      exact .empty _
  | empty =>
    constructor
    · intro h
      cases h with
      | empty => rfl
    · rintro rfl
      exact .empty _

/-! ### Jobs in turns -/

section Turns
variable {τ : Type*} [DecidableEq τ] {forks : τ → UInt32 → Bool}

def Job.map {P Q : Type*} (f : P → Q) (j : Job P) : Job Q := { j with rest := f j.rest }

/-- The bytes of a file with these statements. -/
def printed (program : List Statement) : List UInt8 := program.flatMap fun st => st.line.print

/-- The jobs as the server runs them: with their files and the hash table. -/
def Work.loaded (w : Work τ (List Statement) Bindings) : Work τ (List UInt8) HashTable where
  store := tableOf w.store
  sent := w.sent
  stdout := w.stdout
  job t := (w.job t).map printed

/-- The next statement of a job takes effect. -/
def Work.step (forks : τ → UInt32 → Bool) (w : Work τ (List Statement) Bindings) (t : τ) :
    Option (Work τ (List Statement) Bindings) :=
  match (w.job t).rest with
  | [] => none
  | st :: rest => some (w.apply forks t rest (st.line.meaning w.store))

theorem Work.loaded_apply (w : Work τ (List Statement) Bindings) (t : τ) (rest : List Statement)
    (e : Effect Bindings) :
    (w.apply forks t rest e).loaded = w.loaded.apply forks t (printed rest) (e.map tableOf) := by
  have hjob : ∀ u, ((w.apply forks t rest e).job u).map printed =
      (w.loaded.apply forks t (printed rest) (e.map tableOf)).job u := by
    intro u
    simp only [Work.apply, Work.loaded]
    by_cases hu : u = t
    · rw [hu, update_self, update_self]
      rfl
    · rw [update_of_ne hu, update_of_ne hu]
  simp only [Work.loaded, Work.apply, Effect.map] at hjob ⊢
  congr 1
  exact funext hjob

/-- The loop reads the first statement of a file, whatever the stack holds. -/
theorem nextItem_printed (stack : List UInt8) (program : List Statement) :
    nextItem stack (printed program) = match program with
      | [] => none
      | st :: rest => some ⟨st.line.item, printed rest⟩ := by
  cases program with
  | nil => rfl
  | cons st rest => exact nextItem_print stack st.line (printed rest)

theorem turn_loaded_iff (w : Work τ (List Statement) Bindings) (t : τ)
    (r : Work τ (List UInt8) HashTable) :
    Turn forks w.loaded t r ↔ ∃ w', stepOf (Work.step forks) w t w' ∧ r = w'.loaded := by
  have hnext := fun stack => nextItem_printed stack (w.job t).rest
  simp only [stepOf, Work.step]
  cases hrest : (w.job t).rest with
  | nil =>
    simp only [hrest] at hnext
    refine iff_of_false ?_ (by simp)
    rintro ⟨stack, hi, hp⟩
    simp only [Work.loaded, Job.map, hrest, hnext] at hi
    cases hi
  | cons st rest =>
    simp only [hrest] at hnext
    simp only [Option.some.injEq, exists_eq_left']
    rw [Work.loaded_apply]
    constructor
    · rintro ⟨stack, hi, hp⟩
      simp only [Work.loaded, Job.map, hrest, hnext, Option.some.injEq] at hi
      subst hi
      rw [Except.ok.inj ((performs_iff st w.store _).mp hp)]
    · rintro rfl
      refine .turn [] (r := ⟨st.line.item, printed rest⟩) ?_ ((performs_iff st w.store _).mpr rfl)
      simp only [Work.loaded, Job.map, hrest, hnext]

omit [DecidableEq τ] in
theorem not_mayFault (w : Work τ (List Statement) Bindings) (t : τ) : ¬ MayFault w.loaded t := by
  rintro ⟨stack, r, f, hi, hp⟩
  have hnext := nextItem_printed stack (w.job t).rest
  simp only [Work.loaded, Job.map, hnext] at hi
  cases hrest : (w.job t).rest with
  | nil => simp [hrest] at hi
  | cons st rest =>
    simp only [hrest, Option.some.injEq] at hi
    subst hi
    cases (performs_iff st w.store _).mp hp

theorem run_loaded {w : Work τ (List Statement) Bindings} {turns : List τ}
    {r : Work τ (List UInt8) HashTable} :
    Run (Turn forks) w.loaded turns r ↔
      ∃ w', execute (Work.step forks) w turns = some w' ∧ r = w'.loaded := by
  rw [Run.image_iff turn_loaded_iff]
  simp only [run_stepOf_iff]

/-- However the jobs take turns, what is in the table, the output files, the backups, the
notifications and standard output is what the statements mean in that order; no turn can
end the program. -/
theorem run_loaded_iff (w : Work τ (List Statement) Bindings) (turns : List τ)
    (r : Work τ (List UInt8) HashTable) :
    Run (Turn forks) w.loaded turns r ↔
      (∃ w', execute (Work.step forks) w turns = some w' ∧ r = w'.loaded) ∧
        ∀ t, ¬ MayFault r t := by
  rw [run_loaded]
  refine ⟨?_, And.left⟩
  rintro ⟨w', hw, rfl⟩
  exact ⟨⟨w', hw, rfl⟩, not_mayFault w'⟩

end Turns

end IstKvs.Jobs
