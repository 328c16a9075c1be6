import IstKvs.Store.Batch
import IstKvs.Store.Subscribers

/-! READ and DELETE on a list of keys, in which keys may repeat. A read prints an item for
each key of the sorted list. A deletion takes a key out at its first occurrence, so the
list it prints has the other occurrences of that key, and all of a key that was not there. -/

namespace IstKvs.Store

open IstKvs.Systems Function

/-! ### What every node holds -/

/-- Every node of the table has a key and a value of this kind. -/
def NodesHold (P : CStr → Option CStr → Prop) (ht : HashTable) : Prop :=
  ∀ b, ∀ n ∈ ht b, P n.key n.value

section Holds
variable {P : CStr → Option CStr → Prop} {ht : HashTable} {key : CStr} {b : Bucket}

theorem nodesHold_create : NodesHold P createHashTable := by
  intro b n hn
  cases hn

theorem NodesHold.update (h : NodesHold P ht) {c : List KeyNode}
    (hc : ∀ n ∈ c, n ∈ ht b ∨ P n.key n.value) : NodesHold P (update ht b c) := by
  intro b' n hn
  by_cases he : b' = b
  · subst he
    rw [update_self] at hn
    exact (hc n hn).elim (h b' n) id
  · rw [update_of_ne he] at hn
    exact h b' n hn

theorem NodesHold.writeChain (h : NodesHold P ht) (b : Bucket) {value : CStr} {mem : WriteMem}
    (hp : P key (if mem.value then some value else none)) :
    NodesHold P (Function.update ht b (writeChain (ht b) key value mem).chain) := by
  refine h.update fun n hn => ?_
  unfold Store.writeChain at hn
  cases hf : findNode key (ht b) with
  | some m =>
    simp only [hf, updateNode_eq] at hn
    rcases Chain.mem_modify hn with hn | ⟨m', hm', rfl⟩
    · exact .inl hn
    · rw [← Chain.key_of_lookup hm'] at hp
      exact .inr hp
  | none =>
    simp only [hf] at hn
    split_ifs at hn with hm
    · exact .inl hn
    · rcases List.mem_cons.mp hn with rfl | hn
      · have hv : mem.value = true := by
          by_contra hv
          simp [hv] at hm
        rw [if_pos hv] at hp
        exact .inr hp
      · exact .inl hn

theorem NodesHold.deleteChain (h : NodesHold P ht) (b : Bucket) (key : CStr) :
    NodesHold P (Function.update ht b (deleteChain (ht b) key).chain) := by
  refine h.update fun n hn => ?_
  unfold Store.deleteChain at hn
  cases hf : findNode key (ht b) with
  | some m =>
    simp only [hf, unlinkNode_eq] at hn
    exact .inl ((Chain.unlink_sublist key _).subset hn)
  | none =>
    simp only [hf] at hn
    exact .inl hn

/-- A change of the subscriber list of a node keeps its key and value. -/
theorem NodesHold.updateNode (h : NodesHold P ht) (b : Bucket) (key : CStr)
    {f : KeyNode → KeyNode} (hk : ∀ n, (f n).key = n.key) (hv : ∀ n, (f n).value = n.value) :
    NodesHold P (Function.update ht b (updateNode key f (ht b))) := by
  refine h.update fun n hn => ?_
  rw [updateNode_eq] at hn
  rcases Chain.mem_modify hn with hn | ⟨m, hm, rfl⟩
  · exact .inl hn
  · rw [hk, hv]
    exact .inr (h b m (Chain.mem_of_lookup hm))

theorem NodesHold.subscribeChain (h : NodesHold P ht) (b : Bucket) (key : CStr) (fd : Fd)
    (mem : Bool) :
    NodesHold P (Function.update ht b (subscribeChain (ht b) key fd mem).chain) := by
  unfold Store.subscribeChain
  cases findNode key (ht b) with
  | some n =>
    exact h.updateNode b key (addSubscriber_key · fd mem) (addSubscriber_value · fd mem)
  | none => simpa using h

theorem NodesHold.unsubscribeChain (h : NodesHold P ht) (b : Bucket) (key : CStr) (fd : Fd) :
    NodesHold P (Function.update ht b (unsubscribeChain (ht b) key fd).1) := by
  unfold Store.unsubscribeChain
  cases findNode key (ht b) with
  | some n =>
    simp only
    split_ifs
    · simpa using h
    · exact h.updateNode b key (removeSubscriber_key · fd) (removeSubscriber_value · fd)
  | none => simpa using h

end Holds

/-! ### What the loops keep -/

/-- A loop of steps that may fail keeps what every step keeps. -/
theorem foldlM_keeps {S A : Type*} {I : S → Prop} {f : S → A → Except Fault S} {xs : List A}
    (hstep : ∀ s, ∀ x ∈ xs, ∀ s', I s → f s x = .ok s' → I s') {s t : S} (hs : I s)
    (h : xs.foldlM f s = .ok t) : I t := by
  induction xs generalizing s with
  | nil =>
    cases h
    exact hs
  | cons x xs ih =>
    rw [List.foldlM_cons] at h
    obtain ⟨s', hx, h⟩ := ok_of_bind h
    exact ih (fun s y hy => hstep s y (List.mem_cons_of_mem _ hy))
      (hstep s x List.mem_cons_self s' hs hx) h

/-- What every write of a pair of the batch keeps, the batch keeps. -/
theorem kvsWrite_keeps {I : HashTable → Prop} {pairs : List ((CStr × CStr) × WriteMem)}
    (hstep : ∀ ht, ∀ p ∈ pairs, ∀ b, bucketOf p.1.1 = .ok b → I ht →
      I (update ht b (writeChain (ht b) p.1.1 p.1.2 p.2).chain)) {ht ht' : HashTable} (h : I ht)
    (hw : kvsWrite ht pairs = .ok ht') : I ht' := by
  have hk := startsAlnum_of_kvsWrite hw
  rw [kvsWrite_eq_loop hk] at hw
  refine foldlM_keeps (fun s p hp s' hs hpair => ?_) h hw
  obtain ⟨b, hb⟩ := bucketOf_eq_ok_iff.mpr (hk p hp)
  rw [writePair_eq hb] at hpair
  obtain rfl := Except.ok.inj hpair
  exact hstep s p hp b hb hs

/-- What every deletion of a key of the list keeps, the command keeps. -/
theorem kvsDelete_keeps {I : HashTable → Prop} {keys : List CStr}
    (hstep : ∀ ht, ∀ key ∈ keys, ∀ b, bucketOf key = .ok b → I ht →
      I (update ht b (deleteChain (ht b) key).chain)) {ht ht' : HashTable} {out : List UInt8}
    (h : I ht) (hd : kvsDelete ht keys = .ok (ht', out)) : I ht' := by
  have hk := startsAlnum_of_kvsDelete hd
  rw [kvsDelete_eq_loop hk] at hd
  obtain ⟨x, hf, hx⟩ := ok_of_map hd
  obtain rfl := congrArg Prod.fst hx
  refine foldlM_keeps (I := fun x => I x.1) (fun s key hkey s' hs hpair => ?_) h hf
  obtain ⟨b, hb⟩ := bucketOf_eq_ok_iff.mpr (hk key hkey)
  rw [deleteStep, deletePair_eq hb] at hpair
  obtain rfl := Except.ok.inj hpair
  exact hstep s.1 key hkey b hb hs

/-! ### Tables that commands and subscriptions leave -/

/-- The tables after WRITE and DELETE commands, subscriptions and unsubscriptions. `allocs` are
the outcomes that the allocations of a written pair may have. -/
inductive Reached (allocs : WriteMem → Prop) : HashTable → Prop
  | create : Reached allocs createHashTable
  | write {ht ht' : HashTable} {pairs : List ((CStr × CStr) × WriteMem)} (h : Reached allocs ht)
      (hp : ∀ p ∈ pairs, p.1.1.length < maxStringSize ∧ p.1.2.length < maxStringSize ∧ allocs p.2)
      (hw : kvsWrite ht pairs = .ok ht') : Reached allocs ht'
  | delete {ht ht' : HashTable} {keys : List CStr} {out : List UInt8} (h : Reached allocs ht)
      (hd : kvsDelete ht keys = .ok (ht', out)) : Reached allocs ht'
  | subscribe {ht : HashTable} {key : CStr} {b : Bucket} (fd : Fd) (mem : Bool)
      (h : Reached allocs ht) (hb : bucketOf key = .ok b) :
      Reached allocs (update ht b (subscribeChain (ht b) key fd mem).chain)
  | unsubscribe {ht : HashTable} {key : CStr} {b : Bucket} (fd : Fd) (h : Reached allocs ht)
      (hb : bucketOf key = .ok b) : Reached allocs (update ht b (unsubscribeChain (ht b) key fd).1)

/-- A key and a value that fit their buffers; the value is there unless a copy may fail. -/
structure Fits (allocs : WriteMem → Prop) (key : CStr) (value : Option CStr) : Prop where
  keyFits : key.length < maxStringSize
  valueFits : ∀ v, value = some v → v.length < maxStringSize
  copied : (∀ mem, allocs mem → mem.value = true) → value.isSome = true

theorem Reached.inv {allocs : WriteMem → Prop} {ht : HashTable} (h : Reached allocs ht) :
    TableInv ht ∧ NodesHold (Fits allocs) ht := by
  induction h with
  | create => exact ⟨tableInv_create, nodesHold_create⟩
  | write _ hp hw ih =>
    refine kvsWrite_keeps (I := fun ht => TableInv ht ∧ NodesHold (Fits allocs) ht)
      (fun ht p hm b hb hi => ?_) ih hw
    obtain ⟨hkey, hvalue, halloc⟩ := hp p hm
    refine ⟨(writeChain_changes _ _ _ _).tableInv hi.1 hb, hi.2.writeChain b ⟨hkey, ?_, ?_⟩⟩
    · intro v hv
      split_ifs at hv
      exact Option.some.inj hv ▸ hvalue
    · intro hall
      simp [hall p.2 halloc]
  | delete _ hd ih =>
    exact kvsDelete_keeps (I := fun ht => TableInv ht ∧ NodesHold (Fits allocs) ht)
      (fun ht key _ b hb hi => ⟨(deleteChain_changes _ _).tableInv hi.1 hb,
        hi.2.deleteChain b key⟩) ih hd
  | subscribe fd mem _ hb ih =>
    exact ⟨(subscribeChain_changes _ _ _ _).tableInv ih.1 hb, ih.2.subscribeChain _ _ fd mem⟩
  | unsubscribe fd _ hb ih =>
    exact ⟨(unsubscribeChain_changes _ _ _).tableInv ih.1 hb, ih.2.unsubscribeChain _ _ fd⟩

/-! ### The items -/

/-- `(key,word)` -/
def pairText (key word : List UInt8) : List UInt8 :=
  chars ['('] ++ key ++ chars [','] ++ word ++ chars [')']

def errorWord : List UInt8 := chars ['K', 'V', 'S', 'E', 'R', 'R', 'O', 'R']

def missingWord : List UInt8 := chars ['K', 'V', 'S', 'M', 'I', 'S', 'S', 'I', 'N', 'G']

/-- What a read of the key gives: the stored value, unless there is none or its copy fails. -/
def readResult (ht : HashTable) (item : CStr × Bool) : Option CStr :=
  if item.2 then (contents ht item.1).join else none

/-- The item of a key: its value, or `KVSERROR`. -/
def readText (ht : HashTable) (item : CStr × Bool) : List UInt8 :=
  pairText item.1.bytes (((readResult ht item).map CStr.bytes).getD errorWord)

/-- The whole output of a deletion that did not find these keys. -/
def missingText (missing : List CStr) : List UInt8 :=
  if missing = [] then []
  else openList ++ missing.flatMap (fun key => pairText key.bytes missingWord) ++ closeList

theorem length_pairText (key word : List UInt8) :
    (pairText key word).length = key.length + word.length + 3 := by
  simp only [pairText, chars, List.length_append, List.length_map, List.length_cons,
    List.length_nil]
  omega

theorem readItem_fits {key : CStr} {result : Option CStr} (hk : key.length < maxStringSize)
    (hv : ∀ v, result = some v → v.length < maxStringSize) :
    readItem key result = pairText key.bytes ((result.map CStr.bytes).getD errorWord) := by
  have hlen := length_pairText key.bytes ((result.map CStr.bytes).getD errorWord)
  have hword : ((result.map CStr.bytes).getD errorWord).length < maxStringSize := by
    cases result with
    | none => decide
    | some v => exact hv v rfl
  have hitem : readItem key result =
      (pairText key.bytes ((result.map CStr.bytes).getD errorWord)).take 255 := by
    cases result <;> rfl
  simp only [CStr.length, maxStringSize] at hk hword
  rw [hitem, List.take_of_length_le (by omega)]

theorem missingItem_fits {key : CStr} (hk : key.length < maxStringSize) :
    missingItem key = pairText key.bytes missingWord := by
  have hlen := length_pairText key.bytes missingWord
  have hword : missingWord.length = 10 := rfl
  have hitem : missingItem key = (pairText key.bytes missingWord).take 255 := by
    simp only [missingItem, snprintf, maxWriteSize, pairText, missingWord, chars, List.map_cons,
      List.map_nil, List.append_assoc, List.cons_append, List.nil_append]
  simp only [CStr.length, maxStringSize] at hk
  rw [hitem, List.take_of_length_le (by omega)]

/-! ### READ -/

theorem contents_of_mem {ht : HashTable} {key : CStr} {v : Option CStr}
    (h : contents ht key = some v) : ∃ b, ∃ n ∈ ht b, n.key = key ∧ n.value = v := by
  obtain ⟨n, hn, rfl⟩ := Option.map_eq_some_iff.mp h
  unfold nodeOf at hn
  cases hb : bucketOf key with
  | error e =>
    rw [hb] at hn
    cases hn
  | ok b =>
    rw [hb] at hn
    refine ⟨b, n, ?_, key_of_findNode hn, rfl⟩
    simp only [findNode_eq] at hn
    exact Chain.mem_of_lookup hn

theorem readPair_contents (ht : HashTable) {item : CStr × Bool}
    (hk : item.1.startsAlnum = true) :
    readPair ht item.1 item.2 =
      if contents ht item.1 = some none then .error .null else .ok (readResult ht item) := by
  obtain ⟨b, hb⟩ := bucketOf_eq_ok_iff.mpr hk
  rw [readPair_eq hb, readChain, readResult, contents, nodeOf_eq hb]
  cases findNode item.1 (ht b) with
  | none => simp
  | some n =>
    cases hv : n.value with
    | none => simp [hv]
    | some v => simp [hv]

/-- What a read that returns gives. -/
theorem result_of_readPair {ht : HashTable} {key : CStr} {mem : Bool} {result : Option CStr}
    (h : readPair ht key mem = .ok result) : result = readResult ht (key, mem) := by
  cases hs : key.startsAlnum with
  | false => rw [readPair, bucketOf_eq_error hs] at h; cases h
  | true =>
    have hread := @readPair_contents ht (key, mem) hs
    rw [h] at hread
    split_ifs at hread
    exact Except.ok.inj hread

/-- The loop of a read appends one item for each key, or meets a lost value. -/
theorem foldlM_readStep (ht : HashTable) {items : List (CStr × Bool)}
    (hk : ∀ x ∈ items, x.1.startsAlnum = true) (w : Writer) :
    items.foldlM (readStep ht) w =
      if ∃ x ∈ items, contents ht x.1 = some none then .error .null
      else .ok { w with
        out := w.out ++ items.flatMap fun x => readItem x.1 (readResult ht x) } := by
  induction items generalizing w with
  | nil =>
    simp only [List.not_mem_nil, false_and, exists_false, if_false, List.flatMap_nil,
      List.append_nil]
    rfl
  | cons x items ih =>
    obtain ⟨hx, hxs⟩ := List.forall_mem_cons.mp hk
    rw [List.foldlM_cons, readStep, readPair_contents ht hx]
    by_cases hlost : contents ht x.1 = some none
    · rw [if_pos hlost, if_pos ⟨x, List.mem_cons_self, hlost⟩]
      rfl
    · rw [if_neg hlost]
      change List.foldlM (readStep ht) _ items = _
      rw [ih hxs]
      simp only [List.exists_mem_cons_iff, hlost, false_or, List.flatMap_cons, List.append_assoc]

theorem kvsRead_eq_items (ht : HashTable) {items : List (CStr × Bool)}
    (hk : ∀ x ∈ items, x.1.startsAlnum = true) :
    kvsRead ht items =
      if ∃ x ∈ items, contents ht x.1 = some none then .error .null
      else .ok (openList ++ items.flatMap (fun x => readItem x.1 (readResult ht x)) ++
        closeList) := by
  rw [kvsRead_eq_loop hk, foldlM_readStep ht hk]
  split_ifs <;> rfl

theorem kvsRead_eq {allocs : WriteMem → Prop} {ht : HashTable}
    (h : NodesHold (Fits allocs) ht) {items : List (CStr × Bool)}
    (hk : ∀ x ∈ items, x.1.startsAlnum = true ∧ x.1.length < maxStringSize) :
    kvsRead ht items =
      if ∃ x ∈ items, contents ht x.1 = some none then .error .null
      else .ok (openList ++ items.flatMap (readText ht) ++ closeList) := by
  have hitem : ∀ x ∈ items, readItem x.1 (readResult ht x) = readText ht x := by
    intro x hx
    refine readItem_fits (hk x hx).2 fun v hv => ?_
    unfold readResult at hv
    split_ifs at hv
    obtain ⟨b, n, hn, -, hval⟩ := contents_of_mem (Option.join_eq_some_iff.mp hv)
    exact (h b n hn).valueFits v hval
  rw [kvsRead_eq_items ht fun x hx => (hk x hx).1, List.flatMap_congr hitem]

/-! ### DELETE -/

/-- The table without the nodes of some keys. -/
def without (ht : HashTable) (keys : List CStr) : HashTable :=
  fun b => (ht b).filter fun n => n.key ∉ keys

theorem without_nil (ht : HashTable) : without ht [] = ht := by
  funext b
  simp [without]

theorem without_without (ht : HashTable) (key : CStr) (keys : List CStr) :
    without (without ht [key]) keys = without ht (key :: keys) := by
  funext b
  rw [without, without, without, List.filter_filter]
  refine List.filter_congr fun n _ => ?_
  simp [Bool.and_comm]

theorem tableInv_without {ht : HashTable} (h : TableInv ht) (keys : List CStr) :
    TableInv (without ht keys) where
  placed b n hn := h.placed b n (List.mem_of_mem_filter hn)
  unique b := (h.unique b).sublist (List.filter_sublist.map KeyNode.key)

theorem present_without {ht : HashTable} (key k : CStr) :
    Present (without ht [key]) k ↔ k ≠ key ∧ Present ht k := by
  unfold Present subscribers nodeOf
  cases bucketOf k with
  | error e => simp
  | ok b =>
    simp only [findNode_eq, without, Chain.lookup, List.find?_filter, Option.isSome_map,
      List.find?_isSome]
    constructor
    · rintro ⟨n, hn, hk⟩
      obtain ⟨hne, hk⟩ : n.key ≠ key ∧ n.key = k := by simpa using hk
      exact ⟨hk ▸ hne, n, hn, by simpa using hk⟩
    · rintro ⟨hne, n, hn, hk⟩
      have hk' : n.key = k := by simpa using hk
      exact ⟨n, hn, by simpa [hk'] using hne⟩

/-- The keys that a deletion of the list does not find. -/
def missingKeys (ht : HashTable) : List CStr → List CStr
  | [] => []
  | key :: keys =>
    if Present ht key then missingKeys (without ht [key]) keys
    else key :: missingKeys (without ht [key]) keys

theorem missingKeys_sublist (ht : HashTable) (keys : List CStr) :
    (missingKeys ht keys).Sublist keys := by
  induction keys generalizing ht with
  | nil => exact .slnil
  | cons key keys ih =>
    rw [missingKeys]
    split_ifs
    · exact (ih _).cons key
    · exact (ih _).cons_cons key

/-- Of the occurrences of a key that is there, one is found. -/
theorem count_missingKeys (ht : HashTable) (keys : List CStr) (k : CStr) :
    (missingKeys ht keys).count k =
      if Present ht k then keys.count k - 1 else keys.count k := by
  induction keys generalizing ht with
  | nil => simp [missingKeys]
  | cons key keys ih =>
    have hrest := ih (without ht [key])
    simp only [present_without] at hrest
    rw [missingKeys]
    by_cases hk : k = key
    · subst hk
      split_ifs with hp
      · simpa using hrest
      · simpa using hrest
    · have hk' : key ≠ k := Ne.symm hk
      have hcons : (if Present ht key then missingKeys (without ht [key]) keys
          else key :: missingKeys (without ht [key]) keys).count k =
            (missingKeys (without ht [key]) keys).count k := by
        split_ifs
        · rfl
        · exact List.count_cons_of_ne hk'
      rw [hcons, List.count_cons_of_ne hk', hrest]
      simp [hk]

/-- One deletion takes out the node of the key, or notes that there is none. -/
theorem deleteStep_eq {ht : HashTable} (h : TableInv ht) {key : CStr}
    (hk : key.startsAlnum = true) (w : Writer) :
    deleteStep (ht, w) key =
      .ok (without ht [key], if Present ht key then w else noteMissing w key) := by
  obtain ⟨b, hb⟩ := bucketOf_eq_ok_iff.mpr hk
  have hchain : (deleteChain (ht b) key).chain = (ht b).filter fun n => n.key ≠ key := by
    rw [← Chain.unlink_eq_filter (h.unique b) key, deleteChain]
    cases hn : findNode key (ht b) with
    | some n => exact unlinkNode_eq key (ht b)
    | none =>
      rw [findNode_eq] at hn
      exact (Chain.unlink_of_none hn).symm
  have htable : update ht b (deleteChain (ht b) key).chain = without ht [key] := by
    funext b'
    by_cases hb' : b' = b
    · subst hb'
      rw [update_self, hchain, without]
      refine List.filter_congr fun n _ => ?_
      simp
    · rw [update_of_ne hb', without]
      refine (List.filter_eq_self.mpr fun n hn => ?_).symm
      -- the nodes of another bucket have other keys
      have hne : n.key ≠ key := by
        rintro rfl
        have hplace := h.placed b' n hn
        rw [hash_of_bucketOf hb] at hplace
        exact hb' (Fin.ext (by omega))
      simpa using hne
  have hstatus : (deleteChain (ht b) key).status ≠ 0 ↔ ¬ Present ht key := by
    rw [Present, subscribers_eq ht hb, deleteChain]
    cases findNode key (ht b) <;> simp
  rw [deleteStep, deletePair_eq hb, htable]
  show Except.ok (without ht [key], if (deleteChain (ht b) key).status ≠ 0 then _ else _) = _
  simp only [hstatus, ite_not]

theorem foldlM_deleteStep {ht : HashTable} (h : TableInv ht) {keys : List CStr}
    (hk : ∀ key ∈ keys, key.startsAlnum = true) (w : Writer) :
    keys.foldlM deleteStep (ht, w) =
      .ok (without ht keys, (missingKeys ht keys).foldl noteMissing w) := by
  induction keys generalizing ht w with
  | nil =>
    rw [without_nil]
    rfl
  | cons key keys ih =>
    obtain ⟨hkey, hkeys⟩ := List.forall_mem_cons.mp hk
    rw [List.foldlM_cons, deleteStep_eq h hkey]
    change List.foldlM deleteStep _ keys = _
    rw [ih (tableInv_without h [key]) hkeys, without_without, missingKeys]
    split_ifs <;> rfl

/-- The list of missing keys is opened by the first of them. -/
theorem foldl_noteMissing (missing : List CStr) (out : List UInt8) :
    missing.foldl noteMissing ⟨out, true⟩ = ⟨out ++ missing.flatMap missingItem, true⟩ := by
  induction missing generalizing out with
  | nil => simp
  | cons key missing ih =>
    rw [List.foldl_cons, List.flatMap_cons, ← List.append_assoc]
    exact ih (out ++ missingItem key)

theorem closeMissing_eq {missing : List CStr} (h : ∀ key ∈ missing, key.length < maxStringSize) :
    closeMissing (missing.foldl noteMissing ⟨[], false⟩) = missingText missing := by
  cases missing with
  | nil => rfl
  | cons key missing =>
    have hitems : (key :: missing).flatMap missingItem =
        (key :: missing).flatMap fun k => pairText k.bytes missingWord :=
      List.flatMap_congr fun k hk => missingItem_fits (h k hk)
    have hopen : noteMissing ⟨[], false⟩ key = ⟨openList ++ missingItem key, true⟩ := rfl
    rw [List.foldl_cons, hopen, foldl_noteMissing, missingText, if_neg (by simp), ← hitems,
      List.flatMap_cons, closeMissing, if_pos rfl, List.append_assoc openList]

/-- The table that a deletion leaves, and the items of the keys it did not find. -/
theorem kvsDelete_eq_missing {ht : HashTable} (h : TableInv ht) {keys : List CStr}
    (hk : ∀ key ∈ keys, key.startsAlnum = true) :
    kvsDelete ht keys = .ok (without ht keys,
      closeMissing ((missingKeys ht keys).foldl noteMissing ⟨[], false⟩)) := by
  rw [kvsDelete_eq_loop hk, foldlM_deleteStep h hk]
  rfl

theorem kvsDelete_eq {ht : HashTable} (h : TableInv ht) {keys : List CStr}
    (hk : ∀ key ∈ keys, key.startsAlnum = true ∧ key.length < maxStringSize) :
    kvsDelete ht keys = .ok (without ht keys, missingText (missingKeys ht keys)) := by
  have hfits : ∀ key ∈ missingKeys ht keys, key.length < maxStringSize := fun key hm =>
    (hk key ((missingKeys_sublist ht keys).subset hm)).2
  rw [kvsDelete_eq_missing h fun key hm => (hk key hm).1, closeMissing_eq hfits]

/-- READ and DELETE on any list of keys: a read leaves the table and prints the item of each key
in order and uncut; a deletion takes out the nodes of these keys, and nothing else, and prints the
keys it did not find, each as often as it was not found. A read fails only on a lost value. -/
theorem keyLists_exact {allocs : WriteMem → Prop} {ht : HashTable} (h : Reached allocs ht)
    {keys : List CStr}
    (hk : ∀ key ∈ keys, key.startsAlnum = true ∧ key.length < maxStringSize) :
    ((∀ mem, allocs mem → mem.value = true) → ∀ key, contents ht key ≠ some none) ∧
    (∀ out ht', Exec (.read keys) ht out ht' → ht' = ht) ∧
    (∀ items, QsortResult compareKeys keys (items.map Prod.fst) →
      kvsRead ht items =
        if ∃ key ∈ keys, contents ht key = some none then .error .null
        else .ok (openList ++ items.flatMap (readText ht) ++ closeList)) ∧
    ∀ sorted, QsortResult compareKeys keys sorted →
      ∃ missing : List CStr, kvsDelete ht sorted = .ok (without ht keys, missingText missing) ∧
        (missing.Pairwise fun a b => compareKeys a b ≤ 0) ∧
        ∀ key, missing.count key =
          if Present ht key then keys.count key - 1 else keys.count key := by
  obtain ⟨hinv, hfits⟩ := h.inv
  refine ⟨fun hall key hlost => ?_, fun out ht' he => ?_, fun items hq => ?_, fun sorted hq => ?_⟩
  · obtain ⟨b, n, hn, -, hv⟩ := contents_of_mem hlost
    have hsome := (hfits b n hn).copied hall
    simp [hv] at hsome
  · cases he
    rfl
  · have hmem : ∀ key, key ∈ keys ↔ ∃ x ∈ items, x.1 = key := by
      intro key
      rw [← hq.1.mem_iff, List.mem_map]
    have hlost : (∃ x ∈ items, contents ht x.1 = some none) ↔
        ∃ key ∈ keys, contents ht key = some none := by
      simp [hmem]
    rw [kvsRead_eq hfits fun x hx => hk x.1 ((hmem x.1).mpr ⟨x, hx, rfl⟩)]
    simp only [hlost]
  · have hsame : without ht sorted = without ht keys := by
      funext b
      refine List.filter_congr fun n _ => ?_
      simp [hq.1.mem_iff]
    refine ⟨missingKeys ht sorted, ?_, hq.2.sublist (missingKeys_sublist ht sorted), fun key => ?_⟩
    · rw [kvsDelete_eq hinv fun key hm => hk key (hq.1.mem_iff.mp hm), hsame]
    · rw [count_missingKeys, hq.1.count_eq]

set_option maxRecDepth 1024 in
/-- One key is written; that key and another are each deleted twice in one list. -/
theorem keyLists_exact_repeated :
    let b : CStr := ⟨chars ['b'], by decide⟩
    let c : CStr := ⟨chars ['c'], by decide⟩
    ∃ ht missing, Reached (fun mem => mem = .ok) ht ∧
      kvsDelete ht [b, b, c, c] = .ok (without ht [b, c, b, c], missingText missing) ∧
      missing.count b = 1 ∧ missing.count c = 2 ∧ ∀ key, contents ht key ≠ some none := by
  intro b c
  have hpair : ∀ p ∈ [((b, c), WriteMem.ok)],
      p.1.1.length < maxStringSize ∧ p.1.2.length < maxStringSize ∧ p.2 = .ok := by
    decide
  have hwrite : kvsWrite createHashTable [((b, c), WriteMem.ok)] = .ok _ := rfl
  have hreach : Reached (fun mem => mem = .ok) _ := .write .create hpair hwrite
  have hkeys : ∀ key ∈ [b, c, b, c], key.startsAlnum = true ∧ key.length < maxStringSize := by
    decide
  obtain ⟨hvalue, -, -, hdelete⟩ := keyLists_exact hreach hkeys
  have hperm : [b, b, c, c].Perm [b, c, b, c] := .cons b (.swap c b [c])
  obtain ⟨missing, hd, -, hcount⟩ := hdelete [b, b, c, c] ⟨hperm, by decide⟩
  refine ⟨_, missing, hreach, hd, ?_, ?_, hvalue fun mem hm => by rw [hm]; rfl⟩
  · rw [hcount]
    decide
  · rw [hcount]
    decide

set_option maxRecDepth 1024 in
/-- A key is written twice, and the copy of its second value fails. -/
theorem keyLists_lostValue :
    let b : CStr := ⟨chars ['b'], by decide⟩
    let c : CStr := ⟨chars ['c'], by decide⟩
    ∃ ht ht', kvsWrite createHashTable [((b, c), .ok)] = .ok ht ∧
      kvsWrite ht [((b, c), ⟨true, true, false⟩)] = .ok ht' ∧ Reached (fun _ => True) ht' ∧
      QsortResult compareKeys [b] [b] ∧ ∀ out, kvsRead ht' [(b, true)] ≠ .ok out := by
  intro b c
  have hfits : b.length < maxStringSize ∧ c.length < maxStringSize := by decide
  have hpair : ∀ mem : WriteMem, ∀ p ∈ [((b, c), mem)],
      p.1.1.length < maxStringSize ∧ p.1.2.length < maxStringSize ∧ True := by
    intro mem p hp
    obtain rfl := List.mem_singleton.mp hp
    exact ⟨hfits.1, hfits.2, trivial⟩
  have hreach : Reached (fun _ => True) _ :=
    .write (.write .create (hpair .ok) rfl) (hpair ⟨true, true, false⟩) rfl
  exact ⟨_, _, rfl, rfl, hreach, ⟨List.Perm.refl _, List.pairwise_singleton _ _⟩, fun _ h => by
    cases h⟩

end IstKvs.Store
