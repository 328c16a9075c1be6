import IstKvs.Store.Placement

/-! The table refines a finite map from keys to a value and a subscriber list:
after any sequence of operations on keys with a bucket, what the table answers
and holds is what the map answers and holds. -/

namespace IstKvs.Store

open IstKvs.Systems Function

/-! ### The abstract map -/

/-- What the store keeps for a key. -/
structure Entry where
  value : CStr
  subscribers : List Fd
  deriving DecidableEq

abbrev KeyMap := CStr → Option Entry

inductive TableOp
  | writePair (key value : CStr)
  | readPair (key : CStr)
  | deletePair (key : CStr)
  | addSubscriber (key : CStr) (fd : Fd)
  | removeSubscriber (key : CStr) (fd : Fd)

def TableOp.key : TableOp → CStr
  | .writePair k _ | .readPair k | .deletePair k | .addSubscriber k _ | .removeSubscriber k _ => k

/-- What a call returns; `absent` is a subscription that finds no node to call on. -/
inductive Reply
  | status (s : ℤ)
  | value (v : Option CStr)
  | absent
  deriving DecidableEq

/-- An operation on the map, with its reply. -/
def TableOp.spec (m : KeyMap) : TableOp → KeyMap × Reply
  | .writePair k v => (update m k (some ⟨v, (m k).elim [] Entry.subscribers⟩), .status 0)
  | .readPair k => (m, .value ((m k).map Entry.value))
  | .deletePair k => (update m k none, .status (if (m k).isSome then 0 else 1))
  | .addSubscriber k fd =>
    match m k with
    | none => (m, .absent)
    | some e =>
      if fd ∈ e.subscribers then (m, .status 1)
      else (update m k (some { e with subscribers := e.subscribers ++ [fd] }), .status 0)
  | .removeSubscriber k fd =>
    match m k with
    | none => (m, .status 1)
    | some e =>
      if fd ∈ e.subscribers then
        (update m k (some { e with subscribers := e.subscribers.erase fd }), .status 0)
      else (m, .status 1)

def specAll (m : KeyMap) : List TableOp → KeyMap × List Reply
  | [] => (m, [])
  | op :: ops => ((specAll (op.spec m).1 ops).1, (op.spec m).2 :: (specAll (op.spec m).1 ops).2)

/-- The value of the last write of `key` that no deletion follows. -/
def lastWritten (key : CStr) (ops : List TableOp) : Option CStr :=
  ops.foldl (fun acc op => match op with
    | .writePair k v => if k = key then some v else acc
    | .deletePair k => if k = key then none else acc
    | _ => acc) none

/-- Other subscribers of a key leave every value alone. -/
theorem value_update {m : KeyMap} {k : CStr} {e : Entry} (he : m k = some e) (fds : List Fd)
    (key : CStr) :
    (update m k (some { e with subscribers := fds }) key).map Entry.value =
      (m key).map Entry.value := by
  by_cases h : key = k
  · subst h
    rw [update_self, he]
    rfl
  · rw [update_of_ne h]

/-- One operation changes the value of a key as a write or a deletion of it does. -/
theorem spec_value (m : KeyMap) (op : TableOp) (key : CStr) :
    ((op.spec m).1 key).map Entry.value = (match op with
      | .writePair k v => if k = key then some v else (m key).map Entry.value
      | .deletePair k => if k = key then none else (m key).map Entry.value
      | _ => (m key).map Entry.value) := by
  cases op with
  | writePair k v =>
    by_cases h : key = k
    · subst h; simp [TableOp.spec]
    · simp [TableOp.spec, h, Ne.symm h]
  | readPair k => rfl
  | deletePair k =>
    by_cases h : key = k
    · subst h; simp [TableOp.spec]
    · simp [TableOp.spec, h, Ne.symm h]
  | addSubscriber k fd =>
    cases he : m k with
    | none => simp only [TableOp.spec, he]
    | some e =>
      simp only [TableOp.spec, he]
      split_ifs
      · rfl
      · exact value_update he _ key
  | removeSubscriber k fd =>
    cases he : m k with
    | none => simp only [TableOp.spec, he]
    | some e =>
      simp only [TableOp.spec, he]
      split_ifs
      · exact value_update he _ key
      · rfl

theorem specAll_value (m : KeyMap) (ops : List TableOp) (key : CStr) :
    ((specAll m ops).1 key).map Entry.value =
      ops.foldl (fun acc op => match op with
        | .writePair k v => if k = key then some v else acc
        | .deletePair k => if k = key then none else acc
        | _ => acc) ((m key).map Entry.value) := by
  induction ops generalizing m with
  | nil => rfl
  | cons op ops ih =>
    rw [specAll, ih, spec_value, List.foldl_cons]

/-! ### The operations on the table -/

/-- An operation on the table with all allocations succeeding. The subscriber
operations find the node of the key as their callers do. -/
def TableOp.run (ht : HashTable) : TableOp → Except Fault (HashTable × Reply)
  | .writePair key value => do
    let r ← Store.writePair ht key value .ok
    pure (r.1, .status r.2.1)
  | .readPair key => do
    let v ← Store.readPair ht key true
    pure (ht, .value v)
  | .deletePair key => do
    let r ← Store.deletePair ht key
    pure (r.1, .status r.2.1)
  | .addSubscriber key fd => do
    let index ← bucketOf key
    let r := subscribeChain (ht index) key fd true
    pure (update ht index r.chain, if r.found then .status r.subscriptionStatus else .absent)
  | .removeSubscriber key fd => do
    let index ← bucketOf key
    let r := unsubscribeChain (ht index) key fd
    pure (update ht index r.1, .status r.2)

def runOps (ht : HashTable) : List TableOp → Except Fault (HashTable × List Reply)
  | [] => pure (ht, [])
  | op :: ops => do
    let r ← op.run ht
    let rest ← runOps r.1 ops
    pure (rest.1, r.2 :: rest.2)

/-- What a node stands for. -/
def KeyNode.entry (n : KeyNode) : Option CStr × List Fd := (n.value, n.subscriber)

def Entry.stored (e : Entry) : Option CStr × List Fd := (some e.value, e.subscribers)

/-- The table holds for every key what the map holds. -/
def Refines (ht : HashTable) (m : KeyMap) : Prop :=
  ∀ key, (nodeOf ht key).map KeyNode.entry = (m key).map Entry.stored

theorem refines_create : Refines createHashTable fun _ => none := by
  intro key
  unfold nodeOf
  cases bucketOf key <;> rfl

theorem Refines.update {ht : HashTable} {m : KeyMap} (h : Refines ht m) {key : CStr} {b : Bucket}
    (hb : bucketOf key = .ok b) {c : List KeyNode} (hc : ChangesOnly key (ht b) c)
    {e : Option Entry} (he : (findNode key c).map KeyNode.entry = e.map Entry.stored) :
    Refines (update ht b c) (update m key e) := by
  intro j
  by_cases hj : j = key
  · subst hj
    rw [nodeOf_eq hb]
    simpa using he
  · rw [hc.nodeOf_of_ne hj, update_of_ne hj]
    exact h j

/-- A bucket that changes nothing at its key leaves the map as it is. -/
theorem Refines.same {ht : HashTable} {m : KeyMap} (h : Refines ht m) {key : CStr} {b : Bucket}
    (hb : bucketOf key = .ok b) {c : List KeyNode} (hc : ChangesOnly key (ht b) c)
    (he : (findNode key c).map KeyNode.entry = (findNode key (ht b)).map KeyNode.entry) :
    Refines (Function.update ht b c) m := by
  have hm := h key
  rw [nodeOf_eq hb, ← he] at hm
  simpa using h.update hb hc hm

/-- The two shapes of a key that is refined: absent in both, or a node with the entry. -/
theorem Refines.cases {ht : HashTable} {m : KeyMap} (h : Refines ht m) {key : CStr} {b : Bucket}
    (hb : bucketOf key = .ok b) :
    (findNode key (ht b) = none ∧ m key = none) ∨
      ∃ n e, findNode key (ht b) = some n ∧ m key = some e ∧ n.value = some e.value ∧
        n.subscriber = e.subscribers := by
  have hk := h key
  rw [nodeOf_eq hb] at hk
  cases hn : findNode key (ht b) with
  | none =>
    cases hm : m key with
    | none => exact .inl ⟨rfl, rfl⟩
    | some e => simp [hn, hm] at hk
  | some n =>
    cases hm : m key with
    | none => simp [hn, hm] at hk
    | some e =>
      simp only [hn, hm, Option.map_some, KeyNode.entry, Entry.stored, Option.some.injEq,
        Prod.mk.injEq] at hk
      exact .inr ⟨n, e, rfl, rfl, hk.1, hk.2⟩

/-! ### One operation -/

section Step
variable {ht : HashTable} {m : KeyMap} {key : CStr} {b : Bucket}

/-- What one operation has to do: no fault, the reply of the map, the invariant,
the new map, and no change at any other key. -/
structure StepOk (ht : HashTable) (m : KeyMap) (op : TableOp) (ht' : HashTable) : Prop where
  run : op.run ht = .ok (ht', (op.spec m).2)
  inv : TableInv ht'
  refines : Refines ht' (op.spec m).1
  frame : ∀ j, j ≠ op.key → nodeOf ht' j = nodeOf ht j

theorem step_writePair (hinv : TableInv ht) (hr : Refines ht m) (hb : bucketOf key = .ok b)
    (value : CStr) :
    StepOk ht m (.writePair key value)
      (update ht b (writeChain (ht b) key value .ok).chain) := by
  have hc := writeChain_changes (ht b) key value .ok
  refine ⟨?_, hc.tableInv hinv hb, hr.update hb hc ?_, fun j hj => hc.nodeOf_of_ne hj⟩
  · show (do let r ← Store.writePair ht key value .ok; pure (r.1, Reply.status r.2.1)) = _
    rw [writePair_eq hb]
    rcases hr.cases hb with ⟨hn, -⟩ | ⟨n, e, hn, -⟩
    · simp [writeChain, hn, WriteMem.ok, TableOp.spec]
    · simp [writeChain, hn, TableOp.spec]
  · rcases hr.cases hb with ⟨hn, hm⟩ | ⟨n, e, hn, hm, -, hsub⟩
    · simp [writeChain, hn, hm, WriteMem.ok, findNode, strcmp_eq_zero, KeyNode.entry, Entry.stored]
    · simp [find_writeChain hn, hm, KeyNode.entry, Entry.stored, hsub]

theorem step_readPair (hinv : TableInv ht) (hr : Refines ht m) (hb : bucketOf key = .ok b) :
    StepOk ht m (.readPair key) ht := by
  refine ⟨?_, hinv, hr, fun _ _ => rfl⟩
  show (do let v ← Store.readPair ht key true; pure (ht, Reply.value v)) = _
  rw [readPair_eq hb]
  rcases hr.cases hb with ⟨hn, hm⟩ | ⟨n, e, hn, hm, hv, -⟩
  · simp [readChain, hn, hm, TableOp.spec]
  · simp [readChain, hn, hm, hv, TableOp.spec]

theorem step_deletePair (hinv : TableInv ht) (hr : Refines ht m) (hb : bucketOf key = .ok b) :
    StepOk ht m (.deletePair key) (update ht b (deleteChain (ht b) key).chain) := by
  have hc := deleteChain_changes (ht b) key
  refine ⟨?_, hc.tableInv hinv hb, hr.update hb hc ?_, fun j hj => hc.nodeOf_of_ne hj⟩
  · show (do let r ← Store.deletePair ht key; pure (r.1, Reply.status r.2.1)) = _
    rw [deletePair_eq hb]
    rcases hr.cases hb with ⟨hn, hm⟩ | ⟨n, e, hn, hm, -⟩
    · simp [deleteChain, hn, hm, TableOp.spec]
    · simp [deleteChain, hn, hm, TableOp.spec]
  · rcases hr.cases hb with ⟨hn, -⟩ | ⟨n, e, hn, -⟩
    · simp [deleteChain, hn]
    · simp [deleteChain, hn, findNode_unlinkNode (hinv.unique b)]

theorem step_addSubscriber (hinv : TableInv ht) (hr : Refines ht m) (hb : bucketOf key = .ok b)
    (fd : Fd) :
    StepOk ht m (.addSubscriber key fd)
      (update ht b (subscribeChain (ht b) key fd true).chain) := by
  have hc := subscribeChain_changes (ht b) key fd true
  have hrun : (TableOp.addSubscriber key fd).run ht =
      .ok (update ht b (subscribeChain (ht b) key fd true).chain,
        if (subscribeChain (ht b) key fd true).found then
          .status (subscribeChain (ht b) key fd true).subscriptionStatus else .absent) := by
    show (bucketOf key >>= _) = _
    rw [hb]
    rfl
  rcases hr.cases hb with ⟨hn, hm⟩ | ⟨n, e, hn, hm, hv, hsub⟩
  · refine ⟨?_, hc.tableInv hinv hb, ?_, fun j hj => hc.nodeOf_of_ne hj⟩
    · rw [hrun]; simp [subscribeChain, hn, hm, TableOp.spec]
    · simp only [TableOp.spec, hm]
      exact hr.same hb hc (by simp [subscribeChain, hn])
  · have hf := find_subscribeChain hn fd true
    by_cases hfd : fd ∈ e.subscribers
    · refine ⟨?_, hc.tableInv hinv hb, ?_, fun j hj => hc.nodeOf_of_ne hj⟩
      · rw [hrun]; simp [subscribeChain, hn, hm, TableOp.spec, addSubscriber, hsub, hfd]
      · simp only [TableOp.spec, hm, if_pos hfd]
        refine hr.same hb hc ?_
        simp [hn, hf, addSubscriber, hsub, hfd]
    · refine ⟨?_, hc.tableInv hinv hb, ?_, fun j hj => hc.nodeOf_of_ne hj⟩
      · rw [hrun]; simp [subscribeChain, hn, hm, TableOp.spec, addSubscriber, hsub, hfd]
      · simp only [TableOp.spec, hm, if_neg hfd]
        refine hr.update hb hc ?_
        simp [hf, addSubscriber, hsub, hfd, KeyNode.entry, Entry.stored, hv]

theorem step_removeSubscriber (hinv : TableInv ht) (hr : Refines ht m)
    (hb : bucketOf key = .ok b) (fd : Fd) :
    StepOk ht m (.removeSubscriber key fd)
      (update ht b (unsubscribeChain (ht b) key fd).1) := by
  have hc := unsubscribeChain_changes (ht b) key fd
  have hrun : (TableOp.removeSubscriber key fd).run ht =
      .ok (update ht b (unsubscribeChain (ht b) key fd).1,
        .status (unsubscribeChain (ht b) key fd).2) := by
    show (bucketOf key >>= _) = _
    rw [hb]
    rfl
  rcases hr.cases hb with ⟨hn, hm⟩ | ⟨n, e, hn, hm, hv, hsub⟩
  · refine ⟨?_, hc.tableInv hinv hb, ?_, fun j hj => hc.nodeOf_of_ne hj⟩
    · rw [hrun]; simp [unsubscribeChain, hn, hm, TableOp.spec]
    · simp only [TableOp.spec, hm]
      exact hr.same hb hc (by simp [unsubscribeChain, hn])
  · have hf := find_unsubscribeChain hn fd
    by_cases hfd : fd ∈ e.subscribers
    · have hne : e.subscribers ≠ [] := List.ne_nil_of_mem hfd
      refine ⟨?_, hc.tableInv hinv hb, ?_, fun j hj => hc.nodeOf_of_ne hj⟩
      · rw [hrun]
        simp [unsubscribeChain, hn, hm, hne, TableOp.spec, removeSubscriber, hsub, hfd]
      · simp only [TableOp.spec, hm, if_pos hfd]
        refine hr.update hb hc ?_
        simp [hf, KeyNode.entry, Entry.stored, hv, hsub]
    · refine ⟨?_, hc.tableInv hinv hb, ?_, fun j hj => hc.nodeOf_of_ne hj⟩
      · rw [hrun]
        simp only [unsubscribeChain, hn, TableOp.spec, hm, if_neg hfd, removeSubscriber, hsub]
        split_ifs <;> rfl
      · simp only [TableOp.spec, hm, if_neg hfd]
        refine hr.same hb hc ?_
        have he : n.subscriber.erase fd = n.subscriber :=
          List.erase_of_not_mem (by rw [hsub]; exact hfd)
        simp [hn, hf, he]

/-- Every operation on a key with a bucket does on the table what it does on the map. -/
theorem step_ok (hinv : TableInv ht) (hr : Refines ht m) (op : TableOp)
    (hk : op.key.startsAlnum = true) : ∃ ht', StepOk ht m op ht' := by
  obtain ⟨b, hb⟩ := bucketOf_eq_ok_iff.mpr hk
  cases op with
  | writePair key value => exact ⟨_, step_writePair hinv hr hb value⟩
  | readPair key => exact ⟨_, step_readPair hinv hr hb⟩
  | deletePair key => exact ⟨_, step_deletePair hinv hr hb⟩
  | addSubscriber key fd => exact ⟨_, step_addSubscriber hinv hr hb fd⟩
  | removeSubscriber key fd => exact ⟨_, step_removeSubscriber hinv hr hb fd⟩

end Step

/-! ### Runs -/

theorem runOps_refines {ht : HashTable} {m : KeyMap} (hinv : TableInv ht) (hr : Refines ht m)
    (ops : List TableOp) (hops : ∀ op ∈ ops, op.key.startsAlnum = true) :
    ∃ ht', runOps ht ops = .ok (ht', (specAll m ops).2) ∧ TableInv ht' ∧
      Refines ht' (specAll m ops).1 := by
  induction ops generalizing ht m with
  | nil => exact ⟨ht, rfl, hinv, hr⟩
  | cons op ops ih =>
    obtain ⟨ht₁, h₁⟩ := step_ok hinv hr op (hops op List.mem_cons_self)
    obtain ⟨ht₂, hrun, hinv₂, hr₂⟩ :=
      ih h₁.inv h₁.refines fun o ho => hops o (List.mem_cons_of_mem _ ho)
    refine ⟨ht₂, ?_, hinv₂, hr₂⟩
    show (op.run ht >>= _) = _
    rw [h₁.run]
    show (runOps ht₁ ops >>= _) = _
    rw [hrun]
    rfl

/-- The table refines a finite map: after any sequence of operations on keys with
a bucket, the nodes are placed and unique, the replies are those of the map, a
read gives the last value written, a deletion succeeds exactly on a present key,
and the next operation leaves every other key alone. -/
theorem table_refines_map (ops : List TableOp) (hops : ∀ op ∈ ops, op.key.startsAlnum = true) :
    ∃ ht, runOps createHashTable ops = .ok (ht, (specAll (fun _ => none) ops).2) ∧
      (∀ b, ∀ n ∈ ht b, hash n.key = b.val) ∧ ((nodes ht).map KeyNode.key).Nodup ∧
      Refines ht (specAll (fun _ => none) ops).1 ∧
      (∀ key, key.startsAlnum = true →
        Store.readPair ht key true = .ok (lastWritten key ops) ∧
        ∃ ht' sent, Store.deletePair ht key =
          .ok (ht', if (nodeOf ht key).isSome then 0 else 1, sent)) ∧
      ∀ op : TableOp, op.key.startsAlnum = true →
        ∃ ht' reply, op.run ht = .ok (ht', reply) ∧
          (∀ j, j ≠ op.key → nodeOf ht' j = nodeOf ht j) ∧
          ∀ value n, op = .writePair op.key value → nodeOf ht op.key = some n →
            nodeOf ht' op.key = some { n with value := some value } := by
  obtain ⟨ht, hrun, hinv, hr⟩ := runOps_refines tableInv_create refines_create ops hops
  refine ⟨ht, hrun, hinv.placed, hinv.nodup_nodes, hr, fun key hk => ⟨?_, ?_⟩, fun op hk => ?_⟩
  · obtain ⟨b, hb⟩ := bucketOf_eq_ok_iff.mpr hk
    have hlast := specAll_value (fun _ => none) ops key
    rw [readPair_eq hb, lastWritten]
    rw [Option.map_none] at hlast
    rw [← hlast]
    rcases hr.cases hb with ⟨hn, hm⟩ | ⟨n, e, hn, hm, hv, -⟩
    · simp [readChain, hn, hm]
    · simp [readChain, hn, hm, hv]
  · obtain ⟨b, hb⟩ := bucketOf_eq_ok_iff.mpr hk
    refine ⟨update ht b (deleteChain (ht b) key).chain, (deleteChain (ht b) key).sent, ?_⟩
    rw [deletePair_eq hb, nodeOf_eq hb]
    cases hn : findNode key (ht b) <;> simp [deleteChain, hn]
  · obtain ⟨ht', h⟩ := step_ok hinv hr op hk
    refine ⟨ht', _, h.run, h.frame, fun value n hop hn => ?_⟩
    obtain ⟨b, hb⟩ := bucketOf_eq_ok_iff.mpr hk
    rw [nodeOf_eq hb] at hn
    have he : op.run ht = .ok (update ht b (writeChain (ht b) op.key value .ok).chain,
        .status (writeChain (ht b) op.key value .ok).status) := by
      rw [hop]
      show (do let r ← Store.writePair ht op.key value .ok; pure (r.1, Reply.status r.2.1)) = _
      rw [writePair_eq hb]
      rfl
    rw [h.run] at he
    obtain rfl : ht' = _ := congrArg Prod.fst (Except.ok.inj he)
    rw [nodeOf_eq hb]
    simpa only [update_self] using find_writeChain hn value

/-- Three keys of one bucket, one of them written twice and deleted. -/
def sharedBucket : List TableOp :=
  let a : CStr := ⟨chars ['a', 'p'], by decide⟩
  let b : CStr := ⟨chars ['A', 'p'], by decide⟩
  let c : CStr := ⟨chars ['0'], by decide⟩
  [.writePair a c, .writePair b a, .addSubscriber a 5, .writePair a b, .writePair c a,
    .readPair a, .deletePair a, .readPair b, .deletePair a]

theorem table_refines_map_sharedBucket :
    ∃ ht, runOps createHashTable sharedBucket = .ok (ht, [.status 0, .status 0, .status 0,
        .status 0, .status 0, .value (some ⟨chars ['A', 'p'], by decide⟩), .status 0,
        .value (some ⟨chars ['a', 'p'], by decide⟩), .status 1]) ∧
      (∀ b, ∀ n ∈ ht b, hash n.key = b.val) ∧ ((nodes ht).map KeyNode.key).Nodup ∧
      Store.readPair ht ⟨chars ['a', 'p'], by decide⟩ true = .ok none := by
  obtain ⟨ht, hrun, hplaced, hnodup, -, hread, -⟩ := table_refines_map sharedBucket (by decide)
  exact ⟨ht, hrun, hplaced, hnodup, (hread ⟨chars ['a', 'p'], by decide⟩ (by decide)).1⟩

end IstKvs.Store
