import IstKvs.Memory.Table

/-! The pair functions and the subscription loops on the cells of their bucket. The
node of the key is taken out of the cells around it, changed, and put back; a new
node goes to the head of the list, and a deleted one leaves nothing behind. -/

namespace IstKvs.Memory

open IstKvs.Systems IstKvs.Store

variable {ht : Addr} {heads : Bucket → Option Addr} {locks : Option Addr} {b : Bucket}
  {P R : List (Addr × Cell)} {key : CStr} {chain : List KeyNode}

/-- The bucket with the node of one key changed. -/
theorem BucketHolds.putBack {init rest : List (Addr × NodeLayout)} {a : Addr}
    {n n' : NodeLayout} {f : KeyNode → KeyNode}
    (hinit : ∀ m ∈ init, m.2.key.2 ≠ n.key.2) (hnode : n'.node = f n.node)
    (hp : P.Perm ((a, .keyNode (n'.cell (headOf rest none))) :: (n'.own ++
      around ht heads locks b R init a rest))) :
    BucketHolds ht heads locks b R
      (updateNode n.key.2 f (chainOf (init ++ (a, n) :: rest))) P := by
  refine ⟨init ++ (a, n') :: rest, ?_, hp.trans (bucket_perm init a n' rest).symm⟩
  rw [updateNode_chainOf hinit, ← hnode]
  simp [chainOf]

theorem own_perm (n : NodeLayout) (e : Option Addr) (a : Addr) (R : List (Addr × Cell)) :
    ((a, Cell.keyNode (n.cell e)) :: (n.own ++ R)).Perm
      ((a, .keyNode (n.cell e)) :: (n.subscriberCells ++
        ((n.key.1, .text n.key.2) :: (textCells n.value ++ R)))) := by
  refine .cons _ ?_
  rw [NodeLayout.own, List.cons_append, List.append_assoc, ← List.singleton_append,
    ← List.singleton_append (l := textCells n.value ++ R)]
  refine (List.Perm.append_left _ (List.perm_append_comm_assoc ..)).trans ?_
  exact List.perm_append_comm_assoc ..

section Find
variable (hb : BucketHolds ht heads locks b R chain P)
include hb

theorem BucketHolds.find (key : CStr) :
    (findNode key chain = none ∧ ∃ prev, Reads P (findKeyNode ht b key) (prev, none)) ∨
      ∃ init a n rest, chain = chainOf (init ++ (a, n) :: rest) ∧ n.key.2 = key ∧
        (∀ m ∈ init, m.2.key.2 ≠ n.key.2) ∧ findNode key chain = some n.node ∧
        Reads P (findKeyNode ht b key) (lastOf none init, some a) ∧
        P.Perm ((a, .keyNode (n.cell (headOf rest none))) :: (n.own ++
          around ht heads locks b R init a rest)) := by
  obtain ⟨c, rfl, hp⟩ := hb
  rcases reads_findKeyNode key hp with ⟨hnone, hread⟩ | ⟨init, a, n, rest, rfl, rfl, hinit, hread⟩
  · exact .inl ⟨hnone, _, hread⟩
  · exact .inr ⟨init, a, n, rest, rfl, rfl, hinit, findNode_chainOf hinit, hread,
      hp.trans (bucket_perm init a n rest)⟩

end Find

/-! ### Writing -/

theorem text_of_strdup {t : Option (Addr × CStr)} {s : CStr} {mem : Bool}
    (h : t.map Prod.snd = if mem then some s else none) :
    (mem = false ∧ t = none) ∨ (mem = true ∧ ∃ a, t = some (a, s)) := by
  rcases t with _ | ⟨a, s'⟩ <;> cases mem <;> simp_all

theorem reads_bucketIndex (hk : bucketOf key = .ok b) : Reads P (bucketIndex key) b := by
  simp only [bucketIndex, hk]
  exact Reads.pure

section Write
variable (hb : BucketHolds ht heads locks b R chain P) (value : CStr) (mem : WriteMem)
include hb

theorem BucketHolds.link {a ka va : Addr} (key value : CStr) :
    Does ((va, .text value) :: (ka, .text key) :: (a, .keyNode ⟨none, none, none, none⟩) :: P)
      (do
        let t ← loadTable ht
        store a (.keyNode ⟨some ka, some va, t.1 b, none⟩)
        setBucket ht b (some a)
        pure (0 : ℤ))
      fun status P' => status = 0 ∧
        BucketHolds ht heads locks b R (⟨key, some value, []⟩ :: chain) P' := by
  obtain ⟨c, rfl, hp⟩ := hb
  have hroot : bucketRoot ht heads locks b (headOf c none) ∈ P :=
    hp.mem_iff.mpr List.mem_cons_self
  refine (reads_loadTable (List.mem_cons_of_mem _ (List.mem_cons_of_mem _
    (List.mem_cons_of_mem _ hroot)))).does ?_
  simp only [Function.update_self]
  have hnode : ((va, Cell.text value) :: (ka, .text key) ::
      (a, .keyNode ⟨none, none, none, none⟩) :: P).Perm
      ((a, .keyNode ⟨none, none, none, none⟩) :: (va, .text value) :: (ka, .text key) :: P) :=
    @List.perm_middle _ _ [(va, Cell.text value), (ka, .text key)] _
  refine (Does.store hnode _).bind ?_
  rintro _ _ rfl
  have hset : ((a, Cell.keyNode ⟨some ka, some va, headOf c none, none⟩) ::
      (va, .text value) :: (ka, .text key) :: P).Perm
      (bucketRoot ht heads locks b (headOf c none) ::
        ((a, .keyNode ⟨some ka, some va, headOf c none, none⟩) :: (va, .text value) ::
          (ka, .text key) :: (segment keyNodeKind c none ++ R))) := by
    refine ((hp.cons _).cons _).cons _ |>.trans ?_
    exact @List.perm_middle _ _ [(a, Cell.keyNode ⟨some ka, some va, headOf c none, none⟩),
      (va, .text value), (ka, .text key)] _
  refine (does_setBucket (headOf c none) (some a) _ _ hset).bind ?_
  rintro _ _ rfl
  refine Does.pure ⟨rfl, (a, ⟨(ka, key), some (va, value), []⟩) :: c, rfl, ?_⟩
  rw [headOf_cons, segment_cons]
  exact .cons _ (.cons _ (.swap ..))

/-- Only a node that was allocated with both strings is linked; otherwise what was
allocated is freed again. -/
theorem does_newKeyNode (key : CStr) :
    Does P (newKeyNode ht b key value mem) fun status P' =>
      if !mem.keyNode || !mem.key || !mem.value then
        status = 1 ∧ BucketHolds ht heads locks b R chain P'
      else status = 0 ∧ BucketHolds ht heads locks b R (⟨key, some value, []⟩ :: chain) P' := by
  obtain ⟨keyNodeOk, keyOk, valueOk⟩ := mem
  refine (does_tryMalloc keyNodeOk _).bind fun p P₁ h => ?_
  rcases h with ⟨rfl, rfl, rfl⟩ | ⟨rfl, a, rfl, rfl⟩
  · exact Does.pure ⟨rfl, hb⟩
  refine (does_strdup key keyOk).bind fun k P₂ h => ?_
  obtain ⟨k, rfl, hk, rfl⟩ := h
  refine (does_strdup value valueOk).bind fun v P₃ h => ?_
  obtain ⟨v, rfl, hv, rfl⟩ := h
  -- a failure leaves at most one string to be freed with the node
  have hundo : Does (textCells v ++ (textCells k ++ (a, .keyNode ⟨none, none, none, none⟩) :: P))
      (do
        freePtr (k.map Prod.fst)
        freePtr (v.map Prod.fst)
        free a
        pure (1 : ℤ))
      fun status P' => status = 1 ∧ BucketHolds ht heads locks b R chain P' := by
    refine (does_freePtr (List.perm_append_comm_assoc ..)).bind fun _ P₁ hp₁ => ?_
    refine (does_freePtr hp₁).bind fun _ P₂ hp₂ => (Does.free hp₂).bind ?_
    rintro _ _ rfl
    exact Does.pure ⟨rfl, hb⟩
  rcases text_of_strdup hk with ⟨rfl, rfl⟩ | ⟨rfl, ka, rfl⟩
  · simpa using hundo
  rcases text_of_strdup hv with ⟨rfl, rfl⟩ | ⟨rfl, va, rfl⟩
  · simpa using hundo
  · exact hb.link key value

omit hb in
/-- The old value is freed and the copy of the new one takes its place. -/
theorem does_replaceValue {n : NodeLayout} {a : Addr} {e : Option Addr} {G : List (Addr × Cell)}
    (hp : P.Perm ((a, .keyNode (n.cell e)) :: (n.own ++ G))) (key : CStr) :
    Does P
      (do
        freePtr (n.cell e).value
        let v ← strdup value mem.value
        store a (.keyNode { n.cell e with value := v })
        let sent ← notifySubscribers a key value
        pure ((0 : ℤ), sent))
      fun r P' => r = (0, Store.notifySubscribers n.node key value) ∧ ∃ n' : NodeLayout,
        n'.node = { n.node with value := if mem.value then some value else none } ∧
        P'.Perm ((a, .keyNode (n'.cell e)) :: (n'.own ++ G)) := by
  have hfree : P.Perm (textCells n.value ++
      ((a, .keyNode (n.cell e)) :: (n.key.1, .text n.key.2) :: (n.subscriberCells ++ G))) := by
    refine hp.trans ?_
    rw [NodeLayout.own, List.cons_append, List.append_assoc]
    exact List.perm_append_comm_assoc [(a, .keyNode (n.cell e)), (n.key.1, .text n.key.2)]
      (textCells n.value) _
  refine (does_freePtr hfree).bind fun _ P₁ hp₁ => ?_
  refine (does_strdup value mem.value).bind fun v P₂ h => ?_
  obtain ⟨v, rfl, hv, rfl⟩ := h
  have hstore : (textCells v ++ P₁).Perm ((a, .keyNode (n.cell e)) :: (textCells v ++
      ((n.key.1, .text n.key.2) :: (n.subscriberCells ++ G)))) :=
    (hp₁.append_left _).trans List.perm_middle
  refine (Does.store hstore _).bind ?_
  rintro _ _ rfl
  -- the node with the new value
  have hown : ((a, Cell.keyNode { n.cell e with value := v.map Prod.fst }) :: (textCells v ++
      ((n.key.1, .text n.key.2) :: (n.subscriberCells ++ G)))).Perm
      ((a, .keyNode (({ n with value := v } : NodeLayout).cell e)) ::
        (({ n with value := v } : NodeLayout).own ++ G)) := by
    refine .cons _ ?_
    rw [NodeLayout.own, List.cons_append, List.append_assoc]
    exact List.perm_middle
  refine (reads_notifySubscribers (hown.trans (own_perm ..)) key value).does ?_
  exact Does.pure ⟨rfl, _, by simp [NodeLayout.node, hv], hown⟩

theorem does_writePair (hk : bucketOf key = .ok b) :
    Does P (writePair ht key value mem) fun r P' =>
      r = ((writeChain chain key value mem).status, (writeChain chain key value mem).sent) ∧
      BucketHolds ht heads locks b R (writeChain chain key value mem).chain P' := by
  refine (reads_bucketIndex hk).does ?_
  rcases hb.find key with ⟨hnone, prev, hread⟩ |
    ⟨init, a, n, rest, rfl, rfl, hinit, hfind, hread, hp⟩
  · refine hread.does ((does_newKeyNode hb value mem key).bind fun status P' h => Does.pure ?_)
    simp only [writeChain, hnone]
    split_ifs at h ⊢ with hmem
    · exact ⟨by rw [h.1], h.2⟩
    · exact ⟨by rw [h.1], h.2⟩
  · refine hread.does ((reads_loadKeyNode (hp.mem_iff.mpr List.mem_cons_self)).does ?_)
    refine (does_replaceValue value mem hp n.key.2).imp fun r P' h => ⟨P', .rfl, ?_⟩
    obtain ⟨hr, n', hn', hp'⟩ := h
    simp only [writeChain, hfind]
    refine ⟨hr, BucketHolds.putBack (f := fun m =>
      { m with value := if mem.value then some value else none }) hinit hn' hp'⟩

end Write

/-! ### Reading -/

theorem reads_node {n : NodeLayout} {a : Addr} {e : Option Addr} {G : List (Addr × Cell)}
    (hp : P.Perm ((a, .keyNode (n.cell e)) :: (n.own ++ G))) {t : Addr × CStr}
    (ht : n.value = some t) : Reads P (loadText (n.cell e).value) t.2 := by
  have hcell : (n.cell e).value = some t.1 := by rw [NodeLayout.cell, ht]; rfl
  rw [hcell]
  refine reads_loadText (hp.mem_iff.mpr ?_)
  simp [NodeLayout.own, textCells, ht]

/-- The bucket stays as it is; the result is a new string, NULL, or the copy of a NULL value. -/
theorem does_readPair (hb : BucketHolds ht heads locks b R chain P) (hk : bucketOf key = .ok b)
    (mem : Bool) :
    match readChain chain key mem with
    | .ok value => Does P (readPair ht key mem) fun p P' => ∃ t : Option (Addr × CStr),
        p = t.map Prod.fst ∧ t.map Prod.snd = value ∧ P' = textCells t ++ P
    | .error f => Fails P (readPair ht key mem) f := by
  have hindex := reads_bucketIndex (P := P) hk
  rcases hb.find key with ⟨hnone, prev, hread⟩ |
    ⟨init, a, n, rest, rfl, rfl, hinit, hfind, hread, hp⟩
  · simp only [readChain, hnone]
    exact hindex.does (hread.does (Does.pure ⟨none, rfl, rfl, rfl⟩))
  · have hnode := reads_loadKeyNode (hp.mem_iff.mpr List.mem_cons_self)
    simp only [readChain, hfind, NodeLayout.node]
    cases hv : n.value with
    | none =>
      have hcell : (n.cell (headOf rest none)).value = none := by rw [NodeLayout.cell, hv]; rfl
      refine hindex.fails (hread.fails (hnode.fails ?_))
      rw [hcell]
      exact Fails.fail.bind _ |>.bind _
    | some t =>
      exact hindex.does (hread.does (hnode.does ((reads_node hp hv).does (does_strdup t.2 mem))))

/-! ### Deleting -/

theorem does_deletePair (hb : BucketHolds ht heads locks b R chain P) (hk : bucketOf key = .ok b) :
    Does P (deletePair ht key) fun r P' =>
      r = ((deleteChain chain key).status, (deleteChain chain key).sent) ∧
      BucketHolds ht heads locks b R (deleteChain chain key).chain P' := by
  refine (reads_bucketIndex hk).does ?_
  rcases hb.find key with ⟨hnone, prev, hread⟩ |
    ⟨init, a, n, rest, rfl, rfl, hinit, hfind, hread, hp⟩
  · simp only [deleteChain, hnone]
    exact hread.does (Does.pure ⟨rfl, hb⟩)
  · simp only [deleteChain, hfind]
    refine hread.does ((reads_notifySubscribers (hp.trans (own_perm ..)) _ _).does ?_)
    have hnode : (a, .keyNode (n.cell (headOf rest none))) ∈ P :=
      hp.mem_iff.mpr List.mem_cons_self
    refine (Reads.getNext (κ := keyNodeKind) hnode).does ?_
    have hlink : P.Perm (bucketRoot ht heads locks b (headOf init (some a)) ::
        (segment keyNodeKind init (some a) ++ ((a, .keyNode (n.cell (headOf rest none))) ::
          (n.own ++ (segment keyNodeKind rest none ++ R))))) := by
      refine hp.trans ((bucket_perm init a n rest).symm.trans (.of_eq ?_))
      rw [headOf_append, segment_append, segment_cons]
      simp [keyNodeKind]
    refine (Does.relink (κ := keyNodeKind) does_setBucket init hlink).bind fun _ P₁ hp₁ => ?_
    have hfree : P₁.Perm ((a, .keyNode (n.cell (headOf rest none))) :: (n.own ++
        (bucketRoot ht heads locks b (headOf init (headOf rest none)) ::
          (segment keyNodeKind init (headOf rest none) ++
            (segment keyNodeKind rest none ++ R))))) := by
      refine hp₁.trans ?_
      rw [← List.cons_append]
      exact List.perm_middle.trans (.cons _ (List.perm_append_comm_assoc ..))
    refine (does_freeKeyNode (a, n) _ hfree).bind fun _ P₂ hp₂ => Does.pure ⟨rfl, ?_⟩
    refine ⟨init ++ rest, (unlinkNode_chainOf hinit).symm, hp₂.trans (.of_eq ?_)⟩
    rw [headOf_append, segment_append, List.append_assoc]

/-! ### Subscriptions -/

section Subscribe
variable (hb : BucketHolds ht heads locks b R chain P) (fd : Fd)
include hb

theorem does_subscribeKey (mem : Bool) :
    Does P (subscribeKey ht b key fd mem) fun r P' =>
      r = ((subscribeChain chain key fd mem).subscriptionStatus,
        (subscribeChain chain key fd mem).found) ∧
      BucketHolds ht heads locks b R (subscribeChain chain key fd mem).chain P' := by
  rcases hb.find key with ⟨hnone, prev, hread⟩ |
    ⟨init, a, n, rest, rfl, rfl, hinit, hfind, hread, hp⟩
  · simp only [subscribeChain, hnone]
    exact hread.does (Does.pure ⟨rfl, hb⟩)
  · simp only [subscribeChain, hfind]
    refine hread.does ((does_addSubscriber (hp.trans (own_perm ..)) fd mem).bind
      fun status P' h => Does.pure ?_)
    obtain ⟨n', hkey, hvalue, hr, hp'⟩ := h
    rw [← hkey, ← hvalue] at hp'
    have hown := hp'.trans (own_perm n' ..).symm
    rw [← hr]
    exact ⟨rfl, BucketHolds.putBack (f := fun m => (Store.addSubscriber m fd mem).1) hinit
      (congrArg Prod.fst hr) hown⟩

theorem does_auxUnsubscribe (hk : bucketOf key = .ok b) :
    Does P (auxUnsubscribe ht key fd) fun r P' => r = (unsubscribeChain chain key fd).2 ∧
      BucketHolds ht heads locks b R (unsubscribeChain chain key fd).1 P' := by
  refine (reads_bucketIndex hk).does ?_
  rcases hb.find key with ⟨hnone, prev, hread⟩ |
    ⟨init, a, n, rest, hchain, rfl, hinit, hfind, hread, hp⟩
  · simp only [unsubscribeChain, hnone]
    exact hread.does (Does.pure ⟨rfl, hb⟩)
  · simp only [unsubscribeChain, hfind]
    refine hread.does ((reads_loadKeyNode (hp.mem_iff.mpr List.mem_cons_self)).does ?_)
    cases hs : n.subscriber with
    | nil =>
      have hcell : (n.cell (headOf rest none)).subscriber = none := by
        rw [NodeLayout.cell, hs]
        rfl
      have hnode : n.node.subscriber = [] := by rw [NodeLayout.node, hs]; rfl
      rw [hcell, if_pos hnode]
      exact Does.pure ⟨rfl, hb⟩
    | cons s l =>
      have hcell : (n.cell (headOf rest none)).subscriber = some s.1 := by
        rw [NodeLayout.cell, hs]
        rfl
      have hnode : n.node.subscriber ≠ [] := by rw [NodeLayout.node, hs]; simp
      rw [hcell, if_neg hnode, hchain]
      refine (does_removeSubscriber (hp.trans (own_perm ..)) fd).imp fun r P' h => ⟨P', .rfl, ?_⟩
      obtain ⟨n', hkey, hvalue, hr, hp'⟩ := h
      rw [← hkey, ← hvalue] at hp'
      exact ⟨congrArg Prod.snd hr, BucketHolds.putBack
        (f := fun m => (Store.removeSubscriber m fd).1) hinit (congrArg Prod.fst hr)
        (hp'.trans (own_perm n' ..).symm)⟩

end Subscribe

end IstKvs.Memory
