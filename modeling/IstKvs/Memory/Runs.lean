import IstKvs.Memory.Pairs

/-! The whole table in memory, over runs of calls. A table is represented by the
cells of its buckets and nothing else, each call does in memory what it does to the
table of the model, and the memory of a table that is freed at the end is the memory
from before it was created. -/

namespace IstKvs.Memory

open IstKvs.Systems IstKvs.Store Function

/-! ### Representation -/

def tableCells (ht locks : Addr) (chains : Bucket → List (Addr × NodeLayout)) :
    List (Addr × Cell) :=
  (ht, .hashTable (fun b => headOf (chains b) none) (some locks)) :: (locks, .bucketLocks) ::
    (List.finRange tableSize).flatMap fun b => segment keyNodeKind (chains b) none

/-- The cells are those of the table and no others. -/
def Represents (ht : Addr) (table : HashTable) (P : List (Addr × Cell)) : Prop :=
  ∃ locks chains, (∀ b, chainOf (chains b) = table b) ∧ P.Perm (tableCells ht locks chains)

section Buckets
variable {ht : Addr} {table : HashTable} {P : List (Addr × Cell)}

theorem flatMap_finRange {A : Type} {n : ℕ} (f : Fin n → List A) (b : Fin n) :
    ((List.finRange n).flatMap f).Perm (f b ++ ((List.finRange n).erase b).flatMap f) :=
  (List.perm_cons_erase (List.mem_finRange b)).flatMap_right f

/-- Any bucket can be looked at alone: what is done to it is done to the table. -/
theorem Represents.bucket (hr : Represents ht table P) (b : Bucket) :
    ∃ heads locks R, BucketHolds ht heads locks b R (table b) P ∧
      ∀ chain P', BucketHolds ht heads locks b R chain P' →
        Represents ht (update table b chain) P' := by
  obtain ⟨locks, chains, hc, hp⟩ := hr
  refine ⟨fun b => headOf (chains b) none, some locks, (locks, .bucketLocks) ::
    ((List.finRange tableSize).erase b).flatMap fun b => segment keyNodeKind (chains b) none,
    ⟨chains b, hc b, hp.trans ?_⟩, ?_⟩
  · rw [bucketRoot, update_eq_self]
    refine .cons _ (((flatMap_finRange _ b).cons _).trans ?_)
    exact List.perm_middle.symm
  · rintro chain P' ⟨c, rfl, hp'⟩
    refine ⟨locks, update chains b c, fun b' => ?_, hp'.trans ?_⟩
    · by_cases hb : b' = b
      · subst hb; simp
      · simp [hb, hc]
    · have hheads : update (fun b => headOf (chains b) none) b (headOf c none) =
          fun b' => headOf (update chains b c b') none := by
        funext b'
        by_cases hb : b' = b
        · subst hb; simp
        · simp [hb]
      have hrest : (((List.finRange tableSize).erase b).flatMap
          fun b' => segment keyNodeKind (chains b') none) =
          ((List.finRange tableSize).erase b).flatMap
            fun b' => segment keyNodeKind (update chains b c b') none := by
        refine List.flatMap_congr fun b' hb' => ?_
        have hne : b' ≠ b := ((List.nodup_finRange tableSize).mem_erase_iff.mp hb').1
        rw [update_of_ne hne]
      rw [bucketRoot, hheads, hrest]
      refine .cons _ (List.perm_middle.trans (.cons _ ?_))
      have hself : segment keyNodeKind c none = segment keyNodeKind (update chains b c b) none := by
        rw [update_self]
      rw [hself]
      exact (flatMap_finRange (fun b' => segment keyNodeKind (update chains b c b') none) b).symm

end Buckets

/-! ### Calls -/

/-- A call on the table, with the outcomes of its allocations. The reader of a value
prints the copy and frees it. -/
inductive Call
  | write (key value : CStr) (mem : WriteMem)
  | read (key : CStr) (mem : Bool)
  | delete (key : CStr)
  | subscribe (key : CStr) (fdNotif : Fd) (mem : Bool)
  | unsubscribe (key : CStr) (fdNotif : Fd)

/-- What a call returns or sends. -/
inductive Answer
  | pair (status : ℤ) (sent : List Message)
  | value (value : Option CStr)
  | subscription (status : ℤ) (found : Bool)
  | removal (result : ℤ)

/-- The copy of a value as its reader uses it. -/
def useCopy : Option Addr → Prog (Option CStr)
  | none => pure none
  | some a => do
    let s ← loadText (some a)
    free a
    pure (some s)

def Call.inMemory (ht : Addr) : Call → Prog Answer
  | .write key value mem => do
    let r ← writePair ht key value mem
    pure (.pair r.1 r.2)
  | .read key mem => do
    let p ← readPair ht key mem
    let value ← useCopy p
    pure (.value value)
  | .delete key => do
    let r ← deletePair ht key
    pure (.pair r.1 r.2)
  | .subscribe key fdNotif mem => do
    let index ← bucketIndex key
    let r ← subscribeKey ht index key fdNotif mem
    pure (.subscription r.1 r.2)
  | .unsubscribe key fdNotif => do
    let r ← auxUnsubscribe ht key fdNotif
    pure (.removal r)

/-- The call on the table of the model. -/
def Call.onTable : Call → StateT HashTable (Except Fault) Answer
  | .write key value mem => fun table => do
    let r ← Store.writePair table key value mem
    pure (.pair r.2.1 r.2.2, r.1)
  | .read key mem => fun table => do
    let value ← Store.readPair table key mem
    pure (.value value, table)
  | .delete key => fun table => do
    let r ← Store.deletePair table key
    pure (.pair r.2.1 r.2.2, r.1)
  | .subscribe key fdNotif mem => fun table => do
    let index ← bucketOf key
    let r := subscribeChain (table index) key fdNotif mem
    pure (.subscription r.subscriptionStatus r.found, update table index r.chain)
  | .unsubscribe key fdNotif => fun table => do
    let index ← bucketOf key
    let r := unsubscribeChain (table index) key fdNotif
    pure (.removal r.2, update table index r.1)

theorem fails_bucketIndex {P : List (Addr × Cell)} {key : CStr} {f : Fault} {B : Type}
    (hk : bucketOf key = .error f) (k : Bucket → Prog B) : Fails P (bucketIndex key >>= k) f := by
  simp only [bucketIndex, hk]
  exact Fails.fail.bind k

theorem does_useCopy {P : List (Addr × Cell)} (t : Option (Addr × CStr)) :
    Does (textCells t ++ P) (useCopy (t.map Prod.fst)) fun v P' =>
      v = t.map Prod.snd ∧ P' = P := by
  cases t with
  | none => exact Does.pure ⟨rfl, rfl⟩
  | some t =>
    refine (reads_loadText List.mem_cons_self).does ((Does.free .rfl).bind ?_)
    rintro _ _ rfl
    exact Does.pure ⟨rfl, rfl⟩

/-- Every call does in memory what it does to the table of the model. -/
theorem Call.refines (ht : Addr) (call : Call) :
    Refines (Represents ht) (call.inMemory ht) call.onTable := by
  intro table P hr
  cases call with
  | write key value mem =>
    cases hk : bucketOf key with
    | error f =>
      simp only [Call.onTable, Store.writePair, hk]
      exact (fails_bucketIndex hk _).bind _
    | ok b =>
      obtain ⟨heads, locks, R, hb, hback⟩ := hr.bucket b
      simp only [Call.onTable, writePair_eq hk]
      exact (does_writePair hb value mem hk).bind fun r P' ⟨hres, hb'⟩ =>
        Does.pure ⟨by rw [hres], hback _ _ hb'⟩
  | read key mem =>
    cases hk : bucketOf key with
    | error f =>
      simp only [Call.onTable, Store.readPair, hk]
      exact (fails_bucketIndex hk _).bind _
    | ok b =>
      obtain ⟨heads, locks, R, hb, hback⟩ := hr.bucket b
      have hread := does_readPair hb hk mem
      simp only [Call.onTable, readPair_eq hk]
      cases hv : readChain (table b) key mem with
      | error f =>
        rw [hv] at hread
        exact hread.bind _
      | ok v =>
        rw [hv] at hread
        refine hread.bind fun p P' ⟨t, hp, hval, hP'⟩ => ?_
        subst hp hval hP'
        refine (does_useCopy t).bind ?_
        rintro _ _ ⟨rfl, rfl⟩
        exact Does.pure ⟨rfl, hr⟩
  | delete key =>
    cases hk : bucketOf key with
    | error f =>
      simp only [Call.onTable, Store.deletePair, hk]
      exact (fails_bucketIndex hk _).bind _
    | ok b =>
      obtain ⟨heads, locks, R, hb, hback⟩ := hr.bucket b
      simp only [Call.onTable, deletePair_eq hk]
      exact (does_deletePair hb hk).bind fun r P' ⟨hres, hb'⟩ =>
        Does.pure ⟨by rw [hres], hback _ _ hb'⟩
  | subscribe key fdNotif mem =>
    cases hk : bucketOf key with
    | error f =>
      simp only [Call.onTable, hk]
      exact fails_bucketIndex hk _
    | ok b =>
      obtain ⟨heads, locks, R, hb, hback⟩ := hr.bucket b
      simp only [Call.onTable, hk]
      exact (reads_bucketIndex hk).does ((does_subscribeKey hb fdNotif mem).bind
        fun r P' ⟨hres, hb'⟩ => Does.pure ⟨by rw [hres], hback _ _ hb'⟩)
  | unsubscribe key fdNotif =>
    cases hk : bucketOf key with
    | error f =>
      simp only [Call.onTable, hk]
      exact (fails_bucketIndex hk _).bind _
    | ok b =>
      obtain ⟨heads, locks, R, hb, hback⟩ := hr.bucket b
      simp only [Call.onTable, hk]
      exact (does_auxUnsubscribe hb fdNotif hk).bind fun r P' ⟨hres, hb'⟩ =>
        Does.pure ⟨by rw [hres], hback _ _ hb'⟩

/-! ### From creation to the end -/

/-- What `create_hash_table` leaves: a table, nothing, or two allocations that nothing
refers to. -/
theorem does_createHashTable (mem : CreateMem) :
    Does [] (createHashTable mem) fun r P' =>
      if !mem.table || !mem.bucketLocks then r = none ∧ P' = []
      else if mem.locks then ∃ ht, r = some ht ∧ Represents ht Store.createHashTable P'
      else r = none ∧ P'.length = 2 := by
  obtain ⟨table, bucketLocks, locks⟩ := mem
  refine (does_tryMalloc table _).bind fun p P₁ h => ?_
  rcases h with ⟨rfl, rfl, rfl⟩ | ⟨rfl, ht, rfl, rfl⟩
  · exact Does.pure ⟨rfl, rfl⟩
  refine (does_tryMalloc bucketLocks _).bind fun p P₂ h => ?_
  rcases h with ⟨rfl, rfl, rfl⟩ | ⟨rfl, l, rfl, rfl⟩
  · refine (Does.free .rfl).bind ?_
    rintro _ _ rfl
    exact Does.pure ⟨rfl, rfl⟩
  refine (Does.store (List.Perm.swap ..) _).bind ?_
  rintro _ _ rfl
  cases locks with
  | false => exact Does.pure ⟨rfl, rfl⟩
  | true =>
    refine Does.pure ⟨ht, rfl, l, fun _ => [], fun _ => rfl, .of_eq ?_⟩
    simp [tableCells]

theorem does_freeBuckets {P R : List (Addr × Cell)} (chains : Bucket → List (Addr × NodeLayout))
    (bs : List Bucket)
    (hp : P.Perm ((bs.flatMap fun b => segment keyNodeKind (chains b) none) ++ R)) :
    Does P (bs.forM fun i => do
      let fuel ← handedOut
      release keyNodeAccess freeKeyNode fuel (headOf (chains i) none)) fun _ P' => P'.Perm R := by
  induction bs generalizing P with
  | nil => exact Does.pure hp
  | cons b bs ih =>
    rw [List.flatMap_cons, List.append_assoc] at hp
    have hrelease : Does P (do
        let fuel ← handedOut
        release keyNodeAccess freeKeyNode fuel (headOf (chains b) none)) fun _ P' =>
          P'.Perm ((bs.flatMap fun b => segment keyNodeKind (chains b) none) ++ R) := by
      refine Does.handedOut fun fuel hfuel => ?_
      refine Does.release (κ := keyNodeKind) (fun n e P R h => does_freeKeyNode n e h) _ hp ?_
      have hle := length_le_segment (κ := keyNodeKind) (chains b) none
      have hperm := hp.length_eq
      rw [List.length_append] at hperm
      omega
    exact hrelease.bind fun _ P' hp' => ih hp'

theorem does_freeTable {ht : Addr} {table : HashTable} {P : List (Addr × Cell)}
    (hr : Represents ht table P) : Does P (freeTable ht) fun _ P' => P' = [] := by
  obtain ⟨locks, chains, -, hp⟩ := hr
  refine (reads_loadTable (hp.mem_iff.mpr List.mem_cons_self)).does ?_
  have hbuckets : P.Perm (((List.finRange tableSize).flatMap fun b =>
      segment keyNodeKind (chains b) none) ++ [(locks, .bucketLocks),
        (ht, .hashTable (fun b => headOf (chains b) none) (some locks))]) := by
    refine hp.trans ((List.Perm.swap ..).trans ?_)
    exact @List.perm_append_comm _ [_, _] _
  refine (does_freeBuckets chains _ hbuckets).bind fun _ P₁ hp₁ => ?_
  refine (Does.free hp₁).bind ?_
  rintro _ _ rfl
  exact Does.free .rfl

/-- A new table and calls on it. -/
def underway (calls : List Call) : Prog (Option (Addr × List Answer)) := do
  let ht ← createHashTable ⟨true, true, true⟩
  match ht with
  | none => pure none
  | some ht =>
    let answers ← calls.mapM (Call.inMemory ht)
    pure (some (ht, answers))

/-- A table over its whole life. -/
def lifetime (calls : List Call) : Prog (Option (List Answer)) := do
  let r ← underway calls
  match r with
  | none => pure none
  | some (ht, answers) =>
    freeTable ht
    pure (some answers)

section Calls
variable {calls : List Call} {answers : List Answer} {table : HashTable} {f : Fault}

theorem does_underway (h : calls.mapM Call.onTable Store.createHashTable = .ok (answers, table)) :
    Does [] (underway calls) fun r P' =>
      ∃ ht, r = some (ht, answers) ∧ Represents ht table P' := by
  refine (does_createHashTable ⟨true, true, true⟩).bind ?_
  rintro _ P₁ ⟨ht, rfl, hr⟩
  refine ((Refines.mapM (Call.refines ht) calls).of_ok hr h).bind ?_
  rintro _ P₂ ⟨rfl, hr₂⟩
  exact Does.pure ⟨ht, rfl, hr₂⟩

theorem fails_underway (h : calls.mapM Call.onTable Store.createHashTable = .error f) :
    Fails [] (underway calls) f := by
  refine (does_createHashTable ⟨true, true, true⟩).fails ?_
  rintro _ P₁ ⟨ht, rfl, hr⟩
  exact ((Refines.mapM (Call.refines ht) calls).of_error hr h).bind _

end Calls

/-- Whatever is in memory, a table that is created, used by any calls and freed
answers as the model does and leaves the memory as it was; the only errors are
those of the model, a key without a bucket and the copy of a NULL value, so that no
call uses memory that was freed, frees it twice or runs in a circle. -/
theorem lifetime_run (calls : List Call) :
    match calls.mapM Call.onTable Store.createHashTable with
    | .ok (answers, _) => Does [] (lifetime calls) fun r P' => r = some answers ∧ P' = []
    | .error f => Fails [] (lifetime calls) f := by
  cases hrun : calls.mapM Call.onTable Store.createHashTable with
  | error f => exact (fails_underway hrun).bind _
  | ok r =>
    refine (does_underway hrun).bind ?_
    rintro _ P₁ ⟨ht, rfl, hr⟩
    refine (does_freeTable hr).bind ?_
    rintro _ _ rfl
    exact Does.pure ⟨rfl, rfl⟩

/-! ### Memory in use -/

/-- The allocations of a node: the node and its key, its value unless it is NULL, and
its subscribers. -/
def nodeSize (n : KeyNode) : ℕ := 2 + n.value.toList.length + n.subscriber.length

/-- The allocations of a table: the table, its locks, and its nodes. -/
def memoryOf (table : HashTable) : ℕ := 2 + ((nodes table).map nodeSize).sum

theorem length_segment_subscriber (l : List (Addr × Fd)) (e : Option Addr) :
    (segment subscriberKind l e).length = l.length := by
  induction l with
  | nil => rfl
  | cons n l ih =>
    rw [segment_cons, List.length_cons, List.length_append, ih]
    simp [subscriberKind]

theorem length_segment_keyNode (c : List (Addr × NodeLayout)) (e : Option Addr) :
    (segment keyNodeKind c e).length = ((chainOf c).map nodeSize).sum := by
  induction c with
  | nil => rfl
  | cons n c ih =>
    have hown : (keyNodeKind.own n.2).length = 1 + n.2.value.toList.length +
        n.2.subscriber.length := by
      simp only [keyNodeKind, NodeLayout.own, NodeLayout.subscriberCells, List.length_cons,
        List.length_append, length_segment_subscriber, textCells, List.length_map]
      omega
    have hnode : nodeSize n.2.node = 2 + n.2.value.toList.length + n.2.subscriber.length := by
      cases hv : n.2.value <;> simp [nodeSize, NodeLayout.node, hv]
    have hcons : ((chainOf (n :: c)).map nodeSize).sum =
        nodeSize n.2.node + ((chainOf c).map nodeSize).sum := by
      simp [chainOf]
    rw [segment_cons, List.length_cons, List.length_append, ih, hown, hcons, hnode]
    omega

theorem Represents.length {ht : Addr} {table : HashTable} {P : List (Addr × Cell)}
    (hr : Represents ht table P) : P.length = memoryOf table := by
  obtain ⟨locks, chains, hc, hp⟩ := hr
  have hnodes : ((nodes table).map nodeSize).sum =
      ((List.finRange tableSize).map fun b => ((table b).map nodeSize).sum).sum := by
    rw [nodes]
    induction List.finRange tableSize with
    | nil => rfl
    | cons b bs ih => simp [List.flatMap_cons, ih]
  rw [hp.length_eq, tableCells, memoryOf, hnodes, List.length_cons, List.length_cons,
    List.length_flatMap]
  simp only [length_segment_keyNode, hc]
  omega

end IstKvs.Memory
