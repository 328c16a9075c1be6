import IstKvs.Store.Table

/-! The hash table of the first part (`proj_p1/kvs.c`), which has the hash function of the second
part. Its `read_pair` prints the value and a count of reads into a new string, returns the
address of that string through a variable of type `char`, and counts the read in the node. -/

namespace IstKvs.ProjP1

open IstKvs.Systems Function
open IstKvs.Store (CStr chars decimal charValue strcmp strcmp_eq_zero Bucket bucketOf Fault WriteMem
  ok_of_bind ok_of_map bucketOf_eq_ok_iff)

/-- `value` is NULL when copying the new value of an update failed. -/
structure KeyNode where
  key : CStr
  value : Option CStr
  count : Int32
  deriving DecidableEq

namespace KeyNode

def setValue (value : Option CStr) (n : KeyNode) : KeyNode := { n with value := value }

/-- `keyNode->count++`. -/
def countRead (n : KeyNode) : KeyNode := { n with count := n.count + 1 }

theorem setValue_key (value : Option CStr) (n : KeyNode) : (n.setValue value).key = n.key := rfl

theorem countRead_key (n : KeyNode) : n.countRead.key = n.key := rfl

end KeyNode

abbrev HashTable := Bucket → List KeyNode

def createHashTable : HashTable := fun _ => []

/-! ### The search loops -/

def findNode (key : CStr) : List KeyNode → Option KeyNode
  | [] => none
  | keyNode :: next => if strcmp keyNode.key key = 0 then some keyNode else findNode key next

def updateNode (key : CStr) (f : KeyNode → KeyNode) : List KeyNode → List KeyNode
  | [] => []
  | keyNode :: next =>
    if strcmp keyNode.key key = 0 then f keyNode :: next else keyNode :: updateNode key f next

def unlinkNode (key : CStr) : List KeyNode → List KeyNode
  | [] => []
  | keyNode :: next =>
    if strcmp keyNode.key key = 0 then next else keyNode :: unlinkNode key next

theorem findNode_eq (key : CStr) (c : List KeyNode) :
    findNode key c = Chain.lookup KeyNode.key key c := by
  induction c with
  | nil => rfl
  | cons n c ih => simp only [findNode, strcmp_eq_zero, ih, Chain.lookup_cons]

theorem updateNode_eq (key : CStr) (f : KeyNode → KeyNode) (c : List KeyNode) :
    updateNode key f c = Chain.modify KeyNode.key key f c := by
  induction c with
  | nil => rfl
  | cons n c ih => simp only [updateNode, strcmp_eq_zero, ih, Chain.modify]

theorem unlinkNode_eq (key : CStr) (c : List KeyNode) :
    unlinkNode key c = Chain.unlink KeyNode.key key c := by
  induction c with
  | nil => rfl
  | cons n c ih => simp only [unlinkNode, strcmp_eq_zero, ih, Chain.unlink]

/-! ### Pairs -/

/-- The chain and the status after a write. A new node has whatever `count` the allocated memory
held. -/
def writeChain (chain : List KeyNode) (key value : CStr) (mem : WriteMem) (count : Int32) :
    List KeyNode × ℤ :=
  match findNode key chain with
  | some _ =>
    (updateNode key (KeyNode.setValue (if mem.value then some value else none)) chain, 0)
  | none =>
    if !mem.keyNode || !mem.key || !mem.value then (chain, 1)
    else (⟨key, some value, count⟩ :: chain, 0)

/-- What `asprintf` does: the eight bytes that it leaves at the address given for the pointer,
which are the address of its string if it succeeds. -/
structure Asprintf where
  pointer : UInt64
  ok : Bool

/-- `%d` of an `int`. -/
def printInt (n : Int32) : List UInt8 :=
  if n.toInt < 0 then UInt8.ofNat '-'.toNat :: decimal n.toInt.natAbs else decimal n.toInt.natAbs

/-- The format `"%s %d"`. -/
def countedValue (value : CStr) (count : Int32) : List UInt8 :=
  value.bytes ++ UInt8.ofNat ' '.toNat :: printInt count

/-- A pointer stored in a `char` and made a pointer again: its lowest byte with its sign. The
other bytes are stored past the variable. -/
def charPointer (pointer : UInt64) : UInt64 := UInt64.ofInt (charValue pointer.toUInt8)

/-- The pointer that `read_pair` returns, and the string at it, if it is the address of one. -/
structure ReadValue where
  pointer : UInt64
  text : Option (List UInt8)
  deriving DecidableEq

def readChain (chain : List KeyNode) (key : CStr) (out : Asprintf) :
    Except Fault (List KeyNode × ReadValue) :=
  match findNode key chain with
  | some keyNode =>
    match keyNode.value with
    | some value =>
      let pointer := charPointer out.pointer
      .ok (updateNode key KeyNode.countRead chain,
        ⟨pointer, if out.ok ∧ pointer = out.pointer then some (countedValue value keyNode.count)
          else none⟩)
    | none => .error .null
  | none => .ok (chain, ⟨0, none⟩)

def deleteChain (chain : List KeyNode) (key : CStr) : List KeyNode × ℤ :=
  match findNode key chain with
  | some _ => (unlinkNode key chain, 0)
  | none => (chain, 1)

/-- A read finds no node and changes nothing, or counts itself in the node of the key. -/
theorem readChain_cases {c : List KeyNode} {key : CStr} {out : Asprintf}
    {r : List KeyNode × ReadValue} (h : readChain c key out = .ok r) :
    (Chain.lookup KeyNode.key key c = none ∧ r = (c, ⟨0, none⟩)) ∨
      ∃ n, Chain.lookup KeyNode.key key c = some n ∧
        r.1 = Chain.modify KeyNode.key key KeyNode.countRead c := by
  unfold readChain at h
  rw [findNode_eq, updateNode_eq] at h
  cases hl : Chain.lookup KeyNode.key key c with
  | none =>
    simp only [hl, Except.ok.injEq] at h
    exact .inl ⟨rfl, h.symm⟩
  | some n =>
    cases hv : n.value with
    | none => simp [hl, hv] at h
    | some value =>
      simp only [hl, hv, Except.ok.injEq] at h
      exact .inr ⟨n, rfl, by rw [← h]⟩

def writePair (ht : HashTable) (key value : CStr) (mem : WriteMem) (count : Int32) :
    Except Fault (HashTable × ℤ) := do
  let index ← bucketOf key
  let r := writeChain (ht index) key value mem count
  pure (update ht index r.1, r.2)

def readPair (ht : HashTable) (key : CStr) (out : Asprintf) :
    Except Fault (HashTable × ReadValue) := do
  let index ← bucketOf key
  let r ← readChain (ht index) key out
  pure (update ht index r.1, r.2)

def deletePair (ht : HashTable) (key : CStr) : Except Fault (HashTable × ℤ) := do
  let index ← bucketOf key
  let r := deleteChain (ht index) key
  pure (update ht index r.1, r.2)

section Indexed
variable {ht : HashTable} {key : CStr} {b : Bucket} (h : bucketOf key = .ok b)
include h

theorem writePair_eq (value : CStr) (mem : WriteMem) (count : Int32) :
    writePair ht key value mem count =
      .ok (update ht b (writeChain (ht b) key value mem count).1,
        (writeChain (ht b) key value mem count).2) := by
  unfold writePair
  rw [h]
  rfl

theorem readPair_eq (out : Asprintf) :
    readPair ht key out = (readChain (ht b) key out).map fun r => (update ht b r.1, r.2) := by
  unfold readPair
  rw [h]
  rfl

theorem deletePair_eq :
    deletePair ht key = .ok (update ht b (deleteChain (ht b) key).1,
      (deleteChain (ht b) key).2) := by
  unfold deletePair
  rw [h]
  rfl

end Indexed

/-! ### Histories -/

inductive TableOp
  | write (key value : CStr) (mem : WriteMem) (count : Int32)
  | read (key : CStr) (out : Asprintf)
  | delete (key : CStr)

def TableOp.run (ht : HashTable) : TableOp → Except Fault HashTable
  | .write key value mem count => (writePair ht key value mem count).map Prod.fst
  | .read key out => (readPair ht key out).map Prod.fst
  | .delete key => (deletePair ht key).map Prod.fst

def runOps (ops : List TableOp) (ht : HashTable) : Except Fault HashTable :=
  ops.foldlM TableOp.run ht

/-- The value under a key after a write to it, `some none` when its copy failed. -/
def written (old : Option (Option CStr)) (value : CStr) (mem : WriteMem) : Option (Option CStr) :=
  match old with
  | some _ => some (if mem.value then some value else none)
  | none => if !mem.keyNode || !mem.key || !mem.value then none else some (some value)

/-- What a call does to the values that are under the keys: a read does nothing. -/
def TableOp.after (m : CStr → Option (Option CStr)) : TableOp → CStr → Option (Option CStr)
  | .write key value mem _ => update m key (written (m key) value mem)
  | .read _ _ => m
  | .delete key => update m key none

/-- The value that the last write of each key has put there, unless the key was deleted since. -/
def lastWritten (ops : List TableOp) : CStr → Option (Option CStr) :=
  ops.foldl TableOp.after fun _ => none

/-! ### The table after a history -/

/-- No key has two nodes, and the node of a key has the value that is under it. -/
structure Agrees (ht : HashTable) (m : CStr → Option (Option CStr)) : Prop where
  unique : ∀ b, Chain.Unique KeyNode.key (ht b)
  values : ∀ {key b}, bucketOf key = .ok b →
    (Chain.lookup KeyNode.key key (ht b)).map KeyNode.value = m key

theorem agrees_createHashTable : Agrees createHashTable fun _ => none where
  unique _ := List.nodup_nil
  values _ := rfl

/-- A new chain in the bucket of a key that differs from the old one at this key alone. -/
theorem Agrees.update {ht : HashTable} {m : CStr → Option (Option CStr)} (h : Agrees ht m)
    {key : CStr} {b : Bucket} (hb : bucketOf key = .ok b) {c : List KeyNode}
    {v : Option (Option CStr)} (hu : Chain.Unique KeyNode.key c)
    (hself : (Chain.lookup KeyNode.key key c).map KeyNode.value = v)
    (hother : ∀ j ≠ key, Chain.lookup KeyNode.key j c = Chain.lookup KeyNode.key j (ht b)) :
    Agrees (Function.update ht b c) (Function.update m key v) where
  unique b' := by
    by_cases hb' : b' = b
    · subst hb'
      rw [update_self]
      exact hu
    · rw [update_of_ne hb']
      exact h.unique b'
  values {j b'} hj := by
    by_cases hjk : j = key
    · subst hjk
      cases Except.ok.inj (hj.symm.trans hb)
      rw [update_self, update_self, hself]
    · rw [update_of_ne hjk, ← h.values hj]
      by_cases hb' : b' = b
      · subst hb'
        rw [update_self, hother j hjk]
      · rw [update_of_ne hb']

section Call
variable {ht : HashTable} {m : CStr → Option (Option CStr)} (h : Agrees ht m) {key : CStr}
  {b : Bucket} (hb : bucketOf key = .ok b)
include h hb

theorem Agrees.write (value : CStr) (mem : WriteMem) (count : Int32) :
    Agrees (Function.update ht b (writeChain (ht b) key value mem count).1)
      (Function.update m key (written (m key) value mem)) := by
  have hm := h.values hb
  unfold writeChain
  rw [findNode_eq, updateNode_eq]
  cases hl : Chain.lookup KeyNode.key key (ht b) with
  | some n =>
    rw [hl] at hm
    refine h.update hb (Chain.Unique.modify (KeyNode.setValue_key _) (h.unique b)) ?_
      fun j hj => Chain.lookup_modify_of_ne (KeyNode.setValue_key _) hj (ht b)
    rw [Chain.lookup_modify_self (KeyNode.setValue_key _), hl, ← hm]
    rfl
  | none =>
    rw [hl] at hm
    rw [← hm]
    simp only [Option.map_none, written]
    split_ifs
    · exact h.update hb (h.unique b) (by rw [hl]; rfl) fun _ _ => rfl
    · refine h.update hb ((h.unique b).cons hl) ?_ fun j hj => ?_
      · simp [Chain.lookup_cons]
      · rw [Chain.lookup_cons, if_neg (Ne.symm hj)]

theorem Agrees.read {out : Asprintf} {r : List KeyNode × ReadValue}
    (hr : readChain (ht b) key out = .ok r) : Agrees (Function.update ht b r.1) m := by
  have hm := h.values hb
  rw [← update_eq_self key m]
  obtain ⟨-, rfl⟩ | ⟨n, hn, hc⟩ := readChain_cases hr
  · exact h.update hb (h.unique b) hm fun _ _ => rfl
  · rw [hc]
    refine h.update hb (Chain.Unique.modify KeyNode.countRead_key (h.unique b)) ?_
      fun j hj => Chain.lookup_modify_of_ne KeyNode.countRead_key hj (ht b)
    rw [Chain.lookup_modify_self KeyNode.countRead_key, hn, ← hm, hn]
    rfl

theorem Agrees.delete :
    Agrees (Function.update ht b (deleteChain (ht b) key).1) (Function.update m key none) := by
  unfold deleteChain
  rw [findNode_eq, unlinkNode_eq]
  cases hl : Chain.lookup KeyNode.key key (ht b) with
  | some n =>
    refine h.update hb ((h.unique b).unlink key) ?_ fun j hj => Chain.lookup_unlink_of_ne hj _
    rw [Chain.lookup_unlink_self (h.unique b)]
    rfl
  | none => exact h.update hb (h.unique b) (by rw [hl]; rfl) fun _ _ => rfl

end Call

/-- One call keeps the values as they were written. -/
theorem Agrees.run {ht ht' : HashTable} {m : CStr → Option (Option CStr)} (h : Agrees ht m)
    {op : TableOp} (hr : op.run ht = .ok ht') : Agrees ht' (op.after m) := by
  cases op with
  | write key value mem count =>
    obtain ⟨r, hw, rfl⟩ := ok_of_map hr
    obtain ⟨b, hb, -⟩ := ok_of_bind hw
    rw [writePair_eq hb] at hw
    cases hw
    exact h.write hb value mem count
  | read key out =>
    obtain ⟨r, hw, rfl⟩ := ok_of_map hr
    obtain ⟨b, hb, -⟩ := ok_of_bind hw
    rw [readPair_eq hb] at hw
    obtain ⟨r', hc, rfl⟩ := ok_of_map hw
    exact h.read hb hc
  | delete key =>
    obtain ⟨r, hw, rfl⟩ := ok_of_map hr
    obtain ⟨b, hb, -⟩ := ok_of_bind hw
    rw [deletePair_eq hb] at hw
    cases hw
    exact h.delete hb

theorem Agrees.runOps {ht ht' : HashTable} {m : CStr → Option (Option CStr)} (h : Agrees ht m)
    {ops : List TableOp} (hr : runOps ops ht = .ok ht') :
    Agrees ht' (ops.foldl TableOp.after m) := by
  induction ops generalizing ht m with
  | nil =>
    cases hr
    exact h
  | cons op ops ih =>
    unfold ProjP1.runOps at hr
    rw [List.foldlM_cons] at hr
    obtain ⟨ht₁, h₁, hr⟩ := ok_of_bind hr
    exact ih (h.run h₁) hr

/-- After every history of calls the table has the values that were written last. -/
theorem agrees_runOps {ops : List TableOp} {ht : HashTable}
    (h : runOps ops createHashTable = .ok ht) : Agrees ht (lastWritten ops) :=
  agrees_createHashTable.runOps h

/-! ### Reads -/

/-- Reading the key changes nothing and yields the value that was written last. -/
def PureRead (ops : List TableOp) (ht : HashTable) (key : CStr) (out : Asprintf) : Prop :=
  ∃ r, readPair ht key out = .ok r ∧ r.1 = ht ∧
    r.2.text = ((lastWritten ops key).join).map CStr.bytes

/-- A read of a key that has a node counts itself there. -/
theorem readPair_ne {ht : HashTable} {key : CStr} {out : Asprintf} {b : Bucket}
    (hb : bucketOf key = .ok b) {n : KeyNode} (hn : Chain.lookup KeyNode.key key (ht b) = some n)
    {r : HashTable × ReadValue} (h : readPair ht key out = .ok r) : r.1 ≠ ht := by
  intro he
  rw [readPair_eq hb] at h
  obtain ⟨r', hr, rfl⟩ := ok_of_map h
  obtain ⟨hnone, -⟩ | ⟨n', -, hc⟩ := readChain_cases hr
  · exact Option.some_ne_none n (hn.symm.trans hnone)
  · have hb' := congrArg (Chain.lookup KeyNode.key key) (congrFun he b)
    simp only [update_self, hc] at hb'
    rw [Chain.lookup_modify_self KeyNode.countRead_key, hn] at hb'
    have hcount : n.count + 1 = n.count := congrArg KeyNode.count (Option.some.inj hb')
    exact absurd hcount (by simp)

/-- A key that has no node is read without a change. -/
theorem readPair_of_none {ht : HashTable} {key : CStr} {b : Bucket} (hb : bucketOf key = .ok b)
    (hn : Chain.lookup KeyNode.key key (ht b) = none) (out : Asprintf) :
    readPair ht key out = .ok (ht, ⟨0, none⟩) := by
  rw [readPair_eq hb]
  unfold readChain
  rw [findNode_eq, hn]
  simp [Except.map]

/-- The read of a key is pure exactly as long as the key is not in the table. -/
theorem pureRead_iff {ops : List TableOp} {ht : HashTable}
    (h : runOps ops createHashTable = .ok ht) {key : CStr} (hkey : key.startsAlnum = true)
    (out : Asprintf) : PureRead ops ht key out ↔ lastWritten ops key = none := by
  obtain ⟨b, hb⟩ := bucketOf_eq_ok_iff.mpr hkey
  have hvalues := (agrees_runOps h).values hb
  cases hl : Chain.lookup KeyNode.key key (ht b) with
  | none =>
    rw [hl] at hvalues
    have hnone : lastWritten ops key = none := hvalues.symm
    refine ⟨fun _ => hnone, fun _ => ⟨_, readPair_of_none hb hl out, rfl, ?_⟩⟩
    rw [hnone]
    rfl
  | some n =>
    rw [hl] at hvalues
    constructor
    · rintro ⟨r, hr, hsame, -⟩
      exact absurd hsame (readPair_ne hb hl hr)
    · intro hnone
      simp [hnone] at hvalues

def keyA : CStr := .ofBuffer (chars ['a'])

def valueOne : CStr := .ofBuffer (chars ['1'])

/-- The string is allocated at the address 0x55a0. -/
def allocated : Asprintf := ⟨0x55a0, true⟩

/-- `a` is written, read and deleted, and read as missing. -/
theorem pureRead_iff_deleted : ∃ ht,
    runOps [.write keyA valueOne .ok 0, .read keyA allocated, .delete keyA] createHashTable =
      .ok ht ∧
    PureRead [.write keyA valueOne .ok 0, .read keyA allocated, .delete keyA] ht keyA allocated :=
  ⟨_, rfl, (pureRead_iff rfl (by decide) allocated).mpr (by decide)⟩

/-- `a` is written, and the read of it changes the table. -/
theorem not_pureRead : ¬ ∀ (ops : List TableOp) (ht : HashTable) (key : CStr) (out : Asprintf),
    runOps ops createHashTable = .ok ht → key.startsAlnum = true → PureRead ops ht key out := by
  intro h
  obtain ⟨r, hr, hsame, -⟩ := h [.write keyA valueOne .ok 0] _ keyA allocated rfl (by decide)
  have hb : bucketOf keyA = .ok 0 := by decide
  exact readPair_ne (n := ⟨keyA, some valueOne, 0⟩) hb (by decide) hr hsame

end IstKvs.ProjP1
