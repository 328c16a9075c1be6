import IstKvs.Store.CString
import IstKvs.Systems.Chain

/-! The hash table of the server (`kvs.c`). A bucket is the chain of its nodes
from the head on; the allocations of a call are given by their outcomes. An
index outside the bucket array and a copy of a NULL value are faults. -/

namespace IstKvs.Store

open IstKvs.Systems

def tableSize : ℕ := 26

abbrev Bucket := Fin tableSize

instance (b : Bucket) (bs : List Bucket) : Decidable (b ∈ bs) := inferInstance

instance : NeZero tableSize := ⟨by decide⟩

/-- A file descriptor, or -1 for a file that could not be opened. -/
abbrev Fd := ℤ

inductive Fault
  | index (i : ℤ)
  | null
  deriving DecidableEq

section Fault
universe u
variable {A B : Type u}

/-- A computation that returns has gone through its first part. -/
theorem ok_of_bind {e : Except Fault A} {f : A → Except Fault B} {b : B} (h : e >>= f = .ok b) :
    ∃ a, e = .ok a ∧ f a = .ok b := by
  cases e with
  | error f => cases h
  | ok a => exact ⟨a, rfl, h⟩

theorem ok_of_map {e : Except Fault A} {f : A → B} {b : B} (h : e.map f = .ok b) :
    ∃ a, e = .ok a ∧ f a = b := by
  cases e with
  | error f => cases h
  | ok a => exact ⟨a, rfl, Except.ok.inj h⟩

end Fault

/-- `value` is NULL when copying the new value of an update failed. -/
@[ext]
structure KeyNode where
  key : CStr
  value : Option CStr
  subscriber : List Fd
  deriving DecidableEq

abbrev HashTable := Bucket → List KeyNode

def createHashTable : HashTable := fun _ => []

/-! ### The hash function -/

/-- Hash function based on key initial; -1 for an initial that has no bucket. -/
def hash (key : CStr) : ℤ :=
  let firstLetter := tolower (charValue (key.bytes.headD 0))
  if 'a'.toNat ≤ firstLetter ∧ firstLetter ≤ 'z'.toNat then firstLetter - 'a'.toNat
  else if '0'.toNat ≤ firstLetter ∧ firstLetter ≤ '9'.toNat then firstLetter - '0'.toNat
  else -1

/-- An ASCII letter or digit. -/
def isAlnum (b : UInt8) : Bool :=
  ('a'.toNat ≤ b.toNat && b.toNat ≤ 'z'.toNat) || ('A'.toNat ≤ b.toNat && b.toNat ≤ 'Z'.toNat) ||
    ('0'.toNat ≤ b.toNat && b.toNat ≤ '9'.toNat)

/-- The key begins with an ASCII letter or digit. -/
def CStr.startsAlnum (key : CStr) : Bool := isAlnum (key.bytes.headD 0)

theorem hash_range (key : CStr) :
    (0 ≤ hash key ∧ hash key < tableSize ∧ key.startsAlnum = true) ∨
      (hash key = -1 ∧ key.startsAlnum = false) := by
  have hb := UInt8.toNat_lt (key.bytes.headD 0)
  simp only [hash, CStr.startsAlnum, isAlnum, tolower, charValue, tableSize, Char.reduceToNat,
    Bool.or_eq_true, Bool.and_eq_true, decide_eq_true_eq, Bool.or_eq_false_iff,
    Bool.and_eq_false_iff, decide_eq_false_iff_not]
  split_ifs <;> omega

/-- `hash` used as an index: the bucket, or the access outside the array. -/
def bucketOf (key : CStr) : Except Fault Bucket :=
  if h : 0 ≤ hash key ∧ hash key < tableSize then
    .ok ⟨(hash key).toNat, by omega⟩
  else .error (.index (hash key))

/-- Exactly the keys that begin with a letter or digit have a bucket. -/
theorem bucketOf_eq_ok_iff {key : CStr} : (∃ b, bucketOf key = .ok b) ↔ key.startsAlnum = true := by
  constructor
  · rintro ⟨b, hb⟩
    rcases hash_range key with hr | hr
    · exact hr.2.2
    · unfold bucketOf at hb
      rw [dif_neg (by omega)] at hb
      cases hb
  · intro h
    rcases hash_range key with hr | hr
    · exact ⟨_, dif_pos ⟨hr.1, hr.2.1⟩⟩
    · simp [h] at hr

theorem bucketOf_eq_error {key : CStr} (h : key.startsAlnum = false) :
    bucketOf key = .error (.index (-1)) := by
  rcases hash_range key with hr | hr
  · simp [h] at hr
  · unfold bucketOf
    rw [dif_neg (by omega), hr.1]

theorem hash_of_bucketOf {key : CStr} {b : Bucket} (h : bucketOf key = .ok b) :
    hash key = b.val := by
  unfold bucketOf at h
  split_ifs at h with hi
  cases h
  simp only
  omega

theorem bucketOf_of_hash {key : CStr} {b : Bucket} (h : hash key = b.val) :
    bucketOf key = .ok b := by
  have hb := b.isLt
  unfold bucketOf
  rw [dif_pos (by omega)]
  simp only [Except.ok.injEq, Fin.ext_iff]
  omega

/-! ### The search loops -/

/-- The node of a key: the first whose key compares equal. -/
def findNode (key : CStr) : List KeyNode → Option KeyNode
  | [] => none
  | keyNode :: next => if strcmp keyNode.key key = 0 then some keyNode else findNode key next

/-- The chain after the node of a key was updated in place. -/
def updateNode (key : CStr) (f : KeyNode → KeyNode) : List KeyNode → List KeyNode
  | [] => []
  | keyNode :: next =>
    if strcmp keyNode.key key = 0 then f keyNode :: next else keyNode :: updateNode key f next

/-- The chain after the node of a key was unlinked, from the head or from the node before. -/
def unlinkNode (key : CStr) : List KeyNode → List KeyNode
  | [] => []
  | keyNode :: next =>
    if strcmp keyNode.key key = 0 then next else keyNode :: unlinkNode key next

theorem findNode_eq (key : CStr) (c : List KeyNode) :
    findNode key c = Chain.lookup KeyNode.key key c := by
  induction c with
  | nil => rfl
  | cons n c ih => simp only [findNode, strcmp_eq_zero, ih, Chain.lookup_cons]

theorem updateNode_eq (key : CStr) (f : KeyNode → KeyNode) (c : List KeyNode) :
    updateNode key f c = Chain.modify KeyNode.key key f c := by
  induction c with
  | nil => rfl
  | cons n c ih => simp only [updateNode, strcmp_eq_zero, ih, Chain.modify]

theorem unlinkNode_eq (key : CStr) (c : List KeyNode) :
    unlinkNode key c = Chain.unlink KeyNode.key key c := by
  induction c with
  | nil => rfl
  | cons n c ih => simp only [unlinkNode, strcmp_eq_zero, ih, Chain.unlink]

/-! ### Subscribers -/

/-- A notification: the key, then the value, to one descriptor. -/
structure Message where
  fd : Fd
  key : CStr
  value : CStr
  deriving DecidableEq

def notifySubscribers (keyNode : KeyNode) (key value : CStr) : List Message :=
  keyNode.subscriber.map fun fd => ⟨fd, key, value⟩

/-- 0 if added at the end of the list, 1 if already there, -1 without memory. -/
def addSubscriber (keyNode : KeyNode) (fdNotifPipe : Fd) (mem : Bool) : KeyNode × ℤ :=
  if fdNotifPipe ∈ keyNode.subscriber then (keyNode, 1)
  else if !mem then (keyNode, -1)
  else ({ keyNode with subscriber := keyNode.subscriber ++ [fdNotifPipe] }, 0)

/-- 0 if the first entry of the descriptor was removed, 1 if there was none. -/
def removeSubscriber (keyNode : KeyNode) (fdNotifPipe : Fd) : KeyNode × ℤ :=
  if fdNotifPipe ∈ keyNode.subscriber then
    ({ keyNode with subscriber := keyNode.subscriber.erase fdNotifPipe }, 0)
  else (keyNode, 1)

@[simp] theorem addSubscriber_key (n : KeyNode) (fd : Fd) (mem : Bool) :
    (addSubscriber n fd mem).1.key = n.key := by
  unfold addSubscriber; split_ifs <;> rfl

@[simp] theorem addSubscriber_value (n : KeyNode) (fd : Fd) (mem : Bool) :
    (addSubscriber n fd mem).1.value = n.value := by
  unfold addSubscriber; split_ifs <;> rfl

@[simp] theorem removeSubscriber_key (n : KeyNode) (fd : Fd) :
    (removeSubscriber n fd).1.key = n.key := by
  unfold removeSubscriber; split_ifs <;> rfl

@[simp] theorem removeSubscriber_value (n : KeyNode) (fd : Fd) :
    (removeSubscriber n fd).1.value = n.value := by
  unfold removeSubscriber; split_ifs <;> rfl

@[simp] theorem removeSubscriber_subscriber (n : KeyNode) (fd : Fd) :
    (removeSubscriber n fd).1.subscriber = n.subscriber.erase fd := by
  unfold removeSubscriber
  split_ifs with h
  · rfl
  · exact (List.erase_of_not_mem h).symm

/-! ### Pairs -/

/-- Which allocations of a `writePair` succeed. -/
structure WriteMem where
  keyNode : Bool
  key : Bool
  value : Bool
  deriving DecidableEq

def WriteMem.ok : WriteMem := ⟨true, true, true⟩

/-- What a pair operation does to its bucket, returns and sends. -/
structure PairResult where
  chain : List KeyNode
  status : ℤ
  sent : List Message

/-- The value under `key` is replaced in place and its subscribers are notified,
or a new node is put at the start of the bucket. -/
def writeChain (chain : List KeyNode) (key value : CStr) (mem : WriteMem) : PairResult :=
  match findNode key chain with
  | some keyNode =>
    { chain := updateNode key (fun n => { n with value := if mem.value then some value else none })
        chain
      status := 0
      sent := notifySubscribers keyNode key value }
  | none =>
    if !mem.keyNode || !mem.key || !mem.value then ⟨chain, 1, []⟩
    else ⟨⟨key, some value, []⟩ :: chain, 0, []⟩

/-- A copy of the value under `key`, NULL if there is none or the copy failed. -/
def readChain (chain : List KeyNode) (key : CStr) (mem : Bool) : Except Fault (Option CStr) :=
  match findNode key chain with
  | some keyNode =>
    match keyNode.value with
    | some value => .ok (if mem then some value else none)
    | none => .error .null
  | none => .ok none

/-- The value that a deletion sends. -/
def deleteValue : CStr := ⟨chars ['D', 'E', 'L', 'E', 'T', 'E'], by decide⟩

/-- The subscribers are notified, then the node is unlinked and freed. -/
def deleteChain (chain : List KeyNode) (key : CStr) : PairResult :=
  match findNode key chain with
  | some keyNode => ⟨unlinkNode key chain, 0, notifySubscribers keyNode key deleteValue⟩
  | none => ⟨chain, 1, []⟩

def writePair (ht : HashTable) (key value : CStr) (mem : WriteMem) :
    Except Fault (HashTable × ℤ × List Message) := do
  let index ← bucketOf key
  let r := writeChain (ht index) key value mem
  pure (Function.update ht index r.chain, r.status, r.sent)

def readPair (ht : HashTable) (key : CStr) (mem : Bool) : Except Fault (Option CStr) := do
  let index ← bucketOf key
  readChain (ht index) key mem

def deletePair (ht : HashTable) (key : CStr) : Except Fault (HashTable × ℤ × List Message) := do
  let index ← bucketOf key
  let r := deleteChain (ht index) key
  pure (Function.update ht index r.chain, r.status, r.sent)

section Indexed
variable {ht : HashTable} {key : CStr} {b : Bucket} (h : bucketOf key = .ok b)
include h

theorem writePair_eq (value : CStr) (mem : WriteMem) :
    writePair ht key value mem =
      .ok (Function.update ht b (writeChain (ht b) key value mem).chain,
        (writeChain (ht b) key value mem).status, (writeChain (ht b) key value mem).sent) := by
  unfold writePair
  rw [h]
  rfl

theorem readPair_eq (mem : Bool) : readPair ht key mem = readChain (ht b) key mem := by
  unfold readPair
  rw [h]
  rfl

theorem deletePair_eq :
    deletePair ht key = .ok (Function.update ht b (deleteChain (ht b) key).chain,
      (deleteChain (ht b) key).status, (deleteChain (ht b) key).sent) := by
  unfold deletePair
  rw [h]
  rfl

end Indexed

/-- A pair call that returns was on a key with a bucket. -/
theorem bucketOf_of_writePair {ht : HashTable} {key value : CStr} {mem : WriteMem}
    {r : HashTable × ℤ × List Message} (h : writePair ht key value mem = .ok r) :
    ∃ b, bucketOf key = .ok b := by
  obtain ⟨b, hb, -⟩ := ok_of_bind h
  exact ⟨b, hb⟩

theorem bucketOf_of_deletePair {ht : HashTable} {key : CStr} {r : HashTable × ℤ × List Message}
    (h : deletePair ht key = .ok r) : ∃ b, bucketOf key = .ok b := by
  obtain ⟨b, hb, -⟩ := ok_of_bind h
  exact ⟨b, hb⟩

/-! ### Subscriptions of a key

The bucket loops of `kvs_subscribe` and `kvs_aux_unsubscribe`, which find the
node under the bucket lock and change its subscriber list. -/

/-- What `kvs_subscribe` does under the lock: the status that decides whether the
client records the key (0 also when the key does not exist), and whether it exists. -/
structure SubscribeResult where
  chain : List KeyNode
  subscriptionStatus : ℤ
  found : Bool

def subscribeChain (chain : List KeyNode) (key : CStr) (fdNotif : Fd) (mem : Bool) :
    SubscribeResult :=
  match findNode key chain with
  | some keyNode =>
    { chain := updateNode key (fun n => (addSubscriber n fdNotif mem).1) chain
      subscriptionStatus := (addSubscriber keyNode fdNotif mem).2
      found := true }
  | none => ⟨chain, 0, false⟩

/-- What `kvs_aux_unsubscribe` does under the lock, with its result. -/
def unsubscribeChain (chain : List KeyNode) (key : CStr) (fdNotif : Fd) : List KeyNode × ℤ :=
  match findNode key chain with
  | some keyNode =>
    if keyNode.subscriber = [] then (chain, 1)
    else (updateNode key (fun n => (removeSubscriber n fdNotif).1) chain,
      (removeSubscriber keyNode fdNotif).2)
  | none => (chain, 1)

end IstKvs.Store
