import IstKvs.Store.Table

/-! Where the nodes of the table are. Every node lies in the bucket of its key
and no key has two nodes. Each operation changes its bucket at one key only,
which keeps both and leaves the nodes of all other keys alone. -/

namespace IstKvs.Store

open IstKvs.Systems Function

/-! ### Placement and uniqueness -/

/-- Every node in bucket `b` hashes to `b`, and no key occurs twice in a bucket. -/
structure TableInv (ht : HashTable) : Prop where
  placed : ∀ b, ∀ n ∈ ht b, hash n.key = b.val
  unique : ∀ b, Chain.Unique KeyNode.key (ht b)

theorem tableInv_create : TableInv createHashTable where
  placed := by simp [createHashTable]
  unique _ := List.nodup_nil

/-- All nodes, bucket by bucket. -/
def nodes (ht : HashTable) : List KeyNode := (List.finRange tableSize).flatMap ht

theorem mem_nodes {ht : HashTable} {n : KeyNode} : n ∈ nodes ht ↔ ∃ b, n ∈ ht b := by
  simp [nodes]

/-- No key occurs in two nodes of the whole table. -/
theorem TableInv.nodup_nodes {ht : HashTable} (h : TableInv ht) :
    ((nodes ht).map KeyNode.key).Nodup := by
  rw [nodes, List.map_flatMap, List.nodup_flatMap]
  refine ⟨fun b _ => h.unique b, (List.nodup_finRange tableSize).imp fun {b c} hbc => ?_⟩
  rw [onFun, List.disjoint_left]
  intro k hk hk'
  obtain ⟨n, hn, rfl⟩ := List.mem_map.mp hk
  obtain ⟨m, hm, he⟩ := List.mem_map.mp hk'
  have hb := h.placed b n hn
  have hc := h.placed c m hm
  rw [he, hb] at hc
  exact hbc (Fin.ext (by exact_mod_cast hc))

/-- One bucket is replaced by a chain that is again placed and unique. -/
theorem TableInv.update {ht : HashTable} (h : TableInv ht) {b : Bucket} {c : List KeyNode}
    (hp : ∀ n ∈ c, hash n.key = b.val) (hu : Chain.Unique KeyNode.key c) :
    TableInv (update ht b c) where
  placed b' := by
    by_cases hb : b' = b
    · subst hb; simpa using hp
    · simpa [hb] using h.placed b'
  unique b' := by
    by_cases hb : b' = b
    · subst hb; simpa using hu
    · simpa [hb] using h.unique b'

/-- The node of a key, found as the operations find it. -/
def nodeOf (ht : HashTable) (key : CStr) : Option KeyNode :=
  match bucketOf key with
  | .ok b => findNode key (ht b)
  | .error _ => none

theorem nodeOf_eq {ht : HashTable} {key : CStr} {b : Bucket} (h : bucketOf key = .ok b) :
    nodeOf ht key = findNode key (ht b) := by
  simp only [nodeOf, h]

/-! ### What the operations do to a bucket

Each of them updates the node of its key in place, puts a node with a new key in
front, unlinks the node of its key, or does nothing. -/

/-- The bucket of `key` changes from `c` to `c'` at that key only. -/
structure ChangesOnly (key : CStr) (c c' : List KeyNode) : Prop where
  others : ∀ j, j ≠ key → findNode j c' = findNode j c
  keys : ∀ n ∈ c', n.key = key ∨ ∃ m ∈ c, m.key = n.key
  unique : Chain.Unique KeyNode.key c → Chain.Unique KeyNode.key c'

namespace ChangesOnly

variable {key : CStr} {c : List KeyNode}

theorem refl : ChangesOnly key c c :=
  ⟨fun _ _ => rfl, fun n hn => .inr ⟨n, hn, rfl⟩, id⟩

theorem update {f : KeyNode → KeyNode} (hf : ∀ n, (f n).key = n.key) :
    ChangesOnly key c (updateNode key f c) where
  others j hj := by
    rw [updateNode_eq, findNode_eq, findNode_eq]
    exact Chain.lookup_modify_of_ne hf hj c
  keys n hn := by
    rw [updateNode_eq] at hn
    rcases Chain.mem_modify hn with hn | ⟨m, hm, rfl⟩
    · exact .inr ⟨n, hn, rfl⟩
    · exact .inl ((hf m).trans (Chain.key_of_lookup hm))
  unique hu := by
    rw [updateNode_eq]
    exact hu.modify hf

theorem unlink : ChangesOnly key c (unlinkNode key c) where
  others j hj := by
    rw [unlinkNode_eq, findNode_eq, findNode_eq]
    exact Chain.lookup_unlink_of_ne hj c
  keys n hn := by
    rw [unlinkNode_eq] at hn
    exact .inr ⟨n, (Chain.unlink_sublist key c).subset hn, rfl⟩
  unique hu := by
    rw [unlinkNode_eq]
    exact hu.unlink key

theorem cons {n : KeyNode} (hn : n.key = key) (hnone : findNode key c = none) :
    ChangesOnly key c (n :: c) where
  others j hj := by
    have hne : n.key ≠ j := fun he => hj (he.symm.trans hn)
    rw [findNode_eq, findNode_eq, Chain.lookup_cons, if_neg hne]
  keys m hm := by
    rcases List.mem_cons.mp hm with rfl | hm
    · exact .inl hn
    · exact .inr ⟨m, hm, rfl⟩
  unique hu := by
    rw [findNode_eq, ← hn] at hnone
    exact hu.cons hnone

/-- A change at one key keeps placement and uniqueness. -/
theorem tableInv {ht : HashTable} (h : TableInv ht) {b : Bucket} (hb : bucketOf key = .ok b)
    {c' : List KeyNode} (hc : ChangesOnly key (ht b) c') :
    TableInv (Function.update ht b c') := by
  refine h.update (fun n hn => ?_) (hc.unique (h.unique b))
  rcases hc.keys n hn with hk | ⟨m, hm, hk⟩
  · rw [hk]; exact hash_of_bucketOf hb
  · rw [← hk]; exact h.placed b m hm

/-- A change at one key leaves the node of every other key alone. -/
theorem nodeOf_of_ne {ht : HashTable} {b : Bucket} {c' : List KeyNode}
    (hc : ChangesOnly key (ht b) c') {j : CStr} (hj : j ≠ key) :
    nodeOf (Function.update ht b c') j = nodeOf ht j := by
  cases hbj : bucketOf j with
  | error e => simp [nodeOf, hbj]
  | ok b' =>
    rw [nodeOf_eq hbj, nodeOf_eq hbj]
    by_cases hb : b' = b
    · subst hb; simpa using hc.others j hj
    · simp [hb]

end ChangesOnly

theorem writeChain_changes (c : List KeyNode) (key value : CStr) (mem : WriteMem) :
    ChangesOnly key c (writeChain c key value mem).chain := by
  unfold writeChain
  cases h : findNode key c with
  | some n => exact .update fun _ => rfl
  | none =>
    simp only
    split_ifs
    · exact .refl
    · exact .cons rfl h

theorem deleteChain_changes (c : List KeyNode) (key : CStr) :
    ChangesOnly key c (deleteChain c key).chain := by
  unfold deleteChain
  cases findNode key c with
  | some n => exact .unlink
  | none => exact .refl

theorem subscribeChain_changes (c : List KeyNode) (key : CStr) (fd : Fd) (mem : Bool) :
    ChangesOnly key c (subscribeChain c key fd mem).chain := by
  unfold subscribeChain
  cases findNode key c with
  | some n => exact .update fun n => addSubscriber_key n fd mem
  | none => exact .refl

theorem unsubscribeChain_changes (c : List KeyNode) (key : CStr) (fd : Fd) :
    ChangesOnly key c (unsubscribeChain c key fd).1 := by
  unfold unsubscribeChain
  cases findNode key c with
  | some n =>
    simp only
    split_ifs
    · exact .refl
    · exact .update fun n => removeSubscriber_key n fd
  | none => exact .refl

/-- The node of the key itself after an update in place. -/
theorem findNode_updateNode (key : CStr) {f : KeyNode → KeyNode} (hf : ∀ n, (f n).key = n.key)
    (c : List KeyNode) : findNode key (updateNode key f c) = (findNode key c).map f := by
  rw [updateNode_eq, findNode_eq, findNode_eq]
  exact Chain.lookup_modify_self hf c

theorem findNode_unlinkNode {key : CStr} {c : List KeyNode} (hu : Chain.Unique KeyNode.key c) :
    findNode key (unlinkNode key c) = none := by
  rw [unlinkNode_eq, findNode_eq]
  exact Chain.lookup_unlink_self hu key

theorem key_of_findNode {key : CStr} {c : List KeyNode} {n : KeyNode}
    (h : findNode key c = some n) : n.key = key := by
  rw [findNode_eq] at h
  exact Chain.key_of_lookup h

section Found
variable {c : List KeyNode} {key : CStr} {n : KeyNode} (h : findNode key c = some n)
include h

theorem find_writeChain (value : CStr) :
    findNode key (writeChain c key value .ok).chain = some { n with value := some value } := by
  have hf := findNode_updateNode key
    (show ∀ n : KeyNode, ({ n with value := some value } : KeyNode).key = n.key from
      fun _ => rfl) c
  simp only [writeChain, h]
  rw [h] at hf
  exact hf

theorem find_subscribeChain (fd : Fd) (mem : Bool) :
    findNode key (subscribeChain c key fd mem).chain = some (addSubscriber n fd mem).1 := by
  have hf := findNode_updateNode key (fun n => addSubscriber_key n fd mem) c
  simp only [subscribeChain, h]
  rw [h] at hf
  exact hf

theorem find_unsubscribeChain (fd : Fd) :
    findNode key (unsubscribeChain c key fd).1 =
      some { n with subscriber := n.subscriber.erase fd } := by
  simp only [unsubscribeChain, h]
  split_ifs with he
  · simp only [h, he, List.erase_nil, Option.some.injEq]
    cases n
    simp_all
  · have hf := findNode_updateNode key (fun n => removeSubscriber_key n fd) c
    rw [h] at hf
    rw [hf]
    cases n
    simp [KeyNode.ext_iff]

end Found

end IstKvs.Store
