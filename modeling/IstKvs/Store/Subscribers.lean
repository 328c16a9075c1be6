import IstKvs.Store.Placement

/-! The subscriber lists of the table by key, and what each operation does to them.
A key that is not in the table has no list. -/

namespace IstKvs.Store

open IstKvs.Systems Function

/-- The subscriber list of the node of a key. -/
def subscribers (ht : HashTable) (key : CStr) : Option (List Fd) :=
  (nodeOf ht key).map KeyNode.subscriber

/-- The descriptor is in the subscriber list of the key. -/
def Subscribed (ht : HashTable) (fd : Fd) (key : CStr) : Prop :=
  ∃ l, subscribers ht key = some l ∧ fd ∈ l

/-- The list after `add_subscriber`. -/
def addFd (fd : Fd) (l : List Fd) : List Fd := if fd ∈ l then l else l ++ [fd]

theorem mem_addFd {fd g : Fd} {l : List Fd} : g ∈ addFd fd l ↔ g = fd ∨ g ∈ l := by
  unfold addFd
  split_ifs with h
  · constructor
    · exact .inr
    · rintro (rfl | hg)
      · exact h
      · exact hg
  · simp [or_comm]

theorem nodup_addFd {fd : Fd} {l : List Fd} (h : l.Nodup) : (addFd fd l).Nodup := by
  unfold addFd
  split_ifs with hm
  · exact h
  · exact h.append (List.nodup_singleton fd) (by simpa using hm)

theorem subscribers_create (key : CStr) : subscribers createHashTable key = none := by
  unfold subscribers nodeOf
  cases bucketOf key <;> rfl

theorem not_subscribed_create (fd : Fd) (key : CStr) : ¬ Subscribed createHashTable fd key := by
  rintro ⟨l, hl, -⟩
  rw [subscribers_create] at hl
  cases hl

section Indexed
variable (ht : HashTable) {key : CStr} {b : Bucket} (hb : bucketOf key = .ok b)
include hb

theorem subscribers_eq : subscribers ht key = (findNode key (ht b)).map KeyNode.subscriber := by
  rw [subscribers, nodeOf_eq hb]

/-- A bucket that changes at one key only. -/
theorem subscribers_changes {ht : HashTable} {c : List KeyNode} (hc : ChangesOnly key (ht b) c) :
    subscribers (update ht b c) =
      update (subscribers ht) key ((findNode key c).map KeyNode.subscriber) := by
  funext j
  by_cases hj : j = key
  · subst hj
    rw [subscribers_eq _ hb, update_self, update_self]
  · rw [update_of_ne hj, subscribers, subscribers, hc.nodeOf_of_ne hj]

theorem subscribers_subscribeChain (fd : Fd) (mem : Bool) :
    subscribers (update ht b (subscribeChain (ht b) key fd mem).chain) =
      update (subscribers ht) key
        ((subscribers ht key).map fun l => if mem then addFd fd l else l) := by
  rw [subscribers_changes hb (subscribeChain_changes _ _ _ _), subscribers_eq ht hb]
  cases hn : findNode key (ht b) with
  | none => simp [subscribeChain, hn]
  | some n =>
    rw [find_subscribeChain hn]
    cases mem <;> by_cases hm : fd ∈ n.subscriber <;> simp [addSubscriber, addFd, hm]

theorem subscribers_unsubscribeChain (fd : Fd) :
    subscribers (update ht b (unsubscribeChain (ht b) key fd).1) =
      update (subscribers ht) key ((subscribers ht key).map fun l => l.erase fd) := by
  rw [subscribers_changes hb (unsubscribeChain_changes _ _ _), subscribers_eq ht hb]
  cases hn : findNode key (ht b) with
  | none => simp [unsubscribeChain, hn]
  | some n => simp [find_unsubscribeChain hn]

/-- A write keeps the subscribers of its key; a new node has none. -/
theorem subscribers_writeChain (value : CStr) (mem : WriteMem) :
    subscribers (update ht b (writeChain (ht b) key value mem).chain) =
      update (subscribers ht) key
        ((subscribers ht key).or (if mem = .ok then some [] else none)) := by
  rw [subscribers_changes hb (writeChain_changes _ _ _ _), subscribers_eq ht hb]
  cases hn : findNode key (ht b) with
  | none =>
    obtain ⟨_ | _, _ | _, _ | _⟩ := mem <;>
      simp [writeChain, hn, WriteMem.ok, findNode, strcmp_eq_zero]
  | some n =>
    have hf := findNode_updateNode key (show ∀ m : KeyNode,
      ({ m with value := if mem.value then some value else none } : KeyNode).key = m.key from
        fun _ => rfl) (ht b)
    rw [hn] at hf
    simp [writeChain, hn, hf]

theorem subscribers_deleteChain (hinv : TableInv ht) :
    subscribers (update ht b (deleteChain (ht b) key).chain) =
      update (subscribers ht) key none := by
  rw [subscribers_changes hb (deleteChain_changes _ _)]
  cases hn : findNode key (ht b) with
  | none => simp [deleteChain, hn]
  | some n => simp [deleteChain, hn, findNode_unlinkNode (hinv.unique b)]

end Indexed

/-- The list of a node is the list of its key. -/
theorem subscribers_of_mem {ht : HashTable} (hinv : TableInv ht) {b : Bucket} {node : KeyNode}
    (hn : node ∈ ht b) : subscribers ht node.key = some node.subscriber := by
  rw [subscribers_eq ht (bucketOf_of_hash (hinv.placed b node hn)), findNode_eq,
    Chain.lookup_of_mem (hinv.unique b) hn]
  rfl

/-! ### Subscriptions after an operation -/

/-- The key is in the table. -/
def Present (ht : HashTable) (key : CStr) : Prop := (subscribers ht key).isSome = true

instance (ht : HashTable) (key : CStr) : Decidable (Present ht key) :=
  inferInstanceAs (Decidable (_ = true))

theorem Subscribed.present {ht : HashTable} {fd : Fd} {key : CStr} (h : Subscribed ht fd key) :
    Present ht key := by
  obtain ⟨l, hl, -⟩ := h
  simp [Present, hl]

/-- Nodes are placed and unique, and no list has a descriptor twice. -/
structure SubInv (ht : HashTable) : Prop where
  table : TableInv ht
  nodup : ∀ key l, subscribers ht key = some l → l.Nodup

theorem subInv_create : SubInv createHashTable where
  table := tableInv_create
  nodup key l h := by
    rw [subscribers_create] at h
    cases h

section Update
variable {ht ht' : HashTable} {key : CStr} {v : Option (List Fd)}
  (h : subscribers ht' = update (subscribers ht) key v)
include h

theorem subscribed_of_update (fd : Fd) :
    (Subscribed ht' fd key ↔ ∃ l, v = some l ∧ fd ∈ l) ∧
      ∀ j, j ≠ key → (Subscribed ht' fd j ↔ Subscribed ht fd j) := by
  constructor
  · rw [Subscribed, h, update_self]
  · intro j hj
    rw [Subscribed, Subscribed, h, update_of_ne hj]

theorem present_of_update :
    (Present ht' key ↔ v.isSome = true) ∧ ∀ j, j ≠ key → (Present ht' j ↔ Present ht j) := by
  constructor
  · rw [Present, h, update_self]
  · intro j hj
    rw [Present, Present, h, update_of_ne hj]

theorem SubInv.of_update (hinv : SubInv ht) (ht_inv : TableInv ht')
    (hv : ∀ l, v = some l → l.Nodup) : SubInv ht' := by
  refine ⟨ht_inv, fun j l hl => ?_⟩
  rw [h] at hl
  by_cases hj : j = key
  · subst hj
    rw [update_self] at hl
    exact hv l hl
  · rw [update_of_ne hj] at hl
    exact hinv.nodup j l hl

end Update

/-- What one operation on `key` in its bucket does to the subscriptions and to the
presence of every key. -/
structure Effect (ht ht' : HashTable) (key : CStr) (subscribed : Fd → Prop) (present : Prop) :
    Prop where
  inv : SubInv ht'
  self : ∀ fd, Subscribed ht' fd key ↔ subscribed fd
  others : ∀ fd j, j ≠ key → (Subscribed ht' fd j ↔ Subscribed ht fd j)
  present : Present ht' key ↔ present
  presentOthers : ∀ j, j ≠ key → (Present ht' j ↔ Present ht j)

namespace Effect

variable {ht ht' : HashTable} {key : CStr} {P : Fd → Prop} {Q : Prop}

/-- An effect on one key, read off for every key. -/
theorem present_iff (h : Effect ht ht' key P Q) (j : CStr) :
    Present ht' j ↔ if j = key then Q else Present ht j := by
  split_ifs with hj
  · exact hj ▸ h.present
  · exact h.presentOthers j hj

theorem subscribed_iff (h : Effect ht ht' key P Q) (fd : Fd) (j : CStr) :
    Subscribed ht' fd j ↔ if j = key then P fd else Subscribed ht fd j := by
  split_ifs with hj
  · exact hj ▸ h.self fd
  · exact h.others fd j hj

/-- An effect that leaves the presence of its key leaves that of every key. -/
theorem present_same (h : Effect ht ht' key P (Present ht key)) (j : CStr) :
    Present ht' j ↔ Present ht j := by
  rw [h.present_iff]
  split_ifs with hj
  · rw [hj]
  · exact Iff.rfl

/-- An effect that adds nobody to the list of its key adds nobody to a list. -/
theorem fewer (h : Effect ht ht' key P Q) (hle : ∀ fd, P fd → Subscribed ht fd key) (fd : Fd)
    (j : CStr) (hj : Subscribed ht' fd j) : Subscribed ht fd j := by
  rw [h.subscribed_iff] at hj
  split_ifs at hj with he
  · exact he ▸ hle fd hj
  · exact hj

end Effect

section Effects
variable {ht : HashTable} {key : CStr} {b : Bucket} (hinv : SubInv ht) (hb : bucketOf key = .ok b)
include hinv hb

theorem effect_subscribeChain (fd : Fd) (mem : Bool) :
    Effect ht (update ht b (subscribeChain (ht b) key fd mem).chain) key
      (fun g => Subscribed ht g key ∨ (g = fd ∧ Present ht key ∧ mem = true)) (Present ht key) := by
  have h := subscribers_subscribeChain ht hb fd mem
  refine ⟨hinv.of_update h ((subscribeChain_changes _ _ _ _).tableInv hinv.table hb) ?_,
    fun g => ?_, fun g => (subscribed_of_update h g).2, ?_, (present_of_update h).2⟩
  · intro l hl
    obtain ⟨l₀, hl₀, rfl⟩ := Option.map_eq_some_iff.mp hl
    cases mem with
    | true => exact nodup_addFd (hinv.nodup key l₀ hl₀)
    | false => exact hinv.nodup key l₀ hl₀
  · rw [(subscribed_of_update h g).1, Subscribed, Present]
    cases mem <;> cases subscribers ht key <;> simp [mem_addFd, or_comm]
  · rw [(present_of_update h).1, Present, Option.isSome_map]

theorem effect_unsubscribeChain (fd : Fd) :
    Effect ht (update ht b (unsubscribeChain (ht b) key fd).1) key
      (fun g => Subscribed ht g key ∧ g ≠ fd) (Present ht key) := by
  have h := subscribers_unsubscribeChain ht hb fd
  refine ⟨hinv.of_update h ((unsubscribeChain_changes _ _ _).tableInv hinv.table hb) ?_,
    fun g => ?_, fun g => (subscribed_of_update h g).2, ?_, (present_of_update h).2⟩
  · intro l hl
    obtain ⟨l₀, hl₀, rfl⟩ := Option.map_eq_some_iff.mp hl
    exact (hinv.nodup key l₀ hl₀).erase fd
  · rw [(subscribed_of_update h g).1, Subscribed]
    cases hs : subscribers ht key with
    | none => simp
    | some l => simp [(hinv.nodup key l hs).mem_erase_iff, and_comm]
  · rw [(present_of_update h).1, Present, Option.isSome_map]

theorem effect_writeChain (value : CStr) (mem : WriteMem) :
    Effect ht (update ht b (writeChain (ht b) key value mem).chain) key
      (fun g => Subscribed ht g key) (Present ht key ∨ mem = .ok) := by
  have h := subscribers_writeChain ht hb value mem
  refine ⟨hinv.of_update h ((writeChain_changes _ _ _ _).tableInv hinv.table hb) ?_,
    fun g => ?_, fun g => (subscribed_of_update h g).2, ?_, (present_of_update h).2⟩
  · intro l hl
    cases hs : subscribers ht key with
    | none =>
      rw [hs, Option.none_or] at hl
      split_ifs at hl
      cases hl
      exact List.nodup_nil
    | some l' =>
      rw [hs, Option.some_or] at hl
      cases hl
      exact hinv.nodup key l hs
  · rw [(subscribed_of_update h g).1, Subscribed]
    cases subscribers ht key with
    | none => split_ifs <;> simp
    | some l => simp
  · rw [(present_of_update h).1, Present]
    cases subscribers ht key with
    | none => split_ifs with hm <;> simp [hm]
    | some l => simp

theorem effect_deleteChain :
    Effect ht (update ht b (deleteChain (ht b) key).chain) key (fun _ => False) False := by
  have h := subscribers_deleteChain ht hb hinv.table
  refine ⟨hinv.of_update h ((deleteChain_changes _ _).tableInv hinv.table hb) (by simp),
    fun g => ?_, fun g => (subscribed_of_update h g).2, ?_, (present_of_update h).2⟩
  · rw [(subscribed_of_update h g).1]
    simp
  · rw [(present_of_update h).1]
    simp

end Effects

/-- What a subscription finds and returns, by the list that is there. -/
theorem subscribeChain_found (ht : HashTable) {key : CStr} {b : Bucket}
    (hb : bucketOf key = .ok b) (fd : Fd) (mem : Bool) :
    ((subscribeChain (ht b) key fd mem).found = true ↔ Present ht key) ∧
      ((subscribeChain (ht b) key fd mem).subscriptionStatus = 0 ↔
        ¬ Subscribed ht fd key ∧ (mem = true ∨ ¬ Present ht key)) := by
  rw [Subscribed, Present, subscribers_eq ht hb]
  cases hn : findNode key (ht b) with
  | none => simp [subscribeChain, hn]
  | some n =>
    cases mem <;> by_cases hm : fd ∈ n.subscriber <;> simp [subscribeChain, hn, addSubscriber, hm]

end IstKvs.Store
