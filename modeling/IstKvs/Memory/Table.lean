import IstKvs.Memory.Programs
import IstKvs.Store.Placement

/-! The functions of `kvs.c` in memory do what the table model says. A bucket is a
linked list whose nodes own their strings and their subscribers; each function is
run on the cells of one bucket, with all other cells of the table as a frame, and
leaves the cells of the bucket that the model computes. -/

namespace IstKvs.Memory

open IstKvs.Systems IstKvs.Store

/-! ### Layout -/

/-- A node of the table with the addresses of what it points to. -/
structure NodeLayout where
  key : Addr × CStr
  value : Option (Addr × CStr)
  subscriber : List (Addr × Fd)

def NodeLayout.node (n : NodeLayout) : KeyNode where
  key := n.key.2
  value := n.value.map Prod.snd
  subscriber := n.subscriber.map Prod.snd

def subscriberKind : NodeKind Cell Fd where
  toNodeAccess := subscriberAccess
  cell fd e := .subscriber fd e
  own _ := []
  next_cell _ _ := rfl
  setNext_cell _ _ _ := rfl

/-- The cell of a string that may be missing. -/
def textCells (p : Option (Addr × CStr)) : List (Addr × Cell) :=
  p.toList.map fun t => (t.1, .text t.2)

def NodeLayout.subscriberCells (n : NodeLayout) : List (Addr × Cell) :=
  segment subscriberKind n.subscriber none

/-- The strings and the subscribers of a node. -/
def NodeLayout.own (n : NodeLayout) : List (Addr × Cell) :=
  (n.key.1, .text n.key.2) :: (textCells n.value ++ n.subscriberCells)

def NodeLayout.cell (n : NodeLayout) (e : Option Addr) : KeyNodeCell where
  key := some n.key.1
  value := n.value.map Prod.fst
  next := e
  subscriber := headOf n.subscriber none

def keyNodeKind : NodeKind Cell NodeLayout where
  toNodeAccess := keyNodeAccess
  cell n e := .keyNode (n.cell e)
  own := NodeLayout.own
  next_cell _ _ := rfl
  setNext_cell _ _ _ := rfl

/-- The nodes of a bucket, without their addresses. -/
def chainOf (c : List (Addr × NodeLayout)) : List KeyNode := c.map fun n => n.2.node

/-! ### Single accesses -/

section Access
variable {P R : List (Addr × Cell)} {a : Addr} {e : Option Addr}

theorem reads_loadText {s : CStr} (hm : (a, .text s) ∈ P) :
    Reads P (loadText (some a)) s := by
  refine Reads.pure.bind ((Reads.load hm).bind ?_)
  exact Reads.pure

theorem reads_loadSubscriber {fd : Fd} (hm : (a, .subscriber fd e) ∈ P) :
    Reads P (loadSubscriber a) fd :=
  (Reads.load hm).bind Reads.pure

theorem reads_loadKeyNode {n : KeyNodeCell} (hm : (a, .keyNode n) ∈ P) :
    Reads P (loadKeyNode a) n :=
  (Reads.load hm).bind Reads.pure

theorem reads_loadTable {t : Bucket → Option Addr} {l : Option Addr}
    (hm : (a, .hashTable t l) ∈ P) : Reads P (loadTable a) (t, l) :=
  (Reads.load hm).bind Reads.pure

theorem does_freePtr {p : Option (Addr × CStr)} (hp : P.Perm (textCells p ++ R)) :
    Does P (freePtr (p.map Prod.fst)) fun _ P' => P'.Perm R := by
  cases p with
  | none => exact Does.pure hp
  | some t => exact (Does.free hp).imp fun _ P' h => ⟨P', .rfl, h ▸ .rfl⟩

/-- An allocation that succeeds adds a cell, one that fails adds nothing. -/
theorem does_tryMalloc (mem : Bool) (x : Cell) :
    Does P (tryMalloc mem x) fun p P' =>
      (mem = false ∧ p = none ∧ P' = P) ∨ (mem = true ∧ ∃ a, p = some a ∧ P' = (a, x) :: P) := by
  cases mem with
  | false => exact Does.pure (.inl ⟨rfl, rfl, rfl⟩)
  | true => exact (Does.malloc x).bind fun a P' h => Does.pure (.inr ⟨rfl, a, rfl, h⟩)

/-- A string is copied, or the result is NULL. -/
theorem does_strdup (s : CStr) (mem : Bool) :
    Does P (strdup s mem) fun p P' => ∃ t : Option (Addr × CStr), p = t.map Prod.fst ∧
      t.map Prod.snd = (if mem then some s else none) ∧ P' = textCells t ++ P := by
  refine (does_tryMalloc mem (.text s)).imp fun p P' h => ⟨P', .rfl, ?_⟩
  rcases h with ⟨rfl, rfl, rfl⟩ | ⟨rfl, a, rfl, rfl⟩
  · exact ⟨none, rfl, rfl, rfl⟩
  · exact ⟨some (a, s), rfl, rfl, rfl⟩

end Access

/-! ### Subscriber lists -/

section Subscribers
variable {P R : List (Addr × Cell)} {a : Addr} {n : NodeLayout} {e : Option Addr}

/-- The cell of a node with another subscriber list. -/
def subscriberRoot (a : Addr) (n : NodeLayout) (e s : Option Addr) : Addr × Cell :=
  (a, .keyNode { n.cell e with subscriber := s })

theorem does_setSubscriber (s s' : Option Addr) (P R : List (Addr × Cell))
    (hp : P.Perm (subscriberRoot a n e s :: R)) :
    Does P (setSubscriber a s') fun _ P' => P' = subscriberRoot a n e s' :: R := by
  refine (reads_loadKeyNode (hp.mem_iff.mpr List.mem_cons_self)).does ?_
  exact Does.store hp _

/-- The search in a subscriber list: no entry is of the descriptor, or the first that is. -/
theorem reads_seekFd {l : List (Addr × Fd)} {fuel : ℕ} (fd : Fd)
    (hsub : segment subscriberKind l none ⊆ P) (hfuel : l.length ≤ fuel) :
    (fd ∉ l.map Prod.snd ∧ Reads P (seek subscriberAccess (matchFd fd) fuel none (headOf l none))
        (lastOf none l, none)) ∨
      ∃ init a rest, l = init ++ (a, fd) :: rest ∧ fd ∉ init.map Prod.snd ∧
        Reads P (seek subscriberAccess (matchFd fd) fuel none (headOf l none))
          (lastOf none init, some a) := by
  have htest : ∀ m ∈ l, Reads P (matchFd fd m.1) (decide (m.2 = fd)) := by
    intro m hm
    obtain ⟨e, he⟩ := mem_segment (κ := subscriberKind) hm none
    exact (reads_loadSubscriber (hsub he)).bind Reads.pure
  have hnot : ∀ {init : List (Addr × Fd)}, (∀ x ∈ init, decide (x.2 = fd) = false) →
      fd ∉ init.map Prod.snd := by
    intro init hinit hf
    obtain ⟨x, hx, rfl⟩ := List.mem_map.mp hf
    simpa using hinit x hx
  rcases splitFirst (fun x => decide (x = fd)) l with hall | ⟨init, m, rest, rfl, hinit, hm⟩
  · exact .inl ⟨hnot hall, Reads.seek_none hsub (fun x hx => hall x hx ▸ htest x hx) hfuel⟩
  · obtain rfl := of_decide_eq_true hm
    refine .inr ⟨init, m.1, rest, rfl, hnot hinit, Reads.seek_found hsub (fun x hx => ?_) ?_ hfuel⟩
    · exact hinit x hx ▸ htest x (List.mem_append_left _ hx)
    · exact hm ▸ htest m (by simp)

variable (hp : P.Perm ((a, .keyNode (n.cell e)) :: (n.subscriberCells ++ R)))
include hp

theorem keyNode_mem : (a, .keyNode (n.cell e)) ∈ P := hp.mem_iff.mpr List.mem_cons_self

theorem subscriberCells_subset : segment subscriberKind n.subscriber none ⊆ P := fun _ hc =>
  hp.mem_iff.mpr (List.mem_cons_of_mem _ (List.mem_append_left _ hc))

theorem length_subscriber_le {fuel : ℕ} (hfuel : P.length ≤ fuel) :
    n.subscriber.length ≤ fuel := by
  have hle := length_le_segment (κ := subscriberKind) n.subscriber none
  have hperm := hp.length_eq
  simp only [List.length_cons, List.length_append, NodeLayout.subscriberCells] at hperm
  omega

theorem does_addSubscriber (fd : Fd) (mem : Bool) :
    Does P (addSubscriber a fd mem) fun r P' => ∃ n' : NodeLayout,
      n'.key = n.key ∧ n'.value = n.value ∧ (n'.node, r) = Store.addSubscriber n.node fd mem ∧
      P'.Perm ((a, .keyNode (n'.cell e)) :: (n'.subscriberCells ++ R)) := by
  refine (reads_loadKeyNode (keyNode_mem hp)).does
    (Does.handedOut fun fuel hfuel => ?_)
  rcases reads_seekFd fd (subscriberCells_subset hp) (length_subscriber_le hp hfuel) with
    ⟨hnot, hseek⟩ | ⟨init, b, rest, hl, -, hseek⟩
  · have hnode : fd ∉ n.node.subscriber := hnot
    rw [Store.addSubscriber, if_neg hnode]
    refine hseek.does ((does_tryMalloc mem _).bind fun p P₁ h => ?_)
    rcases h with ⟨rfl, rfl, rfl⟩ | ⟨rfl, b, rfl, rfl⟩
    · exact Does.pure ⟨n, rfl, rfl, rfl, hp⟩
    · have hp' : ((b, .subscriber fd none) :: P).Perm
          (subscriberRoot a n e (headOf n.subscriber none) ::
          (segment subscriberKind n.subscriber none ++ ((b, .subscriber fd none) :: R))) := by
        refine (hp.cons _).trans ?_
        rw [← List.cons_append, ← List.cons_append]
        exact List.perm_middle.symm
      refine (Does.relink (κ := subscriberKind) does_setSubscriber n.subscriber hp').bind
        fun _ P₂ hp₂ => ?_
      refine Does.pure ⟨{ n with subscriber := n.subscriber ++ [(b, fd)] }, rfl, rfl, ?_, ?_⟩
      · simp [NodeLayout.node]
      · refine hp₂.trans (.of_eq ?_)
        simp [subscriberRoot, NodeLayout.cell, NodeLayout.subscriberCells, headOf_append,
          segment_append, segment_cons, subscriberKind]
  · refine hseek.does (Does.pure ⟨n, rfl, rfl, ?_, hp⟩)
    have hmem : fd ∈ n.node.subscriber := by simp [NodeLayout.node, hl]
    rw [Store.addSubscriber, if_pos hmem]

theorem does_removeSubscriber (fd : Fd) :
    Does P (removeSubscriber a fd) fun r P' => ∃ n' : NodeLayout,
      n'.key = n.key ∧ n'.value = n.value ∧ (n'.node, r) = Store.removeSubscriber n.node fd ∧
      P'.Perm ((a, .keyNode (n'.cell e)) :: (n'.subscriberCells ++ R)) := by
  refine (reads_loadKeyNode (keyNode_mem hp)).does
    (Does.handedOut fun fuel hfuel => ?_)
  rcases reads_seekFd fd (subscriberCells_subset hp) (length_subscriber_le hp hfuel) with
    ⟨hnot, hseek⟩ | ⟨init, b, rest, hl, hinit, hseek⟩
  · have hnode : fd ∉ n.node.subscriber := hnot
    refine hseek.does (Does.pure ⟨n, rfl, rfl, ?_, hp⟩)
    rw [Store.removeSubscriber, if_neg hnode]
  · refine hseek.does ?_
    have hp' : P.Perm (subscriberRoot a n e (headOf init (some b)) ::
        (segment subscriberKind init (some b) ++
          ((b, .subscriber fd (headOf rest none)) :: (segment subscriberKind rest none ++ R)))) := by
      have hroot : subscriberRoot a n e (headOf init (some b)) = (a, .keyNode (n.cell e)) := by
        rw [subscriberRoot, NodeLayout.cell, hl, headOf_append, headOf_cons]
      rw [hroot]
      refine hp.trans (.of_eq ?_)
      rw [NodeLayout.subscriberCells, hl, segment_append, segment_cons]
      simp [subscriberKind]
    refine (Reads.getNext (κ := subscriberKind) (b := fd) (e := headOf rest none) ?_).does ?_
    · exact hp'.mem_iff.mpr (by simp [subscriberKind])
    refine (Does.relink (κ := subscriberKind) does_setSubscriber init hp').bind fun _ P₁ hp₁ => ?_
    have hfree : P₁.Perm ((b, .subscriber fd (headOf rest none)) ::
        (subscriberRoot a n e (headOf init (headOf rest none)) ::
          (segment subscriberKind init (headOf rest none) ++
            (segment subscriberKind rest none ++ R)))) := by
      refine hp₁.trans ?_
      rw [← List.cons_append]
      exact List.perm_middle
    refine (Does.free hfree).bind fun _ P₂ h₂ => Does.pure ?_
    refine ⟨{ n with subscriber := init ++ rest }, rfl, rfl, ?_, ?_⟩
    · have hmem : fd ∈ n.node.subscriber := by simp [NodeLayout.node, hl]
      have herase : (init ++ rest).map Prod.snd = n.node.subscriber.erase fd := by
        rw [NodeLayout.node, hl, List.map_append, List.map_append, List.erase_append_right _ hinit,
          List.map_cons, List.erase_cons_head]
      rw [Store.removeSubscriber, if_pos hmem, ← herase]
      rfl
    · rw [h₂]
      exact .of_eq (by simp [subscriberRoot, NodeLayout.cell, NodeLayout.subscriberCells,
        headOf_append, segment_append])

theorem reads_notifySubscribers (key value : CStr) :
    Reads P (notifySubscribers a key value) (Store.notifySubscribers n.node key value) := by
  refine (reads_loadKeyNode (keyNode_mem hp)).does
    (Does.handedOut fun fuel hfuel => ?_)
  have hsend : ∀ m ∈ n.subscriber, Reads P (sendTo key value m.1) ⟨m.2, key, value⟩ := by
    intro m hm
    obtain ⟨e, he⟩ := mem_segment (κ := subscriberKind) hm none
    exact (reads_loadSubscriber (subscriberCells_subset hp he)).bind Reads.pure
  have hwalk := Reads.walk (κ := subscriberKind) (f := fun fd => (⟨fd, key, value⟩ : Message))
    (subscriberCells_subset hp) hsend (length_subscriber_le hp hfuel)
  rw [Store.notifySubscribers, NodeLayout.node, List.map_map]
  exact hwalk

omit hp in
theorem does_freeSubscribers {l : List (Addr × Fd)}
    (hp : P.Perm (segment subscriberKind l none ++ R)) :
    Does P (freeSubscribers (headOf l none)) fun _ P' => P'.Perm R := by
  refine Does.handedOut fun fuel hfuel => ?_
  refine Does.release (κ := subscriberKind) (fun m e P R hm => ?_) l hp ?_
  · exact (Does.free hm).imp fun _ P' h => ⟨P', .rfl, h ▸ .rfl⟩
  · have hle := length_le_segment (κ := subscriberKind) l none
    have hperm := hp.length_eq
    rw [List.length_append] at hperm
    omega

end Subscribers

/-- A node is freed with its strings and its subscribers. -/
theorem does_freeKeyNode {P R : List (Addr × Cell)} (n : Addr × NodeLayout) (e : Option Addr)
    (hp : P.Perm ((n.1, .keyNode (n.2.cell e)) :: (n.2.own ++ R))) :
    Does P (freeKeyNode n.1) fun _ P' => P'.Perm R := by
  refine (reads_loadKeyNode (hp.mem_iff.mpr List.mem_cons_self)).does ?_
  -- each of the owned cells in turn is moved to the front
  have hkey : P.Perm ((n.2.key.1, .text n.2.key.2) :: (textCells n.2.value ++
      (n.2.subscriberCells ++ ((n.1, .keyNode (n.2.cell e)) :: R)))) := by
    refine hp.trans ?_
    rw [NodeLayout.own, List.cons_append]
    refine (List.Perm.swap ..).trans (.cons _ ?_)
    rw [← List.append_assoc]
    exact List.perm_middle.symm
  refine (Does.free hkey).bind fun _ P₁ h₁ => ?_
  refine (does_freePtr (.of_eq h₁)).bind fun _ P₂ hp₂ => ?_
  refine (does_freeSubscribers hp₂).bind fun _ P₃ hp₃ => ?_
  exact (Does.free hp₃).imp fun _ P' h => ⟨P', .rfl, h ▸ .rfl⟩

/-! ### The first node of a key -/

section Split
variable {init : List (Addr × NodeLayout)} {a : Addr} {n : NodeLayout}
  {rest : List (Addr × NodeLayout)}

theorem findNode_chainOf_none {key : CStr} {c : List (Addr × NodeLayout)}
    (h : ∀ m ∈ c, m.2.key.2 ≠ key) : findNode key (chainOf c) = none := by
  rw [findNode_eq, Chain.lookup_eq_none]
  intro node hnode
  obtain ⟨m, hm, rfl⟩ := List.mem_map.mp hnode
  exact h m hm

variable (hinit : ∀ m ∈ init, m.2.key.2 ≠ n.key.2)
include hinit

theorem findNode_chainOf :
    findNode n.key.2 (chainOf (init ++ (a, n) :: rest)) = some n.node := by
  induction init with
  | nil => simp [chainOf, findNode, NodeLayout.node, strcmp_eq_zero]
  | cons m init ih =>
    have hm : ¬ strcmp m.2.node.key n.key.2 = 0 := by
      rw [strcmp_eq_zero]
      exact hinit m List.mem_cons_self
    have hrec := ih fun x hx => hinit x (List.mem_cons_of_mem _ hx)
    simpa [chainOf, findNode, hm] using hrec

theorem updateNode_chainOf (f : KeyNode → KeyNode) :
    updateNode n.key.2 f (chainOf (init ++ (a, n) :: rest)) =
      chainOf init ++ f n.node :: chainOf rest := by
  induction init with
  | nil => simp [chainOf, updateNode, NodeLayout.node, strcmp_eq_zero]
  | cons m init ih =>
    have hm : ¬ strcmp m.2.node.key n.key.2 = 0 := by
      rw [strcmp_eq_zero]
      exact hinit m List.mem_cons_self
    have hrec := ih fun x hx => hinit x (List.mem_cons_of_mem _ hx)
    simpa [chainOf, updateNode, hm] using hrec

theorem unlinkNode_chainOf :
    unlinkNode n.key.2 (chainOf (init ++ (a, n) :: rest)) = chainOf (init ++ rest) := by
  induction init with
  | nil => simp [chainOf, unlinkNode, NodeLayout.node, strcmp_eq_zero]
  | cons m init ih =>
    have hm : ¬ strcmp m.2.node.key n.key.2 = 0 := by
      rw [strcmp_eq_zero]
      exact hinit m List.mem_cons_self
    have hrec := ih fun x hx => hinit x (List.mem_cons_of_mem _ hx)
    simpa [chainOf, unlinkNode, hm] using hrec

end Split

/-! ### One bucket -/

section Bucket
variable {ht : Addr} {heads : Bucket → Option Addr} {locks : Option Addr} {b : Bucket}
  {P R : List (Addr × Cell)} {key : CStr}

/-- The cell of the table with another head of one bucket. -/
def bucketRoot (ht : Addr) (heads : Bucket → Option Addr) (locks : Option Addr) (b : Bucket)
    (e : Option Addr) : Addr × Cell :=
  (ht, .hashTable (Function.update heads b e) locks)

/-- Exactly the cells of one bucket with these nodes, and `R`. -/
def BucketHolds (ht : Addr) (heads : Bucket → Option Addr) (locks : Option Addr) (b : Bucket)
    (R : List (Addr × Cell)) (chain : List KeyNode) (P : List (Addr × Cell)) : Prop :=
  ∃ c, chainOf c = chain ∧
    P.Perm (bucketRoot ht heads locks b (headOf c none) :: (segment keyNodeKind c none ++ R))

/-- The cells around one node of a bucket. -/
def around (ht : Addr) (heads : Bucket → Option Addr) (locks : Option Addr) (b : Bucket)
    (R : List (Addr × Cell)) (init : List (Addr × NodeLayout)) (a : Addr)
    (rest : List (Addr × NodeLayout)) : List (Addr × Cell) :=
  bucketRoot ht heads locks b (headOf init (some a)) ::
    (segment keyNodeKind init (some a) ++ (segment keyNodeKind rest none ++ R))

/-- A node of a bucket can be taken out of the cells around it, and another one put there. -/
theorem bucket_perm (init : List (Addr × NodeLayout)) (a : Addr) (n : NodeLayout)
    (rest : List (Addr × NodeLayout)) :
    (bucketRoot ht heads locks b (headOf (init ++ (a, n) :: rest) none) ::
      (segment keyNodeKind (init ++ (a, n) :: rest) none ++ R)).Perm
    ((a, .keyNode (n.cell (headOf rest none))) :: (n.own ++
      around ht heads locks b R init a rest)) := by
  rw [headOf_append, segment_append, segment_cons, List.append_assoc, ← List.cons_append]
  refine List.perm_middle.trans (.cons _ ?_)
  change (bucketRoot ht heads locks b (headOf init (some a)) :: segment keyNodeKind init (some a) ++
    (n.own ++ segment keyNodeKind rest none ++ R)).Perm _
  rw [List.append_assoc]
  exact List.perm_append_comm_assoc ..

theorem does_setBucket (e e' : Option Addr) (P R : List (Addr × Cell))
    (hp : P.Perm (bucketRoot ht heads locks b e :: R)) :
    Does P (setBucket ht b e') fun _ P' => P' = bucketRoot ht heads locks b e' :: R := by
  refine (reads_loadTable (hp.mem_iff.mpr List.mem_cons_self)).does ?_
  refine (Does.store hp _).imp fun _ P' h => ⟨P', .rfl, ?_⟩
  rw [h, Function.update_idem]
  rfl

/-- The search loop: no node of the key, or the first one and the node before it. -/
theorem reads_findKeyNode {c : List (Addr × NodeLayout)} (key : CStr)
    (hp : P.Perm (bucketRoot ht heads locks b (headOf c none) ::
      (segment keyNodeKind c none ++ R))) :
    (findNode key (chainOf c) = none ∧
        Reads P (findKeyNode ht b key) (lastOf none c, none)) ∨
      ∃ init a n rest, c = init ++ (a, n) :: rest ∧ n.key.2 = key ∧
        (∀ m ∈ init, m.2.key.2 ≠ n.key.2) ∧
        Reads P (findKeyNode ht b key) (lastOf none init, some a) := by
  have hsub : segment keyNodeKind c none ⊆ P := fun x hx =>
    hp.mem_iff.mpr (List.mem_cons_of_mem _ (List.mem_append_left _ hx))
  have htest : ∀ m ∈ c, Reads P (matchKey key m.1) (decide (m.2.key.2 = key)) := by
    intro m hm
    obtain ⟨e, he⟩ := mem_segment (κ := keyNodeKind) hm none
    have hown : (m.2.key.1, .text m.2.key.2) ∈ P :=
      hsub (own_subset_segment (κ := keyNodeKind) hm none List.mem_cons_self)
    refine (reads_loadKeyNode (hsub he)).bind ((reads_loadText hown).bind ?_)
    simp only [strcmp_eq_zero]
    exact Reads.pure
  have hlen : ∀ {fuel}, P.length ≤ fuel → c.length ≤ fuel := by
    intro fuel hfuel
    have hle := length_le_segment (κ := keyNodeKind) c none
    have hperm := hp.length_eq
    simp only [List.length_cons, List.length_append] at hperm
    omega
  have hload := reads_loadTable (hp.mem_iff.mpr List.mem_cons_self)
  rcases splitFirst (fun n => decide (n.key.2 = key)) c with hall | ⟨init, m, rest, rfl, hinit, hm⟩
  · refine .inl ⟨findNode_chainOf_none fun m hm => of_decide_eq_false (hall m hm), ?_⟩
    refine hload.does (Does.handedOut fun fuel hfuel => ?_)
    simp only [Function.update_self]
    exact Reads.seek_none hsub (fun x hx => hall x hx ▸ htest x hx) (hlen hfuel)
  · obtain rfl := of_decide_eq_true hm
    refine .inr ⟨init, m.1, m.2, rest, rfl, rfl, fun x hx => of_decide_eq_false (hinit x hx), ?_⟩
    refine hload.does (Does.handedOut fun fuel hfuel => ?_)
    simp only [Function.update_self]
    refine Reads.seek_found hsub (fun x hx => ?_) (hm ▸ htest m (by simp)) (hlen hfuel)
    exact hinit x hx ▸ htest x (List.mem_append_left _ hx)

end Bucket

end IstKvs.Memory
