import IstKvs.Systems.Memory

/-! Singly linked lists in memory. A kind of node says what its cell holds and
which other cells only it refers to; the search loop that keeps the node before the
current one, the change of one link, and the loops that visit or free the nodes of
a list are given once for every kind. -/

namespace IstKvs.Systems

/-- The field `next` of a node's cell; cells of anything else have none. -/
structure NodeAccess (A : Type) where
  next : A → Option (Option Addr)
  setNext : A → Option Addr → A

/-- A kind of node: its cell from what it stands for and the address of the next
node, and the cells that only this node refers to. -/
structure NodeKind (A B : Type) extends NodeAccess A where
  cell : B → Option Addr → A
  own : B → List (Addr × A)
  next_cell : ∀ b e, next (cell b e) = some e
  setNext_cell : ∀ b e e', setNext (cell b e) e' = cell b e'

/-! ### Programs -/

section Programs
variable {E A C : Type} (acc : NodeAccess A)

/-- `a->next`. -/
def getNext (a : Addr) : Mem E A (Option Addr) := do
  let x ← load a
  match acc.next x with
  | some e => pure e
  | none => trap (.invalid a)

/-- `a->next = e`. -/
def putNext (a : Addr) (e : Option Addr) : Mem E A Unit := do
  let x ← load a
  match acc.next x with
  | some _ => store a (acc.setNext x e)
  | none => trap (.invalid a)

/-- The search loop, with the node before the current one: it ends at the first node
that passes the test or with NULL. -/
def seek (test : Addr → Mem E A Bool) :
    ℕ → Option Addr → Option Addr → Mem E A (Option Addr × Option Addr)
  | _, prev, none => pure (prev, none)
  | 0, _, some _ => trap .endless
  | fuel + 1, prev, some cur => do
    let pass ← test cur
    if pass then pure (prev, some cur)
    else do
      let e ← getNext acc cur
      seek test fuel (some cur) e

/-- The link that leads to the current node is changed: the head of the list when no
node is before it. -/
def relink (setHead : Option Addr → Mem E A Unit) (prev e : Option Addr) : Mem E A Unit :=
  match prev with
  | none => setHead e
  | some p => putNext acc p e

/-- Every node is visited. -/
def walk (visit : Addr → Mem E A C) : ℕ → Option Addr → Mem E A (List C)
  | _, none => pure []
  | 0, some _ => trap .endless
  | fuel + 1, some cur => do
    let c ← visit cur
    let e ← getNext acc cur
    let cs ← walk visit fuel e
    pure (c :: cs)

/-- Every node is disposed of after its `next` was read. -/
def release (dispose : Addr → Mem E A Unit) : ℕ → Option Addr → Mem E A Unit
  | _, none => pure ()
  | 0, some _ => trap .endless
  | fuel + 1, some cur => do
    let e ← getNext acc cur
    dispose cur
    release dispose fuel e

/-- Every node that passes the test is unlinked and disposed of. -/
def sweep (test : Addr → Mem E A Bool) (setHead : Option Addr → Mem E A Unit)
    (dispose : Addr → Mem E A Unit) : ℕ → Option Addr → Option Addr → Mem E A Unit
  | _, _, none => pure ()
  | 0, _, some _ => trap .endless
  | fuel + 1, prev, some cur => do
    let pass ← test cur
    let e ← getNext acc cur
    if pass then do
      relink acc setHead prev e
      dispose cur
      sweep test setHead dispose fuel prev e
    else sweep test setHead dispose fuel (some cur) e

end Programs

variable {E A B C : Type}

/-! ### Segments -/

/-- The address of the first node, or what follows the nodes. -/
def headOf : List (Addr × B) → Option Addr → Option Addr
  | [], e => e
  | n :: _, _ => some n.1

/-- The address of the last node, or what comes before the nodes. -/
def lastOf : Option Addr → List (Addr × B) → Option Addr
  | prev, [] => prev
  | _, n :: l => lastOf (some n.1) l

/-- The cells of linked nodes, the last of which points to `e`. -/
def segment (κ : NodeKind A B) : List (Addr × B) → Option Addr → List (Addr × A)
  | [], _ => []
  | n :: l, e => (n.1, κ.cell n.2 (headOf l e)) :: (κ.own n.2 ++ segment κ l e)

variable {κ : NodeKind A B}

@[simp] theorem headOf_nil (e : Option Addr) : headOf ([] : List (Addr × B)) e = e := rfl

@[simp] theorem headOf_cons (n : Addr × B) (l : List (Addr × B)) (e : Option Addr) :
    headOf (n :: l) e = some n.1 := rfl

@[simp] theorem lastOf_nil (prev : Option Addr) : lastOf prev ([] : List (Addr × B)) = prev := rfl

@[simp] theorem lastOf_cons (prev : Option Addr) (n : Addr × B) (l : List (Addr × B)) :
    lastOf prev (n :: l) = lastOf (some n.1) l := rfl

@[simp] theorem segment_nil (e : Option Addr) : segment κ [] e = [] := rfl

theorem segment_cons (n : Addr × B) (l : List (Addr × B)) (e : Option Addr) :
    segment κ (n :: l) e = (n.1, κ.cell n.2 (headOf l e)) :: (κ.own n.2 ++ segment κ l e) := rfl

theorem headOf_append (l l' : List (Addr × B)) (e : Option Addr) :
    headOf (l ++ l') e = headOf l (headOf l' e) := by
  cases l <;> rfl

theorem lastOf_append (prev : Option Addr) (l l' : List (Addr × B)) :
    lastOf prev (l ++ l') = lastOf (lastOf prev l) l' := by
  induction l generalizing prev with
  | nil => rfl
  | cons n l ih => exact ih (some n.1)

theorem segment_append (l l' : List (Addr × B)) (e : Option Addr) :
    segment κ (l ++ l') e = segment κ l (headOf l' e) ++ segment κ l' e := by
  induction l with
  | nil => rfl
  | cons n l ih => simp [segment, headOf_append, ih]

theorem length_le_segment (l : List (Addr × B)) (e : Option Addr) :
    l.length ≤ (segment κ l e).length := by
  induction l with
  | nil => exact Nat.zero_le _
  | cons n l ih =>
    simp only [segment, List.length_cons, List.length_append]
    omega

/-- The cell of every node, whatever its `next` is. -/
theorem mem_segment {l : List (Addr × B)} {n : Addr × B} (hn : n ∈ l) (e : Option Addr) :
    ∃ e', (n.1, κ.cell n.2 e') ∈ segment κ l e := by
  induction l with
  | nil => cases hn
  | cons m l ih =>
    rw [segment_cons]
    rcases List.mem_cons.mp hn with rfl | hn
    · exact ⟨_, List.mem_cons_self⟩
    · obtain ⟨e', he'⟩ := ih hn
      exact ⟨e', List.mem_cons_of_mem _ (List.mem_append_right _ he')⟩

theorem own_subset_segment {l : List (Addr × B)} {n : Addr × B} (hn : n ∈ l) (e : Option Addr) :
    κ.own n.2 ⊆ segment κ l e := by
  induction l with
  | nil => cases hn
  | cons m l ih =>
    rw [segment_cons]
    intro c hc
    rcases List.mem_cons.mp hn with rfl | hn
    · exact List.mem_cons_of_mem _ (List.mem_append_left _ hc)
    · exact List.mem_cons_of_mem _ (List.mem_append_right _ (ih hn hc))

/-- Either no node passes a test, or there is a first one that does. -/
theorem splitFirst (pass : B → Bool) (l : List (Addr × B)) :
    (∀ n ∈ l, pass n.2 = false) ∨ ∃ init n rest, l = init ++ n :: rest ∧
      (∀ m ∈ init, pass m.2 = false) ∧ pass n.2 = true := by
  induction l with
  | nil => exact .inl (by simp)
  | cons n l ih =>
    cases hn : pass n.2 with
    | true => exact .inr ⟨[], n, l, rfl, by simp, hn⟩
    | false =>
      rcases ih with hall | ⟨init, m, rest, rfl, hinit, hm⟩
      · exact .inl (by simpa [hn] using hall)
      · exact .inr ⟨n :: init, m, rest, rfl, by simpa [hn] using hinit, hm⟩

/-! ### Rules -/

section Rules
variable {P R : List (Addr × A)} {a : Addr} {b : B} {e e' : Option Addr}

theorem Reads.getNext (hm : (a, κ.cell b e) ∈ P) :
    Reads P (getNext κ.toNodeAccess a : Mem E A _) e := by
  refine (Reads.load hm).bind ?_
  simp only [κ.next_cell]
  exact Reads.pure

theorem Does.putNext (hp : P.Perm ((a, κ.cell b e) :: R)) :
    Does P (putNext κ.toNodeAccess a e' : Mem E A Unit) fun _ P' => P' = (a, κ.cell b e') :: R := by
  refine (Reads.load (hp.mem_iff.mpr List.mem_cons_self)).does ?_
  simp only [κ.next_cell, κ.setNext_cell]
  exact Does.store hp _

section Seek
variable {test : Addr → Mem E A Bool} {fuel : ℕ} {prev : Option Addr}
  {r : Option Addr × Option Addr} {l : List (Addr × B)}

/-- The search passes over nodes that fail its test. -/
theorem Reads.seek_skip (hsub : segment κ l e ⊆ P) (htest : ∀ n ∈ l, Reads P (test n.1) false)
    (h : Reads P (seek κ.toNodeAccess test fuel (lastOf prev l) e) r) :
    Reads P (seek κ.toNodeAccess test (l.length + fuel) prev (headOf l e)) r := by
  induction l generalizing prev with
  | nil => simpa using h
  | cons n l ih =>
    rw [segment_cons, List.cons_subset, List.append_subset] at hsub
    rw [List.length_cons, show l.length + 1 + fuel = l.length + fuel + 1 by omega]
    refine (htest n List.mem_cons_self).bind ((Reads.getNext hsub.1).bind ?_)
    exact ih hsub.2.2 (fun m hm => htest m (List.mem_cons_of_mem _ hm)) h

theorem Reads.seek_none (hsub : segment κ l none ⊆ P)
    (htest : ∀ n ∈ l, Reads P (test n.1) false) (hfuel : l.length ≤ fuel) :
    Reads P (seek κ.toNodeAccess test fuel prev (headOf l none)) (lastOf prev l, none) := by
  obtain ⟨k, rfl⟩ := Nat.exists_eq_add_of_le hfuel
  refine Reads.seek_skip hsub htest ?_
  cases k <;> exact Reads.pure

theorem Reads.seek_found {n : Addr × B} {rest : List (Addr × B)}
    (hsub : segment κ (l ++ n :: rest) e ⊆ P) (htest : ∀ m ∈ l, Reads P (test m.1) false)
    (hn : Reads P (test n.1) true) (hfuel : (l ++ n :: rest).length ≤ fuel) :
    Reads P (seek κ.toNodeAccess test fuel prev (headOf (l ++ n :: rest) e))
      (lastOf prev l, some n.1) := by
  rw [List.length_append, List.length_cons] at hfuel
  rw [segment_append, List.append_subset] at hsub
  obtain ⟨k, rfl⟩ := Nat.exists_eq_add_of_le (show l.length + 1 ≤ fuel by omega)
  rw [headOf_append, show l.length + 1 + k = l.length + (k + 1) by omega]
  exact Reads.seek_skip hsub.1 htest (hn.bind Reads.pure)

end Seek

section Walk
variable {visit : Addr → Mem E A C} {l : List (Addr × B)} {fuel : ℕ}

theorem Reads.walk {f : B → C} (hsub : segment κ l none ⊆ P)
    (hvisit : ∀ n ∈ l, Reads P (visit n.1) (f n.2)) (hfuel : l.length ≤ fuel) :
    Reads P (walk κ.toNodeAccess visit fuel (headOf l none)) (l.map fun n => f n.2) := by
  induction l generalizing fuel with
  | nil => cases fuel <;> exact Reads.pure
  | cons n l ih =>
    obtain ⟨k, rfl⟩ := Nat.exists_eq_add_one_of_ne_zero (Nat.ne_zero_of_lt hfuel)
    rw [List.length_cons] at hfuel
    rw [segment_cons, List.cons_subset, List.append_subset] at hsub
    refine (hvisit n List.mem_cons_self).bind ((Reads.getNext hsub.1).bind ?_)
    have hvisit' := fun m hm => hvisit m (List.mem_cons_of_mem _ hm)
    exact (ih hsub.2.2 hvisit' (by omega)).bind Reads.pure

end Walk

section Dispose
variable {dispose : Addr → Mem E A Unit}
  (hdispose : ∀ (n : Addr × B) e P R, P.Perm ((n.1, κ.cell n.2 e) :: (κ.own n.2 ++ R)) →
    Does P (dispose n.1) fun _ P' => P'.Perm R)
include hdispose

/-- Nothing is left of a list whose nodes are all disposed of. -/
theorem Does.release (l : List (Addr × B)) {fuel : ℕ} (hp : P.Perm (segment κ l none ++ R))
    (hfuel : l.length ≤ fuel) :
    Does P (release κ.toNodeAccess dispose fuel (headOf l none)) fun _ P' => P'.Perm R := by
  induction l generalizing P fuel with
  | nil => cases fuel <;> exact Does.pure hp
  | cons n l ih =>
    obtain ⟨k, rfl⟩ := Nat.exists_eq_add_one_of_ne_zero (Nat.ne_zero_of_lt hfuel)
    rw [List.length_cons] at hfuel
    rw [segment_cons, List.cons_append, List.append_assoc] at hp
    refine (Reads.getNext (hp.mem_iff.mpr List.mem_cons_self)).does ?_
    refine (hdispose n _ P _ hp).bind fun _ P' hp' => ?_
    exact ih hp' (by omega)

end Dispose

section Lists
variable {root : Option Addr → Addr × A} {setHead : Option Addr → Mem E A Unit}
  (hset : ∀ e e' P R, P.Perm (root e :: R) →
    Does P (setHead e' : Mem E A Unit) fun _ P' => P' = root e' :: R)
include hset

/-- The link after the last node of a segment is changed, or the head when the segment is empty. -/
theorem Does.relink (l : List (Addr × B))
    (hp : P.Perm (root (headOf l e) :: (segment κ l e ++ R))) :
    Does P (Systems.relink κ.toNodeAccess setHead (lastOf none l) e' : Mem E A Unit) fun _ P' =>
      P'.Perm (root (headOf l e') :: (segment κ l e' ++ R)) := by
  rcases List.eq_nil_or_concat l with rfl | ⟨init, n, rfl⟩
  · exact (hset e e' P R hp).imp fun _ P' h => ⟨P', .rfl, h ▸ .rfl⟩
  · -- the cell of the last node can be moved to the front and back
    have hmove : ∀ e, (root (headOf (init ++ [n]) e) :: (segment κ (init ++ [n]) e ++ R)).Perm
        ((n.1, κ.cell n.2 e) :: root (headOf init (some n.1)) ::
          (segment κ init (some n.1) ++ (κ.own n.2 ++ R))) := by
      intro e
      simp only [segment_append, headOf_append, headOf_cons, headOf_nil, segment_cons, segment_nil,
        List.append_nil, List.append_assoc, List.cons_append]
      exact (List.Perm.cons _ List.perm_middle).trans (.swap _ _ _)
    rw [List.concat_eq_append] at hp ⊢
    rw [lastOf_append]
    exact (Does.putNext (hp.trans (hmove e))).imp fun _ P' h => ⟨P', .rfl, h ▸ (hmove e').symm⟩

/-- The nodes that pass the test leave the list and the memory, all others stay in order. -/
theorem Does.sweep {test : Addr → Mem E A Bool} (pass : B → Bool) {dispose : Addr → Mem E A Unit}
    (htest : ∀ (n : Addr × B) e P, (n.1, κ.cell n.2 e) ∈ P → κ.own n.2 ⊆ P →
      Reads P (test n.1) (pass n.2))
    (hdispose : ∀ (n : Addr × B) e P R, P.Perm ((n.1, κ.cell n.2 e) :: (κ.own n.2 ++ R)) →
      Does P (dispose n.1) fun _ P' => P'.Perm R)
    (kept l : List (Addr × B)) {fuel : ℕ}
    (hp : P.Perm (root (headOf (kept ++ l) none) :: (segment κ (kept ++ l) none ++ R)))
    (hfuel : l.length ≤ fuel) :
    Does P (sweep κ.toNodeAccess test setHead dispose fuel (lastOf none kept) (headOf l none))
      fun _ P' => P'.Perm (root (headOf (kept ++ l.filter fun n => !pass n.2) none) ::
        (segment κ (kept ++ l.filter fun n => !pass n.2) none ++ R)) := by
  induction l generalizing P kept fuel with
  | nil => cases fuel <;> exact Does.pure (by simpa using hp)
  | cons n l ih =>
    obtain ⟨k, rfl⟩ := Nat.exists_eq_add_one_of_ne_zero (Nat.ne_zero_of_lt hfuel)
    rw [List.length_cons] at hfuel
    have hsplit : P.Perm (root (headOf kept (some n.1)) :: (segment κ kept (some n.1) ++
        ((n.1, κ.cell n.2 (headOf l none)) :: (κ.own n.2 ++ (segment κ l none ++ R))))) := by
      simpa [headOf_append, segment_append, segment_cons] using hp
    have hsub : (n.1, κ.cell n.2 (headOf l none)) ∈ P ∧ κ.own n.2 ⊆ P := by
      constructor
      · exact hsplit.mem_iff.mpr (by simp)
      · intro c hc
        exact hsplit.mem_iff.mpr (by simp [hc])
    refine (htest n _ P hsub.1 hsub.2).does ((Reads.getNext hsub.1).does ?_)
    cases hn : pass n.2 with
    | true =>
      refine (Does.relink hset kept hsplit).bind fun _ P₁ hp₁ => ?_
      have hfront : P₁.Perm ((n.1, κ.cell n.2 (headOf l none)) :: (κ.own n.2 ++
          (root (headOf kept (headOf l none)) :: (segment κ kept (headOf l none) ++
            (segment κ l none ++ R))))) := by
        refine hp₁.trans ?_
        rw [← List.cons_append]
        exact List.perm_middle.trans (.cons _ (List.perm_append_comm_assoc ..))
      refine (hdispose n _ P₁ _ hfront).bind fun _ P₂ hp₂ => ?_
      have hp' : P₂.Perm (root (headOf (kept ++ l) none) :: (segment κ (kept ++ l) none ++ R)) := by
        simpa [headOf_append, segment_append] using hp₂
      have hrec := ih kept hp' (show l.length ≤ k by omega)
      simpa [hn] using hrec
    | false =>
      have hp' : P.Perm (root (headOf ((kept ++ [n]) ++ l) none) ::
          (segment κ ((kept ++ [n]) ++ l) none ++ R)) := by
        simpa using hp
      have hrec := ih (kept ++ [n]) hp' (show l.length ≤ k by omega)
      simpa [hn, lastOf_append] using hrec

end Lists

end Rules

end IstKvs.Systems
