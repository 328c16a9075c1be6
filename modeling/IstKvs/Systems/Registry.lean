import IstKvs.Systems.Tally
import Mathlib.Data.Finset.Card
import Mathlib.Data.Fintype.Card

/-! A registry of items with a fixed number of slots. A thread takes a new item, gives it
a tag, enters it into a free slot, and later removes the first item it finds under the tag,
which may be another one. It may also desert its item, and others may evict items.

As long as nobody deserts an item whose tag is still registered, the registered items are
at most as many as the threads that have entered one, so that a thread that is about to
enter an item finds a free slot. As long as each removal finds the item of its thread, and
there is nothing else that takes items out, every entered item stays registered. -/

namespace IstKvs.Systems

open Function

/-- Where a thread is with its item. -/
inductive Tenure
  | away
  | entering (x : ℕ)
  | within (x : ℕ)
  deriving DecidableEq

namespace Tenure

def item : Tenure → Option ℕ
  | away => none
  | entering x | within x => some x

def entered : Tenure → Option ℕ
  | within x => some x
  | _ => none

@[simp] theorem entered_away : entered away = none := rfl

@[simp] theorem entered_entering (x : ℕ) : entered (entering x) = none := rfl

@[simp] theorem entered_within (x : ℕ) : entered (within x) = some x := rfl

theorem item_of_entered {q : Tenure} {x : ℕ} (h : q.entered = some x) : q.item = some x := by
  cases q <;> first | exact h | cases h

end Tenure

/-- Items are numbered as they are taken. -/
structure Registry (ι κ T : Type*) where
  place : ι → Tenure
  slots : κ → Option ℕ
  tag : ℕ → T
  next : ℕ

namespace Registry

/-- What happens to the registry: `miss` is a removal that finds no item of the tag. -/
inductive Event (ι κ : Type*)
  | stay
  | take (i : ι)
  | retag (i : ι) (x : ℕ)
  | enter (i : ι) (x : ℕ) (k : κ)
  | full (i : ι) (x : ℕ)
  | remove (i : ι) (x : ℕ) (k : κ)
  | miss (i : ι) (x : ℕ)
  | desert (i : ι) (x : ℕ)
  | evict (k : κ)

variable {ι κ T : Type*}

/-- No registered item has the tag of `x`. -/
def Untagged (c : Registry ι κ T) (x : ℕ) : Prop :=
  ∀ k y, c.slots k = some y → c.tag y ≠ c.tag x

section Step
variable [DecidableEq ι] [DecidableEq κ]

def move (c : Registry ι κ T) (i : ι) (q : Tenure) : Registry ι κ T :=
  { c with place := update c.place i q }

inductive Step (c : Registry ι κ T) : Event ι κ → Registry ι κ T → Prop
  | stay : Step c .stay c
  | take {i : ι} (h : c.place i = .away) :
      Step c (.take i) ({ c with next := c.next + 1 }.move i (.entering c.next))
  | retag {i : ι} {x : ℕ} (v : T) (h : c.place i = .entering x) :
      Step c (.retag i x) { c with tag := update c.tag x v }
  | enter {i : ι} {x : ℕ} {k : κ} (h : c.place i = .entering x) (hk : c.slots k = none) :
      Step c (.enter i x k) ({ c with slots := update c.slots k (some x) }.move i (.within x))
  | full {i : ι} {x : ℕ} (h : c.place i = .entering x) (hk : ∀ k, c.slots k ≠ none) :
      Step c (.full i x) (c.move i (.within x))
  | remove {i : ι} {x y : ℕ} {k : κ} (h : c.place i = .within x) (hk : c.slots k = some y)
      (ht : c.tag y = c.tag x) :
      Step c (.remove i x k) ({ c with slots := update c.slots k none }.move i .away)
  | miss {i : ι} {x : ℕ} (h : c.place i = .within x) (ht : c.Untagged x) :
      Step c (.miss i x) (c.move i .away)
  | desert {i : ι} {x : ℕ} (h : c.place i = .within x) : Step c (.desert i x) (c.move i .away)
  | evict {k : κ} : Step c (.evict k) { c with slots := update c.slots k none }

end Step

/-! ### Items and slots -/

variable {c d : Registry ι κ T}

namespace Step

variable [DecidableEq ι] [DecidableEq κ] {e : Event ι κ} (hs : Step c e d) {i : ι} {x : ℕ}
include hs

/-- A thread has no longer the item that it has removed, missed or deserted. -/
theorem lost (h : (c.place i).item = some x) (h' : (d.place i).item ≠ some x) :
    (∃ k, e = .remove i x k) ∨ e = .miss i x ∨ e = .desert i x := by
  have hmove : ∀ j q, (update c.place j q i).item ≠ some x →
      ((c.place j).item = some x → q.item ≠ some x → j = i →
        (∃ k, e = .remove i x k) ∨ e = .miss i x ∨ e = .desert i x) →
      (∃ k, e = .remove i x k) ∨ e = .miss i x ∨ e = .desert i x := by
    intro j q hq hj
    rw [update_apply] at hq
    split_ifs at hq with hij
    · rw [hij] at h
      exact hj h hq hij.symm
    · exact absurd h hq
  cases hs with
  | stay => exact absurd h h'
  | retag => exact absurd h h'
  | evict => exact absurd h h'
  | take hi => exact hmove _ _ h' fun hj => by rw [hi] at hj; cases hj
  | enter hi => exact hmove _ _ h' fun hj hq => absurd (by rw [hi] at hj; exact hj) hq
  | full hi => exact hmove _ _ h' fun hj hq => absurd (by rw [hi] at hj; exact hj) hq
  | remove hi =>
    refine hmove _ _ h' fun hj _ hij => .inl ?_
    rw [hi] at hj
    cases hj
    exact ⟨_, by rw [hij]⟩
  | miss hi =>
    refine hmove _ _ h' fun hj _ hij => .inr (.inl ?_)
    rw [hi] at hj
    cases hj
    rw [hij]
  | desert hi =>
    refine hmove _ _ h' fun hj _ hij => .inr (.inr ?_)
    rw [hi] at hj
    cases hj
    rw [hij]

/-- An item that a thread has entered it had entered before, or enters now. -/
theorem entered (h : d.place i = .within x) :
    c.place i = .within x ∨ (∃ k, d.slots k = some x) ∨ e = .full i x := by
  have hmove : ∀ j q, update c.place j q i = .within x →
      (q = .within x → j = i → c.place i = .within x ∨ (∃ k, d.slots k = some x) ∨
        e = .full i x) →
      c.place i = .within x ∨ (∃ k, d.slots k = some x) ∨ e = .full i x := by
    intro j q hq hj
    rw [update_apply] at hq
    split_ifs at hq with hij
    · exact hj hq hij.symm
    · exact .inl hq
  cases hs with
  | stay => exact .inl h
  | retag => exact .inl h
  | evict => exact .inl h
  | take => exact hmove _ _ h nofun
  | @enter j y k =>
    refine hmove _ _ h fun hq _ => .inr (.inl ⟨k, ?_⟩)
    cases hq
    simp [move]
  | full =>
    refine hmove _ _ h fun hq hij => .inr (.inr ?_)
    cases hq
    rw [hij]
  | remove => exact hmove _ _ h nofun
  | miss => exact hmove _ _ h nofun
  | desert => exact hmove _ _ h nofun

end Step

/-- Items in slots or with threads were taken, each with one thread and in one slot, and an
item that is being entered is in none. -/
structure Inv (c : Registry ι κ T) : Prop where
  used : ∀ i x, (c.place i).item = some x → x < c.next
  listed : ∀ k x, c.slots k = some x → x < c.next
  sole : ∀ i j x, (c.place i).item = some x → (c.place j).item = some x → i = j
  unlisted : ∀ i x, c.place i = .entering x → ∀ k, c.slots k ≠ some x
  inj : ∀ k k' x, c.slots k = some x → c.slots k' = some x → k = k'

namespace Inv

variable (h : Inv c) {i : ι} {x : ℕ}
include h

theorem empty [DecidableEq κ] (k : κ) : Inv { c with slots := update c.slots k none } where
  used := h.used
  listed k' y hk' := by
    simp only [update_apply] at hk'
    split_ifs at hk'
    exact h.listed k' y hk'
  sole := h.sole
  unlisted j y hj k' hk' := by
    simp only [update_apply] at hk'
    split_ifs at hk'
    exact h.unlisted j y hj k' hk'
  inj k₁ k₂ y h₁ h₂ := by
    simp only [update_apply] at h₁ h₂
    split_ifs at h₁ h₂
    exact h.inj k₁ k₂ y h₁ h₂

section Threads
variable [DecidableEq ι]

/-- A thread that goes on with its item, or lets go of it. -/
theorem move {q : Tenure} (hq : ∀ y, q.item = some y → (c.place i).item = some y)
    (hq' : ∀ y, q ≠ .entering y) : Inv (c.move i q) := by
  have hitem : ∀ j y, ((c.move i q).place j).item = some y → (c.place j).item = some y := by
    intro j y hj
    simp only [Registry.move, update_apply] at hj
    split_ifs at hj with hji
    · rw [hji]
      exact hq y hj
    · exact hj
  exact {
    used := fun j y hj => h.used j y (hitem j y hj)
    listed := h.listed
    sole := fun j j' y hj hj' => h.sole j j' y (hitem j y hj) (hitem j' y hj')
    unlisted := by
      intro j y hj
      simp only [Registry.move, update_apply] at hj
      split_ifs at hj
      · exact absurd hj (hq' y)
      · exact h.unlisted j y hj
    inj := h.inj }

theorem away : Inv (c.move i .away) := h.move nofun nofun

/-- A thread that is done with entering its item. -/
theorem arrive (hi : c.place i = .entering x) : Inv (c.move i (.within x)) :=
  h.move (fun y hy => by rw [hi]; exact hy) nofun

theorem take : Inv ({ c with next := c.next + 1 }.move i (.entering c.next)) where
  used j y hj := by
    simp only [Registry.move, update_apply] at hj ⊢
    split_ifs at hj
    · cases hj
      exact Nat.lt_succ_self _
    · exact Nat.lt_succ_of_lt (h.used j y hj)
  listed k y hk := Nat.lt_succ_of_lt (h.listed k y hk)
  sole j j' y hj hj' := by
    simp only [Registry.move, update_apply] at hj hj'
    split_ifs at hj hj' with hji hji' hji'
    · rw [hji, hji']
    · cases hj
      exact absurd (h.used j' _ hj') (lt_irrefl _)
    · cases hj'
      exact absurd (h.used j _ hj) (lt_irrefl _)
    · exact h.sole j j' y hj hj'
  unlisted j y hj k hk := by
    simp only [Registry.move, update_apply] at hj
    split_ifs at hj
    · cases hj
      exact lt_irrefl _ (h.listed k _ hk)
    · exact h.unlisted j y hj k hk
  inj := h.inj

variable [DecidableEq κ]

theorem enter {k : κ} (hi : c.place i = .entering x) :
    Inv ({ c with slots := update c.slots k (some x) }.move i (.within x)) where
  used := (h.arrive hi).used
  listed k' y hk' := by
    simp only [Registry.move, update_apply] at hk' ⊢
    split_ifs at hk'
    · cases hk'
      exact h.used i x (by rw [hi]; rfl)
    · exact h.listed k' y hk'
  sole := (h.arrive hi).sole
  unlisted j y hj k' hk' := by
    simp only [Registry.move, update_apply] at hj hk'
    split_ifs at hj hk' with hji
    · cases hk'
      exact hji (h.sole j i x (by rw [hj]; rfl) (by rw [hi]; rfl))
    · exact h.unlisted j y hj k' hk'
  inj k₁ k₂ y h₁ h₂ := by
    simp only [Registry.move, update_apply] at h₁ h₂
    split_ifs at h₁ h₂ with hk₁ hk₂ hk₂
    · rw [hk₁, hk₂]
    · cases h₁
      exact absurd h₂ (h.unlisted i x hi k₂)
    · cases h₂
      exact absurd h₁ (h.unlisted i x hi k₁)
    · exact h.inj k₁ k₂ y h₁ h₂

theorem step {e : Event ι κ} (hs : Step c e d) : Inv d := by
  cases hs with
  | stay => exact h
  | take => exact h.take
  | retag => exact ⟨h.used, h.listed, h.sole, h.unlisted, h.inj⟩
  | enter hi => exact h.enter hi
  | full hi => exact h.arrive hi
  | remove => exact (h.empty _).away
  | miss => exact h.away
  | desert => exact h.away
  | evict => exact h.empty _

end Threads

end Inv

/-! ### Counting by tag -/

/-- The weight of an item whose tag satisfies `p`. -/
def weight (c : Registry ι κ T) (p : T → Bool) (o : Option ℕ) : ℕ :=
  if o.any fun x => p (c.tag x) then 1 else 0

@[simp] theorem weight_none (c : Registry ι κ T) (p : T → Bool) : c.weight p none = 0 := rfl

@[simp] theorem weight_some (c : Registry ι κ T) (p : T → Bool) (x : ℕ) :
    c.weight p (some x) = if p (c.tag x) then 1 else 0 := rfl

variable [Fintype ι] [Fintype κ]

/-- How many slots have an item whose tag satisfies `p`. -/
def registered (c : Registry ι κ T) (p : T → Bool) : ℕ :=
  tally (fun _ o => c.weight p o) c.slots

/-- How many threads have entered an item whose tag satisfies `p`. -/
def carried (c : Registry ι κ T) (p : T → Bool) : ℕ :=
  tally (fun _ q => c.weight p q.entered) c.place

/-- For every set of tags there are threads for the registered items. -/
def Covered (c : Registry ι κ T) : Prop := ∀ p, c.registered p ≤ c.carried p

omit [Fintype ι] in
theorem registered_move [DecidableEq ι] (p : T → Bool) (i : ι) (q : Tenure) :
    (c.move i q).registered p = c.registered p := rfl

omit [Fintype κ] in
theorem carried_move [DecidableEq ι] (p : T → Bool) (i : ι) (q : Tenure) :
    (c.move i q).carried p + c.weight p (c.place i).entered =
      c.carried p + c.weight p q.entered :=
  tally_update (fun _ (q : Tenure) => c.weight p q.entered) c.place i q

omit [Fintype ι] in
theorem registered_update [DecidableEq κ] (p : T → Bool) (k : κ) (o : Option ℕ) :
    ({ c with slots := update c.slots k o } : Registry ι κ T).registered p +
      c.weight p (c.slots k) = c.registered p + c.weight p o :=
  tally_update (fun _ o => c.weight p o) c.slots k o

omit [Fintype κ] in
theorem carried_update [DecidableEq κ] (p : T → Bool) (k : κ) (o : Option ℕ) :
    ({ c with slots := update c.slots k o } : Registry ι κ T).carried p = c.carried p := rfl

namespace Covered

variable (h : Covered c) {i : ι} {x : ℕ}
include h

/-- Without items of a tag, the threads of all other tags suffice. -/
theorem spare (hi : c.place i = .within x) (hx : c.Untagged x) (p : T → Bool) :
    c.registered p + c.weight p (some x) ≤ c.carried p := by
  classical
  let others : T → Bool := fun v => p v && v ≠ c.tag x
  have hregistered : c.registered others = c.registered p := by
    apply tally_congr
    intro k
    cases hk : c.slots k with
    | none => rfl
    | some y => simp [others, hx k y hk]
  have hcarried : c.carried others + c.weight p (some x) ≤ c.carried p := by
    have hsplit : c.carried p = c.carried others +
        tally (fun _ (q : Tenure) => c.weight (fun v => p v && v = c.tag x) q.entered)
          c.place := by
      rw [carried, carried, ← tally_add]
      apply tally_congr
      intro j
      cases (c.place j).entered with
      | none => rfl
      | some y => by_cases hy : c.tag y = c.tag x <;> simp [others, hy]
    have hone := le_tally
      (fun _ (q : Tenure) => c.weight (fun v => p v && v = c.tag x) q.entered) c.place i
    simp only [hi, Tenure.entered_within, weight_some, decide_true, Bool.and_true] at hone
    rw [hsplit, weight_some]
    omega
  have hcovered := h others
  omega

theorem empty [DecidableEq κ] (k : κ) : Covered { c with slots := update c.slots k none } := by
  intro p
  have hupdate := registered_update (c := c) p k none
  have hcovered := h p
  rw [weight_none] at hupdate
  exact (Nat.le_of_add_right_le hupdate.le).trans hcovered

theorem retag (hc : Inv c) (hi : c.place i = .entering x) (v : T) :
    Covered { c with tag := update c.tag x v } := by
  intro p
  have hweight : ∀ o : Option ℕ, o ≠ some x →
      ({ c with tag := update c.tag x v } : Registry ι κ T).weight p o = c.weight p o := by
    intro o ho
    cases o with
    | none => rfl
    | some y => simp [show y ≠ x from fun hy => ho (by rw [hy])]
  have hregistered : ({ c with tag := update c.tag x v } : Registry ι κ T).registered p =
      c.registered p :=
    tally_congr fun k => hweight _ (hc.unlisted i x hi k)
  have hcarried : ({ c with tag := update c.tag x v } : Registry ι κ T).carried p =
      c.carried p := by
    refine tally_congr fun j => hweight _ fun hj => ?_
    obtain rfl := hc.sole j i x (Tenure.item_of_entered hj) (by rw [hi]; rfl)
    rw [hi] at hj
    cases hj
  rw [hregistered, hcarried]
  exact h p

section Threads
variable [DecidableEq ι]

theorem take (hi : c.place i = .away) :
    Covered ({ c with next := c.next + 1 }.move i (.entering c.next)) := by
  intro p
  have hmove := carried_move (c := { c with next := c.next + 1 }) p i (.entering c.next)
  simp only [hi, Tenure.entered_entering, Tenure.entered_away, weight_none] at hmove
  exact (h p).trans hmove.ge

theorem arrive (hi : c.place i = .entering x) : Covered (c.move i (.within x)) := by
  intro p
  have hmove := carried_move (c := c) p i (.within x)
  have hcovered := h p
  simp only [hi, Tenure.entered_entering, Tenure.entered_within, weight_none] at hmove
  rw [registered_move]
  omega

/-- A thread that leaves nothing of the tag of its item behind. -/
theorem leave (hi : c.place i = .within x) (hx : c.Untagged x) : Covered (c.move i .away) := by
  intro p
  have hmove := carried_move (c := c) p i .away
  have hspare := h.spare hi hx p
  rw [registered_move]
  simp only [hi, Tenure.entered_within, Tenure.entered_away, weight_none] at hmove
  omega

variable [DecidableEq κ]

theorem enter {k : κ} (hi : c.place i = .entering x) (hk : c.slots k = none) :
    Covered ({ c with slots := update c.slots k (some x) }.move i (.within x)) := by
  intro p
  have hmove := carried_move (c := { c with slots := update c.slots k (some x) }) p i (.within x)
  have hupdate := registered_update (c := c) p k (some x)
  have hcovered := h p
  rw [carried_update] at hmove
  rw [registered_move]
  simp only [hi, hk, Tenure.entered_entering, Tenure.entered_within, weight_none,
    weight_some] at hmove hupdate
  omega

theorem remove {k : κ} {y : ℕ} (hi : c.place i = .within x) (hk : c.slots k = some y)
    (ht : c.tag y = c.tag x) :
    Covered ({ c with slots := update c.slots k none }.move i .away) := by
  intro p
  have hmove := carried_move (c := { c with slots := update c.slots k none }) p i .away
  have hupdate := registered_update (c := c) p k none
  have hcovered := h p
  rw [carried_update] at hmove
  rw [registered_move]
  simp only [hi, hk, ht, Tenure.entered_within, Tenure.entered_away, weight_none,
    weight_some] at hmove hupdate
  omega

theorem step {e : Event ι κ} (hc : Inv c) (he : ∀ i x, e = .desert i x → c.Untagged x)
    (hs : Step c e d) : Covered d := by
  cases hs with
  | stay => exact h
  | take hi => exact h.take hi
  | retag v hi => exact h.retag hc hi v
  | enter hi hk => exact h.enter hi hk
  | full hi => exact h.arrive hi
  | remove hi hk ht => exact h.remove hi hk ht
  | miss hi hx => exact h.leave hi hx
  | desert hi => exact h.leave hi (he _ _ rfl)
  | evict => exact h.empty _

end Threads

/-- There are threads for all registered items. -/
theorem occupied_le :
    (Finset.univ.filter fun k => c.slots k ≠ none).card ≤
      (Finset.univ.filter fun i => (c.place i).entered ≠ none).card := by
  have hweight : ∀ o : Option ℕ, c.weight (fun _ => true) o = if o ≠ none then 1 else 0 := by
    intro o
    cases o <;> simp
  have hcovered := h fun _ => true
  simp only [registered, carried, tally, hweight] at hcovered
  rwa [Finset.card_filter, Finset.card_filter]

/-- With a slot for each thread, one is free for a thread that has yet to enter its item. -/
theorem exists_free (hcard : Fintype.card ι ≤ Fintype.card κ) (hi : c.place i = .entering x) :
    ∃ k, c.slots k = none := by
  by_contra hfull
  push Not at hfull
  have hslots : (Finset.univ.filter fun k => c.slots k ≠ none) = Finset.univ :=
    Finset.filter_true_of_mem fun k _ => hfull k
  have hthreads : (Finset.univ.filter fun i => (c.place i).entered ≠ none).card <
      Fintype.card ι := by
    apply Finset.card_lt_univ_of_notMem (x := i)
    simp [hi]
  have hle := h.occupied_le
  rw [hslots, Finset.card_univ] at hle
  omega

end Covered

/-! ### Removals of the own item -/

/-- The items of all threads that have entered one are registered. -/
def Present (c : Registry ι κ T) : Prop := ∀ i x, c.place i = .within x → ∃ k, c.slots k = some x

/-- Items are taken out only by the removals of their own threads. -/
def Proper (c : Registry ι κ T) : Event ι κ → Prop
  | .remove _ x k => c.slots k = some x
  | .desert .. | .evict _ => False
  | _ => True

theorem Present.step [DecidableEq ι] [DecidableEq κ] (h : Present c) (hc : Inv c)
    (hv : Covered c) (hcard : Fintype.card ι ≤ Fintype.card κ) {e : Event ι κ} (he : Proper c e)
    (hs : Step c e d) : Present d := by
  intro j y hj
  cases hs with
  | stay => exact h j y hj
  | take hi =>
    simp only [move, update_apply] at hj
    split_ifs at hj
    exact h j y hj
  | retag => exact h j y hj
  | @enter i x k hi hk =>
    simp only [move, update_apply] at hj ⊢
    split_ifs at hj
    · cases hj
      exact ⟨k, if_pos rfl⟩
    · obtain ⟨k', hk'⟩ := h j y hj
      refine ⟨k', (if_neg ?_).trans hk'⟩
      rintro rfl
      rw [hk] at hk'
      cases hk'
  | full hi hk =>
    obtain ⟨k, hfree⟩ := hv.exists_free hcard hi
    exact absurd hfree (hk k)
  | @remove i x _ k hi =>
    have hown : c.slots k = some x := he
    simp only [move, update_apply] at hj ⊢
    split_ifs at hj with hji
    obtain ⟨k', hk'⟩ := h j y hj
    refine ⟨k', (if_neg ?_).trans hk'⟩
    rintro rfl
    rw [hown] at hk'
    cases hk'
    exact hji (hc.sole j i y (by rw [hj]; rfl) (by rw [hi]; rfl))
  | miss hi ht =>
    obtain ⟨k, hk⟩ := h _ _ hi
    exact absurd rfl (ht k _ hk)
  | desert => exact he.elim
  | evict => exact he.elim

end Registry

end IstKvs.Systems
