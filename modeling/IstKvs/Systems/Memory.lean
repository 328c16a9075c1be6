import Mathlib.Data.List.Nodup
import Mathlib.Data.List.Perm.Subperm
import Mathlib.Logic.Function.Basic

/-! Dynamic memory with explicit allocation, programs over it, and rules for their
pre- and postconditions. A condition is the list of the cells that a program
needs; what lies beside them is a frame that no rule mentions.

Every allocation has an address of its own, so a program that uses memory after
it was freed uses an address with nothing at it. -/

namespace IstKvs.Systems

abbrev Addr := ℕ

/-- The cells in use, and the first address never handed out. -/
structure Heap (A : Type) where
  cell : Addr → Option A
  top : Addr
  fresh : ∀ a, top ≤ a → cell a = none

/-- What ends a program: the use of an address with nothing at it or with something
else, a loop that comes back to its cells, or an error of the program itself. -/
inductive Trap (E : Type)
  | invalid (a : Addr)
  | endless
  | program (e : E)
  deriving DecidableEq

abbrev Mem (E A B : Type) := StateT (Heap A) (Except (Trap E)) B

namespace Heap

variable {A : Type}

def empty : Heap A := ⟨fun _ => none, 0, fun _ _ => rfl⟩

def push (h : Heap A) (x : A) : Heap A where
  cell := Function.update h.cell h.top (some x)
  top := h.top + 1
  fresh a ha := by
    rw [Function.update_of_ne (Nat.ne_of_gt ha)]
    exact h.fresh a (Nat.le_of_succ_le ha)

theorem lt_top {h : Heap A} {a : Addr} {x : A} (ha : h.cell a = some x) : a < h.top := by
  by_contra hle
  rw [h.fresh a (Nat.le_of_not_lt hle)] at ha
  cases ha

/-- Another content, or none, at an address in use. -/
def put (h : Heap A) (a : Addr) (ha : (h.cell a).isSome) (x : Option A) : Heap A where
  cell := Function.update h.cell a x
  top := h.top
  fresh c hc := by
    obtain ⟨y, hy⟩ := Option.isSome_iff_exists.mp ha
    have hlt := lt_top hy
    rw [Function.update_of_ne (Nat.ne_of_gt (Nat.lt_of_lt_of_le hlt hc))]
    exact h.fresh c hc

end Heap

section Programs
variable {E A : Type}

def load (a : Addr) : Mem E A A := fun h =>
  match h.cell a with
  | some x => .ok (x, h)
  | none => .error (.invalid a)

def store (a : Addr) (x : A) : Mem E A Unit := fun h =>
  if ha : (h.cell a).isSome then .ok ((), h.put a ha (some x)) else .error (.invalid a)

def free (a : Addr) : Mem E A Unit := fun h =>
  if ha : (h.cell a).isSome then .ok ((), h.put a ha none) else .error (.invalid a)

def malloc (x : A) : Mem E A Addr := fun h => .ok (h.top, h.push x)

/-- No list in memory has more cells than were handed out. -/
def handedOut : Mem E A ℕ := fun h => .ok (h.top, h)

def fail (e : E) {B : Type} : Mem E A B := fun _ => .error (.program e)

def trap (t : Trap E) {B : Type} : Mem E A B := fun _ => .error t

end Programs

/-! ### Cells -/

/-- Exactly these cells are in use, each at an address of its own. -/
structure Holds {A : Type} (h : Heap A) (cells : List (Addr × A)) : Prop where
  nodup : (cells.map Prod.fst).Nodup
  cell : ∀ a x, h.cell a = some x ↔ (a, x) ∈ cells

namespace Holds

variable {A : Type} {h : Heap A} {cells P : List (Addr × A)} {a : Addr} {x : A}

theorem empty : Holds (Heap.empty : Heap A) [] := ⟨List.nodup_nil, by simp [Heap.empty]⟩

theorem perm (hh : Holds h cells) (hp : cells.Perm P) : Holds h P where
  nodup := (hp.map Prod.fst).nodup_iff.mp hh.nodup
  cell a x := (hh.cell a x).trans hp.mem_iff

theorem read (hh : Holds h cells) (hm : (a, x) ∈ cells) : h.cell a = some x :=
  (hh.cell a x).mpr hm

/-- The cells of a heap are at most as many as the addresses handed out. -/
theorem length_le (hh : Holds h cells) : cells.length ≤ h.top := by
  have hsub : (cells.map Prod.fst).Subperm (List.range h.top) := by
    refine hh.nodup.subperm fun a ha => ?_
    obtain ⟨⟨c, x⟩, hm, rfl⟩ := List.mem_map.mp ha
    exact List.mem_range.mpr (Heap.lt_top (hh.read hm))
  simpa using hsub.length_le

theorem push (hh : Holds h cells) (x : A) : Holds (h.push x) ((h.top, x) :: cells) where
  nodup := by
    refine List.nodup_cons.mpr ⟨fun hm => ?_, hh.nodup⟩
    obtain ⟨⟨c, y⟩, hm, hc⟩ := List.mem_map.mp hm
    exact Nat.ne_of_lt (Heap.lt_top (hh.read hm)) hc
  cell a y := by
    by_cases ha : a = h.top
    · subst ha
      have hnone : (h.top, y) ∉ cells := fun hm => Nat.lt_irrefl _ (Heap.lt_top (hh.read hm))
      simp [Heap.push, hnone, eq_comm]
    · simp [Heap.push, ha, hh.cell]

section Cons
variable (hh : Holds h ((a, x) :: cells))
include hh

theorem isSome : (h.cell a).isSome := by
  rw [hh.read List.mem_cons_self]
  rfl

theorem not_mem (y : A) : (a, y) ∉ cells := fun hm =>
  (List.nodup_cons.mp hh.nodup).1 (List.mem_map.mpr ⟨(a, y), hm, rfl⟩)

theorem put (y : A) : Holds (h.put a hh.isSome (some y)) ((a, y) :: cells) where
  nodup := hh.nodup
  cell c z := by
    by_cases hc : c = a
    · subst hc
      simp [Heap.put, hh.not_mem z, eq_comm]
    · simp [Heap.put, hc, hh.cell]

theorem drop : Holds (h.put a hh.isSome none) cells where
  nodup := (List.nodup_cons.mp hh.nodup).2
  cell c z := by
    by_cases hc : c = a
    · subst hc
      simp [Heap.put, hh.not_mem z]
    · simp [Heap.put, hc, hh.cell]

end Cons

end Holds

/-! ### Conditions -/

section Conditions
variable {E A B C : Type}

/-- On memory with the cells `P`, whatever lies beside them, the program returns and
turns them into cells that the postcondition allows with what it returns. -/
def Does (P : List (Addr × A)) (m : Mem E A B) (Q : B → List (Addr × A) → Prop) : Prop :=
  ∀ h F, Holds h (P ++ F) → ∃ b P' h', m h = .ok (b, h') ∧ Q b P' ∧ Holds h' (P' ++ F)

/-- The program returns a value and leaves its cells as they are. -/
def Reads (P : List (Addr × A)) (m : Mem E A B) (b : B) : Prop :=
  Does P m fun b' P' => b' = b ∧ P' = P

/-- The program ends with an error of its own. -/
def Fails (P : List (Addr × A)) (m : Mem E A B) (e : E) : Prop :=
  ∀ h F, Holds h (P ++ F) → m h = .error (.program e)

variable {P P' R : List (Addr × A)} {m : Mem E A B} {Q Q' : B → List (Addr × A) → Prop}
  {k : B → Mem E A C} {a : Addr} {x : A} {b : B} {c : C} {e : E}

namespace Does

theorem pure (hq : Q b P) : Does P (Pure.pure b : Mem E A B) Q :=
  fun h _ hh => ⟨b, P, h, rfl, hq, hh⟩

theorem bind {Q₂ : C → List (Addr × A) → Prop} (hm : Does P m Q)
    (hk : ∀ b P', Q b P' → Does P' (k b) Q₂) : Does P (m >>= k) Q₂ := by
  intro h F hh
  obtain ⟨b, P₁, h₁, hr, hq, hh₁⟩ := hm h F hh
  obtain ⟨c, P₂, h₂, hr₂, hq₂, hh₂⟩ := hk b P₁ hq h₁ F hh₁
  refine ⟨c, P₂, h₂, ?_, hq₂, hh₂⟩
  change (m h >>= fun r => k r.1 r.2) = _
  rw [hr]
  exact hr₂

/-- Weaker postconditions, up to the order of the cells. -/
theorem imp (hm : Does P m Q) (hq : ∀ b P', Q b P' → ∃ P'', P'.Perm P'' ∧ Q' b P'') :
    Does P m Q' := by
  intro h F hh
  obtain ⟨b, P₁, h₁, hr, hq₁, hh₁⟩ := hm h F hh
  obtain ⟨P₂, hp, hq₂⟩ := hq b P₁ hq₁
  exact ⟨b, P₂, h₁, hr, hq₂, hh₁.perm (hp.append_right F)⟩

theorem perm (hm : Does P' m Q) (hp : P.Perm P') : Does P m Q :=
  fun h F hh => hm h F (hh.perm (hp.append_right F))

/-- Cells that a program does not need stay as they are. -/
theorem frame (hm : Does P m Q) (G : List (Addr × A)) :
    Does (P ++ G) m fun b P' => ∃ P₁, P' = P₁ ++ G ∧ Q b P₁ := by
  intro h F hh
  rw [List.append_assoc] at hh
  obtain ⟨b, P₁, h₁, hr, hq, hh₁⟩ := hm h (G ++ F) hh
  refine ⟨b, P₁ ++ G, h₁, hr, ⟨P₁, rfl, hq⟩, ?_⟩
  rwa [List.append_assoc]

theorem store (hp : P.Perm ((a, x) :: R)) (y : A) :
    Does P (Systems.store a y : Mem E A Unit) fun _ P' => P' = (a, y) :: R := by
  intro h F hh
  have hh' : Holds h ((a, x) :: (R ++ F)) := hh.perm (hp.append_right F)
  exact ⟨(), _, _, dif_pos hh'.isSome, rfl, hh'.put y⟩

theorem free (hp : P.Perm ((a, x) :: R)) :
    Does P (Systems.free a : Mem E A Unit) fun _ P' => P' = R := by
  intro h F hh
  have hh' : Holds h ((a, x) :: (R ++ F)) := hh.perm (hp.append_right F)
  exact ⟨(), _, _, dif_pos hh'.isSome, rfl, hh'.drop⟩

theorem malloc (x : A) :
    Does P (Systems.malloc x : Mem E A Addr) fun a P' => P' = (a, x) :: P :=
  fun h _ hh => ⟨h.top, _, h.push x, rfl, rfl, hh.push x⟩

theorem fails (hm : Does P m Q) (hk : ∀ b P', Q b P' → Fails P' (k b) e) :
    Fails P (m >>= k) e := by
  intro h F hh
  obtain ⟨b, P₁, h₁, hr, hq, hh₁⟩ := hm h F hh
  change (m h >>= fun r => k r.1 r.2) = _
  rw [hr]
  exact hk b P₁ hq h₁ F hh₁

/-- A bound on the steps of a loop that is at least the number of cells. -/
theorem handedOut_bound :
    Does P (Systems.handedOut : Mem E A ℕ) fun n P' => P' = P ∧ P.length ≤ n := by
  intro h F hh
  refine ⟨h.top, P, h, rfl, ⟨rfl, ?_⟩, hh⟩
  have hle := hh.length_le
  rw [List.length_append] at hle
  omega

theorem handedOut {k : ℕ → Mem E A B} (hk : ∀ fuel, P.length ≤ fuel → Does P (k fuel) Q) :
    Does P (Systems.handedOut >>= k) Q :=
  handedOut_bound.bind fun fuel _ ⟨hp, hfuel⟩ => hp ▸ hk fuel hfuel

theorem handedOut_fails {k : ℕ → Mem E A B} (hk : ∀ fuel, P.length ≤ fuel → Fails P (k fuel) e) :
    Fails P (Systems.handedOut >>= k) e :=
  handedOut_bound.fails fun fuel _ ⟨hp, hfuel⟩ => hp ▸ hk fuel hfuel

end Does

namespace Reads

theorem pure : Reads P (Pure.pure b : Mem E A B) b := Does.pure ⟨rfl, rfl⟩

theorem load (hm : (a, x) ∈ P) : Reads P (Systems.load a : Mem E A A) x := by
  intro h F hh
  refine ⟨x, P, h, ?_, ⟨rfl, rfl⟩, hh⟩
  simp only [Systems.load, hh.read (List.mem_append_left F hm)]

theorem does {Q : C → List (Addr × A) → Prop} (hm : Reads P m b) (hk : Does P (k b) Q) :
    Does P (m >>= k) Q :=
  Does.bind hm fun _ _ ⟨hb, hp⟩ => hb ▸ hp ▸ hk

theorem bind (hm : Reads P m b) (hk : Reads P (k b) c) : Reads P (m >>= k) c := hm.does hk

theorem fails (hm : Reads P m b) (hk : Fails P (k b) e) : Fails P (m >>= k) e :=
  Does.fails hm fun _ _ ⟨hb, hp⟩ => hb ▸ hp ▸ hk

end Reads

theorem Fails.bind (hm : Fails P m e) (k : B → Mem E A C) : Fails P (m >>= k) e := by
  intro h F hh
  change (m h >>= fun r => k r.1 r.2) = _
  rw [hm h F hh]
  rfl

theorem Fails.frame (hm : Fails P m e) (G : List (Addr × A)) : Fails (P ++ G) m e := by
  intro h F hh
  rw [List.append_assoc] at hh
  exact hm h (G ++ F) hh

theorem Fails.perm (hm : Fails P' m e) (hp : P.Perm P') : Fails P m e :=
  fun h F hh => hm h F (hh.perm (hp.append_right F))

theorem Fails.fail : Fails P (Systems.fail e : Mem E A B) e := fun _ _ _ => rfl

end Conditions

/-! ### Refinement -/

section Refinement
variable {E A B C S ι : Type} {R : S → List (Addr × A) → Prop}

/-- On memory that represents an abstract state the program does what the abstract
one does to that state, errors included. -/
def Refines (R : S → List (Addr × A) → Prop) (m : Mem E A B) (f : StateT S (Except E) B) : Prop :=
  ∀ s P, R s P → match f s with
    | .ok (b, s') => Does P m fun b' P' => b' = b ∧ R s' P'
    | .error e => Fails P m e

namespace Refines

theorem of_ok {m : Mem E A B} {f : StateT S (Except E) B} (hm : Refines R m f) {s s' : S}
    {P : List (Addr × A)} {b : B} (hr : R s P) (hf : f s = .ok (b, s')) :
    Does P m fun b' P' => b' = b ∧ R s' P' := by
  have h := hm s P hr
  rwa [hf] at h

theorem of_error {m : Mem E A B} {f : StateT S (Except E) B} (hm : Refines R m f) {s : S}
    {P : List (Addr × A)} {e : E} (hr : R s P) (hf : f s = .error e) : Fails P m e := by
  have h := hm s P hr
  rwa [hf] at h

theorem pure (b : B) : Refines R (Pure.pure b : Mem E A B) (Pure.pure b) :=
  fun _ _ hr => Does.pure ⟨rfl, hr⟩

theorem bind {m : Mem E A B} {f : StateT S (Except E) B} {k : B → Mem E A C}
    {g : B → StateT S (Except E) C} (hm : Refines R m f) (hk : ∀ b, Refines R (k b) (g b)) :
    Refines R (m >>= k) (f >>= g) := by
  intro s P hr
  change match (f s >>= fun r => g r.1 r.2) with | .ok (c, s') => _ | .error e => _
  cases hf : f s with
  | error e => exact (hm.of_error hr hf).bind k
  | ok r =>
    have hdo := hm.of_ok hr hf
    change match g r.1 r.2 with | .ok (c, s') => _ | .error e => _
    cases hg : g r.1 r.2 with
    | ok r₂ => exact hdo.bind fun b P' ⟨hb, hr'⟩ => hb ▸ (hk r.1).of_ok hr' hg
    | error e => exact hdo.fails fun b P' ⟨hb, hr'⟩ => hb ▸ (hk r.1).of_error hr' hg

/-- One program after another for every item of a list. -/
theorem mapM {m : ι → Mem E A B} {f : ι → StateT S (Except E) B} (hm : ∀ i, Refines R (m i) (f i))
    (is : List ι) : Refines R (is.mapM m) (is.mapM f) := by
  induction is with
  | nil => exact pure []
  | cons i is ih =>
    rw [List.mapM_cons, List.mapM_cons]
    exact (hm i).bind fun b => ih.bind fun bs => pure (b :: bs)

end Refines

end Refinement

end IstKvs.Systems
