import IstKvs.Systems.Locks
import IstKvs.Systems.Run

/-! Two-phase locking over a table of independently locked cells. A call first
acquires all its locks, then accesses cells one at a time, then releases. Any
number of threads each run a list of commands; every interleaving in which all
calls finish has the outputs and the final table of a serial execution that
keeps the order of each thread. The serial order is the order in which calls
acquire their last lock. -/

namespace IstKvs.Systems.TwoPhase

open Function

variable {τ β S L κ : Type*}

/-- One access to a cell: the new cell and the new local state of the call. An
access in read mode leaves the cell as it is. -/
structure Access (β S L : Type*) where
  cell : β
  mode : Mode
  exec : S → L → S × L
  readOnly : mode = .read → ∀ s l, (exec s l).1 = s

/-- A call whose locks cover its accesses: every accessed cell is locked, and in
write mode when the access may change it. `finish` is what the call does to its
local state after the last access. -/
structure Call (β S L : Type*) where
  acquires : List (β × Mode)
  accesses : List (Access β S L)
  releases : List β
  start : L
  finish : L → L
  covered : ∀ a ∈ accesses, ∃ m, (a.cell, m) ∈ acquires ∧ (a.mode = .write → m = .write)

/-! ### Accesses in isolation -/

section Access
variable [DecidableEq β]

def Access.apply (a : Access β S L) (x : (β → S) × L) : (β → S) × L :=
  (update x.1 a.cell (a.exec (x.1 a.cell) x.2).1, (a.exec (x.1 a.cell) x.2).2)

def runAll (as : List (Access β S L)) (x : (β → S) × L) : (β → S) × L :=
  as.foldl (fun x a => a.apply x) x

@[simp] theorem runAll_nil (x : (β → S) × L) : runAll [] x = x := rfl

@[simp] theorem runAll_cons (a : Access β S L) (as : List (Access β S L)) (x : (β → S) × L) :
    runAll (a :: as) x = runAll as (a.apply x) := rfl

/-- The result of a list of accesses depends on the accessed cells only. -/
theorem runAll_congr (as : List (Access β S L)) (x y : β → S) (l : L)
    (h : ∀ a ∈ as, x a.cell = y a.cell) :
    (runAll as (x, l)).2 = (runAll as (y, l)).2 ∧
      ∀ b, x b = y b → (runAll as (x, l)).1 b = (runAll as (y, l)).1 b := by
  induction as generalizing x y l with
  | nil => exact ⟨rfl, fun _ hb => hb⟩
  | cons a as ih =>
    have ha : x a.cell = y a.cell := h a List.mem_cons_self
    have hupd : ∀ b, x b = y b →
        (a.apply (x, l)).1 b = (a.apply (y, l)).1 b := by
      intro b hb
      by_cases hc : b = a.cell
      · subst hc; simp [Access.apply, hb]
      · simp [Access.apply, hc, hb]
    have hy : a.apply (y, l) = ((a.apply (y, l)).1, (a.apply (x, l)).2) := by
      simp [Access.apply, ha]
    have ih' := ih (a.apply (x, l)).1 (a.apply (y, l)).1 (a.apply (x, l)).2
      (fun c hc => hupd _ (h c (List.mem_cons_of_mem _ hc)))
    rw [runAll_cons, runAll_cons, hy]
    exact ⟨ih'.1, fun b hb => ih'.2 b (hupd b hb)⟩

/-- A cell that is accessed in read mode only keeps its contents. -/
theorem runAll_unchanged (as : List (Access β S L)) (x : (β → S) × L) (b : β)
    (h : ∀ a ∈ as, a.cell = b → a.mode = .read) : (runAll as x).1 b = x.1 b := by
  induction as generalizing x with
  | nil => rfl
  | cons a as ih =>
    rw [runAll_cons, ih _ (fun c hc => h c (List.mem_cons_of_mem _ hc))]
    by_cases hb : a.cell = b
    · subst hb
      simpa [Access.apply] using a.readOnly (h a List.mem_cons_self rfl) _ _
    · simp [Access.apply, Ne.symm hb]

end Access

/-! ### Lists tagged with a thread -/

section OfThread
variable [DecidableEq τ] {A : Type*}

/-- The entries of one thread, in order. -/
def ofThread (t : τ) (xs : List (τ × A)) : List A :=
  xs.filterMap fun x => if x.1 = t then some x.2 else none

@[simp] theorem ofThread_nil (t : τ) : ofThread t ([] : List (τ × A)) = [] := rfl

theorem ofThread_append (t : τ) (xs ys : List (τ × A)) :
    ofThread t (xs ++ ys) = ofThread t xs ++ ofThread t ys :=
  List.filterMap_append

theorem ofThread_snoc_self (t : τ) (xs : List (τ × A)) (a : A) :
    ofThread t (xs ++ [(t, a)]) = ofThread t xs ++ [a] := by
  simp [ofThread]

theorem ofThread_snoc_of_ne {t u : τ} (h : u ≠ t) (xs : List (τ × A)) (a : A) :
    ofThread u (xs ++ [(t, a)]) = ofThread u xs := by
  simp [ofThread, Ne.symm h]

theorem ofThread_map {B : Type*} (t : τ) (xs : List (τ × A)) (f : A → B) :
    ofThread t (xs.map fun x => (x.1, f x.2)) = (ofThread t xs).map f := by
  induction xs with
  | nil => rfl
  | cons x xs ih =>
    by_cases hx : x.1 = t
    · simpa [ofThread, hx] using ih
    · simpa [ofThread, hx] using ih

end OfThread

/-! ### The system -/

inductive Phase (β S L κ : Type*)
  | idle
  | acquiring (c : κ) (call : Call β S L) (todo : List (β × Mode))
  | working (call : Call β S L) (todo : List (Access β S L)) (l : L)
  | releasing (todo : List β) (l : L)

structure State (τ β S L κ : Type*) where
  table : β → S
  held : Holders τ β
  pending : τ → List κ
  phase : τ → Phase β S L κ
  outputs : τ → List L

def initial (table : β → S) (P : τ → List κ) : State τ β S L κ where
  table := table
  held := fun _ _ => none
  pending := P
  phase := fun _ => .idle
  outputs := fun _ => []

section System
variable [DecidableEq τ] [DecidableEq β]

/-- One step of thread `t`. `plan` relates a command to the calls it may become. -/
inductive Step (plan : κ → Call β S L → Prop) (s : State τ β S L κ) (t : τ) :
    State τ β S L κ → Prop
  | begin {c : κ} {cs : List κ} {call : Call β S L} (hp : s.phase t = .idle)
      (hc : s.pending t = c :: cs) (hplan : plan c call) :
      Step plan s t { s with
        pending := update s.pending t cs
        phase := update s.phase t (.acquiring c call call.acquires) }
  | acquire {c : κ} {call : Call β S L} {b : β} {m : Mode} {todo : List (β × Mode)}
      (hp : s.phase t = .acquiring c call ((b, m) :: todo)) (hg : s.held.Grants b m) :
      Step plan s t { s with
        held := s.held.acquire t b m
        phase := update s.phase t (.acquiring c call todo) }
  | lockPoint {c : κ} {call : Call β S L} (hp : s.phase t = .acquiring c call []) :
      Step plan s t { s with
        phase := update s.phase t (.working call call.accesses call.start) }
  | access {call : Call β S L} {a : Access β S L} {todo : List (Access β S L)} {l : L}
      (hp : s.phase t = .working call (a :: todo) l) :
      Step plan s t { s with
        table := (a.apply (s.table, l)).1
        phase := update s.phase t (.working call todo (a.apply (s.table, l)).2) }
  | shrink {call : Call β S L} {l : L} (hp : s.phase t = .working call [] l) :
      Step plan s t { s with
        phase := update s.phase t (.releasing call.releases (call.finish l)) }
  | release {b : β} {todo : List β} {l : L} (hp : s.phase t = .releasing (b :: todo) l) :
      Step plan s t { s with
        held := s.held.release t b
        phase := update s.phase t (.releasing todo l) }
  | finish {l : L} (hp : s.phase t = .releasing [] l) :
      Step plan s t { s with
        phase := update s.phase t .idle
        outputs := update s.outputs t (s.outputs t ++ [l]) }

def serialStep (x : (β → S) × List (τ × L)) (o : τ × κ × Call β S L) :
    (β → S) × List (τ × L) :=
  ((runAll o.2.2.accesses (x.1, o.2.2.start)).1,
    x.2 ++ [(o.1, o.2.2.finish (runAll o.2.2.accesses (x.1, o.2.2.start)).2)])

/-- Calls executed one after another: the final table and the tagged outputs. -/
def serial (order : List (τ × κ × Call β S L)) (table : β → S) : (β → S) × List (τ × L) :=
  order.foldl serialStep (table, [])

omit [DecidableEq τ] in
theorem serial_snoc (order : List (τ × κ × Call β S L)) (o : τ × κ × Call β S L)
    (table : β → S) :
    serial (order ++ [o]) table = serialStep (serial order table) o := by
  simp [serial, List.foldl_append]

/-! ### The invariant -/

/-- The commands of `t` that are not yet past their lock point. -/
def unstarted (s : State τ β S L κ) (t : τ) : List κ :=
  match s.phase t with
  | .acquiring c _ _ => c :: s.pending t
  | _ => s.pending t

/-- The output that the call of `t` past its lock point is going to have. -/
def due (s : State τ β S L κ) (t : τ) : List L :=
  match s.phase t with
  | .working call todo l => [call.finish (runAll todo (s.table, l)).2]
  | .releasing _ l => [l]
  | _ => []

/-- A call of `t` past its lock point holds cell `b` in write mode. -/
def Writes (s : State τ β S L κ) (t : τ) (b : β) : Prop :=
  (∃ call todo l, s.phase t = .working call todo l) ∧ s.held t b = some .write

/-- The table as it will be once the calls past their lock point have done their
remaining accesses is the table of the serial execution. -/
structure Inv (plan : κ → Call β S L → Prop) (table : β → S) (P : τ → List κ)
    (s : State τ β S L κ) (order : List (τ × κ × Call β S L)) : Prop where
  planned : ∀ o ∈ order, plan o.2.1 o.2.2
  programs : ∀ t, (ofThread t order).map Prod.fst ++ unstarted s t = P t
  exclusive : s.held.Exclusive
  acquired : ∀ t c call todo, s.phase t = .acquiring c call todo → plan c call ∧
    ∃ done, call.acquires = done ++ todo ∧ ∀ x ∈ done, s.held t x.1 = some x.2
  locked : ∀ t call todo l, s.phase t = .working call todo l →
    (∀ x ∈ call.acquires, s.held t x.1 = some x.2) ∧ ∀ a ∈ todo, a ∈ call.accesses
  results : ∀ t, ofThread t (serial order table).2 = s.outputs t ++ due s t
  owned : ∀ t call todo l b, s.phase t = .working call todo l → s.held t b = some .write →
    (serial order table).1 b = (runAll todo (s.table, l)).1 b
  free : ∀ b, (∀ t, ¬ Writes s t b) → (serial order table).1 b = s.table b

theorem inv_initial (plan : κ → Call β S L → Prop) (table : β → S) (P : τ → List κ) :
    Inv plan table P (initial table P) [] where
  planned := by simp
  programs := by simp [unstarted, initial]
  exclusive := Holders.exclusive_none
  acquired := by simp [initial]
  locked := by simp [initial]
  results := by simp [initial, due, serial]
  owned := by simp [initial]
  free := by simp [initial, serial]

variable {plan : κ → Call β S L → Prop} {table : β → S} {P : τ → List κ}
  {s : State τ β S L κ} {order : List (τ × κ × Call β S L)} {t : τ}

namespace Inv

/-- A working call holds every cell it still has to access, in write mode where it writes. -/
theorem holds (h : Inv plan table P s order) {call : Call β S L} {todo : List (Access β S L)}
    {l : L} (hp : s.phase t = .working call todo l) {a : Access β S L} (ha : a ∈ todo) :
    ∃ m, s.held t a.cell = some m ∧ (a.mode = .write → m = .write) := by
  obtain ⟨hheld, hsub⟩ := h.locked t call todo l hp
  obtain ⟨m, hm, hw⟩ := call.covered a (hsub a ha)
  exact ⟨m, hheld _ hm, hw⟩

/-- No other thread holds a cell that a working call still has to write. -/
theorem others (h : Inv plan table P s order) {call : Call β S L} {todo : List (Access β S L)}
    {l : L} (hp : s.phase t = .working call todo l) {a : Access β S L} (ha : a ∈ todo)
    (hw : a.mode = .write) {u : τ} (hu : u ≠ t) : s.held u a.cell = none := by
  obtain ⟨m, hm, hmw⟩ := h.holds hp ha
  rw [hmw hw] at hm
  exact h.exclusive t u _ hu.symm hm

/-- A step that leaves the table and the order alone: only thread `t` is to be checked. -/
theorem frame (h : Inv plan table P s order) {s' : State τ β S L κ}
    (htable : s'.table = s.table)
    (hrest : ∀ u, u ≠ t → s'.phase u = s.phase u ∧ s'.pending u = s.pending u ∧
      s'.outputs u = s.outputs u ∧ s'.held u = s.held u)
    (hprog : unstarted s' t = unstarted s t)
    (hexcl : s'.held.Exclusive)
    (hacq : ∀ c call todo, s'.phase t = .acquiring c call todo → plan c call ∧
      ∃ done, call.acquires = done ++ todo ∧ ∀ x ∈ done, s'.held t x.1 = some x.2)
    (hidle : ∀ call todo l, s'.phase t ≠ .working call todo l)
    (hres : s'.outputs t ++ due s' t = s.outputs t ++ due s t)
    (hfree : ∀ b, Writes s t b → (serial order table).1 b = s.table b) :
    Inv plan table P s' order where
  planned := h.planned
  programs u := by
    by_cases hu : u = t
    · rw [hu, hprog]; exact h.programs t
    · obtain ⟨hph, hpe, -, -⟩ := hrest u hu
      have := h.programs u
      simpa only [unstarted, hph, hpe] using this
  exclusive := hexcl
  acquired u c call todo hp := by
    by_cases hu : u = t
    · subst hu; exact hacq c call todo hp
    · obtain ⟨hph, -, -, hhe⟩ := hrest u hu
      rw [hhe]
      exact h.acquired u c call todo (hph ▸ hp)
  locked u call todo l hp := by
    by_cases hu : u = t
    · subst hu; exact absurd hp (hidle call todo l)
    · obtain ⟨hph, -, -, hhe⟩ := hrest u hu
      rw [hhe]
      exact h.locked u call todo l (hph ▸ hp)
  results u := by
    by_cases hu : u = t
    · rw [hu, hres]; exact h.results t
    · obtain ⟨hph, -, hou, -⟩ := hrest u hu
      have := h.results u
      simpa only [due, hph, hou, htable] using this
  owned u call todo l b hp hb := by
    by_cases hu : u = t
    · subst hu; exact absurd hp (hidle call todo l)
    · obtain ⟨hph, -, -, hhe⟩ := hrest u hu
      rw [htable]
      exact h.owned u call todo l b (hph ▸ hp) (hhe ▸ hb)
  free b hb := by
    rw [htable]
    by_cases ht : Writes s t b
    · exact hfree b ht
    · refine h.free b fun u hw => ?_
      by_cases hu : u = t
      · subst hu; exact ht hw
      · obtain ⟨hph, -, -, hhe⟩ := hrest u hu
        exact hb u ⟨by rw [hph]; exact hw.1, by rw [hhe]; exact hw.2⟩

omit [DecidableEq τ] [DecidableEq β] in
theorem not_writes {b : β} (hp : ∀ call todo l, s.phase t ≠ .working call todo l) :
    ¬ Writes s t b := by
  rintro ⟨⟨call, todo, l, h⟩, -⟩
  exact hp call todo l h

theorem step_begin (h : Inv plan table P s order) {c : κ} {cs : List κ} {call : Call β S L}
    (hp : s.phase t = .idle) (hc : s.pending t = c :: cs) (hplan : plan c call) :
    Inv plan table P { s with
      pending := update s.pending t cs
      phase := update s.phase t (.acquiring c call call.acquires) } order := by
  refine h.frame (t := t) rfl (fun u hu => by simp [hu]) ?_ h.exclusive ?_ (by simp) ?_ ?_
  · simp [unstarted, hp, hc]
  · intro c' call' todo' he
    simp only [update_self, Phase.acquiring.injEq] at he
    obtain ⟨rfl, rfl, rfl⟩ := he
    exact ⟨hplan, [], rfl, by simp⟩
  · simp [due, hp]
  · intro b hw
    exact absurd hw (not_writes (by simp [hp]))

theorem step_acquire (h : Inv plan table P s order) {c : κ} {call : Call β S L} {b : β}
    {m : Mode} {todo : List (β × Mode)} (hp : s.phase t = .acquiring c call ((b, m) :: todo))
    (hg : s.held.Grants b m) :
    Inv plan table P { s with
      held := s.held.acquire t b m
      phase := update s.phase t (.acquiring c call todo) } order := by
  obtain ⟨hplan, done, hacq, hdone⟩ := h.acquired t c call _ hp
  refine h.frame (t := t) rfl (fun u hu => by simp [hu, Holders.acquire_of_ne hu]) ?_
    (h.exclusive.acquire t hg) ?_ (by simp) ?_ ?_
  · simp [unstarted, hp]
  · intro c' call' todo' he
    simp only [update_self, Phase.acquiring.injEq] at he
    obtain ⟨rfl, rfl, rfl⟩ := he
    refine ⟨hplan, done ++ [(b, m)], by simp [hacq], fun x hx => ?_⟩
    by_cases hb : x.1 = b
    · -- a lock held before is held in the mode just granted
      have hm : x.2 = m := by
        rcases List.mem_append.mp hx with hx | hx
        · exact Holders.mode_eq_of_grants hg (hb ▸ hdone x hx)
        · simp only [List.mem_singleton] at hx
          rw [hx]
      simp only [hb, hm, Holders.acquire_self]
    · rcases List.mem_append.mp hx with hx | hx
      · simpa only [Holders.acquire_other hb] using hdone x hx
      · simp only [List.mem_singleton] at hx
        exact absurd (by rw [hx]) hb
  · simp [due, hp]
  · intro b' hw
    exact absurd hw (not_writes (by simp [hp]))

theorem step_shrink (h : Inv plan table P s order) {call : Call β S L} {l : L}
    (hp : s.phase t = .working call [] l) :
    Inv plan table P { s with
      phase := update s.phase t (.releasing call.releases (call.finish l)) } order := by
  refine h.frame (t := t) rfl (fun u hu => by simp [hu]) ?_ h.exclusive (by simp) (by simp) ?_ ?_
  · simp [unstarted, hp]
  · simp [due, hp]
  · intro b hw
    simpa using h.owned t call [] l b hp hw.2

theorem step_release (h : Inv plan table P s order) {b : β} {todo : List β} {l : L}
    (hp : s.phase t = .releasing (b :: todo) l) :
    Inv plan table P { s with
      held := s.held.release t b
      phase := update s.phase t (.releasing todo l) } order := by
  refine h.frame (t := t) rfl (fun u hu => by simp [hu, Holders.release_of_ne hu]) ?_
    (h.exclusive.release t b) (by simp) (by simp) ?_ ?_
  · simp [unstarted, hp]
  · simp [due, hp]
  · intro b' hw
    exact absurd hw (not_writes (by simp [hp]))

theorem step_finish (h : Inv plan table P s order) {l : L} (hp : s.phase t = .releasing [] l) :
    Inv plan table P { s with
      phase := update s.phase t .idle
      outputs := update s.outputs t (s.outputs t ++ [l]) } order := by
  refine h.frame (t := t) rfl (fun u hu => by simp [hu]) ?_ h.exclusive (by simp) (by simp) ?_ ?_
  · simp [unstarted, hp]
  · simp [due, hp]
  · intro b hw
    exact absurd hw (not_writes (by simp [hp]))

/-- A working thread accesses a cell: the others neither read nor write what changes. -/
theorem step_access (h : Inv plan table P s order) {call : Call β S L} {a : Access β S L}
    {todo : List (Access β S L)} {l : L} (hp : s.phase t = .working call (a :: todo) l) :
    Inv plan table P { s with
      table := (a.apply (s.table, l)).1
      phase := update s.phase t (.working call todo (a.apply (s.table, l)).2) } order := by
  have hkeep : ∀ u, u ≠ t → ∀ c, s.held u c ≠ none →
      (a.apply (s.table, l)).1 c = s.table c := by
    intro u hu c hc
    refine runAll_unchanged [a] (s.table, l) c fun a' ha' hcell => ?_
    obtain rfl := List.mem_singleton.mp ha'
    cases hm : a'.mode with
    | read => rfl
    | write => exact absurd (hcell ▸ h.others hp List.mem_cons_self hm hu) hc
  have hagree : ∀ u, u ≠ t → ∀ call' todo' l', s.phase u = .working call' todo' l' →
      ∀ c ∈ todo', (a.apply (s.table, l)).1 c.cell = s.table c.cell := by
    intro u hu call' todo' l' hpu c hc
    obtain ⟨m, hm, -⟩ := h.holds hpu hc
    exact hkeep u hu c.cell (by simp [hm])
  refine ⟨h.planned, ?_, h.exclusive, ?_, ?_, ?_, ?_, ?_⟩
  · intro u
    have := h.programs u
    by_cases hu : u = t
    · subst hu; simpa [unstarted, hp] using this
    · simpa [unstarted, hu] using this
  · intro u c' call' todo' hpu
    have hu : u ≠ t := by rintro rfl; simp at hpu
    exact h.acquired u c' call' todo' (by simpa [hu] using hpu)
  · intro u call' todo' l' hpu
    by_cases hu : u = t
    · subst hu
      simp only [update_self, Phase.working.injEq] at hpu
      obtain ⟨rfl, rfl, rfl⟩ := hpu
      obtain ⟨hheld, hsub⟩ := h.locked u call _ l hp
      exact ⟨hheld, fun c hc => hsub c (List.mem_cons_of_mem _ hc)⟩
    · exact h.locked u call' todo' l' (by simpa [hu] using hpu)
  · intro u
    rw [h.results u]
    by_cases hu : u = t
    · subst hu; simp [due, hp]
    · cases hpu : s.phase u with
      | working call' todo' l' =>
        have := (runAll_congr todo' _ _ l' (hagree u hu call' todo' l' hpu)).1
        simp [due, hu, hpu, this]
      | _ => simp [due, hu, hpu]
  · intro u call' todo' l' b hpu hb
    by_cases hu : u = t
    · subst hu
      simp only [update_self, Phase.working.injEq] at hpu
      obtain ⟨rfl, rfl, rfl⟩ := hpu
      rw [h.owned u call _ l b hp hb, runAll_cons]
    · have hpu' : s.phase u = .working call' todo' l' := by simpa [hu] using hpu
      have hw : s.held u b = some .write := hb
      rw [h.owned u call' todo' l' b hpu' hw]
      exact ((runAll_congr todo' _ _ l' (hagree u hu call' todo' l' hpu')).2 b
        (hkeep u hu b (by simp [hw]))).symm
  · intro b hb
    have hw : ∀ u, ¬ Writes s u b := by
      rintro u ⟨⟨call', todo', l', hpu⟩, hheld⟩
      by_cases hu : u = t
      · subst hu
        exact hb u ⟨⟨_, _, _, update_self ..⟩, hheld⟩
      · exact hb u ⟨⟨call', todo', l', by simpa [hu] using hpu⟩, hheld⟩
    rw [h.free b hw]
    refine (runAll_unchanged [a] (s.table, l) b fun a' ha' hcell => ?_).symm
    obtain rfl := List.mem_singleton.mp ha'
    cases hm : a'.mode with
    | read => rfl
    | write =>
      -- a write access holds its cell in write mode
      obtain ⟨m, hheld, hmw⟩ := h.holds hp (List.mem_cons_self (a := a'))
      rw [hmw hm] at hheld
      exact absurd ⟨⟨_, _, _, hp⟩, hcell ▸ hheld⟩ (hw t)

/-- The lock point: the call takes its place at the end of the serial order. -/
theorem step_lockPoint (h : Inv plan table P s order) {c : κ} {call : Call β S L}
    (hp : s.phase t = .acquiring c call []) :
    Inv plan table P { s with
      phase := update s.phase t (.working call call.accesses call.start) }
      (order ++ [(t, c, call)]) := by
  obtain ⟨hplan, done, hacq, hdone⟩ := h.acquired t c call [] hp
  rw [List.append_nil] at hacq
  have hheld : ∀ x ∈ call.acquires, s.held t x.1 = some x.2 := fun x hx => hdone x (hacq ▸ hx)
  -- no call past its lock point writes a cell that this call holds
  have hquiet : ∀ b, s.held t b ≠ none → (serial order table).1 b = s.table b := by
    intro b hb
    refine h.free b ?_
    rintro u ⟨⟨call', todo', l', hpu⟩, hw⟩
    have hu : u ≠ t := by rintro rfl; simp [hp] at hpu
    exact hb (h.exclusive u t b hu hw)
  have hcells : ∀ a ∈ call.accesses, (serial order table).1 a.cell = s.table a.cell := by
    intro a ha
    obtain ⟨m, hm, -⟩ := call.covered a ha
    exact hquiet a.cell (by simp [hheld _ hm])
  have hrun := runAll_congr call.accesses (serial order table).1 s.table call.start hcells
  have hother : ∀ b, s.held t b ≠ some .write →
      (runAll call.accesses ((serial order table).1, call.start)).1 b =
        (serial order table).1 b := by
    intro b hb
    refine runAll_unchanged _ _ b fun a ha hcell => ?_
    cases hm : a.mode with
    | read => rfl
    | write =>
      obtain ⟨m, hmem, hmw⟩ := call.covered a ha
      rw [hmw hm, hcell] at hmem
      exact absurd (hheld _ hmem) hb
  refine ⟨?_, ?_, h.exclusive, ?_, ?_, ?_, ?_, ?_⟩
  · intro o ho
    rcases List.mem_append.mp ho with ho | ho
    · exact h.planned o ho
    · rw [List.mem_singleton.mp ho]; exact hplan
  · intro u
    have := h.programs u
    by_cases hu : u = t
    · subst hu
      simpa [unstarted, hp, ofThread_snoc_self] using this
    · simpa [unstarted, hu, ofThread_snoc_of_ne hu] using this
  · intro u c' call' todo' hpu
    have hu : u ≠ t := by rintro rfl; simp at hpu
    exact h.acquired u c' call' todo' (by simpa [hu] using hpu)
  · intro u call' todo' l' hpu
    by_cases hu : u = t
    · subst hu
      simp only [update_self, Phase.working.injEq] at hpu
      obtain ⟨rfl, rfl, rfl⟩ := hpu
      exact ⟨hheld, fun a ha => ha⟩
    · exact h.locked u call' todo' l' (by simpa [hu] using hpu)
  · intro u
    rw [serial_snoc]
    by_cases hu : u = t
    · subst hu
      simp [serialStep, ofThread_snoc_self, h.results u, due, hp, hrun.1]
    · have := h.results u
      simpa [serialStep, ofThread_snoc_of_ne hu, due, hu] using this
  · intro u call' todo' l' b hpu hb
    rw [serial_snoc]
    by_cases hu : u = t
    · subst hu
      simp only [update_self, Phase.working.injEq] at hpu
      obtain ⟨rfl, rfl, rfl⟩ := hpu
      have hw : s.held u b = some .write := hb
      exact hrun.2 b (hquiet b (by simp [hw]))
    · have hpu' : s.phase u = .working call' todo' l' := by simpa [hu] using hpu
      have hn : s.held t b = none := h.exclusive u t b hu hb
      exact (hother b (by simp [hn])).trans (h.owned u call' todo' l' b hpu' hb)
  · intro b hb
    rw [serial_snoc]
    have ht : s.held t b ≠ some .write := fun hw =>
      hb t ⟨⟨_, _, _, update_self ..⟩, hw⟩
    refine (hother b ht).trans (h.free b ?_)
    rintro u ⟨⟨call', todo', l', hpu⟩, hw⟩
    have hu : u ≠ t := by rintro rfl; simp [hp] at hpu
    exact hb u ⟨⟨call', todo', l', by simpa [hu] using hpu⟩, hw⟩

/-- Every step keeps the invariant, for an order that may have grown by one call. -/
theorem step (h : Inv plan table P s order) {s' : State τ β S L κ} (hs : Step plan s t s') :
    ∃ order', Inv plan table P s' order' := by
  cases hs with
  | begin hp hc hplan => exact ⟨order, h.step_begin hp hc hplan⟩
  | acquire hp hg => exact ⟨order, h.step_acquire hp hg⟩
  | lockPoint hp => exact ⟨_, h.step_lockPoint hp⟩
  | access hp => exact ⟨order, h.step_access hp⟩
  | shrink hp => exact ⟨order, h.step_shrink hp⟩
  | release hp => exact ⟨order, h.step_release hp⟩
  | finish hp => exact ⟨order, h.step_finish hp⟩

end Inv

/-- All calls of all threads have ended. -/
def Finished (s : State τ β S L κ) : Prop := ∀ t, s.phase t = .idle ∧ s.pending t = []

/-- After any run the calls past their lock point have a serial order. -/
theorem exists_inv {ts : List τ} (hrun : Run (Step plan) (initial table P) ts s) :
    ∃ order, Inv plan table P s order :=
  hrun.invariant (I := fun s => ∃ order, Inv plan table P s order)
    ⟨[], inv_initial plan table P⟩ fun _ _ _ ⟨_, hi⟩ hs => hi.step hs

/-- Serializability: a finished run has the table and the outputs of executing the
same commands one after another, in an order that keeps the order of each thread. -/
theorem serializable {ts : List τ} (hrun : Run (Step plan) (initial table P) ts s)
    (hdone : Finished s) :
    ∃ order : List (τ × κ × Call β S L), (∀ o ∈ order, plan o.2.1 o.2.2) ∧
      (∀ t, (ofThread t order).map Prod.fst = P t) ∧ (serial order table).1 = s.table ∧
      ∀ t, ofThread t (serial order table).2 = s.outputs t := by
  obtain ⟨order, h⟩ := exists_inv hrun
  refine ⟨order, h.planned, fun t => ?_, ?_, fun t => ?_⟩
  · have := h.programs t
    simpa [unstarted, (hdone t).1, (hdone t).2] using this
  · funext b
    refine h.free b ?_
    rintro t ⟨⟨call, todo, l, hp⟩, -⟩
    rw [(hdone t).1] at hp
    cases hp
  · simpa [due, (hdone t).1] using h.results t

end System

end IstKvs.Systems.TwoPhase
