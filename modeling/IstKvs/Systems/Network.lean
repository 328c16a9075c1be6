import Mathlib.Logic.Function.Basic
import IstKvs.Systems.Run

/-! Processes joined by first-in first-out pipes of bounded capacity, each pipe with one
process that writes to it and one that reads from it. The moves of different processes
commute, so one run to the end tells how all runs go: none gets stuck before that end.
Nothing here depends on what the processes and symbols are. -/

namespace IstKvs.Systems

open Function

variable {σ α : Type*}

/-! ### Commuting steps -/

/-- Steps with different labels leave each other possible, in either order with one result. -/
def Commuting (f : σ → α → Option σ) : Prop :=
  ∀ ⦃s t u : σ⦄ ⦃a b : α⦄, a ≠ b → f s a = some t → f s b = some u →
    ∃ v, f t b = some v ∧ f u a = some v

/-- No step can be taken. -/
def Stuck (f : σ → α → Option σ) (s : σ) : Prop := ∀ a, f s a = none

/-- Some steps lead from one state to the other. -/
def Leads (f : σ → α → Option σ) (s t : σ) : Prop := ∃ as, execute f s as = some t

section Leads
variable {f : σ → α → Option σ} {s t u : σ}

theorem Leads.refl (f : σ → α → Option σ) (s : σ) : Leads f s s := ⟨[], rfl⟩

theorem Leads.trans (h : Leads f s t) (h' : Leads f t u) : Leads f s u := by
  obtain ⟨as, has⟩ := h
  obtain ⟨bs, hbs⟩ := h'
  refine ⟨as ++ bs, ?_⟩
  rw [execute_append, has, Option.bind_some, hbs]

theorem Leads.single {a : α} (h : f s a = some t) : Leads f s t := by
  refine ⟨[a], ?_⟩
  rw [execute, h]
  rfl

end Leads

section Commuting
variable {f : σ → α → Option σ} (hf : Commuting f)
include hf

/-- A step that is possible at the start of a run to the end is taken in it, and can be
taken first. -/
theorem Commuting.first {s t u : σ} {a : α} {as : List α} (ha : f s a = some t)
    (h : execute f s as = some u) (hu : Stuck f u) :
    ∃ bs, as.Perm (a :: bs) ∧ execute f t bs = some u := by
  induction as generalizing s t with
  | nil =>
    cases h
    rw [hu a] at ha
    cases ha
  | cons b as ih =>
    obtain ⟨v, hb, hv⟩ := Option.bind_eq_some_iff.mp h
    by_cases hab : a = b
    · subst hab
      obtain rfl := Option.some.inj (ha.symm.trans hb)
      exact ⟨as, .refl _, hv⟩
    · obtain ⟨w, htw, hvw⟩ := hf hab ha hb
      obtain ⟨bs, hperm, hbs⟩ := ih hvw hv
      refine ⟨b :: bs, (hperm.cons b).trans (.swap a b bs), ?_⟩
      rw [execute, htw]
      exact hbs

/-- If one run leads to a state where no step can be taken, every run can be continued to
this state, with the same steps in all. -/
theorem Commuting.completes {s t u : σ} {as bs : List α} (h : execute f s as = some u)
    (hu : Stuck f u) (hb : execute f s bs = some t) :
    ∃ cs, as.Perm (bs ++ cs) ∧ execute f t cs = some u := by
  induction bs generalizing s as with
  | nil =>
    cases hb
    exact ⟨as, .refl _, h⟩
  | cons b bs ih =>
    obtain ⟨v, hv, hvt⟩ := Option.bind_eq_some_iff.mp hb
    obtain ⟨as', hperm, hlast⟩ := hf.first hv h hu
    obtain ⟨cs, hperm', hcs⟩ := ih hlast hvt
    exact ⟨cs, hperm.trans (hperm'.cons b), hcs⟩

/-- A run that cannot go on has come to this state. -/
theorem Commuting.ends {s t u : σ} {as bs : List α} (h : execute f s as = some u)
    (hu : Stuck f u) (hb : execute f s bs = some t) (ht : Stuck f t) : t = u := by
  obtain ⟨cs, -, hcs⟩ := hf.completes h hu hb
  cases cs with
  | nil => exact Option.some.inj hcs
  | cons c cs =>
    rw [execute, ht c] at hcs
    cases hcs

end Commuting

/-! ### Processes and pipes -/

variable {τ ι B : Type*} [DecidableEq τ] [DecidableEq ι] {P : τ → Type*}

/-- What a process does next: it stops, goes on by itself, puts a symbol into a pipe or
takes one out. -/
inductive Act (ι B P : Type*)
  | stop
  | go (next : P)
  | put (i : ι) (b : B) (next : P)
  | take (i : ι) (next : B → P)

/-- The act on the pipes: where the process and the pipes are afterwards, unless it has to
wait for room or for a symbol. -/
def Act.onPipes {Q : Type*} (capacity : ℕ) (pipe : ι → List B) :
    Act ι B Q → Option (Q × (ι → List B))
  | .stop => none
  | .go next => some (next, pipe)
  | .put i b next =>
    if (pipe i).length < capacity then some (next, update pipe i (pipe i ++ [b])) else none
  | .take i next =>
    match pipe i with
    | [] => none
    | b :: rest => some (next b, update pipe i rest)

@[ext]
structure Network (P : τ → Type*) (ι B : Type*) where
  proc : ∀ t, P t
  pipe : ι → List B

/-- The next act of one process. -/
def Network.move (act : ∀ t, P t → Act ι B (P t)) (capacity : ℕ) (s : Network P ι B) (t : τ) :
    Option (Network P ι B) :=
  ((act t (s.proc t)).onPipes capacity s.pipe).map fun r => ⟨update s.proc t r.1, r.2⟩

/-- The process may put symbols into the pipes of which it is the writer, and take them out of
those of which it is the reader. -/
def Act.Within {Q : Type*} (writer reader : ι → τ) (t : τ) : Act ι B Q → Prop
  | .stop | .go _ => True
  | .put i _ _ => writer i = t
  | .take i _ => reader i = t

theorem Act.onPipes_put {Q : Type*} {capacity : ℕ} {pipe : ι → List B} {i : ι} {b : B} {next : Q}
    {r : Q × (ι → List B)} (h : (Act.put i b next).onPipes capacity pipe = some r) :
    (pipe i).length < capacity ∧ r = (next, update pipe i (pipe i ++ [b])) := by
  rw [Act.onPipes] at h
  split_ifs at h with hroom
  exact ⟨hroom, (Option.some.inj h).symm⟩

theorem Act.onPipes_take {Q : Type*} {capacity : ℕ} {pipe : ι → List B} {i : ι} {next : B → Q}
    {r : Q × (ι → List B)} (h : (Act.take i next).onPipes capacity pipe = some r) :
    ∃ b rest, pipe i = b :: rest ∧ r = (next b, update pipe i rest) := by
  rw [Act.onPipes] at h
  cases hp : pipe i with
  | nil =>
    rw [hp] at h
    cases h
  | cons b rest =>
    rw [hp] at h
    exact ⟨b, rest, rfl, (Option.some.inj h).symm⟩

theorem Act.onPipes_put_of_lt {Q : Type*} {capacity : ℕ} {pipe : ι → List B} {i : ι}
    (h : (pipe i).length < capacity) (b : B) (next : Q) :
    (Act.put i b next).onPipes capacity pipe = some (next, update pipe i (pipe i ++ [b])) :=
  if_pos h

theorem Act.onPipes_take_of_eq {Q : Type*} {capacity : ℕ} {pipe : ι → List B} {i : ι} {b : B}
    {rest : List B} (h : pipe i = b :: rest) (next : B → Q) :
    (Act.take i next).onPipes capacity pipe = some (next b, update pipe i rest) := by
  rw [Act.onPipes, h]

/-- Putting into a pipe and taking from one, of which only the second needs a symbol to be there
already. -/
theorem Act.put_take_comm {Q R : Type*} {capacity : ℕ} {pipe p₁ p₂ : ι → List B} {i j : ι} {b : B}
    {next : Q} {next' : B → R} {q : Q} {r : R}
    (hput : (Act.put i b next).onPipes capacity pipe = some (q, p₁))
    (htake : (Act.take j next').onPipes capacity pipe = some (r, p₂)) :
    ∃ p, (Act.take j next').onPipes capacity p₁ = some (r, p) ∧
      (Act.put i b next).onPipes capacity p₂ = some (q, p) := by
  obtain ⟨hroom, h₁⟩ := Act.onPipes_put hput
  obtain ⟨c, rest, hj, h₂⟩ := Act.onPipes_take htake
  obtain ⟨rfl, rfl⟩ := Prod.mk.inj h₁
  obtain ⟨rfl, rfl⟩ := Prod.mk.inj h₂
  by_cases hij : i = j
  · -- the symbol that is taken was there before the one that is put
    subst hij
    have hfull : (pipe i).length = rest.length + 1 := by rw [hj, List.length_cons]
    refine ⟨update pipe i (rest ++ [b]), ?_, ?_⟩
    · have htail : update pipe i (pipe i ++ [b]) i = c :: (rest ++ [b]) := by
        rw [update_self, hj, List.cons_append]
      rw [Act.onPipes_take_of_eq htail, update_idem]
    · rw [Act.onPipes_put_of_lt]
      · rw [update_self, update_idem]
      · rw [update_self]
        omega
  · refine ⟨update (update pipe i (pipe i ++ [b])) j rest, ?_, ?_⟩
    · exact Act.onPipes_take_of_eq (by rw [update_of_ne (Ne.symm hij), hj]) next'
    · rw [Act.onPipes_put_of_lt]
      · rw [update_of_ne hij, update_comm hij]
      · rwa [update_of_ne hij]

omit [DecidableEq τ] in
/-- The acts of two processes on the pipes commute. -/
theorem Act.comm {writer reader : ι → τ} {t u : τ} (htu : t ≠ u) {Q R : Type*} {x : Act ι B Q}
    {y : Act ι B R} (hx : x.Within writer reader t) (hy : y.Within writer reader u) {capacity : ℕ}
    {pipe p₁ p₂ : ι → List B} {q : Q} {r : R} (h₁ : x.onPipes capacity pipe = some (q, p₁))
    (h₂ : y.onPipes capacity pipe = some (r, p₂)) :
    ∃ p, y.onPipes capacity p₁ = some (r, p) ∧ x.onPipes capacity p₂ = some (q, p) := by
  cases x with
  | stop => cases h₁
  | go next =>
    obtain ⟨rfl, rfl⟩ := Prod.mk.inj (Option.some.inj h₁)
    exact ⟨p₂, h₂, rfl⟩
  | put i b next =>
    cases y with
    | stop => cases h₂
    | go next' =>
      obtain ⟨rfl, rfl⟩ := Prod.mk.inj (Option.some.inj h₂)
      exact ⟨p₁, rfl, h₁⟩
    | put j c next' =>
      have hij : i ≠ j := by
        rintro rfl
        exact htu (hx.symm.trans hy)
      obtain ⟨hi, h₁⟩ := Act.onPipes_put h₁
      obtain ⟨hj, h₂⟩ := Act.onPipes_put h₂
      obtain ⟨rfl, rfl⟩ := Prod.mk.inj h₁
      obtain ⟨rfl, rfl⟩ := Prod.mk.inj h₂
      refine ⟨update (update pipe i (pipe i ++ [b])) j (pipe j ++ [c]), ?_, ?_⟩
      · rw [Act.onPipes_put_of_lt (by rwa [update_of_ne (Ne.symm hij)]),
          update_of_ne (Ne.symm hij)]
      · rw [Act.onPipes_put_of_lt (by rwa [update_of_ne hij]), update_of_ne hij, update_comm hij]
    | take j next' => exact Act.put_take_comm h₁ h₂
  | take i next =>
    cases y with
    | stop => cases h₂
    | go next' =>
      obtain ⟨rfl, rfl⟩ := Prod.mk.inj (Option.some.inj h₂)
      exact ⟨p₁, rfl, h₁⟩
    | put j c next' =>
      obtain ⟨p, hp, hp'⟩ := Act.put_take_comm h₂ h₁
      exact ⟨p, hp', hp⟩
    | take j next' =>
      have hij : i ≠ j := by
        rintro rfl
        exact htu (hx.symm.trans hy)
      obtain ⟨b, rest, hi, h₁⟩ := Act.onPipes_take h₁
      obtain ⟨c, rest', hj, h₂⟩ := Act.onPipes_take h₂
      obtain ⟨rfl, rfl⟩ := Prod.mk.inj h₁
      obtain ⟨rfl, rfl⟩ := Prod.mk.inj h₂
      refine ⟨update (update pipe i rest) j rest', ?_, ?_⟩
      · exact Act.onPipes_take_of_eq (by rw [update_of_ne (Ne.symm hij), hj]) next'
      · rw [Act.onPipes_take_of_eq (by rw [update_of_ne hij, hi]) next, update_comm hij]

/-- The moves of processes that keep to their own ends of the pipes commute. -/
theorem Network.commuting {act : ∀ t, P t → Act ι B (P t)} {writer reader : ι → τ}
    (hact : ∀ t p, (act t p).Within writer reader t) (capacity : ℕ) :
    Commuting (Network.move act capacity) := by
  intro s v w t u htu ht hu
  obtain ⟨⟨q, p₁⟩, h₁, rfl⟩ := Option.map_eq_some_iff.mp ht
  obtain ⟨⟨r, p₂⟩, h₂, rfl⟩ := Option.map_eq_some_iff.mp hu
  obtain ⟨p, hr, hq⟩ := Act.comm htu (hact t _) (hact u _) h₁ h₂
  refine ⟨⟨update (update s.proc t q) u r, p⟩, ?_, ?_⟩
  · simp only [Network.move, update_of_ne (Ne.symm htu), hr, Option.map_some]
  · simp only [Network.move, update_of_ne htu, hq, Option.map_some]
    rw [update_comm htu]

/-! ### Runs of two processes -/

section Rules
variable {act : ∀ t, P t → Act ι B (P t)} {capacity : ℕ} {s : Network P ι B} {t u : τ}

theorem Network.move_go {next : P t} (h : act t (s.proc t) = .go next) :
    s.move act capacity t = some ⟨update s.proc t next, s.pipe⟩ := by
  rw [Network.move, h]
  rfl

/-- A symbol is put into an empty pipe and taken out by the reader. -/
theorem Network.hand_over (hcap : 1 ≤ capacity) (htu : t ≠ u) {i : ι} {b : B} {next : P t}
    {next' : B → P u} (ht : act t (s.proc t) = .put i b next)
    (hu : act u (s.proc u) = .take i next') (hi : s.pipe i = []) :
    execute (Network.move act capacity) s [t, u] =
      some ⟨update (update s.proc t next) u (next' b), s.pipe⟩ := by
  have hroom : (s.pipe i).length < capacity := by
    rw [hi]
    exact hcap
  have hput : s.move act capacity t =
      some ⟨update s.proc t next, update s.pipe i [b]⟩ := by
    rw [Network.move, ht, Act.onPipes_put_of_lt hroom, hi]
    rfl
  have htake : Network.move act capacity ⟨update s.proc t next, update s.pipe i [b]⟩ u =
      some ⟨update (update s.proc t next) u (next' b), s.pipe⟩ := by
    simp only [Network.move, update_of_ne (Ne.symm htu), hu]
    rw [Act.onPipes_take_of_eq (update_self ..), update_idem, ← hi, update_eq_self]
    rfl
  rw [execute, hput, Option.bind_some, execute, htake]
  rfl

end Rules

end IstKvs.Systems
