import IstKvs.Systems.TwoPhase

/-! Deadlock freedom of two-phase locking by a ranking of the locks. When every call
acquires its locks in ascending order of their ranks, a thread that waits for a lock
waits for a thread that waits, if at all, for a lock of a higher rank; so some
thread in a call can take a step. -/

namespace IstKvs.Systems.TwoPhase

open Function

variable {τ β S L κ : Type*} [DecidableEq τ] [DecidableEq β]

/-- The locks of a call are acquired by ascending rank. -/
def Call.Ascending (rank : β → ℕ) (call : Call β S L) : Prop :=
  call.acquires.Pairwise fun x y => rank x.1 < rank y.1

/-- A call releases every lock that it acquires. -/
def Call.ReleasesAll (call : Call β S L) : Prop := ∀ x ∈ call.acquires, x.1 ∈ call.releases

/-- The locks that a thread may hold where it is. -/
def Phase.mayHold : Phase β S L κ → List β
  | .idle => []
  | .acquiring _ call todo => (call.acquires.take (call.acquires.length - todo.length)).map Prod.fst
  | .working call _ _ => call.acquires.map Prod.fst
  | .releasing todo _ => todo

/-- The call of a thread that still acquires, or works, has been planned for its command. -/
def Phase.call? : Phase β S L κ → Option (Call β S L)
  | .acquiring _ call _ | .working call _ _ => some call
  | _ => none

/-- Threads hold locks of their own calls only. -/
structure Holding (plan : κ → Call β S L → Prop) (s : State τ β S L κ) : Prop where
  held : ∀ t b, s.held t b ≠ none → b ∈ (s.phase t).mayHold
  planned : ∀ t call, (s.phase t).call? = some call → ∃ c, plan c call
  suffix : ∀ t c call todo, s.phase t = .acquiring c call todo → todo <:+ call.acquires

variable {plan : κ → Call β S L → Prop} {s s' : State τ β S L κ} {t : τ}

omit [DecidableEq τ] [DecidableEq β] in
theorem holding_initial (table : β → S) (P : τ → List κ) :
    Holding plan (initial table P : State τ β S L κ) where
  held _ _ h := absurd rfl h
  planned _ _ h := by cases h
  suffix _ _ _ _ h := by cases h

namespace Holding

omit [DecidableEq β] in
theorem move (h : Holding plan s) {p : Phase β S L κ} (hphase : s'.phase = update s.phase t p)
    (hothers : ∀ u, u ≠ t → s'.held u = s.held u)
    (hheld : ∀ b, s'.held t b ≠ none → b ∈ p.mayHold)
    (hplanned : ∀ call, p.call? = some call → ∃ c, plan c call)
    (hsuffix : ∀ c call todo, p = .acquiring c call todo → todo <:+ call.acquires) :
    Holding plan s' where
  held u b hb := by
    rw [hphase]
    by_cases hu : u = t
    · subst hu
      rw [update_self]
      exact hheld b hb
    · rw [update_of_ne hu]
      exact h.held u b (by rwa [hothers u hu] at hb)
  planned u call hc := by
    rw [hphase] at hc
    by_cases hu : u = t
    · subst hu
      rw [update_self] at hc
      exact hplanned call hc
    · rw [update_of_ne hu] at hc
      exact h.planned u call hc
  suffix u c call todo hp := by
    rw [hphase] at hp
    by_cases hu : u = t
    · subst hu
      rw [update_self] at hp
      exact hsuffix c call todo hp
    · rw [update_of_ne hu] at hp
      exact h.suffix u c call todo hp

theorem step (h : Holding plan s) (hrel : ∀ c call, plan c call → call.ReleasesAll)
    (hs : Step plan s t s') : Holding plan s' := by
  have hkeep : ∀ b, s.held t b ≠ none → b ∈ (s.phase t).mayHold := h.held t
  cases hs with
  | @begin c cs call hp hc hplan =>
    refine h.move rfl (fun _ _ => rfl) (fun b hb => ?_) (fun call' hcall => ?_) ?_
    · have := hkeep b hb
      rw [hp] at this
      cases this
    · cases hcall
      exact ⟨c, hplan⟩
    · rintro _ _ _ ⟨⟩
      exact List.suffix_rfl
  | @acquire c call b m todo hp hg =>
    have hsuf := h.suffix t c call _ hp
    obtain ⟨done, hdone⟩ := hsuf
    have htake : ∀ rest, call.acquires = done ++ rest →
        call.acquires.take (call.acquires.length - rest.length) = done := by
      intro rest hrest
      rw [hrest, List.length_append, Nat.add_sub_cancel, List.take_left]
    refine h.move rfl (fun u hu => Holders.acquire_of_ne hu b m) (fun b' hb => ?_)
      (fun call' hcall => h.planned t call' (by rw [hp]; exact hcall)) ?_
    · have hsplit : call.acquires = (done ++ [(b, m)]) ++ todo := by simp [← hdone]
      have hnext : call.acquires.take (call.acquires.length - todo.length) = done ++ [(b, m)] := by
        rw [hsplit, List.length_append, Nat.add_sub_cancel, List.take_left]
      simp only [Phase.mayHold, hnext, List.map_append, List.mem_append]
      by_cases hbb : b' = b
      · exact .inr (by simp [hbb])
      · dsimp only at hb
        rw [Holders.acquire_other hbb] at hb
        have := hkeep b' hb
        rw [hp] at this
        simp only [Phase.mayHold, htake _ hdone.symm] at this
        exact .inl this
    · rintro _ _ _ ⟨⟩
      exact ⟨done ++ [(b, m)], by simp [← hdone]⟩
  | @lockPoint c call hp =>
    refine h.move rfl (fun _ _ => rfl) (fun b hb => ?_)
      (fun call' hcall => h.planned t call' (by rw [hp]; exact hcall)) nofun
    have := hkeep b hb
    rw [hp] at this
    simpa [Phase.mayHold] using this
  | @access call a todo l hp =>
    refine h.move rfl (fun _ _ => rfl) (fun b hb => ?_)
      (fun call' hcall => h.planned t call' (by rw [hp]; exact hcall)) nofun
    have := hkeep b hb
    rwa [hp] at this
  | @shrink call l hp =>
    obtain ⟨c, hplan⟩ := h.planned t call (by rw [hp]; rfl)
    refine h.move rfl (fun _ _ => rfl) (fun b hb => ?_) nofun nofun
    have := hkeep b hb
    rw [hp] at this
    obtain ⟨x, hx, rfl⟩ := List.mem_map.mp this
    exact hrel c call hplan x hx
  | @release b todo l hp =>
    refine h.move rfl (fun u hu => Holders.release_of_ne hu b) (fun b' hb => ?_) nofun nofun
    dsimp only at hb
    by_cases hbb : b' = b
    · rw [hbb, Holders.release_self] at hb
      exact absurd rfl hb
    · rw [Holders.release_other hbb] at hb
      have := hkeep b' hb
      rw [hp] at this
      exact (List.mem_cons.mp this).resolve_left hbb
  | @finish l hp =>
    refine h.move rfl (fun _ _ => rfl) (fun b hb => ?_) nofun nofun
    have := hkeep b hb
    rwa [hp] at this

omit [DecidableEq τ] [DecidableEq β] in
theorem exists_holder {held : Holders τ β} {b : β} {m : Mode} (h : ¬ held.Grants b m) :
    ∃ u, held u b ≠ none := by
  by_contra hn
  push Not at hn
  cases m with
  | read => exact h fun u hu => by rw [hn u] at hu; cases hu
  | write => exact h hn

/-- Who waits for a lock waits for a thread that can step, or that waits for a higher one. -/
theorem exists_step_of_waiting (h : Holding plan s) {rank : β → ℕ} {N : ℕ}
    (hN : ∀ b, rank b < N) (hasc : ∀ c call, plan c call → call.Ascending rank) {c : κ}
    {call : Call β S L} {b : β} {m : Mode} {todo : List (β × Mode)}
    (hp : s.phase t = .acquiring c call ((b, m) :: todo)) :
    ∃ u s', s.phase u ≠ .idle ∧ Step plan s u s' := by
  -- by induction on how many ranks are above the one waited for
  generalize hk : N - rank b = k
  induction k using Nat.strongRecOn generalizing t c call b m todo with
  | _ k ih =>
    by_cases hg : s.held.Grants b m
    · exact ⟨t, _, by simp [hp], .acquire hp hg⟩
    · obtain ⟨u, hu⟩ := exists_holder hg
      have hmay := h.held u b hu
      cases hpu : s.phase u with
      | idle =>
        rw [hpu] at hmay
        cases hmay
      | working call' as l =>
        cases as with
        | nil => exact ⟨u, _, by simp [hpu], .shrink hpu⟩
        | cons a as => exact ⟨u, _, by simp [hpu], .access hpu⟩
      | releasing bs l =>
        cases bs with
        | nil => exact ⟨u, _, by simp [hpu], .finish hpu⟩
        | cons b' bs => exact ⟨u, _, by simp [hpu], .release hpu⟩
      | acquiring c' call' todo' =>
        cases todo' with
        | nil => exact ⟨u, _, by simp [hpu], .lockPoint hpu⟩
        | cons x todo' =>
          obtain ⟨b', m'⟩ := x
          -- `b` was acquired before `b'`
          have hlt : rank b < rank b' := by
            obtain ⟨done, hdone⟩ := h.suffix u c' call' _ hpu
            obtain ⟨c₀, hplan⟩ := h.planned u call' (by rw [hpu]; rfl)
            have hpair := hasc c₀ call' hplan
            rw [Call.Ascending, ← hdone, List.pairwise_append] at hpair
            rw [hpu] at hmay
            simp only [Phase.mayHold, ← hdone, List.length_append, Nat.add_sub_cancel,
              List.take_left] at hmay
            obtain ⟨y, hy, rfl⟩ := List.mem_map.mp hmay
            exact hpair.2.2 y hy (b', m') List.mem_cons_self
          have hb := hN b'
          exact ih (N - rank b') (by omega) hpu rfl

/-- As long as some thread is in a call, some thread in a call can take a step. -/
theorem exists_step (h : Holding plan s) {rank : β → ℕ} {N : ℕ} (hN : ∀ b, rank b < N)
    (hasc : ∀ c call, plan c call → call.Ascending rank) (ht : s.phase t ≠ .idle) :
    ∃ u s', s.phase u ≠ .idle ∧ Step plan s u s' := by
  cases hp : s.phase t with
  | idle => exact absurd hp ht
  | working call as l =>
    cases as with
    | nil => exact ⟨t, _, ht, .shrink hp⟩
    | cons a as => exact ⟨t, _, ht, .access hp⟩
  | releasing bs l =>
    cases bs with
    | nil => exact ⟨t, _, ht, .finish hp⟩
    | cons b bs => exact ⟨t, _, ht, .release hp⟩
  | acquiring c call todo =>
    cases todo with
    | nil => exact ⟨t, _, ht, .lockPoint hp⟩
    | cons x todo => exact h.exists_step_of_waiting hN hasc hp

theorem of_run {table : β → S} {P : τ → List κ} {ts : List τ}
    (hrel : ∀ c call, plan c call → call.ReleasesAll)
    (hrun : Run (Step plan) (initial table P) ts s) : Holding plan s :=
  hrun.invariant (holding_initial table P) fun _ _ _ h hs => h.step hrel hs

end Holding

/-! ### Runs of some commands only -/

section Restrict
variable {Q : κ → Prop}

theorem Step.mono {plan' : κ → Call β S L → Prop} (hs : Step plan s t s')
    (h : ∀ c ∈ s.pending t, ∀ call, plan c call → plan' c call) : Step plan' s t s' := by
  cases hs with
  | begin hp hc hplan => exact .begin hp hc (h _ (by rw [hc]; exact List.mem_cons_self) _ hplan)
  | acquire hp hg => exact .acquire hp hg
  | lockPoint hp => exact .lockPoint hp
  | access hp => exact .access hp
  | shrink hp => exact .shrink hp
  | release hp => exact .release hp
  | finish hp => exact .finish hp

theorem Step.pending_subset (hs : Step plan s t s') (u : τ) : s'.pending u ⊆ s.pending u := by
  cases hs with
  | @begin c cs _ _ hc _ =>
    intro c' hc'
    by_cases hu : u = t
    · subst hu
      rw [hc]
      exact List.mem_cons_of_mem _ (by simpa using hc')
    · simpa [hu] using hc'
  | _ => exact List.Subset.refl _

/-- When all commands meet `Q`, only calls of such commands are ever begun. -/
theorem run_restrict {table : β → S} {P : τ → List κ} {ts : List τ}
    (hP : ∀ t, ∀ c ∈ P t, Q c) (hrun : Run (Step plan) (initial table P) ts s) :
    Run (Step fun c call => Q c ∧ plan c call) (initial table P) ts s ∧
      ∀ t, ∀ c ∈ s.pending t, Q c := by
  induction hrun with
  | nil => exact ⟨.nil, hP⟩
  | snoc _ hs ih =>
    exact ⟨ih.1.snoc (hs.mono fun c hc _ hplan => ⟨ih.2 _ c hc, hplan⟩),
      fun u c hc => ih.2 u c (hs.pending_subset u hc)⟩

end Restrict

end IstKvs.Systems.TwoPhase
