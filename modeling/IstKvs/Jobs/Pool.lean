import IstKvs.Jobs.Directory
import IstKvs.Jobs.Interpreter

/-! The job threads as a whole: any number of threads that share a directory, each in the
middle of a file or on its way to the next one, and one table. However they are scheduled
and whatever is in the files, the threads come to a stop. -/

namespace IstKvs.Jobs

open IstKvs.Store IstKvs.Systems Function

/-! ### The pool -/

/-- The threads in the directory, the files by the index of their entry, and the backups that
are possible at a time: what is left of `backupCounter`, and the children to wait for. -/
structure Pool (τ P S : Type*) where
  dir : DirState τ
  work : Work ℕ P S
  units : ℕ

section Step
variable {τ P S : Type*} [DecidableEq τ]

/-- A thread takes a turn in the file that it has, or, at the end of the file and outside of
any, a step in the directory. A BACKUP takes a unit or waits for a child, which ends; if it has
a child itself, there is one more to wait for. -/
inductive Pool.Step (d : Directory) (forks : ℕ → UInt32 → Bool)
    (turn : Work ℕ P S → ℕ → Work ℕ P S → Prop) (backs atEnd : P → Prop)
    (s : Pool τ P S) (t : τ) : Pool τ P S → Prop
  | command {i : ℕ} {work : Work ℕ P S} (hp : s.dir.place t = .execute i)
      (hb : ¬ backs (s.work.job i).rest) (h : turn s.work i work) :
      Step d forks turn backs atEnd s t { s with work := work }
  | backup {i : ℕ} {work : Work ℕ P S} (hp : s.dir.place t = .execute i)
      (hb : backs (s.work.job i).rest) (hunits : 0 < s.units) (h : turn s.work i work) :
      Step d forks turn backs atEnd s t { s with
        work := work
        units := if forks i (s.work.job i).fileBackups then s.units else s.units - 1 }
  | move {dir : DirState τ}
      (hend : ∀ i, s.dir.place t = .execute i → atEnd (s.work.job i).rest)
      (h : dirStep d s.dir t = some dir) :
      Step d forks turn backs atEnd s t { s with dir := dir }

/-- All threads before their first entry. -/
def Pool.initial (maxBackups : ℕ) (w : Work ℕ P S) : Pool τ P S := ⟨.initial, w, maxBackups⟩

end Step

/-- `get_next` returns `EOC`. -/
def AtEnd (file : List UInt8) : Prop := ∃ stack, nextItem stack file = none

/-- `get_next` returns `CMD_BACKUP`. -/
def Backs (file : List UInt8) : Prop :=
  ∃ stack r, nextItem stack file = some r ∧ r.result = .backup

section Threads
variable {τ : Type*} [DecidableEq τ] {d : Directory} {forks : ℕ → UInt32 → Bool}

/-- The pool as the server runs it. -/
abbrev Pool.Runs (d : Directory) (forks : ℕ → UInt32 → Bool) :=
  Pool.Step (τ := τ) d forks (Turn forks) Backs AtEnd

/-! ### Files that are picked -/

/-- A thread on its way to a file has picked its entry. -/
def Place.onPicked (d : Directory) : Place → Prop
  | .unlock i | .openFile i | .openOut i | .execute i => d.picks i = true
  | _ => True

structure Picked (d : Directory) (s : DirState τ) : Prop where
  place : ∀ t, (s.place t).onPicked d
  executed : ∀ i ∈ s.executed.map Prod.snd, d.picks i = true

theorem Picked.move {s : DirState τ} (h : Picked d s) {t : τ} {p : Place} (hp : p.onPicked d) :
    Picked d (s.goto t p) := by
  refine ⟨fun u => ?_, h.executed⟩
  by_cases hu : u = t
  · subst hu
    rw [DirState.place_goto_self]
    exact hp
  · rw [s.place_goto_of_ne hu]
    exact h.place u

theorem Picked.step {s s' : DirState τ} {t : τ} (h : Picked d s) (hs : Moves d s t s') :
    Picked d s' := by
  have ht := h.place t
  have hkeep : ∀ u : DirState τ, u.place = s.place → u.executed = s.executed → Picked d u :=
    fun u hplace hexecuted => ⟨hplace ▸ h.place, hexecuted ▸ h.executed⟩
  cases hs with
  | lock => exact (hkeep { s with dirMutex := some t } rfl rfl).move trivial
  | leave => exact (hkeep { s with dirMutex := none } rfl rfl).move trivial
  | entry => exact (hkeep { s with pos := s.pos + 1 } rfl rfl).move trivial
  | exhausted | skip | failed | refused => exact h.move trivial
  | pick hp hpick => exact h.move hpick
  | unlock hp =>
    rw [hp] at ht
    exact (hkeep { s with dirMutex := none } rfl rfl).move ht
  | opened hp | created hp =>
    rw [hp] at ht
    exact h.move ht
  | @finish i hp =>
    rw [hp] at ht
    have hnext : Picked d { s with executed := s.executed ++ [(t, i)] } := by
      refine ⟨h.place, fun j hj => ?_⟩
      rw [List.map_append, List.mem_append] at hj
      rcases hj with hj | hj
      · exact h.executed j hj
      · obtain rfl := List.mem_singleton.mp hj
        exact ht
    exact hnext.move trivial

theorem Directory.lt_of_picks {i : ℕ} (h : d.picks i = true) : i < d.entries.length := by
  by_contra hge
  simp [Directory.picks, List.getElem?_eq_none (not_lt.mp hge)] at h

/-! ### Every run ends -/

section Ends
variable {P S : Type*} [Fintype τ] {turn : Work ℕ P S → ℕ → Work ℕ P S → Prop}
  {backs atEnd : P → Prop} {size : P → ℕ} {maxBackups : ℕ} {w : Work ℕ P S} {s s' : Pool τ P S}
  {t : τ}

structure Pool.Sound (d : Directory) (s : Pool τ P S) : Prop where
  shared : Shared d s.dir
  picked : Picked d s.dir

theorem Pool.Sound.step (h : s.Sound d) (hs : Pool.Step d forks turn backs atEnd s t s') :
    s'.Sound d := by
  cases hs with
  | command | backup => exact ⟨h.shared, h.picked⟩
  | move _ hdir =>
    have hmoves := moves_of_dirStep hdir
    exact ⟨h.shared.step hmoves, h.picked.step hmoves⟩

omit [DecidableEq τ] in
theorem Pool.sound_initial (d : Directory) (maxBackups : ℕ) (w : Work ℕ P S) :
    (Pool.initial maxBackups w : Pool τ P S).Sound d :=
  ⟨shared_initial d, fun _ => trivial, nofun⟩

theorem Pool.sound_of_run {as : List τ}
    (h : Run (Pool.Step d forks turn backs atEnd) (.initial maxBackups w) as s) : s.Sound d :=
  h.invariant (Pool.sound_initial d maxBackups w) fun _ _ _ hu hs => hu.step hs

/-- A turn takes something from its own file and nothing from the others. -/
structure Shrinks (size : P → ℕ) (turn : Work ℕ P S → ℕ → Work ℕ P S → Prop) : Prop where
  own : ∀ ⦃w i w'⦄, turn w i w' → size (w'.job i).rest < size (w.job i).rest
  others : ∀ ⦃w i w'⦄, turn w i w' → ∀ j ≠ i, (w'.job j).rest = (w.job j).rest

/-- A bound on the steps of all threads that are left. -/
def Pool.remaining (d : Directory) (size : P → ℕ) (s : Pool τ P S) : ℕ :=
  s.dir.remaining d + ∑ i ∈ Finset.range d.entries.length, size (s.work.job i).rest

omit [DecidableEq τ] in
theorem Shrinks.sum_lt (hsize : Shrinks size turn) (h : s.Sound d) {i : ℕ} {work : Work ℕ P S}
    (hp : s.dir.place t = .execute i) (hturn : turn s.work i work) :
    ∑ j ∈ Finset.range d.entries.length, size (work.job j).rest <
      ∑ j ∈ Finset.range d.entries.length, size (s.work.job j).rest := by
  have hi : i < d.entries.length := by
    have hpicked := h.picked.place t
    rw [hp] at hpicked
    exact Directory.lt_of_picks hpicked
  refine Finset.sum_lt_sum (fun j _ => ?_) ⟨i, Finset.mem_range.mpr hi, hsize.own hturn⟩
  by_cases hj : j = i
  · rw [hj]
    exact (hsize.own hturn).le
  · rw [hsize.others hturn j hj]

theorem Pool.remaining_lt (hsize : Shrinks size turn) (h : s.Sound d)
    (hs : Pool.Step d forks turn backs atEnd s t s') :
    s'.remaining d size < s.remaining d size := by
  cases hs with
  | command hp hb hturn => exact Nat.add_lt_add_left (hsize.sum_lt h hp hturn) _
  | backup hp hb hunits hturn => exact Nat.add_lt_add_left (hsize.sum_lt h hp hturn) _
  | move hend hdir => exact Nat.add_lt_add_right (Jobs.remaining_lt (moves_of_dirStep hdir)) _

/-- A thread that has ended, or waits for a child when there is none. -/
def Pool.Rests (backs : P → Prop) (s : Pool τ P S) (t : τ) : Prop :=
  (s.dir.place t).isEnded = true ∨
    s.units = 0 ∧ ∃ i, s.dir.place t = .execute i ∧ backs (s.work.job i).rest

/-- A thread in the middle of a file that has no turn. -/
def Pool.Jams (turn : Work ℕ P S → ℕ → Work ℕ P S → Prop) (atEnd : P → Prop) (s : Pool τ P S)
    (t : τ) : Prop :=
  ∃ i, s.dir.place t = .execute i ∧ ¬ atEnd (s.work.job i).rest ∧ ∀ work, ¬ turn s.work i work

omit [Fintype τ] in
theorem exists_dirStep_of_not_ended {s : DirState τ} {t : τ} (hend : (s.place t).isEnded ≠ true)
    (hlock : s.place t = .start ∨ s.place t = .relock → s.dirMutex = none) :
    ∃ s', dirStep d s t = some s' := by
  rw [dirStep]
  cases hp : s.place t with
  | start | relock => exact ⟨_, if_pos (hlock (by simp [hp]))⟩
  | read =>
    dsimp only
    split_ifs <;> exact ⟨_, rfl⟩
  | check | unlock | openFile | openOut | execute | leave => exact ⟨_, rfl⟩
  | ended => exact absurd (by rw [hp]; rfl) hend

omit [Fintype τ] in
/-- A thread that the mutex does not keep waiting goes on unless it rests or jams. -/
theorem exists_step_of_free (hrests : ¬ s.Rests backs t) (hjams : ¬ s.Jams turn atEnd t)
    (hlock : s.dir.place t = .start ∨ s.dir.place t = .relock → s.dir.dirMutex = none) :
    ∃ s', Pool.Step d forks turn backs atEnd s t s' := by
  rw [Pool.Rests, not_or] at hrests
  obtain ⟨dir, hdir⟩ := exists_dirStep_of_not_ended (d := d) hrests.1 hlock
  by_cases hend : ∀ i, s.dir.place t = .execute i → atEnd (s.work.job i).rest
  · exact ⟨_, .move hend hdir⟩
  · push Not at hend
    obtain ⟨i, hp, hrest⟩ := hend
    have hturn : ∃ work, turn s.work i work := by
      by_contra hnone
      exact hjams ⟨i, hp, hrest, not_exists.mp hnone⟩
    obtain ⟨work, hturn⟩ := hturn
    by_cases hb : backs (s.work.job i).rest
    · have hunits : 0 < s.units := by
        refine Nat.pos_of_ne_zero fun h0 => hrests.2 ⟨h0, i, hp, hb⟩
      exact ⟨_, .backup hp hb hunits hturn⟩
    · exact ⟨_, .command hp hb hturn⟩

omit [Fintype τ] in
/-- While some thread neither rests nor jams, one can go on: it, or the one that has the mutex. -/
theorem exists_step (h : Locked s.dir)
    (hall : ¬ ∀ t, s.Rests backs t ∨ s.Jams turn atEnd t) :
    ∃ t s', Pool.Step d forks turn backs atEnd s t s' := by
  cases hm : s.dir.dirMutex with
  | some t =>
    have hc := (h t).mpr hm
    have hcritical : ∀ p, s.dir.place t = p → p.critical = true := fun p hp => hp ▸ hc
    refine ⟨t, exists_step_of_free ?_ ?_ fun hp => ?_⟩
    · rintro (hend | ⟨-, i, hp, -⟩)
      · rw [Place.not_critical_of_isEnded hend] at hc
        cases hc
      · cases hcritical _ hp
    · rintro ⟨i, hp, -⟩
      cases hcritical _ hp
    · rcases hp with hp | hp <;> cases hcritical _ hp
  | none =>
    obtain ⟨t, ht⟩ := not_forall.mp hall
    rw [not_or] at ht
    exact ⟨t, exists_step_of_free ht.1 ht.2 fun _ => hm⟩

/-- Every run can be continued until each thread rests or jams. -/
theorem exists_stop (hsize : Shrinks size turn) {as : List τ}
    (h : Run (Pool.Step d forks turn backs atEnd) (.initial maxBackups w) as s) :
    ∃ bs s', Run (Pool.Step d forks turn backs atEnd) (.initial maxBackups w) (as ++ bs) s' ∧
      ∀ t, s'.Rests backs t ∨ s'.Jams turn atEnd t := by
  induction hn : s.remaining d size using Nat.strong_induction_on generalizing s as with
  | _ n ih =>
    by_cases hall : ∀ t, s.Rests backs t ∨ s.Jams turn atEnd t
    · exact ⟨[], s, by rwa [List.append_nil], hall⟩
    · have hsound := Pool.sound_of_run h
      obtain ⟨t, u, hu⟩ : ∃ t u, Pool.Step d forks turn backs atEnd s t u :=
        exists_step hsound.shared.locked hall
      obtain ⟨bs, v, hrun, hend⟩ := ih _ (hn ▸ Pool.remaining_lt hsize hsound hu) (h.snoc hu) rfl
      exact ⟨[t] ++ bs, v, by rwa [← List.append_assoc], hend⟩

omit [Fintype τ] in
/-- Where no fork fails, a unit is left for every BACKUP. -/
theorem units_of_run {as : List τ}
    (h : Run (Pool.Step d (fun _ _ => true) turn backs atEnd) (.initial maxBackups w) as s) :
    s.units = maxBackups := by
  refine h.invariant (I := fun s => s.units = maxBackups) rfl ?_
  rintro u t v hu (⟨-, -, -⟩ | ⟨-, -, -, -⟩ | ⟨-, -⟩) <;> exact hu

end Ends

section Files
variable [Fintype τ] {maxBackups : ℕ} {w : Work ℕ (List UInt8) HashTable}
  {s : Pool τ (List UInt8) HashTable} {t : τ}

end Files

end Threads

end IstKvs.Jobs
