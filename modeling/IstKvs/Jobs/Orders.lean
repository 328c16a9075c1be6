import IstKvs.Jobs.Isolation
import IstKvs.Jobs.Pool

/-! What the job threads leave when they have all ended: what the statements of the files that
were reached mean in some order, those of each file once. Where no file writes the keys of
another one, the order and the number of threads make no difference. -/

namespace IstKvs.Jobs

open IstKvs.Store IstKvs.Systems Function

/-! ### The meaning of a pool -/

/-- The next statement is a BACKUP. -/
def BacksUp (program : List Statement) : Prop :=
  ∃ st rest, program = st :: rest ∧ st.line = .backup

section Means
variable {τ : Type*} [DecidableEq τ] {d : Directory} {forks : ℕ → UInt32 → Bool}


/-- The pool by the meaning of the statements. -/
abbrev Pool.Means (d : Directory) (forks : ℕ → UInt32 → Bool) :=
  Pool.Step (τ := τ) d forks (stepOf (Work.step forks)) BacksUp (· = [])

def Pool.loaded (s : Pool τ (List Statement) Bindings) : Pool τ (List UInt8) HashTable :=
  ⟨s.dir, s.work.loaded, s.units⟩

theorem atEnd_printed_iff (program : List Statement) : AtEnd (printed program) ↔ program = [] := by
  rw [AtEnd]
  simp only [nextItem_printed]
  cases program <;> simp

theorem Line.item_eq_backup_iff (l : Line) : l.item = .backup ↔ l = .backup := by
  cases l <;> simp [Line.item]

theorem backs_printed_iff (program : List Statement) :
    Backs (printed program) ↔ BacksUp program := by
  rw [Backs, BacksUp]
  simp only [nextItem_printed]
  cases program with
  | nil => simp
  | cons st rest => simp [← Line.item_eq_backup_iff]

theorem runs_loaded_iff (s : Pool τ (List Statement) Bindings) (t : τ)
    (r : Pool τ (List UInt8) HashTable) :
    Pool.Runs d forks s.loaded t r ↔ ∃ s', Pool.Means d forks s t s' ∧ r = s'.loaded := by
  constructor
  · rintro (⟨hp, hb, h⟩ | ⟨hp, hb, hunits, h⟩ | ⟨hend, h⟩)
    · obtain ⟨work, hwork, rfl⟩ := (turn_loaded_iff s.work _ _).mp h
      exact ⟨_, .command hp (fun hbacks => hb ((backs_printed_iff _).mpr hbacks)) hwork, rfl⟩
    · obtain ⟨work, hwork, rfl⟩ := (turn_loaded_iff s.work _ _).mp h
      exact ⟨_, .backup hp ((backs_printed_iff _).mp hb) hunits hwork, rfl⟩
    · exact ⟨{ s with dir := _ }, .move (fun i hp => (atEnd_printed_iff _).mp (hend i hp)) h, rfl⟩
  · rintro ⟨s', ⟨hp, hb, h⟩ | ⟨hp, hb, hunits, h⟩ | ⟨hend, h⟩, rfl⟩
    · exact .command hp (fun hbacks => hb ((backs_printed_iff _).mp hbacks))
        ((turn_loaded_iff s.work _ _).mpr ⟨_, h, rfl⟩)
    · exact .backup hp ((backs_printed_iff _).mpr hb) hunits
        ((turn_loaded_iff s.work _ _).mpr ⟨_, h, rfl⟩)
    · exact .move (fun i hp => (atEnd_printed_iff _).mpr (hend i hp)) h

theorem run_runs_iff {maxBackups : ℕ} {w : Work ℕ (List Statement) Bindings} {as : List τ}
    {r : Pool τ (List UInt8) HashTable} :
    Run (Pool.Runs d forks) (.initial maxBackups w.loaded) as r ↔
      ∃ s, Run (Pool.Means d forks) (.initial maxBackups w) as s ∧ r = s.loaded :=
  Run.image_iff (f := Pool.loaded) (s := Pool.initial maxBackups w) runs_loaded_iff

/-- A file that a thread executes or has executed. -/
def Started (s : DirState τ) (i : ℕ) : Prop :=
  i ∈ s.executed.map Prod.snd ∨ ∃ t, s.place t = .execute i

theorem Moves.place_of_ne {s s' : DirState τ} {t u : τ} (hs : Moves d s t s') (hu : u ≠ t) :
    s'.place u = s.place u := by
  cases hs <;> exact DirState.place_goto_of_ne _ hu _

theorem Moves.executed_mono {s s' : DirState τ} {t : τ} (hs : Moves d s t s') {i : ℕ}
    (hi : i ∈ s.executed.map Prod.snd) : i ∈ s'.executed.map Prod.snd := by
  cases hs with
  | finish hp =>
    change i ∈ (s.executed ++ _).map Prod.snd
    rw [List.map_append]
    exact List.mem_append_left _ hi
  | _ => exact hi

/-- A thread leaves a file when it has executed it. -/
theorem Moves.executed_of_execute {s s' : DirState τ} {t : τ} (hs : Moves d s t s') {i : ℕ}
    (hp : s.place t = .execute i) : i ∈ s'.executed.map Prod.snd := by
  cases hs with
  | @finish j hj =>
    obtain rfl := Place.execute.inj (hj.symm.trans hp)
    change j ∈ (s.executed ++ [(t, j)]).map Prod.snd
    simp
  | lock hq => rcases hq with hq | hq <;> cases hq.symm.trans hp
  | entry hq | exhausted hq | skip hq | pick hq | unlock hq | opened hq | failed hq | created hq
  | refused hq | leave hq => cases hq.symm.trans hp

theorem Started.step {s s' : DirState τ} {t : τ} {i : ℕ} (h : Started s i) (hs : Moves d s t s') :
    Started s' i := by
  rcases h with hi | ⟨u, hu⟩
  · exact .inl (hs.executed_mono hi)
  · by_cases hut : u = t
    · subst hut
      exact .inl (hs.executed_of_execute hu)
    · exact .inr ⟨u, (hs.place_of_ne hut).trans hu⟩

/-! ### The order of the statements -/

theorem count_add_length {τ : Type*} [DecidableEq τ] {forks : τ → UInt32 → Bool}
    {w v : Work τ (List Statement) Bindings} {turns : List τ}
    (h : execute (Work.step forks) w turns = some v) (t : τ) :
    turns.count t + (v.job t).rest.length = (w.job t).rest.length := by
  induction turns generalizing w with
  | nil =>
    cases h
    simp
  | cons u turns ih =>
    obtain ⟨w', hstep, hrun⟩ := Option.bind_eq_some_iff.mp h
    have hrest := ih hrun
    obtain ⟨st, rest, hu, rfl⟩ := Work.step_cases hstep
    simp only [Work.apply] at hrest
    rw [List.count_cons]
    by_cases hut : u = t
    · subst hut
      rw [update_self] at hrest
      have hlen : turns.count u + (v.job u).rest.length = rest.length := hrest
      rw [hu, List.length_cons, ← hlen, beq_self_eq_true, if_pos rfl]
      omega
    · rw [update_of_ne (Ne.symm hut)] at hrest
      simpa [hut] using hrest

/-- The statements so far are those of the files that were started, in some order, and all of
a file that was executed. -/
structure Serial [Fintype τ] (d : Directory) (forks : ℕ → UInt32 → Bool)
    (w : Work ℕ (List Statement) Bindings) (turns : List ℕ)
    (s : Pool τ (List Statement) Bindings) : Prop where
  sound : s.Sound d
  order : execute (Work.step forks) w turns = some s.work
  done : ∀ i ∈ s.dir.executed.map Prod.snd, (s.work.job i).rest = []
  started : ∀ i ∈ turns, Started s.dir i

variable [Fintype τ] {w : Work ℕ (List Statement) Bindings} {maxBackups : ℕ} {turns : List ℕ}
  {s s' : Pool τ (List Statement) Bindings} {t : τ}

omit [DecidableEq τ] in
theorem serial_initial (d : Directory) (forks : ℕ → UInt32 → Bool) (maxBackups : ℕ)
    (w : Work ℕ (List Statement) Bindings) :
    Serial d forks w [] (Pool.initial maxBackups w : Pool τ (List Statement) Bindings) where
  sound := Pool.sound_initial d maxBackups w
  order := rfl
  done := nofun
  started := nofun

omit [DecidableEq τ] in
theorem Serial.command (h : Serial d forks w turns s) {i : ℕ}
    {work : Work ℕ (List Statement) Bindings} (hp : s.dir.place t = .execute i)
    (hstep : s.work.step forks i = some work) (n : ℕ) :
    Serial d forks w (turns ++ [i]) { s with work := work, units := n } where
  sound := ⟨h.sound.shared, h.sound.picked⟩
  order := by
    rw [execute_append, h.order, Option.bind_some, execute, hstep]
    rfl
  done j hj := by
    obtain ⟨st, rest, -, rfl⟩ := Work.step_cases hstep
    have hji : j ≠ i := by
      rintro rfl
      exact (h.sound.shared.handed.carried t j (by rw [hp]; rfl)).2 hj
    simp only [Work.apply]
    rw [update_of_ne hji]
    exact h.done j hj
  started j hj := by
    rcases List.mem_append.mp hj with hj | hj
    · exact h.started j hj
    · obtain rfl := List.mem_singleton.mp hj
      exact .inr ⟨t, hp⟩

theorem Serial.move (h : Serial d forks w turns s) {dir : DirState τ}
    (hend : ∀ i, s.dir.place t = .execute i → (s.work.job i).rest = [])
    (hs : Moves d s.dir t dir) : Serial d forks w turns { s with dir := dir } where
  sound := ⟨h.sound.shared.step hs, h.sound.picked.step hs⟩
  order := h.order
  done j hj := by
    cases hs with
    | @finish i hp =>
      change j ∈ (s.dir.executed ++ [(t, i)]).map Prod.snd at hj
      rw [List.map_append, List.mem_append] at hj
      rcases hj with hj | hj
      · exact h.done j hj
      · obtain rfl := List.mem_singleton.mp hj
        exact hend j hp
    | _ => exact h.done j hj
  started j hj := (h.started j hj).step hs

theorem serial_of_run {as : List τ}
    (h : Run (Pool.Means d forks) (.initial maxBackups w) as s) : ∃ turns, Serial d forks w turns s := by
  refine h.invariant (I := fun s => ∃ turns, Serial d forks w turns s)
    ⟨[], serial_initial d forks maxBackups w⟩ ?_
  rintro u t v ⟨turns, hu⟩ (⟨hp, -, hstep⟩ | ⟨hp, -, -, hstep⟩ | ⟨hend, hstep⟩)
  · exact ⟨_, hu.command hp hstep _⟩
  · exact ⟨_, hu.command hp hstep _⟩
  · exact ⟨_, hu.move hend (moves_of_dirStep hstep)⟩

/-! ### The end of all threads -/

/-- The files that are executed in the end: they are picked and open, and fewer threads than
there are had a file before it that they could not open. -/
def Directory.reached (d : Directory) (n : ℕ) (i : ℕ) : Bool :=
  d.picks i && (d.opens i && d.outOpens i) && decide (d.deadlyBefore i < n)

omit [DecidableEq τ] in
/-- When all threads have ended, every entry that some thread was left for was read. -/
theorem lt_pos_of_ended {s : DirState τ} (h : Shared d s)
    (hall : ∀ t, (s.place t).isEnded = true) {i : ℕ} (hi : i < d.entries.length)
    (hbefore : d.deadlyBefore i < Fintype.card τ) : i < s.pos := by
  by_contra hle
  have hdied : ∀ u, ∃ j, s.place u = .ended (some j) := by
    intro u
    obtain ⟨o, ho⟩ := Place.eq_of_isEnded (hall u)
    have hknown := h.informed.place u
    rw [ho] at hknown
    cases o with
    | some j => exact ⟨j, ho⟩
    | none => exact absurd (lt_of_lt_of_le hi hknown) hle
  have hcard := card_le_deadlyBefore h.handed h.informed hdied
  have hmono := d.deadlyBefore_mono (not_lt.mp hle)
  omega

omit [DecidableEq τ] in
theorem executed_iff_reached {s : DirState τ} (h : Shared d s) (hpicked : Picked d s)
    (hall : ∀ t, (s.place t).isEnded = true) (i : ℕ) :
    i ∈ s.executed.map Prod.snd ↔ d.reached (Fintype.card τ) i = true := by
  rw [Directory.reached, Bool.and_eq_true, Bool.and_eq_true, Bool.and_eq_true, decide_eq_true_eq]
  constructor
  · intro hi
    exact ⟨⟨hpicked.executed i hi, h.informed.executed i hi⟩, h.enough i (h.handed.executed i hi)⟩
  · rintro ⟨⟨hpick, hopen⟩, hbefore⟩
    have hread := lt_pos_of_ended h hall (Directory.lt_of_picks hpick) hbefore
    refine (h.handed.accounted i hread hpick).resolve_right ?_
    rintro ⟨u, hu⟩
    obtain ⟨o, ho⟩ := Place.eq_of_isEnded (hall u)
    have hdead := h.informed.place u
    rw [ho] at hu hdead
    obtain rfl : o = some i := hu
    simp [Place.known, Directory.deadly, hopen] at hdead

omit [DecidableEq τ] in
/-- The turns of a pool whose threads have ended. -/
theorem Serial.count_of_ended (h : Serial d forks w turns s)
    (hall : ∀ t, (s.dir.place t).isEnded = true) (i : ℕ) :
    turns.count i = if d.reached (Fintype.card τ) i then (w.job i).rest.length else 0 := by
  have hiff := executed_iff_reached h.sound.shared h.sound.picked hall i
  split_ifs with hreached
  · have hlen := count_add_length h.order i
    rwa [h.done i (hiff.mpr hreached)] at hlen
  · refine List.count_eq_zero.mpr fun hi => ?_
    rcases h.started i hi with hm | ⟨t, ht⟩
    · exact hreached (hiff.mp hm)
    · have hend := hall t
      rw [ht] at hend
      cases hend

theorem shrinks_step : Shrinks List.length (stepOf (Work.step forks)) where
  own w i w' h := by
    obtain ⟨st, rest, hcons, rfl⟩ := Work.step_cases h
    simp only [Work.apply]
    rw [update_self, hcons]
    exact Nat.lt_succ_self _
  others w i w' h j hj := by
    obtain ⟨st, rest, hcons, rfl⟩ := Work.step_cases h
    simp only [Work.apply]
    rw [update_of_ne hj]

omit [DecidableEq τ] [Fintype τ] in
theorem not_jams (t : τ) : ¬ s.Jams (stepOf (Work.step forks)) (· = []) t := by
  rintro ⟨i, -, hrest, hturn⟩
  obtain ⟨st, rest, hcons⟩ := List.exists_cons_of_ne_nil hrest
  refine hturn (s.work.apply forks i rest (st.line.meaning s.work.store)) ?_
  rw [stepOf, Work.step, hcons]

/-- Every run can be continued until all threads rest. -/
theorem exists_finished {as : List τ}
    (h : Run (Pool.Means d forks) (.initial maxBackups w) as s) :
    ∃ bs s', Run (Pool.Means d forks) (.initial maxBackups w) (as ++ bs) s' ∧
      ∀ t, s'.Rests BacksUp t := by
  obtain ⟨bs, s', hrun, hstop⟩ := exists_stop shrinks_step h
  exact ⟨bs, s', hrun, fun t => (hstop t).resolve_right (not_jams t)⟩

/-! ### Results -/

def twoFiles : Directory where
  path := .ofBuffer (chars ['d'])
  entries := [⟨.ofBuffer (chars ['a', '.', 'j', 'o', 'b']), true, true⟩,
    ⟨.ofBuffer (chars ['b', '.', 'j', 'o', 'b']), true, true⟩]

def twoPrograms : Work ℕ (List Statement) Bindings where
  store := []
  sent := []
  stdout := []
  job i := ⟨if i = 0 then [writeA tokenB, deleteA] else if i = 1 then [writeB] else [], [], [], 1⟩

theorem mem_twoPrograms {i : ℕ} {st : Statement} (h : st ∈ (twoPrograms.job i).rest) :
    i = 0 ∧ (st = writeA tokenB ∨ st = deleteA) ∨ i = 1 ∧ st = writeB := by
  simp only [twoPrograms] at h
  split_ifs at h with h0 h1
  · exact .inl ⟨h0, by simpa using h⟩
  · exact .inr ⟨h1, List.mem_singleton.mp h⟩
  · cases h

theorem exists_all_ended (d : Directory) (n : ℕ) (w : Work ℕ (List Statement) Bindings) :
    ∃ as, ∃ r : Pool τ (List UInt8) HashTable,
      Run (Pool.Runs d fun _ _ => true) (.initial (n + 1) w.loaded) as r ∧
        ∀ t, (r.dir.place t).isEnded = true := by
  have hstart : Run (Pool.Means (τ := τ) d fun _ _ => true) (.initial (n + 1) w) [] _ := .nil
  obtain ⟨as, s, hs, hrests⟩ := exists_finished hstart
  refine ⟨_, s.loaded, run_runs_iff.mpr ⟨s, hs, rfl⟩, fun t => ?_⟩
  rcases hrests t with hend | ⟨h0, -⟩
  · exact hend
  · have hunits := units_of_run hs
    omega

omit [DecidableEq τ] in
/-- Where every file opens, the files that are picked are reached by any number of threads. -/
theorem reached_eq_picks [Nonempty τ] (hopens : ∀ i, d.deadly i = false) (i : ℕ) :
    d.reached (Fintype.card τ) i = d.picks i := by
  have hbefore : d.deadlyBefore i = 0 := by
    rw [Directory.deadlyBefore, Finset.card_eq_zero, Finset.filter_eq_empty_iff]
    intro j _ hj
    rw [hopens j] at hj
    cases hj
  have hi := hopens i
  rw [Directory.reached, hbefore, decide_eq_true Fintype.card_pos, Bool.and_true]
  rw [Directory.deadly] at hi
  cases hpick : d.picks i with
  | false => rfl
  | true => simpa [hpick] using hi

/-- Where every file opens and no file writes the keys of another one, files without SHOW and
BACKUP are executed alike by any number of threads in any order: they leave the same output
files, and every key has the same value. -/
theorem same_results {τ' : Type*} [DecidableEq τ'] [Fintype τ'] [Nonempty τ] [Nonempty τ']
    {maxBackups' : ℕ} {as : List τ} {r : Pool τ (List UInt8) HashTable} {as' : List τ'}
    {r' : Pool τ' (List UInt8) HashTable} (hu : Chain.Unique Binding.name w.store)
    (hopens : ∀ i, d.deadly i = false)
    (hkeyed : ∀ i, ∀ st ∈ (w.job i).rest, st.line.keyed = true)
    (hdisjoint : ∀ i j, i ≠ j → ∀ st ∈ (w.job i).rest, ∀ st' ∈ (w.job j).rest,
      List.Disjoint st.line.written st'.line.keys)
    (h : Run (Pool.Runs d forks) (.initial maxBackups w.loaded) as r)
    (hend : ∀ t, (r.dir.place t).isEnded = true)
    (h' : Run (Pool.Runs d forks) (.initial maxBackups' w.loaded) as' r')
    (hend' : ∀ t, (r'.dir.place t).isEnded = true) :
    r.work.job = r'.work.job ∧ ∀ key : CStr, key.startsAlnum = true →
      readPair r.work.store key true = readPair r'.work.store key true := by
  obtain ⟨s, hs, rfl⟩ := run_runs_iff.mp h
  obtain ⟨s', hs', rfl⟩ := run_runs_iff.mp h'
  obtain ⟨turns, hserial⟩ := serial_of_run hs
  obtain ⟨turns', hserial'⟩ := serial_of_run hs'
  have hcount : ∀ i, turns.count i = turns'.count i := by
    intro i
    rw [hserial.count_of_ended hend, hserial'.count_of_ended hend', reached_eq_picks hopens,
      reached_eq_picks hopens]
  -- each file is executed as it would be alone, and alone there is one way
  have halone : ∀ i, ∃ v, Alike i (fun key => ∃ st ∈ (w.job i).rest, key ∈ st.line.keys) s.work v ∧
      Alike i (fun key => ∃ st ∈ (w.job i).rest, key ∈ st.line.keys) s'.work v := by
    intro i
    have hothers := fun u (hui : u ≠ i) => hdisjoint u i hui
    obtain ⟨v, hv, halike⟩ := exists_alone hu hserial.order (hkeyed i) hothers
    obtain ⟨v', hv', halike'⟩ := exists_alone hu hserial'.order (hkeyed i) hothers
    rw [hcount i, hv'] at hv
    obtain rfl := Option.some.inj hv
    exact ⟨v', halike, halike'⟩
  constructor
  · have hjob : s.work.job = s'.work.job := by
      funext i
      obtain ⟨v, hv, hv'⟩ := halone i
      exact hv.job.trans hv'.job.symm
    simp only [Pool.loaded, Work.loaded, hjob]
  · intro key hkey
    have hview : view key s.work.store = view key s'.work.store := by
      by_cases hwritten : ∃ i, ∃ st ∈ (w.job i).rest, key ∈ st.line.written
      · obtain ⟨i, st, hst, hk⟩ := hwritten
        have hown : ∃ st ∈ (w.job i).rest, key ∈ st.line.keys :=
          ⟨st, hst, st.line.written_subset hk⟩
        obtain ⟨v, hv, hv'⟩ := halone i
        exact (hv.view key hown).trans (hv'.view key hown).symm
      · push Not at hwritten
        rw [view_of_unwritten hu hserial.order hwritten, view_of_unwritten hu hserial'.order hwritten]
    have hread := readPair_tableOf s.work.store hkey
    rw [hview, ← readPair_tableOf s'.work.store hkey] at hread
    exact hread

/-- One thread and two threads on the two files. -/
theorem same_results_twoFiles : ∃ as as', ∃ r : Pool Bool (List UInt8) HashTable,
    ∃ r' : Pool Unit (List UInt8) HashTable,
    Run (Pool.Runs twoFiles fun _ _ => true) (.initial 1 twoPrograms.loaded) as r ∧
    Run (Pool.Runs twoFiles fun _ _ => true) (.initial 1 twoPrograms.loaded) as' r' ∧
    r.work.job = r'.work.job := by
  obtain ⟨as, r, h, hend⟩ := exists_all_ended (τ := Bool) twoFiles 0 twoPrograms
  obtain ⟨as', r', h', hend'⟩ := exists_all_ended (τ := Unit) twoFiles 0 twoPrograms
  have hunique : Chain.Unique Binding.name twoPrograms.store := List.nodup_nil
  have hopens : ∀ i, twoFiles.deadly i = false
    | 0 | 1 => rfl
    | _ + 2 => rfl
  have hkeyed : ∀ i, ∀ st ∈ (twoPrograms.job i).rest, st.line.keyed = true := by
    intro i st hst
    rcases mem_twoPrograms hst with ⟨-, rfl | rfl⟩ | ⟨-, rfl⟩ <;> rfl
  have hdisjoint : ∀ i j, i ≠ j → ∀ st ∈ (twoPrograms.job i).rest,
      ∀ st' ∈ (twoPrograms.job j).rest, List.Disjoint st.line.written st'.line.keys := by
    intro i j hij st hst st' hst' key hkey hkey'
    have hne : tokenA.toCStr ≠ tokenB.toCStr := by decide
    rcases mem_twoPrograms hst with ⟨rfl, rfl | rfl⟩ | ⟨rfl, rfl⟩ <;>
      rcases mem_twoPrograms hst' with ⟨rfl, rfl | rfl⟩ | ⟨rfl, rfl⟩ <;>
        first
        | exact hij rfl
        | exact hne ((List.mem_singleton.mp hkey).symm.trans (List.mem_singleton.mp hkey'))
        | exact hne ((List.mem_singleton.mp hkey').symm.trans (List.mem_singleton.mp hkey))
  exact ⟨as, as', r, r', h, h',
    (same_results hunique hopens hkeyed hdisjoint h hend h' hend').1⟩

end Means

end IstKvs.Jobs
