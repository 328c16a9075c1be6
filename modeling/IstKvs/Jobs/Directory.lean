import IstKvs.Store.CString
import IstKvs.Systems.Run
import IstKvs.Systems.Tally

/-! How the job threads share the directory (`process_thread`). A thread reads entries under
`dirMutex` until it finds a job file, leaves the mutex, executes the file and takes the mutex
again for the next entry. A thread that cannot open a file returns, and its share of the rest
of the directory falls to the threads that are left. -/

namespace IstKvs.Jobs

open IstKvs.Store IstKvs.Systems Function

/-! ### The directory -/

def maxJobFileNameSize : ℕ := 256

/-- A directory entry, and whether its file and its output file can be opened. -/
structure Entry where
  dName : CStr
  opens : Bool
  outOpens : Bool
  deriving DecidableEq

/-- The entries in the order in which `readdir` returns them. -/
structure Directory where
  path : CStr
  entries : List Entry
  deriving DecidableEq

/-- The name ends in `.job`. -/
def isJob (name : CStr) : Bool :=
  decide (4 ≤ name.length) &&
    decide (name.bytes.drop (name.length - 4) = chars ['.', 'j', 'o', 'b'])

/-- What `snprintf` returns for the path of an entry. -/
def lenFilePath (directoryPath name : CStr) : ℕ := directoryPath.length + 1 + name.length

namespace Directory
variable (d : Directory)

/-- The entry is not passed over. -/
def picks (i : ℕ) : Bool :=
  d.entries[i]?.any fun e =>
    isJob e.dName && decide (lenFilePath d.path e.dName < maxJobFileNameSize)

def opens (i : ℕ) : Bool := d.entries[i]?.any Entry.opens

def outOpens (i : ℕ) : Bool := d.entries[i]?.any Entry.outOpens

/-- The thread that picks the entry returns. -/
def deadly (i : ℕ) : Bool := d.picks i && !(d.opens i && d.outOpens i)

/-- The number of entries before an index whose threads return. -/
def deadlyBefore (n : ℕ) : ℕ := ((Finset.range n).filter fun i => d.deadly i = true).card

theorem deadlyBefore_mono {m n : ℕ} (h : m ≤ n) : d.deadlyBefore m ≤ d.deadlyBefore n := by
  apply Finset.card_le_card
  exact Finset.filter_subset_filter _ (Finset.range_subset_range.mpr h)

end Directory

/-! ### The threads -/

/-- Where a job thread is: before a call of `readdir`, with an entry (by its index), or done. -/
inductive Place
  | start
  | read
  | check (i : ℕ)
  | unlock (i : ℕ)
  | openFile (i : ℕ)
  | openOut (i : ℕ)
  | execute (i : ℕ)
  | relock
  | leave
  | ended (i : Option ℕ)
  deriving DecidableEq

/-- Inside the critical section of the directory. -/
def Place.critical : Place → Bool
  | .read | .check _ | .unlock _ | .leave => true
  | _ => false

/-- The entry that a thread has, or that made it return. -/
def Place.carries : Place → Option ℕ
  | .check i | .unlock i | .openFile i | .openOut i | .execute i => some i
  | .ended i => i
  | .start | .read | .relock | .leave => none

def Place.isEnded : Place → Bool
  | .ended _ => true
  | _ => false

theorem Place.not_critical_of_isEnded {p : Place} (h : p.isEnded = true) : p.critical = false := by
  cases p <;> first | rfl | cases h

theorem Place.eq_of_isEnded {p : Place} (h : p.isEnded = true) : ∃ i, p = .ended i := by
  cases p <;> first | exact ⟨_, rfl⟩ | cases h

/-- `pos` is how far `readdir` has come, and `executed` the files in the order of their ends. -/
structure DirState (τ : Type*) where
  dirMutex : Option τ
  pos : ℕ
  place : τ → Place
  executed : List (τ × ℕ)

variable {τ : Type*}

def DirState.initial : DirState τ := ⟨none, 0, fun _ => .start, []⟩

section Step
variable [DecidableEq τ]

def DirState.goto (s : DirState τ) (t : τ) (p : Place) : DirState τ :=
  { s with place := update s.place t p }

/-- One step of a thread. The commands of a file are one step, from its opening to `EOC`. -/
def dirStep (d : Directory) (s : DirState τ) (t : τ) : Option (DirState τ) :=
  match s.place t with
  | .start | .relock =>
    if s.dirMutex = none then some ({ s with dirMutex := some t }.goto t .read) else none
  | .read =>
    if s.pos < d.entries.length then some ({ s with pos := s.pos + 1 }.goto t (.check s.pos))
    else some (s.goto t .leave)
  | .check i => some (s.goto t (if d.picks i then .unlock i else .read))
  | .unlock i => some ({ s with dirMutex := none }.goto t (.openFile i))
  | .openFile i => some (s.goto t (if d.opens i then .openOut i else .ended (some i)))
  | .openOut i => some (s.goto t (if d.outOpens i then .execute i else .ended (some i)))
  | .execute i => some ({ s with executed := s.executed ++ [(t, i)] }.goto t .relock)
  | .leave => some ({ s with dirMutex := none }.goto t (.ended none))
  | .ended _ => none

/-- What a step can do. -/
inductive Moves (d : Directory) (s : DirState τ) (t : τ) : DirState τ → Prop
  | lock (hp : s.place t = .start ∨ s.place t = .relock) (hm : s.dirMutex = none) :
      Moves d s t ({ s with dirMutex := some t }.goto t .read)
  | entry (hp : s.place t = .read) (h : s.pos < d.entries.length) :
      Moves d s t ({ s with pos := s.pos + 1 }.goto t (.check s.pos))
  | exhausted (hp : s.place t = .read) (h : d.entries.length ≤ s.pos) :
      Moves d s t (s.goto t .leave)
  | skip {i : ℕ} (hp : s.place t = .check i) (h : d.picks i = false) :
      Moves d s t (s.goto t .read)
  | pick {i : ℕ} (hp : s.place t = .check i) (h : d.picks i = true) :
      Moves d s t (s.goto t (.unlock i))
  | unlock {i : ℕ} (hp : s.place t = .unlock i) :
      Moves d s t ({ s with dirMutex := none }.goto t (.openFile i))
  | opened {i : ℕ} (hp : s.place t = .openFile i) (h : d.opens i = true) :
      Moves d s t (s.goto t (.openOut i))
  | failed {i : ℕ} (hp : s.place t = .openFile i) (h : d.opens i = false) :
      Moves d s t (s.goto t (.ended (some i)))
  | created {i : ℕ} (hp : s.place t = .openOut i) (h : d.outOpens i = true) :
      Moves d s t (s.goto t (.execute i))
  | refused {i : ℕ} (hp : s.place t = .openOut i) (h : d.outOpens i = false) :
      Moves d s t (s.goto t (.ended (some i)))
  | finish {i : ℕ} (hp : s.place t = .execute i) :
      Moves d s t ({ s with executed := s.executed ++ [(t, i)] }.goto t .relock)
  | leave (hp : s.place t = .leave) :
      Moves d s t ({ s with dirMutex := none }.goto t (.ended none))

theorem moves_of_dirStep {d : Directory} {s s' : DirState τ} {t : τ}
    (h : dirStep d s t = some s') : Moves d s t s' := by
  unfold dirStep at h
  split at h
  next hp =>
    split_ifs at h with hm
    exact Option.some.inj h ▸ .lock (.inl hp) hm
  next hp =>
    split_ifs at h with hm
    exact Option.some.inj h ▸ .lock (.inr hp) hm
  next hp =>
    split_ifs at h with hpos
    · exact Option.some.inj h ▸ .entry hp hpos
    · exact Option.some.inj h ▸ .exhausted hp (not_lt.mp hpos)
  next i hp =>
    split_ifs at h with hpick
    · exact Option.some.inj h ▸ .pick hp hpick
    · exact Option.some.inj h ▸ .skip hp (by simpa using hpick)
  next i hp => exact Option.some.inj h ▸ .unlock hp
  next i hp =>
    split_ifs at h with hopen
    · exact Option.some.inj h ▸ .opened hp hopen
    · exact Option.some.inj h ▸ .failed hp (by simpa using hopen)
  next i hp =>
    split_ifs at h with hopen
    · exact Option.some.inj h ▸ .created hp hopen
    · exact Option.some.inj h ▸ .refused hp (by simpa using hopen)
  next i hp => exact Option.some.inj h ▸ .finish hp
  next hp => exact Option.some.inj h ▸ .leave hp
  next => cases h

variable {d : Directory} {s s' : DirState τ} {t : τ}

@[simp] theorem DirState.place_goto_self (s : DirState τ) (t : τ) (p : Place) :
    (s.goto t p).place t = p := update_self ..

theorem DirState.place_goto_of_ne (s : DirState τ) {t u : τ} (h : u ≠ t) (p : Place) :
    (s.goto t p).place u = s.place u := update_of_ne h ..

/-! ### The mutex -/

/-- The thread in the critical section holds the mutex. -/
def Locked (s : DirState τ) : Prop :=
  ∀ t, (s.place t).critical = true ↔ s.dirMutex = some t

theorem Locked.move (h : Locked s) {p : Place} (hp : p.critical = (s.place t).critical) :
    Locked (s.goto t p) := by
  intro u
  by_cases hu : u = t
  · subst hu
    rw [DirState.place_goto_self, hp]
    exact h u
  · rw [s.place_goto_of_ne hu]
    exact h u

theorem Locked.acquire (h : Locked s) (hm : s.dirMutex = none) {p : Place}
    (hp : p.critical = true) : Locked ({ s with dirMutex := some t }.goto t p) := by
  intro u
  by_cases hu : u = t
  · subst hu
    rw [DirState.place_goto_self, hp]
    exact ⟨fun _ => rfl, fun _ => rfl⟩
  · rw [DirState.place_goto_of_ne _ hu]
    have hfree := h u
    rw [hm] at hfree
    constructor
    · intro hc
      cases hfree.mp hc
    · intro he
      exact absurd (Option.some.inj he).symm hu

theorem Locked.release (h : Locked s) (hc : (s.place t).critical = true) {p : Place}
    (hp : p.critical = false) : Locked ({ s with dirMutex := none }.goto t p) := by
  intro u
  by_cases hu : u = t
  · subst hu
    rw [DirState.place_goto_self, hp]
    exact ⟨nofun, nofun⟩
  · rw [DirState.place_goto_of_ne _ hu]
    have hother : (s.place u).critical ≠ true := by
      intro hcu
      have he := ((h u).mp hcu).symm.trans ((h t).mp hc)
      exact hu (Option.some.inj he)
    exact ⟨fun hcu => absurd hcu hother, nofun⟩

theorem Locked.step (h : Locked s) (hs : Moves d s t s') : Locked s' := by
  cases hs with
  | lock hp hm => exact h.acquire hm rfl
  | entry hp => exact h.move (s := { s with pos := s.pos + 1 }) (by rw [hp]; rfl)
  | exhausted hp | skip hp | pick hp | opened hp | failed hp | created hp | refused hp =>
    exact h.move (by rw [hp]; rfl)
  | unlock hp => exact h.release (by rw [hp]; rfl) rfl
  | finish hp => exact h.move (s := { s with executed := _ }) (by rw [hp]; rfl)
  | leave hp => exact h.release (by rw [hp]; rfl) rfl

/-! ### Who has an entry -/

/-- Every entry that was read and is not passed over is with one thread or has been executed. -/
structure Handed (d : Directory) (s : DirState τ) : Prop where
  accounted : ∀ i < s.pos, d.picks i = true →
    i ∈ s.executed.map Prod.snd ∨ ∃ t, (s.place t).carries = some i
  sole : ∀ t u i, (s.place t).carries = some i → (s.place u).carries = some i → t = u
  carried : ∀ t i, (s.place t).carries = some i → i < s.pos ∧ i ∉ s.executed.map Prod.snd
  executed : ∀ i ∈ s.executed.map Prod.snd, i < s.pos
  nodup : (s.executed.map Prod.snd).Nodup

theorem carries_goto {p : Place} (hp : p.carries = (s.place t).carries) (u : τ) :
    ((s.goto t p).place u).carries = (s.place u).carries := by
  by_cases hu : u = t
  · subst hu
    rw [DirState.place_goto_self, hp]
  · rw [s.place_goto_of_ne hu]

/-- A step of a thread that keeps its entry. -/
theorem Handed.move (h : Handed d s) {p : Place} (hp : p.carries = (s.place t).carries) :
    Handed d (s.goto t p) := by
  have hc := carries_goto hp
  refine ⟨fun i hi hpick => ?_, fun t' u i => ?_, fun u i => ?_, h.executed, h.nodup⟩
  · refine (h.accounted i hi hpick).imp_right ?_
    rintro ⟨u, hu⟩
    exact ⟨u, (hc u).trans hu⟩
  · rw [hc, hc]
    exact h.sole t' u i
  · rw [hc]
    exact h.carried u i

omit [DecidableEq τ] in
theorem Handed.mutex (h : Handed d s) (m : Option τ) : Handed d { s with dirMutex := m } :=
  ⟨h.accounted, h.sole, h.carried, h.executed, h.nodup⟩

/-- The next entry is taken by a thread without one. -/
theorem Handed.entry (h : Handed d s) (hp : (s.place t).carries = none) :
    Handed d ({ s with pos := s.pos + 1 }.goto t (.check s.pos)) := by
  have hself : ∀ u i, (({ s with pos := s.pos + 1 }.goto t (.check s.pos)).place u).carries =
      some i → (u = t ∧ i = s.pos) ∨ (u ≠ t ∧ (s.place u).carries = some i) := by
    intro u i hu
    by_cases he : u = t
    · subst he
      rw [DirState.place_goto_self] at hu
      exact .inl ⟨rfl, (Option.some.inj hu).symm⟩
    · rw [DirState.place_goto_of_ne _ he] at hu
      exact .inr ⟨he, hu⟩
  refine ⟨fun i hi hpick => ?_, fun t' u i ht hu => ?_, fun u i hu => ?_, fun i hi => ?_, h.nodup⟩
  · rcases Nat.lt_succ_iff_lt_or_eq.mp hi with hi | rfl
    · refine (h.accounted i hi hpick).imp_right ?_
      rintro ⟨u, hu⟩
      have hne : u ≠ t := by
        rintro rfl
        rw [hp] at hu
        cases hu
      exact ⟨u, by rw [DirState.place_goto_of_ne _ hne]; exact hu⟩
    · exact .inr ⟨t, by rw [DirState.place_goto_self]; rfl⟩
  · rcases hself t' i ht with ⟨ht', he⟩ | ⟨-, ht'⟩ <;>
      rcases hself u i hu with ⟨hu', he'⟩ | ⟨-, hu'⟩
    · rw [ht', hu']
    · exact absurd (h.carried u i hu').1 (by omega)
    · exact absurd (h.carried t' i ht').1 (by omega)
    · exact h.sole t' u i ht' hu'
  · rcases hself u i hu with ⟨rfl, rfl⟩ | ⟨-, hu⟩
    · exact ⟨Nat.lt_succ_self _, fun hm => lt_irrefl _ (h.executed _ hm)⟩
    · exact ⟨Nat.lt_succ_of_lt (h.carried u i hu).1, (h.carried u i hu).2⟩
  · exact Nat.lt_succ_of_lt (h.executed i hi)

theorem carries_of_goto {p : Place} (hp : p.carries = none) {u : τ} {i : ℕ}
    (hu : ((s.goto t p).place u).carries = some i) : u ≠ t ∧ (s.place u).carries = some i := by
  by_cases he : u = t
  · subst he
    rw [DirState.place_goto_self, hp] at hu
    cases hu
  · rw [DirState.place_goto_of_ne _ he] at hu
    exact ⟨he, hu⟩

/-- A thread passes over its entry. -/
theorem Handed.skip (h : Handed d s) {i : ℕ} (hc : (s.place t).carries = some i)
    (hpick : d.picks i = false) {p : Place} (hp : p.carries = none) : Handed d (s.goto t p) := by
  refine ⟨fun j hj hj' => ?_, fun t' u j ht hu => ?_, fun u j hu => ?_, h.executed, h.nodup⟩
  · refine (h.accounted j hj hj').imp_right ?_
    rintro ⟨u, hu⟩
    have hne : u ≠ t := by
      rintro rfl
      obtain rfl := Option.some.inj (hc.symm.trans hu)
      rw [hpick] at hj'
      cases hj'
    exact ⟨u, by rw [DirState.place_goto_of_ne _ hne]; exact hu⟩
  · exact h.sole t' u j (carries_of_goto hp ht).2 (carries_of_goto hp hu).2
  · exact h.carried u j (carries_of_goto hp hu).2

/-- A thread has executed its entry. -/
theorem Handed.finish (h : Handed d s) {i : ℕ} (hc : (s.place t).carries = some i) {p : Place}
    (hp : p.carries = none) :
    Handed d ({ s with executed := s.executed ++ [(t, i)] }.goto t p) := by
  obtain ⟨hlt, hnot⟩ := h.carried t i hc
  have hmap : (s.executed ++ [(t, i)]).map Prod.snd = s.executed.map Prod.snd ++ [i] := by
    rw [List.map_append, List.map_singleton]
  have hmem : ∀ j, j ∈ (s.executed ++ [(t, i)]).map Prod.snd ↔
      j ∈ s.executed.map Prod.snd ∨ j = i := by
    intro j
    rw [hmap, List.mem_append, List.mem_singleton]
  refine ⟨fun j hj hpick => ?_, fun t' u j ht hu => ?_, fun u j hu => ?_, fun j hj => ?_, ?_⟩
  · rcases h.accounted j hj hpick with hm | ⟨u, hu⟩
    · exact .inl ((hmem j).mpr (.inl hm))
    · by_cases he : u = t
      · subst he
        exact .inl ((hmem j).mpr (.inr (Option.some.inj (hu.symm.trans hc))))
      · exact .inr ⟨u, by rw [DirState.place_goto_of_ne _ he]; exact hu⟩
  · exact h.sole t' u j (carries_of_goto hp ht).2 (carries_of_goto hp hu).2
  · obtain ⟨hne, hu'⟩ := carries_of_goto hp hu
    refine ⟨(h.carried u j hu').1, fun hm => ?_⟩
    rcases (hmem j).mp hm with hm | rfl
    · exact (h.carried u j hu').2 hm
    · exact hne (h.sole u t j hu' hc)
  · rcases (hmem j).mp hj with hm | rfl
    · exact h.executed j hm
    · exact hlt
  · change ((s.executed ++ [(t, i)]).map Prod.snd).Nodup
    rw [hmap, List.nodup_append]
    refine ⟨h.nodup, List.nodup_singleton i, fun a ha b hb => ?_⟩
    rintro rfl
    exact hnot (List.mem_singleton.mp hb ▸ ha)

theorem Handed.step (h : Handed d s) (hs : Moves d s t s') : Handed d s' := by
  cases hs with
  | lock hp hm =>
    have hc : (s.place t).carries = none := by rcases hp with hp | hp <;> rw [hp] <;> rfl
    exact (h.mutex _).move hc.symm
  | entry hp => exact h.entry (by rw [hp]; rfl)
  | skip hp hpick => exact h.skip (by rw [hp]; rfl) hpick rfl
  | exhausted hp | pick hp | opened hp | failed hp | created hp | refused hp =>
    exact h.move (by rw [hp]; rfl)
  | unlock hp | leave hp =>
    refine (h.mutex none).move ?_
    change _ = (s.place t).carries
    rw [hp]
    rfl
  | finish hp => exact h.finish (by rw [hp]; rfl) rfl

/-! ### What a place says -/

/-- What is known of the entry at a place. -/
def Place.known (d : Directory) (pos : ℕ) : Place → Prop
  | .unlock i | .openFile i => d.picks i = true
  | .openOut i => d.picks i = true ∧ d.opens i = true
  | .execute i => d.opens i = true ∧ d.outOpens i = true
  | .ended (some i) => d.deadly i = true
  | .leave | .ended none => d.entries.length ≤ pos
  | _ => True

/-- Every place is right about its entry, and only files that open were executed. -/
structure Informed (d : Directory) (s : DirState τ) : Prop where
  place : ∀ t, (s.place t).known d s.pos
  executed : ∀ i ∈ s.executed.map Prod.snd, d.opens i = true ∧ d.outOpens i = true

theorem Place.known_mono {p : Place} {m n : ℕ} (h : p.known d m) (hle : m ≤ n) :
    p.known d n := by
  cases p with
  | leave => exact le_trans h hle
  | ended i =>
    cases i with
    | none => exact le_trans h hle
    | some i => exact h
  | _ => exact h

theorem Informed.move (h : Informed d s) {p : Place} (hp : p.known d s.pos) :
    Informed d (s.goto t p) := by
  refine ⟨fun u => ?_, h.executed⟩
  by_cases hu : u = t
  · subst hu
    rw [DirState.place_goto_self]
    exact hp
  · rw [s.place_goto_of_ne hu]
    exact h.place u

omit [DecidableEq τ] in
theorem Informed.mutex (h : Informed d s) (m : Option τ) : Informed d { s with dirMutex := m } :=
  ⟨h.place, h.executed⟩

theorem Informed.step (h : Informed d s) (hs : Moves d s t s') : Informed d s' := by
  cases hs with
  | lock hp hm => exact (h.mutex _).move trivial
  | entry hp hlt =>
    have hnext : Informed d { s with pos := s.pos + 1 } :=
      ⟨fun u => Place.known_mono (h.place u) (Nat.le_succ _), h.executed⟩
    exact hnext.move trivial
  | exhausted hp hle => exact h.move hle
  | skip hp hpick => exact h.move trivial
  | pick hp hpick => exact h.move hpick
  | unlock hp =>
    have hk := h.place t
    rw [hp] at hk
    exact (h.mutex none).move hk
  | opened hp hopen =>
    have hk := h.place t
    rw [hp] at hk
    exact h.move ⟨hk, hopen⟩
  | @failed i hp hopen =>
    have hk : d.picks i = true := by
      have hk := h.place t
      rwa [hp] at hk
    exact h.move (by simp [Place.known, Directory.deadly, hk, hopen])
  | created hp hopen =>
    have hk := h.place t
    rw [hp] at hk
    exact h.move ⟨hk.2, hopen⟩
  | refused hp hopen =>
    have hk := h.place t
    rw [hp] at hk
    exact h.move (by simp [Place.known, Directory.deadly, hk.1, hopen])
  | @finish i hp =>
    have hk := h.place t
    rw [hp] at hk
    have hnext : Informed d { s with executed := s.executed ++ [(t, i)] } := by
      refine ⟨h.place, fun j hj => ?_⟩
      rw [List.map_append, List.mem_append, List.map_singleton, List.mem_singleton] at hj
      rcases hj with hj | rfl
      · exact h.executed j hj
      · exact hk
    exact hnext.move trivial
  | leave hp =>
    have hk := h.place t
    rw [hp] at hk
    exact (h.mutex none).move hk

/-! ### How many threads are left -/

section Count
variable [Fintype τ]

omit [DecidableEq τ] [Fintype τ] in
/-- An entry that makes its thread return stays with that thread. -/
theorem exists_carries_of_deadly (h : Handed d s) (hi : Informed d s) {i : ℕ} (hlt : i < s.pos)
    (hd : d.deadly i = true) : ∃ u, (s.place u).carries = some i := by
  simp only [Directory.deadly, Bool.and_eq_true, Bool.not_eq_true'] at hd
  rcases h.accounted i hlt hd.1 with hm | hu
  · obtain ⟨ho, hout⟩ := hi.executed i hm
    rw [ho, hout] at hd
    exact absurd hd.2 (by decide)
  · exact hu

/-- While a thread has no entry, the others have every deadly entry that was read. -/
theorem deadlyBefore_lt (h : Handed d s) (hi : Informed d s)
    (hp : (s.place t).carries = none) : d.deadlyBefore s.pos < Fintype.card τ := by
  have hsub : ((Finset.range s.pos).filter fun i => d.deadly i = true).image some ⊆
      (Finset.univ.erase t).image fun u => (s.place u).carries := by
    intro o ho
    obtain ⟨i, hm, rfl⟩ := Finset.mem_image.mp ho
    rw [Finset.mem_filter, Finset.mem_range] at hm
    obtain ⟨u, hu⟩ := exists_carries_of_deadly h hi hm.1 hm.2
    have hne : u ≠ t := by
      rintro rfl
      rw [hp] at hu
      cases hu
    exact Finset.mem_image.mpr ⟨u, Finset.mem_erase.mpr ⟨hne, Finset.mem_univ u⟩, hu⟩
  have hcard := (Finset.card_le_card hsub).trans Finset.card_image_le
  rw [Finset.card_image_of_injective _ (Option.some_injective ℕ),
    Finset.card_erase_of_mem (Finset.mem_univ t), Finset.card_univ] at hcard
  have hpos : 0 < Fintype.card τ := Fintype.card_pos_iff.mpr ⟨t⟩
  unfold Directory.deadlyBefore
  omega

omit [DecidableEq τ] in
/-- Threads that have all returned from a file have returned from one each. -/
theorem card_le_deadlyBefore (h : Handed d s) (hi : Informed d s)
    (hall : ∀ u, ∃ i, s.place u = .ended (some i)) :
    Fintype.card τ ≤ d.deadlyBefore s.pos := by
  choose f hf using hall
  rw [← Finset.card_univ]
  refine Finset.card_le_card_of_injOn f (fun u _ => ?_) fun u _ v _ he => ?_
  · have hk := hi.place u
    have hc := h.carried u (f u) (by rw [hf u]; rfl)
    rw [hf u] at hk
    exact Finset.mem_coe.mpr (Finset.mem_filter.mpr ⟨Finset.mem_range.mpr hc.1, hk⟩)
  · refine h.sole u v (f u) (by rw [hf u]; rfl) ?_
    rw [hf v, he]
    rfl

/-- Each entry was read while a thread was left for it. -/
structure Shared (d : Directory) (s : DirState τ) : Prop where
  locked : Locked s
  handed : Handed d s
  informed : Informed d s
  enough : ∀ i < s.pos, d.deadlyBefore i < Fintype.card τ

omit [DecidableEq τ] in
theorem shared_initial (d : Directory) : Shared d (DirState.initial : DirState τ) where
  locked _ := ⟨nofun, nofun⟩
  handed := ⟨nofun, nofun, nofun, nofun, List.nodup_nil⟩
  informed := ⟨fun _ => trivial, nofun⟩
  enough := nofun

theorem Shared.step (h : Shared d s) (hs : Moves d s t s') : Shared d s' := by
  refine ⟨h.locked.step hs, h.handed.step hs, h.informed.step hs, ?_⟩
  cases hs with
  | entry hp hlt =>
    intro i hi
    rcases Nat.lt_succ_iff_lt_or_eq.mp hi with hi | rfl
    · exact h.enough i hi
    · exact deadlyBefore_lt h.handed h.informed (by rw [hp]; rfl)
  | _ => exact h.enough

theorem shared_of_run {as : List τ} (h : Run (stepOf (dirStep d)) .initial as s) : Shared d s :=
  h.invariant (shared_initial d) fun _ _ _ hu hs => hu.step (moves_of_dirStep hs)

/-! ### The end of all threads -/

omit [Fintype τ] in
/-- A thread that has not ended can go on, or waits for one that can. -/
theorem exists_dirStep (h : Locked s) (hall : ¬ ∀ t, (s.place t).isEnded = true) :
    ∃ t s', dirStep d s t = some s' := by
  cases hm : s.dirMutex with
  | some t =>
    have hc := (h t).mpr hm
    refine ⟨t, ?_⟩
    unfold dirStep
    cases hp : s.place t <;> rw [hp] at hc
    case read => dsimp only; split_ifs <;> exact ⟨_, rfl⟩
    case check | unlock | leave => exact ⟨_, rfl⟩
    all_goals cases hc
  | none =>
    obtain ⟨t, ht⟩ := not_forall.mp hall
    have hfree := h t
    rw [hm] at hfree
    refine ⟨t, ?_⟩
    unfold dirStep
    cases hp : s.place t <;> rw [hp] at ht hfree
    case start | relock => exact ⟨_, if_pos hm⟩
    case openFile | openOut | execute => exact ⟨_, rfl⟩
    case ended => exact absurd rfl ht
    all_goals cases hfree.mp rfl

/-- How many steps a thread is from its end, when it finds no further entry. -/
def Place.rank : Place → ℕ
  | .ended _ => 0
  | .leave => 1
  | .read => 2
  | .start | .relock => 3
  | .execute _ => 4
  | .openOut _ => 5
  | .openFile _ => 6
  | .unlock _ => 7
  | .check _ => 8

/-- A bound on the steps that are left. -/
def DirState.remaining (d : Directory) (s : DirState τ) : ℕ :=
  tally (fun _ p => p.rank) s.place + 7 * (d.entries.length - s.pos)

theorem remaining_goto (d : Directory) (s : DirState τ) (t : τ) (p : Place) :
    (s.goto t p).remaining d + (s.place t).rank = s.remaining d + p.rank := by
  have hrank := tally_update (fun (_ : τ) (p : Place) => p.rank) s.place t p
  change tally _ (update s.place t p) + 7 * (d.entries.length - s.pos) + (s.place t).rank =
    tally _ s.place + 7 * (d.entries.length - s.pos) + p.rank
  omega

theorem remaining_lt (hs : Moves d s t s') : s'.remaining d < s.remaining d := by
  have hstay : ∀ (p q : Place), s.place t = p → q.rank < p.rank → ∀ u : DirState τ,
      u.place = s.place → u.pos = s.pos → (u.goto t q).remaining d < s.remaining d := by
    intro p q hp hlt u hplace hpos
    have hu := remaining_goto d u t q
    have hsame : u.remaining d = s.remaining d := by
      rw [DirState.remaining, hplace, hpos]
      rfl
    rw [hplace, hp, hsame] at hu
    omega
  cases hs with
  | lock hp hm =>
    rcases hp with hp | hp <;> exact hstay _ _ hp (by decide) _ rfl rfl
  | entry hp hlt =>
    have hu := remaining_goto d { s with pos := s.pos + 1 } t (.check s.pos)
    have hplace : ({ s with pos := s.pos + 1 } : DirState τ).place t = .read := hp
    have hnext : ({ s with pos := s.pos + 1 } : DirState τ).remaining d + 7 = s.remaining d := by
      change tally _ s.place + 7 * (d.entries.length - (s.pos + 1)) + 7 =
        tally _ s.place + 7 * (d.entries.length - s.pos)
      omega
    rw [hplace] at hu
    change _ + 2 = _ + 8 at hu
    omega
  | exhausted hp | skip hp | pick hp | unlock hp | opened hp | failed hp | created hp | refused hp
  | finish hp | leave hp =>
    exact hstay _ _ hp (by simp [Place.rank]) _ rfl rfl

/-- Every run can be continued until all threads have ended. -/
theorem exists_ended (h : Shared d s) :
    ∃ as s', Run (stepOf (dirStep d)) s as s' ∧ ∀ t, (s'.place t).isEnded = true := by
  induction hn : s.remaining d using Nat.strong_induction_on generalizing s with
  | _ n ih =>
    by_cases hall : ∀ t, (s.place t).isEnded = true
    · exact ⟨[], s, .nil, hall⟩
    · obtain ⟨t, u, hu⟩ := exists_dirStep (d := d) h.locked hall
      have hmoves := moves_of_dirStep hu
      obtain ⟨as, v, hrun, hend⟩ := ih _ (hn ▸ remaining_lt hmoves) (h.step hmoves) rfl
      exact ⟨[t] ++ as, v, (Run.single hu).append hrun, hend⟩

end Count

end Step

/-! ### Runs -/

/-- A job file whose path fits and that can be opened. -/
def Directory.eligible (d : Directory) (i : ℕ) : Bool := d.picks i && d.opens i

/-- The number of times a file was executed. -/
def DirState.executions (s : DirState τ) (i : ℕ) : ℕ := (s.executed.map Prod.snd).count i

/-- In every run the mutex is held for each `readdir` and at no end, and no file is executed
twice. When all threads have ended, each eligible file has been executed once exactly when its
output file can be opened and fewer threads than there are had a file before it that they could
not open. -/
theorem executed_once_iff [Fintype τ] [DecidableEq τ] {d : Directory} {s : DirState τ}
    {as : List τ} (h : Run (stepOf (dirStep d)) .initial as s) :
    (∀ t, (s.place t = .read → s.dirMutex = some t) ∧
        ((s.place t).isEnded = true → s.dirMutex ≠ some t)) ∧
      (∀ i, s.executions i ≤ 1) ∧
      ((∀ t, (s.place t).isEnded = true) →
        ((∀ i, d.eligible i = true → s.executions i = 1) ↔
          ∀ i, d.eligible i = true →
            d.outOpens i = true ∧ d.deadlyBefore i < Fintype.card τ)) := by
  have hsh := shared_of_run h
  have hnodup := List.nodup_iff_count_le_one.mp hsh.handed.nodup
  refine ⟨fun t => ⟨fun hp => ?_, fun hp hm => ?_⟩, hnodup, fun hall => ?_⟩
  · exact (hsh.locked t).mp (by rw [hp]; rfl)
  · have hc := (hsh.locked t).mpr hm
    rw [Place.not_critical_of_isEnded hp] at hc
    cases hc
  · constructor
    · intro hone i hi
      have hm : i ∈ s.executed.map Prod.snd := by
        apply List.count_pos_iff.mp
        have := hone i hi
        unfold DirState.executions at this
        omega
      exact ⟨(hsh.informed.executed i hm).2, hsh.enough i (hsh.handed.executed i hm)⟩
    · intro hcond i hi
      obtain ⟨hout, hbefore⟩ := hcond i hi
      rw [Directory.eligible, Bool.and_eq_true] at hi
      have hread : i < s.pos := by
        by_contra hle
        have hlt : i < d.entries.length := by
          by_contra hge
          simp [Directory.picks, List.getElem?_eq_none (not_lt.mp hge)] at hi
        have hdied : ∀ u, ∃ j, s.place u = .ended (some j) := by
          intro u
          obtain ⟨o, ho⟩ := Place.eq_of_isEnded (hall u)
          cases o with
          | some j => exact ⟨j, ho⟩
          | none =>
            have hend := hsh.informed.place u
            rw [ho] at hend
            exact absurd (lt_of_lt_of_le hlt hend) hle
        have hcard := card_le_deadlyBefore hsh.handed hsh.informed hdied
        have hmono := d.deadlyBefore_mono (not_lt.mp hle)
        omega
      have hm : i ∈ s.executed.map Prod.snd := by
        rcases hsh.handed.accounted i hread hi.1 with hm | ⟨u, hu⟩
        · exact hm
        · obtain ⟨o, ho⟩ := Place.eq_of_isEnded (hall u)
          rw [ho] at hu
          have hdead := hsh.informed.place u
          rw [ho, show o = some i from hu] at hdead
          simp [Place.known, Directory.deadly, hi.1, hi.2, hout] at hdead
      exact Nat.le_antisymm (hnodup i) (List.count_pos_iff.mpr hm)

/-- Two job files, the first of which cannot be opened. -/
def twoJobs : Directory where
  path := .ofBuffer (chars ['d'])
  entries := [⟨.ofBuffer (chars ['a', '.', 'j', 'o', 'b']), false, true⟩,
    ⟨.ofBuffer (chars ['b', '.', 'j', 'o', 'b']), true, true⟩]

/-- The only thread returns at the first file, and the second is not executed. -/
theorem not_executed_once : ∃ s : DirState Unit,
    execute (dirStep twoJobs) .initial (List.replicate 5 ()) = some s ∧
      (∀ t, (s.place t).isEnded = true) ∧ twoJobs.eligible 1 = true ∧ s.executions 1 = 0 :=
  ⟨_, rfl, by decide, by decide, by decide⟩

/-- Of two threads one is left for the second file. -/
theorem executed_once_iff_twoThreads : ∃ s : DirState Bool,
    (∀ t, (s.place t).isEnded = true) ∧ s.executions 1 = 1 := by
  obtain ⟨as, s, hrun, hend⟩ := exists_ended (shared_initial (τ := Bool) twoJobs)
  obtain ⟨-, -, hiff⟩ := executed_once_iff hrun
  have hcond : ∀ i, twoJobs.eligible i = true →
      twoJobs.outOpens i = true ∧ twoJobs.deadlyBefore i < Fintype.card Bool := by
    intro i hi
    match i, hi with
    | 0, hi => cases hi
    | 1, _ => exact ⟨rfl, by decide⟩
  exact ⟨s, hend, (hiff hend).mpr hcond 1 rfl⟩

end IstKvs.Jobs
