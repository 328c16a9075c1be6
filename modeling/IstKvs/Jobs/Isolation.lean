import IstKvs.Jobs.KeyEvents

/-! A job does not notice the others as long as they write none of the keys that it names.
What it writes to its output file and to its keys is what it would have written alone, at
any point of any interleaving; only SHOW and BACKUP look at other keys. -/

namespace IstKvs.Jobs

open IstKvs.Store IstKvs.Systems Function

/-! ### The keys of a line -/

def Line.keys : Line → List CStr
  | .write pairs _ _ => pairs.map fun p => p.1.toCStr
  | .read keys _ _ | .delete keys _ _ => keys.map Token.toCStr
  | _ => []

def Line.written : Line → List CStr
  | .write pairs _ _ => pairs.map fun p => p.1.toCStr
  | .delete keys _ _ => keys.map Token.toCStr
  | _ => []

/-- The line looks at no keys but its own. -/
def Line.keyed : Line → Bool
  | .showAll | .backup => false
  | _ => true

theorem Statement.startsAlnum (st : Statement) {key : CStr} (h : key ∈ st.line.keys) :
    key.startsAlnum = true := by
  obtain ⟨line, sound⟩ := st
  cases line with
  | write pairs hne hroom =>
    obtain ⟨p, hp, rfl⟩ := List.mem_map.mp h
    exact sound.1 p hp
  | read keys hne hroom | delete keys hne hroom =>
    obtain ⟨k, hk, rfl⟩ := List.mem_map.mp h
    exact sound k hk
  | wait | showAll | backup | help | comment | empty => exact absurd h List.not_mem_nil

/-- A key that a line does not write goes through no event. -/
theorem Line.events_eq_nil {l : Line} {key : CStr} (h : key ∉ l.written) : l.events key = [] := by
  cases l with
  | write pairs hne hroom =>
    rw [Line.events, List.map_eq_nil_iff, List.filter_eq_nil_iff]
    intro p hp hkey
    exact h (List.mem_map.mpr ⟨p, hp, of_decide_eq_true hkey⟩)
  | delete keys hne hroom =>
    rw [Line.events, List.map_eq_nil_iff, List.filter_eq_nil_iff]
    intro k hk hkey
    exact h (List.mem_map.mpr ⟨k, hk, of_decide_eq_true hkey⟩)
  | read | wait | showAll | backup | help | comment | empty => rfl

/-! ### What a line prints -/

section Prints
variable {bs bs' : Bindings}

theorem readKey_congr {key : Token} (h : view key.toCStr bs = view key.toCStr bs') :
    readKey bs key = readKey bs' key := by
  have hvalue : ∀ bs : Bindings, (find key.toCStr bs).map (fun n => n.value.bytes) =
      (view key.toCStr bs).map fun v => v.1.bytes := by
    intro bs
    rw [view, Option.map_map]
    rfl
  rw [readKey, readKey, hvalue, hvalue, h]

theorem isSome_find (key : CStr) (bs : Bindings) :
    (find key bs).isSome = (view key bs).isSome := by
  rw [view, Option.isSome_map]

/-- Two deletions of keys that are bound alike miss the same ones. -/
theorem missing_congr (keys : List Token) {x x' : Deletion}
    (hu : Chain.Unique Binding.name x.bindings) (hu' : Chain.Unique Binding.name x'.bindings)
    (hview : ∀ key ∈ keys, view key.toCStr x.bindings = view key.toCStr x'.bindings)
    (hmissing : x.missing = x'.missing) :
    (keys.foldl Deletion.step x).missing = (keys.foldl Deletion.step x').missing := by
  induction keys generalizing x x' with
  | nil => exact hmissing
  | cons key keys ih =>
    refine ih (unique_dropKey hu key.toCStr) (unique_dropKey hu' key.toCStr) (fun k hk => ?_) ?_
    · simp only [Deletion.step]
      rw [view_dropKey hu, view_dropKey hu', hview k (List.mem_cons_of_mem _ hk)]
    · simp only [Deletion.step]
      rw [isSome_find, isSome_find, hview key List.mem_cons_self, hmissing]

/-- A line that looks at its own keys alone prints the same where these are bound alike. -/
theorem out_congr {l : Line} (hl : l.keyed = true) (hu : Chain.Unique Binding.name bs)
    (hu' : Chain.Unique Binding.name bs') (hview : ∀ key ∈ l.keys, view key bs = view key bs') :
    (l.meaning bs).out = (l.meaning bs').out := by
  have hkeys : ∀ keys : List Token, (∀ key ∈ keys.map Token.toCStr, view key bs = view key bs') →
      ∀ key ∈ sortKeys keys, view key.toCStr bs = view key.toCStr bs' :=
    fun keys h key hk => h _ (List.mem_map_of_mem (mem_sortKeys.mp hk))
  cases l with
  | read keys hne hroom =>
    have hread : (sortKeys keys).flatMap (readKey bs) = (sortKeys keys).flatMap (readKey bs') :=
      List.flatMap_congr fun key hk => readKey_congr (hkeys keys hview key hk)
    simp only [Line.meaning, hread]
  | delete keys hne hroom =>
    have hmissing : (deleteKeys bs (sortKeys keys)).missing =
        (deleteKeys bs' (sortKeys keys)).missing :=
      missing_congr (sortKeys keys) hu hu' (hkeys keys hview) rfl
    simp only [Line.meaning, hmissing]
  | showAll | backup => cases hl
  | write | wait | help | comment | empty => rfl

theorem backup_of_keyed {l : Line} (hl : l.keyed = true) (bs : Bindings) :
    (l.meaning bs).backup = none := by
  cases l with
  | showAll | backup => cases hl
  | write | read | delete | wait | help | comment | empty => rfl

end Prints

/-! ### One job among others -/

section Turns
variable {τ : Type*} [DecidableEq τ] {forks : τ → UInt32 → Bool} {t : τ} {K : CStr → Prop}

/-- Two states that job `t` cannot tell apart; its keys are among those of `K`, and no other job
writes one of these. -/
structure Alike (t : τ) (K : CStr → Prop) (w w' : Work τ (List Statement) Bindings) : Prop where
  job : w.job t = w'.job t
  view : ∀ key, K key → view key w.store = view key w'.store
  unique : Chain.Unique Binding.name w.store
  unique' : Chain.Unique Binding.name w'.store
  own : ∀ st ∈ (w.job t).rest, st.line.keyed = true ∧ ∀ key ∈ st.line.keys, K key
  others : ∀ u ≠ t, ∀ st ∈ (w.job u).rest, ∀ key ∈ st.line.written, ¬ K key

/-- A step is the first statement of its job. -/
theorem Work.step_cases {w v : Work τ (List Statement) Bindings} {u : τ}
    (h : w.step forks u = some v) :
    ∃ st rest, (w.job u).rest = st :: rest ∧
      v = w.apply forks u rest (st.line.meaning w.store) := by
  rw [Work.step] at h
  cases hrest : (w.job u).rest with
  | nil => simp [hrest] at h
  | cons st rest =>
    simp only [hrest, Option.some.injEq] at h
    exact ⟨st, rest, rfl, h.symm⟩

theorem unique_meaning (st : Statement) {bs : Bindings} (hu : Chain.Unique Binding.name bs) :
    Chain.Unique Binding.name (st.line.meaning bs).store :=
  (follow_meaning st hu deleteValue).1

theorem view_meaning (st : Statement) {bs : Bindings} (hu : Chain.Unique Binding.name bs)
    (key : CStr) :
    view key (st.line.meaning bs).store = (follow (view key bs) (st.line.events key)).1 :=
  congrArg Prod.fst (follow_meaning st hu key).2

/-- What the others have left after a step are statements that they had before. -/
theorem mem_rest_apply {w : Work τ (List Statement) Bindings} {u v : τ} {st : Statement}
    {rest : List Statement} (hrest : (w.job u).rest = st :: rest) (e : Effect Bindings)
    {st' : Statement} (h : st' ∈ ((w.apply forks u rest e).job v).rest) :
    st' ∈ (w.job v).rest := by
  simp only [Work.apply] at h
  by_cases hv : v = u
  · subst hv
    rw [update_self] at h
    rw [hrest]
    exact List.mem_cons_of_mem _ h
  · rwa [update_of_ne hv] at h

theorem unwinding_alike : Unwinding (Work.step forks) (fun u => decide (u ≠ t)) (Alike t K) where
  respects := by
    intro w w' v u h hu hstep
    rw [decide_eq_true_eq] at hu
    obtain ⟨st, rest, hrest, rfl⟩ := Work.step_cases hstep
    have hst : st ∈ (w.job u).rest := hrest ▸ List.mem_cons_self
    have hjob : ((w.apply forks u rest (st.line.meaning w.store)).job t) = w.job t :=
      update_of_ne (Ne.symm hu) _ _
    refine ⟨hjob.trans h.job, fun key hkey => ?_, unique_meaning st h.unique,
      h.unique', ?_, fun v hv st' hst' => h.others v hv st' (mem_rest_apply hrest _ hst')⟩
    · have hnot : key ∉ st.line.written := fun hm => h.others u hu st hst key hm hkey
      rw [← h.view key hkey]
      refine (view_meaning st h.unique key).trans ?_
      rw [Line.events_eq_nil hnot]
      rfl
    · rw [hjob]
      exact h.own
  consistent := by
    intro w w' v u h hu hstep
    rw [decide_eq_false_iff_not, not_not] at hu
    subst hu
    obtain ⟨st, rest, hrest, rfl⟩ := Work.step_cases hstep
    have hst : st ∈ (w.job u).rest := hrest ▸ List.mem_cons_self
    obtain ⟨hkeyed, hkeys⟩ := h.own st hst
    have hstep' : w'.step forks u =
        some (w'.apply forks u rest (st.line.meaning w'.store)) := by
      rw [Work.step, ← h.job, hrest]
    have hout : (st.line.meaning w.store).out = (st.line.meaning w'.store).out :=
      out_congr hkeyed h.unique h.unique' fun key hkey => h.view key (hkeys key hkey)
    have hjob : (w.job u).apply (forks u) rest (st.line.meaning w.store) =
        (w'.job u).apply (forks u) rest (st.line.meaning w'.store) := by
      rw [← h.job, Job.apply, Job.apply, hout, backup_of_keyed hkeyed, backup_of_keyed hkeyed]
    refine ⟨_, hstep', ?_, fun key hkey => ?_, unique_meaning st h.unique,
      unique_meaning st h.unique', fun st' hst' => ?_,
      fun v hv st' hst' => h.others v hv st' (mem_rest_apply hrest _ hst')⟩
    · simp only [Work.apply, update_self]
      exact hjob
    · refine (view_meaning st h.unique key).trans ?_
      rw [h.view key hkey]
      exact (view_meaning st h.unique' key).symm
    · exact h.own st' (mem_rest_apply hrest _ hst')

theorem Line.written_subset (l : Line) : l.written ⊆ l.keys := by
  cases l with
  | write | delete => exact List.Subset.refl _
  | read | wait | showAll | backup | help | comment | empty => exact List.nil_subset _

theorem mem_of_mem_inOrder {programs : τ → List Statement} {turns : List τ} {st : Statement}
    (h : st ∈ inOrder programs turns) : ∃ u, st ∈ programs u := by
  induction turns generalizing programs with
  | nil => cases h
  | cons u turns ih =>
    rw [inOrder] at h
    cases hu : programs u with
    | nil => simp [hu] at h
    | cons st' rest =>
      simp only [hu, List.mem_cons] at h
      rcases h with rfl | h
      · exact ⟨u, hu ▸ List.mem_cons_self⟩
      · obtain ⟨v, hv⟩ := ih h
        by_cases hvu : v = u
        · subst hvu
          rw [update_self] at hv
          exact ⟨v, hu ▸ List.mem_cons_of_mem _ hv⟩
        · rw [update_of_ne hvu] at hv
          exact ⟨v, hv⟩

/-- A key that no job writes stays as it is. -/
theorem view_of_unwritten {w v : Work τ (List Statement) Bindings} {turns : List τ}
    (hu : Chain.Unique Binding.name w.store) (hv : execute (Work.step forks) w turns = some v)
    {key : CStr} (hkey : ∀ u, ∀ st ∈ (w.job u).rest, key ∉ st.line.written) :
    view key v.store = view key w.store := by
  have hevents : w.events turns key = [] := by
    rw [Work.events, List.flatMap_eq_nil_iff]
    intro st hst
    obtain ⟨u, hst⟩ := mem_of_mem_inOrder hst
    exact Line.events_eq_nil (hkey u st hst)
  rw [(follow_execute hu hv key).1, hevents]
  rfl

/-- What a job that no other disturbs does in any interleaving it does alone. -/
theorem exists_alone {w v : Work τ (List Statement) Bindings} {turns : List τ}
    (hu : Chain.Unique Binding.name w.store) (hv : execute (Work.step forks) w turns = some v)
    (hkeyed : ∀ st ∈ (w.job t).rest, st.line.keyed = true)
    (hdisjoint : ∀ u ≠ t, ∀ st ∈ (w.job u).rest, ∀ st' ∈ (w.job t).rest,
      List.Disjoint st.line.written st'.line.keys) :
    ∃ v', execute (Work.step forks) w (List.replicate (turns.count t) t) = some v' ∧
      Alike t (fun key => ∃ st ∈ (w.job t).rest, key ∈ st.line.keys) v v' := by
  have hstart : Alike t (fun key => ∃ st ∈ (w.job t).rest, key ∈ st.line.keys) w w := by
    refine ⟨rfl, fun _ _ => rfl, hu, hu, fun st hst => ⟨hkeyed st hst, fun key hkey =>
      ⟨st, hst, hkey⟩⟩, fun u hut st hst key hkey => ?_⟩
    rintro ⟨st', hst', hkey'⟩
    exact hdisjoint u hut st hst st' hst' hkey hkey'
  have hpurged : (turns.filter fun u => !decide (u ≠ t)) = List.replicate (turns.count t) t := by
    rw [← List.filter_eq]
    exact List.filter_congr fun u _ => by simp
  rw [← hpurged]
  exact unwinding_alike.purge hstart hv

/-- A job whose keys no other job writes, and that does not look at the whole table, does in
any interleaving what it does alone: its file, its output and the values of its keys are the
same after as many turns. -/
theorem isolated_of_run {w : Work τ (List Statement) Bindings} {turns : List τ}
    {r : Work τ (List UInt8) HashTable} (hu : Chain.Unique Binding.name w.store)
    (h : Run (Turn forks) w.loaded turns r)
    (hkeyed : ∀ st ∈ (w.job t).rest, st.line.keyed = true)
    (hdisjoint : ∀ u ≠ t, ∀ st ∈ (w.job u).rest, ∀ st' ∈ (w.job t).rest,
      List.Disjoint st.line.written st'.line.keys) :
    ∃ r', Run (Turn forks) w.loaded (List.replicate (turns.count t) t) r' ∧
      r.job t = r'.job t ∧ ∀ st ∈ (w.job t).rest, ∀ key ∈ st.line.keys,
        readPair r.store key true = readPair r'.store key true := by
  obtain ⟨v, hv, rfl⟩ := run_loaded.mp h
  obtain ⟨v', hv', halike⟩ := exists_alone hu hv hkeyed hdisjoint
  refine ⟨v'.loaded, run_loaded.mpr ⟨v', hv', rfl⟩, ?_, fun st hst key hkey => ?_⟩
  · simp only [Work.loaded, halike.job]
  · have hstart := st.startsAlnum hkey
    have hread : readPair (tableOf v.store) key true = readPair (tableOf v'.store) key true := by
      rw [readPair_tableOf v.store hstart, readPair_tableOf v'.store hstart,
        halike.view key ⟨st, hst, hkey⟩]
    exact hread

/-- `WRITE [(b,a)]` -/
def writeB : Statement where
  line := .write [(tokenB, tokenA)] (List.cons_ne_nil _ _) one_lt_maxWriteSize
  sound := by
    constructor
    · rintro p hp
      rw [List.mem_singleton.mp hp]
      decide
    · rintro p hp q hq -
      rw [List.mem_singleton.mp hp, List.mem_singleton.mp hq]

/-- One job writes and deletes `a` while the other writes `b`. -/
def twoKeys : Work Bool (List Statement) Bindings where
  store := []
  sent := []
  stdout := []
  job t := ⟨if t then [writeA tokenB, deleteA, deleteA] else [writeB, writeB], [], [], 1⟩

theorem isolated_of_run_twoKeys : ∃ r r',
    Run (Turn fun _ _ => true) twoKeys.loaded [false, true, true, false, true] r ∧
    Run (Turn fun _ _ => true) twoKeys.loaded [true, true, true] r' ∧
    r.job true = r'.job true := by
  obtain ⟨w, hw⟩ : ∃ w, execute (Work.step fun _ _ => true) twoKeys
      [false, true, true, false, true] = some w := ⟨_, rfl⟩
  have hrun : Run (Turn fun _ _ => true) twoKeys.loaded [false, true, true, false, true] w.loaded :=
    run_loaded.mpr ⟨w, hw, rfl⟩
  have hdisjoint : ∀ u ≠ true, ∀ st ∈ (twoKeys.job u).rest, ∀ st' ∈ (twoKeys.job true).rest,
      List.Disjoint st.line.written st'.line.keys := by
    intro u hu st hst st' hst' key hkey hkey'
    obtain rfl := Bool.eq_false_of_not_eq_true hu
    have hb : key = tokenB.toCStr := by
      have hwrite : st = writeB := by simpa [twoKeys] using hst
      rw [hwrite] at hkey
      exact List.mem_singleton.mp hkey
    have ha : key = tokenA.toCStr := by
      have hown : st' = writeA tokenB ∨ st' = deleteA := by simpa [twoKeys] using hst'
      rcases hown with rfl | rfl <;> exact List.mem_singleton.mp hkey'
    exact absurd (ha.symm.trans hb) (by decide)
  have hkeyed : ∀ st ∈ (twoKeys.job true).rest, st.line.keyed = true := by
    intro st hst
    have hown : st = writeA tokenB ∨ st = deleteA := by simpa [twoKeys] using hst
    rcases hown with rfl | rfl <;> rfl
  have hunique : Chain.Unique Binding.name twoKeys.store := List.nodup_nil
  obtain ⟨r', hr', hjob, -⟩ := isolated_of_run hunique hrun hkeyed hdisjoint
  exact ⟨_, r', hrun, hr', hjob⟩

end Turns

end IstKvs.Jobs
