import IstKvs.Jobs.Meaning

/-! What a run of the jobs does to one key. Each key goes through the events of the
statements that name it, in the order in which these took effect, and through nothing
else: its value is that of the last event, and its subscribers hear of every event up
to its first deletion. -/

namespace IstKvs.Jobs

open IstKvs.Store IstKvs.Systems Function

/-! ### Events -/

inductive Event
  | set (value : CStr)
  | drop
  deriving DecidableEq

/-- The value and the subscribers of a key that is bound. -/
abbrev View := Option (CStr × List Fd)

def View.subscribers (v : View) : List Fd := (v.map Prod.snd).getD []

def Event.after (v : View) : Event → View
  | .set value => some (value, v.subscribers)
  | .drop => none

def Event.value : Event → Option CStr
  | .set value => some value
  | .drop => none

/-- The value that the subscribers get. -/
def Event.notice : Event → CStr
  | .set value => value
  | .drop => deleteValue

def Event.tells (v : View) (e : Event) : List (Fd × CStr) :=
  v.subscribers.map fun fd => (fd, e.notice)

/-- A key after some events, and what its subscribers were told. -/
def follow (v : View) : List Event → View × List (Fd × CStr)
  | [] => (v, [])
  | e :: es => ((follow (e.after v) es).1, e.tells v ++ (follow (e.after v) es).2)

theorem follow_append (v : View) (es fs : List Event) :
    follow v (es ++ fs) =
      ((follow (follow v es).1 fs).1, (follow v es).2 ++ (follow (follow v es).1 fs).2) := by
  induction es generalizing v with
  | nil => rfl
  | cons e es ih => simp only [List.cons_append, follow, ih, List.append_assoc]

theorem follow_value (v : View) (es : List Event) :
    (follow v es).1.map Prod.fst = (es.getLast?.map Event.value).getD (v.map Prod.fst) := by
  induction es generalizing v with
  | nil => rfl
  | cons e es ih =>
    rw [follow, ih, List.getLast?_cons]
    cases es.getLast? with
    | none => cases e <;> rfl
    | some f => rfl

/-- The values of the events up to the first deletion. -/
def untilDrop : List Event → List CStr
  | [] => []
  | .set value :: es => value :: untilDrop es
  | .drop :: _ => [deleteValue]

theorem follow_unheard {v : View} (hv : v.subscribers = []) (es : List Event) :
    (follow v es).2 = [] := by
  induction es generalizing v with
  | nil => rfl
  | cons e es ih =>
    have hafter : (e.after v).subscribers = [] := by
      cases e with
      | set value => exact hv
      | drop => rfl
    rw [follow, ih hafter, Event.tells, hv]
    rfl

/-- The subscribers of a key at the start hear of it until it is deleted; a key that is
bound again has no subscribers. -/
theorem follow_told (v : View) (es : List Event) :
    (follow v es).2 =
      (untilDrop es).flatMap fun value => v.subscribers.map fun fd => (fd, value) := by
  induction es generalizing v with
  | nil => rfl
  | cons e es ih =>
    cases e with
    | set value =>
      rw [follow, ih, untilDrop, List.flatMap_cons]
      rfl
    | drop =>
      have hnone : (follow (Event.drop.after v) es).2 = [] := follow_unheard rfl es
      simp only [follow, hnone, untilDrop, List.flatMap_singleton, List.append_nil]
      rfl

/-! ### One key of the bindings -/

def view (key : CStr) (bs : Bindings) : View :=
  (find key bs).map fun n => (n.value.toCStr, n.subscribers)

theorem readPair_tableOf (bs : Bindings) {key : CStr} (hk : key.startsAlnum = true) :
    readPair (tableOf bs) key true = .ok ((view key bs).map Prod.fst) := by
  have hvalue : (view key bs).map Prod.fst = (find key bs).map fun n => n.value.toCStr := by
    rw [view, Option.map_map]
    rfl
  rw [@readPair_contents (tableOf bs) (key, true) hk, readResult, if_pos rfl, hvalue,
    contents_tableOf bs hk]
  cases find key bs <;> rfl

/-- What was sent about a key. -/
def told (key : CStr) (sent : List Message) : List (Fd × CStr) :=
  (sent.filter fun m => m.key = key).map fun m => (m.fd, m.value)

theorem told_append (key : CStr) (xs ys : List Message) :
    told key (xs ++ ys) = told key xs ++ told key ys := by
  simp [told]

theorem told_notices (key k value : CStr) (bs : Bindings) :
    told key (notices bs k value) =
      if k = key then (view key bs).subscribers.map fun fd => (fd, value) else [] := by
  have hnotices : notices bs k value = (view k bs).subscribers.map fun fd => ⟨fd, k, value⟩ := by
    rw [notices, view, View.subscribers]
    cases find k bs <;> rfl
  rw [hnotices, told, List.filter_map]
  split_ifs with hk
  · subst hk
    simp [Function.comp_def]
  · simp [Function.comp_def, hk]

theorem view_putPair (key : CStr) (bs : Bindings) (p : Token × Token) :
    view key (putPair bs p) =
      if p.1.toCStr = key then (Event.set p.2.toCStr).after (view key bs) else view key bs := by
  let n : Binding := ⟨p.1, p.2, []⟩
  split_ifs with hk
  · subst hk
    have hfind : find p.1.toCStr (putPair bs p) =
        some (((find p.1.toCStr bs).map (Binding.setValue p.2)).getD n) :=
      Chain.lookup_put_self (n := n) (Binding.name_setValue p.2) bs
    rw [view, hfind, view]
    cases find p.1.toCStr bs <;> rfl
  · have hne : key ≠ n.name := Ne.symm hk
    rw [view, putPair, find, Chain.lookup_put_of_ne (Binding.name_setValue p.2) hne]
    rfl

theorem view_dropKey {bs : Bindings} (hu : Chain.Unique Binding.name bs) (key k : CStr) :
    view key (dropKey bs k) = if k = key then none else view key bs := by
  split_ifs with hk
  · subst hk
    rw [view, dropKey, find, Chain.lookup_unlink_self hu]
    rfl
  · rw [view, dropKey, find, Chain.lookup_unlink_of_ne (Ne.symm hk)]
    rfl

/-! ### Statements -/

/-- What a line does to a key, once for each time that it names it. -/
def Line.events (key : CStr) : Line → List Event
  | .write pairs _ _ => (pairs.filter fun p => p.1.toCStr = key).map fun p => .set p.2.toCStr
  | .delete keys _ _ => (keys.filter fun k => k.toCStr = key).map fun _ => .drop
  | _ => []

/-- Events that are all the same are in any order the same list. -/
theorem eq_of_perm {A : Type*} {xs ys : List A} (h : xs.Perm ys)
    (hsame : ∀ x ∈ xs, ∀ y ∈ xs, x = y) : xs = ys := by
  have hall : ∀ zs : List A, zs.Pairwise fun _ _ => True := fun _ =>
    List.pairwise_of_forall fun _ _ => trivial
  exact List.Perm.eq_of_pairwise (fun x y hx hy _ _ => hsame x hx y (h.mem_iff.mpr hy))
    (hall xs) (hall ys) h

theorem follow_writePairs (key : CStr) (pairs : List (Token × Token))
    (x : Bindings × List Message) :
    (view key (pairs.foldl writeStep x).1, told key (pairs.foldl writeStep x).2) =
      let es := (pairs.filter fun p => p.1.toCStr = key).map fun p => Event.set p.2.toCStr
      ((follow (view key x.1) es).1, told key x.2 ++ (follow (view key x.1) es).2) := by
  induction pairs generalizing x with
  | nil => simp [follow]
  | cons p pairs ih =>
    rw [List.foldl_cons, ih]
    simp only [writeStep, view_putPair, told_append, told_notices]
    by_cases hk : p.1.toCStr = key
    · rw [List.filter_cons_of_pos (by simpa using hk), if_pos hk, if_pos hk, List.map_cons]
      simp only [follow, List.append_assoc]
      rfl
    · rw [List.filter_cons_of_neg (by simpa using hk), if_neg hk, if_neg hk, List.append_nil]

theorem unique_dropKey {bs : Bindings} (hu : Chain.Unique Binding.name bs) (key : CStr) :
    Chain.Unique Binding.name (dropKey bs key) := hu.unlink key

theorem follow_deleteKeys (key : CStr) (keys : List Token) (x : Deletion)
    (hu : Chain.Unique Binding.name x.bindings) :
    Chain.Unique Binding.name (keys.foldl Deletion.step x).bindings ∧
    (view key (keys.foldl Deletion.step x).bindings, told key (keys.foldl Deletion.step x).sent) =
      let es := (keys.filter fun k => k.toCStr = key).map fun _ => Event.drop
      ((follow (view key x.bindings) es).1,
        told key x.sent ++ (follow (view key x.bindings) es).2) := by
  induction keys generalizing x with
  | nil => simpa [follow] using hu
  | cons k keys ih =>
    have hstep : Chain.Unique Binding.name (x.step k).bindings := unique_dropKey hu k.toCStr
    refine ⟨(ih (x.step k) hstep).1, ?_⟩
    rw [List.foldl_cons, (ih (x.step k) hstep).2]
    simp only [Deletion.step, view_dropKey hu, told_append, told_notices]
    by_cases hk : k.toCStr = key
    · rw [List.filter_cons_of_pos (by simpa using hk), if_pos hk, if_pos hk, List.map_cons]
      simp only [follow, List.append_assoc]
      rfl
    · rw [List.filter_cons_of_neg (by simpa using hk), if_neg hk, if_neg hk, List.append_nil]

theorem unique_writePairs (pairs : List (Token × Token)) (x : Bindings × List Message)
    (hu : Chain.Unique Binding.name x.1) :
    Chain.Unique Binding.name (pairs.foldl writeStep x).1 := by
  induction pairs generalizing x with
  | nil => exact hu
  | cons p pairs ih => exact ih _ (hu.put (Binding.name_setValue p.2))

/-- A statement does its events to each key. -/
theorem follow_meaning (st : Statement) {bs : Bindings} (hu : Chain.Unique Binding.name bs)
    (key : CStr) :
    Chain.Unique Binding.name (st.line.meaning bs).store ∧
    (view key (st.line.meaning bs).store, told key (st.line.meaning bs).sent) =
      follow (view key bs) (st.line.events key) := by
  obtain ⟨line, sound⟩ := st
  cases line with
  | write pairs hne hroom =>
    have hsame : ∀ e ∈ (Line.write pairs hne hroom).events key,
        ∀ f ∈ (Line.write pairs hne hroom).events key, e = f := by
      intro e he f hf
      obtain ⟨p, hp, rfl⟩ := List.mem_map.mp he
      obtain ⟨q, hq, rfl⟩ := List.mem_map.mp hf
      simp only [List.mem_filter, decide_eq_true_eq] at hp hq
      rw [sound.2 p hp.1 q hq.1 (hp.2.trans hq.2.symm)]
    have hperm := (((List.mergeSort_perm pairs fun a b =>
      decide (comparePairs (pairStrs a) (pairStrs b) ≤ 0)).filter
        fun p => p.1.toCStr = key).map fun p => Event.set p.2.toCStr).symm
    have hfollow := follow_writePairs key (sortPairs pairs) (bs, [])
    rw [sortPairs, ← eq_of_perm hperm hsame] at hfollow
    exact ⟨unique_writePairs _ _ hu, hfollow⟩
  | delete keys hne hroom =>
    have hsame : ∀ e ∈ (Line.delete keys hne hroom).events key,
        ∀ f ∈ (Line.delete keys hne hroom).events key, e = f := by
      intro e he f hf
      obtain ⟨-, -, rfl⟩ := List.mem_map.mp he
      obtain ⟨-, -, rfl⟩ := List.mem_map.mp hf
      rfl
    have hperm := (((List.mergeSort_perm keys fun a b =>
      decide (compareKeys a.toCStr b.toCStr ≤ 0)).filter
        fun k => k.toCStr = key).map fun _ => Event.drop).symm
    have hfollow := follow_deleteKeys key (sortKeys keys) ⟨bs, [], []⟩ hu
    refine ⟨hfollow.1, ?_⟩
    have hview := hfollow.2
    rw [sortKeys, ← eq_of_perm hperm hsame] at hview
    exact hview
  | read | wait | showAll | backup | help | comment | empty => exact ⟨hu, rfl⟩

/-! ### Runs -/

section Runs
variable {τ : Type*} [DecidableEq τ] {forks : τ → UInt32 → Bool}

/-- The statements of the jobs in the order in which they take effect. -/
def inOrder (programs : τ → List Statement) : List τ → List Statement
  | [] => []
  | t :: turns =>
    match programs t with
    | [] => []
    | st :: rest => st :: inOrder (update programs t rest) turns

/-- What a run does to a key: the events of the statements in their order. -/
def Work.events (w : Work τ (List Statement) Bindings) (turns : List τ) (key : CStr) :
    List Event :=
  (inOrder (fun t => (w.job t).rest) turns).flatMap fun st => st.line.events key

theorem follow_execute {w w' : Work τ (List Statement) Bindings} {turns : List τ}
    (hu : Chain.Unique Binding.name w.store) (h : execute (Work.step forks) w turns = some w')
    (key : CStr) :
    view key w'.store = (follow (view key w.store) (w.events turns key)).1 ∧
      told key w'.sent = told key w.sent ++ (follow (view key w.store) (w.events turns key)).2 := by
  induction turns generalizing w with
  | nil =>
    cases h
    simp [Work.events, inOrder, follow]
  | cons t turns ih =>
    obtain ⟨u, hstep, hrun⟩ := Option.bind_eq_some_iff.mp h
    rw [Work.step] at hstep
    cases hrest : (w.job t).rest with
    | nil => simp [hrest] at hstep
    | cons st rest =>
      simp only [hrest, Option.some.injEq] at hstep
      subst hstep
      obtain ⟨hu', hmeaning⟩ := follow_meaning st hu key
      obtain ⟨hview, htold⟩ := Prod.ext_iff.mp hmeaning
      have hprograms : (fun u => ((w.apply forks t rest (st.line.meaning w.store)).job u).rest) =
          update (fun u => (w.job u).rest) t rest := by
        funext u
        simp only [Work.apply]
        by_cases hut : u = t
        · rw [hut, update_self, update_self]
          rfl
        · rw [update_of_ne hut, update_of_ne hut]
      have hevents : w.events (t :: turns) key = st.line.events key ++
          (w.apply forks t rest (st.line.meaning w.store)).events turns key := by
        rw [Work.events, inOrder, hrest, Work.events, hprograms]
        rfl
      obtain ⟨ihview, ihtold⟩ := ih hu' hrun
      rw [hevents, follow_append, ihview, ihtold]
      simp only [Work.apply, told_append] at hview htold ⊢
      rw [hview, htold, List.append_assoc]
      exact ⟨rfl, rfl⟩

/-- Whatever order the jobs take turns in, a read of a key gives the value of the last
statement that names it, and the old value if there is none. -/
theorem value_of_run {w : Work τ (List Statement) Bindings} {turns : List τ}
    {r : Work τ (List UInt8) HashTable} (hu : Chain.Unique Binding.name w.store)
    (h : Run (Turn forks) w.loaded turns r) {key : CStr} (hk : key.startsAlnum = true) :
    readPair r.store key true = .ok
      (((w.events turns key).getLast?.map Event.value).getD ((view key w.store).map Prod.fst)) := by
  obtain ⟨w', hw, rfl⟩ := run_loaded.mp h
  rw [← follow_value, ← (follow_execute hu hw key).1]
  exact readPair_tableOf w'.store hk

/-! Two jobs on one key, which has one subscriber. -/

theorem isField_a : IsField (chars ['a']) where
  plain := by decide +kernel
  fits := by decide

def tokenA : Token := ⟨.ofBuffer (chars ['a']), isField_a⟩

theorem isField_b : IsField (chars ['b']) where
  plain := by decide +kernel
  fits := by decide

def tokenB : Token := ⟨.ofBuffer (chars ['b']), isField_b⟩

theorem one_lt_maxWriteSize : 1 < maxWriteSize := by decide

theorem startsAlnum_tokenA : tokenA.startsAlnum = true := by decide

/-- `WRITE [(a,value)]` -/
def writeA (value : Token) : Statement where
  line := .write [(tokenA, value)] (List.cons_ne_nil _ _) one_lt_maxWriteSize
  sound := by
    constructor
    · rintro p hp
      rw [List.mem_singleton.mp hp]
      exact startsAlnum_tokenA
    · rintro p hp q hq -
      rw [List.mem_singleton.mp hp, List.mem_singleton.mp hq]

/-- `DELETE [a]` -/
def deleteA : Statement where
  line := .delete [tokenA] (List.cons_ne_nil _ _) one_lt_maxWriteSize
  sound := by
    intro key hkey
    rw [List.mem_singleton.mp hkey]
    exact startsAlnum_tokenA

def twoWriters : Work Bool (List Statement) Bindings where
  store := [⟨tokenA, tokenA, [7]⟩]
  sent := []
  stdout := []
  job t := ⟨if t then [writeA tokenB] else [writeA tokenA, deleteA, writeA tokenA], [], [], 1⟩

theorem unique_twoWriters : Chain.Unique Binding.name twoWriters.store := List.nodup_singleton _

theorem value_of_run_twoWriters : ∃ r,
    Run (Turn fun _ _ => true) twoWriters.loaded [false, true] r ∧
      readPair r.store tokenA.toCStr true = .ok (some tokenB.toCStr) := by
  obtain ⟨w, hw⟩ : ∃ w, execute (Work.step fun _ _ => true) twoWriters [false, true] = some w :=
    ⟨_, rfl⟩
  have hrun : Run (Turn fun _ _ => true) twoWriters.loaded [false, true] w.loaded :=
    run_loaded.mpr ⟨w, hw, rfl⟩
  have hevents : twoWriters.events [false, true] tokenA.toCStr =
      [.set tokenA.toCStr, .set tokenB.toCStr] := by decide
  refine ⟨_, hrun, (value_of_run unique_twoWriters hrun startsAlnum_tokenA).trans ?_⟩
  rw [hevents]
  rfl

/-- Whatever order the jobs take turns in, what is sent about a key is told to its
subscribers at the start, for each statement that names it up to its first deletion. -/
theorem told_of_run {w : Work τ (List Statement) Bindings} {turns : List τ}
    {r : Work τ (List UInt8) HashTable} (hu : Chain.Unique Binding.name w.store)
    (h : Run (Turn forks) w.loaded turns r) (key : CStr) :
    told key r.sent = told key w.sent ++ (untilDrop (w.events turns key)).flatMap fun value =>
      (view key w.store).subscribers.map fun fd => (fd, value) := by
  obtain ⟨w', hw, rfl⟩ := run_loaded.mp h
  have htold := (follow_execute hu hw key).2
  rw [follow_told] at htold
  exact htold

theorem told_of_run_twoWriters : ∃ r,
    Run (Turn fun _ _ => true) twoWriters.loaded [false, true, false, false] r ∧
      told tokenA.toCStr r.sent =
        [(7, tokenA.toCStr), (7, tokenB.toCStr), (7, deleteValue)] := by
  obtain ⟨w, hw⟩ : ∃ w, execute (Work.step fun _ _ => true) twoWriters
      [false, true, false, false] = some w := ⟨_, rfl⟩
  have hrun : Run (Turn fun _ _ => true) twoWriters.loaded [false, true, false, false] w.loaded :=
    run_loaded.mpr ⟨w, hw, rfl⟩
  have hevents : twoWriters.events [false, true, false, false] tokenA.toCStr =
      [.set tokenA.toCStr, .set tokenB.toCStr, .drop, .set tokenA.toCStr] := by decide
  refine ⟨_, hrun, (told_of_run unique_twoWriters hrun tokenA.toCStr).trans ?_⟩
  rw [hevents]
  rfl

end Runs

end IstKvs.Jobs
