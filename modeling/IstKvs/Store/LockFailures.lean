import IstKvs.Store.Operations
import IstKvs.Systems.Run

/-! The commands of a job thread when a lock or unlock call fails. Every function returns at
the first failure without releasing what it holds, and the release of the global lock is
skipped with it, so only a failure of the first call of a command leaves nothing held. -/

namespace IstKvs.Store.LockFailures

open IstKvs.Systems Function

inductive Lock
  | globalHashLock
  | bucket (b : Bucket)
  deriving DecidableEq

/-- What a job thread works on, the locks that it holds and the number of lock and unlock calls
that it has made. -/
structure Thread where
  ht : HashTable
  out : List UInt8
  held : Lock → Bool
  calls : ℕ

/-- The thread holds no lock. -/
def Thread.Free (s : Thread) : Prop := ∀ l, s.held l = false

/-! ### The functions

`fails` says which calls of `pthread_rwlock_rdlock`, `pthread_rwlock_wrlock` and
`pthread_rwlock_unlock` fail, by their number. A result `true` is a status other than 0. -/

section Functions
variable (fails : ℕ → Bool)

/-- A call that fails takes nothing. -/
def rwlockLock (l : Lock) (s : Thread) : Bool × Thread :=
  (fails s.calls, { s with
    held := if fails s.calls then s.held else update s.held l true
    calls := s.calls + 1 })

/-- A call that fails releases nothing. -/
def rwlockUnlock (l : Lock) (s : Thread) : Bool × Thread :=
  (fails s.calls, { s with
    held := if fails s.calls then s.held else update s.held l false
    calls := s.calls + 1 })

/-- The loop of `lock_write_list` and `lock_read_list`. -/
def lockList (indexList : IndexList) :
    List CStr → Thread → Except Fault (Bool × IndexList × Thread)
  | [], s => pure (false, indexList, s)
  | key :: keys, s => do
    let index ← bucketOf key
    if indexList index then lockList indexList keys s
    else
      let r := rwlockLock fails (.bucket index) s
      if r.1 then pure (true, indexList, r.2)
      else lockList (update indexList index true) keys r.2

def lockWriteList (keys : List CStr) (s : Thread) : Except Fault (Bool × IndexList × Thread) :=
  lockList fails (fun _ => false) keys s

def lockReadList (keys : List CStr) (s : Thread) : Except Fault (Bool × IndexList × Thread) :=
  lockList fails (fun _ => false) keys s

/-- The loop of `unlock_list` over the indices that are left. -/
def unlockFrom (indexList : IndexList) : List Bucket → Thread → Bool × Thread
  | [], s => (false, s)
  | i :: is, s =>
    if indexList i then
      let r := rwlockUnlock fails (.bucket i) s
      if r.1 then r else unlockFrom indexList is r.2
    else unlockFrom indexList is s

def unlockList (indexList : IndexList) (s : Thread) : Bool × Thread :=
  unlockFrom fails indexList (List.finRange tableSize) s

/-- A command that has its bucket locks, or not, does its work and releases them. -/
def locked (acquired : Except Fault (Bool × IndexList × Thread))
    (work : Thread → Except Fault Thread) : Except Fault (Bool × Thread) := do
  let a ← acquired
  if a.1 then pure (true, a.2.2)
  else
    let s ← work a.2.2
    pure (unlockList fails a.2.1 s)

def kvsWrite (pairs : List ((CStr × CStr) × WriteMem)) (s : Thread) :
    Except Fault (Bool × Thread) :=
  locked fails (lockWriteList fails (pairs.map fun p => p.1.1) s) fun s => do
    let ht ← writeLoop s.ht pairs
    pure { s with ht := ht }

def kvsRead (keys : List (CStr × Bool)) (s : Thread) : Except Fault (Bool × Thread) :=
  locked fails (lockReadList fails (keys.map Prod.fst) s) fun s => do
    let w ← keys.foldlM (readStep s.ht) ⟨openList, false⟩
    pure { s with out := s.out ++ w.out ++ closeList }

def kvsDelete (keys : List CStr) (s : Thread) : Except Fault (Bool × Thread) :=
  locked fails (lockWriteList fails keys s) fun s => do
    let r ← keys.foldlM deleteStep (s.ht, ⟨[], false⟩)
    pure { s with ht := r.1, out := s.out ++ closeMissing r.2 }

/-- The first loop of `kvs_show` over the indices that are left. -/
def lockFrom : List Bucket → Thread → Bool × Thread
  | [], s => (false, s)
  | i :: is, s =>
    let r := rwlockLock fails (.bucket i) s
    if r.1 then r else lockFrom is r.2

/-- The last loop unlocks every bucket. -/
def kvsShow (s : Thread) : Except Fault (Bool × Thread) :=
  let r := lockFrom fails (List.finRange tableSize) s
  locked fails (.ok (r.1, fun _ => true, r.2)) fun s => do
    let out ← Store.kvsShow s.ht
    pure { s with out := s.out ++ out }

/-- A command with its list in the order in which `qsort` leaves it. -/
inductive Call
  | write (pairs : List ((CStr × CStr) × WriteMem))
  | read (keys : List (CStr × Bool))
  | delete (keys : List CStr)
  | showAll
  deriving DecidableEq

def Call.run (s : Thread) : Call → Except Fault (Bool × Thread)
  | .write pairs => kvsWrite fails pairs s
  | .read keys => kvsRead fails keys s
  | .delete keys => kvsDelete fails keys s
  | .showAll => kvsShow fails s

/-- The condition of `process_thread` for a command: its operands from left to right, up to the
first that is true. -/
def processCommand (s : Thread) (c : Call) : Except Fault Thread :=
  let g := rwlockLock fails .globalHashLock s
  if g.1 then .ok g.2
  else do
    let r ← c.run fails g.2
    if r.1 then pure r.2 else pure (rwlockUnlock fails .globalHashLock r.2).2

end Functions

/-! ### A command in two parts -/

def Call.keys : Call → List CStr
  | .write pairs => pairs.map fun p => p.1.1
  | .read keys => keys.map Prod.fst
  | .delete keys => keys
  | .showAll => []

/-- How a command takes its bucket locks. -/
def Call.acquire (fails : ℕ → Bool) (s : Thread) :
    Call → Except Fault (Bool × IndexList × Thread)
  | .showAll => .ok ((lockFrom fails (List.finRange tableSize) s).1, fun _ => true,
      (lockFrom fails (List.finRange tableSize) s).2)
  | c => lockList fails (fun _ => false) c.keys s

/-- What a command does to the table and prints when every call succeeds. -/
def Call.effect (ht : HashTable) : Call → Except Fault (HashTable × List UInt8)
  | .write pairs => (Store.kvsWrite ht pairs).map fun ht' => (ht', [])
  | .read keys => (Store.kvsRead ht keys).map fun out => (ht, out)
  | .delete keys => Store.kvsDelete ht keys
  | .showAll => (Store.kvsShow ht).map fun out => (ht, out)

/-- What a command does while it has its locks. -/
def Call.work (s : Thread) : Call → Except Fault Thread
  | .write pairs => do
    let ht ← writeLoop s.ht pairs
    pure { s with ht := ht }
  | .read keys => do
    let w ← keys.foldlM (readStep s.ht) ⟨openList, false⟩
    pure { s with out := s.out ++ w.out ++ closeList }
  | .delete keys => do
    let r ← keys.foldlM deleteStep (s.ht, ⟨[], false⟩)
    pure { s with ht := r.1, out := s.out ++ closeMissing r.2 }
  | .showAll => do
    let out ← Store.kvsShow s.ht
    pure { s with out := s.out ++ out }

theorem Call.run_eq (fails : ℕ → Bool) (s : Thread) (c : Call) :
    c.run fails s = locked fails (c.acquire fails s) fun u => c.work u := by
  cases c <;> rfl

/-- On keys with a bucket the work is that of the command without locks. -/
theorem Call.work_eq {c : Call} (hk : ∀ key ∈ c.keys, key.startsAlnum = true) (s : Thread) :
    c.work s = (c.effect s.ht).map fun r => { s with ht := r.1, out := s.out ++ r.2 } := by
  cases c with
  | write pairs =>
    rw [work, effect, kvsWrite_eq_loop (List.forall_mem_map.mp hk)]
    cases writeLoop s.ht pairs with
    | error e => rfl
    | ok ht => simp [Except.map, bind, Except.bind, pure, Except.pure]
  | read keys =>
    rw [work, effect, kvsRead_eq_loop (List.forall_mem_map.mp hk)]
    cases keys.foldlM (readStep s.ht) ⟨openList, false⟩ with
    | error e => rfl
    | ok w => simp [Except.map, bind, Except.bind, pure, Except.pure]
  | delete keys =>
    change ∀ key ∈ keys, _ at hk
    rw [work, effect, kvsDelete_eq_loop hk]
    cases keys.foldlM deleteStep (s.ht, ⟨[], false⟩) <;> rfl
  | showAll =>
    rw [work, effect]
    cases Store.kvsShow s.ht <;> rfl

/-! ### Calls that do not fail -/

/-- None of the next `n` calls fails. -/
def Quiet (fails : ℕ → Bool) (calls n : ℕ) : Prop := ∀ k < n, fails (calls + k) = false

instance (fails : ℕ → Bool) (calls n : ℕ) : Decidable (Quiet fails calls n) :=
  inferInstanceAs (Decidable (∀ k < n, _))

theorem quiet_zero (fails : ℕ → Bool) (calls : ℕ) : Quiet fails calls 0 := by
  intro k hk
  omega

theorem quiet_succ {fails : ℕ → Bool} {calls n : ℕ} :
    Quiet fails calls (n + 1) ↔ fails calls = false ∧ Quiet fails (calls + 1) n := by
  unfold Quiet
  rw [Nat.forall_lt_succ_left]
  simp only [Nat.add_zero, Nat.add_assoc, Nat.add_comm 1]

theorem quiet_add {fails : ℕ → Bool} {calls m n : ℕ} :
    Quiet fails calls (m + n) ↔ Quiet fails calls m ∧ Quiet fails (calls + m) n := by
  induction m generalizing calls with
  | zero => simp [quiet_zero]
  | succ m ih =>
    rw [show m + 1 + n = m + n + 1 by omega, quiet_succ, quiet_succ, ih, and_assoc,
      show calls + 1 + m = calls + (m + 1) by omega]

/-- The number of marked buckets. -/
def marked (indexList : IndexList) : ℕ := (Finset.univ.filter fun b => indexList b = true).card

theorem marked_update {indexList : IndexList} {b : Bucket} (h : indexList b = false) :
    marked (update indexList b true) = marked indexList + 1 := by
  have hset : (Finset.univ.filter fun c => update indexList b true c = true) =
      insert b (Finset.univ.filter fun c => indexList c = true) := by
    ext c
    by_cases hc : c = b
    · simp [hc]
    · simp [hc]
  rw [marked, hset, Finset.card_insert_of_notMem (by simp [h])]
  rfl

theorem length_filter_finRange (indexList : IndexList) :
    ((List.finRange tableSize).filter indexList).length = marked indexList := by
  rw [← List.toFinset_card_of_nodup ((List.nodup_finRange _).filter _)]
  congr 1
  ext b
  simp

/-! ### What each function leaves held -/

/-- What a function that takes the locks of some buckets leaves after it. -/
structure Acquires (fails : ℕ → Bool) (s : Thread) (n : ℕ) (buckets : IndexList)
    (a : Bool × IndexList × Thread) : Prop where
  global : a.2.2.held .globalHashLock = s.held .globalHashLock
  status : a.1 = false ↔ Quiet fails s.calls n
  taken : a.1 = false → a.2.1 = buckets ∧ (∀ b, a.2.2.held (.bucket b) = buckets b) ∧
    a.2.2.calls = s.calls + n

/-- The marks after a list of keys. -/
def marks (indexList : IndexList) (keys : List CStr) : IndexList :=
  fun b => indexList b || decide (∃ key ∈ keys, bucketOf key = .ok b)

theorem marks_cons (indexList : IndexList) {key : CStr} {b : Bucket} (hb : bucketOf key = .ok b)
    (keys : List CStr) :
    marks indexList (key :: keys) = marks (update indexList b true) keys := by
  funext c
  by_cases hc : c = b
  · subst hc
    simp [marks, hb]
  · have hne : b ≠ c := Ne.symm hc
    simp [marks, hb, hc, hne]

section Functions
variable {fails : ℕ → Bool} {s : Thread}

theorem rwlockLock_held (l : Lock) (h : fails s.calls = false) :
    (rwlockLock fails l s).2.held = update s.held l true := by
  simp [rwlockLock, h]

theorem rwlockUnlock_held (l : Lock) (h : fails s.calls = false) :
    (rwlockUnlock fails l s).2.held = update s.held l false := by
  simp [rwlockUnlock, h]

/-- A call that fails is the end. -/
theorem not_quiet_succ {calls n : ℕ} (h : fails calls = true) : ¬ Quiet fails calls (n + 1) := by
  rw [quiet_succ, h]
  simp

/-- The bucket of the next key is marked, or its lock cannot be taken, or the loop goes on with
it. -/
theorem lockList_cons {indexList : IndexList} {key : CStr} {keys : List CStr}
    {a : Bool × IndexList × Thread} (h : lockList fails indexList (key :: keys) s = .ok a) :
    ∃ b, bucketOf key = .ok b ∧ ((indexList b = true ∧ lockList fails indexList keys s = .ok a) ∨
      (indexList b = false ∧ fails s.calls = true ∧
        a = (true, indexList, (rwlockLock fails (.bucket b) s).2)) ∨
      (indexList b = false ∧ fails s.calls = false ∧
        lockList fails (update indexList b true) keys (rwlockLock fails (.bucket b) s).2 =
          .ok a)) := by
  obtain ⟨b, hb, h⟩ := ok_of_bind h
  refine ⟨b, hb, ?_⟩
  change (if indexList b = true then _ else if fails s.calls = true then _ else _) = _ at h
  split_ifs at h with hm hf
  · exact .inl ⟨hm, h⟩
  · exact .inr (.inl ⟨by simpa using hm, hf, (Except.ok.inj h).symm⟩)
  · exact .inr (.inr ⟨by simpa using hm, by simpa using hf, h⟩)

theorem lockList_spec {indexList : IndexList} {keys : List CStr}
    {a : Bool × IndexList × Thread} (h : lockList fails indexList keys s = .ok a)
    (hs : ∀ b, s.held (.bucket b) = indexList b) :
    ∃ n, marked (marks indexList keys) = marked indexList + n ∧
      Acquires fails s n (marks indexList keys) a := by
  induction keys generalizing indexList s with
  | nil =>
    obtain rfl := Except.ok.inj h
    have hmarks : marks indexList [] = indexList := by
      funext b
      simp [marks]
    rw [hmarks]
    exact ⟨0, rfl, rfl, iff_of_true rfl (quiet_zero fails s.calls), fun _ => ⟨rfl, hs, rfl⟩⟩
  | cons key keys ih =>
    obtain ⟨b, hb, ⟨hm, h⟩ | ⟨hm, hf, rfl⟩ | ⟨hm, hf, h⟩⟩ := lockList_cons h
    · have hupdate : update indexList b true = indexList := by
        rw [← hm, update_eq_self]
      rw [marks_cons indexList hb, hupdate]
      exact ih h hs
    · -- the loop stops with the locks that it has
      have hle : marked (update indexList b true) ≤
          marked (marks (update indexList b true) keys) := by
        refine Finset.card_le_card fun c hc => ?_
        simp only [Finset.mem_filter, Finset.mem_univ, true_and] at hc ⊢
        simp [marks, hc]
      have hcount := marked_update hm
      obtain ⟨n, hn⟩ := Nat.exists_eq_add_of_le hle
      rw [marks_cons indexList hb]
      refine ⟨n + 1, by omega, ?_, iff_of_false (by simp) (not_quiet_succ hf), by simp⟩
      simp [rwlockLock, hf]
    · have hheld := rwlockLock_held (.bucket b) hf
      have hcount := marked_update hm
      obtain ⟨n, hn, hspec⟩ := ih h fun c => by
        rw [hheld]
        by_cases hc : c = b
        · simp [hc]
        · simp [hc, hs]
      rw [marks_cons indexList hb]
      refine ⟨n + 1, by omega, ?_, ?_, fun h0 => ?_⟩
      · rw [hspec.global, hheld]
        simp
      · rw [hspec.status, quiet_succ]
        simp [hf, rwlockLock]
      · obtain ⟨hil, htaken, hcalls⟩ := hspec.taken h0
        refine ⟨hil, htaken, ?_⟩
        rw [hcalls]
        simp only [rwlockLock]
        omega

theorem lockFrom_spec (is : List Bucket) :
    (lockFrom fails is s).2.held .globalHashLock = s.held .globalHashLock ∧
      ((lockFrom fails is s).1 = false ↔ Quiet fails s.calls is.length) ∧
      ((lockFrom fails is s).1 = false → (∀ b, (lockFrom fails is s).2.held (.bucket b) =
        (decide (b ∈ is) || s.held (.bucket b))) ∧
        (lockFrom fails is s).2.calls = s.calls + is.length) := by
  induction is generalizing s with
  | nil => simp [lockFrom, quiet_zero]
  | cons i is ih =>
    rw [lockFrom]
    by_cases hf : fails s.calls = true
    · rw [if_pos (show (rwlockLock fails (.bucket i) s).1 = true from hf)]
      refine ⟨by simp [rwlockLock, hf], iff_of_false (by simp [rwlockLock, hf])
        (not_quiet_succ hf), by simp [rwlockLock, hf]⟩
    · rw [Bool.not_eq_true] at hf
      rw [if_neg (show ¬ (rwlockLock fails (.bucket i) s).1 = true by simp [rwlockLock, hf])]
      obtain ⟨hglobal, hstatus, htaken⟩ := ih (s := (rwlockLock fails (.bucket i) s).2)
      have hheld := rwlockLock_held (.bucket i) hf
      refine ⟨by simp [hglobal, hheld], ?_, fun h0 => ⟨fun b => ?_, ?_⟩⟩
      · rw [hstatus, List.length_cons, quiet_succ]
        simp [hf, rwlockLock]
      · rw [(htaken h0).1 b, hheld]
        by_cases hb : b = i
        · simp [hb]
        · simp [hb]
      · rw [(htaken h0).2]
        simp only [rwlockLock, List.length_cons]
        omega

theorem unlockFrom_spec (indexList : IndexList) (is : List Bucket) :
    (unlockFrom fails indexList is s).2.held .globalHashLock = s.held .globalHashLock ∧
      ((unlockFrom fails indexList is s).1 = false ↔
        Quiet fails s.calls (is.filter indexList).length) ∧
      ((unlockFrom fails indexList is s).1 = false →
        (∀ b, (unlockFrom fails indexList is s).2.held (.bucket b) =
          (s.held (.bucket b) && !(decide (b ∈ is) && indexList b))) ∧
        (unlockFrom fails indexList is s).2.calls = s.calls + (is.filter indexList).length) := by
  induction is generalizing s with
  | nil => simp [unlockFrom, quiet_zero]
  | cons i is ih =>
    rw [unlockFrom]
    by_cases hi : indexList i = true
    · rw [if_pos hi, List.filter_cons_of_pos hi]
      by_cases hf : fails s.calls = true
      · rw [if_pos (show (rwlockUnlock fails (.bucket i) s).1 = true from hf)]
        refine ⟨by simp [rwlockUnlock, hf], iff_of_false (by simp [rwlockUnlock, hf])
          (not_quiet_succ hf), by simp [rwlockUnlock, hf]⟩
      · rw [Bool.not_eq_true] at hf
        rw [if_neg (show ¬ (rwlockUnlock fails (.bucket i) s).1 = true by simp [rwlockUnlock, hf])]
        obtain ⟨hglobal, hstatus, htaken⟩ := ih (s := (rwlockUnlock fails (.bucket i) s).2)
        have hheld := rwlockUnlock_held (.bucket i) hf
        refine ⟨by simp [hglobal, hheld], ?_, fun h0 => ⟨fun b => ?_, ?_⟩⟩
        · rw [hstatus, List.length_cons, quiet_succ]
          simp [hf, rwlockUnlock]
        · rw [(htaken h0).1 b, hheld]
          by_cases hb : b = i
          · simp [hb, hi]
          · simp [hb]
        · rw [(htaken h0).2]
          simp only [rwlockUnlock, List.length_cons]
          omega
    · rw [if_neg hi, List.filter_cons_of_neg hi]
      obtain ⟨hglobal, hstatus, htaken⟩ := ih (s := s)
      refine ⟨hglobal, hstatus, fun h0 => ⟨fun b => ?_, (htaken h0).2⟩⟩
      rw [(htaken h0).1 b]
      by_cases hb : b = i
      · simp [hb, hi]
      · simp [hb]

/-- The loops of locks leave table and output, and a loop that ends has only keys with a bucket. -/
theorem lockList_keeps {indexList : IndexList} {keys : List CStr}
    {a : Bool × IndexList × Thread} (h : lockList fails indexList keys s = .ok a) :
    a.2.2.ht = s.ht ∧ a.2.2.out = s.out ∧
      (a.1 = false → ∀ key ∈ keys, key.startsAlnum = true) := by
  induction keys generalizing indexList s with
  | nil =>
    obtain rfl := Except.ok.inj h
    exact ⟨rfl, rfl, by simp⟩
  | cons key keys ih =>
    obtain ⟨b, hb, ⟨-, h⟩ | ⟨-, -, rfl⟩ | ⟨-, -, h⟩⟩ := lockList_cons h
    · obtain ⟨hht, hout, hvalid⟩ := ih h
      exact ⟨hht, hout, fun h0 =>
        List.forall_mem_cons.mpr ⟨bucketOf_eq_ok_iff.mp ⟨b, hb⟩, hvalid h0⟩⟩
    · exact ⟨rfl, rfl, by simp⟩
    · obtain ⟨hht, hout, hvalid⟩ := ih h
      exact ⟨hht, hout, fun h0 =>
        List.forall_mem_cons.mpr ⟨bucketOf_eq_ok_iff.mp ⟨b, hb⟩, hvalid h0⟩⟩

theorem lockFrom_keeps (is : List Bucket) :
    (lockFrom fails is s).2.ht = s.ht ∧ (lockFrom fails is s).2.out = s.out := by
  induction is generalizing s with
  | nil => exact ⟨rfl, rfl⟩
  | cons i is ih =>
    rw [lockFrom]
    split_ifs
    · exact ⟨rfl, rfl⟩
    · exact ih

theorem unlockFrom_keeps (indexList : IndexList) (is : List Bucket) :
    (unlockFrom fails indexList is s).2.ht = s.ht ∧
      (unlockFrom fails indexList is s).2.out = s.out := by
  induction is generalizing s with
  | nil => exact ⟨rfl, rfl⟩
  | cons i is ih =>
    rw [unlockFrom]
    by_cases hi : indexList i = true
    · rw [if_pos hi]
      dsimp only
      split_ifs
      · exact ⟨rfl, rfl⟩
      · exact ih
    · rw [if_neg hi]
      exact ih

theorem acquire_keeps {c : Call} {a : Bool × IndexList × Thread}
    (h : c.acquire fails s = .ok a) :
    a.2.2.ht = s.ht ∧ a.2.2.out = s.out ∧
      (a.1 = false → ∀ key ∈ c.keys, key.startsAlnum = true) := by
  cases c with
  | write | read | delete => exact lockList_keeps h
  | showAll =>
    obtain rfl := Except.ok.inj h
    obtain ⟨hht, hout⟩ := @lockFrom_keeps fails s (List.finRange tableSize)
    exact ⟨hht, hout, by simp [Call.keys]⟩

/-- What a command leaves that takes and releases the locks of `n` buckets. -/
structure Releases (fails : ℕ → Bool) (s : Thread) (n : ℕ) (r : Bool × Thread) : Prop where
  global : r.2.held .globalHashLock = s.held .globalHashLock
  status : r.1 = false ↔ Quiet fails s.calls (n + n)
  released : r.1 = false → (∀ b, r.2.held (.bucket b) = false) ∧ r.2.calls = s.calls + (n + n)

/-- A call returns at once without its locks, or it does its work and releases them. -/
theorem locked_cases {acquired : Except Fault (Bool × IndexList × Thread)}
    {work : Thread → Except Fault Thread} {r : Bool × Thread}
    (h : locked fails acquired work = .ok r) :
    ∃ a, acquired = .ok a ∧ ((a.1 = true ∧ r = (true, a.2.2)) ∨
      (a.1 = false ∧ ∃ v, work a.2.2 = .ok v ∧ r = unlockList fails a.2.1 v)) := by
  obtain ⟨a, ha, h⟩ := ok_of_bind h
  refine ⟨a, ha, ?_⟩
  split_ifs at h with hfail
  · exact .inl ⟨hfail, (Except.ok.inj h).symm⟩
  · obtain ⟨v, hv, h⟩ := ok_of_bind h
    exact .inr ⟨by simpa using hfail, v, hv, (Except.ok.inj h).symm⟩

theorem locked_spec {acquired : Except Fault (Bool × IndexList × Thread)} {n : ℕ}
    {buckets : IndexList} (ha : ∀ a, acquired = .ok a → Acquires fails s n buckets a)
    (hn : marked buckets = n) {work : Thread → Except Fault Thread}
    (hwork : ∀ a v, acquired = .ok a → a.1 = false → work a.2.2 = .ok v →
      v.held = a.2.2.held ∧ v.calls = a.2.2.calls) {r : Bool × Thread}
    (h : locked fails acquired work = .ok r) : Releases fails s n r := by
  obtain ⟨a, hacq, ⟨hfail, rfl⟩ | ⟨h0, v, hv, rfl⟩⟩ := locked_cases h
  · have hspec := ha a hacq
    have hnot : ¬ Quiet fails s.calls (n + n) := fun hq => by
      simp [hspec.status.mpr (quiet_add.mp hq).1] at hfail
    exact ⟨hspec.global, iff_of_false (by simp) hnot, by simp⟩
  · have hspec := ha a hacq
    obtain ⟨hil, htaken, hcalls⟩ := hspec.taken h0
    obtain ⟨hheld, hvcalls⟩ := hwork a v hacq h0 hv
    obtain ⟨hglobal, hstatus, hreleased⟩ :=
      @unlockFrom_spec fails v a.2.1 (List.finRange tableSize)
    rw [length_filter_finRange, hil, hn, hvcalls, hcalls] at hstatus hreleased
    refine ⟨?_, ?_, fun hr0 => ⟨fun b => ?_, ?_⟩⟩
    · rw [unlockList, hglobal, hheld, hspec.global]
    · rw [unlockList, hil, hstatus, quiet_add]
      exact (and_iff_right (hspec.status.mp h0)).symm
    · rw [unlockList, hil] at hr0 ⊢
      rw [(hreleased hr0).1 b, hheld, htaken b]
      simp
    · rw [unlockList, hil] at hr0 ⊢
      rw [(hreleased hr0).2]
      omega

/-- The buckets of a command: those of its keys, all of them for SHOW. -/
def Call.buckets : Call → IndexList
  | .write pairs => marks (fun _ => false) (pairs.map fun p => p.1.1)
  | .read keys => marks (fun _ => false) (keys.map Prod.fst)
  | .delete keys => marks (fun _ => false) keys
  | .showAll => fun _ => true

theorem marked_none : marked (fun _ => false) = 0 := by
  simp [marked]

theorem acquire_spec {c : Call} (hs : ∀ b, s.held (.bucket b) = false)
    {a : Bool × IndexList × Thread} (h : c.acquire fails s = .ok a) :
    Acquires fails s (marked c.buckets) c.buckets a := by
  have hkeys : ∀ keys, lockList fails (fun _ => false) keys s = .ok a →
      Acquires fails s (marked (marks (fun _ => false) keys)) (marks (fun _ => false) keys) a := by
    intro keys hl
    obtain ⟨n, hn, hspec⟩ := lockList_spec hl hs
    rw [marked_none, Nat.zero_add] at hn
    exact hn ▸ hspec
  cases c with
  | write | read | delete => exact hkeys _ h
  | showAll =>
    obtain rfl := Except.ok.inj h
    obtain ⟨hglobal, hstatus, htaken⟩ := @lockFrom_spec fails s (List.finRange tableSize)
    have hall : marked Call.showAll.buckets = (List.finRange tableSize).length := by
      rw [← length_filter_finRange]
      simp [Call.buckets]
    rw [hall]
    exact ⟨hglobal, hstatus, fun h0 => ⟨rfl, fun b => by simp [(htaken h0).1 b, Call.buckets],
      (htaken h0).2⟩⟩

theorem run_spec {c : Call} (hs : ∀ b, s.held (.bucket b) = false) {r : Bool × Thread}
    (h : c.run fails s = .ok r) : Releases fails s (marked c.buckets) r := by
  rw [Call.run_eq] at h
  refine locked_spec (fun a ha => acquire_spec hs ha) rfl (fun a v ha h0 hv => ?_) h
  obtain ⟨-, -, hvalid⟩ := acquire_keeps ha
  rw [Call.work_eq (hvalid h0)] at hv
  obtain ⟨x, -, rfl⟩ := ok_of_map hv
  exact ⟨rfl, rfl⟩

/-- The lock and unlock calls of a command that meets no failure. -/
def Call.lockCalls (c : Call) : ℕ := 2 * marked c.buckets + 2

/-- The first call of the command fails, or none of its calls does. -/
def Spared (fails : ℕ → Bool) (s : Thread) (c : Call) : Prop :=
  fails s.calls = true ∨ Quiet fails s.calls c.lockCalls

/-- The calls of a command: the global lock, those of its buckets, and the global lock again. -/
theorem spared_iff {c : Call} (hf : fails s.calls = false) :
    Spared fails s c ↔
      Quiet fails (s.calls + 1) (marked c.buckets + marked c.buckets) ∧
        fails (s.calls + 1 + (marked c.buckets + marked c.buckets)) = false := by
  have hlast : ∀ k, Quiet fails k 1 ↔ fails k = false := by
    intro k
    simp [quiet_succ, quiet_zero]
  rw [Spared, or_iff_right (by simp [hf]), Call.lockCalls,
    show 2 * marked c.buckets + 2 = marked c.buckets + marked c.buckets + 1 + 1 by omega,
    quiet_succ, and_iff_right hf, quiet_add, hlast]

theorem free_iff {t : Thread} {c : Call} (hs : s.Free) (h : processCommand fails s c = .ok t) :
    t.Free ↔ Spared fails s c := by
  rw [processCommand] at h
  split_ifs at h with hfirst
  · -- nothing was taken
    have hf : fails s.calls = true := hfirst
    obtain rfl := Except.ok.inj h
    refine iff_of_true (fun l => ?_) (.inl hf)
    simp [rwlockLock, hf, hs l]
  · have hf : fails s.calls = false := by simpa [rwlockLock] using hfirst
    have hheld := rwlockLock_held .globalHashLock hf
    obtain ⟨r, hr, h⟩ := ok_of_bind h
    have hspec := run_spec (fun b => by simpa [hheld] using hs (.bucket b)) hr
    have hglobal : r.2.held .globalHashLock = true := by
      rw [hspec.global, hheld]
      simp
    have hstatus := hspec.status
    change _ ↔ Quiet fails (s.calls + 1) _ at hstatus
    rw [spared_iff hf, ← hstatus]
    split_ifs at h with hfail
    · -- the global lock is not released
      obtain rfl := Except.ok.inj h
      refine iff_of_false (fun hfree => ?_) (by simp [hfail])
      rw [hfree .globalHashLock] at hglobal
      cases hglobal
    · obtain rfl := Except.ok.inj h
      have h0 : r.1 = false := by simpa using hfail
      obtain ⟨hbuckets, hcalls⟩ := hspec.released h0
      change r.2.calls = s.calls + 1 + _ at hcalls
      rw [and_iff_right h0, ← hcalls]
      cases hlast : fails r.2.calls with
      | true =>
        refine iff_of_false (fun hfree => ?_) (by simp)
        have hheld' := hfree .globalHashLock
        simp [rwlockUnlock, hlast, hglobal] at hheld'
      | false =>
        refine iff_of_true (fun l => ?_) rfl
        rw [rwlockUnlock_held .globalHashLock hlast]
        cases l with
        | globalHashLock => simp
        | bucket b => simp [hbuckets b]

/-- In a run of commands that each meet the condition the thread holds nothing between them, and
after one more command it holds nothing exactly when that meets the condition, too. -/
theorem nothing_held_iff {ht : HashTable} {out : List UInt8} {n : ℕ} {cs : List Call} {s t : Thread}
    {c : Call} (hrun : Run (guarded (Spared fails) fun s c t => processCommand fails s c = .ok t)
      ⟨ht, out, fun _ => false, n⟩ cs s)
    (h : processCommand fails s c = .ok t) : t.Free ↔ Spared fails s c := by
  have hfree : s.Free := hrun.invariant (fun _ => rfl) fun u c v hu hstep =>
    (free_iff hu hstep.2).mpr hstep.1
  exact free_iff hfree h

/-! ### Commands without a failure -/

/-- A call that returns 0 has done its work between its locks and their release. -/
theorem work_of_locked {acquired : Except Fault (Bool × IndexList × Thread)}
    {work : Thread → Except Fault Thread} {r : Bool × Thread}
    (h : locked fails acquired work = .ok r) (h0 : r.1 = false) :
    ∃ a v, acquired = .ok a ∧ a.1 = false ∧ work a.2.2 = .ok v ∧ r.2.ht = v.ht ∧
      r.2.out = v.out := by
  obtain ⟨a, hacq, ⟨-, rfl⟩ | ⟨ha0, v, hv, rfl⟩⟩ := locked_cases h
  · cases h0
  · obtain ⟨hht, hout⟩ := @unlockFrom_keeps fails v a.2.1 (List.finRange tableSize)
    exact ⟨a, v, hacq, ha0, hv, hht, hout⟩

/-- A command that returns 0 has done what the command without failing locks does. -/
theorem effect_of_run {c : Call} {r : Bool × Thread} (h : c.run fails s = .ok r)
    (h0 : r.1 = false) : ∃ out, c.effect s.ht = .ok (r.2.ht, out) ∧ r.2.out = s.out ++ out := by
  rw [Call.run_eq] at h
  obtain ⟨a, v, ha, ha0, hv, hht, hout⟩ := work_of_locked h h0
  obtain ⟨haht, haout, hvalid⟩ := acquire_keeps ha
  rw [Call.work_eq (hvalid ha0)] at hv
  obtain ⟨⟨ht, out⟩, he, rfl⟩ := ok_of_map hv
  refine ⟨out, ?_, ?_⟩
  · rw [← haht, he, hht]
  · rw [hout, haout]

end Functions

/-- A write of one pair whose bucket lock cannot be taken. -/
def oneWrite : Call := .write [((.ofBuffer (chars ['a']), .ofBuffer (chars ['1'])), .ok)]

/-- The global lock stays with the thread. -/
theorem not_nothing_held : ∃ t,
    processCommand (fun k => decide (k = 1)) ⟨createHashTable, [], fun _ => false, 0⟩ oneWrite =
      .ok t ∧ t.held .globalHashLock = true := by
  refine ⟨_, rfl, ?_⟩
  decide

/-- A read of two keys, in two buckets. -/
def twoReads : Call := .read [(.ofBuffer (chars ['a']), true), (.ofBuffer (chars ['b']), true)]

/-- After a write none of the six calls of the read fails; the seventh would. -/
theorem nothing_held_iff_twoReads : ∃ s t,
    processCommand (fun k => decide (k = 10)) ⟨createHashTable, [], fun _ => false, 0⟩ oneWrite =
      .ok s ∧
    processCommand (fun k => decide (k = 10)) s twoReads = .ok t ∧ t.Free := by
  obtain ⟨s, hs⟩ : ∃ s, processCommand (fun k => decide (k = 10))
      ⟨createHashTable, [], fun _ => false, 0⟩ oneWrite = .ok s := ⟨_, rfl⟩
  obtain ⟨t, ht⟩ : ∃ t, processCommand (fun k => decide (k = 10)) s twoReads = .ok t := by
    cases hs
    exact ⟨_, rfl⟩
  refine ⟨s, t, hs, ht, (nothing_held_iff (.single ⟨.inr (by decide), hs⟩) ht).mpr (.inr ?_)⟩
  cases hs
  decide

end IstKvs.Store.LockFailures
