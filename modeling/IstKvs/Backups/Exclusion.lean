import IstKvs.Sessions.Requests
import IstKvs.Store.Order
import IstKvs.Store.Serial
import IstKvs.Systems.Progress

/-! The locks of the server that are held across other steps: `globalHashLock`, which
the commands of job threads share and BACKUP holds alone, and the bucket locks. Every
call is a two-phase call over both, so `fork` finds the table of a serial execution of
whole commands, and the locks taken in ascending order leave no deadlock. -/

namespace IstKvs.Backups

open IstKvs.Store IstKvs.Sessions IstKvs.Systems IstKvs.Systems.TwoPhase Function

/-! ### Locks and calls -/

inductive Lock
  | globalHashLock
  | bucketLock (b : Bucket)
  deriving DecidableEq

/-- What each lock guards by itself: a bucket its chain, `globalHashLock` nothing. -/
def Lock.chain (ht : HashTable) : Lock → List KeyNode
  | globalHashLock => []
  | bucketLock b => ht b

/-- The table in the cells under the bucket locks. -/
def contents (cells : Lock → List KeyNode) : HashTable := fun b => cells (.bucketLock b)

abbrev LockCall := Call Lock (List KeyNode) Local

/-- The access of a command to its bucket. -/
def onBucket (a : Access Bucket (List KeyNode) Local) : Access Lock (List KeyNode) Local where
  cell := .bucketLock a.cell
  mode := a.mode
  exec := a.exec
  readOnly := a.readOnly

/-- `kvs_write`, `kvs_read`, `kvs_delete` or `kvs_show` between the lock and the unlock of
`globalHashLock` in `process_thread`. -/
def sharedCall (call : Call Bucket (List KeyNode) Local) : LockCall where
  acquires := (.globalHashLock, .read) :: call.acquires.map fun x => (.bucketLock x.1, x.2)
  accesses := call.accesses.map onBucket
  releases := call.releases.map .bucketLock ++ [.globalHashLock]
  start := call.start
  finish := call.finish
  covered := by
    intro a ha
    obtain ⟨a', ha', rfl⟩ := List.mem_map.mp ha
    obtain ⟨m, hm, hw⟩ := call.covered a' ha'
    exact ⟨m, List.mem_cons_of_mem _ (List.mem_map.mpr ⟨_, hm, rfl⟩), hw⟩

/-- The second critical section of BACKUP, after that of the counter. `fork` comes when the
lock is held, and accesses no bucket of the parent. -/
def backupCall : LockCall where
  acquires := [(.globalHashLock, .write)]
  accesses := []
  releases := [.globalHashLock]
  start := .ok ⟨[], false⟩
  finish := id
  covered := by simp

/-- The loop of `kvs_subscribe` or `kvs_aux_unsubscribe` under the bucket lock. -/
def bucketCall (b : Bucket) (exec : List KeyNode → List KeyNode) : LockCall where
  acquires := [(.bucketLock b, .write)]
  accesses := [⟨.bucketLock b, .write, fun chain l => (exec chain, l), nofun⟩]
  releases := [.bucketLock b]
  start := .ok ⟨[], false⟩
  finish := id
  covered := by simp

/-- A request with an invalid key is answered without any lock. -/
def refusedCall : LockCall where
  acquires := []
  accesses := []
  releases := []
  start := .ok ⟨[], false⟩
  finish := id
  covered := by simp

/-- The commands of a job file that lock. -/
inductive JobCommand
  | table (c : Command)
  | backup
  deriving DecidableEq

inductive JobPlan : JobCommand → LockCall → Prop
  | table {c : Command} {call : Call Bucket (List KeyNode) Local} (h : Plan c call) :
      JobPlan (.table c) (sharedCall call)
  | backup : JobPlan .backup backupCall

/-- A command of a job file that locks, with the course of one on the table. -/
inductive JobCourse
  | table (o : Course)
  | backup

def JobCourse.table? : JobCourse → Option Course
  | table o => some o
  | backup => none

def JobCourse.command : JobCourse → JobCommand
  | table o => .table o.command
  | backup => .backup

inductive JobCourse.Plan : JobCourse → LockCall → Prop
  | table {o : Course} {call : Call Bucket (List KeyNode) Local} (h : o.Plan call) :
      Plan (.table o) (sharedCall call)
  | backup : Plan .backup backupCall

theorem JobCourse.Plan.jobPlan {o : JobCourse} {call : LockCall} (h : o.Plan call) :
    JobPlan o.command call := by
  cases h with
  | table h => exact .table h.plan
  | backup => exact .backup

/-- What a job thread or a client thread may be asked to do. -/
inductive ThreadCommand
  | job (c : JobCommand)
  | subscribe (key : CStr) (fdNotif : Fd)
  | unsubscribe (key : CStr) (fdNotif : Fd)
  deriving DecidableEq

def ThreadCommand.keys : ThreadCommand → List CStr
  | job (.table c) => c.keys
  | job .backup => []
  | subscribe key _ | unsubscribe key _ => [key]

inductive ThreadPlan : ThreadCommand → LockCall → Prop
  | job {c : JobCommand} {call : LockCall} (h : JobPlan c call) : ThreadPlan (.job c) call
  | refuseSubscribe {key : CStr} {fdNotif : Fd} (h : refused key = true) :
      ThreadPlan (.subscribe key fdNotif) refusedCall
  | subscribe {key : CStr} {fdNotif : Fd} (mem : Bool) (h : refused key = false) {b : Bucket}
      (hb : bucketOf key = .ok b) : ThreadPlan (.subscribe key fdNotif)
        (bucketCall b fun chain => (subscribeChain chain key fdNotif mem).chain)
  | refuseUnsubscribe {key : CStr} {fdNotif : Fd} (h : refused key = true) :
      ThreadPlan (.unsubscribe key fdNotif) refusedCall
  | unsubscribe {key : CStr} {fdNotif : Fd} (h : refused key = false) {b : Bucket}
      (hb : bucketOf key = .ok b) : ThreadPlan (.unsubscribe key fdNotif)
        (bucketCall b fun chain => (unsubscribeChain chain key fdNotif).1)

/-! ### Releases -/

theorem releasesAll_of_plan {c : Command} {call : Call Bucket (List KeyNode) Local}
    (h : Plan c call) : call.ReleasesAll := by
  intro x hx
  cases h with
  | write sorted hq r h | read sorted hq r h | delete sorted hq r h =>
    obtain ⟨b, hb, rfl⟩ := List.mem_map.mp hx
    exact mem_unlockList h hb
  | showAll =>
    obtain ⟨b, -, rfl⟩ := List.mem_map.mp hx
    exact List.mem_finRange b

theorem releasesAll_sharedCall {call : Call Bucket (List KeyNode) Local}
    (h : call.ReleasesAll) : (sharedCall call).ReleasesAll := by
  intro x hx
  simp only [sharedCall, List.mem_append, List.mem_singleton]
  rcases List.mem_cons.mp hx with rfl | hx
  · exact .inr rfl
  · obtain ⟨y, hy, rfl⟩ := List.mem_map.mp hx
    exact .inl (List.mem_map.mpr ⟨y.1, h y hy, rfl⟩)

theorem releasesAll_of_jobPlan {c : JobCommand} {call : LockCall} (h : JobPlan c call) :
    call.ReleasesAll := by
  cases h with
  | table h => exact releasesAll_sharedCall (releasesAll_of_plan h)
  | backup => simp [Call.ReleasesAll, backupCall]

theorem releasesAll_of_threadPlan {c : ThreadCommand} {call : LockCall} (h : ThreadPlan c call) :
    call.ReleasesAll := by
  cases h with
  | job h => exact releasesAll_of_jobPlan h
  | refuseSubscribe | refuseUnsubscribe => simp [Call.ReleasesAll, refusedCall]
  | subscribe | unsubscribe => simp [Call.ReleasesAll, bucketCall]

/-! ### Backups see whole commands -/

/-- The accesses of a command work on the buckets as they do without `globalHashLock`. -/
theorem runAll_onBucket (as : List (Access Bucket (List KeyNode) Local))
    (cells : Lock → List KeyNode) (l : Local) :
    contents (runAll (as.map onBucket) (cells, l)).1 = (runAll as (contents cells, l)).1 ∧
      (runAll (as.map onBucket) (cells, l)).2 = (runAll as (contents cells, l)).2 := by
  induction as generalizing cells l with
  | nil => exact ⟨rfl, rfl⟩
  | cons a as ih =>
    have hstep : contents ((onBucket a).apply (cells, l)).1 = (a.apply (contents cells, l)).1 := by
      funext b
      by_cases hb : b = a.cell
      · subst hb
        simp [contents, Access.apply, onBucket]
      · simp [contents, Access.apply, onBucket, hb]
    have hrest := ih ((onBucket a).apply (cells, l)).1 ((onBucket a).apply (cells, l)).2
    rw [hstep] at hrest
    exact hrest

section Backup
variable {τ : Type*}

/-- Planned calls one after another are their commands, BACKUP leaving the table alone. -/
theorem serial_of_plans (ht : HashTable) (order : List (τ × JobCourse × LockCall))
    (h : ∀ o ∈ order, o.2.1.Plan o.2.2) :
    ∃ outs, Serial ht (order.filterMap fun o => o.2.1.table?.map fun c => (o.1, c)) outs
      (contents (serial order (Lock.chain ht)).1) := by
  induction order using List.reverseRecOn with
  | nil => exact ⟨[], .nil⟩
  | append_singleton order o ih =>
    obtain ⟨outs, hserial⟩ := ih fun o ho => h o (List.mem_append_left _ ho)
    have hplan := h o (by simp)
    obtain ⟨t, c, call⟩ := o
    rw [serial_snoc, List.filterMap_append, serialStep]
    cases hplan with
    | table hplan =>
      obtain ⟨hcells, -⟩ := runAll_onBucket _ (serial order (Lock.chain ht)).1 _
      have hexec := hplan.exec (contents (serial order (Lock.chain ht)).1)
      have hnext := hserial.snoc (t := t) hexec
      rw [← hcells] at hnext
      exact ⟨_, hnext⟩
    | backup =>
      refine ⟨outs, ?_⟩
      simpa [JobCourse.table?, backupCall] using hserial

variable [DecidableEq τ] {P : τ → List JobCourse} {ht : HashTable} {ts : List τ}
  {s : TwoPhase.State τ Lock (List KeyNode) Local JobCourse} {t : τ}

theorem ofThread_table? (order : List (τ × JobCourse × LockCall)) (t : τ) :
    ofThread t (order.filterMap fun o => o.2.1.table?.map fun c => (o.1, c)) =
      ((ofThread t order).map Prod.fst).filterMap JobCourse.table? := by
  induction order using List.reverseRecOn with
  | nil => rfl
  | append_singleton order o ih =>
    obtain ⟨u, c, call⟩ := o
    rw [List.filterMap_append, ofThread_append, ofThread_append, List.map_append,
      List.filterMap_append, ih]
    by_cases hu : u = t <;> cases c <;> simp [ofThread, hu, JobCourse.table?]

/-- The thread holds `globalHashLock` alone and calls `fork` next. -/
def Forking (s : TwoPhase.State τ Lock (List KeyNode) Local JobCourse) (t : τ) : Prop :=
  ∃ l, s.phase t = .working backupCall [] l

/-- Every call of a job thread that is past its last lock holds `globalHashLock`. -/
theorem holds_globalHashLock {order : List (τ × JobCourse × LockCall)}
    {cells : Lock → List KeyNode} (hinv : Inv JobCourse.Plan cells P s order)
    (hhold : Holding JobCourse.Plan s) {call : LockCall}
    {todo : List (Access Lock (List KeyNode) Local)} {l : Local}
    (hp : s.phase t = .working call todo l) : s.held t .globalHashLock ≠ none := by
  obtain ⟨hheld, -⟩ := hinv.locked t call todo l hp
  obtain ⟨c, hplan⟩ := hhold.planned t call (by rw [hp]; rfl)
  cases hplan with
  | table h =>
    have := hheld (.globalHashLock, .read) List.mem_cons_self
    simp [this]
  | backup =>
    have := hheld (.globalHashLock, .write) List.mem_cons_self
    simp [this]

/-- When a BACKUP calls `fork`, no other thread is at work on the table, and the table is that
of a serial execution of whole commands: of each thread those that it began so far. -/
theorem fork_serial (hrun : Run (Step JobCourse.Plan) (initial (Lock.chain ht) P) ts s)
    (hfork : Forking s t) :
    (∀ u, u ≠ t → ∀ call todo l, s.phase u ≠ .working call todo l) ∧
      ∃ order outs, Serial ht order outs (contents s.table) ∧
        ∀ u, ∃ later, (P u).filterMap JobCourse.table? = ofThread u order ++ later := by
  obtain ⟨order, hinv⟩ := exists_inv hrun
  have hhold := Holding.of_run (fun _ _ h => releasesAll_of_jobPlan h.jobPlan) hrun
  obtain ⟨l, hp⟩ := hfork
  have hglobal : s.held t .globalHashLock = some .write :=
    (hinv.locked t _ _ _ hp).1 _ List.mem_cons_self
  have halone : ∀ u, u ≠ t → ∀ call todo l, s.phase u ≠ .working call todo l := by
    intro u hu call todo l hpu
    exact holds_globalHashLock hinv hhold hpu (hinv.exclusive t u _ hu.symm hglobal)
  have htable : contents (serial order (Lock.chain ht)).1 = contents s.table := by
    funext b
    by_cases hw : Writes s t (.bucketLock b)
    · exact hinv.owned t _ _ _ _ hp hw.2
    · refine hinv.free _ fun u hwu => ?_
      by_cases hu : u = t
      · subst hu
        exact hw hwu
      · obtain ⟨⟨call, todo, l', hpu⟩, -⟩ := hwu
        exact halone u hu call todo l' hpu
  obtain ⟨outs, hserial⟩ := serial_of_plans ht order hinv.planned
  rw [htable] at hserial
  refine ⟨halone, _, outs, hserial, fun u => ⟨(unstarted s u).filterMap JobCourse.table?, ?_⟩⟩
  rw [ofThread_table?, ← List.filterMap_append, hinv.programs u]

end Backup

/-- Two pairs in the order of their keys, with every allocation succeeding. -/
def twoPairs : List ((CStr × CStr) × WriteMem) :=
  [((.ofBuffer (chars ['a']), .ofBuffer (chars ['1'])), .ok),
    ((.ofBuffer (chars ['b']), .ofBuffer (chars ['2'])), .ok)]

/-- One thread writes two pairs, the other makes a backup. -/
def writeAndBackup : Bool → List JobCourse
  | true => [.table (.write (twoPairs.map Prod.fst) twoPairs ⟨.refl _, by decide⟩)]
  | false => [.backup]

theorem fork_serial_writeAndBackup :
    ∃ ts, ∃ s : TwoPhase.State Bool Lock (List KeyNode) Local JobCourse,
      Run (Step JobCourse.Plan) (initial (Lock.chain createHashTable) writeAndBackup) ts s ∧
      Forking s false ∧ (contents s.table 0).length = 1 ∧ (contents s.table 1).length = 1 ∧
      (∀ u, u ≠ false → ∀ call todo l, s.phase u ≠ .working call todo l) ∧
      ∃ order outs, Serial createHashTable order outs (contents s.table) ∧
        ∀ u, ∃ later,
          (writeAndBackup u).filterMap JobCourse.table? = ofThread u order ++ later := by
  have hw := JobCourse.Plan.table (@Course.Plan.write _ twoPairs ⟨.refl _, by decide⟩ _
    (lockList_pair (show bucketOf ⟨chars ['a'], by decide⟩ = .ok 0 by rfl)
      (show bucketOf ⟨chars ['b'], by decide⟩ = .ok 1 by rfl) (by decide)))
  have hrun :
      Run (Step JobCourse.Plan) (initial (Lock.chain createHashTable) writeAndBackup) [] _ := .nil
  -- the writer has its first lock when BACKUP begins, and keeps it waiting
  have h₁ := ((hrun.snoc (.begin (t := true) rfl rfl hw)).snoc
    (.acquire (t := true) rfl (by intro t; cases t <;> decide))).snoc
    (.begin (t := false) rfl rfl .backup)
  have h₂ := ((h₁.snoc (.acquire (t := true) rfl (by intro t; cases t <;> rfl))).snoc
    (.acquire (t := true) rfl (by intro t; cases t <;> rfl))).snoc (.lockPoint (t := true) rfl)
  have h₃ := ((h₂.snoc (.access (t := true) rfl)).snoc (.access (t := true) rfl)).snoc
    (.shrink (t := true) rfl)
  have h₄ := ((h₃.snoc (.release (t := true) rfl)).snoc (.release (t := true) rfl)).snoc
    (.release (t := true) rfl)
  have h₅ := (h₄.snoc (.acquire (t := false) rfl (by intro t; cases t <;> rfl))).snoc
    (.lockPoint (t := false) rfl)
  exact ⟨_, _, h₅, ⟨_, rfl⟩, rfl, rfl, fork_serial h₅ ⟨_, rfl⟩⟩

/-! ### No deadlock -/

/-- The order in which every call takes its locks. -/
def Lock.rank : Lock → ℕ
  | globalHashLock => 0
  | bucketLock b => b.val + 1

theorem Lock.rank_lt (x : Lock) : x.rank < tableSize + 1 := by
  cases x with
  | globalHashLock => exact Nat.succ_pos _
  | bucketLock b => exact Nat.succ_lt_succ b.isLt

/-- The locks of a sorted list of keys come in ascending order. -/
theorem ascending_lockList {keys : List CStr} {r : List Bucket × IndexList}
    (h : lockList (fun _ => false) keys = .ok r)
    (hsorted : keys.Pairwise fun a b => compareKeys a b ≤ 0)
    (hlower : ∀ key ∈ keys, key.startsLower = true) (m : Mode) :
    (r.1.map fun b => (b, m)).Pairwise fun x y => x.1 < y.1 :=
  List.pairwise_map.mpr (lockList_ascending h hsorted hlower)

theorem ascending_of_plan {c : Command} {call : Call Bucket (List KeyNode) Local}
    (h : Plan c call) (hlower : ∀ key ∈ c.keys, key.startsLower = true) :
    call.acquires.Pairwise fun x y => x.1 < y.1 := by
  cases h with
  | @write pairs sorted hq r h =>
    have hsorted : (sorted.map fun p => p.1.1).Pairwise fun a b => compareKeys a b ≤ 0 :=
      List.pairwise_map.mpr (List.pairwise_map.mp hq.2)
    refine ascending_lockList h hsorted (fun key hk => hlower key ?_) .write
    obtain ⟨p, hp, rfl⟩ := List.mem_map.mp hk
    exact List.mem_map.mpr ⟨p.1, hq.1.subset (List.mem_map.mpr ⟨p, hp, rfl⟩), rfl⟩
  | read sorted hq r h =>
    exact ascending_lockList h hq.2 (fun key hk => hlower key (hq.1.subset hk)) .read
  | delete sorted hq r h =>
    exact ascending_lockList h hq.2 (fun key hk => hlower key (hq.1.subset hk)) .write
  | showAll => exact List.pairwise_map.mpr (List.pairwise_lt_finRange tableSize)

theorem ascending_sharedCall {call : Call Bucket (List KeyNode) Local}
    (h : call.acquires.Pairwise fun x y => x.1 < y.1) : (sharedCall call).Ascending Lock.rank := by
  refine List.pairwise_cons.mpr ⟨fun x hx => ?_, List.pairwise_map.mpr (h.imp ?_)⟩
  · obtain ⟨y, -, rfl⟩ := List.mem_map.mp hx
    exact Nat.succ_pos _
  · intro x y hxy
    exact Nat.succ_lt_succ hxy

theorem ascending_of_threadPlan {c : ThreadCommand} {call : LockCall} (h : ThreadPlan c call)
    (hlower : ∀ key ∈ c.keys, key.startsLower = true) : call.Ascending Lock.rank := by
  cases h with
  | job h =>
    cases h with
    | table h => exact ascending_sharedCall (ascending_of_plan h hlower)
    | backup => exact List.pairwise_singleton _ _
  | refuseSubscribe | refuseUnsubscribe => exact .nil
  | subscribe | unsubscribe => exact List.pairwise_singleton _ _

/-- A command whose keys have buckets can be begun. -/
theorem exists_threadPlan (c : ThreadCommand) (hlower : ∀ key ∈ c.keys, key.startsLower = true) :
    ∃ call, ThreadPlan c call := by
  have halnum := fun key hk => CStr.startsAlnum_of_startsLower (hlower key hk)
  cases c with
  | job c =>
    cases c with
    | table c =>
      obtain ⟨call, h⟩ := exists_plan c halnum
      exact ⟨_, .job (.table h)⟩
    | backup => exact ⟨_, .job .backup⟩
  | subscribe key fdNotif =>
    obtain ⟨b, hb⟩ := bucketOf_eq_ok_iff.mpr (halnum key List.mem_cons_self)
    cases h : refused key with
    | true => exact ⟨_, .refuseSubscribe h⟩
    | false => exact ⟨_, .subscribe true h hb⟩
  | unsubscribe key fdNotif =>
    obtain ⟨b, hb⟩ := bucketOf_eq_ok_iff.mpr (halnum key List.mem_cons_self)
    cases h : refused key with
    | true => exact ⟨_, .refuseUnsubscribe h⟩
    | false => exact ⟨_, .unsubscribe h hb⟩

section Deadlock
variable {τ : Type*} [DecidableEq τ] {P : τ → List ThreadCommand} {ht : HashTable} {ts : List τ}
  {s : TwoPhase.State τ Lock (List KeyNode) Local ThreadCommand}

/-- No reachable state is a deadlock: while any thread is in a call, some thread in a call can
take its next step, and a thread between two calls can always begin the next one. -/
theorem no_deadlock (hlower : ∀ t, ∀ c ∈ P t, ∀ key ∈ c.keys, key.startsLower = true)
    (hrun : Run (Step ThreadPlan) (initial (Lock.chain ht) P) ts s) :
    ((∃ t, s.phase t ≠ .idle) → ∃ u s', s.phase u ≠ .idle ∧ Step ThreadPlan s u s') ∧
      ∀ t, s.phase t = .idle → s.pending t ≠ [] → ∃ s', Step ThreadPlan s t s' := by
  obtain ⟨hrun', hpending⟩ := run_restrict hlower hrun
  constructor
  · rintro ⟨t, ht⟩
    have hhold := Holding.of_run (fun _ _ h => releasesAll_of_threadPlan h.2) hrun'
    obtain ⟨u, s', hu, hs⟩ :=
      hhold.exists_step Lock.rank_lt (fun _ _ h => ascending_of_threadPlan h.2 h.1) ht
    exact ⟨u, s', hu, hs.mono fun _ _ _ h => h.2⟩
  · intro t hidle hne
    obtain ⟨c, cs, hc⟩ := List.exists_cons_of_ne_nil hne
    obtain ⟨call, hplan⟩ := exists_threadPlan c
      (hpending t c (by rw [hc]; exact List.mem_cons_self))
    exact ⟨_, .begin hidle hc hplan⟩

end Deadlock

/-- One thread deletes two keys that are not in order, the other subscribes to the second. -/
def deleteAndSubscribe : Bool → List ThreadCommand
  | true => [.job (.table (.delete [.ofBuffer (chars ['b']), .ofBuffer (chars ['a'])]))]
  | false => [.subscribe (.ofBuffer (chars ['b'])) 7]

/-- The first thread holds the bucket of one key and waits for the other. -/
theorem no_deadlock_deleteAndSubscribe :
    ∃ ts, ∃ s : TwoPhase.State Bool Lock (List KeyNode) Local ThreadCommand,
      Run (Step ThreadPlan) (initial (Lock.chain createHashTable) deleteAndSubscribe) ts s ∧
      s.held true (.bucketLock 0) = some .write ∧ s.held false (.bucketLock 1) = some .write ∧
      ∃ u s', s.phase u ≠ .idle ∧ Step ThreadPlan s u s' := by
  have ha : bucketOf ⟨chars ['a'], by decide⟩ = .ok 0 := by rfl
  have hb : bucketOf ⟨chars ['b'], by decide⟩ = .ok 1 := by rfl
  have hdelete : ThreadPlan (.job (.table (.delete [⟨chars ['b'], by decide⟩,
      ⟨chars ['a'], by decide⟩]))) _ :=
    .job (.table (.delete _ ⟨.swap _ _ _, by decide⟩ _ (lockList_pair ha hb (by decide))))
  have hsubscribe : ThreadPlan (.subscribe ⟨chars ['b'], by decide⟩ 7) _ := .subscribe true rfl hb
  have hrun :
      Run (Step ThreadPlan) (initial (Lock.chain createHashTable) deleteAndSubscribe) [] _ := .nil
  have hbegun := (hrun.snoc (.begin (t := true) rfl rfl hdelete)).snoc
    (.begin (t := false) rfl rfl hsubscribe)
  have hlocked := ((hbegun.snoc (.acquire (t := true) rfl (by intro t; cases t <;> rintro ⟨⟩))).snoc
    (.acquire (t := false) rfl (by intro t; cases t <;> rfl))).snoc
    (.acquire (t := true) rfl (by intro t; cases t <;> rfl))
  refine ⟨_, _, hlocked, rfl, rfl, (no_deadlock ?_ hlocked).1 ⟨true, by rintro ⟨⟩⟩⟩
  intro t
  cases t <;> decide

end IstKvs.Backups
