import IstKvs.Store.Operations
import IstKvs.Systems.TwoPhase

/-! Serializability of the commands of job threads. Each command acquires all its
bucket locks, works through its keys or buckets one at a time, and releases its
locks: it is a two-phase call. So any interleaving of the lock acquisitions, pair
operations, bucket scans and releases of any number of threads has the outputs
and the table of a serial execution. -/

namespace IstKvs.Store

open IstKvs.Systems IstKvs.Systems.TwoPhase Function

/-! ### Commands as calls -/

/-- The output of a command so far, or the fault that ended the program. -/
abbrev Local := Except Fault Writer

/-- The bucket of a key; only asked for keys that have one. -/
def bucketIndex (key : CStr) : Bucket :=
  match bucketOf key with
  | .ok b => b
  | .error _ => ⟨0, by decide⟩

theorem bucketIndex_eq {key : CStr} {b : Bucket} (h : bucketOf key = .ok b) :
    bucketIndex key = b := by
  simp only [bucketIndex, h]

def writeAccess (p : (CStr × CStr) × WriteMem) : Access Bucket (List KeyNode) Local where
  cell := bucketIndex p.1.1
  mode := .write
  exec chain l := ((writeChain chain p.1.1 p.1.2 p.2).chain, l)
  readOnly h := by cases h

def readAccess (item : CStr × Bool) : Access Bucket (List KeyNode) Local where
  cell := bucketIndex item.1
  mode := .read
  exec chain l := (chain, do
    let w ← l
    let result ← readChain chain item.1 item.2
    pure { w with out := w.out ++ readItem item.1 result })
  readOnly _ _ _ := rfl

def deleteAccess (key : CStr) : Access Bucket (List KeyNode) Local where
  cell := bucketIndex key
  mode := .write
  exec chain l := ((deleteChain chain key).chain,
    l.map fun w => if (deleteChain chain key).status ≠ 0 then noteMissing w key else w)
  readOnly h := by cases h

def showAccess (i : Bucket) : Access Bucket (List KeyNode) Local where
  cell := i
  mode := .read
  exec chain l := (chain, l >>= fun w => showChain w chain)
  readOnly _ _ _ := rfl

theorem covered_of_lockList {mode : Mode} {keys : List CStr} {r : List Bucket × IndexList}
    (h : lockList (fun _ => false) keys = .ok r) {key : CStr} (hk : key ∈ keys) :
    (bucketIndex key, mode) ∈ r.1.map fun b => (b, mode) := by
  obtain ⟨b, hb, hor⟩ := mem_lockList h hk
  rw [bucketIndex_eq hb]
  simpa using hor

def writeCall (pairs : List ((CStr × CStr) × WriteMem)) (r : List Bucket × IndexList)
    (h : lockWriteList (pairs.map fun p => p.1.1) = .ok r) :
    Call Bucket (List KeyNode) Local where
  acquires := r.1.map fun b => (b, .write)
  accesses := pairs.map writeAccess
  releases := unlockList r.2
  start := .ok ⟨[], false⟩
  finish := id
  covered := by
    intro a ha
    obtain ⟨p, hp, rfl⟩ := List.mem_map.mp ha
    exact ⟨.write, covered_of_lockList h (List.mem_map.mpr ⟨p, hp, rfl⟩), fun _ => rfl⟩

def readCall (keys : List (CStr × Bool)) (r : List Bucket × IndexList)
    (h : lockReadList (keys.map Prod.fst) = .ok r) : Call Bucket (List KeyNode) Local where
  acquires := r.1.map fun b => (b, .read)
  accesses := keys.map readAccess
  releases := unlockList r.2
  start := .ok ⟨openList, false⟩
  finish l := l.map fun w => { w with out := w.out ++ closeList }
  covered := by
    intro a ha
    obtain ⟨item, hi, rfl⟩ := List.mem_map.mp ha
    exact ⟨.read, covered_of_lockList h (List.mem_map.mpr ⟨item, hi, rfl⟩), fun hm => by cases hm⟩

def deleteCall (keys : List CStr) (r : List Bucket × IndexList)
    (h : lockWriteList keys = .ok r) : Call Bucket (List KeyNode) Local where
  acquires := r.1.map fun b => (b, .write)
  accesses := keys.map deleteAccess
  releases := unlockList r.2
  start := .ok ⟨[], false⟩
  finish l := l.map fun w => { w with out := closeMissing w }
  covered := by
    intro a ha
    obtain ⟨key, hk, rfl⟩ := List.mem_map.mp ha
    exact ⟨.write, covered_of_lockList h hk, fun _ => rfl⟩

def showCall : Call Bucket (List KeyNode) Local where
  acquires := (List.finRange tableSize).map fun i => (i, .read)
  accesses := (List.finRange tableSize).map showAccess
  releases := List.finRange tableSize
  start := .ok ⟨[], false⟩
  finish := id
  covered := by
    intro a ha
    obtain ⟨i, hi, rfl⟩ := List.mem_map.mp ha
    exact ⟨.read, List.mem_map.mpr ⟨i, hi, rfl⟩, fun hm => by cases hm⟩

/-- The calls that a command may become: one for each result of `qsort` and of the
allocations. -/
inductive Plan : Command → Call Bucket (List KeyNode) Local → Prop
  | write {pairs : List (CStr × CStr)} (sorted : List ((CStr × CStr) × WriteMem))
      (hq : QsortResult comparePairs pairs (sorted.map Prod.fst)) (r : List Bucket × IndexList)
      (h : lockWriteList (sorted.map fun p => p.1.1) = .ok r) :
      Plan (.write pairs) (writeCall sorted r h)
  | read {keys : List CStr} (sorted : List (CStr × Bool))
      (hq : QsortResult compareKeys keys (sorted.map Prod.fst)) (r : List Bucket × IndexList)
      (h : lockReadList (sorted.map Prod.fst) = .ok r) : Plan (.read keys) (readCall sorted r h)
  | delete {keys : List CStr} (sorted : List CStr) (hq : QsortResult compareKeys keys sorted)
      (r : List Bucket × IndexList) (h : lockWriteList sorted = .ok r) :
      Plan (.delete keys) (deleteCall sorted r h)
  | showAll : Plan .showAll showCall

/-- A command with what it meets: the order in which `qsort` leaves its keys, and the outcomes
of the allocations for each. -/
inductive Course
  | write (pairs : List (CStr × CStr)) (sorted : List ((CStr × CStr) × WriteMem))
      (hq : QsortResult comparePairs pairs (sorted.map Prod.fst))
  | read (keys : List CStr) (sorted : List (CStr × Bool))
      (hq : QsortResult compareKeys keys (sorted.map Prod.fst))
  | delete (keys sorted : List CStr) (hq : QsortResult compareKeys keys sorted)
  | showAll

def Course.command : Course → Command
  | write pairs _ _ => .write pairs
  | read keys _ _ => .read keys
  | delete keys _ _ => .delete keys
  | showAll => .showAll

/-- The call that a command becomes on its course. -/
inductive Course.Plan : Course → Call Bucket (List KeyNode) Local → Prop
  | write {pairs : List (CStr × CStr)} {sorted : List ((CStr × CStr) × WriteMem)}
      {hq : QsortResult comparePairs pairs (sorted.map Prod.fst)} (r : List Bucket × IndexList)
      (h : lockWriteList (sorted.map fun p => p.1.1) = .ok r) :
      Plan (.write pairs sorted hq) (writeCall sorted r h)
  | read {keys : List CStr} {sorted : List (CStr × Bool)}
      {hq : QsortResult compareKeys keys (sorted.map Prod.fst)} (r : List Bucket × IndexList)
      (h : lockReadList (sorted.map Prod.fst) = .ok r) :
      Plan (.read keys sorted hq) (readCall sorted r h)
  | delete {keys sorted : List CStr} {hq : QsortResult compareKeys keys sorted}
      (r : List Bucket × IndexList) (h : lockWriteList sorted = .ok r) :
      Plan (.delete keys sorted hq) (deleteCall sorted r h)
  | showAll : Plan .showAll showCall

theorem Course.Plan.plan {o : Course} {call : Call Bucket (List KeyNode) Local}
    (h : o.Plan call) : Store.Plan o.command call := by
  cases h with
  | @write pairs sorted hq r h => exact .write sorted hq r h
  | @read keys sorted hq r h => exact .read sorted hq r h
  | @delete keys sorted hq r h => exact .delete sorted hq r h
  | showAll => exact .showAll

/-- A command alone on a table: what it writes on its course, or the fault that ends the
program, and the table after it. -/
inductive Course.Exec : Course → HashTable → Except Fault (List UInt8) → HashTable → Prop
  | write {pairs : List (CStr × CStr)} {sorted : List ((CStr × CStr) × WriteMem)}
      {hq : QsortResult comparePairs pairs (sorted.map Prod.fst)} {ht ht' : HashTable}
      (h : kvsWrite ht sorted = .ok ht') : Exec (.write pairs sorted hq) ht (.ok []) ht'
  | read {keys : List CStr} {sorted : List (CStr × Bool)}
      {hq : QsortResult compareKeys keys (sorted.map Prod.fst)} {ht : HashTable} :
      Exec (.read keys sorted hq) ht (kvsRead ht sorted) ht
  | delete {keys sorted : List CStr} {hq : QsortResult compareKeys keys sorted}
      {ht ht' : HashTable} {out : List UInt8} (h : kvsDelete ht sorted = .ok (ht', out)) :
      Exec (.delete keys sorted hq) ht (.ok out) ht'
  | showAll {ht : HashTable} : Exec .showAll ht (kvsShow ht) ht

theorem Course.Exec.exec {o : Course} {ht ht' : HashTable} {out : Except Fault (List UInt8)}
    (h : o.Exec ht out ht') : Store.Exec o.command ht out ht' := by
  cases h with
  | @write pairs sorted hq ht ht' h => exact .write sorted hq h
  | @read keys sorted hq ht => exact .read sorted hq
  | @delete keys sorted hq ht ht' out h => exact .delete sorted hq h
  | showAll => exact .showAll

theorem Plan.course {c : Command} {call : Call Bucket (List KeyNode) Local} (h : Plan c call) :
    ∃ o : Course, o.command = c ∧ o.Plan call := by
  cases h with
  | @write pairs sorted hq r h => exact ⟨.write pairs sorted hq, rfl, .write r h⟩
  | @read keys sorted hq r h => exact ⟨.read keys sorted hq, rfl, .read r h⟩
  | @delete keys sorted hq r h => exact ⟨.delete keys sorted hq, rfl, .delete r h⟩
  | showAll => exact ⟨.showAll, rfl, .showAll⟩

/-! ### The accesses of a call are the loop of its command -/

theorem writeLoop_eq (pairs : List ((CStr × CStr) × WriteMem)) (ht : HashTable) (l : Local)
    (h : ∀ p ∈ pairs, ∃ b, bucketOf p.1.1 = .ok b) :
    writeLoop ht pairs = .ok (runAll (pairs.map writeAccess) (ht, l)).1 ∧
      (runAll (pairs.map writeAccess) (ht, l)).2 = l := by
  induction pairs generalizing ht with
  | nil => exact ⟨rfl, rfl⟩
  | cons p pairs ih =>
    obtain ⟨b, hb⟩ := h p List.mem_cons_self
    have hstep : writePair ht p.1.1 p.1.2 p.2 >>= (fun r => pure r.1) =
        (.ok ((writeAccess p).apply (ht, l)).1 : Except Fault HashTable) := by
      rw [writePair_eq hb]
      simp only [Access.apply, writeAccess, bucketIndex_eq hb]
      rfl
    have hrest := ih ((writeAccess p).apply (ht, l)).1 fun q hq => h q (List.mem_cons_of_mem _ hq)
    simp only [writeLoop, List.foldlM_cons, hstep, List.map_cons, runAll_cons]
    exact hrest

theorem readLoop_eq (keys : List (CStr × Bool)) (ht : HashTable) (l : Local)
    (h : ∀ item ∈ keys, ∃ b, bucketOf item.1 = .ok b) :
    (runAll (keys.map readAccess) (ht, l)).1 = ht ∧
      (runAll (keys.map readAccess) (ht, l)).2 = l >>= fun w => keys.foldlM (readStep ht) w := by
  induction keys generalizing l with
  | nil =>
    refine ⟨rfl, ?_⟩
    cases l <;> rfl
  | cons item keys ih =>
    obtain ⟨b, hb⟩ := h item List.mem_cons_self
    have hstep : (readAccess item).apply (ht, l) = (ht, l >>= fun w => readStep ht w item) := by
      simp only [Access.apply, readAccess, bucketIndex_eq hb, update_eq_self, readStep,
        readPair_eq hb]
    have hrest := ih (l >>= fun w => readStep ht w item) fun q hq =>
      h q (List.mem_cons_of_mem _ hq)
    simp only [List.map_cons, runAll_cons, hstep, List.foldlM_cons]
    refine ⟨hrest.1, hrest.2.trans ?_⟩
    cases l <;> rfl

theorem deleteLoop_eq (keys : List CStr) (ht : HashTable) (w : Writer)
    (h : ∀ key ∈ keys, ∃ b, bucketOf key = .ok b) :
    ∃ w', keys.foldlM deleteStep (ht, w) =
        .ok ((runAll (keys.map deleteAccess) (ht, .ok w)).1, w') ∧
      (runAll (keys.map deleteAccess) (ht, .ok w)).2 = .ok w' := by
  induction keys generalizing ht w with
  | nil => exact ⟨w, rfl, rfl⟩
  | cons key keys ih =>
    obtain ⟨b, hb⟩ := h key List.mem_cons_self
    let w₁ := if (deleteChain (ht b) key).status ≠ 0 then noteMissing w key else w
    have happly : (deleteAccess key).apply (ht, .ok w) =
        (update ht b (deleteChain (ht b) key).chain, .ok w₁) := by
      simp only [Access.apply, deleteAccess, bucketIndex_eq hb]
      rfl
    have hstep : deleteStep (ht, w) key = .ok (update ht b (deleteChain (ht b) key).chain, w₁) := by
      simp only [deleteStep, deletePair_eq hb]
      rfl
    obtain ⟨w', hloop, hrun⟩ := ih (update ht b (deleteChain (ht b) key).chain) w₁
      fun q hq => h q (List.mem_cons_of_mem _ hq)
    refine ⟨w', ?_, ?_⟩
    · rw [List.foldlM_cons, hstep, List.map_cons, runAll_cons, happly]
      exact hloop
    · rw [List.map_cons, runAll_cons, happly]
      exact hrun

theorem showLoop_eq (is : List Bucket) (ht : HashTable) (l : Local) :
    (runAll (is.map showAccess) (ht, l)).1 = ht ∧
      (runAll (is.map showAccess) (ht, l)).2 =
        l >>= fun w => is.foldlM (fun w i => showChain w (ht i)) w := by
  induction is generalizing l with
  | nil =>
    refine ⟨rfl, ?_⟩
    cases l <;> rfl
  | cons i is ih =>
    have hstep : (showAccess i).apply (ht, l) = (ht, l >>= fun w => showChain w (ht i)) := by
      simp only [Access.apply, showAccess, update_eq_self]
    have hrest := ih (l >>= fun w => showChain w (ht i))
    simp only [List.map_cons, runAll_cons, hstep, List.foldlM_cons]
    refine ⟨hrest.1, hrest.2.trans ?_⟩
    cases l <;> rfl

/-- The bytes that a finished call has written. -/
def output (l : Local) : Except Fault (List UInt8) := l.map Writer.out

/-- A call executed alone is its command on the course that was planned. -/
theorem Course.Plan.exec {o : Course} {call : Call Bucket (List KeyNode) Local} (h : o.Plan call)
    (ht : HashTable) :
    o.Exec ht (output (call.finish (runAll call.accesses (ht, call.start)).2))
      (runAll call.accesses (ht, call.start)).1 := by
  cases h with
  | @write pairs sorted hq r h =>
    obtain ⟨hloop, hloc⟩ := writeLoop_eq sorted ht (.ok ⟨[], false⟩) fun p hp => by
      obtain ⟨b, hb, -⟩ := mem_lockList h (List.mem_map.mpr ⟨p, hp, rfl⟩)
      exact ⟨b, hb⟩
    have hrun : kvsWrite ht sorted =
        .ok (runAll (sorted.map writeAccess) (ht, .ok ⟨[], false⟩)).1 := by
      rw [kvsWrite, h]
      exact hloop
    simp only [writeCall, id, hloc]
    exact .write hrun
  | @read keys sorted hq r h =>
    obtain ⟨htab, hloc⟩ := readLoop_eq sorted ht (.ok ⟨openList, false⟩) fun p hp => by
      obtain ⟨b, hb, -⟩ := mem_lockList h (List.mem_map.mpr ⟨p, hp, rfl⟩)
      exact ⟨b, hb⟩
    have hout : output ((readCall sorted r h).finish
        (runAll (readCall sorted r h).accesses (ht, (readCall sorted r h).start)).2) =
        kvsRead ht sorted := by
      simp only [readCall, hloc, kvsRead, h]
      change output (Except.map _ (sorted.foldlM (readStep ht) ⟨openList, false⟩)) =
        (sorted.foldlM (readStep ht) ⟨openList, false⟩ >>= _)
      cases sorted.foldlM (readStep ht) ⟨openList, false⟩ <;> rfl
    rw [hout, show (runAll (readCall sorted r h).accesses (ht, (readCall sorted r h).start)).1 = ht
      from htab]
    exact .read
  | @delete keys sorted hq r h =>
    obtain ⟨w', hloop, hloc⟩ := deleteLoop_eq sorted ht ⟨[], false⟩ fun key hk => by
      obtain ⟨b, hb, -⟩ := mem_lockList h hk
      exact ⟨b, hb⟩
    have hrun : kvsDelete ht sorted =
        .ok ((runAll (sorted.map deleteAccess) (ht, .ok ⟨[], false⟩)).1, closeMissing w') := by
      rw [kvsDelete, h]
      show (sorted.foldlM deleteStep (ht, ⟨[], false⟩) >>= _) = _
      rw [hloop]
      rfl
    simp only [deleteCall, hloc]
    exact .delete hrun
  | showAll =>
    obtain ⟨htab, hloc⟩ := showLoop_eq (List.finRange tableSize) ht (.ok ⟨[], false⟩)
    have hout : output (showCall.finish (runAll showCall.accesses (ht, showCall.start)).2) =
        kvsShow ht := by
      simp only [showCall, hloc, kvsShow, id]
      change output ((List.finRange tableSize).foldlM (fun w i => showChain w (ht i)) ⟨[], false⟩) =
        ((List.finRange tableSize).foldlM (fun w i => showChain w (ht i)) ⟨[], false⟩ >>= _)
      cases (List.finRange tableSize).foldlM (fun w i => showChain w (ht i)) ⟨[], false⟩ <;> rfl
    rw [hout, show (runAll showCall.accesses (ht, showCall.start)).1 = ht from htab]
    exact .showAll

/-- A command on keys with a bucket can always be planned. -/
theorem exists_plan (c : Command) (h : ∀ key ∈ c.keys, key.startsAlnum = true) :
    ∃ call, Plan c call := by
  cases c with
  | write pairs =>
    obtain ⟨ys, hys⟩ := exists_qsortResult comparePairs
      (fun a b => strcmp_total a.1 b.1) (fun a b c => strcmp_trans) pairs
    have hfst : (ys.map fun p => (p, WriteMem.ok)).map Prod.fst = ys := by simp [Function.comp_def]
    obtain ⟨r, hr⟩ := lockList_ok (fun _ => false) (ys.map Prod.fst) fun key hk =>
      h key ((hys.1.map Prod.fst).subset hk)
    exact ⟨_, .write (ys.map fun p => (p, .ok)) (by rwa [hfst]) r
      (by simpa [Function.comp_def, lockWriteList] using hr)⟩
  | read keys =>
    obtain ⟨ys, hys⟩ := exists_qsortResult compareKeys strcmp_total
      (fun a b c => strcmp_trans) keys
    have hfst : (ys.map fun key => (key, true)).map Prod.fst = ys := by simp [Function.comp_def]
    obtain ⟨r, hr⟩ := lockList_ok (fun _ => false) ys fun key hk =>
      h key (hys.1.subset hk)
    exact ⟨_, .read (ys.map fun key => (key, true)) (by rwa [hfst]) r (by rwa [hfst])⟩
  | delete keys =>
    obtain ⟨ys, hys⟩ := exists_qsortResult compareKeys strcmp_total
      (fun a b c => strcmp_trans) keys
    obtain ⟨r, hr⟩ := lockList_ok (fun _ => false) ys fun key hk =>
      h key (hys.1.subset hk)
    exact ⟨_, .delete ys hys r hr⟩
  | showAll => exact ⟨_, .showAll⟩

/-! ### Serial executions -/

section Serial
variable {τ : Type*}

/-- Commands executed one after another on a table, each on its course, with the thread of
each and its output. -/
inductive Serial (ht : HashTable) :
    List (τ × Course) → List (τ × Except Fault (List UInt8)) → HashTable → Prop
  | nil : Serial ht [] [] ht
  | snoc {order : List (τ × Course)} {outs : List (τ × Except Fault (List UInt8))}
      {ht₁ ht₂ : HashTable} {t : τ} {o : Course} {out : Except Fault (List UInt8)} :
      Serial ht order outs ht₁ → o.Exec ht₁ out ht₂ →
      Serial ht (order ++ [(t, o)]) (outs ++ [(t, out)]) ht₂

theorem serial_of_planned (ht : HashTable)
    (order : List (τ × Course × Call Bucket (List KeyNode) Local))
    (h : ∀ o ∈ order, o.2.1.Plan o.2.2) :
    Serial ht (order.map fun o => (o.1, o.2.1))
      ((serial order ht).2.map fun x => (x.1, output x.2)) (serial order ht).1 := by
  induction order using List.reverseRecOn with
  | nil => exact .nil
  | append_singleton order o ih =>
    have hexec := (h o (by simp)).exec (serial order ht).1
    rw [serial_snoc, List.map_append, serialStep, List.map_append]
    exact (ih fun o ho => h o (List.mem_append_left _ ho)).snoc hexec

variable [DecidableEq τ] {P : τ → List Course} {ht : HashTable} {ts : List τ}
  {s : State τ Bucket (List KeyNode) Local Course}

/-- Once all commands of all threads have finished, their outputs and the table are
those of the same commands executed one after another, on the courses that they took, in an
order that keeps the order of each thread. -/
theorem kvs_serializable (hrun : Run (Step Course.Plan) (initial ht P) ts s)
    (hdone : Finished s) :
    ∃ order outs, Serial ht order outs s.table ∧ (∀ t, ofThread t order = P t) ∧
      ∀ t, ofThread t outs = (s.outputs t).map output := by
  obtain ⟨order, hplan, hprog, htable, houts⟩ := serializable hrun hdone
  refine ⟨_, _, htable ▸ serial_of_planned ht order hplan, fun t => ?_, fun t => ?_⟩
  · rw [ofThread_map t order Prod.fst, hprog]
  · rw [ofThread_map, houts]

end Serial

/-- One thread writes a key while the other reads a key of the same bucket. -/
def twoThreads : Bool → List Course
  | true => [.write [(.ofBuffer (chars ['a']), .ofBuffer (chars ['1']))]
      [((.ofBuffer (chars ['a']), .ofBuffer (chars ['1'])), .ok)]
      ⟨.refl _, List.pairwise_singleton _ _⟩]
  | false => [.read [.ofBuffer (chars ['A'])] [(.ofBuffer (chars ['A']), true)]
      ⟨.refl _, List.pairwise_singleton _ _⟩]

theorem kvs_serializable_twoThreads :
    ∃ ts, ∃ s : State Bool Bucket (List KeyNode) Local Course,
      Run (Step Course.Plan) (initial createHashTable twoThreads) ts s ∧ Finished s ∧
      ∃ order outs, Serial createHashTable order outs s.table ∧
        (∀ t, ofThread t order = twoThreads t) ∧
        ∀ t, ofThread t outs = (s.outputs t).map output := by
  have hw := @Course.Plan.write _ [((.ofBuffer (chars ['a']), .ofBuffer (chars ['1'])), .ok)]
    ⟨.refl _, List.pairwise_singleton _ _⟩ _
    (lockList_singleton (show bucketOf (.ofBuffer (chars ['a'])) = .ok 0 by rfl))
  have hr := @Course.Plan.read _ [(.ofBuffer (chars ['A']), true)]
    ⟨.refl _, List.pairwise_singleton _ _⟩ _
    (lockList_singleton (show bucketOf (.ofBuffer (chars ['A'])) = .ok 0 by rfl))
  have hrun : Run (Step Course.Plan) (initial createHashTable twoThreads) [] _ := .nil
  -- the writer goes through its lock, access and release while the reader waits
  have h₁ := (hrun.snoc (.begin (t := true) rfl rfl hw)).snoc (.begin (t := false) rfl rfl hr)
  have h₂ := (h₁.snoc (.acquire (t := true) rfl (by intro t; cases t <;> rfl))).snoc
    (.lockPoint (t := true) rfl)
  have h₃ := ((h₂.snoc (.access (t := true) rfl)).snoc (.shrink (t := true) rfl)).snoc
    (.release (t := true) rfl)
  have h₄ := (h₃.snoc (.acquire (t := false) rfl (by intro t; cases t <;> decide))).snoc
    (.lockPoint (t := false) rfl)
  have h₅ := ((h₄.snoc (.access (t := false) rfl)).snoc (.finish (t := true) rfl)).snoc
    (.shrink (t := false) rfl)
  have h₆ := (h₅.snoc (.release (t := false) rfl)).snoc (.finish (t := false) rfl)
  refine ⟨_, _, h₆, ?_, kvs_serializable h₆ ?_⟩ <;>
    · intro t
      cases t <;> exact ⟨rfl, rfl⟩

end IstKvs.Store
