import IstKvs.Backups.Contents
import IstKvs.Store.Batch
import IstKvs.Systems.Run

/-! The loop of `process_thread` as an interpreter: what each turn does to the table,
to the output file of its job, to standard output and to the subscribers, and the
files that backups leave. Several jobs take turns on one table; a turn is one step,
since the bucket locks give the commands a serial order and a backup excludes them. -/

namespace IstKvs.Jobs

open IstKvs.Store IstKvs.Systems IstKvs.Backups Function

/-! ### Commands with their notifications -/

def writeSends (x : HashTable × List Message) (p : (CStr × CStr) × WriteMem) :
    Except Fault (HashTable × List Message) := do
  let r ← writePair x.1 p.1.1 p.1.2 p.2
  pure (r.1, x.2 ++ r.2.2)

/-- `kvs_write` with the notifications of its pairs. -/
def kvsWriteSends (ht : HashTable) (pairs : List ((CStr × CStr) × WriteMem)) :
    Except Fault (HashTable × List Message) := do
  let _ ← lockWriteList (pairs.map fun p => p.1.1)
  pairs.foldlM writeSends (ht, [])

def deleteSends (x : (HashTable × Writer) × List Message) (key : CStr) :
    Except Fault ((HashTable × Writer) × List Message) := do
  let r ← deletePair x.1.1 key
  pure ((r.1, if r.2.1 ≠ 0 then noteMissing x.1.2 key else x.1.2), x.2 ++ r.2.2)

/-- `kvs_delete` with the notifications of its keys. -/
def kvsDeleteSends (ht : HashTable) (keys : List CStr) :
    Except Fault (HashTable × List UInt8 × List Message) := do
  let _ ← lockWriteList keys
  let r ← keys.foldlM deleteSends ((ht, ⟨[], false⟩), [])
  pure (r.1.1, closeMissing r.1.2, r.2)

/-- A fold whose steps lead to those of another fold through a map leads to its result. -/
theorem foldlM_map {S T A : Type} {f : S → A → Except Fault S} {g : T → A → Except Fault T}
    {p : S → T} (hstep : ∀ s a, (f s a).map p = g (p s) a) (xs : List A) (s : S) :
    (xs.foldlM f s).map p = xs.foldlM g (p s) := by
  induction xs generalizing s with
  | nil => rfl
  | cons a xs ih =>
    rw [List.foldlM_cons, List.foldlM_cons, ← hstep]
    cases f s a with
    | error e => rfl
    | ok s' => exact ih s'

theorem table_kvsWriteSends (ht : HashTable) (pairs : List ((CStr × CStr) × WriteMem)) :
    (kvsWriteSends ht pairs).map Prod.fst = kvsWrite ht pairs := by
  let step (ht : HashTable) (p : (CStr × CStr) × WriteMem) : Except Fault HashTable := do
    let r ← writePair ht p.1.1 p.1.2 p.2
    pure r.1
  have hstep : ∀ x p, (writeSends x p).map Prod.fst = step x.1 p := by
    intro x p
    simp only [writeSends, step]
    cases writePair x.1 p.1.1 p.1.2 p.2 <;> rfl
  have hloop := foldlM_map hstep pairs (ht, [])
  rw [kvsWrite, kvsWriteSends, writeLoop, ← hloop]
  cases lockWriteList (pairs.map fun p => p.1.1) <;> rfl

theorem table_kvsDeleteSends (ht : HashTable) (keys : List CStr) :
    (kvsDeleteSends ht keys).map (fun r => (r.1, r.2.1)) = kvsDelete ht keys := by
  have hstep : ∀ (x : (HashTable × Writer) × List Message) key,
      (deleteSends x key).map Prod.fst = deleteStep x.1 key := by
    intro x key
    rw [deleteSends, deleteStep]
    cases deletePair x.1.1 key <;> rfl
  have hloop := foldlM_map hstep keys ((ht, ⟨[], false⟩), [])
  rw [kvsDelete, kvsDeleteSends, ← hloop]
  cases lockWriteList keys with
  | error f => rfl
  | ok l =>
    change (keys.foldlM deleteSends ((ht, ⟨[], false⟩), []) >>= _).map _ = _
    cases keys.foldlM deleteSends ((ht, ⟨[], false⟩), []) <;> rfl

/-! ### One turn -/

/-- What a turn leaves: the store after it, what it adds to the output file, sends to
subscribers and prints, and what the child of a backup writes, up to a fault of the child. -/
structure Effect (S : Type*) where
  store : S
  out : List UInt8
  sent : List Message
  stdout : List UInt8
  backup : Option (Except Fault (List UInt8))

def Effect.none {S : Type*} (store : S) : Effect S := ⟨store, [], [], [], .none⟩

def waiting : List UInt8 := chars ("Waiting...\n".toList)

def helpText : List UInt8 :=
  chars ("Available commands:\n  WRITE [(key,value)(key2,value2),...]\n".toList) ++
  chars ("  READ [key,key2,...]\n  DELETE [key,key2,...]\n  SHOW\n".toList) ++
  chars ("  WAIT <delay_ms>\n  BACKUP\n  HELP\n".toList)

/-- The switch of the loop, for any result of `qsort`; the allocations succeed. -/
inductive Performs : Item → HashTable → Except Fault (Effect HashTable) → Prop
  | write {pairs : List (CStr × CStr)} (ht : HashTable) (sorted : List (CStr × CStr))
      (hq : QsortResult comparePairs pairs sorted) :
      Performs (.command (.write pairs)) ht ((kvsWriteSends ht (allocated sorted)).map fun r =>
        { Effect.none r.1 with sent := r.2 })
  | read {keys : List CStr} (ht : HashTable) (sorted : List CStr)
      (hq : QsortResult compareKeys keys sorted) :
      Performs (.command (.read keys)) ht ((kvsRead ht (sorted.map fun key => (key, true))).map
        fun out => { Effect.none ht with out := out })
  | delete {keys : List CStr} (ht : HashTable) (sorted : List CStr)
      (hq : QsortResult compareKeys keys sorted) :
      Performs (.command (.delete keys)) ht ((kvsDeleteSends ht sorted).map fun r =>
        { Effect.none r.1 with out := r.2.1, sent := r.2.2 })
  | showAll (ht : HashTable) :
      Performs (.command .showAll) ht ((kvsShow ht).map fun out =>
        { Effect.none ht with out := out })
  | wait {delay : ℕ} (ht : HashTable) :
      Performs (.wait delay) ht (.ok
        { Effect.none ht with out := if delay > 0 then waiting else [] })
  -- the child works on its copy of the table, and its end is not the end of the job
  | backup (ht : HashTable) :
      Performs .backup ht (.ok { Effect.none ht with backup := some (kvsBackup ht) })
  | help (ht : HashTable) : Performs .help ht (.ok { Effect.none ht with stdout := helpText })
  | empty (ht : HashTable) : Performs .empty ht (.ok (.none ht))
  | invalid (ht : HashTable) : Performs .invalid ht (.ok (.none ht))

/-! ### Jobs that take turns -/

/-- A job under way: the program that is left, its output file, and its backups with
their numbers. -/
structure Job (P : Type*) where
  rest : P
  out : List UInt8
  backups : List (UInt32 × Except Fault (List UInt8))
  fileBackups : UInt32

/-- The jobs and what they share. -/
structure Work (τ P S : Type*) where
  store : S
  sent : List Message
  stdout : List UInt8
  job : τ → Job P

section Apply
variable {τ P S : Type*}

/-- The file of a backup is there if the child was created and could open it. -/
def Job.apply (j : Job P) (forks : UInt32 → Bool) (rest : P) (e : Effect S) : Job P where
  rest := rest
  out := j.out ++ e.out
  backups := j.backups ++
    if forks j.fileBackups then (e.backup.map fun file => (j.fileBackups, file)).toList else []
  fileBackups := if e.backup.isSome then j.fileBackups + 1 else j.fileBackups

def Work.apply [DecidableEq τ] (s : Work τ P S) (forks : τ → UInt32 → Bool) (t : τ) (rest : P)
    (e : Effect S) : Work τ P S where
  store := e.store
  sent := s.sent ++ e.sent
  stdout := s.stdout ++ e.stdout
  job := update s.job t ((s.job t).apply (forks t) rest e)

end Apply

section Turns
variable {τ : Type*} [DecidableEq τ]

/-- A turn of the loop of one job, whatever the stack holds. -/
inductive Turn (forks : τ → UInt32 → Bool) (s : Work τ (List UInt8) HashTable) (t : τ) :
    Work τ (List UInt8) HashTable → Prop
  | turn (stack : List UInt8) {r : Parsed Item} {e : Effect HashTable}
      (hi : nextItem stack (s.job t).rest = some r) (hp : Performs r.result s.store (.ok e)) :
      Turn forks s t (s.apply forks t r.rest e)

omit [DecidableEq τ] in
/-- The next turn of the job may end the program. -/
def MayFault (s : Work τ (List UInt8) HashTable) (t : τ) : Prop :=
  ∃ stack r f, nextItem stack (s.job t).rest = some r ∧ Performs r.result s.store (.error f)

end Turns

end IstKvs.Jobs
