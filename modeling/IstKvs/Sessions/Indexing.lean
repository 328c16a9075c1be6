import IstKvs.Backups.Contents
import IstKvs.Jobs.Parser
import IstKvs.Sessions.Requests
import IstKvs.Store.KeyLists
import IstKvs.Store.Serial

/-! Which inputs make the server use -1 as an index. Neither the parser of job files
nor the client protocol checks that a key has a bucket, so an index leaves its
array exactly when a command or request that is reached names a key that does not
begin with an ASCII letter or digit. -/

namespace IstKvs.Sessions

open IstKvs.Store IstKvs.Jobs IstKvs.Backups

/-! ### Job files -/

/-- A command on a table ends in a fault, for some result of `qsort` and the allocations. -/
inductive CommandFault : Command → HashTable → Fault → Prop
  | write {pairs : List (CStr × CStr)} {ht : HashTable} {f : Fault}
      (sorted : List ((CStr × CStr) × WriteMem))
      (hq : QsortResult comparePairs pairs (sorted.map Prod.fst))
      (h : kvsWrite ht sorted = .error f) : CommandFault (.write pairs) ht f
  | read {keys : List CStr} {ht : HashTable} {f : Fault} (sorted : List (CStr × Bool))
      (hq : QsortResult compareKeys keys (sorted.map Prod.fst))
      (h : kvsRead ht sorted = .error f) : CommandFault (.read keys) ht f
  | delete {keys : List CStr} {ht : HashTable} {f : Fault} (sorted : List CStr)
      (hq : QsortResult compareKeys keys sorted)
      (h : kvsDelete ht sorted = .error f) : CommandFault (.delete keys) ht f
  | showAll {ht : HashTable} {f : Fault} (h : kvsShow ht = .error f) : CommandFault .showAll ht f

/-- A job file reaches a fault: the commands before it succeed, each on any table,
since other threads change the table between two commands. -/
def JobFault (stack s : List UInt8) (f : Fault) : Prop :=
  ∃ cs c rest, jobCommands stack s = cs ++ c :: rest ∧
    (∀ c' ∈ cs, ∃ ht ht' out, Exec c' ht (.ok out) ht') ∧ ∃ ht, CommandFault c ht f

theorem kvsShow_error {ht : HashTable} {f : Fault} (h : kvsShow ht = .error f) : f = .null := by
  rw [kvsShow_eq] at h
  split_ifs at h
  exact (Except.error.inj h).symm

theorem exists_key_of_commandFault {c : Command} {ht : HashTable} {i : ℤ}
    (h : CommandFault c ht (.index i)) : ∃ key ∈ c.keys, key.startsAlnum = false := by
  by_contra hne
  have hall : ∀ key ∈ c.keys, key.startsAlnum = true := by
    intro key hk
    by_contra hs
    exact hne ⟨key, hk, by simpa using hs⟩
  cases h with
  | write sorted hq h =>
    have hk : ∀ p ∈ sorted, p.1.1.startsAlnum = true := fun p hp =>
      hall p.1.1 (List.mem_map.mpr ⟨p.1, hq.1.subset (List.mem_map_of_mem hp), rfl⟩)
    have hl := (writeLoop_eq sorted ht (.ok ⟨[], false⟩) fun p hp =>
      bucketOf_eq_ok_iff.mpr (hk p hp)).1
    rw [kvsWrite_eq_loop hk, hl] at h
    cases h
  | read sorted hq h =>
    have hk : ∀ p ∈ sorted, p.1.startsAlnum = true := fun p hp =>
      hall p.1 (hq.1.subset (List.mem_map_of_mem hp))
    rw [kvsRead_eq_items ht hk] at h
    split_ifs at h
    cases h
  | delete sorted hq h =>
    have hk : ∀ key ∈ sorted, key.startsAlnum = true := fun key hm => hall key (hq.1.subset hm)
    obtain ⟨w', hl, -⟩ := deleteLoop_eq sorted ht ⟨[], false⟩ fun key hm =>
      bucketOf_eq_ok_iff.mpr (hk key hm)
    rw [kvsDelete_eq_loop hk, hl] at h
    cases h
  | showAll h => cases kvsShow_error h

theorem commandFault_of_key {c : Command} {key : CStr} (hk : key ∈ c.keys)
    (hs : key.startsAlnum = false) (ht : HashTable) : CommandFault c ht (.index (-1)) := by
  cases c with
  | write pairs =>
    obtain ⟨ys, hys⟩ := exists_qsortResult comparePairs
      (fun a b => strcmp_total a.1 b.1) (fun a b c => strcmp_trans) pairs
    refine .write (ys.map fun p => (p, .ok)) (by simpa [Function.comp_def] using hys) ?_
    have hm : key ∈ (ys.map fun p => (p, WriteMem.ok)).map fun p => p.1.1 := by
      simpa [Function.comp_def] using (hys.1.map Prod.fst).mem_iff.mpr hk
    rw [kvsWrite, lockWriteList, lockList_error hm hs]
    rfl
  | read keys =>
    obtain ⟨ys, hys⟩ := exists_qsortResult compareKeys strcmp_total (fun a b c => strcmp_trans) keys
    refine .read (ys.map fun key => (key, true)) (by simpa [Function.comp_def] using hys) ?_
    have hm : key ∈ (ys.map fun key => (key, true)).map Prod.fst := by
      simpa [Function.comp_def] using hys.1.mem_iff.mpr hk
    rw [kvsRead, lockReadList, lockList_error hm hs]
    rfl
  | delete keys =>
    obtain ⟨ys, hys⟩ := exists_qsortResult compareKeys strcmp_total (fun a b c => strcmp_trans) keys
    refine .delete ys hys ?_
    rw [kvsDelete, lockWriteList, lockList_error (hys.1.mem_iff.mpr hk) hs]
    rfl
  | showAll => cases hk

theorem out_of_exec_create {c : Command} {o : Except Fault (List UInt8)} {ht' : HashTable}
    (h : ∀ key ∈ c.keys, key.startsAlnum = true) (he : Exec c createHashTable o ht') :
    ∃ out, o = .ok out := by
  cases he with
  | write sorted hq h => exact ⟨_, rfl⟩
  | delete sorted hq h => exact ⟨_, rfl⟩
  | read sorted hq =>
    have hk : ∀ p ∈ sorted, p.1.startsAlnum = true := fun p hp =>
      h p.1 (hq.1.subset (List.mem_map_of_mem hp))
    have hnone : ¬ ∃ x ∈ sorted, contents createHashTable x.1 = some none := by
      rintro ⟨x, -, hx⟩
      obtain ⟨b, n, hn, -⟩ := contents_of_mem hx
      cases hn
    exact ⟨_, (kvsRead_eq_items _ hk).trans (if_neg hnone)⟩
  | showAll => exact ⟨[], rfl⟩

theorem exec_create (c : Command) (h : ∀ key ∈ c.keys, key.startsAlnum = true) :
    ∃ ht' out, Exec c createHashTable (.ok out) ht' := by
  obtain ⟨call, hplan⟩ := exists_plan c h
  obtain ⟨o, rfl, ho⟩ := hplan.course
  have hexec := (ho.exec createHashTable).exec
  obtain ⟨out, hout⟩ := out_of_exec_create h hexec
  rw [hout] at hexec
  exact ⟨_, out, hexec⟩

theorem exists_first {A : Type*} (p : A → Prop) (xs : List A) (h : ∃ x ∈ xs, p x) :
    ∃ pre x post, xs = pre ++ x :: post ∧ p x ∧ ∀ y ∈ pre, ¬ p y := by
  classical
  induction xs with
  | nil => simp at h
  | cons a xs ih =>
    by_cases ha : p a
    · exact ⟨[], a, xs, rfl, ha, by simp⟩
    · obtain ⟨pre, x, post, rfl, hx, hpre⟩ := ih (by simpa [ha] using h)
      refine ⟨a :: pre, x, post, rfl, hx, fun y hy => ?_⟩
      rcases List.mem_cons.mp hy with rfl | hy
      · exact ha
      · exact hpre y hy

/-- A job file never uses an index outside the arrays exactly when every key of its
accepted commands begins with a letter or digit. -/
theorem jobFault_iff (stack s : List UInt8) :
    (∀ i, ¬ JobFault stack s (.index i)) ↔
      ∀ c ∈ jobCommands stack s, ∀ key ∈ c.keys, key.startsAlnum = true := by
  constructor
  · intro h
    by_contra hne
    obtain ⟨cs, c, rest, heq, ⟨key, hk, hs⟩, hpre⟩ :=
      exists_first (fun c => ∃ key ∈ c.keys, key.startsAlnum = false) (jobCommands stack s)
        (by simpa using hne)
    refine h (-1) ⟨cs, c, rest, heq, fun c' hc' => ?_, createHashTable,
      commandFault_of_key hk hs _⟩
    obtain ⟨ht', out, he⟩ := exec_create c' (by simpa using hpre c' hc')
    exact ⟨createHashTable, ht', out, he⟩
  · rintro h i ⟨cs, c, rest, heq, -, ht, hf⟩
    obtain ⟨key, hk, hs⟩ := exists_key_of_commandFault hf
    have := h c (by simp [heq]) key hk
    simp [hs] at this

/-! ### Request pipes -/

/-- The key that a request uses as an index. -/
def Request.usedKey : Request → Option CStr
  | .subscribe key | .unsubscribe key => if refused key then none else some key
  | _ => none

/-- A client that has just been connected and served some requests, each on any table. -/
inductive Served : List Request → Client → Prop
  | nil {client : Client} (h : client.subscriptions = []) : Served [] client
  | snoc {rs : List Request} {client client' : Client} {r : Request} {ht ht' : HashTable}
      {luck : Luck} {closed control : Bool} : Served rs client →
      manageRequest ht client r luck closed control = .ok (ht', client', true) →
      Served (rs ++ [r]) client'

/-- The bytes of a request pipe reach a fault. -/
def SessionFault (s : List UInt8) (f : Fault) : Prop :=
  ∃ rs r rest client, requests s = rs ++ r :: rest ∧ Served rs client ∧
    ∃ ht luck closed control, manageRequest ht client r luck closed control = .error f

section Outcomes
variable {ht : HashTable} {key : CStr} {client : Client} {luck : Luck} {o : Outcome}

theorem subscriptions_of_kvsSubscribe (h : kvsSubscribe ht key client luck = .ok o) :
    ∀ k ∈ o.client.subscriptions, k ∈ client.subscriptions ∨ k.startsAlnum = true := by
  intro k hk
  cases hr : refused key with
  | true =>
    rw [kvsSubscribe_refused hr] at h
    obtain rfl := Except.ok.inj h
    exact .inl hk
  | false =>
    obtain ⟨b, hb⟩ := bucketOf_of_kvsSubscribe hr h
    have hs := bucketOf_eq_ok_iff.mp ⟨b, hb⟩
    rw [kvsSubscribe, if_neg (by simp [hr]), hb] at h
    change (if _ then _ else _) = _ at h
    have hor : k = key ∨ k ∈ client.subscriptions := by
      split_ifs at h <;> obtain rfl := Except.ok.inj h <;>
        first | exact List.mem_cons.mp hk | exact .inr hk
    rcases hor with rfl | hk
    · exact .inr hs
    · exact .inl hk

theorem subscriptions_of_kvsUnsubscribe (h : kvsUnsubscribe ht key client luck = .ok o) :
    ∀ k ∈ o.client.subscriptions, k ∈ client.subscriptions := by
  intro k hk
  cases hr : refused key with
  | true =>
    rw [kvsUnsubscribe_refused hr] at h
    obtain rfl := Except.ok.inj h
    exact hk
  | false =>
    obtain ⟨b, hb⟩ := bucketOf_of_kvsUnsubscribe hr h
    rw [kvsUnsubscribe_eq hr hb] at h
    obtain rfl := Except.ok.inj h
    exact List.mem_of_mem_filter hk

end Outcomes

theorem Served.startsAlnum {rs : List Request} {client : Client} (h : Served rs client) :
    ∀ key ∈ client.subscriptions, key.startsAlnum = true := by
  induction h with
  | nil h => simp [h]
  | @snoc rs client client' r ht ht' luck closed control _ hm ih =>
    intro key hk
    cases r with
    | connect =>
      obtain ⟨-, rfl, -⟩ := by simpa [manageRequest] using hm
      exact ih key hk
    | subscribe k =>
      obtain ⟨o, ho, hm⟩ := ok_of_bind hm
      split_ifs at hm
      · exact absurd hm terminate_not_continues
      · obtain ⟨-, rfl, -⟩ : o.ht = ht' ∧ o.client = client' ∧ True := by
          simpa [pure, Except.pure] using hm
        rcases subscriptions_of_kvsSubscribe ho key hk with hk | hs
        · exact ih key hk
        · exact hs
    | unsubscribe k =>
      obtain ⟨o, ho, hm⟩ := ok_of_bind hm
      obtain ⟨-, rfl, -⟩ : o.ht = ht' ∧ o.client = client' ∧ True := by
        simpa [pure, Except.pure] using hm
      exact ih key (subscriptions_of_kvsUnsubscribe ho key hk)
    | disconnect | noKey | unknown op | closed => exact absurd hm terminate_not_continues

theorem manageRequest_ok {client : Client} {r : Request}
    (hc : ∀ key ∈ client.subscriptions, key.startsAlnum = true)
    (hr : ∀ key, r.usedKey = some key → key.startsAlnum = true) (ht : HashTable) (luck : Luck)
    (closed control : Bool) :
    ∃ ht' client' more,
      manageRequest ht client r luck closed control = .ok (ht', client', more) := by
  cases r with
  | connect => exact ⟨ht, client, true, rfl⟩
  | subscribe k =>
    have hok : ∃ o, kvsSubscribe ht k client luck = .ok o := by
      cases hrf : refused k with
      | true => exact ⟨_, kvsSubscribe_refused hrf luck⟩
      | false =>
        obtain ⟨b, hb⟩ := bucketOf_eq_ok_iff.mpr (hr k (by simp [Request.usedKey, hrf]))
        exact kvsSubscribe_ok hrf hb luck
    obtain ⟨o, ho⟩ := hok
    rw [manageRequest, ho]
    by_cases hs : o.status ≠ 0
    · obtain ⟨ht', client', h⟩ := terminate_ok o.ht o.client closed control fun key hk =>
        (subscriptions_of_kvsSubscribe ho key hk).elim (hc key) id
      exact ⟨ht', client', false, (if_pos hs).trans h⟩
    · exact ⟨_, _, _, if_neg hs⟩
  | unsubscribe k =>
    have hok : ∃ o, kvsUnsubscribe ht k client luck = .ok o := by
      cases hrf : refused k with
      | true => exact ⟨_, kvsUnsubscribe_refused hrf luck⟩
      | false =>
        obtain ⟨b, hb⟩ := bucketOf_eq_ok_iff.mpr (hr k (by simp [Request.usedKey, hrf]))
        exact ⟨_, kvsUnsubscribe_eq hrf hb luck⟩
    obtain ⟨o, ho⟩ := hok
    rw [manageRequest, ho]
    exact ⟨_, _, _, rfl⟩
  | disconnect =>
    obtain ⟨ht', client', h⟩ := terminate_ok ht client closed false hc
    exact ⟨ht', client', false, h⟩
  | noKey | unknown op | closed =>
    obtain ⟨ht', client', h⟩ := terminate_ok ht client closed control hc
    exact ⟨ht', client', false, h⟩

theorem manageRequest_continues (client : Client) {r : Request}
    (hr : ∀ key, r.usedKey = some key → key.startsAlnum = true) (hcont : r.continues = true)
    (ht : HashTable) : ∃ ht' client', manageRequest ht client r .all true false =
      .ok (ht', client', true) := by
  cases r with
  | connect => exact ⟨ht, client, rfl⟩
  | subscribe k =>
    cases hrf : refused k with
    | true =>
      rw [manageRequest, kvsSubscribe_refused hrf]
      exact ⟨_, _, rfl⟩
    | false =>
      obtain ⟨b, hb⟩ := bucketOf_eq_ok_iff.mpr (hr k (by simp [Request.usedKey, hrf]))
      rw [manageRequest, kvsSubscribe_eq hrf hb]
      exact ⟨_, _, rfl⟩
  | unsubscribe k =>
    cases hrf : refused k with
    | true =>
      rw [manageRequest, kvsUnsubscribe_refused hrf]
      exact ⟨_, _, rfl⟩
    | false =>
      obtain ⟨b, hb⟩ := bucketOf_eq_ok_iff.mpr (hr k (by simp [Request.usedKey, hrf]))
      rw [manageRequest, kvsUnsubscribe_eq hrf hb]
      exact ⟨_, _, rfl⟩
  | disconnect | noKey | unknown op | closed => cases hcont

/-- All requests before the last let the session go on. -/
def EndsLast (xs : List Request) : Prop := ∀ r ∈ xs.dropLast, r.continues = true

theorem EndsLast.cons {r : Request} {xs : List Request} (hr : r.continues = true)
    (h : EndsLast xs) : EndsLast (r :: xs) := by
  cases xs with
  | nil => simp [EndsLast]
  | cons x xs =>
    intro r' hm
    rw [List.dropLast_cons_cons] at hm
    rcases List.mem_cons.mp hm with rfl | hm
    · exact hr
    · exact h r' hm

theorem endsLast_requestsFrom (n : ℕ) (s : List UInt8) : EndsLast (requestsFrom n s) := by
  have hone : ∀ r : Request, EndsLast [r] := fun r => by simp [EndsLast]
  induction n generalizing s with
  | zero => simp [requestsFrom, EndsLast]
  | succ n ih =>
    cases s with
    | nil => exact hone _
    | cons opcode s =>
      simp only [requestsFrom, keyRequest]
      split_ifs
      · exact (ih s).cons rfl
      · exact hone _
      · exact hone _
      · exact (ih _).cons rfl
      · exact hone _
      · exact (ih _).cons rfl
      · exact hone _

theorem continues_of_requests {s : List UInt8} {rs rest : List Request} {r : Request}
    (h : requests s = rs ++ r :: rest) : ∀ r' ∈ rs, r'.continues = true := by
  intro r' hm
  refine endsLast_requestsFrom (s.length + 1) s r' ?_
  rw [← requests, h, List.dropLast_append_of_ne_nil (List.cons_ne_nil r rest)]
  exact List.mem_append_left _ hm

theorem exists_served {rs : List Request} (hcont : ∀ r ∈ rs, r.continues = true)
    (hr : ∀ r ∈ rs, ∀ key, r.usedKey = some key → key.startsAlnum = true) :
    ∃ client, Served rs client := by
  induction rs using List.reverseRecOn with
  | nil => exact ⟨⟨0, 0, 0, []⟩, .nil rfl⟩
  | append_singleton rs r ih =>
    obtain ⟨client, hs⟩ := ih (fun r hm => hcont r (List.mem_append_left _ hm))
      fun r hm => hr r (List.mem_append_left _ hm)
    obtain ⟨ht', client', hm⟩ := manageRequest_continues client (hr r (by simp))
      (hcont r (by simp)) createHashTable
    exact ⟨client', hs.snoc hm⟩

/-- A request pipe never makes the server use an index outside the arrays exactly
when every key that is not refused begins with a letter or digit. -/
theorem sessionFault_iff (s : List UInt8) :
    (∀ i, ¬ SessionFault s (.index i)) ↔
      ∀ r ∈ requests s, ∀ key, r.usedKey = some key → key.startsAlnum = true := by
  constructor
  · intro h
    by_contra hne
    obtain ⟨rs, r, rest, heq, ⟨key, hk, hs⟩, hpre⟩ :=
      exists_first (fun r => ∃ key, r.usedKey = some key ∧ key.startsAlnum = false) (requests s)
        (by simpa using hne)
    obtain ⟨client, hserved⟩ := exists_served (continues_of_requests heq) (by simpa using hpre)
    refine h (-1) ⟨rs, r, rest, client, heq, hserved, createHashTable, .all, true, false, ?_⟩
    cases r with
    | subscribe k =>
      obtain ⟨hrf, rfl⟩ : refused k = false ∧ k = key := by simpa [Request.usedKey] using hk
      rw [manageRequest, (index_of_not_startsAlnum hrf hs .all).1]
      rfl
    | unsubscribe k =>
      obtain ⟨hrf, rfl⟩ : refused k = false ∧ k = key := by simpa [Request.usedKey] using hk
      rw [manageRequest, (index_of_not_startsAlnum hrf hs .all).2.1]
      rfl
    | connect | disconnect | noKey | unknown op | closed => cases hk
  · rintro h i ⟨rs, r, rest, client, heq, hserved, ht, luck, closed, control, hf⟩
    obtain ⟨ht', client', more, hok⟩ := manageRequest_ok hserved.startsAlnum
      (h r (by simp [heq])) ht luck closed control
    rw [hok] at hf
    cases hf

/-- The index of a key stays inside the arrays, for a job file and for a request
pipe, exactly when every key that is reached begins with a letter or digit. -/
theorem index_in_range_iff (stack job pipe : List UInt8) :
    ((∀ i, ¬ JobFault stack job (.index i)) ∧ ∀ i, ¬ SessionFault pipe (.index i)) ↔
      (∀ c ∈ jobCommands stack job, ∀ key ∈ c.keys, key.startsAlnum = true) ∧
        ∀ r ∈ requests pipe, ∀ key, r.usedKey = some key → key.startsAlnum = true :=
  and_congr (jobFault_iff stack job) (sessionFault_iff pipe)

/-- `WRITE [(!,v)]`. -/
def bangJob : List UInt8 :=
  chars ['W', 'R', 'I', 'T', 'E', ' ', '[', '(', '!', ',', 'v', ')', ']', '\n']

/-- A SUBSCRIBE request for the key `!`. -/
def bangPipe : List UInt8 := opCodeSubscribe :: byte '!' :: List.replicate 40 0

/-- Both inputs reach the arrays with the index -1. -/
theorem bang_index_out_of_range :
    JobFault [] bangJob (.index (-1)) ∧ SessionFault bangPipe (.index (-1)) := by
  constructor
  · exact ⟨[], .write [(⟨chars ['!'], by decide⟩, ⟨chars ['v'], by decide⟩)], [], by decide,
      by simp, createHashTable, commandFault_of_key List.mem_cons_self (by decide) _⟩
  · refine ⟨[], .subscribe ⟨chars ['!'], by decide⟩, [.closed], ⟨3, 4, 5, []⟩, by decide, .nil rfl,
      createHashTable, .all, true, false, ?_⟩
    rw [manageRequest, (index_of_not_startsAlnum (by decide) (by decide) .all).1]
    rfl

end IstKvs.Sessions
