import IstKvs.Jobs.Listing
import IstKvs.Sessions.Notices

/-! The two words that stand for something else than a value: `KVSERROR` in the reply of a
READ and `DELETE` in a notification. The parser lets both through as values, so a reader can
tell them apart only where they were not written. -/

namespace IstKvs.Jobs

open IstKvs.Store IstKvs.Systems IstKvs.Backups IstKvs.Sessions Function

/-- The word that READ prints for a NULL result. -/
def kvsError : CStr := ⟨chars ['K', 'V', 'S', 'E', 'R', 'R', 'O', 'R'], by decide⟩

/-- What a reader takes a text for who knows the word for "no value". -/
def tell (sentinel text : CStr) : Option CStr := if text = sentinel then none else some text

theorem tell_getD {sentinel : CStr} {value : Option CStr} (h : value ≠ some sentinel) :
    tell sentinel (value.getD sentinel) = value := by
  cases value with
  | none => exact if_pos rfl
  | some v => exact if_neg fun he => h (congrArg some he)

/-! ### The reply of a READ -/

/-- The pairs that a reply shows, after its opening bracket. -/
def decodeRead (out : List UInt8) : List (CStr × CStr) := decodeItems 0 0 (out.drop 1)

/-- A value that a read gives is a field. -/
theorem StoredFields.isField_read {ht : HashTable} (h : StoredFields ht) {item : CStr × Bool}
    {value : CStr} (hr : readResult ht item = some value) : IsField value.bytes := by
  unfold readResult at hr
  split_ifs at hr
  obtain ⟨b, n, hn, -, hv⟩ := contents_of_mem (Option.join_eq_some_iff.mp hr)
  exact h.value b n hn value hv

/-- The text of an item is never cut off. -/
theorem readItem_of_isField {key : CStr} {result : Option CStr} (hk : IsField key.bytes)
    (hv : ∀ v, result = some v → IsField v.bytes) :
    readItem key result = itemText [] [] (key.bytes, (result.getD kvsError).bytes) := by
  have hkl := hk.fits
  have hlen : (result.getD kvsError).bytes.length < maxStringSize := by
    cases result with
    | none => decide
    | some v => exact (hv v rfl).fits
  have htext : readItem key result =
      snprintf maxWriteSize (itemText [] [] (key.bytes, (result.getD kvsError).bytes)) := by
    cases result <;> simp [readItem, itemText, chars, byte, kvsError]
  rw [htext, snprintf, List.take_of_length_le]
  simp only [itemText, maxStringSize, maxWriteSize, List.length_append, List.length_cons,
    List.length_nil] at hkl hlen ⊢
  omega

/-- What the loop of `kvs_read` prints for one key. -/
def Printed (ht : HashTable) (item : CStr × Bool) (p : CStr × CStr) : Prop :=
  p.1 = item.1 ∧ ∃ result, readPair ht item.1 item.2 = .ok result ∧ p.2 = result.getD kvsError

/-- A reply can be read back to one pair for each key, in the order of the reply. -/
theorem decodeRead_kvsRead {ht : HashTable} (h : StoredFields ht) {items : List (CStr × Bool)}
    (hk : ∀ x ∈ items, IsField x.1.bytes) {bytes : List UInt8}
    (hr : kvsRead ht items = .ok bytes) :
    (decodeRead bytes).map Prod.fst = items.map Prod.fst ∧
      ∀ p ∈ decodeRead bytes, ∃ x ∈ items, Printed ht x p := by
  have hvalid := startsAlnum_of_kvsRead hr
  rw [kvsRead_eq_items ht hvalid] at hr
  split_ifs at hr with hlost
  obtain rfl := Except.ok.inj hr
  generalize hpairs : (items.map fun x => (x.1, (readResult ht x).getD kvsError)) = pairs
  have hitems : items.flatMap (fun x => readItem x.1 (readResult ht x)) =
      pairs.flatMap fun p => itemText [] [] (p.1.bytes, p.2.bytes) := by
    rw [← hpairs, List.flatMap_map]
    exact List.flatMap_congr fun x hx =>
      readItem_of_isField (hk x hx) fun v hv => h.isField_read hv
  have hfields : ∀ p ∈ pairs, byte ',' ∉ p.1.bytes ∧ byte ')' ∉ p.2.bytes := by
    rw [← hpairs]
    refine List.forall_mem_map.mpr fun x hx => ?_
    refine ⟨fun hm => ((hk x hx).plain _ hm).2.1 rfl, fun hm => ?_⟩
    cases hv : readResult ht x with
    | none =>
      rw [hv] at hm
      have hnot : byte ')' ∉ kvsError.bytes := by decide
      exact hnot hm
    | some v =>
      rw [hv] at hm
      exact ((h.isField_read hv).plain _ hm).2.2.1 rfl
  have hend : ∀ s, closeList ≠ byte '(' :: s := by
    intro s he
    cases he
  have hdecode : decodeRead (openList ++ items.flatMap (fun x => readItem x.1 (readResult ht x)) ++
      closeList) = pairs := by
    rw [decodeRead, hitems]
    exact decodeItems_text [] [] hfields hend
  rw [hdecode, ← hpairs]
  constructor
  · rw [List.map_map]
    rfl
  · refine List.forall_mem_map.mpr fun x hx => ⟨x, hx, rfl, readResult ht x, ?_, rfl⟩
    rw [readPair_contents ht (hvalid x hx), if_neg fun he => hlost ⟨x, hx, he⟩]

/-- What a reply tells of the table. -/
structure ReplyTells (ht : HashTable) (items : List (CStr × Bool)) (bytes : List UInt8) :
    Prop where
  /-- One pair for each key. -/
  keys : (decodeRead bytes).map Prod.fst = items.map Prod.fst
  /-- A value that is stored, or the word for a key that is absent or whose copy failed. -/
  stored : ∀ p ∈ decodeRead bytes, readPair ht p.1 true = .ok (some p.2) ∨
    p.2 = kvsError ∧ (readPair ht p.1 true = .ok none ∨ (p.1, false) ∈ items)
  /-- Where the word is not stored and no copy failed, every key can be told. -/
  told : (∀ key, readPair ht key true ≠ .ok (some kvsError)) → (∀ x ∈ items, x.2 = true) →
    ∀ p ∈ decodeRead bytes, readPair ht p.1 true = .ok (tell kvsError p.2)

/-- A copy that fails gives NULL. -/
theorem readPair_failed {ht : HashTable} {key : CStr} {result : Option CStr}
    (h : readPair ht key false = .ok result) : result = none :=
  result_of_readPair h

theorem replyTells {ht : HashTable} (h : StoredFields ht) {items : List (CStr × Bool)}
    (hk : ∀ x ∈ items, IsField x.1.bytes) {bytes : List UInt8}
    (hr : kvsRead ht items = .ok bytes) : ReplyTells ht items bytes := by
  obtain ⟨hkeys, hpairs⟩ := decodeRead_kvsRead h hk hr
  refine ⟨hkeys, fun p hp => ?_, fun hword hmem p hp => ?_⟩
  · obtain ⟨⟨key, mem⟩, hx, hkey, result, hread, hvalue⟩ := hpairs p hp
    rw [hkey, hvalue]
    cases mem with
    | true =>
      cases result with
      | none => exact .inr ⟨rfl, .inl hread⟩
      | some v => exact .inl hread
    | false =>
      rw [readPair_failed hread]
      exact .inr ⟨rfl, .inr hx⟩
  · obtain ⟨⟨key, mem⟩, hx, hkey, result, hread, hvalue⟩ := hpairs p hp
    obtain rfl : mem = true := hmem _ hx
    have hstored : result ≠ some kvsError := by
      rintro rfl
      exact hword key hread
    rw [hkey, hvalue, tell_getD hstored]
    exact hread

/-! ### The stream of a subscriber -/

section Streams
variable {γ : Type*} [DecidableEq γ]

/-- What one call does to a key whose list has the descriptor: a value, or a deletion. -/
def change (ht : HashTable) (fd : Fd) : Op γ → List (CStr × Option CStr)
  | .writePair key value => if Subscribed ht fd key then [(key, some value)] else []
  | .deletePair key => if Subscribed ht fd key then [(key, none)] else []
  | _ => []

/-- The pair call is part of a command that the parser accepts. -/
def Submitted : Op γ → Prop
  | .writePair key value => ∃ pairs, Accepted (.write pairs) ∧ (key, value) ∈ pairs
  | .deletePair key => ∃ keys, Accepted (.delete keys) ∧ key ∈ keys
  | _ => True

omit [DecidableEq γ] in
theorem Submitted.short {op : Op γ} (h : Submitted op) : op.short := by
  cases op with
  | writePair key value =>
    obtain ⟨pairs, hc, hm⟩ := h
    obtain ⟨hkey, hvalue⟩ := hc.fieldsOnly _ hm
    exact ⟨hkey.fits, hvalue.fits⟩
  | deletePair key =>
    obtain ⟨keys, hc, hm⟩ := h
    exact (hc.fieldsOnly _ hm).fits
  | connect | subscribe | unsubscribe | disconnect => trivial

omit [DecidableEq γ] in
/-- Where the call does not write the word of a deletion, what is heard tells the change. -/
theorem tell_heardBy {ht : HashTable} {fd : Fd} {op : Op γ}
    (h : ∀ key, op ≠ .writePair key deleteValue) :
    (heardBy ht fd op).map (fun p => (p.1, tell deleteValue p.2)) = change ht fd op := by
  cases op with
  | writePair key value =>
    have hvalue : some value ≠ some deleteValue := by
      intro he
      obtain rfl := Option.some.inj he
      exact h key rfl
    have htell : tell deleteValue value = some value := tell_getD hvalue
    rw [heardBy, change]
    split_ifs
    · rw [List.map_singleton, htell]
    · rfl
  | deletePair key =>
    rw [heardBy, change]
    split_ifs <;> rfl
  | connect | subscribe | unsubscribe | disconnect => rfl

omit [DecidableEq γ] in
/-- The word of a deletion is heard of a deletion, or of a write of that word. -/
theorem deletion_of_heardBy {ht : HashTable} {fd : Fd} {op : Op γ} {key : CStr}
    (h : (key, deleteValue) ∈ heardBy ht fd op) :
    Subscribed ht fd key ∧ (op = .deletePair key ∨ op = .writePair key deleteValue) := by
  cases op with
  | writePair k v =>
    simp only [heardBy] at h
    split_ifs at h with hs
    · obtain ⟨rfl, rfl⟩ := Prod.mk.inj (List.mem_singleton.mp h)
      exact ⟨hs, .inr rfl⟩
    · cases h
  | deletePair k =>
    simp only [heardBy] at h
    split_ifs at h with hs
    · obtain ⟨rfl, -⟩ := Prod.mk.inj (List.mem_singleton.mp h)
      exact ⟨hs, .inl rfl⟩
    · cases h
  | connect | subscribe | unsubscribe | disconnect => cases h

/-- What the bytes for a descriptor tell of the calls. -/
structure StreamTells (history : List (State γ × Attempt γ)) (fd : Fd) (bytes : List UInt8) :
    Prop where
  /-- The word comes of a deletion or of a write of the word, to a key whose list the descriptor
  was on then. -/
  deletion : ∀ key, (key, deleteValue) ∈ Server.printed bytes →
    ∃ e ∈ history, Subscribed e.1.ht fd key ∧
      (e.2.op = .deletePair key ∨ e.2.op = .writePair key deleteValue)
  /-- Where the word is not written, every deletion and every write can be told. -/
  told : (∀ e ∈ history, ∀ key, e.2.op ≠ .writePair key deleteValue) →
    (Server.printed bytes).map (fun p => (p.1, tell deleteValue p.2)) =
      history.flatMap fun e => change e.1.ht fd e.2.op
  /-- Up to a new subscription whose allocations fail, the descriptor is on the lists of the keys
  that its client has subscribed to and not left since. -/
  lists : ∀ before e after, history = before ++ e :: after →
    (∀ e ∈ before, Recorded e.1 e.2) → ∀ key, Subscribed e.1.ht fd key ↔
      (interests (before.map Prod.snd)).subscribed fd key = true

theorem printed_of_submitted {history : List (State γ × Attempt γ)} {s : State γ}
    {out : Fd → List UInt8} (h : Trace history s out) (hops : ∀ e ∈ history, Submitted e.2.op)
    (fd : Fd) :
    Server.printed (out fd) = history.flatMap fun e => heardBy e.1.ht fd e.2.op :=
  printed_eq_heardBy h (fun e he => (hops e he).short) fd

theorem streamTells {history : List (State γ × Attempt γ)} {s : State γ} {out : Fd → List UInt8}
    (h : Trace history s out) (hops : ∀ e ∈ history, Submitted e.2.op) (fd : Fd) :
    StreamTells history fd (out fd) := by
  have hprinted := printed_of_submitted h hops fd
  refine ⟨fun key hm => ?_, fun hword => ?_, fun before e after heq hrec key => ?_⟩
  · rw [hprinted] at hm
    obtain ⟨e, he, hheard⟩ := List.mem_flatMap.mp hm
    exact ⟨e, he, deletion_of_heardBy hheard⟩
  · rw [hprinted, List.map_flatMap]
    exact List.flatMap_congr fun e he => tell_heardBy (hword e he)
  · obtain ⟨out', h'⟩ := h.before heq
    exact (h'.matches hrec).2.1.subscribed fd key

/-- What calls write that all succeed. -/
theorem exists_trace_lucky {ops : List (Op γ)} {s : State γ} (hrun : Run Step State.initial ops s)
    (hops : ∀ op ∈ ops, Submitted op) :
    ∃ (history : List (State γ × Attempt γ)) (out : Fd → List UInt8), Trace history s out ∧
      history.map Prod.snd = ops.map Op.lucky ∧ (∀ e ∈ history, Submitted e.2.op) ∧
      ∀ fd, Server.printed (out fd) = heardFrom .none fd (ops.map Op.lucky) := by
  obtain ⟨history, out, htrace, hcalls, hrec⟩ := exists_trace (run_lucky hrun)
  have hsubmitted : ∀ e ∈ history, Submitted e.2.op := by
    intro e he
    have hmem : e.2 ∈ ops.map Op.lucky := hcalls ▸ List.mem_map_of_mem he
    obtain ⟨op, hop, heq⟩ := List.mem_map.mp hmem
    rw [← heq]
    exact hops op hop
  refine ⟨history, out, htrace, hcalls, hsubmitted, fun fd => ?_⟩
  rw [printed_of_submitted htrace hsubmitted, (htrace.matches hrec).2.2, hcalls]

end Streams

/-! ### Both words -/

/-- In the reply of a READ the word stands for an absent key or for a value that is the word,
and in a stream for a deletion or for a write of the word; each is told apart where the word
is not written. -/
theorem words_told (γ : Type*) [DecidableEq γ] :
    (∀ ht, Reachable ht → ∀ keys, Accepted (.read keys) → (∀ key ∈ keys, key.startsAlnum = true) →
      ∀ items, QsortResult compareKeys keys (items.map Prod.fst) →
        ((∃ bytes, kvsRead ht items = .ok bytes) ∨ ∃ key ∈ keys, contents ht key = some none) ∧
          ∀ bytes, kvsRead ht items = .ok bytes → ReplyTells ht items bytes) ∧
      ∀ (history : List (State γ × Attempt γ)) (s : State γ) (out : Fd → List UInt8),
        Trace history s out → (∀ e ∈ history, Submitted e.2.op) →
          ∀ fd, StreamTells history fd (out fd) := by
  constructor
  · intro ht h keys hc hk items hq
    have hmem : ∀ x ∈ items, x.1 ∈ keys := fun x hx =>
      hq.1.mem_iff.mp (List.mem_map_of_mem hx)
    have hfields : ∀ x ∈ items, IsField x.1.bytes := fun x hx => hc.fieldsOnly x.1 (hmem x hx)
    refine ⟨?_, fun bytes => replyTells h.storedFields hfields⟩
    have hread := kvsRead_eq_items ht fun x hx => hk x.1 (hmem x hx)
    split_ifs at hread with hlost
    · obtain ⟨x, hx, hnull⟩ := hlost
      exact .inr ⟨x.1, hmem x hx, hnull⟩
    · exact .inl ⟨_, hread⟩
  · intro history s out h hops fd
    exact streamTells h hops fd

def oneKey : CStr := .ofBuffer (chars ['k'])

/-- A value that is the word of a failed READ. -/
def errorJob : List UInt8 :=
  chars ['W', 'R', 'I', 'T', 'E', ' ', '[', '(', 'k', ',', 'K', 'V', 'S', 'E', 'R', 'R', 'O', 'R',
    ')', ']', '\n']

/-- A value that is the word of a deletion. -/
def deleteJob : List UInt8 :=
  chars ['W', 'R', 'I', 'T', 'E', ' ', '[', '(', 'k', ',', 'D', 'E', 'L', 'E', 'T', 'E', ')', ']',
    '\n']

def pairJob : List UInt8 :=
  chars ['W', 'R', 'I', 'T', 'E', ' ', '[', '(', 'k', ',', 'k', ')', ']', '\n']

def deleteKeyJob : List UInt8 :=
  chars ['D', 'E', 'L', 'E', 'T', 'E', ' ', '[', 'k', ']', '\n']

theorem accepted_error : Accepted (.write [(oneKey, kvsError)]) := ⟨[], errorJob, [], by rfl⟩

theorem accepted_delete : Accepted (.write [(oneKey, deleteValue)]) := ⟨[], deleteJob, [], by rfl⟩

theorem accepted_pair : Accepted (.write [(oneKey, oneKey)]) := ⟨[], pairJob, [], by rfl⟩

theorem accepted_deleteKey : Accepted (.delete [oneKey]) := ⟨[], deleteKeyJob, [], by rfl⟩

theorem submitted_deletedKey : ∀ op ∈ deletedKey, Submitted op := by
  intro op hop
  simp only [deletedKey, List.mem_cons, List.not_mem_nil, or_false] at hop
  rcases hop with rfl | rfl | rfl | rfl
  · trivial
  · exact ⟨_, accepted_pair, List.mem_cons_self⟩
  · trivial
  · exact ⟨_, accepted_deleteKey, List.mem_cons_self⟩

/-- A client subscribes to a key, and the word of a deletion is written to it. -/
def writtenWord : List (Op Unit) :=
  [.connect () ⟨3, 4, 5, []⟩, .writePair oneKey oneKey, .subscribe () oneKey,
    .writePair oneKey deleteValue]

theorem submitted_writtenWord : ∀ op ∈ writtenWord, Submitted op := by
  intro op hop
  simp only [writtenWord, List.mem_cons, List.not_mem_nil, or_false] at hop
  rcases hop with rfl | rfl | rfl | rfl
  · trivial
  · exact ⟨_, accepted_pair, List.mem_cons_self⟩
  · trivial
  · exact ⟨_, accepted_delete, List.mem_cons_self⟩

theorem run_writtenWord : ∃ s : State Unit, Run Step State.initial writtenWord s := by
  have hb : bucketOf oneKey = .ok ⟨10, by decide⟩ := by decide
  have h₁ : Step (State.initial : State Unit) (.connect () ⟨3, 4, 5, []⟩) _ :=
    .connect rfl rfl (by rintro _ _ ⟨⟩)
  have h₂ := (Run.single h₁).snoc (.writePair (writePair_eq hb oneKey .ok))
  have h₃ := h₂.snoc (.subscribe (c := ()) rfl (kvsSubscribe_eq (by decide) hb))
  exact ⟨_, h₃.snoc (.writePair (writePair_eq hb deleteValue .ok))⟩

/-- The same reply for a key with a value and for a key without one, and the same stream for
a key that was deleted and for one that was only written. -/
theorem not_unambiguous :
    (∃ ht bytes, Reachable ht ∧ readPair ht oneKey true = .ok (some kvsError) ∧
      kvsRead ht [(oneKey, true)] = .ok bytes ∧
      readPair createHashTable oneKey true = .ok none ∧
      kvsRead createHashTable [(oneKey, true)] = .ok bytes) ∧
    ∃ (history history' : List (State Unit × Attempt Unit)) (s s' : State Unit)
      (out out' : Fd → List UInt8), Trace history s out ∧ Trace history' s' out' ∧
      history.map Prod.snd = writtenWord.map Op.lucky ∧
      history'.map Prod.snd = deletedKey.map Op.lucky ∧
      (∀ e ∈ history ++ history', Submitted e.2.op) ∧
      Server.printed (out 5) = [(oneKey, deleteValue)] ∧
      Server.printed (out' 5) = [(oneKey, deleteValue)] ∧
      ∀ key, .deletePair key ∉ writtenWord := by
  constructor
  · have hexec : Exec (.write [(oneKey, kvsError)]) createHashTable (.ok []) _ :=
      .write [((oneKey, kvsError), .ok)] ⟨List.Perm.refl _, by decide⟩ rfl
    exact ⟨_, _, .exec .create accepted_error (by decide) hexec, rfl, rfl, rfl, rfl⟩
  · obtain ⟨s, hrun⟩ := run_writtenWord
    obtain ⟨s', hrun', -⟩ := run_deletedKey
    obtain ⟨history, out, htrace, hcalls, hsub, hprinted⟩ :=
      exists_trace_lucky hrun submitted_writtenWord
    obtain ⟨history', out', htrace', hcalls', hsub', hprinted'⟩ :=
      exists_trace_lucky hrun' submitted_deletedKey
    refine ⟨history, history', s, s', out, out', htrace, htrace', hcalls, hcalls', fun e he => ?_,
      hprinted 5, hprinted' 5, fun key hm => ?_⟩
    · exact (List.mem_append.mp he).elim (hsub e) (hsub' e)
    · simp [writtenWord] at hm

/-- The table after one write, and the stream of a client that hears of a deletion. -/
theorem words_told_oneKey :
    (∃ ht bytes, Reachable ht ∧ kvsRead ht [(oneKey, true)] = .ok bytes ∧
      ReplyTells ht [(oneKey, true)] bytes) ∧
    ∃ (history : List (State Unit × Attempt Unit)) (s : State Unit) (out : Fd → List UInt8),
      Trace history s out ∧ history.map Prod.snd = deletedKey.map Op.lucky ∧
      StreamTells history 5 (out 5) := by
  obtain ⟨hread, hstream⟩ := words_told Unit
  constructor
  · have hexec : Exec (.write [(oneKey, oneKey)]) createHashTable (.ok []) _ :=
      .write [((oneKey, oneKey), .ok)] ⟨List.Perm.refl _, by decide⟩ rfl
    have hreach := Reachable.create.exec accepted_pair (by decide) hexec
    have haccepted : Accepted (.read [oneKey]) :=
      ⟨[], chars ['R', 'E', 'A', 'D', ' ', '[', 'k', ']', '\n'], [], by rfl⟩
    exact ⟨_, _, hreach, rfl, (hread _ hreach _ haccepted (by decide) [(oneKey, true)]
      ⟨List.Perm.refl _, by decide⟩).2 _ rfl⟩
  · obtain ⟨s, hrun, -⟩ := run_deletedKey
    obtain ⟨history, out, htrace, hcalls, hsub, -⟩ :=
      exists_trace_lucky hrun submitted_deletedKey
    exact ⟨history, s, out, htrace, hcalls, hstream history s out htrace hsub 5⟩

end IstKvs.Jobs
