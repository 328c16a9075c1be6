import IstKvs.Server.Locks

/-! The bytes on the notification pipes. A notification is two writes of 41 bytes, and the
lock of a bucket keeps the updates of its keys apart, but a session may have subscribed to
keys of several buckets. Its pipe has whole messages as long as no two jobs with keys of
different buckets are between their two writes to it at once. -/

namespace IstKvs.Server

open IstKvs.Store IstKvs.Sessions IstKvs.Systems Function

variable {τ : Type*} {n : ℕ}

/-! ### Messages -/

/-- One notification as it is written: the strings, and the memory behind each. -/
structure Notification where
  key : Text
  value : Text
  keyPad : ℕ → UInt8
  valuePad : ℕ → UInt8

def Notification.bytes (m : Notification) : List UInt8 :=
  block m.key.str m.keyPad ++ block m.value.str m.valuePad

/-- The bytes are whole messages, each of one of the updates. -/
def Messages (updates : List (CStr × CStr)) (bytes : List UInt8) : Prop :=
  ∃ ms : List Notification, (∀ m ∈ ms, (m.key.str, m.value.str) ∈ updates) ∧
    bytes = ms.flatMap Notification.bytes

/-- The pairs that the loop of `process_notif_thread` prints, one for every two reads. -/
def printedFrom : ℕ → List UInt8 → List (CStr × CStr)
  | 0, _ => []
  | k + 1, bytes => (CStr.ofBuffer (bytes.take keyMessageSize),
      CStr.ofBuffer ((bytes.drop keyMessageSize).take keyMessageSize)) ::
        printedFrom k (bytes.drop (2 * keyMessageSize))

def printed (bytes : List UInt8) : List (CStr × CStr) :=
  printedFrom (bytes.length / (2 * keyMessageSize)) bytes

theorem length_block (s : CStr) (pad : ℕ → UInt8) : (block s pad).length = keyMessageSize := by
  simp only [block, List.length_take, List.length_append, List.length_cons, List.length_map,
    List.length_range, keyMessageSize, maxStringSize]
  omega

/-- A block reads back as its string. -/
theorem ofBuffer_block (s : Text) (pad : ℕ → UInt8) : CStr.ofBuffer (block s.str pad) = s.str := by
  have hshort : s.str.bytes.length ≤ maxStringSize := s.short
  obtain ⟨k, hk⟩ : ∃ k, keyMessageSize - s.str.bytes.length = k + 1 := by
    simp only [keyMessageSize, maxStringSize] at hshort ⊢
    exact ⟨40 - s.str.bytes.length, by omega⟩
  rw [block, List.take_append, hk, List.take_succ_cons,
    List.take_of_length_le (by simp only [keyMessageSize, maxStringSize] at hshort ⊢; omega)]
  exact CStr.ofBuffer_terminated s.str _

theorem Notification.length_bytes (m : Notification) : m.bytes.length = 2 * keyMessageSize := by
  simp only [Notification.bytes, List.length_append, length_block]
  omega

theorem length_flatMap_bytes (ms : List Notification) :
    (ms.flatMap Notification.bytes).length = ms.length * (2 * keyMessageSize) := by
  induction ms with
  | nil => simp
  | cons m ms ih =>
    rw [List.flatMap_cons, List.length_append, ih, m.length_bytes, List.length_cons, Nat.add_mul,
      Nat.one_mul, Nat.add_comm]

/-- Whole messages, with what has come of the next one, print as the updates they are of. -/
theorem printed_messages (ms : List Notification) {tail : List UInt8}
    (htail : tail.length < 2 * keyMessageSize) :
    printed (ms.flatMap Notification.bytes ++ tail) =
      ms.map fun m => (m.key.str, m.value.str) := by
  have hfrom : ∀ ms : List Notification, printedFrom ms.length
      (ms.flatMap Notification.bytes ++ tail) = ms.map fun m => (m.key.str, m.value.str) := by
    intro ms
    induction ms with
    | nil => rfl
    | cons m ms ih =>
      have hkey := length_block m.key.str m.keyPad
      have hvalue := length_block m.value.str m.valuePad
      have hdrop : (m.bytes ++ (ms.flatMap Notification.bytes ++ tail)).drop (2 * keyMessageSize) =
          ms.flatMap Notification.bytes ++ tail := by
        rw [← m.length_bytes, List.drop_left]
      rw [List.length_cons, List.flatMap_cons, List.append_assoc, printedFrom, hdrop, ih,
        Notification.bytes, List.append_assoc, List.take_left' hkey, List.drop_left' hkey,
        List.take_left' hvalue, ofBuffer_block, ofBuffer_block, List.map_cons]
  have hlength : (ms.flatMap Notification.bytes ++ tail).length / (2 * keyMessageSize) =
      ms.length := by
    rw [List.length_append, length_flatMap_bytes, Nat.add_comm,
      Nat.add_mul_div_right _ _ (by decide), Nat.div_eq_of_lt htail, Nat.zero_add]
  rw [printed, hlength, hfrom]

namespace Messages

variable {updates : List (CStr × CStr)} {bytes : List UInt8}

theorem mono (h : Messages updates bytes) (more : List (CStr × CStr)) :
    Messages (updates ++ more) bytes := by
  obtain ⟨ms, hms, rfl⟩ := h
  exact ⟨ms, fun m hm => List.mem_append_left _ (hms m hm), rfl⟩

/-- A key block and the value block of the same update make one more message. -/
theorem snoc (h : Messages updates bytes) {key value : Text}
    (hu : (key.str, value.str) ∈ updates) (keyPad valuePad : ℕ → UInt8) :
    Messages updates (bytes ++ block key.str keyPad ++ block value.str valuePad) := by
  obtain ⟨ms, hms, rfl⟩ := h
  refine ⟨ms ++ [⟨key, value, keyPad, valuePad⟩], fun m hm => ?_, ?_⟩
  · rcases List.mem_append.mp hm with hm | hm
    · exact hms m hm
    · rw [List.mem_singleton.mp hm]
      exact hu
  · simp [Notification.bytes]

theorem printed_subset (h : Messages updates bytes) (tail : List UInt8)
    (htail : tail.length < 2 * keyMessageSize) : printed (bytes ++ tail) ⊆ updates := by
  obtain ⟨ms, hms, rfl⟩ := h
  rw [printed_messages ms htail]
  intro p hp
  obtain ⟨m, hm, rfl⟩ := List.mem_map.mp hp
  exact hms m hm

end Messages

/-! ### Runs -/

/-- The update, the descriptor, and whether the key block has been written to it. -/
def Stage.message : Stage → Option (Update × Fd × Bool)
  | .notifying u (fd :: _) keySent _ _ => some (u, fd, keySent)
  | _ => none

/-- A job thread is between the two writes of a notification to a descriptor. -/
def Midway (s : State τ n) (t : τ) (u : Update) (fd : Fd) : Prop :=
  (s.stage (.job t)).message = some (u, fd, true)

/-- The descriptor that a step opens or closes. -/
def touched (s : State τ n) : Label τ n → Option Fd
  | .act a x =>
    match s.stage a with
    | .close sid kind => some (fdOf (s.client sid) kind)
    | .openPipe _ _ _ => if x.ok then some x.fd else none
    | _ => none
  | .openFile fd | .closeFile fd => some fd
  | _ => none

/-- No key block is written to a pipe to which a job thread with a key of another bucket is
midway, no descriptor is opened or closed to which one is midway, and the copy of the value is
made when a key with subscribers is written. -/
def separate (s : State τ n) (l : Label τ n) : Prop :=
  (∀ fd, touched s l = some fd → ∀ t u, ¬ Midway s t u fd) ∧
    ∀ t x, l = .act (.job t) x →
      (∀ u fd sid, (s.stage (.job t)).message = some (u, fd, false) →
        s.files fd = some (.pipe sid .notif) → ∀ t' u' fd', Midway s t' u' fd' →
          s.files fd' = some (.pipe sid .notif) → u'.key.index = u.key.index) ∧
      ∀ key value work acq node, s.stage (.job t) = .working (.write key value :: work) acq →
        findNode key.str (s.ht key.index) = some node → node.subscriber ≠ [] → x.mem.value = true

/-- What has arrived at each pipe is whole messages, and the key block of the next one while a
job thread is midway. -/
structure Framed (s : State τ n) : Prop where
  sent : ∀ t u fds keySent work acq, s.stage (.job t) = .notifying u fds keySent work acq →
    fds ≠ [] → (u.key.str, u.value.str) ∈ s.updates
  one : ∀ t t' u u' fd fd' sid, Midway s t u fd → Midway s t' u' fd' →
    s.files fd = some (.pipe sid .notif) → s.files fd' = some (.pipe sid .notif) → t = t'
  midway : ∀ t u fd sid, Midway s t u fd → s.files fd = some (.pipe sid .notif) →
    ∃ bytes pad, Messages s.updates bytes ∧ s.arrived sid = bytes ++ block u.key.str pad
  whole : ∀ sid, (∀ t u fd, Midway s t u fd → s.files fd ≠ some (.pipe sid .notif)) →
    Messages s.updates (s.arrived sid)

theorem framed_initial : Framed (State.initial : State τ n) where
  sent t u fds keySent work acq h := by cases h
  one t t' u u' fd fd' sid h := by cases h
  midway t u fd sid h := by cases h
  whole sid _ := ⟨[], nofun, rfl⟩

section Steps
variable [DecidableEq τ] {s t : State τ n} {a : Actor τ n}

theorem files_teardownStep {x : Input} (hs : teardownStep s a = some t) {fd : Fd}
    (hfd : touched s (.act a x) ≠ some fd) : t.files fd = s.files fd := by
  cases hst : s.stage a <;> simp only [teardownStep, hst, reduceCtorEq] at hs
  case walk sid rest =>
    cases rest with
    | nil => cases hs; rfl
    | cons k rest =>
      obtain ⟨key, -, hs⟩ := Option.bind_eq_some_iff.mp hs
      obtain ⟨u, hu, rfl⟩ := Option.map_eq_some_iff.mp hs
      obtain ⟨-, rfl⟩ := lock_eq hu
      rfl
  case close sid kind =>
    have hne : fd ≠ fdOf (s.client sid) kind := by
      rintro rfl
      simp [touched, hst] at hfd
    cases kind <;> cases hs <;> exact update_of_ne hne ..
  all_goals cases hs; rfl

theorem files_openStep {sid : Sid} {kind : Kind} {failed : Bool} {x : Input}
    {opened refused : Option Stage} (hst : s.stage a = .openPipe sid kind failed)
    (hs : openStep s a sid kind x opened refused = some t) {fd : Fd}
    (hfd : touched s (.act a x) ≠ some fd) : t.files fd = s.files fd := by
  unfold openStep at hs
  split_ifs at hs with hok
  · obtain ⟨st, -, rfl⟩ := Option.map_eq_some_iff.mp hs
    have hne : fd ≠ x.fd := by
      rintro rfl
      simp [touched, hst, hok] at hfd
    exact update_of_ne hne ..
  · obtain ⟨st, -, rfl⟩ := Option.map_eq_some_iff.mp hs
    rfl

/-- Steps that touch no descriptor leave the open files alone. -/
theorem files_step {l : Label τ n} (hs : step s l = some t) {fd : Fd}
    (hfd : touched s l ≠ some fd) : t.files fd = s.files fd := by
  cases l with
  | act a x =>
    cases a with
    | job i =>
      obtain ⟨ht, locks, arrived, updates, st, -, rfl⟩ := jobStep_frame hs
      rfl
    | client i =>
      change clientStep s i x = some t at hs
      cases hst : s.stage (.client i) <;> simp only [clientStep, hst] at hs
      case openPipe sid kind failed => cases kind <;> exact files_openStep hst hs hfd
      case subscribe sid key =>
        obtain ⟨u, hu, rfl⟩ := Option.map_eq_some_iff.mp hs
        obtain ⟨-, rfl⟩ := lock_eq hu
        rfl
      case unsubscribe sid key =>
        obtain ⟨u, hu, rfl⟩ := Option.map_eq_some_iff.mp hs
        obtain ⟨-, rfl⟩ := lock_eq hu
        rfl
      case readKey sid subscribe =>
        split at hs
        · cases hs; rfl
        · split at hs
          · cases hs; rfl
          · obtain ⟨key, -, rfl⟩ := Option.map_eq_some_iff.mp hs
            cases subscribe <;> rfl
      case answer sid what => cases what <;> cases hs <;> rfl
      all_goals first
        | exact files_teardownStep hs hfd
        | (repeat' split at hs) <;> cases hs <;> rfl
    | host =>
      change hostStep s x = some t at hs
      cases hst : s.stage .host <;> simp only [hostStep, hst] at hs
      all_goals first
        | exact files_teardownStep hs hfd
        | (repeat' split at hs) <;> cases hs <;> rfl
  | signal => cases hs; rfl
  | raise => simp only [step] at hs; split at hs <;> cases hs; rfl
  | openFile g =>
    simp only [step] at hs
    split at hs <;> cases hs
    exact update_of_ne (by simpa [touched, eq_comm] using hfd) ..
  | closeFile g =>
    simp only [step] at hs
    split at hs <;> cases hs
    exact update_of_ne (by simpa [touched, eq_comm] using hfd) ..

namespace Framed

omit [DecidableEq τ] in
/-- A step that sends nothing, of a thread that is no job thread. -/
theorem quiet (h : Framed s) (hstage : ∀ i, t.stage (.job i) = s.stage (.job i))
    (harrived : t.arrived = s.arrived) (hupdates : t.updates = s.updates)
    (hfiles : ∀ i u fd, Midway s i u fd → t.files fd = s.files fd) : Framed t := by
  have hmid : ∀ i u fd, Midway t i u fd ↔ Midway s i u fd := by
    intro i u fd
    rw [Midway, Midway, hstage]
  refine ⟨fun i u fds keySent work acq hst hne => ?_, fun i i' u u' fd fd' sid hm hm' hf hf' => ?_,
    fun i u fd sid hm hf => ?_, fun sid hno => ?_⟩
  · rw [hupdates]
    exact h.sent i u fds keySent work acq (by rwa [← hstage]) hne
  · rw [hmid] at hm hm'
    rw [hfiles i u fd hm] at hf
    rw [hfiles i' u' fd' hm'] at hf'
    exact h.one i i' u u' fd fd' sid hm hm' hf hf'
  · rw [hmid] at hm
    rw [hfiles i u fd hm] at hf
    rw [hupdates, harrived]
    exact h.midway i u fd sid hm hf
  · rw [hupdates, harrived]
    refine h.whole sid fun i u fd hm => ?_
    rw [← hfiles i u fd hm]
    exact hno i u fd ((hmid i u fd).mpr hm)

/-- A step of a job thread that sends nothing. -/
theorem move (h : Framed s) {i : τ} {st : Stage} {u : State τ n} (more : List (CStr × CStr))
    (hstage : u.stage = s.stage) (harrived : u.arrived = s.arrived)
    (hupdates : u.updates = s.updates ++ more) (hfiles : u.files = s.files)
    (hold : (s.stage (.job i)).message = none)
    (hsent : ∀ v fds keySent work acq, st = .notifying v fds keySent work acq → keySent = false ∧
      (fds ≠ [] → (v.key.str, v.value.str) ∈ u.updates)) : Framed (u.goto (.job i) st) := by
  have hmid : ∀ j v fd, Midway (u.goto (.job i) st) j v fd → Midway s j v fd := by
    intro j v fd hm
    rw [Midway, stage_goto, hstage] at hm
    split_ifs at hm with hj
    · cases st <;> simp only [Stage.message, reduceCtorEq] at hm
      case notifying v' fds keySent work acq =>
        obtain ⟨rfl, -⟩ := hsent v' fds keySent work acq rfl
        cases fds <;> cases hm
    · exact hm
  have hmore : ∀ p, p ∈ s.updates → p ∈ u.updates := by
    intro p hp
    rw [hupdates]
    exact List.mem_append_left _ hp
  refine ⟨fun j v fds keySent work acq hst hne => ?_, fun j j' v v' fd fd' sid hm hm' hf hf' => ?_,
    fun j v fd sid hm hf => ?_, fun sid hno => ?_⟩
  · rw [stage_goto, hstage] at hst
    split_ifs at hst
    · exact (hsent v fds keySent work acq hst).2 hne
    · exact hmore _ (h.sent j v fds keySent work acq hst hne)
  · exact h.one j j' v v' fd fd' sid (hmid _ _ _ hm) (hmid _ _ _ hm') (hfiles ▸ hf) (hfiles ▸ hf')
  · obtain ⟨bytes, pad, hb, he⟩ := h.midway j v fd sid (hmid _ _ _ hm) (hfiles ▸ hf)
    refine ⟨bytes, pad, ?_, ?_⟩
    · rw [show (u.goto (.job i) st).updates = s.updates ++ more from hupdates]
      exact hb.mono more
    · rw [show (u.goto (.job i) st).arrived = s.arrived from harrived]
      exact he
  · rw [show (u.goto (.job i) st).updates = s.updates ++ more from hupdates,
      show (u.goto (.job i) st).arrived = s.arrived from harrived]
    refine (h.whole sid fun j v fd hm => ?_).mono more
    rw [← hfiles]
    refine hno j v fd ?_
    have hj : j ≠ i := by
      rintro rfl
      rw [Midway, hold] at hm
      cases hm
    rwa [Midway, stage_goto, hstage, if_neg (by simpa using hj)]

omit [DecidableEq τ] in
theorem files_deliver (s : State τ n) (fd : Fd) (bytes : List UInt8) :
    (s.deliver fd bytes).files = s.files := by
  obtain ⟨arrived, hd⟩ := deliver_eq s fd bytes
  rw [hd]

omit [DecidableEq τ] in
theorem updates_deliver (s : State τ n) (fd : Fd) (bytes : List UInt8) :
    (s.deliver fd bytes).updates = s.updates := by
  obtain ⟨arrived, hd⟩ := deliver_eq s fd bytes
  rw [hd]

omit [DecidableEq τ] in
theorem arrived_deliver (s : State τ n) (fd : Fd) (bytes : List UInt8) (sid : Sid) :
    (s.deliver fd bytes).arrived sid =
      if s.files fd = some (.pipe sid .notif) then s.arrived sid ++ bytes else s.arrived sid := by
  unfold State.deliver
  split
  next sid' hfd =>
    by_cases hs : sid = sid'
    · subst hs
      simp [hfd]
    · have hne : sid' ≠ sid := fun he => hs he.symm
      simp [hfd, hs, hne]
  next hfd => rw [if_neg (hfd sid)]

/-- After a write the thread is where the stage says, the others are where they were. -/
theorem midway_deliver {i j : τ} {st : Stage} {fd fd' : Fd} {bytes : List UInt8} {v : Update} :
    Midway ((s.deliver fd bytes).goto (.job i) st) j v fd' ↔
      if j = i then st.message = some (v, fd', true) else Midway s j v fd' := by
  obtain ⟨arrived, hd⟩ := deliver_eq s fd bytes
  rw [Midway, stage_goto, hd]
  by_cases hj : j = i
  · subst hj
    simp
  · simp [hj, Midway]

/-- After a write the other threads are where they were. -/
theorem stage_deliver_of_ne {i j : τ} {st : Stage} {fd : Fd} {bytes : List UInt8} (hj : j ≠ i) :
    ((s.deliver fd bytes).goto (.job i) st).stage (.job j) = s.stage (.job j) := by
  obtain ⟨arrived, hd⟩ := deliver_eq s fd bytes
  rw [stage_goto, hd, if_neg (by simpa using hj)]

omit [DecidableEq τ] in
/-- A thread that is midway holds the bucket of its key. -/
theorem held_of_midway (hl : Locked s) {j : τ} {v : Update} {fd : Fd} (hm : Midway s j v fd) :
    v.key.index ∈ (s.stage (.job j)).held := by
  have hcov := hl.covered (.job j)
  cases hst : s.stage (.job j) <;> rw [Midway, hst] at hm <;>
    simp only [Stage.message, reduceCtorEq] at hm
  case notifying w fds keySent work acq =>
    rw [hst] at hcov
    cases fds <;> simp only [reduceCtorEq, Option.some.injEq, Prod.mk.injEq] at hm
    obtain ⟨rfl, -⟩ := hm
    exact hcov.1

/-- The key block goes to a pipe to which no other thread is midway. -/
theorem sendKey (h : Framed s) (hl : Locked s) {i : τ} {v : Update} {fd : Fd} {fds : List Fd}
    {work : List Update} {acq : List Bucket}
    (hst : s.stage (.job i) = .notifying v (fd :: fds) false work acq)
    (hsep : ∀ sid, s.files fd = some (.pipe sid .notif) → ∀ j v' fd', Midway s j v' fd' →
      s.files fd' = some (.pipe sid .notif) → v'.key.index = v.key.index) (pad : ℕ → UInt8) :
    Framed ((s.deliver fd (block v.key.str pad)).goto (.job i)
      (.notifying v (fd :: fds) true work acq)) := by
  have hv : v.key.index ∈ acq := by
    have hcov := hl.covered (.job i)
    rw [hst] at hcov
    exact hcov.1
  have hnot : ∀ v' fd', ¬ Midway s i v' fd' := by
    intro v' fd' hm
    rw [Midway, hst] at hm
    cases hm
  -- a thread that is midway to the same pipe would hold the same bucket lock
  have hnone : ∀ sid, s.files fd = some (.pipe sid .notif) → ∀ j v' fd', Midway s j v' fd' →
      s.files fd' ≠ some (.pipe sid .notif) := by
    intro sid hf j v' fd' hm hf'
    have hheld : v.key.index ∈ (s.stage (.job j)).held := by
      rw [← hsep sid hf j v' fd' hm hf']
      exact held_of_midway hl hm
    have hji : (Actor.job j : Actor τ n) = .job i :=
      hl.unique (b := v.key.index) (by rw [hst]; exact hv) hheld
    cases hji
    exact hnot v' fd' hm
  have hfiles : ((s.deliver fd (block v.key.str pad)).goto (.job i)
      (.notifying v (fd :: fds) true work acq)).files = s.files := files_deliver s fd _
  have hupdates : ((s.deliver fd (block v.key.str pad)).goto (.job i)
      (.notifying v (fd :: fds) true work acq)).updates = s.updates := updates_deliver s fd _
  have harrived : ∀ sid, ((s.deliver fd (block v.key.str pad)).goto (.job i)
      (.notifying v (fd :: fds) true work acq)).arrived sid =
        if s.files fd = some (.pipe sid .notif) then s.arrived sid ++ block v.key.str pad
        else s.arrived sid := arrived_deliver s fd _
  refine ⟨fun j w fds' keySent work' acq' hstj hne => ?_,
    fun j j' w w' g g' sid hm hm' hf hf' => ?_, fun j w g sid hm hf => ?_, fun sid hno => ?_⟩
  · rw [hupdates]
    by_cases hj : j = i
    · subst hj
      rw [stage_goto, if_pos rfl] at hstj
      cases hstj
      exact h.sent j v (fd :: fds) false work acq hst (by simp)
    · rw [stage_deliver_of_ne hj] at hstj
      exact h.sent j w fds' keySent work' acq' hstj hne
  · rw [hfiles] at hf hf'
    rw [midway_deliver] at hm hm'
    split_ifs at hm hm' with hj hj' hj'
    · rw [hj, hj']
    · cases hm
      exact absurd hf' (hnone sid hf j' w' g' hm')
    · cases hm'
      exact absurd hf (hnone sid hf' j w g hm)
    · exact h.one j j' w w' g g' sid hm hm' hf hf'
  · rw [hfiles] at hf
    rw [hupdates, harrived]
    rw [midway_deliver] at hm
    split_ifs at hm with hj
    · cases hm
      rw [if_pos hf]
      exact ⟨s.arrived sid, pad, h.whole sid (hnone sid hf), rfl⟩
    · rw [if_neg fun hf' => hnone sid hf' j w g hm hf]
      exact h.midway j w g sid hm hf
  · have hne : s.files fd ≠ some (.pipe sid .notif) := by
      rw [← hfiles]
      exact hno i v fd (midway_deliver.mpr (by rw [if_pos rfl]; rfl))
    rw [hupdates, harrived, if_neg hne]
    refine h.whole sid fun j w g hm => ?_
    rw [← hfiles]
    refine hno j w g (midway_deliver.mpr ?_)
    rw [if_neg (by rintro rfl; exact hnot w g hm)]
    exact hm

/-- The value block ends the message. -/
theorem sendValue (h : Framed s) {i : τ} {v : Update} {fd : Fd} {fds : List Fd}
    {work : List Update} {acq : List Bucket}
    (hst : s.stage (.job i) = .notifying v (fd :: fds) true work acq) (pad : ℕ → UInt8) :
    Framed ((s.deliver fd (block v.value.str pad)).goto (.job i)
      (.notifying v fds false work acq)) := by
  have hself : ∀ w g, Midway s i w g ↔ w = v ∧ g = fd := by
    intro w g
    rw [Midway, hst]
    simp [Stage.message, eq_comm]
  have hsent := h.sent i v (fd :: fds) true work acq hst (by simp)
  have hgone : ∀ w g, (Stage.notifying v fds false work acq).message ≠ some (w, g, true) := by
    intro w g
    cases fds <;> simp [Stage.message]
  have hfiles : ((s.deliver fd (block v.value.str pad)).goto (.job i)
      (.notifying v fds false work acq)).files = s.files := files_deliver s fd _
  have hupdates : ((s.deliver fd (block v.value.str pad)).goto (.job i)
      (.notifying v fds false work acq)).updates = s.updates := updates_deliver s fd _
  have harrived : ∀ sid, ((s.deliver fd (block v.value.str pad)).goto (.job i)
      (.notifying v fds false work acq)).arrived sid =
        if s.files fd = some (.pipe sid .notif) then s.arrived sid ++ block v.value.str pad
        else s.arrived sid := arrived_deliver s fd _
  have hother : ∀ j w g, Midway ((s.deliver fd (block v.value.str pad)).goto (.job i)
      (.notifying v fds false work acq)) j w g ↔ j ≠ i ∧ Midway s j w g := by
    intro j w g
    rw [midway_deliver]
    split_ifs with hj
    · exact iff_of_false (hgone w g) fun hm => hm.1 hj
    · simp [hj]
  refine ⟨fun j w fds' keySent work' acq' hstj hne => ?_,
    fun j j' w w' g g' sid hm hm' hf hf' => ?_, fun j w g sid hm hf => ?_, fun sid hno => ?_⟩
  · rw [hupdates]
    by_cases hj : j = i
    · subst hj
      rw [stage_goto, if_pos rfl] at hstj
      cases hstj
      exact hsent
    · rw [stage_deliver_of_ne hj] at hstj
      exact h.sent j w fds' keySent work' acq' hstj hne
  · rw [hfiles] at hf hf'
    exact h.one j j' w w' g g' sid ((hother _ _ _).mp hm).2 ((hother _ _ _).mp hm').2 hf hf'
  · obtain ⟨hj, hm⟩ := (hother j w g).mp hm
    rw [hfiles] at hf
    rw [hupdates, harrived, if_neg]
    · exact h.midway j w g sid hm hf
    · intro hf'
      exact hj (h.one j i w v g fd sid hm ((hself v fd).mpr ⟨rfl, rfl⟩) hf hf')
  · rw [hupdates, harrived]
    split_ifs with hf
    · obtain ⟨bytes, keyPad, hb, he⟩ := h.midway i v fd sid ((hself v fd).mpr ⟨rfl, rfl⟩) hf
      rw [he]
      exact hb.snoc hsent keyPad pad
    · refine h.whole sid fun j w g hm => ?_
      by_cases hj : j = i
      · subst hj
        obtain ⟨rfl, rfl⟩ := (hself w g).mp hm
        exact hf
      · rw [← hfiles]
        exact hno j w g ((hother j w g).mpr ⟨hj, hm⟩)

theorem jobStep (h : Framed s) (hl : Locked s) {i : τ} {x : Input}
    (hsep : separate s (.act (.job i) x)) (hs : jobStep s i x = some t) : Framed t := by
  obtain ⟨hkey, hcopy⟩ := hsep.2 i x rfl
  have hmove : ∀ {u : State τ n} {st : Stage}, u.stage = s.stage → u.arrived = s.arrived →
      u.updates = s.updates → u.files = s.files → (s.stage (.job i)).message = none →
      (∀ v fds keySent work acq, st ≠ .notifying v fds keySent work acq) →
      Framed (u.goto (.job i) st) := by
    intro u st hstage harrived hupdates hfiles hold hnew
    exact h.move [] hstage harrived (by rw [hupdates, List.append_nil]) hfiles hold
      fun v fds keySent work acq hst => absurd hst (hnew v fds keySent work acq)
  cases hst : s.stage (.job i) <;> simp only [Server.jobStep, hst, reduceCtorEq] at hs
  case idle =>
    cases hs
    exact hmove rfl rfl rfl rfl (by rw [hst]; rfl) (by simp)
  case locking todo work acq =>
    cases todo with
    | nil =>
      cases hs
      exact hmove rfl rfl rfl rfl (by rw [hst]; rfl) (by simp)
    | cons key todo =>
      simp only at hs
      split at hs
      · cases hs
        exact hmove rfl rfl rfl rfl (by rw [hst]; rfl) (by simp)
      · obtain ⟨u, hu, rfl⟩ := Option.map_eq_some_iff.mp hs
        obtain ⟨-, rfl⟩ := lock_eq hu
        exact hmove rfl rfl rfl rfl (by rw [hst]; rfl) (by simp)
  case working work acq =>
    have hold : (s.stage (.job i)).message = none := by rw [hst]; rfl
    cases work with
    | nil =>
      cases hs
      exact hmove rfl rfl rfl rfl hold (by simp)
    | cons v work =>
      cases v with
      | write key value =>
        cases hs
        refine h.move (if (writeChain (s.ht key.index) key.str value.str x.mem).status = 0 ∧
          x.mem.value = true then [(key.str, value.str)] else []) rfl rfl ?_ rfl hold ?_
        · dsimp only [State.setChain]
          split_ifs <;> simp
        · rintro _ _ _ _ _ ⟨⟩
          refine ⟨rfl, fun hne => ?_⟩
          -- there are subscribers: the key was found, and its value copied
          cases hn : findNode key.str (s.ht key.index) with
          | none =>
            refine absurd ?_ hne
            simp only [writeChain, hn]
            split_ifs <;> rfl
          | some node =>
            have hmem : x.mem.value = true := by
              refine hcopy key value work acq node hst hn ?_
              rintro hnil
              refine hne ?_
              simp [writeChain, hn, notifySubscribers, hnil]
            simp [writeChain, hn, hmem, Update.key, Update.value]
      | delete key =>
        cases hs
        refine h.move (if (deleteChain (s.ht key.index) key.str).status = 0 then
          [(key.str, deleteValue)] else []) rfl rfl ?_ rfl hold ?_
        · dsimp only
          split_ifs <;> simp
        · rintro _ _ _ _ _ ⟨⟩
          refine ⟨rfl, fun hne => ?_⟩
          cases hn : findNode key.str (s.ht key.index) with
          | none => simp [deleteChain, hn] at hne
          | some node => simp [deleteChain, hn, Update.key, Update.value]
  case notifying v fds keySent work acq =>
    cases fds with
    | nil =>
      have hold : (s.stage (.job i)).message = none := by rw [hst]; rfl
      cases v with
      | write key value =>
        cases hs
        exact hmove rfl rfl rfl rfl hold (by simp)
      | delete key =>
        cases hs
        exact hmove rfl rfl rfl rfl hold (by simp)
    | cons fd fds =>
      cases keySent with
      | false =>
        cases hs
        refine h.sendKey hl hst (fun sid hf j v' fd' hm hf' => ?_) x.pad
        exact hkey v fd sid (by rw [hst]; rfl) hf j v' fd' hm hf'
      | true =>
        cases hs
        exact h.sendValue hst x.pad
  case unlocking acq =>
    cases acq <;> cases hs <;> exact hmove rfl rfl rfl rfl (by rw [hst]; rfl) (by simp)

theorem step (h : Framed s) (hl : Locked s) {l : Label τ n} (hsep : separate s l)
    (hs : step s l = some t) : Framed t := by
  have hfiles : ∀ i u fd, Midway s i u fd → t.files fd = s.files fd :=
    fun i u fd hm => files_step hs fun hfd => hsep.1 fd hfd i u hm
  cases l with
  | act a x =>
    cases a with
    | job i => exact h.jobStep hl hsep hs
    | client i =>
      have hsilent := (clientStep_silent hs).1
      exact h.quiet (fun j => hsilent.others _ nofun) hsilent.arrived hsilent.updates hfiles
    | host =>
      have hsilent := hostStep_silent hs
      exact h.quiet (fun j => hsilent.others _ nofun) hsilent.arrived hsilent.updates hfiles
  | _ =>
    obtain ⟨files, control, restart, handlers, rfl⟩ := step_env rfl hs
    exact h.quiet (fun j => rfl) rfl rfl hfiles

end Framed

/-- What has arrived at a pipe: whole messages of updates, then at most the key block of one
more; so the client prints updates only. -/
def Delivered (s : State τ n) : Prop :=
  ∀ sid, (∃ bytes rest, s.arrived sid = bytes ++ rest ∧ Messages s.updates bytes ∧
    (rest = [] ∨ ∃ u : Update, ∃ pad, rest = block u.key.str pad)) ∧
    printed (s.arrived sid) ⊆ s.updates

/-- In a run that keeps the two writes of each message together, every pipe gets whole messages. -/
theorem delivered_of_run {ls : List (Label τ n)}
    (hrun : Run (guarded separate (stepOf Server.step)) State.initial ls s) : Delivered s := by
  obtain ⟨-, h⟩ := hrun.invariant (I := fun s => Locked s ∧ Framed s)
    ⟨locked_initial, framed_initial⟩ fun _ _ _ hu hs =>
      ⟨hu.1.step hs.2, hu.2.step hu.1 hs.1 hs.2⟩
  intro sid
  by_cases hmid : ∃ t u fd, Midway s t u fd ∧ s.files fd = some (.pipe sid .notif)
  · obtain ⟨t, u, fd, hm, hf⟩ := hmid
    obtain ⟨bytes, pad, hb, he⟩ := h.midway t u fd sid hm hf
    refine ⟨⟨bytes, _, he, hb, .inr ⟨u, pad, rfl⟩⟩, ?_⟩
    rw [he]
    exact hb.printed_subset _ (by rw [length_block]; decide)
  · have hb := h.whole sid fun t u fd hm hf => hmid ⟨t, u, fd, hm, hf⟩
    refine ⟨⟨s.arrived sid, [], (List.append_nil _).symm, hb, .inl rfl⟩, ?_⟩
    have hp := hb.printed_subset [] (by decide)
    rwa [List.append_nil] at hp

end Steps

/-! ### Two buckets -/

/-- A client has subscribed to keys of two buckets. -/
def subscribedTwice : List (Label Bool 1) :=
  writes true keyA valueA 7 ++ writes false keyB valueB 7 ++ connects lone 1 2 3 ++
    subscribes lone keyA.str 6 ++ subscribes lone keyB.str 6

def Label.copies : Label τ n → Bool
  | .act _ x => x.mem.value
  | _ => true

/-- Whether the next write of a thread is the value block of a message. -/
def Stage.midway (st : Stage) : Bool :=
  st.message.any fun m => m.2.2

/-- The steps that keep a run of two job threads `separate`: nothing is opened or closed while one
of them has a message to write, and neither begins a message while one is midway. -/
def separateBoth (s : State Bool n) (l : Label Bool n) : Bool :=
  ((touched s l).isNone || decide (∀ t, (s.stage (.job t)).message.isNone = true)) &&
    ((l.actor.all fun a => (s.stage a).message.isNone || (s.stage a).midway) ||
      decide (∀ t, (s.stage (.job t)).midway = false)) && l.copies

theorem separate_of_both {s : State Bool n} {l : Label Bool n} (h : separateBoth s l = true) :
    separate s l := by
  simp only [separateBoth, Bool.and_eq_true, Bool.or_eq_true, Option.isNone_iff_eq_none,
    decide_eq_true_eq] at h
  obtain ⟨⟨hfiles, hkeys⟩, hcopy⟩ := h
  refine ⟨fun fd hfd t u hm => ?_, fun t x hl => ⟨fun u fd sid hmsg _ t' u' fd' hm _ => ?_, ?_⟩⟩
  · rcases hfiles with hnone | hnone
    · rw [hfd] at hnone
      cases hnone
    · rw [Midway, hnone t] at hm
      cases hm
  · subst hl
    rcases hkeys with hactor | hmid
    · simp [Label.actor, Stage.midway, hmsg] at hactor
    · have hno := hmid t'
      rw [Midway] at hm
      simp [Stage.midway, hm] at hno
  · subst hl
    exact fun _ _ _ _ _ _ _ _ => hcopy

/-- Both job threads are about to notify the client, and write their messages one after the
other. -/
def notified : List (Label Bool 1) :=
  subscribedTwice ++ writes true keyA valueA 3 ++ writes false keyB valueB 3 ++
    steps (.job true) 2 ++ steps (.job false) 2

theorem delivered_of_run_notified :
    ∃ s : State Bool 1, Run (guarded separate (stepOf step)) State.initial notified s ∧
      Delivered s ∧
      printed (s.arrived 0) = [(keyA.str, valueA.str), (keyB.str, valueB.str)] := by
  obtain ⟨s, hs, hprinted⟩ : ∃ s : State Bool 1,
      executeGuarded separateBoth step State.initial notified = some s ∧
        printed (s.arrived 0) = [(keyA.str, valueA.str), (keyB.str, valueB.str)] := by
    have hexec : (executeGuarded separateBoth step (State.initial : State Bool 1) notified).map
        (fun s => printed (s.arrived 0)) =
          some [(keyA.str, valueA.str), (keyB.str, valueB.str)] := by decide +kernel
    exact Option.map_eq_some_iff.mp hexec
  have hrun : Run (guarded separate (stepOf step)) State.initial notified s :=
    (run_of_executeGuarded hs).mono fun s l t hs => ⟨separate_of_both hs.1, hs.2⟩
  exact ⟨s, hrun, delivered_of_run hrun, hprinted⟩

/-- Two job threads write the keys, and take turns to write to the pipe. -/
def torn : List (Label Bool 1) :=
  subscribedTwice ++ writes true keyA valueA 3 ++ writes false keyB valueB 3 ++
    steps (.job true) 1 ++ steps (.job false) 1 ++ steps (.job true) 1 ++ steps (.job false) 1

/-- The client prints `(a,b)`, which is no update. -/
theorem not_delivered :
    ∃ s : State Bool 1, Run (stepOf step) State.initial torn s ∧ ¬ Delivered s := by
  obtain ⟨s, hs, hprinted, hupdates⟩ : ∃ s : State Bool 1,
      execute step State.initial torn = some s ∧
        printed (s.arrived 0) = [(keyA.str, keyB.str), (valueA.str, valueB.str)] ∧
        s.updates = [(keyA.str, valueA.str), (keyB.str, valueB.str), (keyA.str, valueA.str),
          (keyB.str, valueB.str)] := by
    have hexec : (execute step (State.initial : State Bool 1) torn).map
        (fun s => (printed (s.arrived 0), s.updates)) =
          some ([(keyA.str, keyB.str), (valueA.str, valueB.str)],
            [(keyA.str, valueA.str), (keyB.str, valueB.str), (keyA.str, valueA.str),
              (keyB.str, valueB.str)]) := by decide +kernel
    obtain ⟨s, hs, he⟩ := Option.map_eq_some_iff.mp hexec
    exact ⟨s, hs, (Prod.mk.injEq ..).mp he⟩
  refine ⟨s, run_of_execute hs, fun h => ?_⟩
  have hmem : (keyA.str, keyB.str) ∈ s.updates :=
    (h 0).2 (by rw [hprinted]; exact List.mem_cons_self)
  rw [hupdates] at hmem
  revert hmem
  decide

end IstKvs.Server
