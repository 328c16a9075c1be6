import IstKvs.Common.Io
import IstKvs.Server.Messages

/-! The loop of the notification thread (`process_notif_thread` of `client/main.c`), one call of
`read` at a time. The thread reports the errors of `read_all` and goes on, and nothing clears
the flag that an interrupted call sets. -/

namespace IstKvs.Client

open IstKvs.Store IstKvs.Systems IstKvs.Common
open IstKvs.Sessions (keyMessageSize)
open IstKvs.Server (Notification block length_block length_flatMap_bytes)

/-- The array that a call of `read_all` fills. -/
inductive Field
  | key | value
  deriving DecidableEq

/-- `key` and `value` are the arrays with the memory behind them, `reading` is the call of
`read_all` that is going on, and `field` the array of it or of the next one. `sent` are the
messages written to the pipe so far, and `received` is how many of their bytes the calls of
`read` have returned. -/
structure Notifier where
  key : List UInt8
  value : List UInt8
  readError : Bool
  field : Field
  reading : Option ReadCall
  running : Bool
  lines : List (CStr × CStr)
  sent : List Notification
  pipe : List UInt8
  received : ℕ

/-- The key and the value of a message as strings. -/
def pair (m : Notification) : CStr × CStr := (m.key.str, m.value.str)

namespace Notifier

inductive Event
  /-- A message is written to the pipe. -/
  | send (m : Notification)
  /-- `read_all` is called. -/
  | call
  | read (x : ReadResult)

/-- The arrays are not initialised. -/
def initial (key value : List UInt8) : Notifier :=
  ⟨key, value, false, .key, none, true, [], [], [], 0⟩

/-- An array and the memory behind it after a call of `read_all`. -/
def stored (c : ReadCall) (old : List UInt8) : List UInt8 := c.buffer ++ old.drop c.buffer.length

/-- What the thread does when `read_all` returns: 0 is the end of the pipe, and -1 is reported
only. After the value the pair is printed. -/
def returned (s : Notifier) (exit : ReadExit) (c : ReadCall) : Notifier :=
  let s := { s with reading := none, readError := c.intr = some true }
  match s.field with
  | .key =>
    let s := { s with key := stored c s.key }
    if exit.status = 0 then { s with running := false } else { s with field := .value }
  | .value =>
    let s := { s with value := stored c s.value }
    if exit.status = 0 then { s with running := false }
    else { s with field := .key
                  lines := s.lines ++ [(CStr.ofBuffer s.key, CStr.ofBuffer s.value)] }

/-- A call of `read` has left this in the pipe. -/
def moved (s : Notifier) (pipe : List UInt8) : Notifier :=
  { s with pipe := pipe, received := s.received + (s.pipe.length - pipe.length) }

/-- What follows a call of `read`: `read_all` returns, or its loop goes on. -/
def advance (s : Notifier) : Option ReadExit × ReadCall × List UInt8 → Notifier
  | (some exit, c, pipe) => (s.moved pipe).returned exit c
  | (none, c, pipe) =>
    if c.size ≤ c.buffer.length then (s.moved pipe).returned .full c
    else { s.moved pipe with reading := some c }

def step (s : Notifier) : Event → Option Notifier
  | .send m => some { s with sent := s.sent ++ [m], pipe := s.pipe ++ m.bytes }
  | .call =>
    if s.running && s.reading.isNone then
      if s.readError then some (s.returned .interrupted ⟨keyMessageSize, some true, []⟩)
      else some { s with reading := some ⟨keyMessageSize, some s.readError, []⟩ }
    else none
  | .read x => s.reading.bind fun c => (c.next s.pipe x).map s.advance

/-! ### What the thread is for -/

/-- The lines are the messages that have been read completely, in order and once each. -/
def Printed (s : Notifier) : Prop :=
  s.lines = (s.sent.take (s.received / (2 * keyMessageSize))).map pair

/-- While the thread runs, it can still read the next byte in the pipe. -/
def CanRead (s : Notifier) : Prop :=
  s.running = true → s.pipe ≠ [] →
    ∃ es t, Run (stepOf step) s es t ∧ t.received = s.received + 1

structure Faithful (s : Notifier) : Prop where
  printed : s.Printed
  canRead : s.CanRead

/-- No call of `read` is interrupted or fails. -/
def Event.calm : Event → Bool
  | .read x => x.isBytes || x = .endOfFile
  | _ => true

/-! ### Reading in step with the messages -/

/-- The bytes of the message that is being read. -/
def current (s : Notifier) : List UInt8 :=
  (match s.field with
    | .key => []
    | .value => s.key.take keyMessageSize) ++ s.reading.elim [] ReadCall.buffer

/-- The flag is clear, and the thread has printed the messages before the one that it reads. -/
structure Aligned (s : Notifier) : Prop where
  running : s.running = true
  readError : s.readError = false
  call : ∀ c, s.reading = some c →
    c.size = keyMessageSize ∧ c.intr = some false ∧ c.buffer.length < keyMessageSize
  key : s.field = .value → keyMessageSize ≤ s.key.length
  messages : ∃ done unread, s.sent = done ++ unread ∧ s.lines = done.map pair ∧
    s.current ++ s.pipe = unread.flatMap Notification.bytes ∧
    s.received = done.length * (2 * keyMessageSize) + s.current.length

section Steps
variable {s t : Notifier}

@[simp] theorem returned_received (s : Notifier) (exit : ReadExit) (c : ReadCall) :
    (s.returned exit c).received = s.received := by
  unfold returned
  cases s.field <;> simp only <;> split_ifs <;> rfl

@[simp] theorem returned_sent (s : Notifier) (exit : ReadExit) (c : ReadCall) :
    (s.returned exit c).sent = s.sent := by
  unfold returned
  cases s.field <;> simp only <;> split_ifs <;> rfl

theorem returned_endOfFile (s : Notifier) (c : ReadCall) :
    (s.returned .endOfFile c).running = false ∧ (s.returned .endOfFile c).reading = none ∧
      (s.returned .endOfFile c).lines = s.lines := by
  unfold returned
  cases s.field <;> exact ⟨rfl, rfl, rfl⟩

theorem returned_key (hf : s.field = .key) {exit : ReadExit} (he : exit.status ≠ 0)
    (c : ReadCall) :
    s.returned exit c = { s with reading := none, readError := c.intr = some true
                                 key := stored c s.key, field := .value } := by
  simp only [returned, hf, if_neg he]

theorem returned_value (hf : s.field = .value) {exit : ReadExit} (he : exit.status ≠ 0)
    (c : ReadCall) :
    s.returned exit c = { s with
      reading := none
      readError := c.intr = some true
      value := stored c s.value
      field := .key
      lines := s.lines ++ [(CStr.ofBuffer s.key, CStr.ofBuffer (stored c s.value))] } := by
  simp only [returned, hf, if_neg he]

theorem advance_received (s : Notifier) (r : Option ReadExit × ReadCall × List UInt8) :
    (s.advance r).received = s.received + (s.pipe.length - r.2.2.length) := by
  obtain ⟨exit, c, pipe⟩ := r
  cases exit with
  | some exit => exact returned_received _ exit c
  | none =>
    rw [advance]
    split_ifs
    · exact returned_received _ .full c
    · rfl

theorem step_bytes {c : ReadCall} (hr : s.reading = some c) {n count : ℕ}
    (hcount : count = min (n + 1) (c.size - c.buffer.length)) (hlen : count ≤ s.pipe.length) :
    step s (.read (.bytes n)) = some (s.advance
      (none, { c with buffer := c.buffer ++ s.pipe.take count }, s.pipe.drop count)) := by
  simp only [step, hr, Option.bind_some, ReadCall.next, ← hcount, if_neg hlen.not_gt,
    Option.map_some]

theorem moved_received {taken rest : List UInt8} (hpipe : s.pipe = taken ++ rest) :
    (s.moved rest).received = s.received + taken.length := by
  simp only [moved, hpipe, List.length_append, Nat.add_sub_cancel]

theorem read_cases {x : ReadResult} (h : step s (.read x) = some t) :
    ∃ c e c' pipe', s.reading = some c ∧ c.Next s.pipe x e c' pipe' ∧
      t = s.advance (e, c', pipe') := by
  obtain ⟨c, hc, h⟩ := Option.bind_eq_some_iff.mp h
  obtain ⟨⟨e, c', pipe'⟩, hn, rfl⟩ := Option.map_eq_some_iff.mp h
  exact ⟨c, e, c', pipe', hc, ReadCall.next_cases hn, rfl⟩

/-- The block of a string reads back as it, whatever is behind the array. -/
theorem ofBuffer_block_append (s : Server.Text) (pad : ℕ → UInt8) (behind : List UInt8) :
    CStr.ofBuffer (block s.str pad ++ behind) = s.str := by
  have hblock : (block s.str pad).takeWhile (fun b => decide (b ≠ 0)) = s.str.bytes :=
    congrArg CStr.bytes (Server.ofBuffer_block s pad)
  have hshort : s.str.bytes.length ≠ keyMessageSize := by
    have hs : s.str.bytes.length ≤ 40 := s.short
    exact ne_of_lt (Nat.lt_succ_of_le hs)
  apply CStr.ext_bytes
  refine List.takeWhile_append.trans ?_
  rw [hblock, length_block, if_neg hshort]

namespace Aligned

theorem current_lt (h : Aligned s) : s.current.length < 2 * keyMessageSize := by
  have hbuffer : (s.reading.elim [] ReadCall.buffer).length < keyMessageSize := by
    cases hr : s.reading with
    | none => decide
    | some c => exact (h.call c hr).2.2
  have hkey : (s.key.take keyMessageSize).length ≤ keyMessageSize := List.length_take_le ..
  rw [current, List.length_append]
  cases s.field with
  | key => simp only [List.length_nil]; omega
  | value => simp only; omega

theorem received_eq (h : Aligned s) :
    s.received = s.lines.length * (2 * keyMessageSize) + s.current.length := by
  obtain ⟨done, unread, -, hlines, -, hreceived⟩ := h.messages
  rw [hreceived, hlines, List.length_map]

theorem received_div (h : Aligned s) : s.received / (2 * keyMessageSize) = s.lines.length := by
  rw [h.received_eq, Nat.add_comm, Nat.add_mul_div_right _ _ (by decide),
    Nat.div_eq_of_lt h.current_lt, Nat.zero_add]

theorem printed (h : Aligned s) : s.Printed := by
  rw [Printed, h.received_div]
  obtain ⟨done, unread, hsent, hlines, -⟩ := h.messages
  rw [hsent, hlines, List.length_map, List.take_left]

/-- The lines are what `printed` makes of the bytes that have been read. -/
theorem lines_eq_printed (h : Aligned s) :
    s.lines = Server.printed ((s.sent.flatMap Notification.bytes).take s.received) := by
  obtain ⟨done, unread, hsent, hlines, hbytes, hreceived⟩ := h.messages
  have hlength : s.received = (done.flatMap Notification.bytes ++ s.current).length := by
    rw [List.length_append, length_flatMap_bytes, hreceived]
  rw [hsent, List.flatMap_append, ← hbytes, ← List.append_assoc, List.take_left' hlength.symm,
    Server.printed_messages done h.current_lt, hlines]
  rfl

theorem lines_le (h : Aligned s) : s.lines.length ≤ s.sent.length := by
  obtain ⟨done, unread, hsent, hlines, -⟩ := h.messages
  rw [hsent, hlines, List.length_map, List.length_append]
  omega

theorem send (h : Aligned s) (m : Notification) :
    Aligned { s with sent := s.sent ++ [m], pipe := s.pipe ++ m.bytes } := by
  obtain ⟨done, unread, hsent, hlines, hbytes, hreceived⟩ := h.messages
  refine ⟨h.running, h.readError, h.call, h.key, done, unread ++ [m], ?_, hlines, ?_, hreceived⟩
  · simp only [hsent, List.append_assoc]
  · rw [List.flatMap_append, ← hbytes, ← List.append_assoc]
    simp [current]

/-- The bytes that are taken from the pipe go on with the message that is read. -/
theorem messages_of_taken (h : Aligned s) {taken : List UInt8} (hpipe : s.pipe = taken ++ t.pipe)
    (hsent : t.sent = s.sent) (hlines : t.lines = s.lines)
    (hcurrent : t.current = s.current ++ taken)
    (hreceived : t.received = s.received + taken.length) :
    ∃ done unread, t.sent = done ++ unread ∧ t.lines = done.map pair ∧
      t.current ++ t.pipe = unread.flatMap Notification.bytes ∧
      t.received = done.length * (2 * keyMessageSize) + t.current.length := by
  obtain ⟨done, unread, hs, hl, hb, hr⟩ := h.messages
  refine ⟨done, unread, hsent.trans hs, hlines.trans hl, ?_, ?_⟩
  · rw [hcurrent, List.append_assoc, ← hpipe, hb]
  · rw [hreceived, hr, hcurrent, List.length_append, Nat.add_assoc]

theorem begin (h : Aligned s) (hr : s.reading = none) :
    Aligned { s with reading := some ⟨keyMessageSize, some s.readError, []⟩ } := by
  refine ⟨h.running, h.readError, ?_, h.key, ?_⟩
  · rintro c ⟨⟩
    exact ⟨rfl, congrArg some h.readError, Nat.zero_lt_succ 40⟩
  · refine h.messages_of_taken (List.nil_append s.pipe).symm rfl rfl ?_ rfl
    simp only [current, hr, Option.elim_some, Option.elim_none, List.append_nil]

section Taken
variable {c : ReadCall} {taken rest : List UInt8}

theorem more (h : Aligned s) (hr : s.reading = some c) (hpipe : s.pipe = taken ++ rest)
    (hlt : c.buffer.length + taken.length < keyMessageSize) :
    Aligned { s.moved rest with reading := some { c with buffer := c.buffer ++ taken } } := by
  obtain ⟨hsize, hintr, -⟩ := h.call c hr
  refine ⟨h.running, h.readError, ?_, h.key,
    h.messages_of_taken hpipe rfl rfl ?_ (moved_received hpipe)⟩
  · rintro d ⟨⟩
    exact ⟨hsize, hintr, by simpa using hlt⟩
  · simp only [current, moved, hr, Option.elim_some, List.append_assoc]

theorem fillKey (h : Aligned s) (hr : s.reading = some c) (hpipe : s.pipe = taken ++ rest)
    (hfull : c.buffer.length + taken.length = keyMessageSize) (hf : s.field = .key) :
    Aligned ((s.moved rest).returned .full { c with buffer := c.buffer ++ taken }) := by
  obtain ⟨-, hintr, -⟩ := h.call c hr
  have hlen : (c.buffer ++ taken).length = keyMessageSize := by rw [List.length_append, hfull]
  have hf' : (s.moved rest).field = .key := hf
  rw [returned_key hf' (by decide)]
  refine ⟨h.running, by simp [hintr], by rintro _ ⟨⟩, fun _ => ?_,
    h.messages_of_taken hpipe rfl rfl ?_ (moved_received hpipe)⟩
  · simp only [stored, List.length_append] at hlen ⊢
    omega
  · simp only [current, moved, stored, hr, hf, Option.elim_some, Option.elim_none, List.append_nil,
      List.nil_append]
    exact List.take_left' hlen

theorem fillValue (h : Aligned s) (hr : s.reading = some c) (hpipe : s.pipe = taken ++ rest)
    (hfull : c.buffer.length + taken.length = keyMessageSize) (hf : s.field = .value) :
    Aligned ((s.moved rest).returned .full { c with buffer := c.buffer ++ taken }) := by
  obtain ⟨-, hintr, -⟩ := h.call c hr
  obtain ⟨done, unread, hsent, hlines, hbytes, hreceived⟩ := h.messages
  have hlen : (c.buffer ++ taken).length = keyMessageSize := by rw [List.length_append, hfull]
  have hkey : (s.key.take keyMessageSize).length = keyMessageSize :=
    List.length_take_of_le (h.key hf)
  have hcurrent : s.current = s.key.take keyMessageSize ++ c.buffer := by
    simp only [current, hr, hf, Option.elim_some]
  have hread : s.key.take keyMessageSize ++ ((c.buffer ++ taken) ++ rest) =
      unread.flatMap Notification.bytes := by
    rw [← hbytes, hcurrent, hpipe]
    simp only [List.append_assoc]
  -- the message is the first of those that are not read
  cases unread with
  | nil =>
    have hnil := congrArg List.length hread
    rw [List.length_append, hkey] at hnil
    simp [keyMessageSize] at hnil
  | cons m unread =>
    rw [List.flatMap_cons, Notification.bytes, List.append_assoc (block _ _)] at hread
    obtain ⟨hk, hread⟩ := List.append_inj hread (by rw [hkey, length_block])
    obtain ⟨hv, hrest⟩ := List.append_inj hread (by rw [hlen, length_block])
    have hline : (CStr.ofBuffer s.key, CStr.ofBuffer (c.buffer ++ taken ++
        s.value.drop (c.buffer ++ taken).length)) = pair m := by
      rw [← List.take_append_drop keyMessageSize s.key, hk, ofBuffer_block_append, hv,
        ofBuffer_block_append]
      rfl
    have hf' : (s.moved rest).field = .value := hf
    rw [returned_value hf' (by decide)]
    refine ⟨h.running, by simp [hintr], by rintro _ ⟨⟩, by rintro ⟨⟩, done ++ [m], unread,
      ?_, ?_, ?_, ?_⟩
    · simp [moved, hsent]
    · simpa [moved, stored, hlines] using hline
    · exact hrest
    · have hbuffer : s.current.length + taken.length = 2 * keyMessageSize := by
        rw [hcurrent, List.length_append, hkey]
        omega
      show (s.moved rest).received = (done ++ [m]).length * (2 * keyMessageSize) + 0
      rw [moved_received hpipe, hreceived, Nat.add_assoc, hbuffer, List.length_append,
        List.length_singleton, Nat.add_mul, Nat.one_mul, Nat.add_zero]

end Taken

end Aligned

/-- The thread has ended, with every complete message printed. -/
structure Ended (s : Notifier) : Prop where
  running : s.running = false
  reading : s.reading = none
  printed : s.Printed
  le : s.received / (2 * keyMessageSize) ≤ s.sent.length

theorem Ended.step (h : Ended s) {e : Event} (hs : step s e = some t) : Ended t := by
  cases e with
  | send m =>
    cases hs
    refine ⟨h.running, h.reading, ?_, ?_⟩
    · show s.lines = ((s.sent ++ [m]).take _).map pair
      rw [List.take_append_of_le_length h.le]
      exact h.printed
    · have := h.le
      simp only [List.length_append]
      omega
  | call => simp [Notifier.step, h.running] at hs
  | read x => simp [Notifier.step, h.reading] at hs

namespace Aligned

theorem ended (h : Aligned s) (c : ReadCall) (pipe : List UInt8) (hpipe : pipe = s.pipe) :
    Ended ((s.moved pipe).returned .endOfFile c) := by
  obtain ⟨hrunning, hreading, hlines⟩ := returned_endOfFile (s.moved pipe) c
  have hreceived : (s.moved pipe).received = s.received := by simp [moved, hpipe]
  refine ⟨hrunning, hreading, ?_, ?_⟩
  · rw [Printed, hlines, returned_received, returned_sent, hreceived]
    exact h.printed
  · rw [returned_received, returned_sent, hreceived, h.received_div]
    exact h.lines_le

/-- A calm step keeps the thread in step with the messages, or ends it. -/
theorem step (h : Aligned s) {e : Event} (he : e.calm = true) (hs : step s e = some t) :
    Aligned t ∨ Ended t := by
  cases e with
  | send m =>
    cases hs
    exact .inl (h.send m)
  | call =>
    simp only [Notifier.step, h.readError, Bool.false_eq_true, if_false] at hs
    split_ifs at hs with hr
    cases hs
    rw [Bool.and_eq_true, Option.isNone_iff_eq_none] at hr
    have hbegin := h.begin hr.2
    rw [h.readError] at hbegin
    exact .inl hbegin
  | read x =>
    obtain ⟨c, exit, c', pipe, hr, hnext, rfl⟩ := read_cases hs
    obtain ⟨hsize, -, hlt⟩ := h.call c hr
    cases hnext with
    | bytes n count hcount hlen =>
      left
      have hpipe := (List.take_append_drop count s.pipe).symm
      have htaken : (s.pipe.take count).length = count := List.length_take_of_le hlen
      rw [advance]
      split_ifs with hfull
      · simp only [List.length_append, htaken] at hfull
        have hfull' : c.buffer.length + (s.pipe.take count).length = keyMessageSize := by omega
        cases hf : s.field with
        | key => exact h.fillKey hr hpipe hfull' hf
        | value => exact h.fillValue hr hpipe hfull' hf
      · simp only [List.length_append, htaken] at hfull
        exact h.more hr hpipe (by omega)
    | endOfFile => exact .inr (h.ended c s.pipe rfl)
    | _ => simp [Event.calm, ReadResult.isBytes] at he

end Aligned

theorem aligned_initial (key value : List UInt8) : Aligned (initial key value) :=
  ⟨rfl, rfl, by rintro _ ⟨⟩, by rintro ⟨⟩, [], [], rfl, rfl, rfl, rfl⟩

/-- The steps in which no call of `read` is interrupted or fails. -/
def Calm : Notifier → Event → Notifier → Prop := guarded (fun _ e => e.calm = true) (stepOf step)

theorem inStep_of_run {es : List Event} (h : Aligned s ∨ Ended s) (hrun : Run Calm s es t) :
    Aligned t ∨ Ended t := by
  refine hrun.invariant (I := fun s => Aligned s ∨ Ended s) h ?_
  rintro u e v (hu | hu) ⟨he, hs⟩
  · exact hu.step he hs
  · exact .inr (hu.step hs)

/-! ### The next byte -/

theorem read_byte {c : ReadCall} (hr : s.reading = some c) (hlt : c.buffer.length < c.size)
    (hpipe : s.pipe ≠ []) :
    ∃ t, step s (.read (.bytes 0)) = some t ∧ t.received = s.received + 1 := by
  have hpos := List.length_pos_iff.mpr hpipe
  refine ⟨_, step_bytes hr rfl (by omega), ?_⟩
  rw [advance_received, List.length_drop]
  omega

theorem Aligned.canRead (h : Aligned s) : s.CanRead := by
  intro hrunning hpipe
  cases hr : s.reading with
  | some c =>
    obtain ⟨hsize, -, hlt⟩ := h.call c hr
    obtain ⟨t, ht, hreceived⟩ := read_byte hr (hsize ▸ hlt) hpipe
    exact ⟨_, t, .single ht, hreceived⟩
  | none =>
    have hcall : Notifier.step s .call =
        some { s with reading := some ⟨keyMessageSize, some s.readError, []⟩ } := by
      simp [Notifier.step, hrunning, hr, h.readError]
    obtain ⟨t, ht, hreceived⟩ := read_byte
      (s := { s with reading := some ⟨keyMessageSize, some s.readError, []⟩ }) rfl
      (Nat.zero_lt_succ 40) hpipe
    exact ⟨_, t, (Run.single hcall).append (.single ht), hreceived⟩

theorem faithful_of_inStep (h : Aligned s ∨ Ended s) : Faithful s := by
  rcases h with h | h
  · exact ⟨h.printed, h.canRead⟩
  · refine ⟨h.printed, fun hrunning => ?_⟩
    rw [h.running] at hrunning
    cases hrunning

/-! ### After an interruption or an error -/

/-- More lines than messages. -/
theorem not_faithful (h : s.received / (2 * keyMessageSize) < s.lines.length) : ¬ Faithful s := by
  intro hs
  have hlines := congrArg List.length hs.printed
  rw [List.length_map, List.length_take] at hlines
  omega

/-- With the flag set the thread prints its arrays again and again and reads nothing. -/
theorem exists_of_readError (hrunning : s.running = true) (hreading : s.reading = none)
    (herror : s.readError = true) (hle : s.received / (2 * keyMessageSize) ≤ s.lines.length) :
    ∃ es t, Run Calm s es t ∧ ¬ Faithful t := by
  have hcall : ∀ {s : Notifier}, s.running = true → s.reading = none → s.readError = true →
      Calm s .call (s.returned .interrupted ⟨keyMessageSize, some true, []⟩) := by
    intro s hrunning hreading herror
    exact ⟨rfl, by simp [stepOf, step, hrunning, hreading, herror]⟩
  have hvalue : ∀ {s : Notifier}, s.running = true → s.reading = none → s.readError = true →
      s.received / (2 * keyMessageSize) ≤ s.lines.length → s.field = .value →
      ∃ es t, Run Calm s es t ∧ ¬ Faithful t := by
    intro s hrunning hreading herror hle hf
    refine ⟨_, _, .single (hcall hrunning hreading herror), not_faithful ?_⟩
    rw [returned_value hf (by decide)]
    simp only [List.length_append, List.length_singleton]
    omega
  cases hf : s.field with
  | value => exact hvalue hrunning hreading herror hle hf
  | key =>
    have hkey := hcall hrunning hreading herror
    rw [returned_key hf (by decide)] at hkey
    obtain ⟨es, t, hrun, ht⟩ := hvalue (s := { s with
      reading := none, readError := some true = some true
      key := stored ⟨keyMessageSize, some true, []⟩ s.key, field := .value }) hrunning rfl
      (by simp) hle rfl
    exact ⟨_, t, (Run.single hkey).append hrun, ht⟩

/-- `read_all` has returned in the array of the value or of the key with the flag set. -/
theorem exists_of_interrupted {exit : ReadExit} (he : exit.status ≠ 0) {c : ReadCall}
    (hintr : c.intr = some true) (hrunning : s.running = true)
    (hle : s.received / (2 * keyMessageSize) ≤
      s.lines.length + if s.field = .value then 1 else 0) :
    ∃ es t, Run Calm (s.returned exit c) es t ∧ ¬ Faithful t := by
  cases hf : s.field with
  | key =>
    rw [returned_key hf he]
    rw [hf] at hle
    exact exists_of_readError hrunning rfl (by simp [hintr]) hle
  | value =>
    rw [returned_value hf he]
    rw [hf] at hle
    refine exists_of_readError hrunning rfl (by simp [hintr]) ?_
    rw [List.length_append]
    exact hle

theorem exists_fill {c : ReadCall} (hr : s.reading = some c) (hsize : c.size = keyMessageSize)
    (m : Notification) :
    ∃ (u : Notifier) (buffer : List UInt8),
      Run Calm s [.send m, .read (.bytes 40)] (u.returned .full { c with buffer := buffer }) ∧
        u.field = s.field ∧ u.running = s.running ∧ u.lines = s.lines ∧
        u.received = s.received + (keyMessageSize - c.buffer.length) := by
  obtain ⟨v, hv⟩ : ∃ v : Notifier, v = { s with sent := s.sent ++ [m]
                                                pipe := s.pipe ++ m.bytes } := ⟨_, rfl⟩
  have hpipe : keyMessageSize - c.buffer.length ≤ v.pipe.length := by
    rw [hv, List.length_append, m.length_bytes]
    omega
  have hread := step_bytes (s := v) (n := 40) (by rw [hv]; exact hr)
    (by rw [hsize, Nat.min_eq_right]; exact Nat.sub_le ..) hpipe
  have htaken := List.length_take_of_le hpipe
  rw [advance, if_pos (by rw [hsize, List.length_append, htaken]; omega)] at hread
  refine ⟨v.moved (v.pipe.drop (keyMessageSize - c.buffer.length)), _,
    (Run.single ⟨rfl, congrArg some hv.symm⟩).append (.single ⟨rfl, hread⟩),
    by rw [hv]; rfl, by rw [hv]; rfl, by rw [hv]; rfl, ?_⟩
  rw [moved_received (List.take_append_drop _ v.pipe).symm, htaken, hv]

theorem current_key {c : ReadCall} (hr : s.reading = some c) (hf : s.field = .key) :
    s.current.length = c.buffer.length := by
  simp only [current, hf, hr, Option.elim_some, List.nil_append]

theorem Aligned.cases_of_not_calm (h : Aligned s) {x : ReadResult}
    (hx : ¬ Event.calm (.read x) = true) (hs : Notifier.step s (.read x) = some t) :
    ∃ c, s.reading = some c ∧
      (t = s.returned .failed c ∨
        t = s.returned .interrupted { c with intr := some true } ∨
        t = { s with reading := some { c with intr := some true } }) := by
  obtain ⟨c, exit, c', pipe, hr, hnext, rfl⟩ := read_cases hs
  obtain ⟨hsize, hintr, hlt⟩ := h.call c hr
  have hmoved : s.moved s.pipe = s := by simp [moved]
  refine ⟨c, hr, ?_⟩
  cases hnext with
  | failed => exact .inl (by rw [advance, hmoved])
  | first hi hb => exact .inr (.inl (by rw [advance, hmoved]))
  | later hi hb =>
    refine .inr (.inr ?_)
    rw [advance, hmoved, if_neg (by simp only; omega)]
  | ignored hi => simp [hintr] at hi
  | _ => simp [Event.calm, ReadResult.isBytes] at hx

namespace Aligned

theorem current_value (h : Aligned s) {c : ReadCall} (hr : s.reading = some c)
    (hf : s.field = .value) : s.current.length = keyMessageSize + c.buffer.length := by
  simp only [current, hf, hr, Option.elim_some, List.length_append]
  rw [List.length_take_of_le (h.key hf)]

/-- After an error the bytes of the next key are taken for the value. -/
theorem exists_of_failed (h : Aligned s) {c : ReadCall} (hr : s.reading = some c)
    (m : Notification) : ∃ es t, Run Calm (s.returned .failed c) es t ∧ ¬ Faithful t := by
  obtain ⟨-, hintr, hlt⟩ := h.call c hr
  cases hf : s.field with
  | value =>
    refine ⟨[], _, .nil, not_faithful ?_⟩
    rw [returned_value hf (by decide)]
    simp only [h.received_div, List.length_append, List.length_singleton]
    omega
  | key =>
    rw [returned_key hf (by decide)]
    obtain ⟨v, hv⟩ : ∃ v : Notifier, v = { s with
      reading := none, readError := c.intr = some true
      key := stored c s.key, field := .value } := ⟨_, rfl⟩
    have hcall : Calm v .call
        { v with reading := some ⟨keyMessageSize, some v.readError, []⟩ } :=
      ⟨rfl, by rw [hv]; simp [stepOf, Notifier.step, h.running, hintr]⟩
    obtain ⟨u, buffer, hrun, hfield, -, hlines, hreceived⟩ := exists_fill
      (s := { v with reading := some ⟨keyMessageSize, some v.readError, []⟩ }) rfl rfl m
    rw [← hv]
    refine ⟨_, _, (Run.single hcall).append hrun, not_faithful ?_⟩
    rw [returned_value (by rw [hfield, hv]) (by decide)]
    simp only [hlines, hreceived, List.length_append, List.length_singleton, hv,
      List.length_nil, Nat.sub_zero]
    rw [h.received_eq, current_key hr hf]
    simp only [keyMessageSize] at hlt ⊢
    omega

/-- An interruption inside an array shows after this array is filled. -/
theorem exists_of_late (h : Aligned s) {c : ReadCall} (hr : s.reading = some c)
    (m : Notification) :
    ∃ es t, Run Calm { s with reading := some { c with intr := some true } } es t ∧
      ¬ Faithful t := by
  obtain ⟨hsize, -, hlt⟩ := h.call c hr
  obtain ⟨u, buffer, hrun, hfield, hrunning, hlines, hreceived⟩ := exists_fill
    (s := { s with reading := some { c with intr := some true } }) rfl hsize m
  have hle : u.received / (2 * keyMessageSize) ≤
      u.lines.length + if u.field = .value then 1 else 0 := by
    rw [hreceived, hfield, hlines]
    simp only
    rw [h.received_eq]
    cases hf : s.field with
    | key =>
      rw [current_key hr hf, if_neg (by decide)]
      simp only [keyMessageSize] at hlt ⊢
      omega
    | value =>
      rw [h.current_value hr hf, if_pos rfl]
      simp only [keyMessageSize] at hlt ⊢
      omega
  have hexit : ReadExit.full.status ≠ 0 := by decide
  obtain ⟨es, t, hrun', ht⟩ := exists_of_interrupted hexit
    (c := { c with intr := some true, buffer := buffer }) rfl (hrunning.trans h.running) hle
  exact ⟨_, t, hrun.append hrun', ht⟩

/-- After a call of `read` that is interrupted or fails, the lines go wrong although every later
call returns with bytes. -/
theorem exists_of_not_calm (h : Aligned s) {e : Event} (he : ¬ e.calm = true)
    (hs : Notifier.step s e = some t) (m : Notification) :
    ∃ es u, Run Calm t es u ∧ ¬ Faithful u := by
  cases e with
  | send => exact absurd rfl he
  | call => exact absurd rfl he
  | read x =>
    obtain ⟨c, hr, rfl | rfl | rfl⟩ := h.cases_of_not_calm he hs
    · exact h.exists_of_failed hr m
    · refine exists_of_interrupted (by decide) rfl h.running ?_
      rw [h.received_div]
      exact Nat.le_add_right ..
    · exact h.exists_of_late hr m

end Aligned

theorem Ended.calm (h : Ended s) {e : Event} (hs : Notifier.step s e = some t) :
    e.calm = true := by
  cases e with
  | read x => simp [Notifier.step, h.reading] at hs
  | _ => rfl

end Steps

def arrays : List UInt8 := List.replicate keyMessageSize 0

def message : Notification := ⟨Server.keyA.toText, Server.valueA, fun _ => 0, fun _ => 1⟩

/-- As long as no call of `read` is interrupted or fails, the thread prints the messages it has
read and goes on reading; and the first call that is interrupted or fails ends that. -/
theorem faithful_iff (key value : List UInt8) {es : List Event} {s : Notifier}
    (hrun : Run Calm (initial key value) es s) :
    Faithful s ∧ ∀ e t, step s e = some t →
      ((∀ fs u, Run Calm t fs u → Faithful u) ↔ e.calm = true) := by
  have hin := inStep_of_run (.inl (aligned_initial key value)) hrun
  refine ⟨faithful_of_inStep hin, fun e t hs => ⟨fun hall => ?_, fun he fs u hu => ?_⟩⟩
  · rcases hin with h | h
    · by_contra he
      obtain ⟨fs, u, hu, hfalse⟩ := h.exists_of_not_calm he hs message
      exact hfalse (hall fs u hu)
    · exact h.calm hs
  · have ht := inStep_of_run hin (.single (⟨he, hs⟩ : Calm s e t))
    exact faithful_of_inStep (inStep_of_run ht hu)

/-- A message is read in three pieces and printed. -/
theorem faithful_iff_message : ∃ s, Run Calm (initial arrays arrays)
    [.send message, .call, .read (.bytes 9), .read (.bytes 40), .call, .read (.bytes 40)] s ∧
      s.lines = [pair message] ∧ Faithful s := by
  obtain ⟨s, hs, hlines⟩ : ∃ s, executeGuarded (fun _ => Event.calm) step (initial arrays arrays)
      [.send message, .call, .read (.bytes 9), .read (.bytes 40), .call, .read (.bytes 40)] =
        some s ∧ s.lines = [pair message] := ⟨_, rfl, by decide⟩
  exact ⟨s, run_of_executeGuarded hs, hlines,
    (faithful_iff arrays arrays (run_of_executeGuarded hs)).1⟩

/-- The first call of `read` is interrupted, and a pair that was never sent is printed. -/
theorem not_printed : ¬ ∀ (key value : List UInt8) (es : List Event) (s : Notifier),
    Run (stepOf step) (initial key value) es s → Faithful s := by
  intro h
  refine not_faithful ?_ (h arrays arrays [.call, .read .interrupted, .call] _
    (run_of_execute rfl))
  decide

end Notifier

end IstKvs.Client
