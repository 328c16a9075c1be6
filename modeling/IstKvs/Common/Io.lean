import IstKvs.Systems.Channel
import IstKvs.Systems.Run

/-! The loops of `read_all` and `write_all` (`common/io.c`), one call of `read` or `write`
at a time. A pipe is the bytes in it from the next one to be read on; how many bytes a
call moves, and which calls are interrupted, meet the end of file or fail, is given by a
list of results. -/

namespace IstKvs.Common

open IstKvs.Systems

/-! ### `read_all` -/

/-- How a call of `read` returns: with `n + 1` bytes, or as many as were asked for if these are
fewer, with 0, or with -1 and `EINTR` or another `errno`. -/
inductive ReadResult
  | bytes (n : ℕ)
  | endOfFile
  | interrupted
  | failed
  deriving DecidableEq

def ReadResult.isBytes : ReadResult → Bool
  | .bytes _ => true
  | _ => false

/-- The exits of `read_all`. -/
inductive ReadExit
  | full | endOfFile | interrupted | failed
  deriving DecidableEq

def ReadExit.status : ReadExit → ℤ
  | .full => 1
  | .endOfFile => 0
  | .interrupted | .failed => -1

/-- The variables of `read_all`: `buffer` are the `bytes_read` bytes stored so far, `intr` is
`*intr`, or `none` for a NULL pointer. -/
structure ReadCall where
  size : ℕ
  intr : Option Bool
  buffer : List UInt8
  deriving DecidableEq

/-- One call of `read`, which waits until the pipe has the bytes, and what the loop does with
its result: it goes on or returns. -/
def ReadCall.next (c : ReadCall) (pipe : List UInt8) :
    ReadResult → Option (Option ReadExit × ReadCall × List UInt8)
  | .bytes n =>
    let count := min (n + 1) (c.size - c.buffer.length)
    if pipe.length < count then none
    else some (none, { c with buffer := c.buffer ++ pipe.take count }, pipe.drop count)
  | .endOfFile => some (some .endOfFile, c, pipe)
  | .interrupted =>
    if c.intr.isSome then
      let c := { c with intr := some true }
      if c.buffer = [] then some (some .interrupted, c, pipe) else some (none, c, pipe)
    else some (none, c, pipe)
  | .failed => some (some .failed, c, pipe)

/-- How a call of `read_all` ends, with the pipe and the results that are left. -/
structure ReadAll where
  exit : ReadExit
  call : ReadCall
  pipe : List UInt8
  results : List ReadResult
  deriving DecidableEq

def readLoop (c : ReadCall) (pipe : List UInt8) (results : List ReadResult) : Option ReadAll :=
  if c.size ≤ c.buffer.length then some ⟨.full, c, pipe, results⟩
  else match results with
    | [] => none
    | r :: results =>
      match c.next pipe r with
      | none => none
      | some (some exit, c, pipe) => some ⟨exit, c, pipe, results⟩
      | some (none, c, pipe) => readLoop c pipe results

/-- `none` while a call of `read` waits. -/
def readAll (size : ℕ) (intr : Option Bool) (pipe : List UInt8) (results : List ReadResult) :
    Option ReadAll :=
  if intr = some true then some ⟨.interrupted, ⟨size, intr, []⟩, pipe, results⟩
  else readLoop ⟨size, intr, []⟩ pipe results

/-! ### What `read_all` does -/

/-- What a call of `read` leaves of the variables and of the pipe. -/
inductive ReadCall.Next (c : ReadCall) (pipe : List UInt8) :
    ReadResult → Option ReadExit → ReadCall → List UInt8 → Prop
  | bytes (n count : ℕ) (hcount : count = min (n + 1) (c.size - c.buffer.length))
      (h : count ≤ pipe.length) : Next c pipe (.bytes n) none
        { c with buffer := c.buffer ++ pipe.take count } (pipe.drop count)
  | endOfFile : Next c pipe .endOfFile (some .endOfFile) c pipe
  | first (h : c.intr.isSome) (hb : c.buffer = []) :
      Next c pipe .interrupted (some .interrupted) { c with intr := some true } pipe
  | later (h : c.intr.isSome) (hb : c.buffer ≠ []) :
      Next c pipe .interrupted none { c with intr := some true } pipe
  | ignored (h : c.intr = none) : Next c pipe .interrupted none c pipe
  | failed : Next c pipe .failed (some .failed) c pipe

theorem ReadCall.next_cases {c c' : ReadCall} {pipe pipe' : List UInt8} {x : ReadResult}
    {e : Option ReadExit} (h : c.next pipe x = some (e, c', pipe')) :
    c.Next pipe x e c' pipe' := by
  cases x with
  | bytes n =>
    simp only [ReadCall.next] at h
    split_ifs at h with hlen
    cases h
    exact .bytes n _ rfl (by omega)
  | endOfFile =>
    cases h
    exact .endOfFile
  | interrupted =>
    simp only [ReadCall.next] at h
    split_ifs at h with hi hb
    · cases h
      exact .first hi hb
    · cases h
      exact .later hi hb
    · cases h
      exact .ignored (by simpa using hi)
  | failed =>
    cases h
    exact .failed

/-- What the loop has done when `read_all` returns, with the results of its calls of `read`. -/
structure Reads (c : ReadCall) (pipe : List UInt8) (used : List ReadResult) (r : ReadAll) :
    Prop where
  size : r.call.size = c.size
  moved : ∃ taken, pipe = taken ++ r.pipe ∧ r.call.buffer = c.buffer ++ taken
  le : r.call.buffer.length ≤ c.size
  full : r.exit = .full ↔ r.call.buffer.length = c.size
  unmoved : r.call.buffer = c.buffer ↔ ∀ x ∈ used, x.isBytes = false
  endOfFile : r.exit = .endOfFile ↔ .endOfFile ∈ used
  failed : r.exit = .failed ↔ .failed ∈ used
  interrupted : r.exit = .interrupted → r.call.buffer = []
  intr : r.call.intr = if .interrupted ∈ used then c.intr.map fun _ => true else c.intr

section Reads
variable {c c' : ReadCall} {pipe pipe' : List UInt8} {used results : List ReadResult} {r : ReadAll}
  {x : ReadResult}

theorem reads_of_full (hc : c.buffer.length ≤ c.size) (hfull : c.size ≤ c.buffer.length) :
    Reads c pipe [] ⟨.full, c, pipe, results⟩ where
  size := rfl
  moved := ⟨[], rfl, (List.append_nil _).symm⟩
  le := hc
  full := iff_of_true rfl (le_antisymm hc hfull)
  unmoved := by simp
  endOfFile := by simp
  failed := by simp
  interrupted := nofun
  intr := by simp

/-- A call of `read` after which `read_all` returns. -/
theorem ReadCall.Next.returned {exit : ReadExit} (h : c.Next pipe x (some exit) c' pipe')
    (hc : c.buffer.length < c.size) : Reads c pipe [x] ⟨exit, c', pipe', results⟩ := by
  cases h with
  | endOfFile =>
    exact ⟨rfl, ⟨[], rfl, by simp⟩, hc.le, by simp [hc.ne], by simp [ReadResult.isBytes],
      by simp, by simp, nofun, by simp⟩
  | first hi hb =>
    refine ⟨rfl, ⟨[], rfl, by simp⟩, hc.le, by simp [hc.ne], by simp [ReadResult.isBytes],
      by simp, by simp, fun _ => hb, ?_⟩
    obtain ⟨b, hi⟩ := Option.isSome_iff_exists.mp hi
    simp [hi]
  | failed =>
    exact ⟨rfl, ⟨[], rfl, by simp⟩, hc.le, by simp [hc.ne], by simp [ReadResult.isBytes],
      by simp, by simp, nofun, by simp⟩

/-- A call of `read` after which the loop goes on. -/
theorem ReadCall.Next.cons (h : c.Next pipe x none c' pipe') (hc : c.buffer.length < c.size)
    (hr : Reads c' pipe' used r) : Reads c pipe (x :: used) r := by
  obtain ⟨taken, hpipe, hbuffer⟩ := hr.moved
  cases h with
  | bytes n count hcount hlen =>
    have htake : (pipe.take count).length = count := List.length_take_of_le hlen
    have hmoved : r.call.buffer = c.buffer ++ (pipe.take count ++ taken) := by
      rw [hbuffer, List.append_assoc]
    refine ⟨hr.size, ⟨pipe.take count ++ taken, ?_, hmoved⟩, hr.le, hr.full, ?_, ?_, ?_,
      hr.interrupted, ?_⟩
    · rw [List.append_assoc, ← hpipe, List.take_append_drop]
    · refine iff_of_false (fun he => ?_) (by simp [ReadResult.isBytes])
      have := congrArg List.length (hmoved.symm.trans he)
      rw [List.length_append, List.length_append, htake] at this
      omega
    · simpa using hr.endOfFile
    · simpa using hr.failed
    · simpa using hr.intr
  | later hi hb =>
    refine ⟨hr.size, ⟨taken, hpipe, hbuffer⟩, hr.le, hr.full, ?_, ?_, ?_, hr.interrupted, ?_⟩
    · simpa [ReadResult.isBytes] using hr.unmoved
    · simpa using hr.endOfFile
    · simpa using hr.failed
    · obtain ⟨b, hi⟩ := Option.isSome_iff_exists.mp hi
      rw [hr.intr]
      simp [hi]
  | ignored hi =>
    refine ⟨hr.size, ⟨taken, hpipe, hbuffer⟩, hr.le, hr.full, ?_, ?_, ?_, hr.interrupted, ?_⟩
    · simpa [ReadResult.isBytes] using hr.unmoved
    · simpa using hr.endOfFile
    · simpa using hr.failed
    · rw [hr.intr]
      simp [hi]

theorem ReadCall.Next.bounded {e : Option ReadExit} (h : c.Next pipe x e c' pipe')
    (hc : c.buffer.length ≤ c.size) : c'.buffer.length ≤ c'.size := by
  cases h with
  | bytes n count hcount hlen =>
    rw [List.length_append, List.length_take_of_le hlen]
    simp only
    omega
  | _ => exact hc

theorem readLoop_spec (hc : c.buffer.length ≤ c.size) (h : readLoop c pipe results = some r) :
    ∃ used, results = used ++ r.results ∧ Reads c pipe used r := by
  induction results generalizing c pipe with
  | nil =>
    rw [readLoop] at h
    split_ifs at h with hfull
    cases h
    exact ⟨[], rfl, reads_of_full hc hfull⟩
  | cons x results ih =>
    rw [readLoop] at h
    split_ifs at h with hfull
    · cases h
      exact ⟨[], rfl, reads_of_full hc hfull⟩
    · have hlt := Nat.lt_of_not_le hfull
      cases hn : c.next pipe x with
      | none => simp [hn] at h
      | some next =>
        obtain ⟨e, c', pipe'⟩ := next
        have hnext := ReadCall.next_cases hn
        cases e with
        | some exit =>
          simp only [hn, Option.some.injEq] at h
          subst h
          exact ⟨[x], rfl, hnext.returned hlt⟩
        | none =>
          simp only [hn] at h
          obtain ⟨used, rfl, hr⟩ := ih (hnext.bounded hc) h
          exact ⟨x :: used, rfl, hnext.cons hlt hr⟩

/-- `read_all` refuses at once when `*intr` is set, and otherwise enters its loop. -/
theorem readAll_spec {size : ℕ} {intr : Option Bool} (h : readAll size intr pipe results = some r) :
    (intr = some true ∧ r = ⟨.interrupted, ⟨size, intr, []⟩, pipe, results⟩) ∨
      (intr ≠ some true ∧
        ∃ used, results = used ++ r.results ∧ Reads ⟨size, intr, []⟩ pipe used r) := by
  rw [readAll] at h
  split_ifs at h with hi
  · exact .inl ⟨hi, (Option.some.inj h).symm⟩
  · exact .inr ⟨hi, readLoop_spec (Nat.zero_le _) h⟩

theorem Reads.pipe_eq {size : ℕ} {intr : Option Bool} (hr : Reads ⟨size, intr, []⟩ pipe used r) :
    pipe = r.call.buffer ++ r.pipe := by
  obtain ⟨taken, hpipe, hbuffer⟩ := hr.moved
  rw [hpipe, hbuffer]
  rfl

end Reads

theorem ReadExit.status_eq_one {exit : ReadExit} : exit.status = 1 ↔ exit = .full := by
  cases exit <;> decide

/-! ### `write_all` -/

/-- How a call of `write` returns: with `n + 1` bytes written, or all that were given if these
are fewer, or with -1 and `EINTR` or another `errno`. -/
inductive WriteResult
  | bytes (n : ℕ)
  | interrupted
  | failed
  deriving DecidableEq

structure WriteCall where
  buffer : List UInt8
  bytesWritten : ℕ
  deriving DecidableEq

/-- One call of `write`: whether `write_all` returns -1 after it. -/
def WriteCall.next (c : WriteCall) (pipe : List UInt8) :
    WriteResult → Bool × WriteCall × List UInt8
  | .bytes n =>
    let count := min (n + 1) (c.buffer.length - c.bytesWritten)
    (false, { c with bytesWritten := c.bytesWritten + count },
      pipe ++ (c.buffer.drop c.bytesWritten).take count)
  | .interrupted => (false, c, pipe)
  | .failed => (true, c, pipe)

structure WriteAll where
  status : ℤ
  pipe : List UInt8
  results : List WriteResult
  deriving DecidableEq

def writeLoop (c : WriteCall) (pipe : List UInt8) (results : List WriteResult) : Option WriteAll :=
  if c.buffer.length ≤ c.bytesWritten then some ⟨1, pipe, results⟩
  else match results with
    | [] => none
    | r :: results =>
      match c.next pipe r with
      | (true, _, pipe) => some ⟨-1, pipe, results⟩
      | (false, c, pipe) => writeLoop c pipe results

def writeAll (buffer pipe : List UInt8) (results : List WriteResult) : Option WriteAll :=
  writeLoop ⟨buffer, 0⟩ pipe results

/-! ### What `write_all` does -/

theorem WriteCall.next_spec (c : WriteCall) (pipe : List UInt8) (x : WriteResult) :
    (c.next pipe x).2.1.buffer = c.buffer ∧
      (c.next pipe x).2.2 ++ (c.next pipe x).2.1.buffer.drop (c.next pipe x).2.1.bytesWritten =
        pipe ++ c.buffer.drop c.bytesWritten := by
  cases x with
  | bytes n =>
    refine ⟨rfl, ?_⟩
    simp only [WriteCall.next]
    rw [← List.drop_drop, List.append_assoc, List.take_append_drop]
  | interrupted => exact ⟨rfl, rfl⟩
  | failed => exact ⟨rfl, rfl⟩

theorem writeLoop_spec {c : WriteCall} {pipe : List UInt8} {results : List WriteResult}
    {r : WriteAll} (h : writeLoop c pipe results = some r) (hr : r.status = 1) :
    r.pipe = pipe ++ c.buffer.drop c.bytesWritten := by
  induction results generalizing c pipe with
  | nil =>
    rw [writeLoop] at h
    split_ifs at h with hfull
    cases h
    rw [List.drop_of_length_le hfull, List.append_nil]
  | cons x results ih =>
    rw [writeLoop] at h
    split_ifs at h with hfull
    · cases h
      rw [List.drop_of_length_le hfull, List.append_nil]
    · have hnext := (c.next_spec pipe x).2
      rcases hn : c.next pipe x with ⟨failed, c', pipe'⟩
      rw [hn] at hnext
      simp only [hn] at h
      cases failed with
      | true =>
        cases h
        cases hr
      | false => exact (ih h).trans hnext

/-! ### A sequence of messages

A process sends messages with `write_all`, another receives them with calls of `read_all` of
the same sizes, and the calls of `write` and `read` come in any order. -/

/-- `returned` are the statuses of the calls of either process that have returned. -/
structure Transfer where
  pipe : List UInt8
  unsent : List (List UInt8)
  writing : Option WriteCall
  sizes : List ℕ
  reading : Option ReadCall
  received : List (List UInt8)
  returned : List ℤ

inductive Event
  /-- `write_all` is called with the next message, and returns 1. -/
  | send
  | sent
  | write (result : WriteResult)
  /-- `read_all` is called for the next size, with any value of `*intr`, and returns 1. -/
  | receive (intr : Option Bool)
  | received
  | read (result : ReadResult)
  deriving DecidableEq

namespace Transfer

def initial (messages : List (List UInt8)) : Transfer :=
  ⟨[], messages, none, messages.map List.length, none, [], []⟩

def writeStep (s : Transfer) (c : WriteCall) (x : WriteResult) : Transfer :=
  match c.next s.pipe x with
  | (true, _, pipe) => { s with pipe := pipe, writing := none, returned := s.returned ++ [-1] }
  | (false, c, pipe) => { s with pipe := pipe, writing := some c }

def readStep (s : Transfer) (c : ReadCall) (x : ReadResult) : Option Transfer :=
  match c.next s.pipe x with
  | none => none
  | some (some exit, _, pipe) =>
    some { s with pipe := pipe, reading := none, returned := s.returned ++ [exit.status] }
  | some (none, c, pipe) => some { s with pipe := pipe, reading := some c }

def step (s : Transfer) : Event → Option Transfer
  | .send =>
    match s.writing, s.unsent with
    | none, message :: unsent => some { s with unsent := unsent, writing := some ⟨message, 0⟩ }
    | _, _ => none
  | .write x =>
    match s.writing with
    | some c => if c.buffer.length ≤ c.bytesWritten then none else some (s.writeStep c x)
    | none => none
  | .sent =>
    match s.writing with
    | some c =>
      if c.buffer.length ≤ c.bytesWritten then
        some { s with writing := none, returned := s.returned ++ [1] }
      else none
    | none => none
  | .receive intr =>
    match s.reading, s.sizes with
    | none, size :: sizes =>
      if intr = some true then some { s with sizes := sizes, returned := s.returned ++ [-1] }
      else some { s with sizes := sizes, reading := some ⟨size, intr, []⟩ }
    | _, _ => none
  | .read x =>
    match s.reading with
    | some c => if c.size ≤ c.buffer.length then none else s.readStep c x
    | none => none
  | .received =>
    match s.reading with
    | some c =>
      if c.size ≤ c.buffer.length then
        some { s with reading := none, received := s.received ++ [c.buffer]
                      returned := s.returned ++ [1] }
      else none
    | none => none

/-- The bytes of the messages on their way from one process to the other. -/
def channel (s : Transfer) : Channel UInt8 where
  unsent := (s.writing.elim [] fun c => c.buffer.drop c.bytesWritten) ++ s.unsent.flatten
  queue := s.pipe
  buffer := s.reading.elim [] ReadCall.buffer
  delivered := s.received

/-- The sizes of the messages received, of the one that is read and of those to come. -/
structure Sized (messages : List (List UInt8)) (s : Transfer) : Prop where
  sizes : s.received.map List.length ++ (s.reading.elim [] (fun c => [c.size]) ++ s.sizes) =
    messages.map List.length
  bounded : ∀ c, s.reading = some c → c.buffer.length ≤ c.size

variable {messages : List (List UInt8)} {s t : Transfer}

theorem sized_initial (messages : List (List UInt8)) : Sized messages (initial messages) :=
  ⟨rfl, nofun⟩

theorem writeStep_channel {c : WriteCall} {x : WriteResult} (hc : s.writing = some c)
    (hok : ∀ y ∈ (s.writeStep c x).returned, y = 1) :
    (s.writeStep c x).channel = s.channel ∨
      Channel.Step messages s.channel (s.writeStep c x).channel := by
  cases x with
  | bytes n =>
    right
    have hput : Channel.Step messages s.channel _ :=
      .put (min (n + 1) (c.buffer.length - c.bytesWritten))
    have hle : min (n + 1) (c.buffer.length - c.bytesWritten) ≤
        (c.buffer.drop c.bytesWritten).length := by
      rw [List.length_drop]
      exact min_le_right ..
    simp only [channel, hc, Option.elim_some, List.drop_append_of_le_length hle,
      List.take_append_of_le_length hle, List.drop_drop] at hput
    simpa only [channel, hc, Option.elim_some, writeStep, WriteCall.next] using hput
  | interrupted =>
    left
    simp [channel, hc, writeStep, WriteCall.next]
  | failed =>
    have := hok (-1) (List.mem_append_right _ (List.mem_singleton_self _))
    contradiction

theorem readStep_channel {c : ReadCall} {x : ReadResult} (hc : s.reading = some c)
    (hlt : c.buffer.length < c.size) (hs : s.readStep c x = some t)
    (hok : ∀ y ∈ t.returned, y = 1) (h : Sized messages s) :
    Sized messages t ∧
      (t.channel = s.channel ∨ Channel.Step messages s.channel t.channel) := by
  cases hn : c.next s.pipe x with
  | none => simp [readStep, hn] at hs
  | some next =>
    obtain ⟨e, c', pipe'⟩ := next
    have hnext := ReadCall.next_cases hn
    cases e with
    | some exit =>
      simp only [readStep, hn, Option.some.injEq] at hs
      subst hs
      have hone := hok exit.status (List.mem_append_right _ (List.mem_singleton_self _))
      cases hnext <;> cases hone
    | none =>
      simp only [readStep, hn, Option.some.injEq] at hs
      subst hs
      have hbounded := hnext.bounded hlt.le
      have hsize : c'.size = c.size := by cases hnext <;> rfl
      have hsized := h.sizes
      rw [hc] at hsized
      refine ⟨⟨by simpa [hsize] using hsized, fun d hd => ?_⟩, ?_⟩
      · obtain rfl := Option.some.inj hd
        exact hbounded
      · cases hnext with
        | bytes n count hcount hlen =>
          right
          have htake : Channel.Step messages s.channel _ := .take count
          simpa only [channel, hc, Option.elim_some] using htake
        | later hi hb =>
          left
          simp [channel, hc]
        | ignored hi =>
          left
          simp [channel, hc]

/-- As long as every call returns 1, each step is a move of the channel or no move at all. -/
theorem simulates {e : Event} (hs : s.step e = some t) (hok : ∀ x ∈ t.returned, x = 1)
    (h : Sized messages s) :
    Sized messages t ∧
      (t.channel = s.channel ∨ Channel.Step messages s.channel t.channel) := by
  cases e with
  | send =>
    simp only [step] at hs
    split at hs
    next message unsent hw hu =>
      cases hs
      exact ⟨⟨h.sizes, h.bounded⟩, .inl (by simp [channel, hw, hu])⟩
    next => cases hs
  | write x =>
    simp only [step] at hs
    split at hs
    next c hc =>
      split_ifs at hs with hfull
      cases hs
      refine ⟨?_, writeStep_channel hc hok⟩
      cases x <;> exact ⟨h.sizes, h.bounded⟩
    next => cases hs
  | sent =>
    simp only [step] at hs
    split at hs
    next c hc =>
      split_ifs at hs with hfull
      cases hs
      exact ⟨⟨h.sizes, h.bounded⟩, .inl (by simp [channel, hc, List.drop_of_length_le hfull])⟩
    next => cases hs
  | receive intr =>
    simp only [step] at hs
    split at hs
    next size sizes hr hz =>
      split_ifs at hs with hi
      · cases hs
        have := hok (-1) (List.mem_append_right _ (List.mem_singleton_self _))
        contradiction
      · cases hs
        have hsized := h.sizes
        rw [hr, hz] at hsized
        refine ⟨⟨hsized, fun c hc => ?_⟩, .inl (by simp [channel, hr])⟩
        obtain rfl := Option.some.inj hc
        exact Nat.zero_le _
    next => cases hs
  | read x =>
    simp only [step] at hs
    split at hs
    next c hc =>
      split_ifs at hs with hfull
      exact readStep_channel hc (Nat.lt_of_not_le hfull) hs hok h
    next => cases hs
  | received =>
    simp only [step] at hs
    split at hs
    next c hc =>
      split_ifs at hs with hfull
      cases hs
      have hsize := le_antisymm (h.bounded c hc) hfull
      have hsized := h.sizes
      rw [hc] at hsized
      have hlen : (messages.map List.length)[s.received.length]? = some c.buffer.length := by
        rw [← hsized, List.getElem?_append_right (by simp)]
        simp [hsize]
      have hdeliver : Channel.Step messages s.channel _ :=
        .deliver (by simpa only [channel, hc, Option.elim_some] using hlen)
      refine ⟨⟨by simpa [hsize] using hsized, nofun⟩, .inr ?_⟩
      simpa only [channel, hc, Option.elim_some, Option.elim_none] using hdeliver
    next => cases hs

theorem returned_isPrefix {e : Event} (hs : s.step e = some t) : s.returned <+: t.returned := by
  have hwrite : ∀ c x, s.returned <+: (s.writeStep c x).returned := by
    intro c x
    cases x
    · exact List.prefix_rfl
    · exact List.prefix_rfl
    · exact List.prefix_append ..
  have hread : ∀ c x, s.readStep c x = some t → s.returned <+: t.returned := by
    intro c x hs
    simp only [readStep] at hs
    split at hs <;> cases hs
    · exact List.prefix_append ..
    · exact List.prefix_rfl
  cases e with
  | write x =>
    simp only [step] at hs
    split at hs
    next c hc =>
      split_ifs at hs
      cases hs
      exact hwrite c x
    next => cases hs
  | read x =>
    simp only [step] at hs
    split at hs
    next c hc =>
      split_ifs at hs
      exact hread c x hs
    next => cases hs
  | _ =>
    simp only [step] at hs
    split at hs <;> try split_ifs at hs
    all_goals cases hs
    all_goals first
      | exact List.prefix_rfl
      | exact List.prefix_append ..

theorem received_isPrefix {es : List Event} (hrun : Run (stepOf step) (initial messages) es s)
    (hok : ∀ x ∈ s.returned, x = 1) : s.received <+: messages := by
  have hinv : (∀ x ∈ s.returned, x = 1) → Sized messages s ∧ Channel.Inv messages s.channel := by
    refine hrun.invariant (I := fun s => (∀ x ∈ s.returned, x = 1) →
      Sized messages s ∧ Channel.Inv messages s.channel) ?_ ?_
    · exact fun _ => ⟨sized_initial messages, Channel.inv_initial messages⟩
    · intro s e t hs hst hok
      obtain ⟨hsized, hchannel⟩ := hs fun x hx => hok x ((returned_isPrefix hst).subset hx)
      obtain ⟨hsized', he | hstep⟩ := simulates hst hok hsized
      · exact ⟨hsized', he ▸ hchannel⟩
      · exact ⟨hsized', hchannel.step hstep⟩
  exact (hinv hok).2.delivered_isPrefix

end Transfer

/-- What `write_all` appends when it returns 1, what `read_all` takes when it returns 1 and
when it is interrupted, and that messages which go through both arrive as they were sent. -/
theorem transfers_intact :
    (∀ message pipe results r, writeAll message pipe results = some r → r.status = 1 →
      r.pipe = pipe ++ message) ∧
    (∀ size intr pipe results r, readAll size intr pipe results = some r →
      (r.exit.status = 1 → r.call.buffer.length = size ∧ pipe = r.call.buffer ++ r.pipe) ∧
      (r.exit = .interrupted → r.call.buffer = [] ∧ r.pipe = pipe)) ∧
    ∀ messages es s, Run (stepOf Transfer.step) (Transfer.initial messages) es s →
      (∀ x ∈ s.returned, x = 1) → s.received <+: messages := by
  refine ⟨fun message pipe results r h hr => writeLoop_spec h hr, ?_,
    fun messages es s => Transfer.received_isPrefix⟩
  intro size intr pipe results r h
  obtain ⟨-, rfl⟩ | ⟨-, used, -, hr⟩ := readAll_spec h
  · exact ⟨nofun, fun _ => ⟨rfl, rfl⟩⟩
  · have hpipe := hr.pipe_eq
    refine ⟨fun hone => ?_, fun hi => ?_⟩
    · exact ⟨hr.full.mp (ReadExit.status_eq_one.mp hone), hpipe⟩
    · have hb := hr.interrupted hi
      rw [hb] at hpipe
      exact ⟨hb, hpipe.symm⟩

/-- Two messages in pieces, with an interrupted call on either side. -/
def interleaved : List Event :=
  [.send, .receive (some false), .write (.bytes 0), .read (.bytes 0), .write .interrupted,
    .read .interrupted, .write (.bytes 7), .read (.bytes 7), .sent, .received, .send,
    .receive (some false), .write (.bytes 0), .sent, .read (.bytes 0), .received]

theorem transfers_intact_interleaved :
    (∃ w, writeAll [1, 2] [9] [.interrupted, .bytes 0, .bytes 4] = some w ∧ w.pipe = [9, 1, 2]) ∧
    (∃ r, readAll 2 (some false) [1, 2, 3] [.bytes 0, .interrupted, .bytes 4] = some r ∧
      [1, 2, 3] = r.call.buffer ++ r.pipe) ∧
    ∃ s, Run (stepOf Transfer.step) (Transfer.initial [[1, 2], [3]]) interleaved s ∧
      s.received.length = 2 ∧ s.received <+: [[1, 2], [3]] := by
  obtain ⟨hwrite, hread, htransfer⟩ := transfers_intact
  refine ⟨⟨_, rfl, ?_⟩, ⟨_, rfl, ?_⟩, ?_⟩
  · exact hwrite [1, 2] [9] [.interrupted, .bytes 0, .bytes 4] _ rfl rfl
  · exact ((hread 2 (some false) [1, 2, 3] [.bytes 0, .interrupted, .bytes 4] _ rfl).1 rfl).2
  · have hrun : Run (stepOf Transfer.step) (Transfer.initial [[1, 2], [3]]) interleaved _ :=
      run_of_execute rfl
    exact ⟨_, hrun, rfl, htransfer _ _ _ hrun (by decide)⟩

end IstKvs.Common
