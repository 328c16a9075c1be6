import IstKvs.Store.Operations

/-! The parser of job files (`parser.c`). A file is the bytes from its current
position on; every function returns the bytes that remain. -/

namespace IstKvs.Jobs

open IstKvs.Store

def byte (c : Char) : UInt8 := UInt8.ofNat c.toNat

/-- What a parsing function stores and the position it leaves the file at. -/
structure Parsed (A : Type*) where
  result : A
  rest : List UInt8

/-- Jumps to the next line. -/
def cleanup : List UInt8 → List UInt8
  | [] => []
  | ch :: s => if ch = byte '\n' then s else cleanup s

def Parsed.cleanup {A : Type*} (result : A) (s : List UInt8) : Parsed A :=
  ⟨result, Jobs.cleanup s⟩

/-! ### Strings -/

/-- `stored` are the bytes put into the buffer from index 0 on; `terminated` says
that the NUL was stored after them. -/
structure ReadString where
  value : ℤ
  stored : List UInt8
  terminated : Bool
  rest : List UInt8

/-- The loop of `read_string` with room for `n` more bytes. -/
def readString : ℕ → List UInt8 → ReadString
  | 0, s => ⟨-1, [], true, s⟩
  | _ + 1, [] => ⟨-1, [], false, []⟩
  | n + 1, ch :: s =>
    if ch = byte ' ' then ⟨-1, [], false, s⟩
    else if ch = byte ',' then ⟨0, [], true, s⟩
    else if ch = byte ')' then ⟨1, [], true, s⟩
    else if ch = byte ']' then ⟨2, [], true, s⟩
    else { readString n s with stored := ch :: (readString n s).stored }

/-- The string in the buffer after a successful `read_string`. -/
def ReadString.string (r : ReadString) : CStr := CStr.ofBuffer (r.stored ++ [0])

/-! ### Numbers -/

def isDigit (ch : UInt8) : Bool := byte '0' ≤ ch && ch ≤ byte '9'

def isSpace (ch : UInt8) : Bool := ch = byte ' ' || (9 ≤ ch.toNat && ch.toNat ≤ 13)

def digitsValue (digits : List UInt8) : ℕ :=
  digits.foldl (fun acc ch => acc * 10 + (ch.toNat - '0'.toNat)) 0

def ulongMax : ℕ := 2 ^ 64 - 1

def uintMax : ℕ := 2 ^ 32 - 1

/-- `strtoul` in base 10 on the bytes from a pointer on. -/
def strtoul (s : List UInt8) : ℕ :=
  let s := s.dropWhile isSpace
  let value (s : List UInt8) := min (digitsValue (s.takeWhile isDigit)) ulongMax
  match s with
  | [] => 0
  | ch :: t =>
    if ch = byte '-' then
      if digitsValue (t.takeWhile isDigit) ≤ ulongMax then (2 ^ 64 - value t) % 2 ^ 64 else ulongMax
    else if ch = byte '+' then value t
    else value s

/-- `value` is what `*value` was set to, `stores` the number of bytes put into the
16 bytes of `buf`, from index 0 on. -/
structure ReadUint where
  status : ℤ
  value : Option ℕ
  next : UInt8
  stores : ℕ
  rest : List UInt8

/-- `stack` are the bytes that `buf` holds before the call; at the end of the file
they follow the digits in place of a NUL. -/
def readUint (stack : List UInt8) (s : List UInt8) : ReadUint :=
  let digits := s.takeWhile isDigit
  match s.dropWhile isDigit with
  | [] =>
    let ul := strtoul (digits ++ stack.drop digits.length)
    if ul > uintMax then ⟨1, none, 0, digits.length, []⟩ else ⟨0, some ul, 0, digits.length, []⟩
  | ch :: rest =>
    let ul := strtoul (digits ++ [0])
    if ul > uintMax then ⟨1, none, ch, digits.length + 1, rest⟩
    else ⟨0, some ul, ch, digits.length + 1, rest⟩

/-! ### Commands -/

inductive CommandCode
  | write | read | delete | showAll | wait | backup | help | empty | invalid | eoc
  deriving DecidableEq

/-- The rest of a command word. -/
def getWord (word : List UInt8) (code : CommandCode) (s : List UInt8) : Parsed CommandCode :=
  if s.take word.length = word then ⟨code, s.drop word.length⟩
  else .cleanup .invalid (s.drop word.length)

/-- The rest of a command word that ends its line. -/
def getLine (word : List UInt8) (code : CommandCode) (s : List UInt8) : Parsed CommandCode :=
  if s.take word.length = word then
    match s.drop word.length with
    | [] => ⟨code, []⟩
    | ch :: s => if ch ≠ byte '\n' then .cleanup .invalid s else ⟨code, s⟩
  else .cleanup .invalid (s.drop word.length)

def getNext : List UInt8 → Parsed CommandCode
  | [] => ⟨.eoc, []⟩
  | ch :: s =>
    if ch = byte 'W' then
      if s.take 4 = chars ['A', 'I', 'T', ' '] then ⟨.wait, s.drop 4⟩
      else if s.take 5 = chars ['R', 'I', 'T', 'E', ' '] then ⟨.write, s.drop 5⟩
      else .cleanup .invalid (s.drop 5)
    else if ch = byte 'R' then getWord (chars ['E', 'A', 'D', ' ']) .read s
    else if ch = byte 'D' then getWord (chars ['E', 'L', 'E', 'T', 'E', ' ']) .delete s
    else if ch = byte 'S' then getLine (chars ['H', 'O', 'W']) .showAll s
    else if ch = byte 'B' then getLine (chars ['A', 'C', 'K', 'U', 'P']) .backup s
    else if ch = byte 'H' then getLine (chars ['E', 'L', 'P']) .help s
    else if ch = byte '#' then .cleanup .empty s
    else if ch = byte '\n' then ⟨.empty, s⟩
    else .cleanup .invalid s

/-- A key and a value, or `none` with the file at the next line. -/
def parsePair (s : List UInt8) : Parsed (Option (CStr × CStr)) :=
  let key := readString maxStringSize s
  if key.value ≠ 0 then .cleanup none key.rest
  else
    let value := readString maxStringSize key.rest
    if value.value ≠ 1 then .cleanup none value.rest
    else ⟨some (key.string, value.string), value.rest⟩

/-- The loop of `parse_write` with room for `n` more pairs; `none` where it gives up. -/
def parsePairs : ℕ → List UInt8 → Parsed (Option (List (CStr × CStr)))
  | 0, s => ⟨some [], s⟩
  | n + 1, s =>
    match (parsePair s).result with
    | none => .cleanup none (parsePair s).rest
    | some pair =>
      match (parsePair s).rest with
      | [] => ⟨none, []⟩
      | ch :: s =>
        if ch ≠ byte '(' ∧ ch ≠ byte ']' then .cleanup none s
        else if ch = byte ']' then ⟨some [pair], s⟩
        else ⟨(parsePairs n s).result.map (pair :: ·), (parsePairs n s).rest⟩

/-- The end of a list: not the array's last entry, then a newline or a NUL. -/
def parseEnd {A : Type*} (max : ℕ) (r : Parsed (Option (List A))) : Parsed (List A) :=
  match r.result with
  | none => ⟨[], r.rest⟩
  | some xs =>
    if xs.length = max then .cleanup [] r.rest
    else match r.rest with
      | [] => ⟨[], []⟩
      | ch :: s => if ch ≠ byte '\n' ∧ ch ≠ 0 then .cleanup [] s else ⟨xs, s⟩

/-- The pairs of a WRITE; an empty list is the result 0. -/
def parseWrite (s : List UInt8) (maxPairs : ℕ) : Parsed (List (CStr × CStr)) :=
  match s with
  | [] => ⟨[], []⟩
  | ch :: s =>
    if ch ≠ byte '[' then .cleanup [] s
    else match s with
      | [] => ⟨[], []⟩
      | ch :: s =>
        if ch ≠ byte '(' then .cleanup [] s
        else parseEnd maxPairs (parsePairs maxPairs s)

/-- The loop of `parse_read_delete` with room for `n` more keys. -/
def parseKeys (maxString : ℕ) : ℕ → List UInt8 → Parsed (Option (List CStr))
  | 0, s => ⟨some [], s⟩
  | n + 1, s =>
    let key := readString maxString s
    if key.value < 0 ∨ key.value = 1 then .cleanup none key.rest
    else if key.value = 2 then ⟨some [key.string], key.rest⟩
    else ⟨(parseKeys maxString n key.rest).result.map (key.string :: ·),
      (parseKeys maxString n key.rest).rest⟩

/-- The keys of a READ or DELETE; an empty list is the result 0. -/
def parseReadDelete (s : List UInt8) (maxKeys maxString : ℕ) : Parsed (List CStr) :=
  match s with
  | [] => ⟨[], []⟩
  | ch :: s =>
    if ch ≠ byte '[' then .cleanup [] s else parseEnd maxKeys (parseKeys maxString maxKeys s)

/-- What `parse_wait` returns and stores; `wantThread` says that `thread_id` is not NULL. -/
structure Wait where
  status : ℤ
  delay : Option ℕ
  threadId : Option ℕ
  deriving DecidableEq

def parseWait (stack : List UInt8) (wantThread : Bool) (s : List UInt8) : Parsed Wait :=
  let delay := readUint stack s
  if delay.status ≠ 0 then .cleanup ⟨-1, none, none⟩ delay.rest
  else if delay.next = byte ' ' then
    if !wantThread then .cleanup ⟨0, delay.value, none⟩ delay.rest
    else
      let thread := readUint stack delay.rest
      if thread.status ≠ 0 ∨ (thread.next ≠ byte '\n' ∧ thread.next ≠ 0) then
        .cleanup ⟨-1, delay.value, thread.value⟩ thread.rest
      else ⟨⟨1, delay.value, thread.value⟩, thread.rest⟩
  else if delay.next = byte '\n' ∨ delay.next = 0 then ⟨⟨0, delay.value, none⟩, delay.rest⟩
  else .cleanup ⟨-1, delay.value, none⟩ delay.rest

/-! ### The loop over a job file -/

/-- What one turn of the loop of `process_thread` does. -/
inductive Item
  | command (c : Command)
  | wait (delay : ℕ)
  | backup
  | help
  | empty
  | invalid
  deriving DecidableEq

def writeItem (s : List UInt8) : Parsed Item :=
  let r := parseWrite s maxWriteSize
  if r.result = [] then ⟨.invalid, r.rest⟩ else ⟨.command (.write r.result), r.rest⟩

def keysItem (command : List CStr → Command) (s : List UInt8) : Parsed Item :=
  let r := parseReadDelete s maxWriteSize maxStringSize
  if r.result = [] then ⟨.invalid, r.rest⟩ else ⟨.command (command r.result), r.rest⟩

def waitItem (stack : List UInt8) (s : List UInt8) : Parsed Item :=
  let r := parseWait stack false s
  if r.result.status = -1 then ⟨.invalid, r.rest⟩ else ⟨.wait (r.result.delay.getD 0), r.rest⟩

/-- The next turn of the loop; `none` at the end of the commands. -/
def nextItem (stack : List UInt8) (s : List UInt8) : Option (Parsed Item) :=
  let rest := (getNext s).rest
  match (getNext s).result with
  | .write => some (writeItem rest)
  | .read => some (keysItem .read rest)
  | .delete => some (keysItem .delete rest)
  | .showAll => some ⟨.command .showAll, rest⟩
  | .wait => some (waitItem stack rest)
  | .backup => some ⟨.backup, rest⟩
  | .help => some ⟨.help, rest⟩
  | .empty => some ⟨.empty, rest⟩
  | .invalid => some ⟨.invalid, rest⟩
  | .eoc => none

def itemsFrom (stack : List UInt8) : ℕ → List UInt8 → List Item
  | 0, _ => []
  | n + 1, s =>
    match nextItem stack s with
    | none => []
    | some r => r.result :: itemsFrom stack n r.rest

/-- The turns of the loop over a whole file; each turn consumes at least one byte. -/
def jobItems (stack : List UInt8) (s : List UInt8) : List Item := itemsFrom stack (s.length + 1) s

/-- The commands on the table that a job file gives, in order. -/
def jobCommands (stack : List UInt8) (s : List UInt8) : List Command :=
  (jobItems stack s).filterMap fun item => match item with
    | .command c => some c
    | _ => none

/-! ### Every turn consumes input -/

theorem cleanup_length (s : List UInt8) : (cleanup s).length ≤ s.length := by
  induction s with
  | nil => exact Nat.le_refl _
  | cons ch s ih =>
    simp only [cleanup]
    split_ifs
    · simp
    · exact ih.trans (by simp)

theorem readString_length (n : ℕ) (s : List UInt8) : (readString n s).rest.length ≤ s.length := by
  induction n generalizing s with
  | zero => exact Nat.le_refl _
  | succ n ih =>
    cases s with
    | nil => exact Nat.le_refl _
    | cons ch s =>
      have := ih s
      simp only [readString]
      split_ifs <;> simp only [List.length_cons] <;> omega

theorem readUint_length (stack s : List UInt8) : (readUint stack s).rest.length ≤ s.length := by
  have h := (List.dropWhile_sublist isDigit (l := s)).length_le
  unfold readUint
  cases hd : s.dropWhile isDigit with
  | nil => simp only; split_ifs <;> simp
  | cons ch rest =>
    rw [hd, List.length_cons] at h
    simp only
    split_ifs <;> simp only <;> omega

theorem parsePair_length (s : List UInt8) : (parsePair s).rest.length ≤ s.length := by
  have hk := readString_length maxStringSize s
  have hv := readString_length maxStringSize (readString maxStringSize s).rest
  have hck := cleanup_length (readString maxStringSize s).rest
  have hcv := cleanup_length (readString maxStringSize (readString maxStringSize s).rest).rest
  simp only [parsePair, Parsed.cleanup]
  split_ifs <;> simp only <;> omega

theorem parsePairs_length (n : ℕ) (s : List UInt8) : (parsePairs n s).rest.length ≤ s.length := by
  induction n generalizing s with
  | zero => exact Nat.le_refl _
  | succ n ih =>
    have hp := parsePair_length s
    simp only [parsePairs, Parsed.cleanup]
    split
    · exact (cleanup_length _).trans hp
    · split
      · simp
      next ch t ht =>
        rw [ht, List.length_cons] at hp
        have hc := cleanup_length t
        have hi := ih t
        split_ifs <;> dsimp only at * <;> omega

theorem parseEnd_length {A : Type*} (max : ℕ) (r : Parsed (Option (List A))) :
    (parseEnd max r).rest.length ≤ r.rest.length := by
  simp only [parseEnd, Parsed.cleanup]
  split
  · exact Nat.le_refl _
  · split_ifs
    · exact cleanup_length _
    · split
      · simp
      next ch t ht =>
        have hc := cleanup_length t
        rw [ht, List.length_cons]
        split_ifs <;> simp only <;> omega

theorem parseWrite_length (s : List UInt8) (maxPairs : ℕ) :
    (parseWrite s maxPairs).rest.length ≤ s.length := by
  match s with
  | [] => exact Nat.le_refl _
  | [ch] => simp only [parseWrite, Parsed.cleanup]; split_ifs <;> simp [cleanup]
  | ch :: ch' :: s =>
    have hc := cleanup_length (ch' :: s)
    have hc' := cleanup_length s
    have he := (parseEnd_length maxPairs (parsePairs maxPairs s)).trans
      (parsePairs_length maxPairs s)
    simp only [parseWrite, Parsed.cleanup]
    simp only [List.length_cons] at hc ⊢
    split_ifs <;> grind

theorem parseKeys_length (maxString n : ℕ) (s : List UInt8) :
    (parseKeys maxString n s).rest.length ≤ s.length := by
  induction n generalizing s with
  | zero => exact Nat.le_refl _
  | succ n ih =>
    have hk := readString_length maxString s
    have hc := cleanup_length (readString maxString s).rest
    have hi := ih (readString maxString s).rest
    simp only [parseKeys, Parsed.cleanup]
    split_ifs <;> simp only <;> omega

theorem parseReadDelete_length (s : List UInt8) (maxKeys maxString : ℕ) :
    (parseReadDelete s maxKeys maxString).rest.length ≤ s.length := by
  cases s with
  | nil => exact Nat.le_refl _
  | cons ch s =>
    have hc := cleanup_length s
    have he := (parseEnd_length maxKeys (parseKeys maxString maxKeys s)).trans
      (parseKeys_length maxString maxKeys s)
    simp only [parseReadDelete, Parsed.cleanup, List.length_cons]
    split_ifs <;> grind

theorem parseWait_length (stack : List UInt8) (wantThread : Bool) (s : List UInt8) :
    (parseWait stack wantThread s).rest.length ≤ s.length := by
  have hd := readUint_length stack s
  have ht := readUint_length stack (readUint stack s).rest
  have hcd := cleanup_length (readUint stack s).rest
  have hct := cleanup_length (readUint stack (readUint stack s).rest).rest
  simp only [parseWait, Parsed.cleanup]
  split_ifs <;> simp only <;> omega

theorem getWord_length (word : List UInt8) (code : CommandCode) (s : List UInt8) :
    (getWord word code s).rest.length ≤ s.length := by
  have hd : (s.drop word.length).length ≤ s.length := (List.drop_sublist _ s).length_le
  have hc := cleanup_length (s.drop word.length)
  simp only [getWord, Parsed.cleanup]
  split_ifs
  · exact hd
  · exact hc.trans hd

theorem getLine_length (word : List UInt8) (code : CommandCode) (s : List UInt8) :
    (getLine word code s).rest.length ≤ s.length := by
  have hd : (s.drop word.length).length ≤ s.length := (List.drop_sublist _ s).length_le
  have hc := cleanup_length (s.drop word.length)
  simp only [getLine, Parsed.cleanup]
  split_ifs
  · split
    · simp
    next ch t ht =>
      have ht' := cleanup_length t
      rw [ht, List.length_cons] at hd
      split_ifs <;> simp only <;> omega
  · exact hc.trans hd

/-- `get_next` consumes a byte, unless it is at the end of the file. -/
theorem getNext_length {s : List UInt8} (h : (getNext s).result ≠ .eoc) :
    (getNext s).rest.length < s.length := by
  cases s with
  | nil => exact absurd rfl h
  | cons ch s =>
    have hc := cleanup_length s
    have hd := fun n => (List.drop_sublist n s).length_le
    have h5 := cleanup_length (s.drop 5)
    have hw := fun word code => getWord_length word code s
    have hl := fun word code => getLine_length word code s
    rw [List.length_cons, Nat.lt_succ_iff]
    simp only [getNext, Parsed.cleanup]
    split_ifs
    all_goals first
      | exact hw _ _
      | exact hl _ _
      | exact hd _
      | exact hc
      | exact h5.trans (hd 5)
      | exact Nat.le_refl _

theorem nextItem_length {stack s : List UInt8} {r : Parsed Item} (h : nextItem stack s = some r) :
    r.rest.length < s.length := by
  have hn : (getNext s).result ≠ .eoc := by
    intro he
    simp [nextItem, he] at h
  have hlt := getNext_length hn
  have hw := parseWrite_length (getNext s).rest maxWriteSize
  have hk := parseReadDelete_length (getNext s).rest maxWriteSize maxStringSize
  have ht := parseWait_length stack false (getNext s).rest
  simp only [nextItem, writeItem, keysItem, waitItem] at h
  split at h <;> first | (obtain rfl := Option.some.inj h) | cases h
  all_goals try split_ifs
  all_goals simp only at *
  all_goals omega

/-- More turns than bytes make no difference. -/
theorem itemsFrom_enough {stack : List UInt8} {n m : ℕ} {s : List UInt8} (hn : s.length < n)
    (hm : s.length < m) : itemsFrom stack n s = itemsFrom stack m s := by
  induction n generalizing m s with
  | zero => omega
  | succ n ih =>
    cases m with
    | zero => omega
    | succ m =>
      simp only [itemsFrom]
      cases h : nextItem stack s with
      | none => rfl
      | some r =>
        have := nextItem_length h
        simp only [ih (s := r.rest) (m := m) (by omega) (by omega)]

/-- The loop reads one item and goes on with the rest of the file. -/
theorem jobItems_unfold (stack s : List UInt8) :
    jobItems stack s = match nextItem stack s with
      | none => []
      | some r => r.result :: jobItems stack r.rest := by
  rw [jobItems, itemsFrom]
  cases h : nextItem stack s with
  | none => rfl
  | some r =>
    have := nextItem_length h
    simp only [jobItems, itemsFrom_enough this (Nat.lt_succ_self r.rest.length)]

end IstKvs.Jobs
