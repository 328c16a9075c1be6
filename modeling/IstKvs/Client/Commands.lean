import IstKvs.Client.Lists
import IstKvs.Client.Session
import IstKvs.Jobs.Printer

/-! The commands on the standard input of the client (`parser.c` of the client): `get_next`,
the list of one key behind SUBSCRIBE and UNSUBSCRIBE, the number behind DELAY. The loop of `main`
takes them one by one, up to a DISCONNECT or the end of the input. -/

namespace IstKvs.Client

open IstKvs.Store IstKvs.Jobs

inductive CommandCode
  | disconnect | subscribe | unsubscribe | delay | empty | invalid | eoc
  deriving DecidableEq

/-- The rest of a command word. -/
def getWord (word : List UInt8) (code : CommandCode) (s : List UInt8) : Parsed CommandCode :=
  if s.take word.length = word then ⟨code, s.drop word.length⟩
  else .cleanup .invalid (s.drop word.length)

/-- A word that begins with `D` is read as DELAY first, and read on as DISCONNECT. -/
def getNext : List UInt8 → Parsed CommandCode
  | [] => ⟨.eoc, []⟩
  | ch :: s =>
    if ch = byte 'S' then getWord (chars ("UBSCRIBE ".toList)) .subscribe s
    else if ch = byte 'U' then getWord (chars ("NSUBSCRIBE ".toList)) .unsubscribe s
    else if ch = byte 'D' then
      if s.take 5 = chars ("ELAY ".toList) then ⟨.delay, s.drop 5⟩
      else if s.take 9 = chars ("ISCONNECT".toList) then
        match s.drop 9 with
        | [] => ⟨.disconnect, []⟩
        | ch :: s => if ch ≠ byte '\n' then .cleanup .invalid s else ⟨.disconnect, s⟩
      else .cleanup .invalid (s.drop 9)
    else if ch = byte '#' then .cleanup .empty s
    else if ch = byte '\n' then ⟨.empty, s⟩
    else .cleanup .invalid s

/-- The status and the delay; what follows the number but its first byte is left. -/
def parseDelay (stack : List UInt8) (s : List UInt8) : Parsed (ℤ × Option ℕ) :=
  let delay := readUint stack s
  if delay.status ≠ 0 then .cleanup (-1, none) delay.rest else ⟨(0, delay.value), delay.rest⟩

/-- What one turn of the loop does. -/
inductive Action
  | call (call : ApiCall)
  | delay (ms : ℕ)
  | empty
  | invalid
  deriving DecidableEq

def keyAction (call : CStr → ApiCall) (s : List UInt8) : Parsed Action :=
  let list := parseList s 1 maxStringSize
  match list.stored with
  | key :: _ => ⟨if list.numKeys = 0 then .invalid else .call (call key), list.rest⟩
  | [] => ⟨.invalid, list.rest⟩

def delayAction (stack : List UInt8) (s : List UInt8) : Parsed Action :=
  let r := parseDelay stack s
  if r.result.1 = -1 then ⟨.invalid, r.rest⟩ else ⟨.delay (r.result.2.getD 0), r.rest⟩

/-- The next turn of the loop; the end of the input is a disconnect too. -/
def nextAction (stack : List UInt8) (s : List UInt8) : Parsed Action :=
  let rest := (getNext s).rest
  match (getNext s).result with
  | .disconnect | .eoc => ⟨.call .disconnect, rest⟩
  | .subscribe => keyAction .subscribe rest
  | .unsubscribe => keyAction .unsubscribe rest
  | .delay => delayAction stack rest
  | .empty => ⟨.empty, rest⟩
  | .invalid => ⟨.invalid, rest⟩

/-- The turns before the disconnect, and the input behind it. The stack holds something else at
each turn. -/
def inputFrom (stack : List UInt8 → List UInt8) : ℕ → List UInt8 → List Action × List UInt8
  | 0, s => ([], s)
  | n + 1, s =>
    let r := nextAction (stack s) s
    if r.result = .call .disconnect then ([], r.rest)
    else ((r.result :: (inputFrom stack n r.rest).1), (inputFrom stack n r.rest).2)

/-- The turns over a whole input; each but the last takes at least one byte. -/
def input (stack : List UInt8 → List UInt8) (s : List UInt8) : List Action × List UInt8 :=
  inputFrom stack (s.length + 1) s

/-! ### Every turn consumes input -/

theorem keyLoop_length (maxString n : ℕ) (output : ℤ) (s : List UInt8) :
    (keyLoop maxString n output s).rest.length ≤ s.length := by
  induction n generalizing output s with
  | zero => exact Nat.le_refl _
  | succ n ih =>
    have hkey := readString_length maxString s
    have hloop := ih (readString maxString s).value (readString maxString s).rest
    rw [keyLoop]
    dsimp only
    split_ifs
    · exact hkey
    · exact hkey
    · exact hloop.trans hkey

theorem parseList_length (s : List UInt8) (maxKeys maxString : ℕ) :
    (parseList s maxKeys maxString).rest.length ≤ s.length := by
  cases s with
  | nil => exact Nat.le_refl _
  | cons ch s =>
    have hopen := cleanup_length s
    have hloop := keyLoop_length maxString maxKeys 2 s
    have hgive := cleanup_length (keyLoop maxString maxKeys 2 s).rest
    rw [List.length_cons, parseList, parseKeyList]
    dsimp only [KeyList.giveUp]
    split_ifs
    · exact hopen.trans (Nat.le_succ _)
    · exact (hgive.trans hloop).trans (Nat.le_succ _)
    · exact (hgive.trans hloop).trans (Nat.le_succ _)
    · cases hrest : (keyLoop maxString maxKeys 2 s).rest with
      | nil => exact Nat.zero_le _
      | cons ch rest =>
        have hend := cleanup_length rest
        rw [hrest, List.length_cons] at hloop
        dsimp only
        split_ifs <;> dsimp only <;> omega

theorem parseDelay_length (stack s : List UInt8) :
    (parseDelay stack s).rest.length ≤ s.length := by
  have hread := readUint_length stack s
  have hclean := cleanup_length (readUint stack s).rest
  rw [parseDelay]
  dsimp only [Parsed.cleanup]
  split_ifs
  · exact hclean.trans hread
  · exact hread

theorem getWord_length (word : List UInt8) (code : CommandCode) (s : List UInt8) :
    (getWord word code s).rest.length ≤ s.length := by
  have hdrop : (s.drop word.length).length ≤ s.length := (List.drop_sublist _ s).length_le
  rw [getWord, Parsed.cleanup]
  split_ifs
  · exact hdrop
  · exact (cleanup_length _).trans hdrop

/-- `get_next` consumes a byte, unless it is at the end of the input. -/
theorem getNext_length {s : List UInt8} (h : s ≠ []) : (getNext s).rest.length < s.length := by
  cases s with
  | nil => exact absurd rfl h
  | cons ch s =>
    have hclean := cleanup_length s
    have hword := fun word code => getWord_length word code s
    have hdrop := fun n => (List.drop_sublist n s).length_le
    have hdrop9 := (cleanup_length (s.drop 9)).trans (hdrop 9)
    rw [List.length_cons, Nat.lt_succ_iff]
    simp only [getNext, Parsed.cleanup]
    split_ifs
    · exact hword _ _
    · exact hword _ _
    · exact hdrop 5
    · cases hrest : s.drop 9 with
      | nil => exact Nat.zero_le _
      | cons ch t =>
        have hline := cleanup_length t
        have hlen := hdrop 9
        rw [hrest, List.length_cons] at hlen
        dsimp only
        split_ifs <;> dsimp only <;> omega
    · exact hdrop9
    · exact hclean
    · exact Nat.le_refl _
    · exact hclean

theorem keyAction_length (call : CStr → ApiCall) (s : List UInt8) :
    (keyAction call s).rest.length ≤ s.length := by
  have hlist := parseList_length s 1 maxStringSize
  rw [keyAction]
  split <;> exact hlist

theorem delayAction_length (stack s : List UInt8) :
    (delayAction stack s).rest.length ≤ s.length := by
  have hdelay := parseDelay_length stack s
  rw [delayAction]
  split_ifs <;> exact hdelay

theorem nextAction_length (stack : List UInt8) {s : List UInt8}
    (h : (nextAction stack s).result ≠ .call .disconnect) :
    (nextAction stack s).rest.length < s.length := by
  have hne : s ≠ [] := by
    rintro rfl
    exact h rfl
  have hnext := getNext_length hne
  have hkey := fun call => keyAction_length call (getNext s).rest
  have hdelay := delayAction_length stack (getNext s).rest
  rw [nextAction]
  split
  · exact hnext
  · exact hnext
  · exact (hkey _).trans_lt hnext
  · exact (hkey _).trans_lt hnext
  · exact hdelay.trans_lt hnext
  · exact hnext
  · exact hnext

/-- More turns than bytes make no difference. -/
theorem inputFrom_enough (stack : List UInt8 → List UInt8) {n m : ℕ} {s : List UInt8}
    (hn : s.length < n) (hm : s.length < m) : inputFrom stack n s = inputFrom stack m s := by
  induction n generalizing m s with
  | zero => exact absurd hn (Nat.not_lt_zero _)
  | succ n ih =>
    obtain ⟨m, rfl⟩ : ∃ k, m = k + 1 := ⟨m - 1, by omega⟩
    rw [inputFrom, inputFrom]
    split_ifs with hdisc
    · rfl
    · have hlt := nextAction_length (stack s) hdisc
      rw [ih (m := m) (by omega) (by omega)]

/-- The loop takes one turn and goes on with the rest of the input. -/
theorem input_unfold (stack : List UInt8 → List UInt8) (s : List UInt8) :
    input stack s =
      if (nextAction (stack s) s).result = .call .disconnect then
        ([], (nextAction (stack s) s).rest)
      else ((nextAction (stack s) s).result :: (input stack (nextAction (stack s) s).rest).1,
        (input stack (nextAction (stack s) s).rest).2) := by
  rw [input, inputFrom]
  split_ifs with hdisc
  · rfl
  · have hlt := nextAction_length (stack s) hdisc
    rw [input, inputFrom_enough stack hlt (Nat.lt_succ_self _)]

/-! ### Scripts -/

/-- A key that the server can look up, or refuses. -/
structure ScriptKey extends Token where
  usable : toToken.bytes = [] ∨ toToken.startsAlnum = true

/-- A line of a script; what it carries is what the parser's buffers have room for. -/
inductive ScriptLine
  | subscribe (key : ScriptKey)
  | unsubscribe (key : ScriptKey)
  | delay (digits : List UInt8) (isDigits : ∀ d ∈ digits, isDigit d = true) (some : digits ≠ [])
      (room : digits.length ≤ 15) (fits : digitsValue digits ≤ uintMax)
  | comment (text : List UInt8) (oneLine : byte '\n' ∉ text)
  | empty

/-- The line without its newline. -/
def ScriptLine.text : ScriptLine → List UInt8
  | .subscribe key => chars ("SUBSCRIBE [".toList) ++ key.bytes ++ [byte ']']
  | .unsubscribe key => chars ("UNSUBSCRIBE [".toList) ++ key.bytes ++ [byte ']']
  | .delay digits .. => chars ("DELAY ".toList) ++ digits
  | .comment text _ => byte '#' :: text
  | .empty => []

def ScriptLine.print (l : ScriptLine) : List UInt8 := l.text ++ [byte '\n']

def ScriptLine.action : ScriptLine → Action
  | .subscribe key => .call (.subscribe key.toCStr)
  | .unsubscribe key => .call (.unsubscribe key.toCStr)
  | .delay digits .. => .delay (digitsValue digits)
  | .comment .. => .empty
  | .empty => .empty

/-- What ends a script: a DISCONNECT with anything behind its line, one without a newline, or
the end of the input. -/
inductive ScriptEnd
  | disconnect (after : List UInt8)
  | lastLine
  | eof

def ScriptEnd.print : ScriptEnd → List UInt8
  | .disconnect after => chars ("DISCONNECT".toList) ++ byte '\n' :: after
  | .lastLine => chars ("DISCONNECT".toList)
  | .eof => []

/-- What the client leaves in its input. -/
def ScriptEnd.rest : ScriptEnd → List UInt8
  | .disconnect after => after
  | .lastLine | .eof => []

structure Script where
  lines : List ScriptLine
  ending : ScriptEnd

def Script.print (p : Script) : List UInt8 := p.lines.flatMap ScriptLine.print ++ p.ending.print

theorem keyAction_print (call : CStr → ApiCall) (key : Token) (s : List UInt8) :
    keyAction call (byte '[' :: (key.bytes ++ byte ']' :: byte '\n' :: s)) =
      ⟨.call (call key.toCStr), s⟩ := by
  have hloop : keyLoop maxStringSize 1 2 (key.bytes ++ byte ']' :: byte '\n' :: s) =
      ⟨[key.toCStr], 2, byte '\n' :: s⟩ := by
    have hclosed := keyLoop_closed (List.cons_ne_nil key.bytes [])
      (fun k hk => List.mem_singleton.mp hk ▸ key.isField) 2 (byte '\n' :: s)
    rw [List.length_singleton, List.map_singleton, fieldString_bytes] at hclosed
    rw [← hclosed]
    simp [keyListText, List.intercalate]
  have hlist : parseList (byte '[' :: (key.bytes ++ byte ']' :: byte '\n' :: s)) 1 maxStringSize =
      ⟨1, [key.toCStr], s⟩ := by
    simp only [parseList, parseKeyList, hloop]
    rfl
  rw [keyAction, hlist]
  rfl

theorem delayAction_print (stack : List UInt8) {digits : List UInt8}
    (hd : ∀ d ∈ digits, isDigit d = true) (hne : digits ≠ [])
    (hfits : digitsValue digits ≤ uintMax) (s : List UInt8) :
    delayAction stack (digits ++ byte '\n' :: s) = ⟨.delay (digitsValue digits), s⟩ := by
  have hvalue : strtoul (digits ++ [0]) = digitsValue digits := by
    have hmax : uintMax ≤ ulongMax := by decide
    rw [strtoul_digits hd hne]
    omega
  have hread := readUint_digits stack hd (byte '\n') (by decide) s
  rw [hvalue, if_neg (by omega)] at hread
  simp only [delayAction, parseDelay, hread]
  rfl

/-- The loop reads a printed line as its action and stops after the newline. -/
theorem nextAction_print (stack : List UInt8) (l : ScriptLine) (s : List UInt8) :
    nextAction stack (l.print ++ s) = ⟨l.action, s⟩ := by
  cases l with
  | subscribe key =>
    have hnext : getNext ((ScriptLine.subscribe key).print ++ s) =
        ⟨.subscribe, byte '[' :: (key.bytes ++ byte ']' :: byte '\n' :: s)⟩ := by
      simp only [ScriptLine.print, ScriptLine.text, List.append_assoc]
      rfl
    simp only [nextAction, hnext]
    exact keyAction_print .subscribe key.toToken s
  | unsubscribe key =>
    have hnext : getNext ((ScriptLine.unsubscribe key).print ++ s) =
        ⟨.unsubscribe, byte '[' :: (key.bytes ++ byte ']' :: byte '\n' :: s)⟩ := by
      simp only [ScriptLine.print, ScriptLine.text, List.append_assoc]
      rfl
    simp only [nextAction, hnext]
    exact keyAction_print .unsubscribe key.toToken s
  | delay digits hd hne hroom hfits =>
    have hnext : getNext ((ScriptLine.delay digits hd hne hroom hfits).print ++ s) =
        ⟨.delay, digits ++ byte '\n' :: s⟩ := by
      simp only [ScriptLine.print, ScriptLine.text, List.append_assoc]
      rfl
    simp only [nextAction, hnext]
    exact delayAction_print stack hd hne hfits s
  | comment text hline =>
    have hnext : getNext ((ScriptLine.comment text hline).print ++ s) = ⟨.empty, s⟩ := by
      have hclean := cleanup_line hline s
      simp only [ScriptLine.print, ScriptLine.text, List.append_assoc, List.cons_append,
        List.nil_append]
      simp only [getNext, Parsed.cleanup, hclean]
      rfl
    simp only [nextAction, hnext]
    rfl
  | empty => rfl

theorem nextAction_end (stack : List UInt8) (e : ScriptEnd) :
    nextAction stack e.print = ⟨.call .disconnect, e.rest⟩ := by
  cases e <;> rfl

theorem ScriptLine.action_ne (l : ScriptLine) : l.action ≠ .call .disconnect := by
  cases l <;> simp [ScriptLine.action]

/-- The calls of a script are valid. -/
theorem ScriptLine.valid (l : ScriptLine) {call : ApiCall} (h : l.action = .call call) :
    call.valid = true := by
  have hkey : ∀ key : ScriptKey, (decide (key.length ≤ maxStringSize) &&
      (decide (key.bytes = []) || key.startsAlnum)) = true := by
    intro key
    rw [Bool.and_eq_true, Bool.or_eq_true, decide_eq_true_eq, decide_eq_true_eq]
    exact ⟨key.isField.fits.le, key.usable⟩
  cases l with
  | subscribe key =>
    cases h
    exact hkey key
  | unsubscribe key =>
    cases h
    exact hkey key
  | delay | comment | empty => cases h

/-- The loop takes the actions of the lines and stops behind the end of the script. -/
theorem input_print (stack : List UInt8 → List UInt8) (p : Script) :
    input stack p.print = (p.lines.map ScriptLine.action, p.ending.rest) := by
  obtain ⟨lines, ending⟩ := p
  rw [Script.print]
  induction lines with
  | nil =>
    rw [List.flatMap_nil, List.nil_append, input_unfold, nextAction_end, if_pos rfl]
    rfl
  | cons l lines ih =>
    rw [List.flatMap_cons, List.append_assoc, input_unfold, nextAction_print,
      if_neg l.action_ne]
    simp only at ih ⊢
    rw [ih, List.map_cons]

end IstKvs.Client
