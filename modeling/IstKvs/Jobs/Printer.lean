import IstKvs.Jobs.Grammar

/-! Printing and parsing job files. Well-formed commands, printed one to a line, are
read back by the loop of `process_thread` as the same commands with the same
arguments, up to the end of the file. -/

namespace IstKvs.Jobs

open IstKvs.Store

/-! ### Lines -/

/-- A key or a value that the parser can read: a short string without delimiters. -/
structure Token extends CStr where
  isField : IsField bytes

/-- A line of a job file; what it carries is what the parser's buffers have room for. -/
inductive Line
  | write (pairs : List (Token × Token)) (some : pairs ≠ []) (room : pairs.length < maxWriteSize)
  | read (keys : List Token) (some : keys ≠ []) (room : keys.length < maxWriteSize)
  | delete (keys : List Token) (some : keys ≠ []) (room : keys.length < maxWriteSize)
  | wait (digits : List UInt8) (isDigits : ∀ d ∈ digits, isDigit d = true) (some : digits ≠ [])
      (room : digits.length ≤ 15) (fits : digitsValue digits ≤ uintMax)
  | showAll
  | backup
  | help
  | comment (text : List UInt8) (oneLine : byte '\n' ∉ text)
  | empty

def printPair (p : Token × Token) : List UInt8 := byte '(' :: pairText (p.1.bytes, p.2.bytes)

def printKeys : List Token → List UInt8
  | [] => []
  | [key] => key.bytes
  | key :: keys => key.bytes ++ byte ',' :: printKeys keys

/-- The line without its newline. -/
def Line.text : Line → List UInt8
  | .write pairs _ _ =>
    chars ['W', 'R', 'I', 'T', 'E', ' ', '['] ++ pairs.flatMap printPair ++ chars [']']
  | .read keys _ _ => chars ['R', 'E', 'A', 'D', ' ', '['] ++ printKeys keys ++ chars [']']
  | .delete keys _ _ =>
    chars ['D', 'E', 'L', 'E', 'T', 'E', ' ', '['] ++ printKeys keys ++ chars [']']
  | .wait digits .. => chars ['W', 'A', 'I', 'T', ' '] ++ digits
  | .showAll => chars ['S', 'H', 'O', 'W']
  | .backup => chars ['B', 'A', 'C', 'K', 'U', 'P']
  | .help => chars ['H', 'E', 'L', 'P']
  | .comment text _ => byte '#' :: text
  | .empty => []

def Line.print (l : Line) : List UInt8 := l.text ++ [byte '\n']

/-- The command on a line. -/
def Line.item : Line → Item
  | .write pairs _ _ => .command (.write (pairs.map fun p => (p.1.toCStr, p.2.toCStr)))
  | .read keys _ _ => .command (.read (keys.map Token.toCStr))
  | .delete keys _ _ => .command (.delete (keys.map Token.toCStr))
  | .wait digits .. => .wait (digitsValue digits)
  | .showAll => .command .showAll
  | .backup => .backup
  | .help => .help
  | .comment .. => .empty
  | .empty => .empty

/-! ### The loop -/

/-- The turns of the loop from a position to EOC, whatever the stack holds at each turn. -/
inductive Turns : List UInt8 → List Item → Prop
  | eoc {s : List UInt8} (h : (getNext s).result = .eoc) : Turns s []
  | turn {s : List UInt8} (stack : List UInt8) {r : Parsed Item} {items : List Item}
      (h : nextItem stack s = some r) (ht : Turns r.rest items) : Turns s (r.result :: items)

/-! ### One line -/

theorem cleanup_line {text : List UInt8} (h : byte '\n' ∉ text) (s : List UInt8) :
    cleanup (text ++ byte '\n' :: s) = s := by
  induction text with
  | nil => rfl
  | cons b text ih =>
    have hb : b ≠ byte '\n' := fun he => h (he ▸ List.mem_cons_self)
    rw [List.cons_append, cleanup, if_neg hb]
    exact ih fun hm => h (List.mem_cons_of_mem _ hm)

/-- A printed list is its items but the last, each closed by a separator, and the last one. -/
theorem printPairs_concat (pairs : List (Token × Token)) (p : Token × Token) :
    (pairs ++ [p]).flatMap printPair =
      byte '(' :: (pairsText (pairs.map fun p => (p.1.bytes, p.2.bytes)) ++
        pairText (p.1.bytes, p.2.bytes)) := by
  induction pairs with
  | nil => simp [printPair, pairsText]
  | cons q pairs ih =>
    rw [List.cons_append, List.flatMap_cons, ih]
    simp [printPair, pairsText]

theorem printKeys_concat (keys : List Token) (key : Token) :
    printKeys (keys ++ [key]) = keysText (keys.map fun k => k.bytes) ++ key.bytes := by
  induction keys with
  | nil => rfl
  | cons k keys ih =>
    have hcons : printKeys (k :: (keys ++ [key])) =
        k.bytes ++ byte ',' :: printKeys (keys ++ [key]) := by
      cases keys <;> rfl
    rw [List.cons_append, hcons, ih]
    simp [keysText]

theorem parseEnd_ok {A : Type*} {max : ℕ} {xs : List A} (h : xs.length < max) (s : List UInt8) :
    parseEnd max ⟨some xs, byte '\n' :: s⟩ = ⟨xs, s⟩ := by
  simp only [parseEnd, if_neg h.ne]
  rfl

theorem Token.isPair (p : Token × Token) : IsPair (p.1.bytes, p.2.bytes) :=
  ⟨p.1.isField, p.2.isField⟩

theorem parseWrite_print {pairs : List (Token × Token)} (hne : pairs ≠ [])
    (hroom : pairs.length < maxWriteSize) (s : List UInt8) :
    parseWrite (byte '[' :: (pairs.flatMap printPair ++ byte ']' :: byte '\n' :: s)) maxWriteSize =
      ⟨pairs.map fun p => (p.1.toCStr, p.2.toCStr), s⟩ := by
  obtain ⟨init, p, rfl⟩ := (List.eq_nil_or_concat pairs).resolve_left hne
  rw [List.concat_eq_append, List.length_append, List.length_singleton] at hroom
  rw [List.concat_eq_append]
  have hsplit : maxWriteSize = (init.map fun p => (p.1.bytes, p.2.bytes)).length +
      (maxWriteSize - init.length - 1 + 1) := by
    rw [List.length_map]
    omega
  have hpairs : ∀ q ∈ init.map fun p => (p.1.bytes, p.2.bytes), IsPair q := by
    intro q hq
    obtain ⟨p, -, rfl⟩ := List.mem_map.mp hq
    exact Token.isPair p
  have hparse : parsePairs maxWriteSize (pairsText (init.map fun p => (p.1.bytes, p.2.bytes)) ++
      (pairText (p.1.bytes, p.2.bytes) ++ byte ']' :: byte '\n' :: s)) =
      ⟨some ((init ++ [p]).map fun p => (p.1.toCStr, p.2.toCStr)), byte '\n' :: s⟩ := by
    rw [hsplit, parsePairs_text hpairs, parsePairs_last (Token.isPair p)]
    simp [pairStrings, fieldString_bytes, Function.comp_def]
  rw [printPairs_concat, List.cons_append, List.append_assoc, parseWrite, if_neg (by decide)]
  simp only [ne_eq, not_true_eq_false, if_false, hparse]
  exact parseEnd_ok (by simpa using hroom) s

theorem parseReadDelete_print {keys : List Token} (hne : keys ≠ [])
    (hroom : keys.length < maxWriteSize) (s : List UInt8) :
    parseReadDelete (byte '[' :: (printKeys keys ++ byte ']' :: byte '\n' :: s)) maxWriteSize
      maxStringSize = ⟨keys.map Token.toCStr, s⟩ := by
  obtain ⟨init, key, rfl⟩ := (List.eq_nil_or_concat keys).resolve_left hne
  rw [List.concat_eq_append, List.length_append, List.length_singleton] at hroom
  rw [List.concat_eq_append]
  have hsplit : maxWriteSize = (init.map fun k => k.bytes).length +
      (maxWriteSize - init.length - 1 + 1) := by
    rw [List.length_map]
    omega
  have hkeys : ∀ k ∈ init.map fun k => k.bytes, IsField k := by
    intro k hk
    obtain ⟨key, -, rfl⟩ := List.mem_map.mp hk
    exact key.isField
  have hparse : parseKeys maxStringSize maxWriteSize (keysText (init.map fun k => k.bytes) ++
      (key.bytes ++ byte ']' :: byte '\n' :: s)) =
      ⟨some ((init ++ [key]).map Token.toCStr), byte '\n' :: s⟩ := by
    rw [hsplit, parseKeys_text hkeys, parseKeys_last key.isField]
    simp [fieldString_bytes, Function.comp_def]
  rw [printKeys_concat, List.append_assoc, parseReadDelete, if_neg (by decide), hparse]
  exact parseEnd_ok (by simpa using hroom) s

theorem parseWait_print (stack : List UInt8) {digits : List UInt8}
    (hd : ∀ d ∈ digits, isDigit d = true) (hne : digits ≠ []) (hfits : digitsValue digits ≤ uintMax)
    (s : List UInt8) :
    parseWait stack false (digits ++ byte '\n' :: s) =
      ⟨⟨0, some (digitsValue digits), none⟩, s⟩ := by
  have hvalue : strtoul (digits ++ [0]) = digitsValue digits := by
    have hle : uintMax ≤ ulongMax := by decide
    rw [strtoul_digits hd hne]
    omega
  have hread := readUint_digits stack hd (byte '\n') (by decide) s
  rw [hvalue, if_neg (by omega)] at hread
  simp only [parseWait, hread]
  rfl

/-- The loop reads a printed line as its command and stops after the newline. -/
theorem nextItem_print (stack : List UInt8) (l : Line) (s : List UInt8) :
    nextItem stack (l.print ++ s) = some ⟨l.item, s⟩ := by
  cases l with
  | write pairs hne hroom =>
    have hnext : getNext ((Line.write pairs hne hroom).print ++ s) =
        ⟨.write, byte '[' :: (pairs.flatMap printPair ++ byte ']' :: byte '\n' :: s)⟩ := by
      simp only [Line.print, Line.text, List.append_assoc]
      rfl
    have hmap : (pairs.map fun p => (p.1.toCStr, p.2.toCStr)) ≠ [] := by simpa using hne
    simp only [nextItem, hnext, writeItem, parseWrite_print hne hroom, if_neg hmap, Line.item]
  | read keys hne hroom =>
    have hnext : getNext ((Line.read keys hne hroom).print ++ s) =
        ⟨.read, byte '[' :: (printKeys keys ++ byte ']' :: byte '\n' :: s)⟩ := by
      simp only [Line.print, Line.text, List.append_assoc]
      rfl
    have hmap : keys.map Token.toCStr ≠ [] := by simpa using hne
    simp only [nextItem, hnext, keysItem, parseReadDelete_print hne hroom, if_neg hmap, Line.item]
  | delete keys hne hroom =>
    have hnext : getNext ((Line.delete keys hne hroom).print ++ s) =
        ⟨.delete, byte '[' :: (printKeys keys ++ byte ']' :: byte '\n' :: s)⟩ := by
      simp only [Line.print, Line.text, List.append_assoc]
      rfl
    have hmap : keys.map Token.toCStr ≠ [] := by simpa using hne
    simp only [nextItem, hnext, keysItem, parseReadDelete_print hne hroom, if_neg hmap, Line.item]
  | wait digits hd hne hroom hfits =>
    have hnext : getNext ((Line.wait digits hd hne hroom hfits).print ++ s) =
        ⟨.wait, digits ++ byte '\n' :: s⟩ := by
      simp only [Line.print, Line.text, List.append_assoc]
      rfl
    simp only [nextItem, hnext, waitItem, parseWait_print stack hd hne hfits, Line.item]
    rfl
  | showAll | backup | help | empty => rfl
  | comment text hline =>
    have hnext : getNext ((Line.comment text hline).print ++ s) = ⟨.empty, s⟩ := by
      have hclean := cleanup_line hline s
      simp only [Line.print, Line.text, List.append_assoc, List.cons_append, List.nil_append]
      simp only [getNext, Parsed.cleanup, hclean]
      rfl
    simp only [nextItem, hnext, Line.item]

/-! ### The whole file -/

/-- The loop over a file of printed lines takes exactly their commands, in order, and
then the end of the commands. -/
theorem turns_print_iff (lines : List Line) (items : List Item) :
    Turns (lines.flatMap Line.print) items ↔ items = lines.map Line.item := by
  induction lines generalizing items with
  | nil =>
    constructor
    · intro h
      cases h with
      | eoc => rfl
      | turn stack h => cases h
    · rintro rfl
      exact .eoc rfl
  | cons l lines ih =>
    rw [List.flatMap_cons, List.map_cons]
    constructor
    · intro h
      generalize hs : l.print ++ lines.flatMap Line.print = s at h
      cases h with
      | eoc h =>
        have hitem := nextItem_print [] l (lines.flatMap Line.print)
        rw [hs, nextItem, h] at hitem
        cases hitem
      | turn stack h ht =>
        rw [← hs, nextItem_print] at h
        obtain rfl := Option.some.inj h
        rw [(ih _).mp ht]
    · rintro rfl
      exact .turn [] (nextItem_print [] l _) ((ih _).mpr rfl)

end IstKvs.Jobs
