import IstKvs.Jobs.Grammar

/-! Where the parser stands after a rejected command. Most error exits call
`cleanup` once, on what follows the byte at which the command was given up; that is
the end of the command's line unless a newline was among the bytes read before. A
malformed pair calls it a second time, which costs the next line too. -/

namespace IstKvs.Jobs

open IstKvs.Store

/-! ### Skipping lines -/

/-- The file is at its end after the line on which `s` begins. -/
def OnLastLine (s : List UInt8) : Prop := cleanup s = []

theorem cleanup_append (c d : List UInt8) :
    cleanup (c ++ d) = if byte '\n' ∈ c then cleanup c ++ d else cleanup d := by
  induction c with
  | nil => simp
  | cons b c ih =>
    by_cases hb : b = byte '\n'
    · subst hb; simp [cleanup]
    · simp [cleanup, hb, Ne.symm hb, ih]

theorem cleanup_length_lt {s : List UInt8} (h : s ≠ []) : (cleanup s).length < s.length := by
  cases s with
  | nil => exact absurd rfl h
  | cons b s =>
    have hs := cleanup_length s
    simp only [cleanup]
    split_ifs <;> simp only [List.length_cons] <;> omega

/-- One `cleanup` after the bytes `c` ends at the end of the line, if no newline is in `c`
or the file ends with the line. -/
theorem cleanup_once_iff {c d : List UInt8} :
    cleanup d = cleanup (c ++ d) ↔ OnLastLine (c ++ d) ∨ byte '\n' ∉ c := by
  rw [OnLastLine, cleanup_append]
  split_ifs with hc
  · simp only [hc, not_true_eq_false, or_false]
    constructor
    · intro he
      by_contra hne
      have hlen := congrArg List.length he
      rw [List.length_append] at hlen
      by_cases hd : d = []
      · subst hd
        exact hne he.symm
      · have := cleanup_length_lt hd
        omega
    · intro he
      obtain ⟨hc', hd⟩ := List.append_eq_nil_iff.mp he
      rw [hc', hd]
      rfl
  · simp [hc]

/-- Two of them end there only if the file does. -/
theorem cleanup_twice_iff {c d : List UInt8} :
    cleanup (cleanup d) = cleanup (c ++ d) ↔ OnLastLine (c ++ d) := by
  constructor
  · intro he
    have hle := cleanup_length (cleanup d)
    rw [OnLastLine]
    by_contra hne
    have hsuffix : (cleanup d).length ≤ (cleanup (c ++ d)).length := by
      rw [cleanup_append]
      have := cleanup_length d
      split_ifs
      · rw [List.length_append]
        omega
      · exact le_rfl
    have hd : cleanup d ≠ [] := by
      intro hd
      rw [hd] at he
      exact hne he.symm
    have := cleanup_length_lt hd
    rw [he] at this
    omega
  · intro he
    have hd : cleanup d = [] := by
      rw [OnLastLine, cleanup_append] at he
      split_ifs at he
      · rw [(List.append_eq_nil_iff.mp he).2]
        rfl
      · exact he
    rw [he, hd]
    rfl

/-! ### Texts at which a command is given up

Each predicate holds of the bytes that have been read when `cleanup` is called, a
malformed pair excepted. -/

/-- After `WRITE [(`, with room for `n` more pairs. -/
inductive PairsGivenUp : ℕ → List UInt8 → Prop
  | more {n : ℕ} {p : List UInt8 × List UInt8} {c : List UInt8} (hp : IsPair p)
      (hc : PairsGivenUp n c) : PairsGivenUp (n + 1) (pairText p ++ byte '(' :: c)
  | separator {n : ℕ} {p : List UInt8 × List UInt8} {ch : UInt8} (hp : IsPair p)
      (h₁ : ch ≠ byte '(') (h₂ : ch ≠ byte ']') : PairsGivenUp (n + 1) (pairText p ++ [ch])
  | full : PairsGivenUp 0 []
  | fullLast {p : List UInt8 × List UInt8} (hp : IsPair p) :
      PairsGivenUp 1 (pairText p ++ [byte ']'])
  | trailing {n : ℕ} {p : List UInt8 × List UInt8} {ch : UInt8} (hp : IsPair p)
      (h₁ : ch ≠ byte '\n') (h₂ : ch ≠ 0) : PairsGivenUp (n + 2) (pairText p ++ [byte ']', ch])

/-- After the bracket of READ and DELETE, with room for `n` more keys. -/
inductive KeysGivenUp : ℕ → List UInt8 → Prop
  | more {n : ℕ} {k c : List UInt8} (hk : IsField k) (hc : KeysGivenUp n c) :
      KeysGivenUp (n + 1) (k ++ byte ',' :: c)
  | bad {n : ℕ} {k : List UInt8} {ch : UInt8} (hk : IsField k)
      (hch : ch = byte ' ' ∨ ch = byte ')') : KeysGivenUp (n + 1) (k ++ [ch])
  | long {n : ℕ} {k : List UInt8} (hk : ∀ b ∈ k, Plain b) (hlen : k.length = maxStringSize) :
      KeysGivenUp (n + 1) k
  | full : KeysGivenUp 0 []
  | fullLast {k : List UInt8} (hk : IsField k) : KeysGivenUp 1 (k ++ [byte ']'])
  | trailing {n : ℕ} {k : List UInt8} {ch : UInt8} (hk : IsField k) (h₁ : ch ≠ byte '\n')
      (h₂ : ch ≠ 0) : KeysGivenUp (n + 2) (k ++ [byte ']', ch])

inductive WriteGivenUp : List UInt8 → Prop
  | bracket {ch : UInt8} (h : ch ≠ byte '[') : WriteGivenUp [ch]
  | paren {ch : UInt8} (h : ch ≠ byte '(') : WriteGivenUp [byte '[', ch]
  | pairs {c : List UInt8} (h : PairsGivenUp maxWriteSize c) :
      WriteGivenUp (byte '[' :: byte '(' :: c)

inductive ReadDeleteGivenUp : List UInt8 → Prop
  | bracket {ch : UInt8} (h : ch ≠ byte '[') : ReadDeleteGivenUp [ch]
  | keys {c : List UInt8} (h : KeysGivenUp maxWriteSize c) : ReadDeleteGivenUp (byte '[' :: c)

inductive WaitGivenUp : List UInt8 → Prop
  | next {digits : List UInt8} {ch : UInt8} (hd : ∀ d ∈ digits, isDigit d = true)
      (hch : isDigit ch = false) (h₁ : ch ≠ byte ' ') (h₂ : ch ≠ byte '\n') (h₃ : ch ≠ 0) :
      WaitGivenUp (digits ++ [ch])
  | big {digits : List UInt8} {ch : UInt8} (hd : ∀ d ∈ digits, isDigit d = true)
      (hch : isDigit ch = false) (hbig : uintMax < strtoul (digits ++ [0])) :
      WaitGivenUp (digits ++ [ch])

/-- The first letters of commands, comments and empty lines. -/
def initials : List UInt8 := chars ['W', 'R', 'D', 'S', 'B', 'H', '#', '\n']

theorem not_mem_initials {ch : UInt8} : ch ∉ initials ↔
    ch ≠ byte 'W' ∧ ch ≠ byte 'R' ∧ ch ≠ byte 'D' ∧ ch ≠ byte 'S' ∧ ch ≠ byte 'B' ∧
      ch ≠ byte 'H' ∧ ch ≠ byte '#' ∧ ch ≠ byte '\n' := by
  simp only [initials, chars, byte, List.map_cons, List.map_nil, List.mem_cons, List.not_mem_nil,
    or_false, not_or, ne_eq]

/-- The words that are alone on their line, after their first letter. -/
def lineWords : List (UInt8 × List UInt8) :=
  [(byte 'S', chars ['H', 'O', 'W']), (byte 'B', chars ['A', 'C', 'K', 'U', 'P']),
    (byte 'H', chars ['E', 'L', 'P'])]

def words : List (UInt8 × List UInt8) :=
  (byte 'R', chars ['E', 'A', 'D', ' ']) ::
    (byte 'D', chars ['E', 'L', 'E', 'T', 'E', ' ']) :: lineWords

/-- A whole command, from its first byte. A wrong word is read to the length of the right
one before it is compared. -/
inductive GivenUp : List UInt8 → Prop
  | letter {ch : UInt8} (h : ch ∉ initials) : GivenUp [ch]
  | waitOrWrite {c : List UInt8} (hlen : c.length = 5)
      (hwait : c.take 4 ≠ chars ['A', 'I', 'T', ' '])
      (hwrite : c ≠ chars ['R', 'I', 'T', 'E', ' ']) : GivenUp (byte 'W' :: c)
  | word {w : UInt8 × List UInt8} {c : List UInt8} (hw : w ∈ words) (hlen : c.length = w.2.length)
      (hne : c ≠ w.2) : GivenUp (w.1 :: c)
  | line {w : UInt8 × List UInt8} {ch : UInt8} (hw : w ∈ lineWords) (hch : ch ≠ byte '\n') :
      GivenUp (w.1 :: (w.2 ++ [ch]))
  | write {c : List UInt8} (h : WriteGivenUp c) :
      GivenUp (chars ['W', 'R', 'I', 'T', 'E', ' '] ++ c)
  | read {c : List UInt8} (h : ReadDeleteGivenUp c) : GivenUp (chars ['R', 'E', 'A', 'D', ' '] ++ c)
  | delete {c : List UInt8} (h : ReadDeleteGivenUp c) :
      GivenUp (chars ['D', 'E', 'L', 'E', 'T', 'E', ' '] ++ c)
  | wait {c : List UInt8} (h : WaitGivenUp c) : GivenUp (chars ['W', 'A', 'I', 'T', ' '] ++ c)

/-! ### The lists -/

/-- The ends of a list that `parse_write` and `parse_read_delete` refuse, with the position
that they leave the file at. -/
inductive Refused {A : Type*} (max : ℕ) : Parsed (Option (List A)) → List UInt8 → Prop
  | given {z : List UInt8} : Refused max ⟨none, z⟩ z
  | full {xs : List A} {d : List UInt8} (h : xs.length = max) : Refused max ⟨some xs, d⟩ (cleanup d)
  | trailing {xs : List A} {ch : UInt8} {d : List UInt8} (h : xs.length ≠ max)
      (h₁ : ch ≠ byte '\n') (h₂ : ch ≠ 0) : Refused max ⟨some xs, ch :: d⟩ (cleanup d)
  | eof {xs : List A} (h : xs.length ≠ max) : Refused max ⟨some xs, []⟩ []

section Refused
variable {A : Type*} {max : ℕ} {r : Parsed (Option (List A))} {z : List UInt8}

theorem Refused.parseEnd (h : Refused max r z) : parseEnd max r = ⟨[], z⟩ := by
  cases h with
  | given => rfl
  | full h => simp only [Jobs.parseEnd, if_pos h]; rfl
  | trailing h h₁ h₂ => simp only [Jobs.parseEnd, if_neg h, if_pos (And.intro h₁ h₂)]; rfl
  | eof h => simp only [Jobs.parseEnd, if_neg h]

theorem refused_of_parseEnd (hr : r.result = some [] → max = 0)
    (h : (parseEnd max r).result = []) : Refused max r (parseEnd max r).rest := by
  obtain ⟨_ | xs, rest⟩ := r
  · exact .given
  · by_cases hlen : xs.length = max
    · simp only [parseEnd, if_pos hlen]
      exact .full hlen
    · cases rest with
      | nil =>
        simp only [parseEnd, if_neg hlen]
        exact .eof hlen
      | cons ch s =>
        simp only [parseEnd, if_neg hlen] at h ⊢
        split_ifs at h ⊢ with hch
        · exact .trailing hlen hch.1 hch.2
        · -- an accepted list is not empty
          simp only at h
          subst h
          exact absurd (hr rfl).symm hlen

theorem Refused.cons (h : Refused max r z) (x : A) :
    Refused (max + 1) ⟨r.result.map (x :: ·), r.rest⟩ z := by
  cases h with
  | given => exact .given
  | full h => exact .full (by simpa using h)
  | trailing h h₁ h₂ => exact .trailing (by simpa using h) h₁ h₂
  | eof h => exact .eof (by simpa using h)

theorem Refused.of_cons {x : A} (h : Refused (max + 1) ⟨r.result.map (x :: ·), r.rest⟩ z) :
    Refused max r z := by
  obtain ⟨_ | xs, rest⟩ := r
  · cases h; exact .given
  · cases h with
    | full h => exact .full (by simpa using h)
    | trailing h h₁ h₂ => exact .trailing (by simpa using h) h₁ h₂
    | eof h => exact .eof (by simpa using h)

end Refused

/-! ### How every rejection comes about -/

/-- The position `z` after a rejection: past the line of what follows a text of the shape,
past two lines after a malformed pair, or at the end of the file. -/
inductive Resumes (Shape : List UInt8 → Prop) (s z : List UInt8) : Prop
  | once (c d : List UInt8) (hs : s = c ++ d) (hc : Shape c) (hz : z = cleanup d)
  | twice (c d : List UInt8) (hs : s = c ++ d) (hz : z = cleanup (cleanup d))
  | eof (hz : z = [])

theorem Resumes.prepend {P Q : List UInt8 → Prop} {s z : List UInt8} (h : Resumes P s z)
    (pre : List UInt8) (hpre : ∀ c, P c → Q (pre ++ c)) : Resumes Q (pre ++ s) z := by
  cases h with
  | once c d hs hc hz => exact .once (pre ++ c) d (by simp [hs]) (hpre c hc) hz
  | twice c d hs hz => exact .twice (pre ++ c) d (by simp [hs]) hz
  | eof hz => exact .eof hz

theorem delimiter_cases {ch : UInt8} (hch : ¬ Plain ch) :
    ch = byte ' ' ∧ delimiterValue ch = -1 ∨ ch = byte ',' ∧ delimiterValue ch = 0 ∨
      ch = byte ')' ∧ delimiterValue ch = 1 ∨ ch = byte ']' ∧ delimiterValue ch = 2 := by
  by_cases h₁ : ch = byte ' '
  · subst h₁; exact .inl ⟨rfl, rfl⟩
  · by_cases h₂ : ch = byte ','
    · subst h₂; exact .inr (.inl ⟨rfl, rfl⟩)
    · by_cases h₃ : ch = byte ')'
      · subst h₃; exact .inr (.inr (.inl ⟨rfl, rfl⟩))
      · by_cases h₄ : ch = byte ']'
        · subst h₄; exact .inr (.inr (.inr ⟨rfl, rfl⟩))
        · exact absurd ⟨h₁, h₂, h₃, h₄⟩ hch

/-- `read_string` stops at one delimiter with the field before it, or somewhere with -1. -/
theorem readString_cases (s : List UInt8) :
    (∃ k ch rest, IsField k ∧ ¬ Plain ch ∧ s = k ++ ch :: rest ∧
      readString maxStringSize s = ⟨delimiterValue ch, k, decide (ch ≠ byte ' '), rest⟩) ∨
    (∃ k rest, (∀ b ∈ k, Plain b) ∧ k.length = maxStringSize ∧ s = k ++ rest ∧
      readString maxStringSize s = ⟨-1, k, true, rest⟩) ∨
    readString maxStringSize s = ⟨-1, s, false, []⟩ := by
  cases fieldEnd maxStringSize s with
  | delimited k ch rest hk hn hch hs =>
    refine .inl ⟨k, ch, rest, ⟨hk, hn⟩, hch, hs, ?_⟩
    rw [hs, readString_field hk hn ch hch]
  | full k rest hk hn hs =>
    refine .inr (.inl ⟨k, rest, hk, hn, hs, ?_⟩)
    rw [hs, ← hn, readString_full hk]
  | eof hk hn => exact .inr (.inr (readString_eof hk hn))

/-- A pair is read in full, or given up with one `cleanup`. -/
theorem parsePair_cases (s : List UInt8) :
    (∃ p rest, IsPair p ∧ s = pairText p ++ rest) ∨
      ∃ c d, s = c ++ d ∧ parsePair s = ⟨none, cleanup d⟩ := by
  have hfail : ∀ s', ∀ r : ReadString, readString maxStringSize s' = r →
      ∃ c, s' = c ++ r.rest := by
    intro s' r hr
    rcases readString_cases s' with ⟨k, ch, rest, -, -, hs, h⟩ | ⟨k, rest, -, -, hs, h⟩ | h
    · exact ⟨k ++ [ch], by rw [← hr, h, hs]; simp⟩
    · exact ⟨k, by rw [← hr, h, hs]⟩
    · exact ⟨s', by rw [← hr, h]; simp⟩
  have hkey := readString_cases s
  by_cases hv : (readString maxStringSize s).value = 0
  · have hsecond := readString_cases (readString maxStringSize s).rest
    by_cases hw : (readString maxStringSize (readString maxStringSize s).rest).value = 1
    · -- both fields end as they should
      rcases hkey with ⟨k, ch, rest, hk, hch, hs, h⟩ | ⟨k, rest, -, -, -, h⟩ | h
      · rw [h] at hv hw hsecond
        rcases delimiter_cases hch with ⟨-, he⟩ | ⟨rfl, -⟩ | ⟨-, he⟩ | ⟨-, he⟩
        · simp [he] at hv
        · rcases hsecond with ⟨v, ch', rest', hv', hch', hs', h'⟩ | ⟨v, rest', -, -, -, h'⟩ | h'
          · rw [h'] at hw
            rcases delimiter_cases hch' with ⟨-, he⟩ | ⟨-, he⟩ | ⟨rfl, -⟩ | ⟨-, he⟩
            · simp [he] at hw
            · simp [he] at hw
            · refine .inl ⟨(k, v), rest', ⟨hk, hv'⟩, ?_⟩
              simp only at hs'
              simp [hs, hs', pairText]
            · simp [he] at hw
          · simp [h'] at hw
          · simp [h'] at hw
        · simp [he] at hv
        · simp [he] at hv
      · simp [h] at hv
      · simp [h] at hv
    · obtain ⟨c, hc⟩ := hfail s _ rfl
      obtain ⟨c', hc'⟩ := hfail _ _
        (rfl : readString maxStringSize (readString maxStringSize s).rest = _)
      refine .inr ⟨c ++ c', _, by rw [List.append_assoc, ← hc']; exact hc, ?_⟩
      simp only [parsePair, hv, hw, ne_eq, not_true_eq_false, if_false, not_false_eq_true, if_true]
      rfl
  · obtain ⟨c, hc⟩ := hfail s _ rfl
    refine .inr ⟨c, _, hc, ?_⟩
    simp only [parsePair, ne_eq, hv, not_false_eq_true, if_true]
    rfl

theorem parsePairs_nil {n : ℕ} {s : List UInt8} (h : (parsePairs n s).result = some []) :
    n = 0 := by
  cases n with
  | zero => rfl
  | succ n =>
    simp only [parsePairs, Parsed.cleanup] at h
    split at h
    · cases h
    · split at h
      · cases h
      · split_ifs at h <;> simp at h

theorem parseKeys_nil {n : ℕ} {s : List UInt8}
    (h : (parseKeys maxStringSize n s).result = some []) : n = 0 := by
  cases n with
  | zero => rfl
  | succ n =>
    simp only [parseKeys, Parsed.cleanup] at h
    split_ifs at h <;> simp at h

theorem parsePairs_resumes (n : ℕ) {s z : List UInt8} (h : Refused n (parsePairs n s) z) :
    Resumes (PairsGivenUp n) s z := by
  induction n generalizing s with
  | zero =>
    rw [parsePairs] at h
    cases h with
    | full h => exact .once [] s rfl .full rfl
    | trailing h => exact absurd rfl h
    | eof h => exact absurd rfl h
  | succ n ih =>
    rcases parsePair_cases s with ⟨p, rest, hp, rfl⟩ | ⟨c, d, hs, hfail⟩
    · cases rest with
      | nil =>
        have hnone : parsePairs (n + 1) (pairText p ++ []) = ⟨none, []⟩ := by
          simp only [parsePairs, parsePair_text hp]
        rw [hnone] at h
        cases h
        exact .eof rfl
      | cons ch t =>
        by_cases h₁ : ch = byte '('
        · subst h₁
          rw [parsePairs_cons hp] at h
          have hrest := (ih h.of_cons).prepend (Q := PairsGivenUp (n + 1))
            (pairText p ++ [byte '(']) fun c hc => by simpa using PairsGivenUp.more hp hc
          simpa using hrest
        · by_cases h₂ : ch = byte ']'
          · subst h₂
            rw [parsePairs_last hp] at h
            cases h with
            | full h =>
              obtain rfl : n = 0 := by simpa using h.symm
              exact .once _ t (by simp) (.fullLast hp) rfl
            | @trailing _ ch d h h₁ h₂ =>
              obtain ⟨m, rfl⟩ : ∃ m, n = m + 1 :=
                Nat.exists_eq_succ_of_ne_zero fun h0 => h (by simp [h0])
              exact .once _ d (by simp) (.trailing hp h₁ h₂) rfl
            | eof h => exact .eof rfl
          · rw [parsePairs_bad hp n h₁ h₂] at h
            cases h
            exact .once _ t (by simp) (.separator hp h₁ h₂) rfl
    · have hnone : parsePairs (n + 1) s = ⟨none, cleanup (cleanup d)⟩ := by
        simp only [parsePairs, hfail]
        rfl
      rw [hnone] at h
      cases h
      exact .twice c d hs rfl

theorem parseKeys_resumes (n : ℕ) {s z : List UInt8}
    (h : Refused n (parseKeys maxStringSize n s) z) : Resumes (KeysGivenUp n) s z := by
  induction n generalizing s with
  | zero =>
    rw [parseKeys] at h
    cases h with
    | full h => exact .once [] s rfl .full rfl
    | trailing h => exact absurd rfl h
    | eof h => exact absurd rfl h
  | succ n ih =>
    rcases readString_cases s with ⟨k, ch, t, hk, hch, rfl, -⟩ | ⟨k, t, hk, hlen, rfl, -⟩ | hread
    · rcases delimiter_cases hch with ⟨rfl, -⟩ | ⟨rfl, -⟩ | ⟨rfl, -⟩ | ⟨rfl, -⟩
      · rw [parseKeys_bad hk n (.inl rfl)] at h
        cases h
        exact .once _ t (by simp) (.bad hk (.inl rfl)) rfl
      · rw [parseKeys_cons hk] at h
        have hrest := (ih h.of_cons).prepend (Q := KeysGivenUp (n + 1)) (k ++ [byte ','])
          fun c hc => by simpa using KeysGivenUp.more hk hc
        simpa using hrest
      · rw [parseKeys_bad hk n (.inr rfl)] at h
        cases h
        exact .once _ t (by simp) (.bad hk (.inr rfl)) rfl
      · rw [parseKeys_last hk] at h
        cases h with
        | full h =>
          obtain rfl : n = 0 := by simpa using h.symm
          exact .once _ t (by simp) (.fullLast hk) rfl
        | @trailing _ ch d h h₁ h₂ =>
          obtain ⟨m, rfl⟩ : ∃ m, n = m + 1 :=
            Nat.exists_eq_succ_of_ne_zero fun h0 => h (by simp [h0])
          exact .once _ d (by simp) (.trailing hk h₁ h₂) rfl
        | eof h => exact .eof rfl
    · rw [parseKeys_long hk hlen] at h
      cases h
      exact .once k t rfl (.long hk hlen) rfl
    · have hnone : parseKeys maxStringSize (n + 1) s = ⟨none, []⟩ := by
        simp only [parseKeys, hread]
        rfl
      rw [hnone] at h
      cases h
      exact .eof rfl

theorem parseWrite_resumes {s : List UInt8} (h : (parseWrite s maxWriteSize).result = []) :
    Resumes WriteGivenUp s (parseWrite s maxWriteSize).rest := by
  cases s with
  | nil => exact .eof rfl
  | cons ch s =>
    by_cases h₁ : ch = byte '['
    · subst h₁
      cases s with
      | nil => exact .eof rfl
      | cons ch s =>
        by_cases h₂ : ch = byte '('
        · subst h₂
          have hlist : parseWrite (byte '[' :: byte '(' :: s) maxWriteSize =
              parseEnd maxWriteSize (parsePairs maxWriteSize s) := rfl
          rw [hlist] at h ⊢
          have hrefused := refused_of_parseEnd parsePairs_nil h
          exact (parsePairs_resumes _ hrefused).prepend [byte '[', byte '('] fun c hc => .pairs hc
        · refine .once [byte '[', ch] s rfl (.paren h₂) ?_
          simp only [parseWrite, ne_eq, not_true_eq_false, if_false, h₂, not_false_eq_true, if_true]
          rfl
    · refine .once [ch] s rfl (.bracket h₁) ?_
      simp only [parseWrite, ne_eq, h₁, not_false_eq_true, if_true]
      rfl

theorem parseReadDelete_resumes {s : List UInt8}
    (h : (parseReadDelete s maxWriteSize maxStringSize).result = []) :
    Resumes ReadDeleteGivenUp s (parseReadDelete s maxWriteSize maxStringSize).rest := by
  cases s with
  | nil => exact .eof rfl
  | cons ch s =>
    by_cases h₁ : ch = byte '['
    · subst h₁
      have hlist : parseReadDelete (byte '[' :: s) maxWriteSize maxStringSize =
          parseEnd maxWriteSize (parseKeys maxStringSize maxWriteSize s) := rfl
      rw [hlist] at h ⊢
      have hrefused := refused_of_parseEnd parseKeys_nil h
      exact (parseKeys_resumes _ hrefused).prepend [byte '['] fun c hc => .keys hc
    · refine .once [ch] s rfl (.bracket h₁) ?_
      simp only [parseReadDelete, ne_eq, h₁, not_false_eq_true, if_true]
      rfl

theorem parseWait_resumes {stack s : List UInt8}
    (h : (parseWait stack false s).result.status = -1) :
    Resumes WaitGivenUp s (parseWait stack false s).rest := by
  have hd : ∀ d ∈ s.takeWhile isDigit, isDigit d = true := fun d hd => List.mem_takeWhile_imp hd
  have hsplit := List.takeWhile_append_dropWhile (p := isDigit) (l := s)
  cases hdrop : s.dropWhile isDigit with
  | nil =>
    -- at the end of the file nothing is left to skip
    refine .eof ?_
    have hrest : (readUint stack s).rest = [] := by
      simp only [readUint, hdrop]
      split_ifs <;> rfl
    have hnext : (readUint stack s).next = 0 := by
      simp only [readUint, hdrop]
      split_ifs <;> rfl
    have hspace : ¬ (0 : UInt8) = byte ' ' := by decide
    simp only [parseWait, Parsed.cleanup, hrest, hnext, if_neg hspace]
    split_ifs <;> rfl
  | cons ch t =>
    have hch : isDigit ch = false := by
      have := List.dropWhile_get_zero_not (p := isDigit) s (by rw [hdrop]; simp)
      simpa [hdrop] using this
    rw [hdrop] at hsplit
    have hread := readUint_digits stack hd _ hch t
    rw [hsplit] at hread
    split_ifs at hread with hbig
    · refine .once _ t (by simpa using hsplit.symm) (.big hd hch hbig) ?_
      simp only [parseWait, hread]
      rfl
    · simp only [parseWait, hread, ne_eq, not_true_eq_false, if_false] at h ⊢
      by_cases h₁ : ch = byte ' '
      · rw [if_pos h₁] at h
        exact absurd (show (0 : ℤ) = -1 from h) (by decide)
      · rw [if_neg h₁] at h ⊢
        by_cases h₂ : ch = byte '\n' ∨ ch = 0
        · rw [if_pos h₂] at h
          exact absurd (show (0 : ℤ) = -1 from h) (by decide)
        · rw [if_neg h₂]
          rw [not_or] at h₂
          exact .once _ t (by simpa using hsplit.symm) (.next hd hch h₁ h₂.1 h₂.2) rfl

/-! ### Whole commands -/

/-- A word is read to its length, unless the file ends before. -/
theorem resumes_word {ch : UInt8} {n : ℕ} {s : List UInt8}
    (h : (s.take n).length = n → GivenUp (ch :: s.take n)) :
    Resumes GivenUp (ch :: s) (cleanup (s.drop n)) := by
  by_cases hn : n ≤ s.length
  · exact .once _ (s.drop n) (by simp) (h (by simpa using hn)) rfl
  · refine .eof ?_
    rw [List.drop_of_length_le (by omega)]
    rfl

theorem getWord_of_eq {w s : List UInt8} {code : CommandCode}
    (h : s.take w.length = w) : getWord w code s = ⟨code, s.drop w.length⟩ := by
  rw [getWord, if_pos h]

theorem getWord_of_ne {w s : List UInt8} {code : CommandCode}
    (h : s.take w.length ≠ w) :
    getWord w code s = ⟨.invalid, cleanup (s.drop w.length)⟩ := by
  rw [getWord, if_neg h]
  rfl

/-- A word that is alone on its line is accepted, or given up on its line. -/
theorem getLine_cases {w : UInt8 × List UInt8} (hw : w ∈ lineWords) (code : CommandCode)
    (s : List UInt8) :
    (getLine w.2 code s).result = code ∨
      (getLine w.2 code s).result = .invalid ∧
        Resumes GivenUp (w.1 :: s) (getLine w.2 code s).rest := by
  by_cases h : s.take w.2.length = w.2
  · have hs : s = w.2 ++ s.drop w.2.length := by
      conv_lhs => rw [← List.take_append_drop w.2.length s, h]
    simp only [getLine, if_pos h]
    cases hd : s.drop w.2.length with
    | nil => exact .inl rfl
    | cons ch t =>
      by_cases hch : ch = byte '\n'
      · exact .inl (by simp [hch])
      · refine .inr ?_
        simp only [ne_eq, hch, not_false_eq_true, if_true]
        refine ⟨rfl, .once _ t ?_ (.line hw hch) rfl⟩
        rw [hs, hd]
        simp
  · refine .inr ?_
    simp only [getLine, if_neg h]
    exact ⟨rfl, resumes_word fun hlen => .word (List.mem_cons_of_mem _ (List.mem_cons_of_mem _ hw))
      hlen h⟩

theorem cons_take_drop (ch : UInt8) {w s : List UInt8} (h : s.take w.length = w) :
    ch :: s = (ch :: w) ++ s.drop w.length := by
  rw [List.cons_append]
  conv_lhs => rw [← List.take_append_drop w.length s, h]

/-- A turn that is rejected: its word is, or what follows the word is given up. -/
inductive Rejected : Parsed CommandCode → List UInt8 → Prop
  | word {t : List UInt8} : Rejected ⟨.invalid, t⟩ t
  | write {t z : List UInt8} (h : Resumes WriteGivenUp t z) : Rejected ⟨.write, t⟩ z
  | read {t z : List UInt8} (h : Resumes ReadDeleteGivenUp t z) : Rejected ⟨.read, t⟩ z
  | delete {t z : List UInt8} (h : Resumes ReadDeleteGivenUp t z) : Rejected ⟨.delete, t⟩ z
  | wait {t z : List UInt8} (h : Resumes WaitGivenUp t z) : Rejected ⟨.wait, t⟩ z

theorem keysItem_resumes {command : List CStr → Command} {s : List UInt8}
    (hr : (keysItem command s).result = .invalid) :
    Resumes ReadDeleteGivenUp s (keysItem command s).rest := by
  simp only [keysItem] at hr ⊢
  split_ifs at hr ⊢ with hnil
  exact parseReadDelete_resumes hnil

theorem rejected_of_nextItem {stack s : List UInt8} {r : Parsed Item}
    (h : nextItem stack s = some r) (hr : r.result = .invalid) :
    Rejected (getNext s) r.rest := by
  unfold nextItem at h
  generalize getNext s = g at h ⊢
  obtain ⟨code, t⟩ := g
  cases code with
  | write =>
    obtain rfl := Option.some.inj h
    simp only [writeItem] at hr ⊢
    split_ifs at hr ⊢ with hnil
    exact .write (parseWrite_resumes hnil)
  | read =>
    obtain rfl := Option.some.inj h
    exact .read (keysItem_resumes hr)
  | delete =>
    obtain rfl := Option.some.inj h
    exact .delete (keysItem_resumes hr)
  | wait =>
    obtain rfl := Option.some.inj h
    simp only [waitItem] at hr ⊢
    split_ifs at hr ⊢ with hstatus
    exact .wait (parseWait_resumes hstatus)
  | invalid =>
    obtain rfl := Option.some.inj h
    exact .word
  | showAll | backup | help | empty =>
    obtain rfl := Option.some.inj h
    cases hr
  | eoc => cases h

theorem Rejected.rest_eq {g : Parsed CommandCode} {z : List UInt8} (h : Rejected g z)
    (hg : g.result = .invalid) : z = g.rest := by
  cases h with
  | word => rfl
  | write | read | delete | wait => cases hg

theorem Rejected.not_alone {g : Parsed CommandCode} {z : List UInt8} (h : Rejected g z) :
    g.result ∉ ([.showAll, .backup, .help, .empty] : List CommandCode) := by
  cases h <;> simp

section Words
variable {w : UInt8 × List UInt8} {code : CommandCode} {s z : List UInt8}

/-- A wrong word of a list command, or a list after the right one. -/
theorem resumes_list (hw : w ∈ words)
    (hgiven : ∀ c, ReadDeleteGivenUp c → GivenUp ((w.1 :: w.2) ++ c))
    (hlist : ∀ t, Rejected ⟨code, t⟩ z → Resumes ReadDeleteGivenUp t z)
    (h : Rejected (getWord w.2 code s) z) : Resumes GivenUp (w.1 :: s) z := by
  by_cases hs : s.take w.2.length = w.2
  · rw [getWord_of_eq hs] at h
    rw [cons_take_drop w.1 hs]
    exact (hlist _ h).prepend _ hgiven
  · rw [getWord_of_ne hs] at h
    rw [h.rest_eq rfl]
    exact resumes_word fun hlen => .word hw hlen hs

/-- The word of a line is wrong, or it is not alone on it. -/
theorem resumes_line (hw : w ∈ lineWords) (hcode : code ∈ [CommandCode.showAll, .backup, .help])
    (h : Rejected (getLine w.2 code s) z) : Resumes GivenUp (w.1 :: s) z := by
  rcases getLine_cases hw code s with hok | ⟨hbad, hres⟩
  · have hnot := h.not_alone
    rw [hok] at hnot
    refine absurd ?_ hnot
    revert hcode
    cases code <;> decide
  · rw [h.rest_eq hbad]
    exact hres

end Words

/-- After a rejection the file is where the shape of what was read says. -/
theorem nextItem_resumes {stack s : List UInt8} {r : Parsed Item} (h : nextItem stack s = some r)
    (hr : r.result = .invalid) : Resumes GivenUp s r.rest := by
  have hrej := rejected_of_nextItem h hr
  cases s with
  | nil => cases h
  | cons ch s =>
    rw [getNext] at hrej
    split_ifs at hrej with hW h₁ h₂ hR hD hS hB hH hC hN
    · rw [hW, cons_take_drop (byte 'W') (w := chars ['A', 'I', 'T', ' ']) h₁]
      cases hrej with
      | wait h => exact h.prepend _ fun c hc => .wait hc
    · rw [hW, cons_take_drop (byte 'W') (w := chars ['R', 'I', 'T', 'E', ' ']) h₂]
      cases hrej with
      | write h => exact h.prepend _ fun c hc => .write hc
    · rw [hW, hrej.rest_eq rfl]
      refine resumes_word fun hlen => .waitOrWrite hlen ?_ h₂
      rwa [List.take_take]
    · rw [hR]
      refine resumes_list (w := (byte 'R', chars ['E', 'A', 'D', ' '])) (by decide)
        (fun c hc => .read hc) (fun t ht => ?_) hrej
      cases ht with
      | read h => exact h
    · rw [hD]
      refine resumes_list (w := (byte 'D', chars ['E', 'L', 'E', 'T', 'E', ' '])) (by decide)
        (fun c hc => .delete hc) (fun t ht => ?_) hrej
      cases ht with
      | delete h => exact h
    · rw [hS]
      exact resumes_line (w := (byte 'S', chars ['H', 'O', 'W'])) (by decide) (by decide) hrej
    · rw [hB]
      exact resumes_line (w := (byte 'B', chars ['A', 'C', 'K', 'U', 'P'])) (by decide)
        (by decide) hrej
    · rw [hH]
      exact resumes_line (w := (byte 'H', chars ['E', 'L', 'P'])) (by decide) (by decide) hrej
    · exact absurd (by simp [Parsed.cleanup]) hrej.not_alone
    · exact absurd (by simp) hrej.not_alone
    · rw [hrej.rest_eq rfl]
      exact .once [ch] s rfl (.letter (not_mem_initials.mpr ⟨hW, hR, hD, hS, hB, hH, hC, hN⟩)) rfl

/-! ### Texts of the shapes are given up -/

theorem PairsGivenUp.refused {n : ℕ} {c : List UInt8} (h : PairsGivenUp n c) (d : List UInt8) :
    Refused n (parsePairs n (c ++ d)) (cleanup d) := by
  induction h with
  | more hp _ ih =>
    rw [List.append_assoc, List.cons_append, parsePairs_cons hp]
    exact ih.cons _
  | separator hp h₁ h₂ =>
    rw [List.append_assoc, List.singleton_append, parsePairs_bad hp _ h₁ h₂]
    exact .given
  | full => exact .full rfl
  | fullLast hp =>
    rw [List.append_assoc, List.singleton_append, parsePairs_last hp]
    exact .full rfl
  | trailing hp h₁ h₂ =>
    rw [List.append_assoc, List.cons_append, List.singleton_append, parsePairs_last hp]
    exact .trailing (by simp) h₁ h₂

theorem KeysGivenUp.refused {n : ℕ} {c : List UInt8} (h : KeysGivenUp n c) (d : List UInt8) :
    Refused n (parseKeys maxStringSize n (c ++ d)) (cleanup d) := by
  induction h with
  | more hk _ ih =>
    rw [List.append_assoc, List.cons_append, parseKeys_cons hk]
    exact ih.cons _
  | bad hk hch =>
    rw [List.append_assoc, List.singleton_append, parseKeys_bad hk _ hch]
    exact .given
  | long hk hlen =>
    rw [parseKeys_long hk hlen]
    exact .given
  | full => exact .full rfl
  | fullLast hk =>
    rw [List.append_assoc, List.singleton_append, parseKeys_last hk]
    exact .full rfl
  | trailing hk h₁ h₂ =>
    rw [List.append_assoc, List.cons_append, List.singleton_append, parseKeys_last hk]
    exact .trailing (by simp) h₁ h₂

theorem WriteGivenUp.parse {c : List UInt8} (h : WriteGivenUp c) (d : List UInt8) :
    parseWrite (c ++ d) maxWriteSize = ⟨[], cleanup d⟩ := by
  cases h with
  | bracket h =>
    simp only [List.singleton_append, parseWrite, ne_eq, h, not_false_eq_true, if_true]
    rfl
  | paren h =>
    simp only [List.cons_append, List.nil_append, parseWrite, ne_eq, h, not_true_eq_false,
      not_false_eq_true, if_true, if_false]
    rfl
  | pairs h => exact (h.refused d).parseEnd

theorem ReadDeleteGivenUp.parse {c : List UInt8} (h : ReadDeleteGivenUp c) (d : List UInt8) :
    parseReadDelete (c ++ d) maxWriteSize maxStringSize = ⟨[], cleanup d⟩ := by
  cases h with
  | bracket h =>
    simp only [List.singleton_append, parseReadDelete, ne_eq, h, not_false_eq_true, if_true]
    rfl
  | keys h => exact (h.refused d).parseEnd

theorem WaitGivenUp.parse {c : List UInt8} (h : WaitGivenUp c) (stack d : List UInt8) :
    (parseWait stack false (c ++ d)).result.status = -1 ∧
      (parseWait stack false (c ++ d)).rest = cleanup d := by
  cases h with
  | next hd hch h₁ h₂ h₃ =>
    have hread := readUint_digits stack hd _ hch d
    rw [List.append_assoc, List.singleton_append]
    split_ifs at hread
    · simp only [parseWait, hread]
      exact ⟨rfl, rfl⟩
    · simp only [parseWait, hread, ne_eq, not_true_eq_false, if_false, if_neg h₁,
        if_neg (not_or.mpr ⟨h₂, h₃⟩)]
      exact ⟨rfl, rfl⟩
  | big hd hch hbig =>
    have hread := readUint_digits stack hd _ hch d
    rw [if_pos hbig] at hread
    rw [List.append_assoc, List.singleton_append]
    simp only [parseWait, hread]
    exact ⟨rfl, rfl⟩

theorem getNext_givenUp {ch : UInt8} (h : ch ∉ initials) (d : List UInt8) :
    getNext (ch :: d) = ⟨.invalid, cleanup d⟩ := by
  obtain ⟨hW, hR, hD, hS, hB, hH, hC, hN⟩ := not_mem_initials.mp h
  simp only [getNext]
  rw [if_neg hW, if_neg hR, if_neg hD, if_neg hS, if_neg hB, if_neg hH, if_neg hC, if_neg hN]
  rfl

theorem GivenUp.nextItem {c : List UInt8} (h : GivenUp c) (stack d : List UInt8) :
    nextItem stack (c ++ d) = some ⟨.invalid, cleanup d⟩ := by
  have hinvalid : ∀ s z, getNext s = ⟨.invalid, z⟩ →
      Jobs.nextItem stack s = some ⟨.invalid, z⟩ := by
    intro s z hs
    simp only [Jobs.nextItem, hs]
  cases h with
  | letter h => exact hinvalid _ _ (getNext_givenUp h d)
  | @waitOrWrite c hlen hwait hwrite =>
    refine hinvalid _ _ ?_
    have h₁ : (c ++ d).take 4 = c.take 4 := by rw [List.take_append_of_le_length (by omega)]
    have h₂ : (c ++ d).take 5 = c := by rw [← hlen, List.take_left]
    have h₃ : (c ++ d).drop 5 = d := by rw [← hlen, List.drop_left]
    rw [List.cons_append, getNext, if_pos rfl, h₁, h₂, h₃, if_neg hwait, if_neg hwrite]
    rfl
  | @word w c hw hlen hne =>
    refine hinvalid _ _ ?_
    have htake : (c ++ d).take w.2.length ≠ w.2 := by rwa [← hlen, List.take_left]
    have hdrop : (c ++ d).drop w.2.length = d := by rw [← hlen, List.drop_left]
    have hword : ∀ code, getWord w.2 code (c ++ d) = ⟨.invalid, cleanup d⟩ := by
      intro code
      rw [getWord_of_ne htake, hdrop]
    have hline : ∀ code, getLine w.2 code (c ++ d) = ⟨.invalid, cleanup d⟩ := by
      intro code
      rw [getLine, if_neg htake, hdrop]
      rfl
    simp only [words, lineWords, List.mem_cons, List.not_mem_nil, or_false] at hw
    rcases hw with rfl | rfl | rfl | rfl | rfl
    · exact hword .read
    · exact hword .delete
    · exact hline .showAll
    · exact hline .backup
    · exact hline .help
  | @line w ch hw hch =>
    refine hinvalid _ _ ?_
    have hline : ∀ code, getLine w.2 code (w.2 ++ [ch] ++ d) = ⟨.invalid, cleanup d⟩ := by
      intro code
      rw [getLine, List.append_assoc, List.take_left, if_pos rfl, List.drop_left]
      simp only [List.singleton_append, ne_eq, hch, not_false_eq_true, if_true]
      rfl
    simp only [lineWords, List.mem_cons, List.not_mem_nil, or_false] at hw
    rcases hw with rfl | rfl | rfl
    · exact hline .showAll
    · exact hline .backup
    · exact hline .help
  | @write c h =>
    have hget : getNext (chars ['W', 'R', 'I', 'T', 'E', ' '] ++ c ++ d) = ⟨.write, c ++ d⟩ := rfl
    simp only [Jobs.nextItem, hget, writeItem, h.parse d, if_true]
  | @read c h =>
    have hget : getNext (chars ['R', 'E', 'A', 'D', ' '] ++ c ++ d) = ⟨.read, c ++ d⟩ := rfl
    simp only [Jobs.nextItem, hget, keysItem, h.parse d, if_true]
  | @delete c h =>
    have hget : getNext (chars ['D', 'E', 'L', 'E', 'T', 'E', ' '] ++ c ++ d) =
        ⟨.delete, c ++ d⟩ := rfl
    simp only [Jobs.nextItem, hget, keysItem, h.parse d, if_true]
  | @wait c h =>
    have hget : getNext (chars ['W', 'A', 'I', 'T', ' '] ++ c ++ d) = ⟨.wait, c ++ d⟩ := rfl
    obtain ⟨hstatus, hrest⟩ := h.parse stack d
    simp only [Jobs.nextItem, hget, waitItem, hstatus, hrest, if_true]

/-! ### Resynchronization -/

/-- A rejected command leaves the file just past its own line exactly when that line is
the last one, or the command was given up before its newline and not for a malformed
pair. -/
theorem resynchronized_iff {stack s : List UInt8} {r : Parsed Item}
    (h : nextItem stack s = some r) (hr : r.result = .invalid) :
    r.rest = cleanup s ↔
      OnLastLine s ∨ ∃ c d, s = c ++ d ∧ byte '\n' ∉ c ∧ GivenUp c := by
  constructor
  · intro he
    cases nextItem_resumes h hr with
    | once c d hs hc hz =>
      subst hs
      rw [hz, cleanup_once_iff] at he
      exact he.imp_right fun hnl => ⟨c, d, rfl, hnl, hc⟩
    | twice c d hs hz =>
      subst hs
      rw [hz, cleanup_twice_iff] at he
      exact .inl he
    | eof hz => exact .inl (he.symm.trans hz)
  · rintro (hlast | ⟨c, d, rfl, hnl, hc⟩)
    · cases nextItem_resumes h hr with
      | once c d hs hc hz =>
        subst hs
        rw [hz]
        exact cleanup_once_iff.mpr (.inl hlast)
      | twice c d hs hz =>
        subst hs
        rw [hz]
        exact cleanup_twice_iff.mpr hlast
      | eof hz => exact hz.trans hlast.symm
    · rw [hc.nextItem stack d] at h
      obtain rfl := Option.some.inj h
      exact cleanup_once_iff.mpr (.inr hnl)

/-- An unknown command on a line of its own costs that line. -/
theorem resynchronized_unknown :
    ∃ r, nextItem [] (chars ['x', '\n', 'S', 'H', 'O', 'W', '\n']) = some r ∧ r.result = .invalid ∧
      (r.rest = cleanup (chars ['x', '\n', 'S', 'H', 'O', 'W', '\n']) ↔
        OnLastLine (chars ['x', '\n', 'S', 'H', 'O', 'W', '\n']) ∨
          ∃ c d, chars ['x', '\n', 'S', 'H', 'O', 'W', '\n'] = c ++ d ∧ byte '\n' ∉ c ∧
            GivenUp c) :=
  ⟨_, rfl, rfl, @resynchronized_iff [] _ _ rfl rfl⟩

/-- `R` alone on its line: the four bytes read for the word take the newline with them,
and the SHOW of the next line is lost. -/
theorem not_resynchronized :
    ∃ r, nextItem [] (chars ['R', '\n', 'S', 'H', 'O', 'W', '\n']) = some r ∧ r.result = .invalid ∧
      r.rest = [] ∧
      cleanup (chars ['R', '\n', 'S', 'H', 'O', 'W', '\n']) = chars ['S', 'H', 'O', 'W', '\n'] :=
  ⟨_, rfl, rfl, rfl, rfl⟩

end IstKvs.Jobs
