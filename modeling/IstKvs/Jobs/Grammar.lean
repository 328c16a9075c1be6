import IstKvs.Jobs.Parser

/-! The text of a job file and how the parser reads it. Keys and values are fields:
bytes other than the delimiters, in number below `MAX_STRING_SIZE`. For each piece
of a command the parsing function is computed on the piece followed by any text. -/

namespace IstKvs.Jobs

open IstKvs.Store

/-! ### Fields -/

/-- A byte that does not end a string. -/
def Plain (b : UInt8) : Prop := b ≠ byte ' ' ∧ b ≠ byte ',' ∧ b ≠ byte ')' ∧ b ≠ byte ']'

instance (b : UInt8) : Decidable (Plain b) := inferInstanceAs (Decidable (_ ∧ _ ∧ _ ∧ _))

/-- The bytes of a key or a value as `read_string` takes them. -/
structure IsField (k : List UInt8) : Prop where
  plain : ∀ b ∈ k, Plain b
  fits : k.length < maxStringSize

/-- The string that a buffer holds after a field was read into it. -/
def fieldString (k : List UInt8) : CStr := CStr.ofBuffer (k ++ [0])

theorem fieldString_bytes (k : CStr) : fieldString k.bytes = k := k.ofBuffer_terminated []

/-- What `read_string` returns at a delimiter. -/
def delimiterValue (ch : UInt8) : ℤ :=
  if ch = byte ',' then 0 else if ch = byte ')' then 1 else if ch = byte ']' then 2 else -1

/-- Plain bytes go to the buffer one by one. -/
theorem readString_plain {n : ℕ} {k : List UInt8} (hk : ∀ b ∈ k, Plain b) (hn : k.length ≤ n)
    (s : List UInt8) :
    readString n (k ++ s) = { readString (n - k.length) s with
      stored := k ++ (readString (n - k.length) s).stored } := by
  induction k generalizing n with
  | nil => simp
  | cons b k ih =>
    obtain ⟨m, rfl⟩ : ∃ m, n = m + 1 := ⟨n - 1, by simp only [List.length_cons] at hn; omega⟩
    obtain ⟨h₁, h₂, h₃, h₄⟩ := hk b List.mem_cons_self
    have hm : m + 1 - (k.length + 1) = m - k.length := by omega
    have hrest := ih (n := m) (fun c hc => hk c (List.mem_cons_of_mem _ hc))
      (by simp only [List.length_cons] at hn; omega)
    rw [List.cons_append, readString, if_neg h₁, if_neg h₂, if_neg h₃, if_neg h₄, hrest,
      List.length_cons, hm]
    simp

/-- A field up to its delimiter. -/
theorem readString_field {n : ℕ} {k : List UInt8} (hk : ∀ b ∈ k, Plain b) (hn : k.length < n)
    (ch : UInt8) (hch : ¬ Plain ch) (s : List UInt8) :
    readString n (k ++ ch :: s) = ⟨delimiterValue ch, k, decide (ch ≠ byte ' '), s⟩ := by
  obtain ⟨m, hm⟩ : ∃ m, n - k.length = m + 1 := ⟨n - k.length - 1, by omega⟩
  rw [readString_plain hk hn.le, hm, readString]
  by_cases h₁ : ch = byte ' '
  · subst h₁; simp [delimiterValue, byte]
  · by_cases h₂ : ch = byte ','
    · subst h₂; simp [delimiterValue, byte]
    · by_cases h₃ : ch = byte ')'
      · subst h₃; simp [delimiterValue, byte]
      · by_cases h₄ : ch = byte ']'
        · subst h₄; simp [delimiterValue, byte]
        · exact absurd ⟨h₁, h₂, h₃, h₄⟩ hch

/-- Plain bytes that fill the buffer. -/
theorem readString_full {k : List UInt8} (hk : ∀ b ∈ k, Plain b) (s : List UInt8) :
    readString k.length (k ++ s) = ⟨-1, k, true, s⟩ := by
  rw [readString_plain hk le_rfl, Nat.sub_self, readString, List.append_nil]

/-- Plain bytes at the end of the file. -/
theorem readString_eof {n : ℕ} {k : List UInt8} (hk : ∀ b ∈ k, Plain b) (hn : k.length < n) :
    readString n k = ⟨-1, k, false, []⟩ := by
  obtain ⟨m, hm⟩ : ∃ m, n - k.length = m + 1 := ⟨n - k.length - 1, by omega⟩
  have h := readString_plain hk hn.le []
  rw [List.append_nil, hm, readString, List.append_nil] at h
  exact h

/-- The three ways in which `read_string` ends. -/
inductive FieldEnd (n : ℕ) (s : List UInt8) : Prop
  | delimited (k : List UInt8) (ch : UInt8) (rest : List UInt8) (hk : ∀ b ∈ k, Plain b)
      (hn : k.length < n) (hch : ¬ Plain ch) (hs : s = k ++ ch :: rest)
  | full (k rest : List UInt8) (hk : ∀ b ∈ k, Plain b) (hn : k.length = n) (hs : s = k ++ rest)
  | eof (hk : ∀ b ∈ s, Plain b) (hn : s.length < n)

theorem fieldEnd (n : ℕ) (s : List UInt8) : FieldEnd n s := by
  induction n generalizing s with
  | zero => exact .full [] s (by simp) rfl rfl
  | succ n ih =>
    cases s with
    | nil => exact .eof (by simp) (by simp)
    | cons b s =>
      by_cases hb : Plain b
      · have hcons : ∀ k : List UInt8, (∀ c ∈ k, Plain c) → ∀ c ∈ b :: k, Plain c :=
          fun k hk => List.forall_mem_cons.mpr ⟨hb, hk⟩
        cases ih s with
        | delimited k ch rest hk hn hch hs =>
          exact .delimited (b :: k) ch rest (hcons k hk) (by simpa using hn) hch (by simp [hs])
        | full k rest hk hn hs =>
          exact .full (b :: k) rest (hcons k hk) (by simpa using hn) (by simp [hs])
        | eof hk hn => exact .eof (hcons s hk) (by simpa using hn)
      · exact .delimited [] b s (by simp) (by simp) hb rfl

/-! ### Pairs -/

/-- A pair after its opening parenthesis. -/
def pairText (p : List UInt8 × List UInt8) : List UInt8 :=
  p.1 ++ byte ',' :: (p.2 ++ [byte ')'])

structure IsPair (p : List UInt8 × List UInt8) : Prop where
  key : IsField p.1
  value : IsField p.2

def pairStrings (p : List UInt8 × List UInt8) : CStr × CStr := (fieldString p.1, fieldString p.2)

/-- Pairs that are each followed by the parenthesis of the next one. -/
def pairsText (ps : List (List UInt8 × List UInt8)) : List UInt8 :=
  ps.flatMap fun p => pairText p ++ [byte '(']

theorem parsePair_text {p : List UInt8 × List UInt8} (hp : IsPair p) (s : List UInt8) :
    parsePair (pairText p ++ s) = ⟨some (pairStrings p), s⟩ := by
  have hkey : readString maxStringSize (pairText p ++ s) =
      ⟨0, p.1, true, p.2 ++ byte ')' :: s⟩ := by
    have htext : pairText p ++ s = p.1 ++ byte ',' :: (p.2 ++ byte ')' :: s) := by simp [pairText]
    rw [htext]
    exact readString_field hp.key.plain hp.key.fits (byte ',') (by decide) _
  have hvalue : readString maxStringSize (p.2 ++ byte ')' :: s) = ⟨1, p.2, true, s⟩ :=
    readString_field hp.value.plain hp.value.fits (byte ')') (by decide) s
  simp only [parsePair, hkey, hvalue]
  rfl

theorem parsePairs_cons {p : List UInt8 × List UInt8} (hp : IsPair p) (n : ℕ) (s : List UInt8) :
    parsePairs (n + 1) (pairText p ++ byte '(' :: s) =
      ⟨(parsePairs n s).result.map (pairStrings p :: ·), (parsePairs n s).rest⟩ := by
  simp only [parsePairs, parsePair_text hp]
  rfl

theorem parsePairs_last {p : List UInt8 × List UInt8} (hp : IsPair p) (n : ℕ) (s : List UInt8) :
    parsePairs (n + 1) (pairText p ++ byte ']' :: s) = ⟨some [pairStrings p], s⟩ := by
  simp only [parsePairs, parsePair_text hp]
  rfl

theorem parsePairs_bad {p : List UInt8 × List UInt8} (hp : IsPair p) (n : ℕ) {ch : UInt8}
    (h₁ : ch ≠ byte '(') (h₂ : ch ≠ byte ']') (s : List UInt8) :
    parsePairs (n + 1) (pairText p ++ ch :: s) = ⟨none, cleanup s⟩ := by
  simp only [parsePairs, parsePair_text hp, if_pos (And.intro h₁ h₂)]
  rfl

theorem parsePairs_text {ps : List (List UInt8 × List UInt8)} (hps : ∀ p ∈ ps, IsPair p) (n : ℕ)
    (s : List UInt8) :
    parsePairs (ps.length + n) (pairsText ps ++ s) =
      ⟨(parsePairs n s).result.map (ps.map pairStrings ++ ·), (parsePairs n s).rest⟩ := by
  induction ps with
  | nil =>
    simp only [List.length_nil, Nat.zero_add, pairsText, List.flatMap_nil, List.nil_append,
      List.map_nil, Option.map_id']
  | cons p ps ih =>
    have htext : pairsText (p :: ps) ++ s = pairText p ++ byte '(' :: (pairsText ps ++ s) := by
      simp [pairsText]
    have hlen : (p :: ps).length + n = ps.length + n + 1 := by
      rw [List.length_cons]
      omega
    rw [htext, hlen, parsePairs_cons (hps p List.mem_cons_self),
      ih fun q hq => hps q (List.mem_cons_of_mem _ hq)]
    simp [Option.map_map, Function.comp_def]

/-! ### Keys -/

/-- Keys that are each followed by a comma. -/
def keysText (ks : List (List UInt8)) : List UInt8 := ks.flatMap fun k => k ++ [byte ',']

theorem parseKeys_cons {k : List UInt8} (hk : IsField k) (n : ℕ) (s : List UInt8) :
    parseKeys maxStringSize (n + 1) (k ++ byte ',' :: s) =
      ⟨(parseKeys maxStringSize n s).result.map (fieldString k :: ·),
        (parseKeys maxStringSize n s).rest⟩ := by
  simp only [parseKeys, readString_field hk.plain hk.fits (byte ',') (by decide)]
  rfl

theorem parseKeys_last {k : List UInt8} (hk : IsField k) (n : ℕ) (s : List UInt8) :
    parseKeys maxStringSize (n + 1) (k ++ byte ']' :: s) = ⟨some [fieldString k], s⟩ := by
  simp only [parseKeys, readString_field hk.plain hk.fits (byte ']') (by decide)]
  rfl

theorem parseKeys_bad {k : List UInt8} (hk : IsField k) (n : ℕ) {ch : UInt8}
    (hch : ch = byte ' ' ∨ ch = byte ')') (s : List UInt8) :
    parseKeys maxStringSize (n + 1) (k ++ ch :: s) = ⟨none, cleanup s⟩ := by
  rcases hch with rfl | rfl
  · simp only [parseKeys, readString_field hk.plain hk.fits (byte ' ') (by decide)]
    rfl
  · simp only [parseKeys, readString_field hk.plain hk.fits (byte ')') (by decide)]
    rfl

theorem parseKeys_long {k : List UInt8} (hk : ∀ b ∈ k, Plain b) (hlen : k.length = maxStringSize)
    (n : ℕ) (s : List UInt8) :
    parseKeys maxStringSize (n + 1) (k ++ s) = ⟨none, cleanup s⟩ := by
  have h := readString_full hk s
  rw [hlen] at h
  simp only [parseKeys, h]
  rfl

theorem parseKeys_text {ks : List (List UInt8)} (hks : ∀ k ∈ ks, IsField k) (n : ℕ)
    (s : List UInt8) :
    parseKeys maxStringSize (ks.length + n) (keysText ks ++ s) =
      ⟨(parseKeys maxStringSize n s).result.map (ks.map fieldString ++ ·),
        (parseKeys maxStringSize n s).rest⟩ := by
  induction ks with
  | nil =>
    simp only [List.length_nil, Nat.zero_add, keysText, List.flatMap_nil, List.nil_append,
      List.map_nil, Option.map_id']
  | cons k ks ih =>
    have htext : keysText (k :: ks) ++ s = k ++ byte ',' :: (keysText ks ++ s) := by
      simp [keysText]
    have hlen : (k :: ks).length + n = ks.length + n + 1 := by
      rw [List.length_cons]
      omega
    rw [htext, hlen, parseKeys_cons (hks k List.mem_cons_self),
      ih fun q hq => hks q (List.mem_cons_of_mem _ hq)]
    simp [Option.map_map, Function.comp_def]

/-! ### Numbers -/

theorem isDigit_ne_space {d : UInt8} (h : isDigit d = true) : isSpace d = false := by
  simp only [isDigit, Bool.and_eq_true, decide_eq_true_eq, UInt8.le_iff_toNat_le] at h
  simp only [isSpace, Bool.or_eq_false_iff, decide_eq_false_iff_not, Bool.and_eq_false_iff]
  have h0 : (byte '0').toNat = 48 := rfl
  refine ⟨?_, .inr (by omega)⟩
  rintro rfl
  exact absurd h.1 (by decide)

/-- `strtoul` on digits goes on as long as digits follow. -/
theorem strtoul_append {ds : List UInt8} (hd : ∀ d ∈ ds, isDigit d = true) (hne : ds ≠ [])
    (s : List UInt8) :
    strtoul (ds ++ s) = min (digitsValue (ds ++ s.takeWhile isDigit)) ulongMax := by
  have htake : (ds ++ s).takeWhile isDigit = ds ++ s.takeWhile isDigit :=
    List.takeWhile_append_of_pos hd
  cases ds with
  | nil => exact absurd rfl hne
  | cons d ds =>
    have hd' := hd d List.mem_cons_self
    have hdrop : (d :: ds ++ s).dropWhile isSpace = d :: (ds ++ s) := by
      rw [List.cons_append, List.dropWhile_cons, isDigit_ne_space hd']
      rfl
    have hminus : d ≠ byte '-' := by
      rintro rfl
      exact absurd hd' (by decide)
    have hplus : d ≠ byte '+' := by
      rintro rfl
      exact absurd hd' (by decide)
    simp only [strtoul, hdrop, if_neg hminus, if_neg hplus]
    rw [← List.cons_append, htake]

/-- `strtoul` on digits up to a byte that is none. -/
theorem strtoul_digits {digits : List UInt8} (hd : ∀ d ∈ digits, isDigit d = true)
    (hne : digits ≠ []) :
    strtoul (digits ++ [0]) = min (digitsValue digits) ulongMax := by
  have hzero : [(0 : UInt8)].takeWhile isDigit = [] := rfl
  rw [strtoul_append hd hne, hzero, List.append_nil]

/-- Digits up to the byte that ends them. -/
theorem readUint_digits (stack : List UInt8) {digits : List UInt8}
    (hd : ∀ d ∈ digits, isDigit d = true) (ch : UInt8) (hch : isDigit ch = false)
    (s : List UInt8) :
    readUint stack (digits ++ ch :: s) =
      if strtoul (digits ++ [0]) > uintMax then ⟨1, none, ch, digits.length + 1, s⟩
      else ⟨0, some (strtoul (digits ++ [0])), ch, digits.length + 1, s⟩ := by
  have htake : (digits ++ ch :: s).takeWhile isDigit = digits := by
    rw [List.takeWhile_append_of_pos hd]
    simp [hch]
  have hdrop : (digits ++ ch :: s).dropWhile isDigit = ch :: s := by
    rw [List.dropWhile_append_of_pos hd]
    simp [hch]
  simp only [readUint, htake, hdrop]

end IstKvs.Jobs
