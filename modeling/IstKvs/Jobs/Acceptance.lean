import IstKvs.Jobs.Printer
import IstKvs.Jobs.Recovery

/-! The list parsers accept nothing but their grammar. In a text without NUL a WRITE, READ
or DELETE that is taken has the form in which the printer writes it, with the strings that
the parser has stored. -/

namespace IstKvs.Jobs

open IstKvs.Store

/-! ### Tokens -/

/-- A field without NUL, as the parser stores it. -/
def tokenOf {k : List UInt8} (h : IsField k) (hnul : (0 : UInt8) ∉ k) : Token := ⟨⟨k, hnul⟩, h⟩

theorem fieldString_tokenOf {k : List UInt8} (h : IsField k) (hnul : (0 : UInt8) ∉ k) :
    fieldString k = (tokenOf h hnul).toCStr :=
  fieldString_bytes ⟨k, hnul⟩

theorem parsePair_sound {s : List UInt8} (hnul : (0 : UInt8) ∉ s) {pair : CStr × CStr}
    (h : (parsePair s).result = some pair) :
    ∃ p : Token × Token, pair = (p.1.toCStr, p.2.toCStr) ∧
      s = pairText (p.1.bytes, p.2.bytes) ++ (parsePair s).rest := by
  rcases parsePair_cases s with ⟨⟨k, v⟩, rest, hp, rfl⟩ | ⟨c, d, -, hnone⟩
  · rw [parsePair_text hp] at h ⊢
    have hk : (0 : UInt8) ∉ k := fun hm => hnul (by simp [pairText, hm])
    have hv : (0 : UInt8) ∉ v := fun hm => hnul (by simp [pairText, hm])
    refine ⟨(tokenOf hp.key hk, tokenOf hp.value hv), ?_, rfl⟩
    rw [← fieldString_tokenOf, ← fieldString_tokenOf]
    exact (Option.some.inj h).symm
  · rw [hnone] at h
    cases h

/-! ### The loops -/

/-- The loop of `parse_write` stops at a bracket, unless it has filled the arrays. -/
theorem parsePairs_sound {n : ℕ} {s : List UInt8} (hnul : (0 : UInt8) ∉ s)
    {ps : List (CStr × CStr)} (h : (parsePairs n s).result = some ps) :
    ps.length = n ∨ ps.length < n ∧ ∃ pairs : List (Token × Token), pairs ≠ [] ∧
      ps = pairs.map (fun p => (p.1.toCStr, p.2.toCStr)) ∧
      byte '(' :: s = pairs.flatMap printPair ++ byte ']' :: (parsePairs n s).rest := by
  induction n generalizing s ps with
  | zero =>
    cases h
    exact .inl rfl
  | succ n ih =>
    cases hpair : (parsePair s).result with
    | none =>
      simp only [parsePairs, hpair, Parsed.cleanup] at h
      cases h
    | some pair =>
      obtain ⟨p, rfl, hs⟩ := parsePair_sound hnul hpair
      simp only [parsePairs, hpair, Parsed.cleanup] at h ⊢
      cases hrest : (parsePair s).rest with
      | nil =>
        rw [hrest] at h
        cases h
      | cons ch t =>
        rw [hrest] at h hs
        dsimp only at h ⊢
        have ht : (0 : UInt8) ∉ t := fun hm => hnul (by rw [hs]; simp [hm])
        split_ifs at h ⊢ with hbad hlast
        · obtain rfl := Option.some.inj h
          subst hlast
          rw [List.length_singleton]
          by_cases hn : n = 0
          · exact .inl (by omega)
          · refine .inr ⟨by omega, [p], List.cons_ne_nil _ _, rfl, ?_⟩
            rw [List.flatMap_singleton, printPair, List.cons_append]
            exact congrArg _ hs
        · have hopen : ch = byte '(' := by
            by_contra hne
            exact hbad ⟨hne, hlast⟩
          subst hopen
          obtain ⟨qs, hqs, rfl⟩ := Option.map_eq_some_iff.mp h
          rw [List.length_cons]
          rcases ih ht hqs with hlen | ⟨hlt, pairs, -, rfl, htext⟩
          · exact .inl (by omega)
          · refine .inr ⟨by omega, p :: pairs, List.cons_ne_nil _ _, rfl, ?_⟩
            rw [List.flatMap_cons, List.append_assoc, ← htext, printPair, List.cons_append]
            exact congrArg _ hs

theorem parseKeys_sound {n : ℕ} {s : List UInt8} (hnul : (0 : UInt8) ∉ s) {ks : List CStr}
    (h : (parseKeys maxStringSize n s).result = some ks) :
    ks.length = n ∨ ks.length < n ∧ ∃ keys : List Token, keys ≠ [] ∧
      ks = keys.map Token.toCStr ∧
      s = printKeys keys ++ byte ']' :: (parseKeys maxStringSize n s).rest := by
  induction n generalizing s ks with
  | zero =>
    cases h
    exact .inl rfl
  | succ n ih =>
    rcases readString_cases s with ⟨k, ch, rest, hk, hch, rfl, hr⟩ | ⟨k, rest, -, -, -, hr⟩ | hr
    · have hk0 : (0 : UInt8) ∉ k := fun hm => hnul (by simp [hm])
      have hrest : (0 : UInt8) ∉ rest := fun hm => hnul (by simp [hm])
      rcases delimiter_cases hch with ⟨rfl, -⟩ | ⟨rfl, -⟩ | ⟨rfl, -⟩ | ⟨rfl, -⟩
      · rw [parseKeys_bad hk n (.inl rfl)] at h
        cases h
      · rw [parseKeys_cons hk] at h ⊢
        obtain ⟨js, hjs, rfl⟩ := Option.map_eq_some_iff.mp h
        rw [List.length_cons]
        rcases ih hrest hjs with hlen | ⟨hlt, keys, hne, rfl, htext⟩
        · exact .inl (by omega)
        · refine .inr ⟨by omega, tokenOf hk hk0 :: keys, List.cons_ne_nil _ _, ?_, ?_⟩
          · rw [List.map_cons, ← fieldString_tokenOf]
          · have hcons : printKeys (tokenOf hk hk0 :: keys) = k ++ byte ',' :: printKeys keys := by
              cases keys with
              | nil => exact absurd rfl hne
              | cons j keys => rfl
            rw [hcons, List.append_assoc, List.cons_append, ← htext]
      · rw [parseKeys_bad hk n (.inr rfl)] at h
        cases h
      · rw [parseKeys_last hk] at h ⊢
        obtain rfl := Option.some.inj h
        rw [List.length_singleton]
        by_cases hn : n = 0
        · exact .inl (by omega)
        · refine .inr ⟨by omega, [tokenOf hk hk0], List.cons_ne_nil _ _, ?_, rfl⟩
          rw [List.map_singleton, ← fieldString_tokenOf]
    · simp [parseKeys, hr, Parsed.cleanup] at h
    · simp [parseKeys, hr, Parsed.cleanup] at h

theorem parseEnd_sound {A : Type*} {max : ℕ} {r : Parsed (Option (List A))}
    (h : (parseEnd max r).result ≠ []) :
    ∃ xs ch, r.result = some xs ∧ xs.length ≠ max ∧ (parseEnd max r).result = xs ∧
      (ch = byte '\n' ∨ ch = 0) ∧ r.rest = ch :: (parseEnd max r).rest := by
  simp only [parseEnd, Parsed.cleanup] at h ⊢
  cases hxs : r.result with
  | none =>
    rw [hxs] at h
    exact absurd rfl h
  | some xs =>
    rw [hxs] at h
    dsimp only at h ⊢
    split_ifs at h ⊢ with hlen
    · exact absurd rfl h
    · cases hrest : r.rest with
      | nil =>
        rw [hrest] at h
        exact absurd rfl h
      | cons ch t =>
        rw [hrest] at h
        dsimp only at h ⊢
        split_ifs at h ⊢ with hend
        · exact absurd rfl h
        · exact ⟨xs, ch, rfl, hlen, rfl, by tauto, rfl⟩

/-! ### The lists -/

theorem parseWrite_sound {s : List UInt8} (hnul : (0 : UInt8) ∉ s) {max : ℕ}
    (h : (parseWrite s max).result ≠ []) :
    ∃ pairs : List (Token × Token), pairs ≠ [] ∧ pairs.length < max ∧
      (parseWrite s max).result = pairs.map (fun p => (p.1.toCStr, p.2.toCStr)) ∧
      s = byte '[' :: (pairs.flatMap printPair ++
        byte ']' :: byte '\n' :: (parseWrite s max).rest) := by
  match s with
  | [] => exact absurd rfl h
  | [ch] =>
    simp only [parseWrite, Parsed.cleanup] at h
    split_ifs at h <;> exact absurd rfl h
  | ch :: ch' :: s =>
    simp only [parseWrite, Parsed.cleanup] at h ⊢
    split_ifs at h ⊢ with hopen hparen
    · exact absurd rfl h
    · exact absurd rfl h
    rw [not_not] at hopen hparen
    subst hopen hparen
    obtain ⟨ps, ch, hps, hlen, hres, hch, hrest⟩ := parseEnd_sound h
    have hs : (0 : UInt8) ∉ s := fun hm => hnul (by simp [hm])
    obtain ⟨hlt, pairs, hne, rfl, htext⟩ := (parsePairs_sound hs hps).resolve_left hlen
    have hnewline : ch = byte '\n' := by
      refine hch.resolve_right fun h0 => hnul ?_
      rw [htext, hrest, h0]
      simp
    rw [List.length_map] at hlt
    rw [hrest, hnewline] at htext
    exact ⟨pairs, hne, hlt, hres, congrArg _ htext⟩

theorem parseReadDelete_sound {s : List UInt8} (hnul : (0 : UInt8) ∉ s) {max : ℕ}
    (h : (parseReadDelete s max maxStringSize).result ≠ []) :
    ∃ keys : List Token, keys ≠ [] ∧ keys.length < max ∧
      (parseReadDelete s max maxStringSize).result = keys.map Token.toCStr ∧
      s = byte '[' :: (printKeys keys ++
        byte ']' :: byte '\n' :: (parseReadDelete s max maxStringSize).rest) := by
  cases s with
  | nil => exact absurd rfl h
  | cons ch s =>
    simp only [parseReadDelete, Parsed.cleanup] at h ⊢
    split_ifs at h ⊢ with hopen
    · exact absurd rfl h
    rw [not_not] at hopen
    subst hopen
    obtain ⟨ks, ch, hks, hlen, hres, hch, hrest⟩ := parseEnd_sound h
    have hs : (0 : UInt8) ∉ s := fun hm => hnul (by simp [hm])
    obtain ⟨hlt, keys, hne, rfl, htext⟩ := (parseKeys_sound hs hks).resolve_left hlen
    have hnewline : ch = byte '\n' := by
      refine hch.resolve_right fun h0 => hnul ?_
      rw [htext, hrest, h0]
      simp
    rw [List.length_map] at hlt
    rw [hrest, hnewline] at htext
    exact ⟨keys, hne, hlt, hres, congrArg _ htext⟩

/-- Whenever one of the two parsers takes a list, what it has consumed is the printed list of
what it has stored, and the array has room for one more entry. -/
theorem accepts_grammar {s : List UInt8} (hnul : (0 : UInt8) ∉ s) (max : ℕ) :
    ((parseWrite s max).result ≠ [] →
      ∃ pairs : List (Token × Token), 1 ≤ pairs.length ∧ pairs.length < max ∧
        (parseWrite s max).result = pairs.map (fun p => (p.1.toCStr, p.2.toCStr)) ∧
        s = byte '[' :: (pairs.flatMap printPair ++
          byte ']' :: byte '\n' :: (parseWrite s max).rest)) ∧
      ((parseReadDelete s max maxStringSize).result ≠ [] →
        ∃ keys : List Token, 1 ≤ keys.length ∧ keys.length < max ∧
          (parseReadDelete s max maxStringSize).result = keys.map Token.toCStr ∧
          s = byte '[' :: (printKeys keys ++
            byte ']' :: byte '\n' :: (parseReadDelete s max maxStringSize).rest)) := by
  constructor
  · intro h
    obtain ⟨pairs, hne, hrest⟩ := parseWrite_sound hnul h
    exact ⟨pairs, List.length_pos_iff.mpr hne, hrest⟩
  · intro h
    obtain ⟨keys, hne, hrest⟩ := parseReadDelete_sound hnul h
    exact ⟨keys, List.length_pos_iff.mpr hne, hrest⟩

/-- The list of a WRITE of 1 to a, and a second command. -/
def writtenPair : List UInt8 :=
  chars ['[', '(', 'a', ',', '1', ')', ']', '\n', 'S', 'H', 'O', 'W']

theorem accepts_grammar_writtenPair :
    ∃ pairs : List (Token × Token), 1 ≤ pairs.length ∧ pairs.length < 2 ∧
      (parseWrite writtenPair 2).result = pairs.map (fun p => (p.1.toCStr, p.2.toCStr)) ∧
      writtenPair = byte '[' :: (pairs.flatMap printPair ++
        byte ']' :: byte '\n' :: (parseWrite writtenPair 2).rest) :=
  (accepts_grammar (by decide) 2).1 (by decide)

end IstKvs.Jobs
