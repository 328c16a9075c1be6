import IstKvs.Jobs.Recovery

/-! The two copies of the list parser, `parse_read_delete` of the server and `parse_list` of
the client. They differ in one place: after a loop that has filled the array the server gives
the list up, and the client does so only if the last key was not followed by a bracket. -/

namespace IstKvs.Client

open IstKvs.Store IstKvs.Jobs

/-! ### The two parsers -/

/-- The loop over the keys: what it has copied to the array, what `read_string` returned
last, and where the stream stands. -/
structure KeyLoop where
  stored : List CStr
  output : ℤ
  rest : List UInt8

/-- The loop with room for `n` more keys. -/
def keyLoop (maxString : ℕ) : ℕ → ℤ → List UInt8 → KeyLoop
  | 0, output, s => ⟨[], output, s⟩
  | n + 1, _, s =>
    let key := readString maxString s
    if key.value < 0 ∨ key.value = 1 then ⟨[], key.value, key.rest⟩
    else if key.value = 2 then ⟨[key.string], 2, key.rest⟩
    else
      let loop := keyLoop maxString n key.value key.rest
      { loop with stored := key.string :: loop.stored }

/-- The value returned, the array and the position after a parser. -/
structure KeyList where
  numKeys : ℕ
  stored : List CStr
  rest : List UInt8

/-- Nothing is returned, and the line is skipped. -/
def KeyList.giveUp (stored : List CStr) (s : List UInt8) : KeyList := ⟨0, stored, cleanup s⟩

/-- A list parser, by whether it gives up a loop that has filled the array. -/
def parseKeyList (givesUp : ℤ → Bool) (s : List UInt8) (maxKeys maxString : ℕ) : KeyList :=
  match s with
  | [] => ⟨0, [], []⟩
  | ch :: s =>
    if ch ≠ byte '[' then .giveUp [] s
    else
      let loop := keyLoop maxString maxKeys 2 s
      if loop.output < 0 ∨ loop.output = 1 then .giveUp loop.stored loop.rest
      else if loop.stored.length = maxKeys ∧ givesUp loop.output then
        .giveUp loop.stored loop.rest
      else match loop.rest with
        | [] => ⟨0, loop.stored, []⟩
        | ch :: rest =>
          if ch ≠ byte '\n' ∧ ch ≠ 0 then .giveUp loop.stored rest
          else ⟨loop.stored.length, loop.stored, rest⟩

/-- The parser of the server, with its array. -/
def parseReadDeleteKeys (s : List UInt8) (maxKeys maxString : ℕ) : KeyList :=
  parseKeyList (fun _ => true) s maxKeys maxString

/-- The parser of the client. -/
def parseList (s : List UInt8) (maxKeys maxString : ℕ) : KeyList :=
  parseKeyList (fun output => output ≠ 2) s maxKeys maxString

/-! ### The loop -/

/-- The loop is that of `parse_read_delete`, which skips a line when it gives up. -/
theorem parseKeys_eq (maxString n : ℕ) (output : ℤ) (h : ¬ (output < 0 ∨ output = 1))
    (s : List UInt8) :
    parseKeys maxString n s =
      if (keyLoop maxString n output s).output < 0 ∨ (keyLoop maxString n output s).output = 1
      then ⟨none, cleanup (keyLoop maxString n output s).rest⟩
      else ⟨some (keyLoop maxString n output s).stored, (keyLoop maxString n output s).rest⟩ := by
  induction n generalizing output s with
  | zero => rw [parseKeys, keyLoop, if_neg h]
  | succ n ih =>
    simp only [parseKeys, keyLoop, Parsed.cleanup]
    by_cases hbad : (readString maxString s).value < 0 ∨ (readString maxString s).value = 1
    · simp only [if_pos hbad]
    · simp only [if_neg hbad]
      by_cases hlast : (readString maxString s).value = 2
      · simp only [if_pos hlast]
        rw [if_neg (by decide)]
      · simp only [if_neg hlast]
        rw [ih _ hbad]
        split_ifs <;> rfl

theorem parseReadDelete_eq (s : List UInt8) (maxKeys maxString : ℕ) :
    parseReadDelete s maxKeys maxString =
      ⟨if (parseReadDeleteKeys s maxKeys maxString).numKeys = 0 then []
        else (parseReadDeleteKeys s maxKeys maxString).stored,
        (parseReadDeleteKeys s maxKeys maxString).rest⟩ := by
  cases s with
  | nil => rfl
  | cons ch s =>
    simp only [parseReadDelete, parseReadDeleteKeys, parseKeyList, Parsed.cleanup, KeyList.giveUp]
    by_cases hopen : ch ≠ byte '['
    · simp only [if_pos hopen, if_true]
    · simp only [if_neg hopen]
      rw [parseKeys_eq maxString maxKeys 2 (by decide)]
      generalize keyLoop maxString maxKeys 2 s = loop
      by_cases hbad : loop.output < 0 ∨ loop.output = 1
      · simp only [if_pos hbad, parseEnd, if_true]
      · simp only [if_neg hbad, parseEnd, Parsed.cleanup]
        by_cases hlen : loop.stored.length = maxKeys
        · simp [hlen]
        · simp only [hlen, false_and, if_false]
          cases loop.rest with
          | nil => rfl
          | cons ch rest =>
            dsimp only
            by_cases hend : ch ≠ byte '\n' ∧ ch ≠ 0
            · simp only [if_pos hend, if_true]
            · simp only [if_neg hend]
              by_cases h0 : loop.stored.length = 0
              · rw [if_pos h0, List.length_eq_zero_iff.mp h0]
              · rw [if_neg h0]

/-! ### Lists that fill the array -/

/-- Keys with commas between them. -/
def keyListText (keys : List (List UInt8)) : List UInt8 := List.intercalate [byte ','] keys

theorem keyListText_cons {k : List UInt8} {keys : List (List UInt8)} (hne : keys ≠ []) :
    keyListText (k :: keys) = k ++ byte ',' :: keyListText keys := by
  cases keys with
  | nil => exact absurd rfl hne
  | cons j keys => simp [keyListText, List.intercalate, List.intersperse]

theorem keyLoop_closed {keys : List (List UInt8)} (hne : keys ≠ []) (hk : ∀ k ∈ keys, IsField k)
    (output : ℤ) (s : List UInt8) :
    keyLoop maxStringSize keys.length output (keyListText keys ++ byte ']' :: s) =
      ⟨keys.map fieldString, 2, s⟩ := by
  induction keys generalizing output with
  | nil => exact absurd rfl hne
  | cons k keys ih =>
    have hfield := hk k List.mem_cons_self
    by_cases hkeys : keys = []
    · subst hkeys
      have htext : keyListText [k] = k := by simp [keyListText, List.intercalate]
      rw [htext, List.length_singleton, keyLoop]
      simp only [readString_field hfield.plain hfield.fits (byte ']') (by decide)]
      rfl
    · rw [keyListText_cons hkeys, List.append_assoc, List.cons_append, List.length_cons, keyLoop]
      simp only [readString_field hfield.plain hfield.fits (byte ',') (by decide)]
      rw [ih hkeys fun j hj => hk j (List.mem_cons_of_mem _ hj)]
      rfl

theorem exists_keyListText {n : ℕ} (hn : 1 ≤ n) {output : ℤ} {s : List UInt8}
    (hlen : (keyLoop maxStringSize n output s).stored.length = n)
    (hout : (keyLoop maxStringSize n output s).output = 2) :
    ∃ keys : List (List UInt8), keys.length = n ∧ (∀ k ∈ keys, IsField k) ∧
      s = keyListText keys ++ byte ']' :: (keyLoop maxStringSize n output s).rest := by
  induction n generalizing output s with
  | zero => omega
  | succ n ih =>
    rcases readString_cases s with ⟨k, ch, rest, hk, hch, rfl, hr⟩ | ⟨k, rest, -, -, -, hr⟩ | hr
    · simp only [keyLoop, hr] at hlen hout ⊢
      have hone : ∀ j ∈ [k], IsField j := fun j hj => List.mem_singleton.mp hj ▸ hk
      rcases delimiter_cases hch with ⟨rfl, -⟩ | ⟨rfl, -⟩ | ⟨rfl, -⟩ | ⟨rfl, -⟩
      · rw [if_pos (by decide)] at hout
        cases hout
      · rw [if_neg (by decide), if_neg (by decide)] at hlen hout ⊢
        dsimp only at hlen hout ⊢
        rw [List.length_cons, Nat.add_right_cancel_iff] at hlen
        have hn1 : 1 ≤ n := by
          by_contra h0
          obtain rfl : n = 0 := by omega
          cases hout
        obtain ⟨keys, hkeys, hfields, htext⟩ := ih hn1 hlen hout
        have hne : keys ≠ [] := List.length_pos_iff.mp (by omega)
        refine ⟨k :: keys, congrArg (· + 1) hkeys, List.forall_mem_cons.mpr ⟨hk, hfields⟩, ?_⟩
        rw [keyListText_cons hne, List.append_assoc, List.cons_append, ← htext]
      · rw [if_pos (by decide)] at hout
        cases hout
      · rw [if_neg (by decide), if_pos (by decide)] at hlen ⊢
        refine ⟨[k], hlen, hone, ?_⟩
        simp [keyListText, List.intercalate]
    · simp [keyLoop, hr] at hout
    · simp [keyLoop, hr] at hout

/-- A list of exactly as many keys as the array holds, with its bracket and its line end. -/
def FillsArray (maxKeys : ℕ) (s : List UInt8) : Prop :=
  ∃ keys : List (List UInt8), keys.length = maxKeys ∧ (∀ k ∈ keys, IsField k) ∧
    ∃ ch rest, (ch = byte '\n' ∨ ch = 0) ∧
      s = byte '[' :: (keyListText keys ++ byte ']' :: ch :: rest)

theorem same_of_filled {maxKeys : ℕ} (hmax : 1 ≤ maxKeys) {s : List UInt8}
    (hlen : (keyLoop maxStringSize maxKeys 2 s).stored.length = maxKeys)
    (hout : (keyLoop maxStringSize maxKeys 2 s).output = 2) :
    parseReadDeleteKeys (byte '[' :: s) maxKeys maxStringSize =
        parseList (byte '[' :: s) maxKeys maxStringSize ↔
      ¬ ∃ ch rest, (ch = byte '\n' ∨ ch = 0) ∧
        (keyLoop maxStringSize maxKeys 2 s).rest = ch :: rest := by
  simp only [parseReadDeleteKeys, parseList, parseKeyList, KeyList.giveUp, hlen, hout]
  rw [if_neg (by decide), if_neg (by decide), if_pos ⟨trivial, trivial⟩, if_neg (by decide)]
  cases hrest : (keyLoop maxStringSize maxKeys 2 s).rest with
  | nil => simp [cleanup]
  | cons ch rest =>
    dsimp only
    by_cases hend : ch ≠ byte '\n' ∧ ch ≠ 0
    · rw [if_pos hend, cleanup, if_neg hend.1]
      refine iff_of_true rfl ?_
      rintro ⟨ch', rest', hch, he⟩
      obtain rfl := (List.cons.inj he).1
      exact hch.elim hend.1 hend.2
    · rw [if_neg hend]
      refine iff_of_false (fun he => ?_) fun hno => hno ⟨ch, rest, by tauto, rfl⟩
      have hcount : 0 = maxKeys := congrArg KeyList.numKeys he
      omega

/-- The two parsers return, store and consume the same on every list but those that fill the
array exactly, which the client takes and the server rejects. -/
theorem sameList_iff (s : List UInt8) {maxKeys : ℕ} (hmax : 1 ≤ maxKeys) :
    parseReadDeleteKeys s maxKeys maxStringSize = parseList s maxKeys maxStringSize ↔
      ¬ FillsArray maxKeys s := by
  have hstart : ∀ {ch : UInt8} {t : List UInt8}, ch ≠ byte '[' →
      ¬ FillsArray maxKeys (ch :: t) := by
    rintro ch t hch ⟨keys, -, -, ch', rest, -, hs⟩
    exact hch (List.cons.inj hs).1
  cases s with
  | nil =>
    refine iff_of_true rfl ?_
    rintro ⟨keys, -, -, ch, rest, -, hs⟩
    cases hs
  | cons ch s =>
    by_cases hopen : ch = byte '['
    · subst hopen
      -- the texts that fill the array are those on which the loop does
      have hloop : FillsArray maxKeys (byte '[' :: s) →
          (keyLoop maxStringSize maxKeys 2 s).stored.length = maxKeys ∧
            (keyLoop maxStringSize maxKeys 2 s).output = 2 ∧
            ∃ ch rest, (ch = byte '\n' ∨ ch = 0) ∧
              (keyLoop maxStringSize maxKeys 2 s).rest = ch :: rest := by
        rintro ⟨keys, rfl, hk, ch, rest, hch, hs⟩
        obtain rfl := (List.cons.inj hs).2
        rw [keyLoop_closed (List.length_pos_iff.mp hmax) hk]
        exact ⟨List.length_map _, rfl, ch, rest, hch, rfl⟩
      by_cases hlen : (keyLoop maxStringSize maxKeys 2 s).stored.length = maxKeys
      · by_cases hout : (keyLoop maxStringSize maxKeys 2 s).output = 2
        · rw [same_of_filled hmax hlen hout]
          refine not_congr ⟨?_, fun h => (hloop h).2.2⟩
          rintro ⟨ch, rest, hch, hrest⟩
          obtain ⟨keys, hkeys, hfields, htext⟩ := exists_keyListText hmax hlen hout
          rw [hrest] at htext
          exact ⟨keys, hkeys, hfields, ch, rest, hch, by rw [← htext]⟩
        · refine iff_of_true ?_ fun h => hout (hloop h).2.1
          simp [parseReadDeleteKeys, parseList, parseKeyList, hlen, hout]
      · refine iff_of_true ?_ fun h => hlen (hloop h).1
        simp [parseReadDeleteKeys, parseList, parseKeyList, hlen]
    · refine iff_of_true ?_ (hstart hopen)
      simp [parseReadDeleteKeys, parseList, parseKeyList, hopen]

theorem sameList_iff_twoKeys :
    parseReadDeleteKeys (chars ['[', 'a', ',', 'b', ']', '\n']) 3 maxStringSize =
        parseList (chars ['[', 'a', ',', 'b', ']', '\n']) 3 maxStringSize ↔
      ¬ FillsArray 3 (chars ['[', 'a', ',', 'b', ']', '\n']) :=
  sameList_iff _ (by decide)

/-- One key in an array for one, as the client calls its parser. -/
theorem not_sameList : ¬ ∀ (s : List UInt8) (maxKeys : ℕ), 1 ≤ maxKeys →
    parseReadDeleteKeys s maxKeys maxStringSize = parseList s maxKeys maxStringSize := by
  intro h
  have hcount := congrArg KeyList.numKeys (h (chars ['[', 'a', ']', '\n']) 1 le_rfl)
  revert hcount
  decide

end IstKvs.Client
