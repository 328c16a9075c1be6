import IstKvs.Jobs.Recovery

/-! The number of a WAIT (`read_uint` and `parse_wait`). The digits go to a buffer of 16
bytes without a check; at the end of the file no NUL is put behind them, so `strtoul` reads
on in what the stack held; and a number that is too large is given up after its newline was
consumed, which costs the next line. -/

namespace IstKvs.Jobs

open IstKvs.Store

/-! ### Values of digits -/

theorem digitsValue_append (ds es : List UInt8) :
    digitsValue (ds ++ es) = digitsValue ds * 10 ^ es.length + digitsValue es := by
  have hfold : ∀ (xs : List UInt8) (acc : ℕ),
      xs.foldl (fun acc ch => acc * 10 + (ch.toNat - '0'.toNat)) acc =
        acc * 10 ^ xs.length + digitsValue xs := by
    intro xs
    induction xs with
    | nil =>
      intro acc
      simp [digitsValue]
    | cons x xs ih =>
      intro acc
      rw [digitsValue, List.foldl_cons, List.foldl_cons, ih, ih, List.length_cons, pow_succ]
      ring
  rw [digitsValue, List.foldl_append]
  exact hfold es _

/-- More digits do not make a number smaller. -/
theorem digitsValue_le_append (ds es : List UInt8) :
    digitsValue ds ≤ digitsValue (ds ++ es) := by
  rw [digitsValue_append]
  exact (Nat.le_mul_of_pos_right _ (by positivity)).trans (Nat.le_add_right _ _)

/-- They leave it as it is only if all of them are zeros. -/
theorem digitsValue_append_eq_iff {ds es : List UInt8} :
    digitsValue (ds ++ es) = digitsValue ds ↔ es = [] ∨ digitsValue (ds ++ es) = 0 := by
  constructor
  · intro h
    by_cases hes : es = []
    · exact .inl hes
    · right
      have hpos : 1 ≤ es.length := List.length_pos_iff.mpr hes
      have hpow : 10 ≤ 10 ^ es.length := Nat.le_self_pow (by omega) 10
      have hmul := Nat.mul_le_mul_left (digitsValue ds) hpow
      have happ := digitsValue_append ds es
      omega
  · rintro (rfl | h)
    · rw [List.append_nil]
    · have hle := digitsValue_le_append ds es
      omega

/-! ### The end of the file -/

/-- The digits that stand on the stack behind `n` bytes of the buffer. -/
def staleDigits (stack : List UInt8) (n : ℕ) : List UInt8 := (stack.drop n).takeWhile isDigit

theorem readUint_eof (stack : List UInt8) {ds : List UInt8} (hd : ∀ d ∈ ds, isDigit d = true)
    (hne : ds ≠ []) :
    readUint stack ds =
      if min (digitsValue (ds ++ staleDigits stack ds.length)) ulongMax > uintMax
      then ⟨1, none, 0, ds.length, []⟩
      else ⟨0, some (min (digitsValue (ds ++ staleDigits stack ds.length)) ulongMax), 0,
        ds.length, []⟩ := by
  have htake : ds.takeWhile isDigit = ds := List.takeWhile_eq_self_iff.mpr hd
  have hdrop : ds.dropWhile isDigit = [] := List.dropWhile_eq_nil_iff.mpr hd
  simp only [readUint, htake, hdrop, strtoul_append hd hne, staleDigits]
  rfl

theorem parseWait_eof (stack : List UInt8) (wantThread : Bool) {ds : List UInt8}
    (hd : ∀ d ∈ ds, isDigit d = true) (hne : ds ≠ []) :
    parseWait stack wantThread ds =
      if min (digitsValue (ds ++ staleDigits stack ds.length)) ulongMax > uintMax
      then ⟨⟨-1, none, none⟩, []⟩
      else ⟨⟨0, some (min (digitsValue (ds ++ staleDigits stack ds.length)) ulongMax), none⟩,
        []⟩ := by
  simp only [parseWait, readUint_eof stack hd hne]
  by_cases hbig : min (digitsValue (ds ++ staleDigits stack ds.length)) ulongMax > uintMax
  · rw [if_pos hbig, if_pos hbig]
    rfl
  · rw [if_neg hbig, if_neg hbig]
    rfl

/-! ### The delay -/

/-- The text of a number: its digits, and a newline with what follows it unless the file
ends there. -/
def numberText (ds : List UInt8) : Option (List UInt8) → List UInt8
  | some rest => ds ++ byte '\n' :: rest
  | none => ds

/-- What a WAIT should do with its number: stay inside the buffer, return the value or the
error, and consume the number and its newline. -/
structure ReadsDelay (stack : List UInt8) (wantThread : Bool) (ds : List UInt8)
    (after : Option (List UInt8)) : Prop where
  inside : (readUint stack (numberText ds after)).stores ≤ 16
  value : digitsValue ds ≤ uintMax →
    (parseWait stack wantThread (numberText ds after)).result = ⟨0, some (digitsValue ds), none⟩
  error : uintMax < digitsValue ds →
    (parseWait stack wantThread (numberText ds after)).result.status = -1
  consumed : (parseWait stack wantThread (numberText ds after)).rest = after.getD []

/-- There is room for the digits and what ends them, and before a newline the number is not too
large or ends the file, at the end of the file no other digit changes it. -/
def DelayFits (stack ds : List UInt8) : Option (List UInt8) → Prop
  | some rest => ds.length ≤ 15 ∧ (digitsValue ds ≤ uintMax ∨ rest = [])
  | none => ds.length ≤ 16 ∧ (uintMax < digitsValue ds ∨ staleDigits stack ds.length = [] ∨
      digitsValue (ds ++ staleDigits stack ds.length) = 0)

theorem uintMax_lt_ulongMax : uintMax < ulongMax := by decide

theorem readsDelay_newline_iff (stack : List UInt8) (wantThread : Bool) {ds : List UInt8}
    (hd : ∀ d ∈ ds, isDigit d = true) (hne : ds ≠ []) (rest : List UInt8) :
    ReadsDelay stack wantThread ds (some rest) ↔ DelayFits stack ds (some rest) := by
  have hread := readUint_digits stack hd (byte '\n') (by decide) rest
  rw [strtoul_digits hd hne] at hread
  have hmax := uintMax_lt_ulongMax
  by_cases hv : digitsValue ds ≤ uintMax
  · have hmin : min (digitsValue ds) ulongMax = digitsValue ds := by omega
    rw [hmin, if_neg (by omega)] at hread
    have hwait : parseWait stack wantThread (ds ++ byte '\n' :: rest) =
        ⟨⟨0, some (digitsValue ds), none⟩, rest⟩ := by
      simp only [parseWait, hread]
      rfl
    constructor
    · intro h
      have hin := h.inside
      rw [numberText, hread] at hin
      exact ⟨Nat.le_of_succ_le_succ hin, .inl hv⟩
    · rintro ⟨hlen, -⟩
      refine ⟨?_, fun _ => ?_, fun hlt => by omega, ?_⟩
      · rw [numberText, hread]
        exact Nat.succ_le_succ hlen
      · rw [numberText, hwait]
      · rw [numberText, hwait]
        rfl
  · rw [if_pos (by omega)] at hread
    have hwait : parseWait stack wantThread (ds ++ byte '\n' :: rest) =
        ⟨⟨-1, none, none⟩, cleanup rest⟩ := by
      simp only [parseWait, hread]
      rfl
    constructor
    · intro h
      have hin := h.inside
      have hrest := h.consumed
      rw [numberText, hread] at hin
      rw [numberText, hwait] at hrest
      refine ⟨Nat.le_of_succ_le_succ hin, .inr ?_⟩
      by_contra hcons
      have hlt := cleanup_length_lt hcons
      rw [show cleanup rest = rest from hrest] at hlt
      omega
    · rintro ⟨hlen, hor⟩
      obtain rfl := hor.resolve_left hv
      refine ⟨?_, fun hle => absurd hle hv, fun _ => ?_, ?_⟩
      · rw [numberText, hread]
        exact Nat.succ_le_succ hlen
      · rw [numberText, hwait]
      · rw [numberText, hwait]
        rfl

theorem readsDelay_eof_iff (stack : List UInt8) (wantThread : Bool) {ds : List UInt8}
    (hd : ∀ d ∈ ds, isDigit d = true) (hne : ds ≠ []) :
    ReadsDelay stack wantThread ds none ↔ DelayFits stack ds none := by
  have hwait := parseWait_eof stack wantThread hd hne
  have hmax := uintMax_lt_ulongMax
  have hle := digitsValue_le_append ds (staleDigits stack ds.length)
  have hsame := @digitsValue_append_eq_iff ds (staleDigits stack ds.length)
  have hstores : (readUint stack ds).stores = ds.length := by
    rw [readUint_eof stack hd hne]
    split_ifs <;> rfl
  have hrest : (parseWait stack wantThread ds).rest = [] := by
    rw [hwait]
    split_ifs <;> rfl
  by_cases hv : digitsValue ds ≤ uintMax
  · have hresult : (parseWait stack wantThread ds).result = ⟨0, some (digitsValue ds), none⟩ ↔
        digitsValue (ds ++ staleDigits stack ds.length) = digitsValue ds := by
      rw [hwait]
      split_ifs with hbig
      · refine iff_of_false (fun he => ?_) (by omega)
        cases congrArg Wait.status he
      · constructor
        · intro he
          have hvalue : some (min (digitsValue (ds ++ staleDigits stack ds.length)) ulongMax) =
              some (digitsValue ds) := congrArg Wait.delay he
          have hmin := Option.some.inj hvalue
          omega
        · intro he
          have hmin : min (digitsValue (ds ++ staleDigits stack ds.length)) ulongMax =
              digitsValue ds := by omega
          rw [hmin]
    constructor
    · intro h
      exact ⟨hstores ▸ h.inside, .inr (hsame.mp (hresult.mp (h.value hv)))⟩
    · rintro ⟨hlen, hor⟩
      have hstale := hsame.mpr (hor.resolve_left (by omega))
      exact ⟨hstores.trans_le hlen, fun _ => hresult.mpr hstale, fun hlt => by omega, hrest⟩
  · have hstatus : (parseWait stack wantThread ds).result.status = -1 := by
      rw [hwait, if_pos (by omega)]
    constructor
    · exact fun h => ⟨hstores ▸ h.inside, .inl (by omega)⟩
    · rintro ⟨hlen, -⟩
      exact ⟨hstores.trans_le hlen, fun h => absurd h hv, fun _ => hstatus, hrest⟩

/-- A WAIT does with its number what it should exactly when the number fits. -/
theorem readsDelay_iff (stack : List UInt8) (wantThread : Bool) {ds : List UInt8}
    (hd : ∀ d ∈ ds, isDigit d = true) (hne : ds ≠ []) (after : Option (List UInt8)) :
    ReadsDelay stack wantThread ds after ↔ DelayFits stack ds after := by
  cases after with
  | some rest => exact readsDelay_newline_iff stack wantThread hd hne rest
  | none => exact readsDelay_eof_iff stack wantThread hd hne

/-- The delay 10 and a second command. -/
theorem readsDelay_iff_ten :
    ReadsDelay [] false (chars ['1', '0']) (some (chars ['S', 'H', 'O', 'W'])) ↔
      DelayFits [] (chars ['1', '0']) (some (chars ['S', 'H', 'O', 'W'])) :=
  readsDelay_iff _ _ (List.all_eq_true.mp rfl) (List.cons_ne_nil _ _) _

/-- 2 to the power 32, before another command. -/
theorem not_readsDelay : ¬ ReadsDelay [] false
    (chars ['4', '2', '9', '4', '9', '6', '7', '2', '9', '6'])
    (some (chars ['S', 'H', 'O', 'W', '\n'])) := by
  intro h
  have hrest := congrArg List.length h.consumed
  cases hrest

end IstKvs.Jobs
