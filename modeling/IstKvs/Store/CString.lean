import Mathlib

/-! C strings as the bytes before the terminating NUL, with the functions of the
C library that the program uses on them. -/

namespace IstKvs.Store

/-- A NUL-terminated string: the bytes before the terminator. -/
structure CStr where
  bytes : List UInt8
  nulFree : (0 : UInt8) ∉ bytes
  deriving DecidableEq

/-- The bytes of characters of the source text. -/
def chars (s : List Char) : List UInt8 := s.map fun c => UInt8.ofNat c.toNat

namespace CStr

theorem ext_bytes {s t : CStr} (h : s.bytes = t.bytes) : s = t := by
  cases s; cases t; cases h; rfl

/-- The string that a buffer holds: its bytes before the first NUL. -/
def ofBuffer (buf : List UInt8) : CStr where
  bytes := buf.takeWhile fun b => decide (b ≠ 0)
  nulFree h := by simpa using List.mem_takeWhile_imp h

def length (s : CStr) : ℕ := s.bytes.length

theorem ne_zero_of_mem {s : CStr} : ∀ b ∈ s.bytes, decide (b ≠ 0) = true := by
  intro b hb
  simp only [ne_eq, decide_eq_true_eq]
  rintro rfl
  exact s.nulFree hb

/-- A string followed by its terminator and anything else reads back as itself. -/
theorem ofBuffer_terminated (s : CStr) (rest : List UInt8) :
    ofBuffer (s.bytes ++ 0 :: rest) = s := by
  apply ext_bytes
  show (s.bytes ++ 0 :: rest).takeWhile (fun b => decide (b ≠ 0)) = s.bytes
  rw [List.takeWhile_append_of_pos ne_zero_of_mem]
  simp

end CStr

/-- A byte as the value of a signed `char`. -/
def charValue (b : UInt8) : ℤ := if b.toNat < 128 then b.toNat else b.toNat - 256

/-- `tolower` in the C locale. -/
def tolower (c : ℤ) : ℤ := if 'A'.toNat ≤ c ∧ c ≤ 'Z'.toNat then c + 32 else c

/-- The sign of `strcmp` orders strings by their first difference, as unsigned bytes. -/
def strcmpBytes : List UInt8 → List UInt8 → ℤ
  | [], [] => 0
  | [], b :: _ => -b.toNat
  | a :: _, [] => a.toNat
  | a :: as, b :: bs => if a = b then strcmpBytes as bs else a.toNat - b.toNat

def strcmp (s t : CStr) : ℤ := strcmpBytes s.bytes t.bytes

theorem strcmpBytes_self (s : List UInt8) : strcmpBytes s s = 0 := by
  induction s with
  | nil => rfl
  | cons a s ih => simp [strcmpBytes, ih]

theorem strcmpBytes_eq_zero {s t : List UInt8} (hs : (0 : UInt8) ∉ s) (ht : (0 : UInt8) ∉ t)
    (h : strcmpBytes s t = 0) : s = t := by
  induction s generalizing t with
  | nil =>
    cases t with
    | nil => rfl
    | cons b t =>
      have hb : b = 0 := UInt8.toNat_inj.mp (by simpa [strcmpBytes] using h)
      simp [hb] at ht
  | cons a s ih =>
    cases t with
    | nil =>
      have ha : a = 0 := UInt8.toNat_inj.mp (by simpa [strcmpBytes] using h)
      simp [ha] at hs
    | cons b t =>
      simp only [strcmpBytes] at h
      split_ifs at h with hab
      · subst hab
        rw [ih (fun hm => hs (List.mem_cons_of_mem _ hm))
          (fun hm => ht (List.mem_cons_of_mem _ hm)) h]
      · exact absurd (UInt8.toNat_inj.mp (by omega)) hab

/-- `strcmp` is zero exactly on equal strings. -/
theorem strcmp_eq_zero {s t : CStr} : strcmp s t = 0 ↔ s = t := by
  constructor
  · intro h
    exact CStr.ext_bytes (strcmpBytes_eq_zero s.nulFree t.nulFree h)
  · rintro rfl
    exact strcmpBytes_self _

/-- The sign of `strcmp` changes with its arguments. -/
theorem strcmpBytes_swap (s t : List UInt8) : strcmpBytes t s = -strcmpBytes s t := by
  induction s generalizing t with
  | nil => cases t <;> simp [strcmpBytes]
  | cons a s ih =>
    cases t with
    | nil => simp [strcmpBytes]
    | cons b t =>
      by_cases hab : a = b
      · simpa [strcmpBytes, hab] using ih t
      · simp only [strcmpBytes, if_neg hab, if_neg (Ne.symm hab)]
        omega

theorem strcmpBytes_trans {s t u : List UInt8} (hs : (0 : UInt8) ∉ s) (ht : (0 : UInt8) ∉ t)
    (h₁ : strcmpBytes s t ≤ 0) (h₂ : strcmpBytes t u ≤ 0) : strcmpBytes s u ≤ 0 := by
  induction s generalizing t u with
  | nil => cases u <;> simp [strcmpBytes]
  | cons a s ih =>
    cases t with
    | nil =>
      have ha : a = 0 := UInt8.toNat_inj.mp (by simpa [strcmpBytes] using h₁)
      simp [ha] at hs
    | cons b t =>
      cases u with
      | nil =>
        have hb : b = 0 := UInt8.toNat_inj.mp (by simpa [strcmpBytes] using h₂)
        simp [hb] at ht
      | cons c u =>
        have hinj := fun x y : UInt8 => UInt8.toNat_inj (a := x) (b := y)
        have ih' := ih (t := t) (u := u) (fun hm => hs (List.mem_cons_of_mem _ hm))
          fun hm => ht (List.mem_cons_of_mem _ hm)
        simp only [strcmpBytes] at h₁ h₂ ⊢
        grind

theorem strcmp_swap (s t : CStr) : strcmp t s = -strcmp s t := strcmpBytes_swap _ _

theorem strcmp_total (s t : CStr) : strcmp s t ≤ 0 ∨ strcmp t s ≤ 0 := by
  rw [strcmp_swap s t]
  omega

theorem strcmp_trans {s t u : CStr} (h₁ : strcmp s t ≤ 0) (h₂ : strcmp t u ≤ 0) :
    strcmp s u ≤ 0 :=
  strcmpBytes_trans s.nulFree t.nulFree h₁ h₂

/-! ### Numbers -/

/-- The decimal digits of a number, as `%d` prints them. -/
def decimal (n : ℕ) : List UInt8 := chars (Nat.toDigits 10 n)

theorem toNat_of_isDigit {c : Char} (h : c.isDigit = true) :
    (UInt8.ofNat c.toNat).toNat = c.toNat ∧ 48 ≤ c.toNat ∧ c.toNat ≤ 57 := by
  simp only [Char.isDigit, Bool.and_eq_true, decide_eq_true_eq] at h
  have hrange : 48 ≤ c.toNat ∧ c.toNat ≤ 57 := ⟨h.1, h.2⟩
  exact ⟨by rw [UInt8.toNat_ofNat', Nat.mod_eq_of_lt (by omega)], hrange⟩

theorem digit_of_mem_decimal {n : ℕ} {b : UInt8} (h : b ∈ decimal n) :
    48 ≤ b.toNat ∧ b.toNat ≤ 57 := by
  obtain ⟨c, hc, rfl⟩ := List.mem_map.mp h
  obtain ⟨he, hrange⟩ := toNat_of_isDigit (Nat.isDigit_of_mem_toDigits (by decide) (by decide) hc)
  rw [he]
  exact hrange

theorem decimal_injective {m n : ℕ} (h : decimal m = decimal n) : m = n := by
  have hdecode : ∀ k, (decimal k).map (fun b => Char.ofNat b.toNat) = Nat.toDigits 10 k := by
    intro k
    rw [decimal, chars, List.map_map]
    refine (List.map_congr_left fun c hc => ?_).trans (List.map_id _)
    have hdigit := Nat.isDigit_of_mem_toDigits (by decide) (by decide) hc
    rw [Function.comp_apply, (toNat_of_isDigit hdigit).1, Char.ofNat_toNat]
    rfl
  have hchars := congrArg (List.map fun b => Char.ofNat b.toNat) h
  rw [hdecode, hdecode] at hchars
  simpa using congrArg (fun cs => Nat.ofDigitChars 10 cs 0) hchars

end IstKvs.Store
