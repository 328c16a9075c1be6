import IstKvs.Jobs.Grammar
import IstKvs.Systems.Stores

/-! The stores of `read_string` into the buffer of its caller, which has `max` bytes. The loop
ends with a store of the NUL behind the bytes of the string, also when these fill the buffer. -/

namespace IstKvs.Jobs

open IstKvs.Systems.Stores

structure StoredString where
  value : ℤ
  stores : List (ℕ × UInt8)
  rest : List UInt8

/-- `read_string` from index `i` of its buffer on. -/
def storeString (max i : ℕ) (s : List UInt8) : StoredString :=
  if i < max then
    match s with
    | [] => ⟨-1, [], []⟩
    | ch :: s =>
      if ch = byte ' ' then ⟨-1, [], s⟩
      else if ch = byte ',' then ⟨0, [(i, 0)], s⟩
      else if ch = byte ')' then ⟨1, [(i, 0)], s⟩
      else if ch = byte ']' then ⟨2, [(i, 0)], s⟩
      else { storeString max (i + 1) s with
        stores := (i, ch) :: (storeString max (i + 1) s).stores }
  else ⟨-1, [(i, 0)], s⟩

/-- The text that is stored: the bytes of the string, and the NUL unless an exit skips it. -/
def ReadString.text (r : ReadString) : List UInt8 := r.stored ++ if r.terminated then [0] else []

/-- The parser's `read_string`, with the index of each store. -/
theorem storeString_eq {max i : ℕ} (hi : i ≤ max) (s : List UInt8) :
    storeString max i s = ⟨(readString (max - i) s).value,
      storesAt i (readString (max - i) s).text, (readString (max - i) s).rest⟩ := by
  induction s generalizing i with
  | nil =>
    by_cases hlt : i < max
    · obtain ⟨n, hn⟩ : ∃ n, max - i = n + 1 := ⟨max - i - 1, by omega⟩
      rw [storeString, if_pos hlt, hn]
      rfl
    · rw [storeString, if_neg hlt, Nat.sub_eq_zero_of_le (Nat.le_of_not_lt hlt)]
      rfl
  | cons ch s ih =>
    by_cases hlt : i < max
    · have hroom : max - i = max - (i + 1) + 1 := by omega
      rw [storeString, if_pos hlt, hroom, readString]
      dsimp only
      split_ifs
      · rfl
      · rfl
      · rfl
      · rfl
      · rw [ih hlt]
        rfl
    · rw [storeString, if_neg hlt, Nat.sub_eq_zero_of_le (Nat.le_of_not_lt hlt)]
      rfl

/-- Each store is inside the buffer, and a string that is returned ends inside it. -/
structure StaysInside (max : ℕ) (s : List UInt8) : Prop where
  inside : Inside max (storeString max 0 s).stores
  terminated : 0 ≤ (storeString max 0 s).value →
    ∀ buffer : ℕ → UInt8, ∃ k < max, apply buffer (storeString max 0 s).stores k = 0

/-- The stream begins with `max` bytes that end no string. -/
def FillsBuffer (max : ℕ) (s : List UInt8) : Prop := max ≤ s.length ∧ ∀ b ∈ s.take max, Plain b

instance (max : ℕ) (s : List UInt8) : Decidable (FillsBuffer max s) :=
  inferInstanceAs (Decidable (_ ∧ _))

theorem stores_eq (max : ℕ) (s : List UInt8) :
    storeString max 0 s = ⟨(readString max s).value, storesAt 0 (readString max s).text,
      (readString max s).rest⟩ := by
  have heq := storeString_eq (Nat.zero_le max) s
  rwa [Nat.sub_zero] at heq

theorem inside_stores {max : ℕ} {s : List UInt8} :
    Inside max (storeString max 0 s).stores ↔
      (readString max s).text = [] ∨ (readString max s).text.length ≤ max := by
  rw [stores_eq, inside_storesAt, Nat.zero_add]

theorem staysInside_of_delimited {max : ℕ} {k rest : List UInt8} {ch : UInt8}
    (hk : ∀ b ∈ k, Plain b) (hn : k.length < max) (hch : ¬ Plain ch) :
    StaysInside max (k ++ ch :: rest) := by
  have hread := readString_field hk hn ch hch rest
  constructor
  case inside =>
    refine inside_stores.mpr (.inr ?_)
    rw [hread]
    simp only [ReadString.text]
    split_ifs <;> simp <;> omega
  case terminated =>
    intro hvalue buffer
    rw [stores_eq, hread] at hvalue
    have hspace : ch ≠ byte ' ' := by
      rintro rfl
      have hspace : delimiterValue (byte ' ') = -1 := by decide
      simp only [hspace] at hvalue
      omega
    have hend : k.length < (k ++ [(0 : UInt8)]).length := by simp
    have hget := apply_storesAt_add buffer 0 hend
    refine ⟨k.length, hn, ?_⟩
    rw [stores_eq, hread]
    simpa [ReadString.text, hspace] using hget

theorem staysInside_of_eof {max : ℕ} {s : List UInt8} (hk : ∀ b ∈ s, Plain b)
    (hn : s.length < max) : StaysInside max s := by
  have hread := readString_eof hk hn
  constructor
  case inside =>
    refine inside_stores.mpr (.inr ?_)
    rw [hread]
    simp [ReadString.text]
    omega
  case terminated =>
    intro hvalue
    rw [stores_eq, hread] at hvalue
    simp only at hvalue
    omega

theorem not_inside_of_fillsBuffer {max : ℕ} {s : List UInt8} (h : FillsBuffer max s) :
    ¬ Inside max (storeString max 0 s).stores := by
  have hlen := List.length_take_of_le h.1
  have hread := readString_full h.2 (s.drop max)
  rw [hlen, List.take_append_drop] at hread
  rw [inside_stores, hread]
  simp [ReadString.text, hlen]

theorem not_fillsBuffer_of_delimited {max : ℕ} {k rest : List UInt8} {ch : UInt8}
    (hn : k.length < max) (hch : ¬ Plain ch) : ¬ FillsBuffer max (k ++ ch :: rest) := by
  intro hfill
  refine hch (hfill.2 ch ?_)
  rw [List.take_append, List.mem_append]
  right
  obtain ⟨m, hm⟩ : ∃ m, max - k.length = m + 1 := ⟨max - k.length - 1, by omega⟩
  rw [hm, List.take_succ_cons]
  exact List.mem_cons_self

/-- The buffer keeps every store exactly when it is not filled before the string ends. -/
theorem staysInside_iff (max : ℕ) (s : List UInt8) : StaysInside max s ↔ ¬ FillsBuffer max s := by
  cases fieldEnd max s with
  | delimited k ch rest hk hn hch hs =>
    rw [hs]
    exact iff_of_true (staysInside_of_delimited hk hn hch) (not_fillsBuffer_of_delimited hn hch)
  | full k rest hk hn hs =>
    have hfill : FillsBuffer max s := by
      refine ⟨?_, ?_⟩
      · rw [hs, List.length_append]
        omega
      · rw [hs, List.take_left' hn]
        exact hk
    exact iff_of_false (fun h => not_inside_of_fillsBuffer hfill h.inside)
      (not_not_intro hfill)
  | eof hk hn =>
    exact iff_of_true (staysInside_of_eof hk hn) fun hfill => absurd hfill.1 (by omega)

/-- A string of 40 bytes: the NUL is stored behind the 40 bytes of the caller's buffer. -/
theorem not_staysInside : ¬ StaysInside Store.maxStringSize (List.replicate 40 (byte 'a')) := by
  intro h
  refine not_inside_of_fillsBuffer ⟨by decide, fun b hb => ?_⟩ h.inside
  rw [List.eq_of_mem_replicate (List.mem_of_mem_take hb)]
  decide

end IstKvs.Jobs
