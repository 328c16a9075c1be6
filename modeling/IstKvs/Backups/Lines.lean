import IstKvs.Backups.Contents
import IstKvs.Common.Io
import IstKvs.Systems.Stores

/-! The copies of `kvs_backup` into `aux` with their arithmetic: the room left is computed in
`size_t`, where a copy past the end would make it wrap around. -/

namespace IstKvs.Backups

open IstKvs.Store IstKvs.Systems.Stores IstKvs.Common

/-- The stores into `aux`, and whether the expression for the room has wrapped around. -/
structure LineBuffer where
  stores : List (ℕ × UInt8)
  numBytesCopied : UInt64
  wrapped : Bool

/-- `strn_memcpy` behind the bytes copied, with `MAX_STRING_SIZE - num_bytes_copied - 1` for
its bound. -/
def LineBuffer.copy (aux : LineBuffer) (src : List UInt8) : LineBuffer :=
  let n := UInt64.ofNat maxStringSize - aux.numBytesCopied - 1
  let bytes := src.take n.toNat
  { stores := aux.stores ++ storesAt aux.numBytesCopied.toNat bytes
    numBytesCopied := aux.numBytesCopied + UInt64.ofNat bytes.length
    wrapped := aux.wrapped || decide (maxStringSize < aux.numBytesCopied.toNat + 1) }

/-- The copies for one node. -/
def copyLine (key value : CStr) : LineBuffer :=
  ((((⟨storesAt 0 (chars ['(']), 1, false⟩ : LineBuffer).copy key.bytes).copy
    (chars [',', ' '])).copy value.bytes).copy (chars [')', '\n'])

/-- All stores into `aux`, with that of the final NUL. -/
def lineStores (key value : CStr) : List (ℕ × UInt8) :=
  (copyLine key value).stores ++ [((copyLine key value).numBytesCopied.toNat, 0)]

/-- What `aux` holds as a string after stores into it. -/
def auxString (aux : ℕ → UInt8) (stores : List (ℕ × UInt8)) : CStr :=
  .ofBuffer ((List.range maxStringSize).map (apply aux stores))

/-- The loop of `write_str`, which an error ends; `none` while a call of `write` waits. -/
def writeStr (file str : List UInt8) (results : List WriteResult) : Option (List UInt8) :=
  if str = [] then some file
  else match results with
    | [] => none
    | .bytes n :: results => writeStr (file ++ str.take (n + 1)) (str.drop (n + 1)) results
    | .interrupted :: _ | .failed :: _ => some file

/-! ### What `aux` holds -/

/-- `aux` holds a text with room for its NUL, and nothing has wrapped. -/
structure Holds (aux : LineBuffer) (text : List UInt8) : Prop where
  stores : aux.stores = storesAt 0 text
  numBytesCopied : aux.numBytesCopied.toNat = text.length
  fits : text.length < maxStringSize
  wrapped : aux.wrapped = false

theorem Holds.room {aux : LineBuffer} {text : List UInt8} (h : Holds aux text) :
    (UInt64.ofNat maxStringSize - aux.numBytesCopied - 1).toNat =
      maxStringSize - text.length - 1 := by
  have hfits := h.fits
  have hsize : (UInt64.ofNat maxStringSize).toNat = maxStringSize := rfl
  rw [UInt64.toNat_sub, UInt64.toNat_sub, h.numBytesCopied, hsize]
  simp only [maxStringSize, UInt64.toNat_one] at hfits ⊢
  omega

theorem Holds.copy {aux : LineBuffer} {text : List UInt8} (h : Holds aux text)
    (src : List UInt8) : Holds (aux.copy src) (strnMemcpy text src) := by
  have hfits := h.fits
  have hlen : (src.take (maxStringSize - text.length - 1)).length + text.length <
      maxStringSize := by
    rw [List.length_take]
    omega
  refine ⟨?_, ?_, ?_, ?_⟩
  · rw [LineBuffer.copy, strnMemcpy, storesAt_append, h.room, h.stores, h.numBytesCopied,
      Nat.zero_add]
  · rw [LineBuffer.copy, strnMemcpy, h.room, UInt64.toNat_add, h.numBytesCopied,
      List.length_append, UInt64.toNat_ofNat']
    simp only [maxStringSize] at hlen ⊢
    omega
  · rw [strnMemcpy, List.length_append, Nat.add_comm]
    exact hlen
  · rw [LineBuffer.copy, h.wrapped, h.numBytesCopied, Bool.false_or, decide_eq_false_iff_not]
    omega

/-- The buffer that the backup formats, with its arithmetic. -/
theorem holds_copyLine (key value : CStr) : Holds (copyLine key value) (backupItem key value) := by
  have hopen : Holds ⟨storesAt 0 (chars ['(']), 1, false⟩ (chars ['(']) :=
    ⟨rfl, rfl, by decide, rfl⟩
  exact (((hopen.copy key.bytes).copy (chars [',', ' '])).copy value.bytes).copy
    (chars [')', '\n'])

theorem lineStores_eq (key value : CStr) :
    lineStores key value = storesAt 0 (backupItem key value ++ [0]) := by
  have h := holds_copyLine key value
  rw [lineStores, h.stores, h.numBytesCopied, storesAt_append, Nat.zero_add]
  rfl

theorem zero_notMem_backupItem (key value : CStr) : (0 : UInt8) ∉ backupItem key value := by
  rw [backupItem_eq]
  intro h
  have hmem := List.mem_of_mem_take h
  simp only [pairLine, List.mem_append] at hmem
  have hkey := key.nulFree
  have hvalue := value.nulFree
  rcases hmem with ((((h | h) | h) | h) | h)
  · revert h
    decide
  · exact hkey h
  · revert h
    decide
  · exact hvalue h
  · revert h
    decide

theorem auxString_lineStores (aux : ℕ → UInt8) (key value : CStr) :
    (auxString aux (lineStores key value)).bytes = backupItem key value := by
  have hfits := (holds_copyLine key value).fits
  have hlen : (backupItem key value ++ [0]).length ≤ maxStringSize := by
    rw [List.length_append]
    exact hfits
  obtain ⟨rest, hrest⟩ := map_range_apply aux hlen
  have hline := CStr.ofBuffer_terminated ⟨_, zero_notMem_backupItem key value⟩ rest
  rw [auxString, lineStores_eq, hrest, List.append_assoc]
  exact congrArg CStr.bytes hline

/-! ### What is written -/

theorem writeStr_spec {file str file' : List UInt8} {results : List WriteResult}
    (hok : ∀ x ∈ results, ∃ n, x = .bytes n) (h : writeStr file str results = some file') :
    file' = file ++ str := by
  induction results generalizing file str with
  | nil =>
    rw [writeStr] at h
    split_ifs at h with hstr
    cases h
    rw [hstr, List.append_nil]
  | cons x results ih =>
    obtain ⟨n, rfl⟩ := hok x List.mem_cons_self
    rw [writeStr] at h
    split_ifs at h with hstr
    · cases h
      rw [hstr, List.append_nil]
    · have hrest := ih (fun y hy => hok y (List.mem_cons_of_mem _ hy)) h
      rw [hrest, List.append_assoc, List.take_append_drop]

/-- The copies for a node of any key and value: the arithmetic does not wrap, the stores stay
inside `aux`, and the string that is handed to `write_str`, and written by it unless a call of
`write` fails, is the line cut to 39 bytes. -/
theorem line_exact (key value : CStr) (aux : ℕ → UInt8) :
    (copyLine key value).wrapped = false ∧ Inside maxStringSize (lineStores key value) ∧
    (auxString aux (lineStores key value)).bytes = (pairLine key value).take
      (min (maxStringSize - 1) (pairLine key value).length) ∧
    ∀ file results file', (∀ x ∈ results, ∃ n, x = .bytes n) →
      writeStr file (auxString aux (lineStores key value)).bytes results = some file' →
        file' = file ++ (pairLine key value).take
          (min (maxStringSize - 1) (pairLine key value).length) := by
  have h := holds_copyLine key value
  have hline : (auxString aux (lineStores key value)).bytes = (pairLine key value).take
      (min (maxStringSize - 1) (pairLine key value).length) := by
    rw [auxString_lineStores, backupItem_eq]
    exact List.take_eq_take_min ..
  refine ⟨h.wrapped, ?_, hline, fun file results file' hok hwrite => ?_⟩
  · rw [lineStores_eq]
    refine inside_storesAt.mpr (.inr ?_)
    rw [Nat.zero_add, List.length_append]
    exact h.fits
  · rw [writeStr_spec hok hwrite, hline]

/-- A line that does not fit, written in two pieces. -/
theorem line_exact_longPair : ∃ file',
    writeStr [] (auxString (fun _ => 7) (lineStores longPair.1 longPair.2)).bytes
      [.bytes 9, .bytes 99] = some file' ∧
    file' = [] ++ (pairLine longPair.1 longPair.2).take
      (min (maxStringSize - 1) (pairLine longPair.1 longPair.2).length) := by
  have hok : ∀ x ∈ [WriteResult.bytes 9, .bytes 99], ∃ n, x = .bytes n := by
    rintro x hx
    simp only [List.mem_cons, List.not_mem_nil, or_false] at hx
    rcases hx with rfl | rfl
    · exact ⟨9, rfl⟩
    · exact ⟨99, rfl⟩
  have hwrite : ∃ file', writeStr [] (auxString (fun _ => 7) (lineStores longPair.1
      longPair.2)).bytes [.bytes 9, .bytes 99] = some file' := by
    rw [auxString_lineStores]
    exact ⟨_, rfl⟩
  obtain ⟨file', hwrite⟩ := hwrite
  exact ⟨file', hwrite, (line_exact _ _ _).2.2.2 _ _ _ hok hwrite⟩

end IstKvs.Backups
