import IstKvs.Jobs.Directory
import IstKvs.Store.Operations

/-! The path of a backup file (`process_thread`): the path of the job file without its `.job`, a
minus, the number of the backup and `.bck`, cut by `snprintf` to its buffer. -/

namespace IstKvs.Backups

open IstKvs.Store IstKvs.Jobs

def intMax : ℕ := 2 ^ 31 - 1

/-- A path that `process_thread` accepts. -/
@[ext]
structure JobPath where
  path : CStr
  ends : ∃ base, path.bytes = base ++ chars ['.', 'j', 'o', 'b']
  fits : path.length < maxJobFileNameSize

/-- `fileBackups` when a backup is made. -/
@[ext]
structure BackupNumber where
  value : ℕ
  pos : 1 ≤ value
  le : value ≤ intMax

/-- The path without its last four bytes. -/
def JobPath.base (p : JobPath) : List UInt8 := p.path.bytes.take (p.path.length - 4)

def bckPath (filePath : JobPath) (fileBackups : BackupNumber) : List UInt8 :=
  snprintf maxJobFileNameSize (filePath.base ++ UInt8.ofNat '-'.toNat ::
    (decimal fileBackups.value ++ chars ['.', 'b', 'c', 'k']))

/-! ### Cut texts -/

section Cut
variable {α : Type*}

theorem append_cons_inj {xs xs' ys ys' : List α} {a : α} (hys : a ∉ ys) (hys' : a ∉ ys')
    (h : xs ++ a :: ys = xs' ++ a :: ys') : xs = xs' ∧ ys = ys' := by
  rcases List.append_eq_append_iff.mp h with ⟨zs, rfl, hzs⟩ | ⟨zs, rfl, hzs⟩
  · cases zs with
    | nil => exact ⟨by simp, by simpa using hzs⟩
    | cons z zs =>
      obtain ⟨rfl, rfl⟩ := List.cons.inj hzs
      exact absurd (by simp) hys
  · cases zs with
    | nil => exact ⟨by simp, by simpa using hzs.symm⟩
    | cons z zs =>
      obtain ⟨rfl, rfl⟩ := List.cons.inj hzs
      exact absurd (by simp) hys'

theorem take_marked_eq_iff [DecidableEq α] {xs ys rest : List α} {a : α} (hxs : a ∉ xs)
    (hys : a ∉ ys) (k : ℕ) : (xs ++ a :: rest).take k = (ys ++ a :: rest).take k ↔
      xs = ys ∨ k ≤ xs.length ∧ k ≤ ys.length ∧ xs.take k = ys.take k := by
  have hcut : ∀ zs : List α, a ∉ zs →
      ((zs ++ a :: rest).take k).takeWhile (fun x => decide (x ≠ a)) = zs.take k := by
    intro zs hzs
    have hall : ∀ x ∈ zs.take k, decide (x ≠ a) = true := fun x hx =>
      decide_eq_true fun he => hzs (he ▸ List.mem_of_mem_take hx)
    rw [List.take_append, List.takeWhile_append_of_pos hall]
    cases k - zs.length <;> simp
  constructor
  · intro h
    have htake := congrArg (List.takeWhile fun x => decide (x ≠ a)) h
    rw [hcut xs hxs, hcut ys hys] at htake
    have hlen := congrArg List.length htake
    rw [List.length_take, List.length_take] at hlen
    by_cases hk : k ≤ xs.length
    · exact .inr ⟨hk, by omega, htake⟩
    · left
      rwa [List.take_of_length_le (by omega), List.take_of_length_le (by omega)] at htake
  · rintro (rfl | ⟨hx, hy, htake⟩)
    · rfl
    · rw [List.take_append_of_le_length hx, List.take_append_of_le_length hy, htake]

end Cut

/-! ### Paths -/

/-- The bytes of a backup's path that are left for its number. -/
def JobPath.room (p : JobPath) : ℕ := maxJobFileNameSize + 2 - p.path.length

theorem JobPath.path_eq (p : JobPath) : p.path.bytes = p.base ++ chars ['.', 'j', 'o', 'b'] := by
  obtain ⟨base, hbase⟩ := p.ends
  have hlen : p.path.length - 4 = base.length := by
    rw [CStr.length, hbase, List.length_append]
    rfl
  rw [JobPath.base, hlen, hbase, List.take_left]

theorem JobPath.length_base (p : JobPath) : p.base.length + 4 = p.path.length := by
  have h := congrArg List.length p.path_eq
  rw [List.length_append] at h
  exact h.symm

theorem JobPath.eq_of_base {p q : JobPath} (h : p.base = q.base) : p = q := by
  apply JobPath.ext
  apply CStr.ext_bytes
  rw [p.path_eq, q.path_eq, h]

/-- The cut is behind the minus. -/
theorem bckPath_eq (p : JobPath) (n : BackupNumber) :
    bckPath p n = p.base ++ UInt8.ofNat '-'.toNat ::
      (decimal n.value ++ chars ['.', 'b', 'c', 'k']).take p.room := by
  have hlen := p.length_base
  have hfits := p.fits
  have hroom : maxJobFileNameSize - 1 - p.base.length = p.room + 1 := by
    simp only [JobPath.room, maxJobFileNameSize] at *
    omega
  rw [bckPath, snprintf, List.take_append, hroom, List.take_succ_cons,
    List.take_of_length_le (by simp only [maxJobFileNameSize] at *; omega)]

/-- Two numbers of the same job file whose digits agree as far as the path shows them, and go on
to the end of it. -/
def Clash (p : JobPath) (m n : BackupNumber) : Prop :=
  p.room ≤ (decimal m.value).length ∧ p.room ≤ (decimal n.value).length ∧
    (decimal m.value).take p.room = (decimal n.value).take p.room

/-- No other job file leads to the same path, and another number does only when the path is cut
inside both. -/
theorem bckPath_eq_iff (p q : JobPath) (m n : BackupNumber) :
    bckPath p m = bckPath q n ↔ p = q ∧ (m = n ∨ Clash p m n) := by
  have hminus : ∀ (k : ℕ) (n : BackupNumber), UInt8.ofNat '-'.toNat ∉
      (decimal n.value ++ chars ['.', 'b', 'c', 'k']).take k := by
    intro k n h
    rcases List.mem_append.mp (List.mem_of_mem_take h) with h | h
    · have := digit_of_mem_decimal h
      revert this
      decide
    · revert h
      decide
  have hdot : ∀ n : BackupNumber, UInt8.ofNat '.'.toNat ∉ decimal n.value := by
    intro n h
    have := digit_of_mem_decimal h
    revert this
    decide
  have hnumber : decimal m.value = decimal n.value ↔ m = n :=
    ⟨fun h => BackupNumber.ext (decimal_injective h), fun h => h ▸ rfl⟩
  have htake : (decimal m.value ++ chars ['.', 'b', 'c', 'k']).take p.room =
      (decimal n.value ++ chars ['.', 'b', 'c', 'k']).take p.room ↔ _ :=
    take_marked_eq_iff (hdot m) (hdot n) p.room
  rw [hnumber] at htake
  rw [bckPath_eq, bckPath_eq]
  constructor
  · intro h
    obtain ⟨hbase, hrest⟩ := append_cons_inj (hminus _ m) (hminus _ n) h
    obtain rfl := JobPath.eq_of_base hbase
    exact ⟨rfl, htake.mp hrest⟩
  · rintro ⟨rfl, h⟩
    have hrest := htake.mpr h
    exact congrArg (fun ys => p.base ++ UInt8.ofNat '-'.toNat :: ys) hrest

theorem bckPath_distinct_iff (p q : JobPath) (m n : BackupNumber) :
    (bckPath p m = bckPath q n → p = q ∧ m = n) ↔ p = q → Clash p m n → m = n := by
  rw [bckPath_eq_iff]
  constructor
  · intro h hpq hclash
    exact (h ⟨hpq, .inr hclash⟩).2
  · rintro h ⟨hpq, hmn | hclash⟩
    · exact ⟨hpq, hmn⟩
    · exact ⟨hpq, h hpq hclash⟩

/-- A path of 255 bytes. -/
def longPath : JobPath where
  path := ⟨List.replicate 251 (UInt8.ofNat 'p'.toNat) ++ chars ['.', 'j', 'o', 'b'],
    by decide +kernel⟩
  ends := ⟨_, rfl⟩
  fits := by decide +kernel

/-- Its backups 100 and 1000 have one path. -/
theorem not_bckPath_distinct : ∃ m n : BackupNumber, m.value = 100 ∧ n.value = 1000 ∧
    bckPath longPath m = bckPath longPath n := by
  refine ⟨⟨100, by decide, by decide⟩, ⟨1000, by decide, by decide⟩, rfl, rfl, ?_⟩
  rw [bckPath_eq_iff]
  exact ⟨rfl, .inr ⟨by decide +kernel, by decide +kernel, by decide +kernel⟩⟩

end IstKvs.Backups
