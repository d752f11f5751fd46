import SysPerf.MachineInt
import Mathlib.Tactic.Linarith

namespace SysPerf.FileBlocks

open MachineInt

/-- `N_ITERATIONS`. -/
def nIterations : ℕ :=
  15

/-- `int sz = ftell(fp)`. -/
def getFileSize (ftell : ℤ) : ℤ :=
  toInt ftell

/-- An int result, `none` where it overflows. -/
def checkInt (z : ℤ) : Option ℤ :=
  if FitsInt z then some z else none

/-- A number that `rand()` returns, from 0 to `RAND_MAX`. -/
abbrev Rand : Type :=
  Fin (2 ^ 31)

section

variable (ftell blockSize : ℤ)

def nBlocks : ℤ :=
  (getFileSize ftell).tdiv blockSize

def readBlocks : ℤ :=
  (nBlocks ftell blockSize).tdiv 30

/-- The turns of a loop with a `uint64_t` counter that starts at 0 and is compared with the int
`read_blocks`. -/
def turns : ℕ :=
  toUnsigned (readBlocks ftell blockSize)

/-- `(rand() % n_blocks) * block_size`, `none` for a division by zero or an overflow. -/
def offset (rand : Rand) : Option ℤ :=
  if nBlocks ftell blockSize = 0 then none
  else checkInt ((rand.val : ℤ).tmod (nBlocks ftell blockSize) * blockSize)

/-- The offsets that the inner loop hands to `pread` from its turn `i` on. -/
def readLoop (rand : ℕ → Rand) (i : ℕ) : ℕ → Option (List ℤ)
  | 0 => some []
  | left + 1 =>
    (offset ftell blockSize (rand i)).bind fun o =>
      (readLoop rand (i + 1) left).map fun rest => o :: rest

/-- `N_ITERATIONS * read_blocks`. -/
def divisor : Option ℤ :=
  checkInt (nIterations * readBlocks ftell blockSize)

end

/-- The reads of each iteration are as many as a thirtieth of the whole blocks, and each lies in
the file and starts at a block; the time is not divided by zero. -/
structure BlocksSpec (size blockSize : ℕ) (rand : ℕ → ℕ → Rand) : Prop where
  reads : ∀ k < nIterations, ∃ offsets,
    readLoop size blockSize (rand k) 0 (turns size blockSize) = some offsets ∧
      offsets.length = size / blockSize / 30 ∧
      ∀ o ∈ offsets, 0 ≤ o ∧ (blockSize : ℤ) ∣ o ∧ o + blockSize ≤ size
  divisor : ∃ d, divisor size blockSize = some d ∧ d ≠ 0

theorem checkInt_of_fits {z : ℤ} (h : FitsInt z) : checkInt z = some z :=
  if_pos h

theorem readLoop_length {ftell blockSize : ℤ} {rand : ℕ → Rand} {i left : ℕ} {offsets : List ℤ}
    (h : readLoop ftell blockSize rand i left = some offsets) : offsets.length = left := by
  induction left generalizing i offsets with
  | zero =>
    obtain rfl := Option.some.inj h
    rfl
  | succ left ih =>
    obtain ⟨o, ho, h⟩ := Option.bind_eq_some_iff.mp h
    obtain ⟨rest, hrest, heq⟩ := Option.map_eq_some_iff.mp h
    rw [← heq, List.length_cons, ih hrest]

/-- What holds of each offset holds of those of a whole loop. -/
theorem readLoop_all {ftell blockSize : ℤ} {P : ℤ → Prop}
    (h : ∀ r, ∃ o, offset ftell blockSize r = some o ∧ P o) (rand : ℕ → Rand) (i left : ℕ) :
    ∃ offsets, readLoop ftell blockSize rand i left = some offsets ∧ ∀ o ∈ offsets, P o := by
  induction left generalizing i with
  | zero => exact ⟨[], rfl, by simp⟩
  | succ left ih =>
    obtain ⟨o, ho, hP⟩ := h (rand i)
    obtain ⟨rest, hrest, hall⟩ := ih (i + 1)
    refine ⟨o :: rest, ?_, ?_⟩
    · unfold readLoop
      rw [ho, Option.bind_some, hrest]
      rfl
    · intro x hx
      rcases List.mem_cons.mp hx with rfl | hx
      · exact hP
      · exact hall x hx

section

variable {size blockSize : ℕ}

theorem toInt_size (h : size < 2 ^ 31) : toInt size = size := by
  apply toInt_eq_self
  unfold FitsInt
  omega

theorem nBlocks_of_nonneg {m : ℕ} (h : toInt size = m) :
    nBlocks size blockSize = (m / blockSize : ℕ) := by
  unfold nBlocks getFileSize
  rw [h]
  rfl

theorem readBlocks_of_nonneg {m : ℕ} (h : toInt size = m) :
    readBlocks size blockSize = (m / blockSize / 30 : ℕ) := by
  unfold readBlocks
  rw [nBlocks_of_nonneg h]
  rfl

theorem readBlocks_of_neg {m : ℕ} (h : toInt size = -(m : ℤ)) :
    readBlocks size blockSize = -((m / blockSize / 30 : ℕ) : ℤ) := by
  unfold readBlocks nBlocks getFileSize
  rw [h, Int.neg_tdiv, Int.neg_tdiv]
  rfl

theorem turns_of_lt (h : size < 2 ^ 31) : turns size blockSize = size / blockSize / 30 := by
  have hle : size / blockSize / 30 ≤ size := (Nat.div_le_self ..).trans (Nat.div_le_self ..)
  unfold turns
  rw [readBlocks_of_nonneg (toInt_size h)]
  generalize size / blockSize / 30 = blocks at hle
  have hto := toUnsigned_of_nonneg (z := blocks) (by omega) (by omega)
  exact_mod_cast hto

theorem divisor_of_lt (h : size < 2 ^ 31) :
    divisor size blockSize = some ((nIterations * (size / blockSize / 30) : ℕ) : ℤ) := by
  have hle : size / blockSize / 30 ≤ size / 30 :=
    Nat.div_le_div_right (Nat.div_le_self size blockSize)
  unfold divisor
  rw [readBlocks_of_nonneg (toInt_size h)]
  generalize size / blockSize / 30 = blocks at hle
  have hfits : FitsInt (nIterations * blocks) := by
    unfold FitsInt nIterations
    omega
  rw [checkInt_of_fits hfits, Nat.cast_mul]

theorem offset_of_lt (h : size < 2 ^ 31) (hblocks : 0 < size / blockSize) (rand : Rand) :
    ∃ o, offset size blockSize rand = some o ∧ 0 ≤ o ∧ (blockSize : ℤ) ∣ o ∧
      o + blockSize ≤ size := by
  have hlt : rand.val % (size / blockSize) < size / blockSize := Nat.mod_lt _ hblocks
  have hend : (rand.val % (size / blockSize) + 1) * blockSize ≤ size :=
    (Nat.mul_le_mul_right blockSize hlt).trans (Nat.div_mul_le_self size blockSize)
  rw [Nat.add_mul, Nat.one_mul] at hend
  have hfits : FitsInt ((rand.val % (size / blockSize) * blockSize : ℕ) : ℤ) := by
    unfold FitsInt
    omega
  refine ⟨(rand.val % (size / blockSize) * blockSize : ℕ), ?_, by omega, ?_, by omega⟩
  · unfold offset
    rw [nBlocks_of_nonneg (toInt_size h), if_neg (by omega)]
    have hmod : ((rand.val : ℤ).tmod (size / blockSize : ℕ) * blockSize) =
        ((rand.val % (size / blockSize) * blockSize : ℕ) : ℤ) := by
      rw [Nat.cast_mul]
      rfl
    rw [hmod, checkInt_of_fits hfits]
  · rw [Nat.cast_mul]
    exact dvd_mul_left ..

theorem blocksSpec_of_lt (hblock : 0 < blockSize) (hlow : 30 * blockSize ≤ size)
    (hhigh : size < 2 ^ 31) (rand : ℕ → ℕ → Rand) : BlocksSpec size blockSize rand := by
  have hblocks : 30 ≤ size / blockSize := (Nat.le_div_iff_mul_le hblock).mpr hlow
  constructor
  · intro k _
    have hpos : 0 < size / blockSize := by omega
    obtain ⟨offsets, hread, hall⟩ :=
      readLoop_all (offset_of_lt hhigh hpos) (rand k) 0 (turns size blockSize)
    refine ⟨offsets, hread, ?_, hall⟩
    rw [readLoop_length hread, turns_of_lt hhigh]
  · refine ⟨_, divisor_of_lt hhigh, ?_⟩
    unfold nIterations
    omega

theorem turns_of_spec {rand : ℕ → ℕ → Rand} (h : BlocksSpec size blockSize rand) :
    turns size blockSize = size / blockSize / 30 := by
  obtain ⟨offsets, hread, hlen, -⟩ := h.reads 0 Nat.succ_pos'
  rw [← hlen, readLoop_length hread]

theorem readBlocks_of_spec {rand : ℕ → ℕ → Rand} (h : BlocksSpec size blockSize rand) :
    readBlocks size blockSize ≠ 0 := by
  obtain ⟨d, hd, hne⟩ := h.divisor
  intro hzero
  unfold divisor checkInt at hd
  rw [hzero, mul_zero, if_pos (by decide)] at hd
  exact hne (Option.some.inj hd).symm

theorem not_blocksSpec_of_few (hhigh : size < 2 ^ 31) (hlow : size < 30 * blockSize)
    (rand : ℕ → ℕ → Rand) : ¬BlocksSpec size blockSize rand := by
  intro h
  have hne := readBlocks_of_spec h
  rw [readBlocks_of_nonneg (toInt_size hhigh)] at hne
  apply hne
  have hblocks : size / blockSize < 30 := Nat.div_lt_of_lt_mul (by rw [Nat.mul_comm]; exact hlow)
  rw [Nat.div_eq_of_lt hblocks]
  rfl

/-- A length that does not fit into an int gives another number of reads. -/
theorem not_blocksSpec_of_ge (hlow : 2 ^ 31 ≤ size) (hhigh : size < 2 ^ 63)
    (rand : ℕ → ℕ → Rand) : ¬BlocksSpec size blockSize rand := by
  intro h
  have hturns := turns_of_spec h
  have hne := readBlocks_of_spec h
  have hwrap := toInt_le_sub (z := size) (by omega)
  have hfits := toInt_fits size
  unfold FitsInt at hfits
  unfold turns at hturns
  have hall : size / blockSize / 30 ≤ size := (Nat.div_le_self ..).trans (Nat.div_le_self ..)
  rcases le_or_gt 0 (toInt size) with hz | hz
  · obtain ⟨m, hm⟩ := Int.eq_ofNat_of_zero_le hz
    rw [readBlocks_of_nonneg hm] at hturns hne
    have hblocks : 30 ≤ m / blockSize := by
      by_contra hfew
      exact hne (by rw [Nat.div_eq_of_lt (by omega)]; rfl)
    have hpos : 0 < blockSize := by
      by_contra hzero
      obtain rfl : blockSize = 0 := by omega
      simp at hblocks
    have hthirty : 30 * blockSize ≤ m := (Nat.le_div_iff_mul_le hpos).mp hblocks
    -- the blocks that the wrap leaves out are thirty and more
    have hmore : m + 30 * blockSize ≤ size := by omega
    have hdiv := Nat.div_le_div_right (c := blockSize) hmore
    rw [Nat.add_mul_div_right _ _ hpos] at hdiv
    have hle : m / blockSize / 30 ≤ m := (Nat.div_le_self ..).trans (Nat.div_le_self ..)
    generalize hb : m / blockSize / 30 = blocks at hturns hle
    have hto := toUnsigned_of_nonneg (z := blocks) (by omega) (by omega)
    omega
  · obtain ⟨m, hm⟩ := Int.eq_ofNat_of_zero_le (Int.neg_nonneg_of_nonpos hz.le)
    have hm : toInt size = -(m : ℤ) := by omega
    rw [readBlocks_of_neg hm] at hturns hne
    have hle : m / blockSize / 30 ≤ m := (Nat.div_le_self ..).trans (Nat.div_le_self ..)
    generalize m / blockSize / 30 = blocks at hturns hne hle
    have hto := toUnsigned_of_neg (z := -(blocks : ℤ)) (by omega) (by omega)
    omega

/-- The reads are what they are meant to be exactly for files of at least 30 blocks whose length
fits into an int. -/
theorem blocksSpec_iff (hblock : 0 < blockSize) (hsize : size < 2 ^ 63)
    (rand : ℕ → ℕ → Rand) :
    BlocksSpec size blockSize rand ↔ 30 * blockSize ≤ size ∧ size < 2 ^ 31 := by
  rcases Nat.lt_or_ge size (2 ^ 31) with hhigh | hbig
  · rcases Nat.lt_or_ge size (30 * blockSize) with hfew | hlow
    · exact iff_of_false (not_blocksSpec_of_few hhigh hfew rand) (by omega)
    · exact iff_of_true (blocksSpec_of_lt hblock hlow hhigh rand) ⟨hlow, hhigh⟩
  · exact iff_of_false (not_blocksSpec_of_ge hbig hsize rand) (by omega)

end

/-- The 64 MB files of the experiment in 4 KB blocks, and a file of 4 GB. -/
theorem blocksSpec_iff_sizes :
    BlocksSpec (2 ^ 26) (2 ^ 12) (fun _ _ => 0) ∧ ¬BlocksSpec (2 ^ 32) (2 ^ 12) (fun _ _ => 0) := by
  constructor
  · exact (blocksSpec_iff (by norm_num) (by norm_num) _).mpr (by norm_num)
  · intro h
    have hsize := (blocksSpec_iff (by norm_num) (by norm_num) _).mp h
    norm_num at hsize

/-- A file of less than 30 blocks ends in a division by zero. -/
theorem small_file : ¬∀ (size blockSize : ℕ) (rand : ℕ → ℕ → Rand), 0 < blockSize →
    blockSize < 2 ^ 31 → size < 2 ^ 63 → BlocksSpec size blockSize rand := by
  intro h
  have hspec := h 4096 4096 (fun _ _ => 0) (by norm_num) (by norm_num) (by norm_num)
  exact not_blocksSpec_of_few (by norm_num) (by norm_num) _ hspec

end SysPerf.FileBlocks
