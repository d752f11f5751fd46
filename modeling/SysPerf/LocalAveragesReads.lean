import SysPerf.LocalAverages

namespace SysPerf.LocalAverages

open FileBlocks MachineInt OptionLoop

theorem toInt_natAbs_le (z : ℤ) : (toInt z).natAbs ≤ 2 ^ 31 := by
  have hfits := toInt_fits z
  unfold FitsInt at hfits
  omega

/-- No product of a block number and the length of a block overflows. -/
theorem offset_defined (file : File) (rand : Rand)
    (hblocks : nBlocks file.size file.blockSize ≠ 0) :
    ∃ o, offset file.size file.blockSize rand = some o := by
  have hsize := toInt_natAbs_le file.size
  have hpos := file.pos
  have hcount : (nBlocks file.size file.blockSize).natAbs =
      (toInt file.size).natAbs / file.blockSize := by
    unfold nBlocks getFileSize
    rw [Int.natAbs_tdiv, Int.natAbs_natCast]
    rfl
  have hmod : rand.val % (nBlocks file.size file.blockSize).natAbs <
      (nBlocks file.size file.blockSize).natAbs := Nat.mod_lt _ (Int.natAbs_pos.mpr hblocks)
  have hend : (rand.val % (nBlocks file.size file.blockSize).natAbs + 1) * file.blockSize ≤
      (toInt file.size).natAbs := by
    refine (Nat.mul_le_mul_right _ hmod).trans ?_
    rw [hcount]
    exact Nat.div_mul_le_self _ _
  rw [Nat.succ_mul] at hend
  refine ⟨(rand.val : ℤ).tmod (nBlocks file.size file.blockSize) * file.blockSize, ?_⟩
  unfold offset
  rw [if_neg hblocks]
  apply checkInt_of_fits
  have habs : ((rand.val : ℤ).tmod (nBlocks file.size file.blockSize) * file.blockSize).natAbs =
      rand.val % (nBlocks file.size file.blockSize).natAbs * file.blockSize := by
    rw [Int.natAbs_mul, Int.natAbs_tmod, Int.natAbs_natCast, Int.natAbs_natCast]
  unfold FitsInt
  omega

theorem readBlocks_natAbs (file : File) : (readBlocks file.size file.blockSize).natAbs =
    (toInt file.size).natAbs / file.blockSize / 30 := by
  unfold readBlocks nBlocks getFileSize
  rw [Int.natAbs_tdiv, Int.natAbs_tdiv, Int.natAbs_natCast]
  rfl

theorem readBlocks_natAbs_le (file : File) :
    (readBlocks file.size file.blockSize).natAbs ≤ 2 ^ 31 / 30 := by
  have hle : (toInt file.size).natAbs / file.blockSize ≤ 2 ^ 31 :=
    (Nat.div_le_self ..).trans (toInt_natAbs_le file.size)
  rw [readBlocks_natAbs]
  exact Nat.div_le_div_right hle

theorem readBlocks_nonneg (file : File) (h : 0 ≤ getFileSize file.size) :
    0 ≤ readBlocks file.size file.blockSize :=
  Int.tdiv_nonneg (Int.tdiv_nonneg h (Int.natCast_nonneg _)) (by norm_num)

theorem readBlocks_nonpos (file : File) (h : getFileSize file.size ≤ 0) :
    readBlocks file.size file.blockSize ≤ 0 := by
  obtain ⟨m, hm⟩ := Int.eq_ofNat_of_zero_le (Int.neg_nonneg_of_nonpos h)
  have hsize : toInt file.size = -(m : ℤ) := neg_eq_iff_eq_neg.mp hm
  rw [readBlocks_of_neg hsize]
  exact Int.neg_nonpos_of_nonneg (Int.natCast_nonneg _)

theorem divisor_defined (file : File) : divisor file.size file.blockSize =
    some (nIterations * readBlocks file.size file.blockSize) := by
  have hle := readBlocks_natAbs_le file
  unfold divisor
  apply checkInt_of_fits
  unfold FitsInt nIterations
  omega

theorem reads_defined (file : File) (rand : ℕ → Rand) :
    ∃ offsets, readLoop file.size file.blockSize rand 0 (turns file.size file.blockSize) =
      some offsets := by
  by_cases hblocks : nBlocks file.size file.blockSize = 0
  · have hturns : turns file.size file.blockSize = 0 := by
      unfold turns readBlocks
      rw [hblocks]
      rfl
    rw [hturns]
    exact ⟨[], rfl⟩
  · have hoffset : ∀ r, ∃ o, offset file.size file.blockSize r = some o ∧ True := fun r =>
      (offset_defined file r hblocks).imp fun _ ho => ⟨ho, trivial⟩
    obtain ⟨offsets, hread, -⟩ := readLoop_all hoffset rand 0 (turns file.size file.blockSize)
    exact ⟨offsets, hread⟩

theorem startFileReading_eq {K : Type} [Field K] (freq : K) (file : File) (rand : ℕ → ℕ → Rand)
    (t : Timer) (stamps : Stamps) : startFileReading freq file rand t stamps =
      some (addUp (fun t => t.timeDiffMicro freq) stamps 0 nIterations t 0 /
        ((nIterations * readBlocks file.size file.blockSize : ℤ) : K)) := by
  have hreads : ∀ k ∈ List.range nIterations, ∃ offsets, readLoop file.size file.blockSize (rand k)
      0 (turns file.size file.blockSize) = some offsets ∧ True := fun k _ =>
    (reads_defined file (rand k)).imp fun _ hread => ⟨hread, trivial⟩
  obtain ⟨log, hlog, -⟩ := mapM_all hreads
  unfold startFileReading
  rw [hlog, divisor_defined]
  rfl

theorem fullReads_eq_iff {file : File} {preads : ℕ → ℕ → ℤ} :
    fullReads file preads = nIterations * turns file.size file.blockSize ↔
      ∀ k < nIterations, ∀ i < turns file.size file.blockSize, preads k i = file.blockSize := by
  have hlength := List.countP_eq_length
    (p := fun p : ℕ × ℕ => decide (preads p.1 p.2 = file.blockSize))
    (l := List.range nIterations ×ˢ List.range (turns file.size file.blockSize))
  rw [List.length_product, List.length_range, List.length_range] at hlength
  unfold fullReads
  rw [hlength]
  simp only [Prod.forall, List.mem_product, List.mem_range, decide_eq_true_eq]
  exact ⟨fun h k hk i hi => h k i ⟨hk, hi⟩, fun h k i hki => h k hki.1 i hki.2⟩

/-- What the time is divided by is the number of reads unless the length has turned negative. -/
theorem divisor_eq_iff {file : File} {preads : ℕ → ℕ → ℤ} (hone : 1 ≤ fullReads file preads) :
    (nIterations * readBlocks file.size file.blockSize : ℤ) = fullReads file preads ↔
      0 ≤ getFileSize file.size ∧ ∀ k < nIterations, ∀ i < turns file.size file.blockSize,
        preads k i = file.blockSize := by
  have hle := readBlocks_natAbs_le file
  rw [← fullReads_eq_iff]
  by_cases hsize : 0 ≤ getFileSize file.size
  · have hblocks := readBlocks_nonneg file hsize
    have hturns : (turns file.size file.blockSize : ℤ) = readBlocks file.size file.blockSize := by
      unfold turns
      exact toUnsigned_of_nonneg hblocks (by omega)
    rw [← hturns, and_iff_right hsize, ← Nat.cast_mul, Nat.cast_inj, eq_comm]
  · have hblocks := readBlocks_nonpos file (not_le.mp hsize).le
    constructor
    · intro h
      unfold nIterations at h
      omega
    · intro h
      exact absurd h.1 hsize

end SysPerf.LocalAverages
