import SysPerf.FileReads

namespace SysPerf.FileReads

open FileBlocks (checkInt Rand)
open MachineInt OptionLoop

theorem Reader.run_eq (r : Reader) (size : ℕ) (sizeinMB : ℤ) (rand : ℕ → Rand) (beyond : ℤ) :
    r.run size sizeinMB rand beyond = randRead size sizeinMB r.iter rand beyond := by
  cases r <;> rfl

theorem Reader.iter_pos (r : Reader) : 0 < r.iter := by
  cases r <;> exact Nat.succ_pos _

theorem read_eq {size pos : ℕ} (h : pos + blocksize ≤ size) :
    read ⟨size, pos⟩ = (blocksize, ⟨size, pos + blocksize⟩) := by
  have hmin : min blocksize (size - pos) = blocksize := by omega
  unfold read
  dsimp only
  rw [hmin]

/-- Reads one behind the other, as long as there are blocks. -/
theorem readLoop_eq {left size pos : ℕ} (h : pos + left * blocksize ≤ size) :
    readLoop left ⟨size, pos⟩ = ((List.range left).map fun k => (pos + k * blocksize, blocksize),
      ⟨size, pos + left * blocksize⟩) := by
  induction left generalizing pos with
  | zero => simp [readLoop]
  | succ left ih =>
    have hstep : ∀ k, pos + blocksize + k * blocksize = pos + (k + 1) * blocksize := by
      intro k
      rw [Nat.succ_mul]
      omega
    rw [Nat.succ_mul] at h
    have hrest := @ih (pos + blocksize) (by omega)
    unfold readLoop
    rw [read_eq (by omega)]
    dsimp only
    rw [hrest, List.range_succ_eq_map, List.map_cons, List.map_map, Nat.zero_mul, Nat.add_zero,
      hstep]
    congr 2
    apply List.map_congr_left
    intro k _
    rw [hstep]
    rfl

theorem fileSize_eq (s : ℕ) : fileSize s = s * numOfBlocksinMB * blocksize := by
  unfold fileSize numOfBlocksinMB blocksize
  omega

theorem randOffset_eq {n : ℕ} (hn : 0 < n) (rand : Rand) :
    ∃ k < n, randOffset n rand = some ((k * blocksize : ℕ) : ℤ) := by
  refine ⟨rand.val % n, Nat.mod_lt _ hn, ?_⟩
  unfold randOffset
  rw [if_neg (by omega), Nat.cast_mul]
  rfl

theorem isBlock_of_lt {size n k : ℕ} (hk : k < n) (hsize : n * blocksize ≤ size) :
    IsBlock size ((k * blocksize : ℕ) : ℤ) := by
  have hle : (k + 1) * blocksize ≤ n * blocksize := Nat.mul_le_mul_right _ hk
  rw [Nat.succ_mul] at hle
  refine ⟨by omega, ?_, by omega⟩
  rw [Nat.cast_mul]
  exact dvd_mul_left ..

theorem lseek_isBlock {size : ℕ} {fd : Fd} {offset : ℤ} (hfd : fd.size = size)
    (h : IsBlock size offset) : lseek fd offset = (offset, ⟨size, offset.toNat⟩) := by
  unfold lseek
  rw [if_pos h.1, ← hfd]

/-- A seek that goes to a block was meant to. -/
theorem isBlock_of_lseek {size : ℕ} {fd : Fd} {offset : ℤ}
    (h : IsBlock size (lseek fd offset).1) : IsBlock size offset := by
  unfold lseek at h
  split at h
  next => exact h
  next =>
    obtain ⟨hneg, -⟩ := h
    dsimp only at hneg
    omega

theorem randReadLoop_blocks {size i : ℕ} {array : List ℤ} {beyond : ℤ} (fd : Fd)
    (hfd : fd.size = size) (h : ∀ j, 1 ≤ j → j ≤ i → IsBlock size (arrayAt array beyond j)) :
    (randReadLoop array beyond i fd).length = i ∧
      ∀ turn ∈ randReadLoop array beyond i fd, IsBlock size turn.1 ∧ turn.2 = blocksize := by
  induction i generalizing fd with
  | zero => exact ⟨rfl, fun turn hturn => nomatch hturn⟩
  | succ i ih =>
    have hblock := h (i + 1) (by omega) (by omega)
    have hend : (arrayAt array beyond (i + 1)).toNat + blocksize ≤ size := by
      obtain ⟨hnonneg, -, hend⟩ := hblock
      omega
    unfold randReadLoop
    rw [lseek_isBlock hfd hblock]
    dsimp only
    rw [read_eq hend]
    dsimp only
    obtain ⟨hlen, hall⟩ := ih ⟨size, (arrayAt array beyond (i + 1)).toNat + blocksize⟩ rfl
      fun j hj hle => h j hj (by omega)
    refine ⟨by rw [List.length_cons, hlen], ?_⟩
    intro turn hturn
    rcases List.mem_cons.mp hturn with rfl | hturn
    · exact ⟨hblock, rfl⟩
    · exact hall turn hturn

theorem checkInt_blocks {s : ℕ} (hfits : s * 256 < 2 ^ 31) :
    checkInt ((s : ℤ) * numOfBlocksinMB) = some ((s * 256 : ℕ) : ℤ) := by
  have hcast : (s : ℤ) * numOfBlocksinMB = ((s * 256 : ℕ) : ℤ) := (Nat.cast_mul s 256).symm
  rw [hcast]
  apply FileBlocks.checkInt_of_fits
  unfold FitsInt
  omega

/-- The arrays hold blocks of the file, but the first turn looks behind them. -/
theorem seeksBlocks_iff {s iter : ℕ} (hiter : 0 < iter) (hs : 0 < s) (hfits : s * 256 < 2 ^ 31)
    (rand : ℕ → Rand) (beyond : ℤ) :
    SeeksBlocks (fileSize s) iter (randRead (fileSize s) s iter rand beyond) ↔
      IsBlock (fileSize s) beyond := by
  have hentry : ∀ i ∈ List.range iter, ∃ offset,
      randOffset ((s * 256 : ℕ) : ℤ) (rand i) = some offset ∧
        IsBlock (fileSize s) offset := by
    intro i _
    obtain ⟨k, hk, hoffset⟩ := randOffset_eq (n := s * 256) (by omega) (rand i)
    exact ⟨_, hoffset, isBlock_of_lt hk (fileSize_eq s).ge⟩
  obtain ⟨array, harray, hlen, hall⟩ := mapM_all hentry
  rw [List.length_range] at hlen
  have hread : randRead (fileSize s) s iter rand beyond =
      some (randReadLoop array beyond iter ⟨fileSize s, 0⟩) := by
    unfold randRead
    rw [checkInt_blocks hfits, Option.bind_some, harray, Option.map_some]
  have hbeyond : arrayAt array beyond iter = beyond := by
    unfold arrayAt
    rw [List.getD_eq_getElem?_getD, List.getElem?_eq_none hlen.le, Option.getD_none]
  rw [hread]
  constructor
  · rintro ⟨turns, heq, -, hturns⟩
    obtain rfl := Option.some.inj heq
    obtain ⟨i, rfl⟩ := Nat.exists_eq_succ_of_ne_zero hiter.ne'
    have hfirst := (hturns _ (List.mem_cons_self ..)).1
    have hblock := isBlock_of_lseek hfirst
    rw [hbeyond] at hblock
    exact hblock
  · intro hblock
    have hentries : ∀ j, 1 ≤ j → j ≤ iter → IsBlock (fileSize s) (arrayAt array beyond j) := by
      intro j _ hj
      rcases hj.lt_or_eq with hlt | rfl
      · unfold arrayAt
        rw [List.getD_eq_getElem?_getD, List.getElem?_eq_getElem (by omega), Option.getD_some]
        exact hall _ (List.getElem_mem _)
      · rw [hbeyond]
        exact hblock
    exact ⟨_, rfl, randReadLoop_blocks ⟨fileSize s, 0⟩ rfl hentries⟩

/-- From its random start on, the sequential reader leaves a block unread. -/
theorem seqRead_blocks {s : ℕ} (hs : 4 ≤ s) (hfits : s * 256 < 2 ^ 31) (rand : Rand) :
    ∃ offset log fd, seqRead (fileSize s) s rand = some (offset, log, fd) ∧
      IsBlock (fileSize s) offset ∧ log.length = seqIter ∧ (∀ turn ∈ log, turn.2 = blocksize) ∧
      fd.pos < fd.size := by
  obtain ⟨k, hk, hoffset⟩ := randOffset_eq (n := s * 256 - 1001) (by omega) rand
  have hsize := fileSize_eq s
  have hblock : IsBlock (fileSize s) ((k * blocksize : ℕ) : ℤ) :=
    isBlock_of_lt (n := s * 256) (by omega) hsize.ge
  have hend : k * blocksize + seqIter * blocksize < fileSize s := by
    have hle : (k + 1000 + 1) * blocksize ≤ s * 256 * blocksize :=
      Nat.mul_le_mul_right blocksize (by omega)
    have hblock : 0 < blocksize := by decide
    rw [Nat.succ_mul, Nat.add_mul] at hle
    exact Nat.lt_of_lt_of_le (Nat.lt_add_of_pos_right hblock) (hle.trans hsize.ge)
  have hfirst : checkInt (((s * 256 : ℕ) : ℤ) - seqIter) = some (((s * 256 : ℕ) : ℤ) - seqIter) := by
    apply FileBlocks.checkInt_of_fits
    unfold FitsInt seqIter
    omega
  have hsecond : checkInt (((s * 256 : ℕ) : ℤ) - seqIter - 1) =
      some ((s * 256 - 1001 : ℕ) : ℤ) := by
    have hsub : ((s * 256 : ℕ) : ℤ) - seqIter - 1 = ((s * 256 - 1001 : ℕ) : ℤ) := by
      unfold seqIter
      omega
    rw [hsub]
    apply FileBlocks.checkInt_of_fits
    unfold FitsInt
    omega
  refine ⟨((k * blocksize : ℕ) : ℤ),
    (List.range seqIter).map fun i => (k * blocksize + i * blocksize, blocksize),
    ⟨fileSize s, k * blocksize + seqIter * blocksize⟩, ?_, hblock, ?_, ?_, hend⟩
  · unfold seqRead
    rw [checkInt_blocks hfits, Option.bind_some, hfirst, Option.bind_some, hsecond,
      Option.bind_some, hoffset, Option.map_some, lseek_isBlock rfl hblock]
    dsimp only
    rw [Int.toNat_natCast, readLoop_eq hend.le]
  · rw [List.length_map, List.length_range]
  · intro turn hturn
    obtain ⟨i, -, rfl⟩ := List.mem_map.mp hturn
    rfl

theorem readSeq_blocks {s : ℕ} (hfits : s * 256 < 2 ^ 31) :
    ∃ fd, readSeq (fileSize s) s =
      some ((List.range (fileSize s / blocksize)).map fun k => (k * blocksize, blocksize), fd) ∧
        fd.pos = fileSize s := by
  have hsize : fileSize s = s * 256 * blocksize := fileSize_eq s
  have hblocks : fileSize s / blocksize = s * 256 := by
    rw [hsize, Nat.mul_div_cancel _ (by decide)]
  have hend : 0 + s * 256 * blocksize ≤ fileSize s := by
    rw [Nat.zero_add, hsize]
  refine ⟨⟨fileSize s, 0 + s * 256 * blocksize⟩, ?_, ?_⟩
  · unfold readSeq
    rw [checkInt_blocks hfits, Option.map_some, Int.toNat_natCast, readLoop_eq hend, hblocks]
    simp only [Nat.zero_add]
  · rw [hsize, Nat.zero_add]

/-- The only read that can miss its block is the one at what lies behind the array. -/
theorem readsSpec_iff {s : ℕ} (hs : 4 ≤ s) (hfits : s * 256 < 2 ^ 31)
    (rand : Reader → ℕ → Rand) (seqRand : Rand) (beyond : Reader → ℤ) :
    ReadsSpec s rand seqRand beyond ↔ ∀ r, IsBlock (fileSize s) (beyond r) := by
  have hrun : ∀ r : Reader, SeeksBlocks (fileSize s) r.iter
      (r.run (fileSize s) s (rand r) (beyond r)) ↔ IsBlock (fileSize s) (beyond r) := by
    intro r
    rw [Reader.run_eq]
    exact seeksBlocks_iff r.iter_pos (by omega) hfits (rand r) (beyond r)
  constructor
  · intro h r
    exact (hrun r).mp (h.random r)
  · intro h
    exact ⟨fun r => (hrun r).mpr (h r), seqRead_blocks hs hfits seqRand, readSeq_blocks hfits⟩

theorem isBlock_two : IsBlock (fileSize 4) 8192 := by
  unfold IsBlock fileSize blocksize
  norm_num

theorem not_isBlock_one : ¬IsBlock (fileSize 4) 1 := by
  rintro ⟨-, hdvd, -⟩
  exact absurd hdvd (by decide)

/-- In a file of 4 MB, with the offset of a block behind each array and with a 1 there. -/
theorem readsSpec_iff_four : ReadsSpec 4 (fun _ _ => 0) 0 (fun _ => 8192) ∧
    ¬ReadsSpec 4 (fun _ _ => 0) 0 fun _ => 1 := by
  constructor
  · exact (readsSpec_iff (by omega) (by omega) _ _ _).mpr fun _ => isBlock_two
  · intro h
    exact not_isBlock_one ((readsSpec_iff (by omega) (by omega) _ _ _).mp h .readtimeRandom)

/-- The first seek of readtime_random goes to the byte 1 if a 1 lies behind its array. -/
theorem seek_behind_array : ¬∀ (s : ℕ) (rand : Reader → ℕ → Rand) (seqRand : Rand)
    (beyond : Reader → ℤ), 4 ≤ s → s * 256 < 2 ^ 31 → ReadsSpec s rand seqRand beyond := by
  intro h
  have hrandom := (h 4 (fun _ _ => 0) 0 (fun _ => 1) (by omega) (by omega)).random .readtimeRandom
  rw [Reader.run_eq] at hrandom
  exact not_isBlock_one
    ((seeksBlocks_iff (Reader.iter_pos _) (by omega) (by omega) _ _).mp hrandom)

end SysPerf.FileReads
