import SysPerf.LocalAveragesReads

namespace SysPerf.LocalAverages

open FileBlocks MachineInt OptionLoop

theorem children_eq_iff {iter : ℕ} {forks : ℕ → Bool} :
    iter = children iter forks ↔ ∀ i < iter, forks (i + 1) = true := by
  have hlength := List.countP_eq_length (p := fun i => forks (i + 1)) (l := List.range iter)
  rw [List.length_range] at hlength
  unfold children
  rw [eq_comm, hlength]
  simp

section

variable {K : Type} [Field K]

theorem quotient_eq_iff [CharZero K] {time : K} {m n : ℤ} :
    time / (m : K) = time / (n : K) ↔ m = n ∨ time = 0 := by
  rw [div_eq_mul_inv, div_eq_mul_inv, mul_eq_mul_left_iff, inv_inj, Int.cast_inj]

variable [LinearOrder K] [IsStrictOrderedRing K]

theorem Interval.microseconds_nonneg (t : Interval) : 0 ≤ t.microseconds := by
  have hle := t.le
  exact Int.tdiv_nonneg (by omega) (by norm_num)

theorem Interval.microseconds_eq_zero (t : Interval) :
    t.microseconds = 0 ↔ t.finish < t.start + 1000 := by
  have hle := t.le
  unfold Interval.microseconds
  rw [Int.tdiv_eq_ediv_of_nonneg (by omega)]
  omega

theorem timed_nonneg {freq : K} (hfreq : 0 < freq) (t : Timer) (stamps : BitVec 64 × BitVec 64) :
    0 ≤ timed freq t stamps :=
  div_nonneg (Nat.cast_nonneg _) hfreq.le

theorem timed_eq_zero {freq : K} (hfreq : 0 < freq) (t : Timer)
    (stamps : BitVec 64 × BitVec 64) : timed freq t stamps = 0 ↔ stamps.1 = stamps.2 := by
  unfold timed Timer.timeDiffMicro
  rw [div_eq_zero_iff, or_iff_left hfreq.ne', Timer.diff_begin_end, Nat.cast_eq_zero]
  constructor
  · intro h
    have hdiff : stamps.2 - stamps.1 = 0#64 := BitVec.eq_of_toNat_eq (by simpa using h)
    bv_omega
  · intro h
    simp [h]

/-- Only forks that create a child add to the sum. -/
theorem forkLoop_eq_zero (forks : ℕ → Bool) {spent : ℕ → K} (hspent : ∀ i, 0 ≤ spent i)
    (iter : ℕ) {total : K} (htotal : 0 ≤ total) : forkLoop forks spent iter total = 0 ↔
      total = 0 ∧ ∀ i < iter, forks (i + 1) = true → spent (i + 1) = 0 := by
  induction iter generalizing total with
  | zero => simp [forkLoop]
  | succ iter ih =>
    have hnext := hspent (iter + 1)
    unfold forkLoop
    split
    next hfork =>
      rw [ih (add_nonneg htotal hnext), add_eq_zero_iff_of_nonneg htotal hnext, and_assoc,
        Nat.forall_lt_succ_right]
      simp [hfork, and_comm]
    next hfork =>
      rw [ih htotal, Nat.forall_lt_succ_right]
      simp [hfork]

theorem addUp_eq_zero {freq : K} (hfreq : 0 < freq) (stamps : Stamps) (i left : ℕ) (t : Timer)
    {total : K} (htotal : 0 ≤ total) :
    addUp (fun t => t.timeDiffMicro freq) stamps i left t total = 0 ↔
      total = 0 ∧ ∀ k < left, (stamps (i + k)).1 = (stamps (i + k)).2 := by
  induction left generalizing i t total with
  | zero => simp [addUp]
  | succ left ih =>
    have hnext := timed_nonneg hfreq t (stamps i)
    have hzero := timed_eq_zero hfreq t (stamps i)
    unfold timed at hnext hzero
    unfold addUp
    dsimp only
    rw [ih (i + 1) _ (add_nonneg htotal hnext), add_eq_zero_iff_of_nonneg htotal hnext, hzero,
      and_assoc, Nat.forall_lt_succ_left]
    simp [Nat.add_assoc, Nat.add_comm 1]

theorem average_of_forks {iter : ℕ} {forks : ℕ → Bool} {time : K} {NoTime : Prop}
    (hzero : time = 0 ↔ NoTime) :
    some (time / (iter : K)) = some (time / (children iter forks : K)) ↔
      (∀ i < iter, forks (i + 1) = true) ∨ NoTime := by
  rw [Option.some.injEq, ← Int.cast_natCast iter, ← Int.cast_natCast (children iter forks),
    quotient_eq_iff, Nat.cast_inj, children_eq_iff, hzero]

/-- An average is over what happened if everything happened, or if the clock stood still. -/
theorem average_iff {freq : K} (hfreq : 0 < freq) (b : Benchmark) (hone : 1 ≤ b.happened) :
    b.result freq = some (b.time freq / b.happened) ↔ b.AllHappen ∨ b.NoTime := by
  cases b with
  | chronoInnerloop iter forks t =>
    have hzero : (t.microseconds : K) = 0 ↔ t.finish < t.start + 1000 := by
      rw [Int.cast_eq_zero, t.microseconds_eq_zero]
    exact average_of_forks hzero
  | chronoOuterloop iter forks t =>
    apply average_of_forks
    have hspent : ∀ i, (0 : K) ≤ (t i).microseconds := by
      intro i
      exact_mod_cast (t i).microseconds_nonneg
    have hzero := forkLoop_eq_zero forks hspent iter le_rfl
    simp only [true_and, Int.cast_eq_zero, Interval.microseconds_eq_zero] at hzero
    exact hzero
  | rtdscInnerloop iter forks t stamps => exact average_of_forks (timed_eq_zero hfreq t stamps)
  | rtdscOuterloop iter forks t stamps =>
    apply average_of_forks
    have hzero := forkLoop_eq_zero forks
      (fun i => timed_nonneg hfreq (t i) (stamps i)) iter le_rfl
    simp only [true_and, timed_eq_zero hfreq] at hzero
    exact hzero
  | fileReading file rand preads t stamps =>
    have hzero := addUp_eq_zero hfreq stamps 0 nIterations t le_rfl
    simp only [true_and, Nat.zero_add] at hzero
    simp only [Benchmark.result, Benchmark.time, Benchmark.happened, Benchmark.AllHappen,
      Benchmark.NoTime]
    rw [startFileReading_eq, Option.some.injEq, ← Int.cast_natCast (fullReads file preads),
      quotient_eq_iff, divisor_eq_iff hone, hzero]

end

/-- The loop of `n + 1` turns in which the `fork` of the first fails and each of the others creates
a child and takes seven microseconds. -/
def firstFails (n : ℕ) : Benchmark :=
  .rtdscOuterloop (n + 1) (fun i => i != n + 1) (fun _ => ⟨0, 0, 0, 0⟩) fun _ => (0, 7)

theorem firstFails_happened (n : ℕ) : (firstFails n).happened = n := by
  have hrest : (List.range n).countP (fun i => i + 1 != n + 1) = (List.range n).length := by
    apply List.countP_eq_length.mpr
    intro i hi
    have hlt : i < n := List.mem_range.mp hi
    exact bne_iff_ne.mpr (by omega)
  calc children (n + 1) (fun i => i != n + 1)
      = (List.range n).countP (fun i => i + 1 != n + 1) +
          [n].countP (fun i => i + 1 != n + 1) := by
        rw [children, List.range_succ, List.countP_append]
    _ = n := by
        rw [hrest, List.length_range]
        simp

theorem firstFails_time {n : ℕ} (hn : 0 < n) : (firstFails n).time (1 : ℚ) ≠ 0 := by
  have hspent : ∀ i : ℕ, 0 ≤ timed (1 : ℚ) ⟨0, 0, 0, 0⟩ (0, 7) := fun _ =>
    timed_nonneg one_pos ⟨0, 0, 0, 0⟩ (0, 7)
  have hfork : (0 + 1 != n + 1) = true := bne_iff_ne.mpr (by omega)
  intro hzero
  have hnone := ((forkLoop_eq_zero _ hspent (n + 1) le_rfl).mp hzero).2
  have hlast := hnone 0 (Nat.succ_pos n) hfork
  exact absurd ((timed_eq_zero one_pos _ _).mp hlast) (by decide)

theorem firstFails_average {n : ℕ} (hn : 0 < n) : (firstFails n).result (1 : ℚ) ≠
    some ((firstFails n).time (1 : ℚ) / (firstFails n).happened) := by
  have hiff := @average_of_forks ℚ _ _ _ (n + 1) (fun i => i != n + 1) _ _
    (iff_false_intro (firstFails_time hn))
  intro h
  have hfork := (hiff.mp h).resolve_right id n (Nat.lt_succ_self n)
  simp at hfork

theorem average_iff_firstFails : (firstFails 9999).result (1 : ℚ) ≠
    some ((firstFails 9999).time (1 : ℚ) / (firstFails 9999).happened) := by
  have hone : 1 ≤ (firstFails 9999).happened := by
    rw [firstFails_happened]
    norm_num
  intro h
  rcases (average_iff one_pos (firstFails 9999) hone).mp h with hall | hnone
  · have hfork : ((9999 + 1 : ℕ) != 9999 + 1) = true := hall 9999 (by norm_num)
    simp at hfork
  · have hstamps : (0 : BitVec 64) = 7 := hnone 0 (by norm_num) rfl
    exact absurd hstamps (by decide)

/-- A `fork` that fails counts in the average as one that takes no time. The program makes 10000
turns. -/
theorem failed_fork_counts : ¬∀ b : Benchmark, 1 ≤ b.happened →
    b.result (1 : ℚ) = some (b.time (1 : ℚ) / b.happened) := by
  intro h
  have hone : 1 ≤ (firstFails 9999).happened := by
    rw [firstFails_happened]
    norm_num
  exact firstFails_average (by norm_num) (h (firstFails 9999) hone)

end SysPerf.LocalAverages
