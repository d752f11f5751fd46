import SysPerf.Dispersion
import SysPerf.StatsRuns

namespace SysPerf.Stats

open Dispersion

section

variable {K : Type} [Field K] {sqrt : K → K}

theorem mean_exact {s : Stats K} (h : s.vals ≠ []) :
    s.mean (Arith.exact sqrt) = some (average s.vals) := by
  have hlen : s.vals.length ≠ 0 := by simpa using h
  unfold mean
  rw [if_neg hlen, foldlM_exact (A := Arith.exact sqrt) (fun _ _ => rfl)]
  show some (s.vals.foldl (· + ·) (0 : K) / s.vals.length) = some (average s.vals)
  rw [← List.sum_eq_foldl]
  rfl

/-- The root that `variance` returns in place of the mean squared deviation. -/
theorem variance_exact {s : Stats K} (h : s.vals ≠ []) :
    s.variance (Arith.exact sqrt) = some (sqrt (deviation s.vals)) := by
  have hlen : s.vals.length ≠ 0 := by simpa using h
  have hsum : s.vals.foldl (fun sum v => sum + (v - average s.vals) ^ 2) 0 =
      (s.vals.map fun v => (v - average s.vals) ^ 2).sum := by
    rw [List.sum_eq_foldl, List.foldl_map]
  unfold variance
  rw [if_neg hlen, mean_exact h]
  show some (sqrt (s.vals.foldl (fun sum v => sum + (v - average s.vals) ^ 2) 0 /
    s.vals.length)) = _
  rw [hsum]
  rfl

theorem stdDev_exact {s : Stats K} (h : s.vals ≠ []) :
    s.stdDev (Arith.exact sqrt) = some (sqrt (sqrt (deviation s.vals))) := by
  unfold stdDev
  rw [variance_exact h]
  rfl

end

/-- The samples after a change of unit and origin. -/
noncomputable def affine (s : Stats ℝ) (c d : ℝ) : Stats ℝ :=
  { s with vals := s.vals.map (c * · + d) }

/-- `variance` is the mean squared deviation, `std_dev` its root, and they scale like these. -/
def SpreadSpec (s : Stats ℝ) : Prop :=
  ∃ m variance stdDev, s.mean (Arith.exact Real.sqrt) = some m ∧
    s.variance (Arith.exact Real.sqrt) = some variance ∧
    s.stdDev (Arith.exact Real.sqrt) = some stdDev ∧
    variance = (s.vals.map fun v => (v - m) ^ 2).sum / s.vals.length ∧
    0 ≤ stdDev ∧ stdDev ^ 2 = variance ∧
    ∀ c d, (s.affine c d).stdDev (Arith.exact Real.sqrt) = some (|c| * stdDev) ∧
      (s.affine c d).variance (Arith.exact Real.sqrt) = some (c ^ 2 * variance)

theorem affine_ne_nil {s : Stats ℝ} (h : s.vals ≠ []) (c d : ℝ) : (s.affine c d).vals ≠ [] := by
  simpa [affine] using h

theorem deviation_affine_vals {s : Stats ℝ} (h : s.vals ≠ []) (c d : ℝ) :
    deviation (s.affine c d).vals = c ^ 2 * deviation s.vals :=
  deviation_affine c d h

theorem deviation_of_spreadSpec {s : Stats ℝ} (h : s.vals ≠ []) (hspec : SpreadSpec s) :
    deviation s.vals = 0 := by
  obtain ⟨m, variance, stdDev, hm, hvariance, -, hsquare, -, -, hscale⟩ := hspec
  obtain rfl : average s.vals = m := Option.some.inj ((mean_exact h).symm.trans hm)
  have hroot : √(deviation s.vals) = deviation s.vals := by
    have := Option.some.inj ((variance_exact h).symm.trans hvariance)
    exact this.trans hsquare
  -- doubling the samples doubles a root, which a factor of four has to match
  have hdouble := (hscale 2 0).2
  rw [variance_exact (affine_ne_nil h 2 0), deviation_affine_vals h] at hdouble
  have hdouble : √(2 ^ 2 * deviation s.vals) = 2 ^ 2 * deviation s.vals := by
    rw [Option.some.inj hdouble, hsquare]
    rfl
  rw [Real.sqrt_mul (by norm_num), Real.sqrt_sq (by norm_num), hroot] at hdouble
  linarith

theorem spreadSpec_of_deviation {s : Stats ℝ} (h : s.vals ≠ []) (hzero : deviation s.vals = 0) :
    SpreadSpec s := by
  have hall : ∀ c d, deviation (s.affine c d).vals = 0 := by
    intro c d
    rw [deviation_affine_vals h, hzero, mul_zero]
  refine ⟨average s.vals, 0, 0, mean_exact h, ?_, ?_, hzero.symm, le_rfl, by norm_num, ?_⟩
  · rw [variance_exact h, hzero, Real.sqrt_zero]
  · rw [stdDev_exact h, hzero, Real.sqrt_zero, Real.sqrt_zero]
  · intro c d
    rw [stdDev_exact (affine_ne_nil h c d), variance_exact (affine_ne_nil h c d), hall]
    simp

/-- Both spreads are what they are named after exactly if there is no spread. -/
theorem spreadSpec_iff {s : Stats ℝ} (h : s.vals ≠ []) :
    SpreadSpec s ↔ ∃ x, ∀ v ∈ s.vals, v = x := by
  rw [← deviation_eq_zero_iff h]
  exact ⟨deviation_of_spreadSpec h, spreadSpec_of_deviation h⟩

/-- Equal samples, and two that differ by two. -/
theorem spreadSpec_iff_pair : SpreadSpec ⟨[3, 3], 2⟩ ∧ ¬SpreadSpec ⟨[0, 2], 2⟩ := by
  constructor
  · apply (spreadSpec_iff (by simp)).mpr
    exact ⟨3, by simp⟩
  · intro hspec
    obtain ⟨x, hx⟩ := (spreadSpec_iff (by simp)).mp hspec
    have h0 : (0 : ℝ) = x := hx 0 (by simp)
    have h2 : (2 : ℝ) = x := hx 2 (by simp)
    linarith

theorem spread_of_two : ¬∀ s : Stats ℝ, s.vals ≠ [] → SpreadSpec s := by
  intro h
  have hne : (⟨[0, 2], 2⟩ : Stats ℝ).vals ≠ [] := by simp
  have hzero := deviation_of_spreadSpec hne (h _ hne)
  norm_num [deviation, average] at hzero

end SysPerf.Stats
