import Mathlib.Algebra.BigOperators.Ring.List
import Mathlib.Algebra.CharZero.Defs
import Mathlib.Algebra.Order.BigOperators.Group.List
import Mathlib.Algebra.Order.Field.Basic
import Mathlib.Tactic.FieldSimp
import Mathlib.Tactic.Ring

namespace SysPerf.Dispersion

variable {K : Type} [Field K]

def average (vals : List K) : K :=
  vals.sum / vals.length

/-- The mean squared deviation from the average: the population variance. -/
def deviation (vals : List K) : K :=
  (vals.map fun v => (v - average vals) ^ 2).sum / vals.length

theorem average_map_mul (c : K) (vals : List K) :
    average (vals.map (c * ·)) = c * average vals := by
  unfold average
  rw [List.length_map, List.sum_map_mul_left, List.map_id']
  ring

section

variable [CharZero K]

theorem average_affine (c d : K) {vals : List K} (h : vals ≠ []) :
    average (vals.map (c * · + d)) = c * average vals + d := by
  have hlen : (vals.length : K) ≠ 0 := by simpa using h
  unfold average
  rw [List.length_map, List.sum_map_add, List.sum_map_mul_left, List.map_id', List.map_const',
    List.sum_replicate, nsmul_eq_mul]
  field_simp

/-- A shift leaves the deviation and a factor enters it squared. -/
theorem deviation_affine (c d : K) {vals : List K} (h : vals ≠ []) :
    deviation (vals.map (c * · + d)) = c ^ 2 * deviation vals := by
  have hsquare : ((vals.map (c * · + d)).map fun v => (v - average (vals.map (c * · + d))) ^ 2) =
      vals.map fun v => c ^ 2 * (v - average vals) ^ 2 := by
    rw [List.map_map, average_affine c d h]
    apply List.map_congr_left
    intro v _
    simp only [Function.comp_apply]
    ring
  unfold deviation
  rw [hsquare, List.length_map, List.sum_map_mul_left]
  ring

end

section

variable [LinearOrder K] [IsStrictOrderedRing K]

/-- Only values that are all the same have no deviation. -/
theorem deviation_eq_zero_iff {vals : List K} (h : vals ≠ []) :
    deviation vals = 0 ↔ ∃ x, ∀ v ∈ vals, v = x := by
  have hlen : (vals.length : K) ≠ 0 := by simpa using h
  constructor
  · intro hzero
    have hsum : (vals.map fun v => (v - average vals) ^ 2).sum = 0 := by
      rcases div_eq_zero_iff.mp hzero with hsum | hbad
      · exact hsum
      · exact absurd hbad hlen
    refine ⟨average vals, ?_⟩
    intro v hv
    have hnonneg : ∀ x ∈ vals.map fun v => (v - average vals) ^ 2, 0 ≤ x := by
      intro x hx
      obtain ⟨w, -, rfl⟩ := List.mem_map.mp hx
      exact sq_nonneg _
    have hsq : (v - average vals) ^ 2 = 0 :=
      List.all_zero_of_le_zero_le_of_sum_eq_zero hnonneg hsum (List.mem_map.mpr ⟨v, hv, rfl⟩)
    exact sub_eq_zero.mp (pow_eq_zero_iff (by omega) |>.mp hsq)
  · rintro ⟨x, hx⟩
    have haverage : average vals = x := by
      unfold average
      rw [List.eq_replicate_of_mem hx, List.sum_replicate, List.length_replicate, nsmul_eq_mul]
      field_simp
    unfold deviation
    rw [haverage]
    have hmap : (vals.map fun v => (v - x) ^ 2) = vals.map fun _ => (0 : K) := by
      apply List.map_congr_left
      intro v hv
      rw [hx v hv]
      ring
    simp [hmap]

end

end SysPerf.Dispersion
