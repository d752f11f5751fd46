import SysPerf.StatsMedian
import SysPerf.StatsSpread

namespace SysPerf.Stats

open MachineInt OrderStats Dispersion

variable {K : Type} [Field K] {sqrt : K → K}

/-- The samples in another unit. -/
def scaled (c : K) (s : Stats K) : Stats K :=
  { s with vals := s.vals.map (c * ·) }

theorem mean_scaled (c : K) (s : Stats K) :
    (s.scaled c).mean (Arith.exact sqrt) = (s.mean (Arith.exact sqrt)).map (c * ·) := by
  by_cases h : s.vals = []
  · simp [mean, scaled, h]
  · have hscaled : (s.scaled c).vals ≠ [] := by simpa [scaled] using h
    rw [mean_exact h, mean_exact hscaled]
    show some (average (s.vals.map (c * ·))) = some (c * average s.vals)
    rw [average_map_mul]

theorem elemAt_map {α β : Type} (f : α → β) (vals : List α) (i : ℤ) :
    elemAt (vals.map f) i = (elemAt vals i).map f := by
  unfold elemAt
  split
  next => rfl
  next => rw [List.getElem?_map]

theorem middle_scaled (c : K) (vals : List K) :
    middle (Arith.exact sqrt) (vals.map (c * ·)) =
      (middle (Arith.exact sqrt) vals).map (c * ·) := by
  unfold middle
  rw [List.length_map]
  split
  next =>
    rw [List.getElem?_map, Option.map_map, Option.map_map]
    rfl
  next =>
    dsimp only
    rw [elemAt_map, elemAt_map]
    cases elemAt vals (toInt (vals.length / 2 : ℕ)) with
    | none => rfl
    | some x =>
      cases elemAt vals (toInt (vals.length / 2 : ℕ) - 1) with
      | none => rfl
      | some y =>
        show some ((c * x + c * y) / 2) = some (c * ((x + y) / 2))
        rw [← mul_add, mul_div_assoc]

theorem median_scaled [LinearOrder K] [IsStrictOrderedRing K] {c : K} (hc : 0 < c) (s : Stats K) :
    ((s.scaled c).median (Arith.exact sqrt)).2 =
      (s.median (Arith.exact sqrt)).2.map (c * ·) := by
  by_cases h : s.vals = []
  · simp [median, scaled, h]
  · have hscaled : (s.scaled c).vals ≠ [] := by simpa [scaled] using h
    have hmono : StrictMono fun x : K => c * x := fun _ _ hlt => mul_lt_mul_of_pos_left hlt hc
    rw [median_eq_middle h, median_eq_middle hscaled]
    show middle _ (sort (s.vals.map (c * ·))) = _
    rw [sort_map hmono, middle_scaled]

/-- With fewer than `2 ^ 32` samples both reports have a value. -/
theorem exists_reports [LinearOrder K] (sqrt : K → K) (s : Stats K) (h : s.vals.length < 2 ^ 32) :
    (∃ m, s.mean (Arith.exact sqrt) = some m) ∧
      ∃ m, (s.median (Arith.exact sqrt)).2 = some m := by
  by_cases hne : s.vals = []
  · exact ⟨⟨0, by simp [mean, hne]⟩, ⟨0, by simp [median, hne]⟩⟩
  · refine ⟨⟨_, mean_exact hne⟩, ?_⟩
    rw [median_eq_middle hne]
    have hpos : 0 < s.vals.length := List.length_pos_iff.mpr hne
    rcases Nat.mod_two_eq_zero_or_one s.vals.length with heven | hodd
    · have hmid := mid_eq h
      obtain ⟨x, y, -, -, hmiddle⟩ :=
        middle_of_mid (A := Arith.exact sqrt) heven (by omega)
      exact ⟨_, hmiddle⟩
    · obtain ⟨x, -, hmiddle⟩ := middle_of_odd (A := Arith.exact sqrt) hodd
      exact ⟨_, hmiddle⟩

/-- The reports on `scaled` are those on `s` times `c`. -/
def ReportsScale [LinearOrder K] (sqrt : K → K) (c : K) (s scaled : Stats K) : Prop :=
  (∃ m, s.mean (Arith.exact sqrt) = some m ∧ scaled.mean (Arith.exact sqrt) = some (c * m)) ∧
    ∃ m, (s.median (Arith.exact sqrt)).2 = some m ∧
      (scaled.median (Arith.exact sqrt)).2 = some (c * m)

theorem reportsScale_scaled [LinearOrder K] [IsStrictOrderedRing K] {c : K} (hc : 0 < c)
    {s : Stats K} (h : s.vals.length < 2 ^ 32) : ReportsScale sqrt c s (s.scaled c) := by
  obtain ⟨⟨m, hm⟩, ⟨m', hm'⟩⟩ := exists_reports sqrt s h
  constructor
  · refine ⟨m, hm, ?_⟩
    rw [mean_scaled, hm]
    rfl
  · refine ⟨m', hm', ?_⟩
    rw [median_scaled hc, hm']
    rfl

theorem runFunc_reset {T : Type} (s : Stats T) (func : ℕ → T) :
    (s.resetVals.runFunc func).1 = { s with vals := (List.range s.runs.toNat).map func } := by
  simp [runFunc, runLoop_eq, resetVals, List.range_eq_range']

end SysPerf.Stats
