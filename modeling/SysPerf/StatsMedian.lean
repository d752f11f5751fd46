import SysPerf.StatsRuns

namespace SysPerf.Stats

open MachineInt OrderStats

section

variable {T D : Type} [LinearOrder T] {A : Arith T D} {vals : List T}

theorem median_eq_middle [Field D] {s : Stats T} (h : s.vals ≠ []) :
    (s.median A).2 = middle A (sort s.vals) := by
  have hlen : s.vals.length ≠ 0 := by simpa using h
  simp [median, hlen]

theorem elemAt_sort {i : ℤ} {x : T} (h : elemAt (sort vals) i = some x) :
    Ranked vals (i.toNat + 1) x := by
  unfold elemAt at h
  split at h
  next => cases h
  next => exact ranked_sort h

theorem exists_elemAt_sort (vals : List T) {i : ℤ} (h : 0 ≤ i) (hlt : i < vals.length) :
    ∃ x, elemAt (sort vals) i = some x := by
  obtain ⟨x, hx⟩ := exists_sort_get vals (k := i.toNat) (by omega)
  refine ⟨x, ?_⟩
  unfold elemAt
  rw [if_neg (by omega), hx]

theorem middle_of_odd (h : vals.length % 2 = 1) :
    ∃ x, Ranked vals ((vals.length + 1) / 2) x ∧ middle A (sort vals) = some (A.toDouble x) := by
  obtain ⟨x, hx⟩ := exists_sort_get vals (k := vals.length / 2) (by omega)
  refine ⟨x, ?_, ?_⟩
  · have hrank := ranked_sort hx
    rwa [show vals.length / 2 + 1 = (vals.length + 1) / 2 by omega] at hrank
  · simp [middle, h, hx]

/-- The index that `median` computes for the upper of two middle samples. -/
def mid (vals : List T) : ℤ :=
  toInt (vals.length / 2 : ℕ)

omit [LinearOrder T] in
theorem mid_le (vals : List T) : mid vals ≤ (vals.length / 2 : ℕ) :=
  toInt_le (by omega)

omit [LinearOrder T] in
theorem mid_eq (h : vals.length < 2 ^ 32) : mid vals = (vals.length / 2 : ℕ) := by
  apply toInt_eq_self
  unfold FitsInt
  omega

omit [LinearOrder T] in
/-- From `2 ^ 32` samples on, `median` takes its pair from below the middle. -/
theorem mid_lt (h : 2 ^ 32 ≤ vals.length) : mid vals + 1 ≤ (vals.length / 2 : ℕ) := by
  have := toInt_le_sub (z := (vals.length / 2 : ℕ)) (by omega)
  unfold mid
  omega

theorem middle_of_even (heven : vals.length % 2 = 0) :
    middle A (sort vals) = (elemAt (sort vals) (mid vals)).bind fun x =>
      (elemAt (sort vals) (mid vals - 1)).bind fun y => (A.add x y).map A.half := by
  unfold middle mid
  rw [if_neg (by simp [heven]), sort_length]

theorem middle_of_mid (heven : vals.length % 2 = 0) (h : 1 ≤ mid vals) :
    ∃ x y, Ranked vals (mid vals).toNat x ∧ Ranked vals ((mid vals).toNat + 1) y ∧
      middle A (sort vals) = (A.add y x).map A.half := by
  have hle := mid_le vals
  obtain ⟨y, hy⟩ := exists_elemAt_sort vals (i := mid vals) (by omega) (by omega)
  obtain ⟨x, hx⟩ := exists_elemAt_sort vals (i := mid vals - 1) (by omega) (by omega)
  refine ⟨x, y, ?_, elemAt_sort hy, ?_⟩
  · have hrank := elemAt_sort hx
    rwa [show (mid vals - 1).toNat + 1 = (mid vals).toNat by omega] at hrank
  · rw [middle_of_even heven, hx, hy]
    rfl

/-- A half of the size that wraps to a negative int takes `median` out of the vector. -/
theorem middle_of_not_mid (heven : vals.length % 2 = 0) (h : mid vals < 1) :
    middle A (sort vals) = none := by
  have hlow : elemAt (sort vals) (mid vals - 1) = none := by
    unfold elemAt
    rw [if_pos (by omega)]
  rw [middle_of_even heven, hlow]
  cases elemAt (sort vals) (mid vals) <;> rfl

end

/-- `median` stays inside the vector and returns the sample in the middle, or the average of the
two in the middle, with half of the samples on each side. -/
def MedianSpec (s : Stats ℝ) : Prop :=
  ∃ r, (s.median (Arith.exact Real.sqrt)).2 = some r ∧ (s.vals ≠ [] →
    (s.vals.length % 2 = 1 → Ranked s.vals ((s.vals.length + 1) / 2) r) ∧
    (s.vals.length % 2 = 0 → ∃ x y, Ranked s.vals (s.vals.length / 2) x ∧
      Ranked s.vals (s.vals.length / 2 + 1) y ∧ r + r = x + y) ∧ Central s.vals r)

theorem medianSpec_of_odd {s : Stats ℝ} (h : s.vals.length % 2 = 1) : MedianSpec s := by
  have hne : s.vals ≠ [] := by
    intro hnil
    simp [hnil] at h
  obtain ⟨r, hrank, hr⟩ := middle_of_odd (A := Arith.exact Real.sqrt) h
  refine ⟨r, (median_eq_middle hne).trans hr, fun _ => ⟨fun _ => hrank, ?_, ?_⟩⟩
  · intro heven
    omega
  · exact central_of_ranked hrank hrank le_rfl le_rfl (by omega) (by omega)

theorem medianSpec_of_average {s : Stats ℝ} {x y : ℝ} (heven : s.vals.length % 2 = 0)
    (hx : Ranked s.vals (s.vals.length / 2) x) (hy : Ranked s.vals (s.vals.length / 2 + 1) y)
    (hr : (s.median (Arith.exact Real.sqrt)).2 = some ((x + y) / 2)) : MedianSpec s := by
  have hxy : x ≤ y := hx.mono hy (by omega)
  refine ⟨(x + y) / 2, hr, fun _ => ⟨?_, fun _ => ⟨x, y, hx, hy, add_halves _⟩, ?_⟩⟩
  · intro hodd
    omega
  · exact central_of_ranked hx hy (by linarith) (by linarith) (by omega) (by omega)

theorem not_medianSpec_of_mid {s : Stats ℝ} (hne : s.vals ≠ []) (heven : s.vals.length % 2 = 0)
    (h : mid s.vals < 1) : ¬MedianSpec s := by
  rintro ⟨r, hr, -⟩
  rw [median_eq_middle hne, middle_of_not_mid heven h] at hr
  cases hr

theorem median_of_mid {s : Stats ℝ} (heven : s.vals.length % 2 = 0) (hmid : 1 ≤ mid s.vals) :
    ∃ x y, Ranked s.vals (mid s.vals).toNat x ∧ Ranked s.vals ((mid s.vals).toNat + 1) y ∧
      (s.median (Arith.exact Real.sqrt)).2 = some ((x + y) / 2) := by
  obtain ⟨x, y, hx, hy, hmiddle⟩ := middle_of_mid (A := Arith.exact Real.sqrt) heven hmid
  have hne : s.vals ≠ [] := List.ne_nil_of_mem hx.1
  refine ⟨x, y, hx, hy, ?_⟩
  rw [median_eq_middle hne, hmiddle, add_comm x y]
  rfl

theorem medianSpec_of_lt {s : Stats ℝ} (h : s.vals.length < 2 ^ 32) : MedianSpec s := by
  rcases Nat.mod_two_eq_zero_or_one s.vals.length with heven | hodd
  · by_cases hne : s.vals = []
    · exact ⟨0, by simp [median, hne], fun h => absurd hne h⟩
    · have hpos : 0 < s.vals.length := List.length_pos_iff.mpr hne
      have hmid := mid_eq h
      obtain ⟨x, y, hx, hy, hmedian⟩ := median_of_mid heven (by omega)
      rw [show (mid s.vals).toNat = s.vals.length / 2 by omega] at hx hy
      exact medianSpec_of_average heven hx hy hmedian
  · exact medianSpec_of_odd hodd

/-- A pair from below the middle averages to the median where all of them are one value. -/
theorem medianSpec_iff_of_ge {s : Stats ℝ} (heven : s.vals.length % 2 = 0)
    (h : 2 ^ 32 ≤ s.vals.length) (hmid : 1 ≤ mid s.vals) :
    MedianSpec s ↔ ∃ x, Ranked s.vals (mid s.vals).toNat x ∧
      Ranked s.vals (s.vals.length / 2 + 1) x := by
  obtain ⟨x, y, hx, hy, hmedian⟩ := median_of_mid heven hmid
  have hfar := mid_lt h
  have hxy : x ≤ y := hx.mono hy (by omega)
  constructor
  · rintro ⟨r, hr, hspec⟩
    obtain ⟨-, haverage, -⟩ := hspec (List.ne_nil_of_mem hx.1)
    obtain ⟨u, v, hu, hv, huv⟩ := haverage heven
    have hsum : x + y = u + v := by
      have := Option.some.inj (hmedian.symm.trans hr)
      linarith
    have hyu : y ≤ u := hy.mono hu (by omega)
    have huv : u ≤ v := hu.mono hv (by omega)
    obtain rfl : x = v := by linarith
    exact ⟨x, hx, hv⟩
  · rintro ⟨z, hz, hv⟩
    obtain rfl := hx.unique hz
    obtain ⟨u, hu⟩ := exists_sort_get s.vals (k := s.vals.length / 2 - 1) (by omega)
    have hu := ranked_sort hu
    rw [show s.vals.length / 2 - 1 + 1 = s.vals.length / 2 by omega] at hu
    obtain rfl : u = x := le_antisymm (hu.mono hv (by omega)) (hx.mono hu (by omega))
    obtain rfl : y = u := le_antisymm (hy.mono hv (by omega)) hxy
    exact medianSpec_of_average heven hu hv hmedian

theorem medianSpec_iff (s : Stats ℝ) :
    MedianSpec s ↔ s.vals.length % 2 = 1 ∨ s.vals.length < 2 ^ 32 ∨
      1 ≤ mid s.vals ∧ ∃ x, Ranked s.vals (mid s.vals).toNat x ∧
        Ranked s.vals (s.vals.length / 2 + 1) x := by
  rcases Nat.mod_two_eq_zero_or_one s.vals.length with heven | hodd
  · rcases Nat.lt_or_ge s.vals.length (2 ^ 32) with hlt | hge
    · exact iff_of_true (medianSpec_of_lt hlt) (Or.inr (Or.inl hlt))
    · have hne : s.vals ≠ [] := List.ne_nil_of_length_pos (by omega)
      by_cases hmid : 1 ≤ mid s.vals
      · rw [medianSpec_iff_of_ge heven hge hmid]
        constructor
        · intro h
          exact Or.inr (Or.inr ⟨hmid, h⟩)
        · rintro (h | h | ⟨-, h⟩)
          · omega
          · omega
          · exact h
      · refine iff_of_false (not_medianSpec_of_mid hne heven (by omega)) ?_
        rintro (h | h | ⟨h, -⟩)
        · omega
        · omega
        · exact hmid h
  · exact iff_of_true (medianSpec_of_odd hodd) (Or.inl hodd)

theorem median_outside : ¬∀ s : Stats ℝ, MedianSpec s := by
  intro h
  obtain ⟨vals, hlen⟩ : ∃ vals : List ℝ, vals.length = 2 ^ 32 :=
    ⟨List.replicate (2 ^ 32) 0, List.length_replicate⟩
  have hmid : mid vals = -2 ^ 31 := by
    unfold mid
    rw [hlen]
    norm_num [toInt]
  apply not_medianSpec_of_mid (s := ⟨vals, 2 ^ 30⟩) _ _ _ (h _)
  · exact List.ne_nil_of_length_pos (by rw [hlen]; norm_num)
  · show vals.length % 2 = 0
    omega
  · show mid vals < 1
    omega

end SysPerf.Stats
