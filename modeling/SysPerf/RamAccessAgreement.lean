import SysPerf.RamAccessVisits

namespace SysPerf.RamAccess

open StrideOrbit

variable {K : Type} [Field K] {freq : K}

variable {byArray byStride : ℤ → Env} {arraySizes strides : List ℤ}

theorem sameVisits_of_filled {n s : ℤ} (hn : n ∈ arraySizes) (hs : s ∈ strides)
    (hrange : InRange arraySizes strides) (h : Filled n s ((byArray n).fresh 0 0)) :
    ∃ fixedArray fixedStride,
      (memoryAccessTimeFixedArraySize freq (byArray n) strides n).map Prod.fst = some fixedArray ∧
        (memoryAccessTimeFixedStride freq (byStride s) arraySizes s).map Prod.fst =
          some fixedStride ∧
        SameVisits n s fixedArray fixedStride := by
  obtain ⟨hpos, hnonneg, -⟩ := hrange n hn s hs
  obtain ⟨k, rfl⟩ := Int.eq_ofNat_of_zero_le hpos.le
  obtain ⟨j, rfl⟩ := Int.eq_ofNat_of_zero_le hnonneg
  have hk : 0 < k := by omega
  obtain ⟨last, hchase⟩ := chase_filled hk h
  obtain ⟨fixedArray, harray, hmap, hvisited⟩ :=
    fixedArray_visits freq (newArray_eq _) hchase strides
  obtain ⟨fixedStride, hstride, hmem, hall⟩ := fixedStride_visits freq
    (fun n hn => ⟨(hrange n hn j hs).1, (hrange n hn j hs).2.2⟩) (byStride j)
  refine ⟨fixedArray, fixedStride, harray, hstride, visits k j 0 nLoads,
    fun idx hidx => visits_inside hk hidx, ?_, hmem k hn, fun c hc _ => hvisited c hc, ?_⟩
  · rw [← hmap] at hs
    obtain ⟨c, hc, heq⟩ := List.mem_map.mp hs
    exact ⟨c, hc, heq⟩
  · intro c hc heq
    rw [hall c hc, heq, Int.toNat_natCast]

theorem filled_of_sameVisits {n s : ℤ} (hn : n ∈ arraySizes) (hs : s ∈ strides)
    (hrange : InRange arraySizes strides) {fixedArray fixedStride : List (Call K)}
    (harray : (memoryAccessTimeFixedArraySize freq (byArray n) strides n).map Prod.fst =
      some fixedArray)
    (hstride : (memoryAccessTimeFixedStride freq (byStride s) arraySizes s).map Prod.fst =
      some fixedStride)
    (h : SameVisits n s fixedArray fixedStride) : Filled n s ((byArray n).fresh 0 0) := by
  obtain ⟨hpos, hnonneg, -⟩ := hrange n hn s hs
  obtain ⟨k, rfl⟩ := Int.eq_ofNat_of_zero_le hpos.le
  obtain ⟨j, rfl⟩ := Int.eq_ofNat_of_zero_le hnonneg
  obtain ⟨visited, -, ⟨c, hc, hcs⟩, ⟨c', hc', hcn⟩, hall, hall'⟩ := h
  obtain ⟨seen, last, hchase⟩ := chase_of_fixedArray (newArray_eq _) hs harray
  obtain ⟨calls, hcalls, -, hseen⟩ :=
    fixedArray_visits freq (newArray_eq _) hchase strides
  obtain ⟨calls', hcalls', -, hvisits⟩ := fixedStride_visits freq
    (fun n hn => ⟨(hrange n hn j hs).1, (hrange n hn j hs).2.2⟩) (byStride j)
  obtain rfl : calls = fixedArray := Option.some.inj (hcalls.symm.trans harray)
  obtain rfl : calls' = fixedStride := Option.some.inj (hcalls'.symm.trans hstride)
  have hseen_eq : seen = visits k j 0 nLoads := by
    rw [← hseen c hc, hall c hc hcs, ← hall' c' hc' hcn, hvisits c' hc', hcn, Int.toNat_natCast]
  rw [hseen_eq] at hchase
  exact filled_of_chase (by omega) hchase

theorem filled_of_driversAgree (hrange : InRange arraySizes strides)
    (h : DriversAgree freq byArray byStride arraySizes strides) {n s : ℤ} (hn : n ∈ arraySizes)
    (hs : s ∈ strides) : Filled n s ((byArray n).fresh 0 0) := by
  obtain ⟨fixedArray, fixedStride, harray, hstride, hsame⟩ := h n hn s hs
  exact filled_of_sameVisits hn hs hrange harray hstride hsame

/-- The drivers agree exactly where memory fresh from `new` already holds what the one of them that
fills its arrays puts where its chase comes to. -/
theorem driversAgree_iff (hrange : InRange arraySizes strides) :
    DriversAgree freq byArray byStride arraySizes strides ↔
      ∀ n ∈ arraySizes, ∀ s ∈ strides, Filled n s ((byArray n).fresh 0 0) := by
  constructor
  · intro h n hn s hs
    exact filled_of_driversAgree hrange h hn hs
  · intro h n hn s hs
    exact sameVisits_of_filled hn hs hrange (h n hn s hs)

/-- Memory that is `fresh` from each `new`. -/
def Env.of (fresh : ℕ → ℤ) : Env :=
  ⟨fun _ _ => fresh, fun _ _ => ⟨0, 0, 0, 0⟩, fun _ _ => (5, 32)⟩

theorem inRange_first : InRange [512] [64] := by
  intro n hn s hs
  obtain rfl := List.mem_singleton.mp hn
  obtain rfl := List.mem_singleton.mp hs
  norm_num

/-- Memory that the other driver has filled for the same stride before. -/
theorem driversAgree_iff_reused : DriversAgree (2700 : ℚ) (fun _ => Env.of fun k => (k + 64) % 512)
    (fun _ => Env.of fun _ => 0) [512] [64] := by
  apply (driversAgree_iff inRange_first).mpr
  intro n hn s hs t _
  obtain rfl := List.mem_singleton.mp hn
  obtain rfl := List.mem_singleton.mp hs
  show ((((t : ℤ) * 64 % 512).toNat : ℤ) + 64) % 512 = (t + 1) * 64 % 512
  omega

/-- In memory of zeros the chase of the driver that does not fill its array stays at 0. -/
theorem driversAgree_zeros : ¬∀ (byArray byStride : ℤ → Env) (arraySizes strides : List ℤ),
    InRange arraySizes strides →
      DriversAgree (2700 : ℚ) byArray byStride arraySizes strides := by
  intro h
  have hagree := h (fun _ => Env.of fun _ => 0) (fun _ => Env.of fun _ => 0) [512] [64]
    inRange_first
  have hfilled := filled_of_driversAgree inRange_first hagree (List.mem_singleton_self _)
    (List.mem_singleton_self _)
  have hzero : (0 : ℤ) = (((0 : ℕ) : ℤ) + 1) * 64 % 512 := hfilled 0 (by unfold nLoads; omega)
  norm_num at hzero

end SysPerf.RamAccess
