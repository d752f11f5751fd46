import SysPerf.RamAccessChase

namespace SysPerf.RamAccess

open StrideOrbit

variable {K : Type} [Field K] {freq : K}

/-- The calls of both drivers for the array size `n` and the stride `s` load from the same indices,
all of them inside the array. -/
def SameVisits (n s : ℤ) (fixedArray fixedStride : List (Call K)) : Prop :=
  ∃ visited : List ℤ, (∀ idx ∈ visited, 0 ≤ idx ∧ idx < n) ∧
    (∃ c ∈ fixedArray, c.stride = s) ∧ (∃ c ∈ fixedStride, c.arraySize = n) ∧
    (∀ c ∈ fixedArray, c.stride = s → c.visited = visited) ∧
    ∀ c ∈ fixedStride, c.arraySize = n → c.visited = visited

/-- `byArray n` is what `memory_access_time_fixed_array_size(n)` meets, and `byStride s` what
`memory_access_time_fixed_stride(s)` meets. -/
def DriversAgree (freq : K) (byArray byStride : ℤ → Env) (arraySizes strides : List ℤ) : Prop :=
  ∀ n ∈ arraySizes, ∀ s ∈ strides, ∃ fixedArray fixedStride,
    (memoryAccessTimeFixedArraySize freq (byArray n) strides n).map Prod.fst = some fixedArray ∧
      (memoryAccessTimeFixedStride freq (byStride s) arraySizes s).map Prod.fst =
        some fixedStride ∧
      SameVisits n s fixedArray fixedStride

/-- The memory that `new` returns already leads the chase through `n` elements from each multiple
of the stride to the next, as long as another load follows. -/
def Filled (n s : ℤ) (fresh : ℕ → ℤ) : Prop :=
  ∀ t : ℕ, t + 1 < nLoads → fresh (t * s % n).toNat = (t + 1) * s % n

/-- The sizes and strides without an overflow in `k + stride`. -/
def InRange (arraySizes strides : List ℤ) : Prop :=
  ∀ n ∈ arraySizes, ∀ s ∈ strides, 0 < n ∧ 0 ≤ s ∧ n - 1 + s < 2 ^ 31

theorem fixedArraySizeLoop_calls (freq : K) {mem visited : List ℤ} {last : ℤ}
    (h : chase mem nLoads 0 = some (visited, last)) (env : Env) (n : ℤ) (j : ℕ) (strides : List ℤ)
    (calls : List (Call K)) (times : Std.TreeMap ℤ K) :
    ∃ more times', fixedArraySizeLoop freq env mem n j strides calls times =
      some (calls ++ more, times') ∧ more.map Call.stride = strides ∧
        ∀ c ∈ more, c.visited = visited := by
  induction strides generalizing j calls times with
  | nil => exact ⟨[], times, by rw [List.append_nil]; rfl, rfl, by simp⟩
  | cons s strides ih =>
    obtain ⟨call, hcall, hstride, hvisited⟩ : ∃ call, memoryAccessTimeGivenStrideArraysize freq
        (env.timer j 0) (env.stamps j 0) mem n s = some call ∧ call.stride = s ∧
          call.visited = visited := by
      unfold memoryAccessTimeGivenStrideArraysize
      rw [h]
      exact ⟨_, rfl, rfl, rfl⟩
    obtain ⟨more, times', hloop, hmap, hall⟩ :=
      ih (j + 1) (calls ++ [call]) (times.insert s call.time)
    refine ⟨call :: more, times', ?_, ?_, ?_⟩
    · unfold fixedArraySizeLoop
      rw [hcall, Option.bind_some, hloop, List.append_assoc]
      rfl
    · rw [List.map_cons, hmap, hstride]
    · intro c hc
      rcases List.mem_cons.mp hc with rfl | hc
      · exact hvisited
      · exact hall c hc

theorem chase_of_fixedArraySizeLoop {env : Env} {mem : List ℤ} {n s : ℤ} {j : ℕ}
    {strides : List ℤ} {calls : List (Call K)} {times : Std.TreeMap ℤ K}
    {r : List (Call K) × Std.TreeMap ℤ K}
    (h : fixedArraySizeLoop freq env mem n j (s :: strides) calls times = some r) :
    ∃ visited last, chase mem nLoads 0 = some (visited, last) := by
  obtain ⟨call, hcall, -⟩ := Option.bind_eq_some_iff.mp h
  obtain ⟨⟨visited, last⟩, hchase, -⟩ := Option.map_eq_some_iff.mp hcall
  exact ⟨visited, last, hchase⟩

/-- What the run `i` for `n` elements and the stride `s` is. -/
def runCall (freq : K) (env : Env) (j n s i : ℕ) : Call K :=
  ⟨n, s, visits n s 0 nLoads, (((env.timer j i).begin (env.stamps j i).1).end'
    (env.stamps j i).2).timeDiffNano freq / nLoads⟩

theorem runs_eq (freq : K) {n s : ℕ} (hn : 0 < n) (hfits : n - 1 + s < 2 ^ 31) (env : Env) (j : ℕ) :
    runs freq env j n s = some ((List.range nRuns).map (runCall freq env j n s)) := by
  have hrun : ∀ i, (filledArray n s (env.fresh j i)).bind (fun mem =>
      memoryAccessTimeGivenStrideArraysize freq (env.timer j i) (env.stamps j i) mem n s) =
        some (runCall freq env j n s i) := by
    intro i
    rw [filledArray_eq hn hfits, Option.bind_some]
    unfold memoryAccessTimeGivenStrideArraysize
    rw [chase_chain hn]
    rfl
  unfold runs
  simp only [hrun]
  exact List.mapM_pure

/-- The calls of a whole list of array sizes. -/
theorem fixedStrideLoop_calls (freq : K) {s : ℕ} (env : Env) (j : ℕ) {arraySizes : List ℤ}
    (hrange : ∀ n ∈ arraySizes, 0 < n ∧ n - 1 + s < 2 ^ 31) (calls : List (Call K))
    (times : Std.TreeMap ℤ K) :
    ∃ more times', fixedStrideLoop freq env s j arraySizes calls times =
      some (calls ++ more, times') ∧ (∀ n ∈ arraySizes, ∃ c ∈ more, c.arraySize = n) ∧
        ∀ c ∈ more, c.visited = visits c.arraySize.toNat s 0 nLoads := by
  induction arraySizes generalizing j calls times with
  | nil => exact ⟨[], times, by rw [List.append_nil]; rfl, by simp, by simp⟩
  | cons n arraySizes ih =>
    obtain ⟨hn, hfits⟩ := hrange n (List.mem_cons_self ..)
    obtain ⟨k, rfl⟩ := Int.eq_ofNat_of_zero_le hn.le
    have hruns := runs_eq freq (n := k) (s := s) (by omega) (by omega) env j
    obtain ⟨more, times', hloop, hmem, hall⟩ := ih (j + 1)
      (fun m hm => hrange m (List.mem_cons_of_mem _ hm))
      (calls ++ (List.range nRuns).map (runCall freq env j k s))
      (times.insert k (meanTime ((List.range nRuns).map (runCall freq env j k s))))
    refine ⟨(List.range nRuns).map (runCall freq env j k s) ++ more, times', ?_, ?_, ?_⟩
    · unfold fixedStrideLoop
      rw [hruns, Option.bind_some, hloop, List.append_assoc]
    · intro m hm
      rcases List.mem_cons.mp hm with rfl | hm
      · exact ⟨runCall freq env j k s 0,
          List.mem_append_left _ (List.mem_map_of_mem (List.mem_range.mpr (by decide))), rfl⟩
      · obtain ⟨c, hc, heq⟩ := hmem m hm
        exact ⟨c, List.mem_append_right _ hc, heq⟩
    · intro c hc
      rcases List.mem_append.mp hc with hc | hc
      · obtain ⟨i, -, rfl⟩ := List.mem_map.mp hc
        simp only [runCall, Int.toNat_natCast]
      · exact hall c hc

end SysPerf.RamAccess
