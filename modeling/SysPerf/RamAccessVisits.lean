import SysPerf.RamAccessDrivers

namespace SysPerf.RamAccess

open StrideOrbit

variable {K : Type} [Field K] {freq : K}

/-- The loads of a chase are where the loads before them lead. -/
theorem chase_visited {mem : List ℤ} {count : ℕ} {idx last : ℤ} {visited : List ℤ}
    (h : chase mem count idx = some (visited, last)) :
    visited.length = count ∧ (0 < count → visited[0]? = some idx) ∧
      ∀ u cur next, visited[u]? = some cur → visited[u + 1]? = some next →
        load mem cur = some next := by
  induction count generalizing idx visited with
  | zero =>
    obtain ⟨rfl, rfl⟩ := Prod.mk.inj (Option.some.inj h)
    simp
  | succ count ih =>
    obtain ⟨next, hload, h⟩ := Option.bind_eq_some_iff.mp h
    obtain ⟨⟨rest, last'⟩, hrest, heq⟩ := Option.map_eq_some_iff.mp h
    obtain ⟨rfl, rfl⟩ := Prod.mk.inj heq
    obtain ⟨hlen, hzero, hsteps⟩ := ih hrest
    refine ⟨by rw [List.length_cons, hlen], fun _ => rfl, ?_⟩
    intro u cur after hcur hafter
    rw [List.getElem?_cons_succ] at hafter
    cases u with
    | zero =>
      obtain rfl : idx = cur := Option.some.inj hcur
      have hlt : 0 < rest.length := (List.getElem?_eq_some_iff.mp hafter).1
      rw [hzero (by omega)] at hafter
      obtain rfl : next = after := Option.some.inj hafter
      exact hload
    | succ u => exact hsteps u cur after hcur hafter

theorem chase_concat {mem : List ℤ} {count : ℕ} {idx last next : ℤ} {visited : List ℤ}
    (h : chase mem count idx = some (visited, last)) (hload : load mem last = some next) :
    chase mem (count + 1) idx = some (visited ++ [last], next) := by
  induction count generalizing idx visited with
  | zero =>
    obtain ⟨rfl, rfl⟩ := Prod.mk.inj (Option.some.inj h)
    unfold chase
    rw [hload]
    rfl
  | succ count ih =>
    obtain ⟨val, hval, h⟩ := Option.bind_eq_some_iff.mp h
    obtain ⟨⟨rest, last'⟩, hrest, heq⟩ := Option.map_eq_some_iff.mp h
    obtain ⟨rfl, rfl⟩ := Prod.mk.inj heq
    unfold chase
    rw [hval, Option.bind_some, ih hrest]
    rfl

theorem visits_concat (n s count : ℕ) :
    visits n s 0 (count + 1) = visits n s 0 count ++ [((place n s (0 + count) : ℕ) : ℤ)] := by
  unfold visits
  rw [List.range_succ, List.map_append]
  rfl

theorem place_natCast (n s t : ℕ) : ((place n s t : ℕ) : ℤ) = t * s % n := by
  unfold place
  push_cast
  rfl

theorem visits_get {n s count u : ℕ} (h : u < count) :
    (visits n s 0 count)[u]? = some ((place n s u : ℕ) : ℤ) := by
  simp [visits, h]

theorem visits_inside {n s count : ℕ} (hn : 0 < n) {idx : ℤ} (h : idx ∈ visits n s 0 count) :
    0 ≤ idx ∧ idx < n := by
  obtain ⟨u, -, rfl⟩ := List.mem_map.mp h
  have hlt := place_lt (s := s) hn (0 + u)
  omega

theorem fresh_get {n k : ℕ} (h : k < n) (fresh : ℕ → ℤ) :
    ((List.range n).map fresh)[k]? = some (fresh k) := by
  simp [h]

/-- Memory that leads the chase where the filled array does sends it to the same indices; where the
last load leads does not matter. -/
theorem chase_filled {n s : ℕ} (hn : 0 < n) {fresh : ℕ → ℤ} (h : Filled n s fresh) :
    ∃ last, chase ((List.range n).map fresh) nLoads 0 = some (visits n s 0 nLoads, last) := by
  have hnext : ∀ u < nLoads - 1, ((List.range n).map fresh)[place n s (0 + u)]? =
      some ((place n s (0 + u + 1) : ℕ) : ℤ) := by
    intro u hu
    have hfresh := h u (by omega)
    rw [← place_natCast, Int.toNat_natCast] at hfresh
    rw [Nat.zero_add, fresh_get (place_lt hn u), hfresh, place_natCast, Nat.cast_succ]
  have hchase := chase_place hnext
  have hlast : load ((List.range n).map fresh) (place n s (0 + (nLoads - 1)) : ℕ) =
      some (fresh (place n s (0 + (nLoads - 1)))) := by
    rw [load_natCast, fresh_get (place_lt hn _)]
  have hconcat := chase_concat hchase hlast
  rw [place_zero, ← visits_concat] at hconcat
  exact ⟨_, hconcat⟩

theorem filled_of_chase {n s : ℕ} (hn : 0 < n) {fresh : ℕ → ℤ} {last : ℤ}
    (h : chase ((List.range n).map fresh) nLoads 0 = some (visits n s 0 nLoads, last)) :
    Filled n s fresh := by
  intro t ht
  obtain ⟨-, -, hsteps⟩ := chase_visited h
  have hload := hsteps t _ _ (visits_get (by omega)) (visits_get ht)
  rw [load_natCast, fresh_get (place_lt hn t)] at hload
  have hfresh := Option.some.inj hload
  rw [← place_natCast, Int.toNat_natCast, hfresh, place_natCast, Nat.cast_succ]

/-- What `memory_access_time_fixed_stride` calls does not depend on the memory it is given. -/
theorem fixedStride_visits (freq : K) {arraySizes : List ℤ} {s : ℕ}
    (hrange : ∀ n ∈ arraySizes, 0 < n ∧ n - 1 + s < 2 ^ 31) (env : Env) :
    ∃ calls, (memoryAccessTimeFixedStride freq env arraySizes s).map Prod.fst = some calls ∧
      (∀ n ∈ arraySizes, ∃ c ∈ calls, c.arraySize = n) ∧
        ∀ c ∈ calls, c.visited = visits c.arraySize.toNat s 0 nLoads := by
  obtain ⟨calls, times, hloop, hmem, hall⟩ :=
    fixedStrideLoop_calls freq env 0 hrange [] ∅
  refine ⟨calls, ?_, hmem, hall⟩
  unfold memoryAccessTimeFixedStride
  rw [hloop]
  rfl

theorem fixedArray_visits (freq : K) {mem visited : List ℤ} {last : ℤ} {env : Env} {n : ℤ}
    (hmem : newArray n (env.fresh 0 0) = some mem)
    (h : chase mem nLoads 0 = some (visited, last)) (strides : List ℤ) :
    ∃ calls, (memoryAccessTimeFixedArraySize freq env strides n).map Prod.fst = some calls ∧
      calls.map Call.stride = strides ∧ ∀ c ∈ calls, c.visited = visited := by
  obtain ⟨calls, times, hloop, hmap, hall⟩ :=
    fixedArraySizeLoop_calls freq h env n 0 strides [] ∅
  refine ⟨calls, ?_, hmap, hall⟩
  unfold memoryAccessTimeFixedArraySize
  rw [hmem, Option.bind_some, hloop]
  rfl

theorem chase_of_fixedArray {mem : List ℤ} {env : Env} {n s : ℤ} {strides : List ℤ}
    {calls : List (Call K)} (hmem : newArray n (env.fresh 0 0) = some mem) (hs : s ∈ strides)
    (h : (memoryAccessTimeFixedArraySize freq env strides n).map Prod.fst = some calls) :
    ∃ visited last, chase mem nLoads 0 = some (visited, last) := by
  obtain ⟨r, h, -⟩ := Option.map_eq_some_iff.mp h
  unfold memoryAccessTimeFixedArraySize at h
  rw [hmem, Option.bind_some] at h
  cases strides with
  | nil => cases hs
  | cons first strides => exact chase_of_fixedArraySizeLoop h

end SysPerf.RamAccess
