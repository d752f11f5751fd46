import SysPerf.RamAccess

namespace SysPerf.RamAccess

instance lawfulEqOrdPair : Std.LawfulEqOrd (ℤ ×ₗ ℤ) where
  eq_of_compare {a b} h := by
    rw [Prod.Lex.compare_def, compareLex_eq_eq] at h
    obtain ⟨hfst, hsnd⟩ := h
    exact Prod.ext (Std.LawfulEqOrd.eq_of_compare hfst) (Std.LawfulEqOrd.eq_of_compare hsnd)

section

variable {κ ι ν : Type} [Ord κ] [Std.TransOrd κ] [Std.LawfulEqOrd κ] {key : ι → κ} {val : ι → ν}

theorem getElem?_insert_ne {times : Std.TreeMap κ ν} {k k' : κ} (h : k ≠ k') {v : ν} :
    (times.insert k v)[k']? = times[k']? := by
  rw [Std.TreeMap.getElem?_insert, if_neg fun heq => h (Std.LawfulEqOrd.eq_of_compare heq)]

theorem foldl_insert_of_notMem {items : List ι} {k : κ} (h : ∀ item ∈ items, key item ≠ k)
    (times : Std.TreeMap κ ν) :
    (items.foldl (fun times item => times.insert (key item) (val item)) times)[k]? =
      times[k]? := by
  induction items generalizing times with
  | nil => rfl
  | cons item items ih =>
    rw [List.foldl_cons, ih fun other hother => h other (List.mem_cons_of_mem item hother),
      getElem?_insert_ne (h item (List.mem_cons_self ..))]

/-- Items with different keys do not replace each other. -/
theorem foldl_insert_of_mem {items : List ι} (h : (items.map key).Nodup) {item : ι}
    (hitem : item ∈ items) (times : Std.TreeMap κ ν) :
    (items.foldl (fun times item => times.insert (key item) (val item)) times)[key item]? =
      some (val item) := by
  induction items generalizing times with
  | nil => cases hitem
  | cons first items ih =>
    obtain ⟨hnot, hnodup⟩ := List.nodup_cons.mp h
    rcases List.mem_cons.mp hitem with rfl | hitem
    · have hother : ∀ other ∈ items, key other ≠ key item := by
        intro other hother heq
        exact hnot (heq ▸ List.mem_map_of_mem hother)
      rw [List.foldl_cons, foldl_insert_of_notMem hother, Std.TreeMap.getElem?_insert_self]
    · exact ih hnodup hitem _

end

variable {K : Type} [Field K] {freq : K}

/-- The mean that the runs for `arraySizes[j]` give. -/
def MeasuredFor (freq : K) (env : Env) (j : ℕ) (n s : ℤ) (time : K) : Prop :=
  ∃ calls, runs freq env j n s = some calls ∧ time = meanTime calls

theorem fixedStrideLoop_times {env : Env} {s : ℤ} {j : ℕ} {arraySizes : List ℤ}
    (hnodup : arraySizes.Nodup) {calls calls' : List (Call K)} {times times' : Std.TreeMap ℤ K}
    (h : fixedStrideLoop freq env s j arraySizes calls times = some (calls', times')) :
    (∀ i n, arraySizes[i]? = some n → ∃ time, MeasuredFor freq env (j + i) n s time ∧
      times'[n]? = some time) ∧ ∀ n, n ∉ arraySizes → times'[n]? = times[n]? := by
  induction arraySizes generalizing j calls times with
  | nil =>
    obtain ⟨-, rfl⟩ := Prod.mk.inj (Option.some.inj h)
    exact ⟨by simp, fun n _ => rfl⟩
  | cons m arraySizes ih =>
    obtain ⟨hnot, hnodup⟩ := List.nodup_cons.mp hnodup
    obtain ⟨more, hmore, h⟩ := Option.bind_eq_some_iff.mp h
    obtain ⟨hall, hother⟩ := ih hnodup h
    constructor
    · intro i n hn
      cases i with
      | zero =>
        obtain rfl : m = n := by simpa using hn
        refine ⟨meanTime more, ⟨more, hmore, rfl⟩, ?_⟩
        rw [hother m hnot, Std.TreeMap.getElem?_insert_self]
      | succ i =>
        obtain ⟨time, htime, hget⟩ := hall i n (by simpa using hn)
        rw [Nat.add_assoc, Nat.add_comm 1 i] at htime
        exact ⟨time, htime, hget⟩
    · intro n hn
      obtain ⟨hne, hn⟩ := not_or.mp (List.mem_cons.not.mp hn)
      rw [hother n hn, getElem?_insert_ne (Ne.symm hne)]

/-- The time that the runs for the array size `n` and the stride `s` give. -/
def Measured (freq : K) (env : ℕ → Env) (arraySizes strides : List ℤ) (n s : ℤ) (time : K) : Prop :=
  ∃ i j : ℕ, strides[i]? = some s ∧ arraySizes[j]? = some n ∧ MeasuredFor freq (env i) j n s time

/-- The loop of `memory_access_time` over the items of one stride. -/
theorem table_of_stride {arraySizes : List ℤ} (hnodup : arraySizes.Nodup) {env : Env} {s : ℤ}
    {calls : List (Call K)} {fixed : Std.TreeMap ℤ K}
    (h : memoryAccessTimeFixedStride freq env arraySizes s = some (calls, fixed))
    (times : Std.TreeMap (ℤ ×ₗ ℤ) K) :
    (∀ j n, arraySizes[j]? = some n → ∃ time, MeasuredFor freq env j n s time ∧
      (fixed.toList.foldl (fun times item => times.insert (toLex (item.1, s)) item.2)
        times)[toLex (n, s)]? = some time) ∧
    ∀ n s', s' ≠ s ∨ n ∉ arraySizes →
      (fixed.toList.foldl (fun times item => times.insert (toLex (item.1, s)) item.2)
        times)[toLex (n, s')]? = times[toLex (n, s')]? := by
  obtain ⟨hall, hother⟩ := fixedStrideLoop_times hnodup h
  constructor
  · intro j n hn
    obtain ⟨time, htime, hget⟩ := hall j n hn
    rw [Nat.zero_add] at htime
    have hkeys : (fixed.toList.map fun item => toLex (item.1, s)).Nodup := by
      apply List.pairwise_map.mpr
      apply fixed.distinct_keys_toList.imp
      intro a b hne heq
      have hfst : a.1 = b.1 := congrArg (fun key => (ofLex key).1) heq
      exact hne (by rw [hfst]; exact Std.ReflCmp.compare_self)
    have hitem : (n, time) ∈ fixed.toList := Std.TreeMap.mem_toList_iff_getElem?_eq_some.mpr hget
    exact ⟨time, htime, foldl_insert_of_mem hkeys hitem times⟩
  · intro n s' hne
    apply foldl_insert_of_notMem
    intro item hitem heq
    have hfst : item.1 = n := congrArg (fun key => (ofLex key).1) heq
    have hsnd : s = s' := congrArg (fun key => (ofLex key).2) heq
    rcases hne with hne | hne
    · exact hne hsnd.symm
    · have hget := Std.TreeMap.mem_toList_iff_getElem?_eq_some.mp hitem
      rw [hfst, hother n hne] at hget
      simp at hget

theorem memoryAccessTimeLoop_times {env : ℕ → Env} {arraySizes : List ℤ}
    (hsizes : arraySizes.Nodup) {i : ℕ} {strides : List ℤ} (hstrides : strides.Nodup)
    {times times' : Std.TreeMap (ℤ ×ₗ ℤ) K}
    (h : memoryAccessTimeLoop freq env arraySizes i strides times = some times') :
    (∀ k j s n, strides[k]? = some s → arraySizes[j]? = some n →
      ∃ time, MeasuredFor freq (env (i + k)) j n s time ∧ times'[toLex (n, s)]? = some time) ∧
    ∀ n s, s ∉ strides ∨ n ∉ arraySizes → times'[toLex (n, s)]? = times[toLex (n, s)]? := by
  induction strides generalizing i times with
  | nil =>
    obtain rfl := Option.some.inj h
    exact ⟨by simp, fun n s _ => rfl⟩
  | cons s₀ strides ih =>
    obtain ⟨hnot, hnodup⟩ := List.nodup_cons.mp hstrides
    obtain ⟨⟨calls, fixed⟩, hfixed, h⟩ := Option.bind_eq_some_iff.mp h
    obtain ⟨hall, hother⟩ := ih hnodup h
    obtain ⟨hthis, hrest⟩ := table_of_stride hsizes hfixed times
    constructor
    · intro k j s n hs hn
      cases k with
      | zero =>
        obtain rfl : s₀ = s := by simpa using hs
        obtain ⟨time, htime, hget⟩ := hthis j n hn
        exact ⟨time, htime, by rw [hother n s₀ (Or.inl hnot), hget]⟩
      | succ k =>
        obtain ⟨time, htime, hget⟩ := hall k j s n (by simpa using hs) hn
        rw [Nat.add_assoc, Nat.add_comm 1 k] at htime
        exact ⟨time, htime, hget⟩
    · intro n s hne
      have hne' : s ∉ strides ∨ n ∉ arraySizes :=
        hne.imp_left fun hs hmem => hs (List.mem_cons_of_mem _ hmem)
      rw [hother n s hne']
      apply hrest
      exact hne.imp_left fun hs heq => hs (heq ▸ List.mem_cons_self ..)

/-- The table has a time for each array size and stride, and nothing else. -/
theorem memoryAccessTime_get {env : ℕ → Env} {arraySizes strides : List ℤ}
    (hsizes : arraySizes.Nodup) (hstrides : strides.Nodup) {times : Std.TreeMap (ℤ ×ₗ ℤ) K}
    (h : memoryAccessTime freq env arraySizes strides = some times) :
    (∀ n ∈ arraySizes, ∀ s ∈ strides, ∃ time, Measured freq env arraySizes strides n s time ∧
      times[toLex (n, s)]? = some time) ∧
    ∀ n s time, times[toLex (n, s)]? = some time → n ∈ arraySizes ∧ s ∈ strides := by
  obtain ⟨hall, hother⟩ := memoryAccessTimeLoop_times hsizes hstrides h
  constructor
  · intro n hn s hs
    obtain ⟨j, hj⟩ := List.mem_iff_getElem?.mp hn
    obtain ⟨i, hi⟩ := List.mem_iff_getElem?.mp hs
    obtain ⟨time, htime, hget⟩ := hall i j s n hi hj
    rw [Nat.zero_add] at htime
    exact ⟨time, ⟨i, j, hi, hj, htime⟩, hget⟩
  · intro n s time hget
    by_contra hne
    rw [hother n s (by tauto)] at hget
    simp at hget

end SysPerf.RamAccess
