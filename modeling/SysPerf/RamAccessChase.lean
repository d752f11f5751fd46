import SysPerf.RamAccess
import SysPerf.StrideOrbit

namespace SysPerf.RamAccess

open FileBlocks (checkInt)
open MachineInt StrideOrbit

variable {n s : ℕ}

/-- The array that sends each index `s` places on. -/
def chain (n s : ℕ) : List ℤ :=
  (List.range n).map fun k => ((k + s) % n : ℕ)

theorem chain_length : (chain n s).length = n := by
  simp [chain]

theorem chain_get {k : ℕ} (h : k < n) : (chain n s)[k]? = some (((k + s) % n : ℕ) : ℤ) := by
  simp [chain, h]

theorem chain_mem (hn : 0 < n) {v : ℤ} (h : v ∈ chain n s) : 0 ≤ v ∧ v < n := by
  obtain ⟨k, -, rfl⟩ := List.mem_map.mp h
  have hlt := Nat.mod_lt (k + s) hn
  omega

theorem load_natCast {mem : List ℤ} {k : ℕ} : load mem k = mem[k]? := by
  unfold load
  rw [if_pos (Int.natCast_nonneg k), Int.toNat_natCast]

theorem load_eq_some {mem : List ℤ} {idx val : ℤ} (h : load mem idx = some val) :
    ∃ k : ℕ, idx = k ∧ mem[k]? = some val := by
  unfold load at h
  split at h
  next hidx => exact ⟨idx.toNat, (Int.toNat_of_nonneg hidx).symm, h⟩
  next => cases h

theorem newArray_eq (fresh : ℕ → ℤ) : newArray n fresh = some ((List.range n).map fresh) := by
  unfold newArray
  rw [if_pos (Int.natCast_nonneg n), Int.toNat_natCast]

theorem entry_eq (hn : 0 < n) {k : ℕ} (h : k + s < 2 ^ 31) :
    entry n s k = some (((k + s) % n : ℕ) : ℤ) := by
  have hfits : FitsInt ((k : ℤ) + s) := by
    unfold FitsInt
    omega
  unfold entry checkInt
  rw [if_pos hfits, Option.bind_some, if_neg (by omega)]
  rfl

/-- A turn of the filling loop prolongs the filled prefix, which at the end is the array. -/
theorem fillLoop_eq (hn : 0 < n) (hfits : n - 1 + s < 2 ^ 31) {k left : ℕ} {mem : List ℤ}
    (hturns : k + left = n) (hlen : mem.length = n)
    (hfilled : ∀ i < k, mem[i]? = (chain n s)[i]?) :
    fillLoop n s k left mem = some (chain n s) := by
  induction left generalizing k mem with
  | zero =>
    have heq : mem = chain n s := by
      apply List.ext_getElem?
      intro i
      rcases Nat.lt_or_ge i n with hi | hi
      · exact hfilled i (by omega)
      · rw [List.getElem?_eq_none (by omega), List.getElem?_eq_none (by rw [chain_length]; exact hi)]
    rw [heq]
    rfl
  | succ left ih =>
    have hk : k < n := by omega
    unfold fillLoop store
    rw [entry_eq hn (by omega), Option.bind_some, if_pos (by omega), Option.bind_some]
    apply ih (by omega) (by rw [List.length_set]; exact hlen)
    intro i hi
    rcases Nat.lt_succ_iff_lt_or_eq.mp hi with hi | rfl
    · rw [List.getElem?_set_ne (by omega)]
      exact hfilled i hi
    · rw [List.getElem?_set_self (by omega), chain_get hk]

theorem filledArray_eq (hn : 0 < n) (hfits : n - 1 + s < 2 ^ 31) (fresh : ℕ → ℤ) :
    filledArray n s fresh = some (chain n s) := by
  unfold filledArray
  rw [newArray_eq, Option.bind_some, Int.toNat_natCast]
  apply fillLoop_eq hn hfits (Nat.zero_add n)
  · simp
  · intro i hi
    exact absurd hi (Nat.not_lt_zero i)

theorem fillLoop_length {n s : ℤ} {k left : ℕ} {mem mem' : List ℤ}
    (h : fillLoop n s k left mem = some mem') : mem'.length = mem.length := by
  induction left generalizing k mem with
  | zero =>
    obtain rfl := Option.some.inj h
    rfl
  | succ left ih =>
    obtain ⟨val, -, h⟩ := Option.bind_eq_some_iff.mp h
    obtain ⟨next, hnext, h⟩ := Option.bind_eq_some_iff.mp h
    unfold store at hnext
    split at hnext
    next =>
      obtain rfl := Option.some.inj hnext
      rw [ih h, List.length_set]
    next => cases hnext

theorem filledArray_length {n s : ℤ} {fresh : ℕ → ℤ} {mem : List ℤ}
    (h : filledArray n s fresh = some mem) : (mem.length : ℤ) = n := by
  obtain ⟨start, hstart, h⟩ := Option.bind_eq_some_iff.mp h
  unfold newArray at hstart
  split at hstart
  next hn =>
    obtain rfl := Option.some.inj hstart
    rw [fillLoop_length h, List.length_map, List.length_range, Int.toNat_of_nonneg hn]
  next => cases hstart

/-- The places of `count` steps from step `t` on. -/
def visits (n s t count : ℕ) : List ℤ :=
  (List.range count).map fun u => ((place n s (t + u) : ℕ) : ℤ)

theorem visits_succ (t count : ℕ) :
    visits n s t (count + 1) = ((place n s t : ℕ) : ℤ) :: visits n s (t + 1) count := by
  unfold visits
  rw [List.range_succ_eq_map, List.map_cons, List.map_map, Nat.add_zero]
  congr 1
  apply List.map_congr_left
  intro u _
  rw [Nat.add_right_comm]
  rfl

/-- The chase through an array that leads from each place to the next. -/
theorem chase_place {mem : List ℤ} {count t : ℕ}
    (h : ∀ u < count, mem[place n s (t + u)]? = some ((place n s (t + u + 1) : ℕ) : ℤ)) :
    chase mem count (place n s t) =
      some (visits n s t count, ((place n s (t + count) : ℕ) : ℤ)) := by
  induction count generalizing t with
  | zero => rfl
  | succ count ih =>
    have hrest := ih (t := t + 1) fun u hu => by
      have hu := h (u + 1) (by omega)
      rw [show t + (u + 1) = t + 1 + u by omega] at hu
      exact hu
    have hfirst : load mem (place n s t) = some ((place n s (t + 1) : ℕ) : ℤ) := by
      rw [load_natCast]
      exact h 0 (Nat.succ_pos count)
    unfold chase
    rw [hfirst, Option.bind_some, hrest, Option.map_some, visits_succ,
      show t + 1 + count = t + (count + 1) by omega]

theorem chain_place (hn : 0 < n) (t : ℕ) :
    (chain n s)[place n s t]? = some ((place n s (t + 1) : ℕ) : ℤ) := by
  rw [chain_get (place_lt hn t), place_succ]

theorem chase_chain (hn : 0 < n) (count : ℕ) :
    chase (chain n s) count 0 = some (visits n s 0 count, ((place n s count : ℕ) : ℤ)) := by
  have hchain : ∀ u < count, (chain n s)[place n s (0 + u)]? =
      some ((place n s (0 + u + 1) : ℕ) : ℤ) := fun u _ => chain_place hn _
  have h := chase_place hchain
  rw [place_zero, Nat.zero_add] at h
  exact h

/-- A chase with a turn loads from where it starts. -/
theorem load_of_chase {mem : List ℤ} {count : ℕ} {idx : ℤ} {r : List ℤ × ℤ} (hcount : 0 < count)
    (h : chase mem count idx = some r) : ∃ val, load mem idx = some val := by
  cases count with
  | zero => exact absurd hcount (Nat.lt_irrefl 0)
  | succ count =>
    obtain ⟨val, hval, -⟩ := Option.bind_eq_some_iff.mp h
    exact ⟨val, hval⟩

/-- The array of `memory_access_time_fixed_stride` sends the chase to the multiples of the stride,
and in each period once to every multiple of the gcd. -/
theorem chase_footprint (hn : 0 < n) (hfits : n - 1 + s < 2 ^ 31) (fresh : ℕ → ℤ) :
    ∃ mem, filledArray n s fresh = some mem ∧ mem.length = n ∧ (∀ v ∈ mem, 0 ≤ v ∧ v < n) ∧
      (∀ t, ∃ visited, chase mem t 0 = some (visited, ((t * s % n : ℕ) : ℤ))) ∧
      ∀ t, ∃ visited last, chase mem (t + n / n.gcd s) 0 = some (visited, last) ∧
        (visited.drop t).Perm ((List.range (n / n.gcd s)).map fun k => ((k * n.gcd s : ℕ) : ℤ)) := by
  refine ⟨chain n s, filledArray_eq hn hfits fresh, chain_length, fun v hv => chain_mem hn hv,
    fun t => ⟨_, chase_chain hn t⟩, fun t => ⟨_, _, chase_chain hn _, ?_⟩⟩
  have hdrop : (visits n s 0 (t + n / n.gcd s)).drop t =
      ((List.range (period n s)).map fun u => place n s (t + u)).map fun m : ℕ => (m : ℤ) := by
    unfold visits
    rw [List.range_add, List.map_append, List.drop_append_of_le_length (by simp),
      List.drop_eq_nil_of_le (by simp), List.nil_append, List.map_map, List.map_map]
    apply List.map_congr_left
    intro u _
    rw [Function.comp_apply, Function.comp_apply, Nat.zero_add]
  rw [hdrop]
  have hperm := (window_perm (s := s) hn t).map fun m : ℕ => (m : ℤ)
  have hmultiples : ((List.range (period n s)).map fun k => k * n.gcd s).map
      (fun m : ℕ => (m : ℤ)) = (List.range (n / n.gcd s)).map fun k => ((k * n.gcd s : ℕ) : ℤ) := by
    rw [List.map_map]
    rfl
  rw [← hmultiples]
  exact hperm

/-- The stride 8 on 12 elements touches every fourth of them. -/
theorem chase_footprint_twelve : ∃ mem, filledArray 12 8 (fun _ => 0) = some mem ∧
    ∀ t, ∃ visited last, chase mem (t + 3) 0 = some (visited, last) ∧
      (visited.drop t).Perm [0, 4, 8] := by
  obtain ⟨mem, hmem, -, -, -, hwindow⟩ :=
    chase_footprint (n := 12) (s := 8) (by decide) (by decide) fun _ => 0
  exact ⟨mem, hmem, hwindow⟩

end SysPerf.RamAccess
