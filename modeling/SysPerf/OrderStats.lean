import Mathlib.Data.List.Sort
import Mathlib.Data.List.Count
import Mathlib.Order.Lattice

namespace SysPerf.OrderStats

variable {α β : Type} [LinearOrder α] [LinearOrder β]

/-- `x` is the `k`-th smallest of the values, counted from 1 and with repetitions. -/
def Ranked (vals : List α) (k : ℕ) (x : α) : Prop :=
  x ∈ vals ∧ vals.countP (· < x) < k ∧ k ≤ vals.countP (· ≤ x)

instance (vals : List α) (k : ℕ) (x : α) : Decidable (Ranked vals k x) :=
  inferInstanceAs (Decidable (_ ∧ _))

theorem Ranked.perm {xs ys : List α} (h : xs.Perm ys) {k : ℕ} {x : α} (hx : Ranked xs k x) :
    Ranked ys k x := by
  obtain ⟨hmem, hlt, hle⟩ := hx
  exact ⟨h.mem_iff.mp hmem, by rwa [← h.countP_eq], by rwa [← h.countP_eq]⟩

theorem Ranked.pos {vals : List α} {k : ℕ} {x : α} (h : Ranked vals k x) : 1 ≤ k := by
  have := h.2.1
  omega

/-- A higher rank has no smaller value. -/
theorem Ranked.mono {vals : List α} {j k : ℕ} {x y : α} (hx : Ranked vals j x)
    (hy : Ranked vals k y) (h : j ≤ k) : x ≤ y := by
  by_contra hlt
  have hsub : vals.countP (· ≤ y) ≤ vals.countP (· < x) := by
    apply List.countP_mono_left
    intro z _ hz
    have hz : z ≤ y := by simpa using hz
    simpa using hz.trans_lt (not_le.mp hlt)
  have := hx.2.1
  have := hy.2.2
  omega

theorem Ranked.unique {vals : List α} {k : ℕ} {x y : α} (hx : Ranked vals k x)
    (hy : Ranked vals k y) : x = y :=
  le_antisymm (hx.mono hy le_rfl) (hy.mono hx le_rfl)

/-- In an ascending list the position is the rank. -/
theorem ranked_of_sorted {vals : List α} (hs : vals.Pairwise (· ≤ ·)) {k : ℕ} {x : α}
    (h : vals[k]? = some x) : Ranked vals (k + 1) x := by
  induction vals generalizing k with
  | nil => simp at h
  | cons y ys ih =>
    obtain ⟨hall, hs⟩ := List.pairwise_cons.mp hs
    cases k with
    | zero =>
      obtain rfl : y = x := by simpa using h
      have hnone : ys.countP (· < y) = 0 := by
        apply List.countP_eq_zero.mpr
        intro z hz
        simpa using hall z hz
      refine ⟨List.mem_cons_self .., ?_, ?_⟩
      · simp [hnone]
      · simp
    | succ k =>
      obtain ⟨hmem, hlt, hle⟩ := ih hs (by simpa using h)
      have hy : y ≤ x := hall x hmem
      refine ⟨List.mem_cons_of_mem y hmem, ?_, ?_⟩
      · rw [List.countP_cons]
        split <;> omega
      · rw [List.countP_cons_of_pos (by simpa using hy)]
        omega

/-- The values in ascending order. -/
def sort (vals : List α) : List α :=
  vals.insertionSort (· ≤ ·)

theorem sort_perm (vals : List α) : (sort vals).Perm vals :=
  List.perm_insertionSort ..

@[simp] theorem sort_length (vals : List α) : (sort vals).length = vals.length :=
  (sort_perm vals).length_eq

theorem sort_sorted (vals : List α) : (sort vals).Pairwise (· ≤ ·) :=
  List.pairwise_insertionSort ..

theorem sort_eq_self {vals : List α} (h : vals.Pairwise (· ≤ ·)) : sort vals = vals :=
  h.insertionSort_eq

/-- Lists with the same values have one ascending form. -/
theorem sort_eq_of_perm {xs ys : List α} (h : xs.Perm ys) : sort xs = sort ys := by
  have hperm : (sort xs).Perm (sort ys) :=
    ((sort_perm xs).trans h).trans (sort_perm ys).symm
  exact hperm.eq_of_pairwise' (sort_sorted xs) (sort_sorted ys)

theorem sort_map {f : α → β} (hf : StrictMono f) (vals : List α) :
    sort (vals.map f) = (sort vals).map f :=
  (List.map_insertionSort _ _ f vals fun _ _ _ _ => hf.le_iff_le.symm).symm

theorem ranked_sort {vals : List α} {k : ℕ} {x : α} (h : (sort vals)[k]? = some x) :
    Ranked vals (k + 1) x :=
  (ranked_of_sorted (sort_sorted vals) h).perm (sort_perm vals)

theorem exists_sort_get (vals : List α) {k : ℕ} (h : k < vals.length) :
    ∃ x, (sort vals)[k]? = some x := by
  have hk : k < (sort vals).length := by
    rw [sort_length]
    exact h
  exact ⟨(sort vals)[k], List.getElem?_eq_getElem hk⟩

theorem countP_le_add_lt (vals : List α) (x : α) :
    vals.countP (x ≤ ·) + vals.countP (· < x) = vals.length := by
  induction vals with
  | nil => rfl
  | cons y ys ih =>
    rw [List.countP_cons, List.countP_cons, List.length_cons]
    rcases le_or_gt x y with hy | hy
    · simp only [hy, decide_true, if_true, hy.not_gt, decide_false, Bool.false_eq_true, if_false]
      omega
    · simp only [hy, decide_true, if_true, hy.not_ge, decide_false, Bool.false_eq_true, if_false]
      omega

/-- Values above one of rank `k` have at least `k` values below or at them. -/
theorem Ranked.le_countP {vals : List α} {k : ℕ} {x y : α} (h : Ranked vals k x) (hxy : x ≤ y) :
    k ≤ vals.countP (· ≤ y) := by
  apply h.2.2.trans
  apply List.countP_mono_left
  intro z _ hz
  have hz : z ≤ x := by simpa using hz
  simpa using hz.trans hxy

theorem Ranked.le_countP_ge {vals : List α} {k : ℕ} {x y : α} (h : Ranked vals k x)
    (hxy : y ≤ x) : vals.length + 1 ≤ vals.countP (y ≤ ·) + k := by
  have hsplit := countP_le_add_lt vals y
  have hfew : vals.countP (· < y) ≤ vals.countP (· < x) := by
    apply List.countP_mono_left
    intro z _ hz
    have hz : z < y := by simpa using hz
    simpa using hz.trans_le hxy
  have := h.2.1
  omega

/-- At least half of the values are at most `r` and at least half are at least `r`. -/
def Central (vals : List α) (r : α) : Prop :=
  vals.length ≤ 2 * vals.countP (· ≤ r) ∧ vals.length ≤ 2 * vals.countP (r ≤ ·)

/-- A value is central if a rank up to the middle lies below it and one from the middle on lies
above it. -/
theorem central_of_ranked {vals : List α} {j k : ℕ} {x y r : α} (hx : Ranked vals j x)
    (hy : Ranked vals k y) (hxr : x ≤ r) (hry : r ≤ y) (hj : vals.length ≤ 2 * j)
    (hk : 2 * k ≤ vals.length + 2) : Central vals r := by
  have hlow := hx.le_countP hxr
  have hhigh := hy.le_countP_ge hry
  constructor <;> omega

end SysPerf.OrderStats
