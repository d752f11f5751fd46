import SysPerf.StatsMedian
import Mathlib.Data.Nat.Cast.Order.Field
import Mathlib.Data.Rat.Cast.Order

namespace SysPerf

open MachineInt OrderStats

abbrev CInt : Type := { z : ℤ // FitsInt z }

/-- The int that an integer converts to. -/
def CInt.of (z : ℤ) : CInt :=
  ⟨toInt z, toInt_fits z⟩

theorem zero_fits : FitsInt 0 := by
  unfold FitsInt
  omega

/-- `Stats<int>`: sums overflow, the sum is divided as an unsigned 64-bit number because
`size()` is one, and half a sum is truncated. -/
def Arith.int (sqrt : ℚ → ℚ) : Arith CInt ℚ where
  zero := ⟨0, zero_fits⟩
  add x y := if h : FitsInt (x.1 + y.1) then some ⟨x.1 + y.1, h⟩ else none
  divSize x n := (roundDouble (toUnsigned x.1 / n) : ℕ)
  half x := (x.1.tdiv 2 : ℤ)
  toDouble x := (x.1 : ℤ)
  sqrt := sqrt

namespace Stats

variable {sqrt : ℚ → ℚ}

def total (vals : List CInt) : ℤ :=
  (vals.map Subtype.val).sum

def PartialSumsFit (vals : List CInt) : Prop :=
  ∀ k, FitsInt (total (vals.take k))

theorem PartialSumsFit.total {vals : List CInt} (h : PartialSumsFit vals) :
    FitsInt (total vals) := by
  have hall := h vals.length
  rwa [List.take_length] at hall

theorem foldlM_int (sqrt : ℚ → ℚ) (vals : List CInt) (acc : CInt)
    (h : ∀ k, FitsInt (acc.1 + total (vals.take k))) :
    ∃ sum : CInt, vals.foldlM (Arith.int sqrt).add acc = some sum ∧
      sum.1 = acc.1 + total vals := by
  induction vals generalizing acc with
  | nil => exact ⟨acc, rfl, by simp [total]⟩
  | cons v vals ih =>
    have hfirst : FitsInt (acc.1 + v.1) := by simpa [total] using h 1
    have hadd : (Arith.int sqrt).add acc v = some ⟨acc.1 + v.1, hfirst⟩ := dif_pos hfirst
    obtain ⟨sum, hsum, heq⟩ := ih ⟨acc.1 + v.1, hfirst⟩ fun k => by
      have hnext := h (k + 1)
      simpa [total, add_assoc] using hnext
    refine ⟨sum, ?_, ?_⟩
    · rw [List.foldlM_cons, hadd]
      exact hsum
    · rw [heq]
      simp [total, add_assoc]

theorem mean_int {s : Stats CInt} (h : s.vals ≠ []) (hfit : PartialSumsFit s.vals) :
    s.mean (Arith.int sqrt) =
      some (roundDouble (toUnsigned (total s.vals) / s.vals.length) : ℕ) := by
  have hlen : s.vals.length ≠ 0 := by simpa using h
  obtain ⟨sum, hsum, heq⟩ := foldlM_int sqrt s.vals ⟨0, zero_fits⟩ fun k => by
    simpa using hfit k
  have hsum : s.vals.foldlM (Arith.int sqrt).add (Arith.int sqrt).zero = some sum := hsum
  have heq : sum.1 = total s.vals := by simpa using heq
  unfold mean
  rw [if_neg hlen, hsum, ← heq]
  rfl

/-- The unsigned quotient is near the quotient where the sum has no sign, or with so many
samples that the quotient is 0. -/
theorem divSize_near_iff {z : ℤ} {n : ℕ} (hfit : FitsInt z) (hn : 0 < n) :
    |((roundDouble (toUnsigned z / n) : ℕ) : ℚ) - z / n| < 1 ↔ 0 ≤ z ∨ z + 2 ^ 64 < n := by
  unfold FitsInt at hfit
  have hpos : (0 : ℚ) < n := by exact_mod_cast hn
  rcases le_or_gt 0 z with hz | hz
  · refine iff_of_true ?_ (Or.inl hz)
    have hto := toUnsigned_of_nonneg hz (by omega)
    have hsmall : toUnsigned z / n < 2 ^ 53 := (Nat.div_le_self _ _).trans_lt (by omega)
    have hcast : (z : ℚ) = (toUnsigned z : ℕ) := by exact_mod_cast hto.symm
    rw [roundDouble_eq_self hsmall, hcast, abs_sub_lt_iff]
    have hlow : ((toUnsigned z / n : ℕ) : ℚ) ≤ toUnsigned z / n := Nat.cast_div_le
    have hhigh : (toUnsigned z : ℚ) / n < (toUnsigned z / n : ℕ) + 1 := by
      rw [div_lt_iff₀ hpos]
      have hlt := Nat.lt_mul_div_succ (toUnsigned z) hn
      rw [mul_comm] at hlt
      exact_mod_cast hlt
    constructor <;> linarith
  · have hto := toUnsigned_of_neg hz (by omega)
    rcases Nat.lt_or_ge (toUnsigned z) n with hlt | hge
    · refine iff_of_true ?_ (Or.inr (by omega))
      have hlow : -(n : ℚ) < z := by
        have : -(n : ℤ) < z := by omega
        exact_mod_cast this
      have hneg : (z : ℚ) < 0 := by exact_mod_cast hz
      rw [Nat.div_eq_of_lt hlt, roundDouble_eq_self (by norm_num), Nat.cast_zero, zero_sub, abs_neg,
        abs_lt]
      constructor
      · rw [lt_div_iff₀ hpos]
        linarith
      · rw [div_lt_iff₀ hpos]
        linarith
    · refine iff_of_false ?_ (by omega)
      have hone : (1 : ℚ) ≤ (roundDouble (toUnsigned z / n) : ℕ) := by
        exact_mod_cast roundDouble_pos (Nat.div_pos hge hn)
      have hneg : (z : ℚ) / n < 0 := div_neg_of_neg_of_pos (by exact_mod_cast hz) hpos
      rw [abs_sub_lt_iff]
      rintro ⟨hlt, -⟩
      linarith

/-- `median` of samples that `Stats<int>` can sum in pairs: the pair it takes has a sum that fits,
and is the pair in the middle or has its truncated half there. -/
def MiddleFits (vals : List CInt) : Prop :=
  vals.length % 2 = 1 ∨ 1 ≤ mid vals ∧ ∃ x y, Ranked vals (mid vals).toNat x ∧
    Ranked vals ((mid vals).toNat + 1) y ∧ FitsInt (x.1 + y.1) ∧
    (vals.length < 2 ^ 32 ∨ Ranked vals (vals.length / 2) y ∧ (x.1 = y.1 ∨ x.1 + 1 = y.1 ∧ y.1 ≤ 0))

def MeanNear (sqrt : ℚ → ℚ) (s : Stats CInt) : Prop :=
  ∃ m, s.mean (Arith.int sqrt) = some m ∧ |m - (total s.vals : ℚ) / s.vals.length| < 1

def MedianBetween (sqrt : ℚ → ℚ) (s : Stats CInt) : Prop :=
  ∃ r, (s.median (Arith.int sqrt)).2 = some r ∧
    ∃ x y, Ranked s.vals ((s.vals.length + 1) / 2) x ∧ Ranked s.vals (s.vals.length / 2 + 1) y ∧
      (x.1 : ℚ) ≤ r ∧ r ≤ (y.1 : ℚ)

theorem meanNear_iff {s : Stats CInt} (h : s.vals ≠ []) (hfit : PartialSumsFit s.vals) :
    MeanNear sqrt s ↔ 0 ≤ total s.vals ∨ total s.vals + 2 ^ 64 < s.vals.length := by
  rw [← divSize_near_iff hfit.total (List.length_pos_iff.mpr h)]
  constructor
  · rintro ⟨m, hm, hnear⟩
    obtain rfl := Option.some.inj ((mean_int h hfit).symm.trans hm)
    exact hnear
  · intro hnear
    exact ⟨_, mean_int h hfit, hnear⟩

theorem medianBetween_of_odd {s : Stats CInt} (h : s.vals.length % 2 = 1) :
    MedianBetween sqrt s := by
  obtain ⟨x, hx, hmiddle⟩ := middle_of_odd (A := Arith.int sqrt) h
  have hne : s.vals ≠ [] := List.ne_nil_of_mem hx.1
  have hsame : s.vals.length / 2 + 1 = (s.vals.length + 1) / 2 := by omega
  refine ⟨(x.1 : ℤ), ?_, x, x, hx, ?_, le_rfl, le_rfl⟩
  · rw [median_eq_middle hne, hmiddle]
    rfl
  · rw [hsame]
    exact hx

theorem median_int_of_mid (sqrt : ℚ → ℚ) {s : Stats CInt} (heven : s.vals.length % 2 = 0)
    (hmid : 1 ≤ mid s.vals) :
    ∃ x y, Ranked s.vals (mid s.vals).toNat x ∧ Ranked s.vals ((mid s.vals).toNat + 1) y ∧
      (s.median (Arith.int sqrt)).2 =
        if FitsInt (x.1 + y.1) then some (((x.1 + y.1).tdiv 2 : ℤ) : ℚ) else none := by
  obtain ⟨x, y, hx, hy, hmiddle⟩ := middle_of_mid (A := Arith.int sqrt) heven hmid
  have hne : s.vals ≠ [] := List.ne_nil_of_mem hx.1
  refine ⟨x, y, hx, hy, ?_⟩
  rw [median_eq_middle hne, hmiddle, add_comm x.1 y.1]
  show (if h : FitsInt (y.1 + x.1) then some (⟨y.1 + x.1, h⟩ : CInt) else none).map _ = _
  split
  next => rfl
  next => rfl

theorem half_cases (z : ℤ) : 0 ≤ z ∧ z.tdiv 2 = z / 2 ∨ z < 0 ∧ z.tdiv 2 = -(-z / 2) := by
  rcases le_or_gt 0 z with hz | hz
  · exact Or.inl ⟨hz, Int.tdiv_eq_ediv_of_nonneg hz⟩
  · have hneg : (-z).tdiv 2 = -z / 2 := Int.tdiv_eq_ediv_of_nonneg (by omega)
    rw [Int.neg_tdiv] at hneg
    exact Or.inr ⟨hz, by omega⟩

/-- The truncated half of a sum lies between the summands. -/
theorem half_between {x y : ℤ} (h : x ≤ y) : x ≤ (x + y).tdiv 2 ∧ (x + y).tdiv 2 ≤ y := by
  rcases half_cases (x + y) with ⟨hz, heq⟩ | ⟨hz, heq⟩ <;> omega

theorem half_eq_upper_iff {x y : ℤ} (h : x ≤ y) :
    y ≤ (x + y).tdiv 2 ↔ x = y ∨ x + 1 = y ∧ y ≤ 0 := by
  rcases half_cases (x + y) with ⟨hz, heq⟩ | ⟨hz, heq⟩ <;> omega

theorem middleFits_iff {vals : List CInt} {x y : CInt} (heven : vals.length % 2 = 0)
    (hmid : 1 ≤ mid vals) (hx : Ranked vals (mid vals).toNat x)
    (hy : Ranked vals ((mid vals).toNat + 1) y) :
    MiddleFits vals ↔ FitsInt (x.1 + y.1) ∧ (vals.length < 2 ^ 32 ∨
      Ranked vals (vals.length / 2) y ∧ (x.1 = y.1 ∨ x.1 + 1 = y.1 ∧ y.1 ≤ 0)) := by
  constructor
  · rintro (hodd | ⟨-, x', y', hx', hy', hfits⟩)
    · omega
    · obtain rfl := hx.unique hx'
      obtain rfl := hy.unique hy'
      exact hfits
  · intro hfits
    exact Or.inr ⟨hmid, x, y, hx, hy, hfits⟩

theorem medianBetween_iff_of_mid {s : Stats CInt} (heven : s.vals.length % 2 = 0)
    (hmid : 1 ≤ mid s.vals) : MedianBetween sqrt s ↔ MiddleFits s.vals := by
  have hle := mid_le s.vals
  obtain ⟨x, y, hx, hy, hmedian⟩ := median_int_of_mid sqrt heven hmid
  obtain ⟨u, hu⟩ := exists_sort_get s.vals (k := s.vals.length / 2 - 1) (by omega)
  obtain ⟨v, hv⟩ := exists_sort_get s.vals (k := s.vals.length / 2) (by omega)
  have hu : Ranked s.vals ((s.vals.length + 1) / 2) u := by
    have hrank := ranked_sort hu
    rwa [show s.vals.length / 2 - 1 + 1 = (s.vals.length + 1) / 2 by omega] at hrank
  have hv := ranked_sort hv
  have hxy : x.1 ≤ y.1 := hx.mono hy (by omega)
  have hbetween := half_between hxy
  -- what `MedianBetween` asks of the pair that `median` takes
  have hiff : MedianBetween sqrt s ↔ FitsInt (x.1 + y.1) ∧ u.1 ≤ (x.1 + y.1).tdiv 2 ∧
      (x.1 + y.1).tdiv 2 ≤ v.1 := by
    unfold MedianBetween
    rw [hmedian]
    constructor
    · rintro ⟨r, hr, u', v', hu', hv', hlow, hhigh⟩
      obtain rfl := hu.unique hu'
      obtain rfl := hv.unique hv'
      split at hr
      next hfits =>
        obtain rfl := Option.some.inj hr
        exact ⟨hfits, by exact_mod_cast hlow, by exact_mod_cast hhigh⟩
      next => cases hr
    · rintro ⟨hfits, hlow, hhigh⟩
      exact ⟨_, if_pos hfits, u, v, hu, hv, by exact_mod_cast hlow, by exact_mod_cast hhigh⟩
  rw [hiff, middleFits_iff heven hmid hx hy]
  apply and_congr_right
  intro _
  rcases Nat.lt_or_ge s.vals.length (2 ^ 32) with hlt | hge
  · have hnat : (mid s.vals).toNat = s.vals.length / 2 := by
      rw [mid_eq hlt]
      omega
    rw [hnat] at hx hy
    obtain rfl := hy.unique hv
    rw [show (s.vals.length + 1) / 2 = s.vals.length / 2 by omega] at hu
    obtain rfl := hx.unique hu
    exact iff_of_true hbetween (Or.inl hlt)
  · have hfar := mid_lt hge
    have hyu : y.1 ≤ u.1 := hy.mono hu (by omega)
    have huv : u.1 ≤ v.1 := hu.mono hv (by omega)
    rw [show (s.vals.length + 1) / 2 = s.vals.length / 2 by omega] at hu
    constructor
    · rintro ⟨hlow, -⟩
      have huy : u = y := Subtype.ext (by omega)
      subst huy
      exact Or.inr ⟨hu, (half_eq_upper_iff hxy).mp hlow⟩
    · rintro (hlt | ⟨hrank, hhalf⟩)
      · omega
      · obtain rfl := hu.unique hrank
        have hlow := (half_eq_upper_iff hxy).mpr hhalf
        exact ⟨hlow, by omega⟩

theorem medianBetween_iff {s : Stats CInt} (h : s.vals ≠ []) :
    MedianBetween sqrt s ↔ MiddleFits s.vals := by
  rcases Nat.mod_two_eq_zero_or_one s.vals.length with heven | hodd
  · by_cases hmid : 1 ≤ mid s.vals
    · exact medianBetween_iff_of_mid heven hmid
    · refine iff_of_false ?_ ?_
      · rintro ⟨r, hr, -⟩
        rw [median_eq_middle h, middle_of_not_mid heven (by omega)] at hr
        cases hr
      · rintro (hodd | ⟨h, -⟩)
        · omega
        · exact hmid h
  · exact iff_of_true (medianBetween_of_odd hodd) (Or.inl hodd)

/-- `mean` is off by less than 1 and `median` is one of the middle samples or between them. -/
def IntSpec (sqrt : ℚ → ℚ) (s : Stats CInt) : Prop :=
  (PartialSumsFit s.vals → MeanNear sqrt s) ∧ MedianBetween sqrt s

theorem intSpec_iff {s : Stats CInt} (h : s.vals ≠ []) :
    IntSpec sqrt s ↔
      (PartialSumsFit s.vals → 0 ≤ total s.vals ∨ total s.vals + 2 ^ 64 < s.vals.length) ∧
      MiddleFits s.vals := by
  unfold IntSpec
  rw [medianBetween_iff h]
  apply and_congr_left
  intro _
  exact forall_congr' fun hfit => meanNear_iff h hfit

theorem partialSumsFit_singleton (v : CInt) : PartialSumsFit [v] := by
  intro k
  cases k with
  | zero => exact zero_fits
  | succ k => simpa [total] using v.2

/-- One sample of each sign. -/
theorem intSpec_iff_singleton :
    IntSpec id ⟨[CInt.of 7], 1⟩ ∧ ¬IntSpec id ⟨[CInt.of (-1)], 1⟩ := by
  constructor
  · apply (intSpec_iff (by simp)).mpr
    exact ⟨fun _ => Or.inl (by decide), Or.inl (by decide)⟩
  · intro hspec
    have hmean := ((intSpec_iff (by simp)).mp hspec).1 (partialSumsFit_singleton _)
    exact absurd hmean (by decide)

/-- The mean of the one sample -1 comes out as `2 ^ 64`. -/
theorem int_samples_far :
    ¬∀ (sqrt : ℚ → ℚ) (s : Stats CInt), s.vals ≠ [] → IntSpec sqrt s := by
  intro h
  have hne : (⟨[CInt.of (-1)], 1⟩ : Stats CInt).vals ≠ [] := by simp
  have hfit := partialSumsFit_singleton (CInt.of (-1))
  have hmean := (meanNear_iff hne hfit).mp ((h id _ hne).1 hfit)
  exact absurd hmean (by decide)

end Stats

end SysPerf
