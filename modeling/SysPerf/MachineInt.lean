import Mathlib.Algebra.Order.Ring.Int
import Mathlib.Data.Nat.Log
import Mathlib.Tactic.Ring

namespace SysPerf.MachineInt

/-- The values of a 32-bit int. -/
def FitsInt (z : ℤ) : Prop :=
  -2 ^ 31 ≤ z ∧ z < 2 ^ 31

instance (z : ℤ) : Decidable (FitsInt z) :=
  inferInstanceAs (Decidable (_ ∧ _))

/-- The conversion to a 32-bit int, which keeps the value modulo `2 ^ 32`. -/
def toInt (z : ℤ) : ℤ :=
  (z + 2 ^ 31) % 2 ^ 32 - 2 ^ 31

/-- The conversion to a 64-bit unsigned integer. -/
def toUnsigned (z : ℤ) : ℕ :=
  (z % 2 ^ 64).toNat

theorem toInt_fits (z : ℤ) : FitsInt (toInt z) := by
  unfold FitsInt toInt
  omega

theorem toInt_eq_self {z : ℤ} (h : FitsInt z) : toInt z = z := by
  unfold FitsInt at h
  unfold toInt
  omega

/-- What does not fit goes down by at least `2 ^ 32`. -/
theorem toInt_le_sub {z : ℤ} (h : 2 ^ 31 ≤ z) : toInt z + 2 ^ 32 ≤ z := by
  unfold toInt
  omega

theorem toInt_le {z : ℤ} (h : 0 ≤ z) : toInt z ≤ z := by
  unfold toInt
  omega

theorem toUnsigned_of_nonneg {z : ℤ} (h : 0 ≤ z) (hlt : z < 2 ^ 64) :
    (toUnsigned z : ℤ) = z := by
  unfold toUnsigned
  omega

theorem toUnsigned_of_neg {z : ℤ} (h : z < 0) (hge : -2 ^ 64 ≤ z) :
    (toUnsigned z : ℤ) = z + 2 ^ 64 := by
  unfold toUnsigned
  omega

/-- The nearest number with 53 significant bits, and of two nearest the even one: the
conversion of an unsigned integer to double. -/
def roundDouble (q : ℕ) : ℕ :=
  let unit := 2 ^ (Nat.log 2 q - 52)
  let down := q / unit
  if unit < 2 * (q % unit) ∨ unit = 2 * (q % unit) ∧ down % 2 = 1 then (down + 1) * unit
  else down * unit

theorem roundDouble_eq_self {q : ℕ} (h : q < 2 ^ 53) : roundDouble q = q := by
  have hlog : Nat.log 2 q - 52 = 0 := by
    rcases Nat.eq_zero_or_pos q with rfl | hpos
    · simp
    · have hlt : Nat.log 2 q < 53 := Nat.log_lt_of_lt_pow hpos.ne' h
      omega
  unfold roundDouble
  rw [hlog]
  simp [Nat.mod_one]

theorem roundDouble_pos {q : ℕ} (h : 0 < q) : 0 < roundDouble q := by
  have hunit : 2 ^ (Nat.log 2 q - 52) ≤ q :=
    (Nat.pow_le_pow_right (by omega) (Nat.sub_le _ _)).trans (Nat.pow_log_le_self 2 h.ne')
  have hpos : 0 < 2 ^ (Nat.log 2 q - 52) := Nat.pow_pos (by omega)
  have hdown : 0 < q / 2 ^ (Nat.log 2 q - 52) := Nat.div_pos hunit hpos
  unfold roundDouble
  dsimp only
  split
  · exact Nat.mul_pos (Nat.succ_pos _) hpos
  · exact Nat.mul_pos hdown hpos

end SysPerf.MachineInt
