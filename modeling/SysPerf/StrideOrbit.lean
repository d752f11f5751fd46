import Mathlib.Data.Nat.ModEq
import Mathlib.Data.List.Nodup
import Mathlib.Data.List.Perm.Subperm
import Mathlib.Data.List.Range

namespace SysPerf.StrideOrbit

/-- The place after `t` steps of `s` from 0 on a ring of `n` places. -/
def place (n s t : ℕ) : ℕ :=
  t * s % n

/-- The number of steps after which the places repeat. -/
def period (n s : ℕ) : ℕ :=
  n / n.gcd s

variable {n s : ℕ}

theorem place_zero : place n s 0 = 0 := by
  unfold place
  rw [Nat.zero_mul, Nat.zero_mod]

theorem place_succ (t : ℕ) : place n s (t + 1) = (place n s t + s) % n := by
  unfold place
  rw [Nat.succ_mul, Nat.mod_add_mod]

theorem place_lt (hn : 0 < n) (t : ℕ) : place n s t < n :=
  Nat.mod_lt _ hn

theorem gcd_dvd_place (t : ℕ) : n.gcd s ∣ place n s t := by
  have hmul : n.gcd s ∣ t * s := (Nat.gcd_dvd_right n s).mul_left t
  exact (Nat.dvd_mod_iff (Nat.gcd_dvd_left n s)).mpr hmul

theorem period_mul_gcd : period n s * n.gcd s = n :=
  Nat.div_mul_cancel (Nat.gcd_dvd_left n s)

theorem modEq_of_place_eq (hn : 0 < n) {t u : ℕ} (h : place n s t = place n s u) :
    t ≡ u [MOD period n s] :=
  Nat.ModEq.cancel_right_div_gcd hn h

/-- The steps of one period stand on different places. -/
theorem window_nodup (hn : 0 < n) (t : ℕ) :
    ((List.range (period n s)).map fun u => place n s (t + u)).Nodup := by
  apply List.Nodup.map_on _ List.nodup_range
  intro u hu v hv heq
  have hmod : u ≡ v [MOD period n s] := (modEq_of_place_eq hn heq).add_left_cancel'
  exact hmod.eq_of_lt_of_lt (List.mem_range.mp hu) (List.mem_range.mp hv)

/-- From any step on, one period stands once on each multiple of the gcd and nowhere else. -/
theorem window_perm (hn : 0 < n) (t : ℕ) :
    ((List.range (period n s)).map fun u => place n s (t + u)).Perm
      ((List.range (period n s)).map fun k => k * n.gcd s) := by
  have hsub : ((List.range (period n s)).map fun u => place n s (t + u)) ⊆
      (List.range (period n s)).map fun k => k * n.gcd s := by
    intro m hm
    obtain ⟨u, -, rfl⟩ := List.mem_map.mp hm
    obtain ⟨k, hk⟩ := gcd_dvd_place (n := n) (s := s) (t + u)
    have hlt : k * n.gcd s < period n s * n.gcd s := by
      rw [period_mul_gcd, Nat.mul_comm, ← hk]
      exact place_lt hn _
    apply List.mem_map.mpr
    refine ⟨k, List.mem_range.mpr (Nat.lt_of_mul_lt_mul_right hlt), ?_⟩
    rw [hk, Nat.mul_comm]
  apply (List.subperm_of_subset (window_nodup hn t) hsub).perm_of_length_le
  simp

end SysPerf.StrideOrbit
