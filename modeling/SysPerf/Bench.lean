import SysPerf.TokenRingLaws

namespace SysPerf

open TokenRing

/-- The globals `pipes` and `footprint_arr_len` and the constant `iters` that both context
switch benchmarks have; their ring has at least one pipe. Nothing binds the footprint to the length
of the array that it is in, see `inArr`. -/
structure Bench where
  pipes : ℕ
  pipesPos : 0 < pipes
  footprintArrLen : ℕ
  iters : ℕ
  deriving DecidableEq

instance (c : Bench) : NeZero c.pipes := ⟨c.pipesPos.ne'⟩

/-- One byte read from or written to the pipe `p[q]`, one store `*(arr + w) = 1`, and the end
of one footprint loop. -/
abbrev PipeOp (c : Bench) := Op c.pipes

theorem slot_self {n : ℕ} [NeZero n] (i : Fin n) : slot n i = i :=
  Fin.ext (Nat.mod_eq_of_lt i.isLt)

theorem slot_pred {n : ℕ} [NeZero n] (i : Fin n) : slot n (i + n - 1) = i - 1 := by
  have hn := Nat.pos_of_neZero n
  apply eq_sub_of_add_eq
  rw [slot_add_one, show (i : ℕ) + n - 1 + 1 = i + n by omega]
  exact Fin.ext (by simp [Nat.mod_eq_of_lt i.isLt])

/-- The length of `int arr[max_footprint]`, which every thread and process has on its stack. -/
def maxFootprint : ℕ := 589824 / 4

/-- The store `*(arr + w) = 1` is inside the array. Behind it the language defines nothing. -/
def inArr {n : ℕ} : Op n → Bool
  | .touch w => decide (w < maxFootprint)
  | .read _ => true
  | .write _ => true
  | .pass => true

def isPipe {n : ℕ} : Op n → Bool
  | .read _ => true
  | .write _ => true
  | .touch _ => false
  | .pass => false

end SysPerf
