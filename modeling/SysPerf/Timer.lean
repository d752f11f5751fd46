import Mathlib.Algebra.Field.Defs
import Mathlib.Tactic.Ring

namespace SysPerf

/-- The halves of the stamps that `begin` and `end` read. -/
structure Timer where
  cyclesLow : BitVec 32
  cyclesHigh : BitVec 32
  cyclesLow1 : BitVec 32
  cyclesHigh1 : BitVec 32

namespace Timer

/-- `RDTSC` leaves the upper half of the stamp in edx and the lower half in eax. -/
def begin (t : Timer) (stamp : BitVec 64) : Timer :=
  { t with cyclesHigh := (stamp >>> 32).setWidth 32, cyclesLow := stamp.setWidth 32 }

def end' (t : Timer) (stamp : BitVec 64) : Timer :=
  { t with cyclesHigh1 := (stamp >>> 32).setWidth 32, cyclesLow1 := stamp.setWidth 32 }

def getStart (t : Timer) : BitVec 64 :=
  (t.cyclesHigh.setWidth 64 <<< 32) ||| t.cyclesLow.setWidth 64

def getEnd (t : Timer) : BitVec 64 :=
  (t.cyclesHigh1.setWidth 64 <<< 32) ||| t.cyclesLow1.setWidth 64

def diff (t : Timer) : BitVec 64 :=
  t.getEnd - t.getStart

section

variable {K : Type} [Field K] (freq : K)

/-- `freq` is `CPU_FREQ`, the cycles in a microsecond. -/
def timeDiffMicro (t : Timer) : K :=
  (t.diff.toNat : K) / freq

def timeDiffNano (t : Timer) : K :=
  ((t.diff.toNat : K) * 1000) / freq

end

/-- The halves of a stamp put together again. -/
theorem join_halves (stamp : BitVec 64) :
    (((stamp >>> 32).setWidth 32).setWidth 64 <<< 32) ||| (stamp.setWidth 32).setWidth 64 =
      stamp := by
  apply BitVec.eq_of_getLsbD_eq
  intro i hi
  by_cases h : i < 32
  · simp [h, hi]
  · have hlow : i - 32 < 32 := by omega
    have hjoin : 32 + (i - 32) = i := by omega
    simp [h, hi, hlow, hjoin]

theorem getStart_begin_end (t : Timer) (s e : BitVec 64) : ((t.begin s).end' e).getStart = s :=
  join_halves s

theorem getEnd_begin_end (t : Timer) (s e : BitVec 64) : ((t.begin s).end' e).getEnd = e :=
  join_halves e

theorem diff_begin_end (t : Timer) (s e : BitVec 64) : ((t.begin s).end' e).diff = e - s := by
  unfold diff
  rw [getStart_begin_end, getEnd_begin_end]

/-- The cycles between two stamps, over a wrap of the counter too. -/
theorem diff_toNat (t : Timer) (s e : BitVec 64) :
    (((t.begin s).end' e).diff.toNat : ℤ) = ((e.toNat : ℤ) - s.toNat) % 2 ^ 64 := by
  have hs := s.isLt
  have he := e.isLt
  rw [diff_begin_end, BitVec.toNat_sub]
  omega

theorem timeDiffNano_eq {K : Type} [Field K] (freq : K) (t : Timer) :
    t.timeDiffNano freq = 1000 / freq * (t.diff.toNat : K) := by
  unfold timeDiffNano
  ring

end Timer

end SysPerf
