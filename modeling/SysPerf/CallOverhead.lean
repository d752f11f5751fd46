import SysPerf.StatsScale
import SysPerf.Timer

namespace SysPerf

/-- The pairs of stamps that `begin` and `end` read, by turns of a loop. -/
abbrev Stamps : Type :=
  ℕ → BitVec 64 × BitVec 64

def noParam : Unit := ()

def oneParam (_param1 : ℤ) : Unit := ()

def twoParams (_param1 _param2 : ℤ) : Unit := ()

def threeParams (_param1 _param2 _param3 : ℤ) : Unit := ()

def fourParams (_param1 _param2 _param3 _param4 : ℤ) : Unit := ()

def fiveParams (_param1 _param2 _param3 _param4 _param5 : ℤ) : Unit := ()

def sixParams (_param1 _param2 _param3 _param4 _param5 _param6 : ℤ) : Unit := ()

def sevenParams (_param1 _param2 _param3 _param4 _param5 _param6 _param7 : ℤ) : Unit := ()

section

variable {K : Type} [Field K]

/-- The loop of a measurement from its turn `i` on, which adds up what `report` makes of each
pair of stamps. -/
def addUp (report : Timer → K) (stamps : Stamps) (i : ℕ) : ℕ → Timer → K → K
  | 0, _, time => time
  | left + 1, t, time =>
    let t := (t.begin (stamps i).1).end' (stamps i).2
    addUp report stamps (i + 1) left t (time + report t)

variable (freq : K) (nIterations : ℕ)

/-- What the functions below do around `call`. The timer `t` is not initialized, and nothing
happens in the procedures. -/
def callOverhead (call : Unit) (t : Timer) (stamps : Stamps) (isUnitCycle : Bool) : K :=
  let report := fun t : Timer =>
    let () := call
    if isUnitCycle then (t.diff.toNat : K) else t.timeDiffNano freq
  addUp report stamps 0 nIterations t 0 / nIterations

def noParamsCall : Timer → Stamps → Bool → K :=
  callOverhead freq nIterations noParam

def oneParamCall : Timer → Stamps → Bool → K :=
  callOverhead freq nIterations (oneParam 10)

def twoParamsCall : Timer → Stamps → Bool → K :=
  callOverhead freq nIterations (twoParams 10 10)

def threeParamsCall : Timer → Stamps → Bool → K :=
  callOverhead freq nIterations (threeParams 10 10 10)

def fourParamsCall : Timer → Stamps → Bool → K :=
  callOverhead freq nIterations (fourParams 10 10 10 10)

def fiveParamsCall : Timer → Stamps → Bool → K :=
  callOverhead freq nIterations (fiveParams 10 10 10 10 10)

def sixParamsCall : Timer → Stamps → Bool → K :=
  callOverhead freq nIterations (sixParams 10 10 10 10 10 10)

def sevenParamsCall : Timer → Stamps → Bool → K :=
  callOverhead freq nIterations (sevenParams 10 10 10 10 10 10 10)

def procedureCalls : List (Timer → Stamps → Bool → K) :=
  [noParamsCall freq nIterations, oneParamCall freq nIterations, twoParamsCall freq nIterations,
    threeParamsCall freq nIterations, fourParamsCall freq nIterations,
    fiveParamsCall freq nIterations, sixParamsCall freq nIterations,
    sevenParamsCall freq nIterations]

def readTimeOverheadInCycles (t : Timer) (stamps : Stamps) : K :=
  addUp (fun t => (t.diff.toNat : K)) stamps 0 nIterations t 0 / nIterations

def readTimeOverheadInMicroSec (t : Timer) (stamps : Stamps) : K :=
  addUp (fun t => t.timeDiffNano freq) stamps 0 nIterations t 0 / nIterations

variable {freq nIterations}

/-- A factor in every report is a factor of the sum. -/
theorem addUp_mul {c : K} {report scaled : Timer → K} (h : ∀ t, scaled t = c * report t)
    (stamps : Stamps) (i left : ℕ) (t : Timer) (time : K) :
    addUp scaled stamps i left t (c * time) = c * addUp report stamps i left t time := by
  induction left generalizing i t time with
  | zero => rfl
  | succ left ih =>
    simp only [addUp, h, ← mul_add]
    exact ih (i + 1) _ _

theorem average_report_mul {c : K} {report scaled : Timer → K} (h : ∀ t, scaled t = c * report t)
    (stamps : Stamps) (t : Timer) :
    addUp scaled stamps 0 nIterations t 0 / nIterations =
      c * (addUp report stamps 0 nIterations t 0 / nIterations) := by
  have hsum := addUp_mul h stamps 0 nIterations t 0
  rw [mul_zero] at hsum
  rw [hsum, mul_div_assoc]

theorem callOverhead_nano (call : Unit) (t : Timer) (stamps : Stamps) :
    callOverhead freq nIterations call t stamps false =
      1000 / freq * callOverhead freq nIterations call t stamps true := by
  apply average_report_mul
  intro t
  exact t.timeDiffNano_eq freq

theorem procedureCall_nano {f : Timer → Stamps → Bool → K}
    (hf : f ∈ procedureCalls freq nIterations) (t : Timer) (stamps : Stamps) :
    f t stamps false = 1000 / freq * f t stamps true := by
  obtain ⟨call, rfl⟩ : ∃ call, f = callOverhead freq nIterations call := ⟨(), by
    simpa [procedureCalls, noParamsCall, oneParamCall, twoParamsCall, threeParamsCall,
      fourParamsCall, fiveParamsCall, sixParamsCall, sevenParamsCall] using hf⟩
  exact callOverhead_nano call t stamps

theorem readTimeOverhead_nano (t : Timer) (stamps : Stamps) :
    readTimeOverheadInMicroSec freq nIterations t stamps =
      1000 / freq * readTimeOverheadInCycles nIterations t stamps := by
  apply average_report_mul
  intro t
  exact t.timeDiffNano_eq freq

open MachineInt Stats

variable [LinearOrder K] [IsStrictOrderedRing K]

theorem runs_scale {c : K} (hc : 0 < c) {sqrt : K → K} {s : Stats K} (hruns : FitsInt s.runs)
    {cycles nanos : ℕ → K} (h : ∀ r, nanos r = c * cycles r) :
    ReportsScale sqrt c (s.resetVals.runFunc cycles).1 (s.resetVals.runFunc nanos).1 := by
  unfold FitsInt at hruns
  rw [runFunc_reset, runFunc_reset]
  have hnanos : (List.range s.runs.toNat).map nanos =
      ((List.range s.runs.toNat).map cycles).map (c * ·) := by
    rw [List.map_map]
    apply List.map_congr_left
    intro r _
    exact h r
  rw [hnanos]
  apply reportsScale_scaled hc
  rw [List.length_map, List.length_range]
  omega

/-- The reports in nanoseconds are those in cycles times `1000 / freq`, from one pair of stamps up
to the statistics of a whole experiment. -/
theorem reports_agree (hfreq : 0 < freq) (sqrt : K → K) (nIterations : ℕ) :
    (∀ (t : Timer) (s e : BitVec 64),
      (((t.begin s).end' e).diff.toNat : ℤ) = ((e.toNat : ℤ) - s.toNat) % 2 ^ 64) ∧
    (∀ f ∈ procedureCalls freq nIterations, ∀ t stamps,
      f t stamps false = 1000 / freq * f t stamps true) ∧
    (∀ t stamps, readTimeOverheadInMicroSec freq nIterations t stamps =
      1000 / freq * readTimeOverheadInCycles nIterations t stamps) ∧
    (∀ f ∈ procedureCalls freq nIterations, ∀ (s : Stats K) (t : ℕ → Timer) (stamps : ℕ → Stamps),
      FitsInt s.runs → ReportsScale sqrt (1000 / freq)
        (s.resetVals.runFuncUnit (fun isUnitCycle r => f (t r) (stamps r) isUnitCycle) true).1
        (s.resetVals.runFuncUnit (fun isUnitCycle r => f (t r) (stamps r) isUnitCycle) false).1) ∧
    ∀ (s : Stats K) (t : ℕ → Timer) (stamps : ℕ → Stamps),
      FitsInt s.runs → ReportsScale sqrt (1000 / freq)
        (s.resetVals.runFunc fun r => readTimeOverheadInCycles nIterations (t r) (stamps r)).1
        (s.resetVals.runFunc fun r =>
          readTimeOverheadInMicroSec freq nIterations (t r) (stamps r)).1 := by
  have hc : 0 < 1000 / freq := div_pos (by norm_num) hfreq
  refine ⟨Timer.diff_toNat, fun f hf => procedureCall_nano hf, readTimeOverhead_nano, ?_, ?_⟩
  · intro f hf s t stamps hruns
    exact runs_scale hc hruns fun r => procedureCall_nano hf (t r) (stamps r)
  · intro s t stamps hruns
    exact runs_scale hc hruns fun r => readTimeOverhead_nano (t r) (stamps r)

end

/-- The build's 2700 cycles a microsecond, with a counter that stands 27 cycles further each time
`end` reads it. -/
theorem reports_agree_build :
    (noParamsCall (2700 : ℚ) 10000 ⟨0, 0, 0, 0⟩ (fun _ => (5, 32)) false =
      1000 / 2700 * noParamsCall 2700 10000 ⟨0, 0, 0, 0⟩ (fun _ => (5, 32)) true) ∧
    Stats.ReportsScale id (1000 / 2700 : ℚ)
      ((Stats.new 100).resetVals.runFunc fun _ =>
        readTimeOverheadInCycles 10000 ⟨0, 0, 0, 0⟩ fun _ => (5, 32)).1
      ((Stats.new 100).resetVals.runFunc fun _ =>
        readTimeOverheadInMicroSec 2700 10000 ⟨0, 0, 0, 0⟩ fun _ => (5, 32)).1 := by
  obtain ⟨-, hcall, -, -, hruns⟩ := reports_agree (K := ℚ) (by norm_num : (0 : ℚ) < 2700) id 10000
  constructor
  · exact hcall _ (List.mem_cons_self ..) ⟨0, 0, 0, 0⟩ fun _ => (5, 32)
  · have hfits : MachineInt.FitsInt (Stats.new (T := ℚ) 100).runs := by decide
    exact hruns (Stats.new 100) (fun _ => ⟨0, 0, 0, 0⟩) (fun _ _ => (5, 32)) hfits

end SysPerf
