import SysPerf.CallOverhead
import SysPerf.FileBlocks
import SysPerf.OptionLoop
import Mathlib.Data.List.ProdSigma

namespace SysPerf.LocalAverages

open FileBlocks MachineInt OptionLoop

/-- Two readings of `steady_clock` in nanoseconds, which never goes back. -/
structure Interval where
  start : ℤ
  finish : ℤ
  le : start ≤ finish

/-- `duration_cast<microseconds>(end - start).count()`. -/
def Interval.microseconds (t : Interval) : ℤ :=
  (t.finish - t.start).tdiv 1000

/-- The length of a file and of the blocks that it is read in. -/
structure File where
  size : ℕ
  blockSize : ℕ
  pos : 0 < blockSize

section

variable {K : Type} [Field K] (freq : K) (iter : ℕ)

/-- The `time_diff_micro()` of a timer that reads `stamps` in `begin` and `end`. -/
def timed (t : Timer) (stamps : BitVec 64 × BitVec 64) : K :=
  ((t.begin stamps.1).end' stamps.2).timeDiffMicro freq

/-- The loop of the outerloop functions for `i` down to 1. A `fork` that fails is passed over. -/
def forkLoop (forks : ℕ → Bool) (spent : ℕ → K) : ℕ → K → K
  | 0, total => total
  | i + 1, total =>
    forkLoop forks spent i (if forks (i + 1) then total + spent (i + 1) else total)

/-- What the forks of the loop return leaves no trace in the value. -/
def createProcessTimeChronoInnerloop (t : Interval) : K :=
  (t.microseconds : K) / iter

def createProcessTimeChronoOuterloop (forks : ℕ → Bool) (t : ℕ → Interval) : K :=
  forkLoop forks (fun i => ((t i).microseconds : K)) iter 0 / iter

def createProcessTimeRtdscInnerloop (t : Timer) (stamps : BitVec 64 × BitVec 64) : K :=
  timed freq t stamps / iter

def createProcessTimeRtdscOuterloop (forks : ℕ → Bool) (t : ℕ → Timer) (stamps : Stamps) : K :=
  forkLoop forks (fun i => timed freq (t i) (stamps i)) iter 0 / iter

/-- `start_file_reading` from its loop over `N_ITERATIONS` on. What `pread` returns is put into
`temp` and not looked at. -/
def startFileReading (file : File) (rand : ℕ → ℕ → Rand) (t : Timer) (stamps : Stamps) :
    Option K :=
  ((List.range nIterations).mapM fun k =>
    readLoop file.size file.blockSize (rand k) 0 (turns file.size file.blockSize)).bind fun _ =>
      (divisor file.size file.blockSize).map fun d =>
        addUp (fun t => t.timeDiffMicro freq) stamps 0 nIterations t 0 / (d : K)

end

/-- The functions with all that they get from outside: what `fork` returns at `i`, the clock, and
what `pread` returns in the turn `i` of the iteration `k`. -/
inductive Benchmark
  | chronoInnerloop (iter : ℕ) (forks : ℕ → Bool) (t : Interval)
  | chronoOuterloop (iter : ℕ) (forks : ℕ → Bool) (t : ℕ → Interval)
  | rtdscInnerloop (iter : ℕ) (forks : ℕ → Bool) (t : Timer) (stamps : BitVec 64 × BitVec 64)
  | rtdscOuterloop (iter : ℕ) (forks : ℕ → Bool) (t : ℕ → Timer) (stamps : Stamps)
  | fileReading (file : File) (rand : ℕ → ℕ → Rand) (preads : ℕ → ℕ → ℤ) (t : Timer)
      (stamps : Stamps)

/-- The forks of a loop that create a child. -/
def children (iter : ℕ) (forks : ℕ → Bool) : ℕ :=
  (List.range iter).countP fun i => forks (i + 1)

/-- The calls of `pread` that return a whole block. -/
def fullReads (file : File) (preads : ℕ → ℕ → ℤ) : ℕ :=
  (List.range nIterations ×ˢ List.range (turns file.size file.blockSize)).countP
    fun p => preads p.1 p.2 = file.blockSize

namespace Benchmark

def happened : Benchmark → ℕ
  | .chronoInnerloop iter forks _ => children iter forks
  | .chronoOuterloop iter forks _ => children iter forks
  | .rtdscInnerloop iter forks _ _ => children iter forks
  | .rtdscOuterloop iter forks _ _ => children iter forks
  | .fileReading file _ preads _ _ => fullReads file preads

section

variable {K : Type} [Field K] (freq : K)

/-- The time that the function has accumulated when it divides. -/
def time : Benchmark → K
  | .chronoInnerloop _ _ t => t.microseconds
  | .chronoOuterloop iter forks t => forkLoop forks (fun i => ((t i).microseconds : K)) iter 0
  | .rtdscInnerloop _ _ t stamps => timed freq t stamps
  | .rtdscOuterloop iter forks t stamps =>
    forkLoop forks (fun i => timed freq (t i) (stamps i)) iter 0
  | .fileReading _ _ _ t stamps =>
    addUp (fun t => t.timeDiffMicro freq) stamps 0 nIterations t 0

def result : Benchmark → Option K
  | .chronoInnerloop iter _ t => some (createProcessTimeChronoInnerloop iter t)
  | .chronoOuterloop iter forks t => some (createProcessTimeChronoOuterloop iter forks t)
  | .rtdscInnerloop iter _ t stamps => some (createProcessTimeRtdscInnerloop freq iter t stamps)
  | .rtdscOuterloop iter forks t stamps =>
    some (createProcessTimeRtdscOuterloop freq iter forks t stamps)
  | .fileReading file rand _ t stamps => startFileReading freq file rand t stamps

end

/-- Every `fork` creates a child; the length of the file does not turn negative as an int, and
every `pread` returns a whole block. -/
def AllHappen : Benchmark → Prop
  | .chronoInnerloop iter forks _ => ∀ i < iter, forks (i + 1) = true
  | .chronoOuterloop iter forks _ => ∀ i < iter, forks (i + 1) = true
  | .rtdscInnerloop iter forks _ _ => ∀ i < iter, forks (i + 1) = true
  | .rtdscOuterloop iter forks _ _ => ∀ i < iter, forks (i + 1) = true
  | .fileReading file _ preads _ _ => 0 ≤ getFileSize file.size ∧
    ∀ k < nIterations, ∀ i < turns file.size file.blockSize, preads k i = file.blockSize

/-- The clock has not gone on in any interval that counts. -/
def NoTime : Benchmark → Prop
  | .chronoInnerloop _ _ t => t.finish < t.start + 1000
  | .chronoOuterloop iter forks t =>
    ∀ i < iter, forks (i + 1) = true → (t (i + 1)).finish < (t (i + 1)).start + 1000
  | .rtdscInnerloop _ _ _ stamps => stamps.1 = stamps.2
  | .rtdscOuterloop iter forks _ stamps =>
    ∀ i < iter, forks (i + 1) = true → (stamps (i + 1)).1 = (stamps (i + 1)).2
  | .fileReading _ _ _ _ stamps => ∀ k < nIterations, (stamps k).1 = (stamps k).2

end Benchmark

end SysPerf.LocalAverages
