import SysPerf.KernelPins
import Mathlib.Data.PNat.Basic

namespace SysPerf.CtxSwitchKernel

open TokenRing

/-- The vectors `pipe_size` and `footprint_size`, the argument of `Stats` and `iters`. -/
structure Plan where
  pipeSize : List ℕ+
  footprintSize : List ℕ
  runs : ℕ
  iters : ℕ

/-- The values the program is built with. -/
def Plan.source : Plan where
  pipeSize := [2, 4, 8, 16, 32]
  footprintSize := [0, 2048 / 4, 4096 / 4, 8192 / 4, 16384 / 4, 32768 / 4, 65536 / 4, 131072 / 4,
    589824 / 4]
  runs := 10
  iters := 1000

inductive Call
  | overhead (c : Bench)
  | kernThreadRing (c : Bench)

def Call.bench : Call → Bench
  | .overhead c => c
  | .kernThreadRing c => c

/-- `Stats::run_func` calls its argument `m_runs` times. -/
def runFunc (runs : ℕ) (func : Call) : List Call :=
  List.replicate runs func

/-- The benchmark calls of the two nested loops, in order. -/
def Plan.calls (p : Plan) : List Call :=
  p.pipeSize.flatMap fun tp : ℕ+ => p.footprintSize.flatMap fun tf =>
    let c : Bench := ⟨tp, tp.pos, tf, p.iters⟩
    runFunc p.runs (.overhead c) ++ runFunc p.runs (.kernThreadRing c)

/-- `mask` is the mask of the main thread; inside a call its threads have their own. -/
inductive State
  | starting (mask : CpuSet)
  | looping (mask : CpuSet) (calls : List Call)
  | inOverhead (c : Bench) (s : KernelOverhead.State c) (calls : List Call)
  | inRing (c : Bench) (s : KernelRing.State c) (calls : List Call)

inductive Move
  | main
  | overhead (e : KernelOverhead.Move)
  | ring (e : KernelRing.Move)

def mainStep (p : Plan) : State → Option State
  | .starting mask =>
    some (.looping (useCores (fun _ : Tid Unit => mask) .main [0] .main) p.calls)
  | .looping mask (.overhead c :: calls) =>
    some (.inOverhead c (KernelOverhead.start c mask) calls)
  | .looping mask (.kernThreadRing c :: calls) =>
    some (.inRing c (KernelRing.start c mask) calls)
  | .looping _ [] => none
  | .inOverhead _ s calls =>
    if s.main = .returned then some (.looping (s.mask .main) calls) else none
  | .inRing _ s calls =>
    if s.main = .returned then some (.looping (s.mask .main) calls) else none

def step (p : Plan) (s : State) : Move → Option (State × List Sample)
  | .main => (mainStep p s).map fun t => (t, [])
  | .overhead e =>
    match s with
    | .inOverhead c s calls => (KernelOverhead.step s e).map fun q =>
        (.inOverhead c q.1 calls, q.2.filterMap (sample s.mask e.tid))
    | _ => none
  | .ring e =>
    match s with
    | .inRing c s calls => (KernelRing.step s e).map fun q =>
        (.inRing c q.1 calls, q.2.filterMap (sample s.mask (e.tid c)))
    | _ => none

/-- A run of the program, started with the given mask. -/
def main (p : Plan) (mask : CpuSet) : Machine State Move Sample where
  init := .starting mask
  step := step p

end SysPerf.CtxSwitchKernel
