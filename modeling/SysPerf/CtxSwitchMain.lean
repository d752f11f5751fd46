import SysPerf.BenchReportRows
import SysPerf.CtxSwitchFailure
import SysPerf.CtxSwitchTrace
import SysPerf.Sequence

namespace SysPerf.CtxSwitch

open TokenRing

inductive Process
  | parent
  | child (i : ℕ)
  deriving DecidableEq

inductive Transfer
  | read (pipe : ℕ)
  | write (pipe : ℕ)
  deriving DecidableEq

/-- One byte through a pipe, with the process that reads or writes it and the mask it has. -/
structure Access where
  process : Process
  transfer : Transfer
  own : CpuSet
  deriving DecidableEq

def access {n : ℕ} (process : Process) (own : CpuSet) : Op n → Option Access
  | .read q => some ⟨process, .read q, own⟩
  | .write q => some ⟨process, .write q, own⟩
  | .touch _ => none
  | .pass => none

/-- `use_cores` in a process that has one thread. -/
def useCoresAlone (own : CpuSet) (cores : List ℕ) : CpuSet :=
  useCores (fun _ : Tid Unit => own) .main cores .main

/-- `total_pass` with the masks of its processes. -/
structure PassState (c : Bench) where
  own : CpuSet
  cores : Fin c.pipes → CpuSet
  state : State c

variable {c : Bench} {flt : Faults c}

/-- A forked child has its parent's mask until it calls `use_cores` itself. -/
def PassState.coresAfter (flt : Faults c) (s : PassState c) : Move c → Fin c.pipes → CpuSet
  | .parent =>
    match s.state.parent with
    | .forking i =>
      if h : i < c.pipes then
        if flt.fork ⟨i, h⟩ then s.cores else Function.update s.cores ⟨i, h⟩ s.own
      else s.cores
    | _ => s.cores
  | .child i =>
    match s.state.child i with
    | .starting =>
      if flt.cores i then s.cores
      else Function.update s.cores i (useCoresAlone (s.cores i) [1])
    | _ => s.cores
  | .wait _ => s.cores

/-- The accesses among the operations of a move. -/
def PassState.accesses (s : PassState c) (out : List (PipeOp c)) : Move c → List Access
  | .parent => out.filterMap (access .parent s.own)
  | .child i => out.filterMap (access (.child i) (s.cores i))
  | .wait _ => out.filterMap (access .parent s.own)

def PassState.step (flt : Faults c) (s : PassState c) (m : Move c) :
    Option (PassState c × List Access) :=
  ((totalPass c flt).step s.state m).map fun p =>
    (⟨s.own, s.coresAfter flt m, p.1⟩, s.accesses p.2 m)

/-- The moves of all calls. -/
inductive CallMove
  | overhead
  | parent
  | child (i : ℕ)
  | wait (i : ℕ)

def CallMove.pass (c : Bench) : CallMove → Option (Move c)
  | .overhead => none
  | .parent => some .parent
  | .child i => if h : i < c.pipes then some (.child ⟨i, h⟩) else none
  | .wait i => if h : i < c.pipes then some (.wait ⟨i, h⟩) else none

/-- A call of `overhead`, or a call of `total_pass` and what goes wrong in it. -/
inductive Call
  | overhead (c : Bench)
  | totalPass (c : Bench) (flt : Faults c)

def Call.func : Call → BenchReport.Call
  | .overhead c => .overhead c
  | .totalPass c _ => .totalPass c

def Call.State : Call → Type
  | .overhead c => CpuSet × BaselineState c
  | .totalPass c _ => PassState c

def Call.machine (own : CpuSet) : (f : Call) → Machine f.State CallMove Access
  | .overhead c => {
      init := (own, (CtxSwitch.overhead c).init)
      step := fun s e =>
        match e with
        | .overhead => (overheadStep s.2).map fun p =>
            ((s.1, p.1), p.2.filterMap (access .parent s.1))
        | _ => none }
  | .totalPass c flt => {
      init := ⟨own, fun _ => own, (CtxSwitch.totalPass c flt).init⟩
      step := fun s e => (e.pass c).bind (PassState.step flt s) }

/-- The mask of the parent once the call has returned. -/
def Call.result : (f : Call) → f.State → Option CpuSet
  | .overhead _, (own, s) =>
    match s.pc with
    | .returned => some own
    | _ => none
  | .totalPass _ _, s => if s.state.parent = .returned then some s.own else none

theorem Call.overhead_result {own d : CpuSet} {s : BaselineState c} :
    Call.result (.overhead c) (own, s) = some d ↔ s.pc = .returned ∧ own = d := by
  unfold Call.result
  cases hpc : s.pc <;> simp [hpc]

def callJobs : Jobs Call CpuSet CallMove Access :=
  ⟨Call.State, Call.machine, Call.result⟩

/-- `main` from its call of `use_cores` on, started with the given mask. -/
def main (own : CpuSet) (calls : List Call) :=
  callJobs.sequence (useCoresAlone own [0]) calls

def Process.core : Process → CpuSet
  | .parent => {0}
  | .child _ => {1}

def overheadAccesses (c : Bench) : List Access :=
  (List.range (c.iters * c.pipes)).flatMap fun t =>
    [⟨.parent, .write (t % c.pipes), {0}⟩, ⟨.parent, .read (t % c.pipes), {0}⟩]

def passAccesses (c : Bench) : List Access :=
  ⟨.parent, .write 0, {0}⟩ :: (List.range (c.iters * c.pipes)).flatMap fun t =>
    [⟨.child ((t + 1) % c.pipes), .read (t % c.pipes), {1}⟩,
      ⟨.child ((t + 1) % c.pipes), .write ((t + 1) % c.pipes), {1}⟩]

/-- All accesses of a call in which nothing goes wrong. -/
def Call.accesses : Call → List Access
  | .overhead c => overheadAccesses c
  | .totalPass c _ => passAccesses c

theorem useCoresAlone_eq (own : CpuSet) (cores : List ℕ) :
    useCoresAlone own cores = cores.toFinset :=
  useCores_main _ _ _

end SysPerf.CtxSwitch
