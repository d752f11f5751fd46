import SysPerf.Bench

namespace SysPerf.CtxSwitch

open TokenRing

/-- A child of `total_pass`; `j` is its loop counter, the passes it has finished. -/
inductive Child
  | unborn
  | starting
  | looping (j : ℕ)
  | touching (j offset : ℕ)
  | exited (j : ℕ)
  | reaped (j : ℕ)
  deriving DecidableEq

inductive Parent
  | forking (i : ℕ)
  | signalling
  | waiting
  | returned
  | failed (i : ℕ)
  deriving DecidableEq

structure State (c : Bench) where
  parent : Parent
  child : Fin c.pipes → Child
  pipe : Fin c.pipes → ℕ

/-- Which `fork` calls return -1 and in which children `use_cores` throws. -/
structure Faults (c : Bench) where
  fork : Fin c.pipes → Bool
  cores : Fin c.pipes → Bool

def Faults.none (c : Bench) : Faults c := ⟨fun _ => false, fun _ => false⟩

inductive Move (c : Bench)
  | parent
  | child (i : Fin c.pipes)
  | wait (i : Fin c.pipes)

def Child.gone : Child → Bool
  | .unborn => true
  | .reaped _ => true
  | _ => false

variable {c : Bench}

def State.setChild (s : State c) (i : Fin c.pipes) (ch : Child) : State c :=
  { s with child := Function.update s.child i ch }

def State.setPipe (s : State c) (q : Fin c.pipes) (bytes : ℕ) : State c :=
  { s with pipe := Function.update s.pipe q bytes }

/-- The parent from its fork loop to the end of `while(wait(NULL) > 0)`, where `wait`
returns -1 because no child is left. -/
def parentStep (flt : Faults c) (s : State c) : Option (State c × List (PipeOp c)) :=
  match s.parent with
  | .forking i =>
    if h : i < c.pipes then
      if flt.fork ⟨i, h⟩ then some ({ s with parent := .failed i }, [])
      else some ({ s.setChild ⟨i, h⟩ .starting with parent := .forking (i + 1) }, [])
    else some ({ s with parent := .signalling }, [])
  | .signalling =>
    some ({ s.setPipe 0 (s.pipe 0 + 1) with parent := .waiting }, [.write 0])
  | .waiting => if ∀ i, (s.child i).gone then some ({ s with parent := .returned }, []) else none
  | .returned => none
  | .failed _ => none

/-- Child `i`. It holds the write ends of all pipes, so its `read` of an empty pipe blocks. -/
def childStep (flt : Faults c) (s : State c) (i : Fin c.pipes) :
    Option (State c × List (PipeOp c)) :=
  match s.child i with
  | .starting =>
    if flt.cores i then some (s.setChild i (.exited 0), [])
    else some (s.setChild i (.looping 0), [])
  | .looping j =>
    if j < c.iters then
      let src := slot c.pipes (i + c.pipes - 1)
      if 0 < s.pipe src then
        some ((s.setPipe src (s.pipe src - 1)).setChild i (.touching j 0), [.read src])
      else none
    else some (s.setChild i (.exited j), [])
  | .touching j offset =>
    if offset < c.footprintArrLen then
      some (s.setChild i (.touching j (offset + 1)), [.touch offset])
    else
      let dst := slot c.pipes i
      some ((s.setPipe dst (s.pipe dst + 1)).setChild i (.looping (j + 1)), [.pass, .write dst])
  | .unborn => none
  | .exited _ => none
  | .reaped _ => none

/-- A `wait(NULL)` that returns the exited child `i`. -/
def waitStep (s : State c) (i : Fin c.pipes) : Option (State c × List (PipeOp c)) :=
  match s.parent, s.child i with
  | .waiting, .exited j => some (s.setChild i (.reaped j), [])
  | _, _ => none

def totalPass (c : Bench) (flt : Faults c) : Machine (State c) (Move c) (PipeOp c) where
  init := ⟨.forking 0, fun _ => .unborn, fun _ => 0⟩
  step s
    | .parent => parentStep flt s
    | .child i => childStep flt s i
    | .wait i => waitStep s i

def Child.passes : Child → ℕ
  | .unborn => 0
  | .starting => 0
  | .looping j => j
  | .touching j _ => j
  | .exited j => j
  | .reaped j => j

/-- The child is between its `read` and its `write`. -/
def Child.holds : Child → Bool
  | .touching _ _ => true
  | _ => false

/-- How many children the parent has forked. -/
def Parent.forked (pipes : ℕ) : Parent → ℕ
  | .forking i => i
  | .failed i => i
  | .signalling => pipes
  | .waiting => pipes
  | .returned => pipes

/-- The parent has written the byte that starts the chain. -/
def Parent.launched : Parent → Bool
  | .forking _ => false
  | .signalling => false
  | .waiting => true
  | .returned => true
  | .failed _ => false

/-- The baseline `overhead`: one process that writes and then reads each pipe in turn. -/
inductive Baseline (c : Bench)
  | looping (i : ℕ) (pipe : ℕ)
  | touching (i : ℕ) (pipe : Fin c.pipes) (offset : ℕ)
  | returned

structure BaselineState (c : Bench) where
  pc : Baseline c
  pipe : Fin c.pipes → ℕ

def overheadStep (s : BaselineState c) : Option (BaselineState c × List (PipeOp c)) :=
  match s.pc with
  | .looping i q =>
    if 0 < i then
      if h : q < c.pipes then
        some (⟨.touching i ⟨q, h⟩ 0, Function.update s.pipe ⟨q, h⟩ (s.pipe ⟨q, h⟩ + 1)⟩,
          [.write ⟨q, h⟩])
      else some ({ s with pc := .looping (i - 1) 0 }, [])
    else some ({ s with pc := .returned }, [])
  | .touching i q offset =>
    if offset < c.footprintArrLen then
      some ({ s with pc := .touching i q (offset + 1) }, [.touch offset])
    else if 0 < s.pipe q then
      some (⟨.looping i (q + 1), Function.update s.pipe q (s.pipe q - 1)⟩, [.pass, .read q])
    else none
  | .returned => none

def overhead (c : Bench) : Machine (BaselineState c) Unit (PipeOp c) where
  init := ⟨.looping c.iters 0, fun _ => 0⟩
  step s _ := overheadStep s

end SysPerf.CtxSwitch
