import SysPerf.KernelRingPasses

namespace SysPerf.KernelOverhead

open TokenRing

/-- The single thread in `overhead_routine`: `left` counts its outer loop down, `i` is the
index of its inner loop. -/
inductive Worker (c : Bench)
  | unborn
  | starting
  | looping (left i : ℕ)
  | touching (left : ℕ) (i : Fin c.pipes) (offset : ℕ)
  | returned
  | joined

inductive Main
  | creating
  | signalling
  | joining
  | returned
  deriving DecidableEq

structure State (c : Bench) where
  main : Main
  worker : Worker c
  pipe : Fin c.pipes → ℕ
  mask : Tid Unit → CpuSet

inductive Move
  | main
  | worker
  deriving DecidableEq

variable {c : Bench}

def State.setPipe (s : State c) (q : Fin c.pipes) (bytes : ℕ) : State c :=
  { s with pipe := Function.update s.pipe q bytes }

def mainStep (s : State c) : Option (State c × List (PipeOp c)) :=
  match s.main with
  | .creating =>
    some ({ s with main := .signalling, worker := .starting,
                   mask := pthreadCreate s.mask .main (.worker ()) }, [])
  | .signalling =>
    some ({ s.setPipe 0 (s.pipe 0 + 1) with main := .joining }, [.write 0])
  | .joining =>
    match s.worker with
    | .returned => some ({ s with main := .returned, worker := .joined }, [])
    | _ => none
  | .returned => none

/-- The stores are those of `KernelRing.workerStep`, into an array of the same length. -/
def workerStep (s : State c) : Option (State c × List (PipeOp c)) :=
  match s.worker with
  | .starting =>
    some ({ s with worker := .looping c.iters 0, mask := useCores s.mask (.worker ()) [1] }, [])
  | .looping left i =>
    if 0 < left then
      if h : i < c.pipes then
        if 0 < s.pipe ⟨i, h⟩ then
          some ({ s.setPipe ⟨i, h⟩ (s.pipe ⟨i, h⟩ - 1) with worker := .touching left ⟨i, h⟩ 0 },
            [.read ⟨i, h⟩])
        else none
      else some ({ s with worker := .looping (left - 1) 0 }, [])
    else some ({ s with worker := .returned }, [])
  | .touching left i offset =>
    if offset < c.footprintArrLen then
      some ({ s with worker := .touching left i (offset + 1) }, [.touch offset])
    else
      let dst := slot c.pipes (i + 1)
      some ({ s.setPipe dst (s.pipe dst + 1) with worker := .looping left (i + 1) },
        [.pass, .write dst])
  | .unborn => none
  | .returned => none
  | .joined => none

def step (s : State c) : Move → Option (State c × List (PipeOp c))
  | .main => mainStep s
  | .worker => workerStep s

/-- A call of `overhead` by a main thread that runs with the given mask. -/
def start (c : Bench) (mask : CpuSet) : State c :=
  ⟨.creating, .unborn, fun _ => 0, fun _ => mask⟩

def overhead (c : Bench) (mask : CpuSet) : Machine (State c) Move (PipeOp c) where
  init := start c mask
  step := step

def Main.launched : Main → Bool
  | .creating => false
  | .signalling => false
  | .joining => true
  | .returned => true

/-- The turn that the thread has come to, counting the inner loop over all outer rounds. -/
def turn (c : Bench) (left i : ℕ) : ℕ :=
  (c.iters - left) * c.pipes + i

theorem slot_turn (left : ℕ) (i : Fin c.pipes) : slot c.pipes (turn c left i) = i :=
  Fin.ext (by simp [turn, Nat.mul_add_mod_self_right, Nat.mod_eq_of_lt i.isLt])

/-- Where the thread can be when the token is at `a`. -/
def Worker.At (a : Token) : Worker c → Prop
  | .unborn => a = .absent
  | .starting => a = .absent ∨ a = .inChannel 0
  | .looping left i => left ≤ c.iters ∧ i ≤ c.pipes ∧ (left = 0 → i = 0) ∧
      (a = .inChannel (turn c left i) ∨ a = .absent ∧ left = c.iters ∧ i = 0)
  | .touching left i offset => 0 < left ∧ left ≤ c.iters ∧ a = .held (turn c left i) offset
  | .returned => a = .inChannel (c.iters * c.pipes) ∨ a = .absent ∧ c.iters = 0
  | .joined => a = .inChannel (c.iters * c.pipes)

/-- The state agrees with the position `a` of the token. -/
structure State.At (s : State c) (a : Token) : Prop where
  launched : s.main.launched = true ↔ a ≠ .absent
  born : s.worker = .unborn ↔ s.main = .creating
  done : s.main = .returned → s.worker = .joined
  pipe : s.pipe = (a.ring : Ring c.pipes).chan
  worker : s.worker.At a
  valid : a.Valid c.pipes c.iters c.footprintArrLen

end SysPerf.KernelOverhead
