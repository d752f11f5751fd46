import SysPerf.Bench
import SysPerf.Proc

namespace SysPerf.KernelRing

open TokenRing

/-- A thread in `kern_thread_ring_routine`: `p` is the address it was given and `left` the
counter of its loop. -/
inductive Worker
  | unborn
  | starting (ptr : ℕ)
  | looping (p left : ℕ)
  | touching (p left offset : ℕ)
  | returned
  | joined
  deriving DecidableEq

inductive Main
  | creating (i : ℕ)
  | signalling
  | joining (i : ℕ)
  | returned
  deriving DecidableEq

/-- `heap` holds the live blocks `new int[2] {p[i][0], p[(i+1) % pipes][1]}`, each as the pipe
it reads and the pipe it writes. -/
structure State (c : Bench) where
  main : Main
  worker : Fin c.pipes → Worker
  pipe : Fin c.pipes → ℕ
  heap : ℕ → Option (Fin c.pipes × Fin c.pipes)
  mask : Tid (Fin c.pipes) → CpuSet

/-- `create ptr` is the turn of the creating loop in which `new` returns `ptr`. -/
inductive Move
  | create (ptr : ℕ)
  | main
  | worker (i : ℕ)
  deriving DecidableEq

variable {c : Bench}

def State.setWorker (s : State c) (i : Fin c.pipes) (w : Worker) : State c :=
  { s with worker := Function.update s.worker i w }

def State.setPipe (s : State c) (q : Fin c.pipes) (bytes : ℕ) : State c :=
  { s with pipe := Function.update s.pipe q bytes }

def createStep (s : State c) (ptr : ℕ) : Option (State c × List (PipeOp c)) :=
  match s.main with
  | .creating i =>
    if h : i < c.pipes then
      if s.heap ptr = none then
        some ({ s.setWorker ⟨i, h⟩ (.starting ptr) with
          main := .creating (i + 1)
          heap := Function.update s.heap ptr (some (⟨i, h⟩, slot c.pipes (i + 1)))
          mask := pthreadCreate s.mask .main (.worker ⟨i, h⟩) }, [])
      else none
    else none
  | _ => none

def mainStep (s : State c) : Option (State c × List (PipeOp c)) :=
  match s.main with
  | .creating i => if i < c.pipes then none else some ({ s with main := .signalling }, [])
  | .signalling =>
    some ({ s.setPipe 0 (s.pipe 0 + 1) with main := .joining 0 }, [.write 0])
  | .joining i =>
    if h : i < c.pipes then
      if s.worker ⟨i, h⟩ = .returned then
        some ({ s.setWorker ⟨i, h⟩ .joined with main := .joining (i + 1) }, [])
      else none
    else some ({ s with main := .returned }, [])
  | .returned => none

/-- A store is made wherever it lies; those behind `arr` are the ones that are not `inArr`. -/
def workerStep (s : State c) (i : Fin c.pipes) : Option (State c × List (PipeOp c)) :=
  match s.worker i with
  | .starting ptr =>
    some ({ s.setWorker i (.looping ptr c.iters) with
      mask := useCores s.mask (.worker i) [1] }, [])
  | .looping p left =>
    if 0 < left then
      match s.heap p with
      | some (src, _) =>
        if 0 < s.pipe src then
          some ((s.setPipe src (s.pipe src - 1)).setWorker i (.touching p left 0), [.read src])
        else none
      | none => none
    else some ({ s.setWorker i .returned with heap := Function.update s.heap p none }, [])
  | .touching p left offset =>
    if offset < c.footprintArrLen then
      some (s.setWorker i (.touching p left (offset + 1)), [.touch offset])
    else
      match s.heap p with
      | some (_, dst) =>
        some ((s.setPipe dst (s.pipe dst + 1)).setWorker i (.looping p (left - 1)),
          [.pass, .write dst])
      | none => none
  | .unborn => none
  | .returned => none
  | .joined => none

def step (s : State c) : Move → Option (State c × List (PipeOp c))
  | .create ptr => createStep s ptr
  | .main => mainStep s
  | .worker i => if h : i < c.pipes then workerStep s ⟨i, h⟩ else none

/-- A call of `kern_thread_ring` by a main thread that runs with the given mask. -/
def start (c : Bench) (mask : CpuSet) : State c :=
  ⟨.creating 0, fun _ => .unborn, fun _ => 0, fun _ => none, fun _ => mask⟩

def kernThreadRing (c : Bench) (mask : CpuSet) : Machine (State c) Move (PipeOp c) where
  init := start c mask
  step := step

def Worker.passes (iters : ℕ) : Worker → ℕ
  | .unborn => 0
  | .starting _ => 0
  | .looping _ left => iters - left
  | .touching _ left _ => iters - left
  | .returned => iters
  | .joined => iters

/-- The worker is between its `read` and its `write`. -/
def Worker.holds : Worker → Bool
  | .touching _ _ _ => true
  | _ => false

/-- The main thread has written the byte that starts the ring. -/
def Main.launched : Main → Bool
  | .creating _ => false
  | .signalling => false
  | .joining _ => true
  | .returned => true

/-- How many threads the main thread has created. -/
def Main.created (pipes : ℕ) : Main → ℕ
  | .creating i => i
  | .signalling => pipes
  | .joining _ => pipes
  | .returned => pipes

/-- How many threads the main thread has joined. -/
def Main.joined (pipes : ℕ) : Main → ℕ
  | .creating _ => 0
  | .signalling => 0
  | .joining i => i
  | .returned => pipes

end SysPerf.KernelRing
