import SysPerf.Machine

namespace SysPerf.FileContention

/-- Where a process is: at the head of the loop of `run_func`, in the loop of
`create_processes`, between its return and the end of `start_file_reading`, or in the loop
of `main` that waits. `i` is the counter of the process's own copy of the loop of `run_func`. -/
inductive Pc
  | looping (i : ℕ)
  | creating (i j : ℕ)
  | reading (i : ℕ) (fileIdx : ℤ)
  | waiting
  | exited
  deriving DecidableEq

structure Proc where
  parent : Option ℕ
  pc : Pc
  deriving DecidableEq

/-- The processes in the order of their creation, the root first. -/
abbrev State := List Proc

/-- `fallOff pid eax` ends `create_processes` without a `return`, with whatever `eax` holds as
the file index. `fopen pid found` is the `fopen` of `get_file_size` and what follows it. -/
inductive Move
  | run (pid : ℕ)
  | fallOff (pid : ℕ) (eax : ℤ)
  | fopen (pid : ℕ) (found : Bool)
  deriving DecidableEq

inductive Event
  | executes (pid run : ℕ)
  | forked (parent child run : ℕ)
  | aborted (pid run : ℕ)
  deriving DecidableEq

def State.setPc (s : State) (pid : ℕ) (q : Proc) (pc : Pc) : State :=
  s.set pid { q with pc := pc }

/-- Every child of the process has exited, so that `wait(NULL)` returns -1. -/
def State.childless (s : State) (pid : ℕ) : Bool :=
  s.all fun q => q.parent ≠ some pid || q.pc = .exited

def runStep (n runs : ℕ) (s : State) (pid : ℕ) : Option (State × List Event) :=
  match s[pid]? with
  | some q =>
    match q.pc with
    | .looping i =>
      if i < runs then some (s.setPc pid q (.creating i 0), [.executes pid i])
      else some (s.setPc pid q .waiting, [])
    | .creating i j =>
      if j < n then
        some (s.setPc pid q (.creating i (j + 1)) ++ [⟨some pid, .reading i j⟩],
          [.forked pid s.length i, .executes s.length i])
      else none
    | .reading _ _ => none
    | .waiting => if s.childless pid then some (s.setPc pid q .exited, []) else none
    | .exited => none
  | none => none

def fallOffStep (n : ℕ) (s : State) (pid : ℕ) (eax : ℤ) : Option (State × List Event) :=
  match s[pid]? with
  | some q =>
    match q.pc with
    | .creating i j => if j < n then none else some (s.setPc pid q (.reading i eax), [])
    | _ => none
  | none => none

def fopenStep (s : State) (pid : ℕ) (found : Bool) : Option (State × List Event) :=
  match s[pid]? with
  | some q =>
    match q.pc with
    | .reading i _ =>
      if found then some (s.setPc pid q (.looping (i + 1)), [])
      else some (s.setPc pid q .exited, [.aborted pid i])
    | _ => none
  | none => none

def step (n runs : ℕ) (s : State) : Move → Option (State × List Event)
  | .run pid => runStep n runs s pid
  | .fallOff pid eax => fallOffStep n s pid eax
  | .fopen pid found => fopenStep s pid found

/-- `main` with `n_processes = n` and `Stats<double> s(runs)`, every `fork` succeeding. -/
def main (n runs : ℕ) : Machine State Move Event where
  init := [⟨none, .looping 0⟩]
  step := step n runs

/-- The process is in a call of `start_file_reading`. -/
def Pc.inside : Pc → Bool
  | .creating _ _ => true
  | .reading _ _ => true
  | _ => false

def State.inside (s : State) : ℕ :=
  s.countP fun q => q.pc.inside

def State.complete (s : State) : Prop :=
  ∀ q ∈ s, q.pc = .exited

/-- The processes that execute `start_file_reading` in the given run, in order. -/
def executors (tr : List Event) (run : ℕ) : List ℕ :=
  tr.filterMap fun
    | .executes pid i => if i = run then some pid else none
    | _ => none

/-- The processes that were created, in order. -/
def created (tr : List Event) : List ℕ :=
  tr.filterMap fun
    | .forked _ child _ => some child
    | _ => none

/-- The benchmark measures `n + 1` processes in each run and creates `n` for each. -/
structure ContentionSpec (n runs : ℕ) : Prop where
  inside : ∀ {tr s}, Reach (main n runs) tr s → s.inside ≤ n + 1
  executors : ∀ {tr s}, Reach (main n runs) tr s → s.complete → ∀ run < runs,
    (executors tr run).toFinset.card = n + 1 ∧
      ∀ pid, pid ∈ executors tr run ↔ pid = 0 ∨ ∃ parent, .forked parent pid run ∈ tr
  created : ∀ {tr s}, Reach (main n runs) tr s → s.complete → (created tr).length = n * runs

end SysPerf.FileContention
