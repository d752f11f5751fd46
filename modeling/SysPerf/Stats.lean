import SysPerf.Machine
import SysPerf.MachineInt
import SysPerf.OrderStats
import Mathlib.Algebra.Field.Defs

namespace SysPerf

open MachineInt OrderStats

/-- The arithmetic of one instance of `Stats<T>`. A sum of samples is `none` where the code has
no defined result; `divSize` and `half` divide by `m_vals.size()` and by 2 and convert to double. -/
structure Arith (T D : Type) where
  zero : T
  add : T → T → Option T
  divSize : T → ℕ → D
  half : T → D
  toDouble : T → D
  sqrt : D → D

/-- `Stats<double>` in exact arithmetic. -/
def Arith.exact {K : Type} [Field K] (sqrt : K → K) : Arith K K where
  zero := 0
  add x y := some (x + y)
  divSize x n := x / n
  half x := x / 2
  toDouble x := x
  sqrt := sqrt

/-- `vals` and `runs` are `m_vals` and `m_runs`. -/
structure Stats (T : Type) where
  vals : List T
  runs : ℤ
  deriving DecidableEq

namespace Stats

variable {T D : Type}

def new (n : ℤ) : Stats T :=
  ⟨[], n⟩

def push (s : Stats T) (v : T) : Stats T :=
  { s with vals := s.vals ++ [v] }

/-- The loop of `run_func` from its turn `i` on. `func i` is what the callback returns there;
the list holds what it has returned. -/
def runLoop (func : ℕ → T) (i : ℕ) : ℕ → Stats T → Stats T × List T
  | 0, s => (s, [])
  | left + 1, s =>
    let v := func i
    let (t, out) := runLoop func (i + 1) left (s.push v)
    (t, v :: out)

def runFunc (s : Stats T) (func : ℕ → T) : Stats T × List T :=
  runLoop func 0 s.runs.toNat s

/-- The overload for a callback with a parameter `isUnitCycle`. -/
def runFuncUnit (s : Stats T) (func : Bool → ℕ → T) (isUnitCycle : Bool) : Stats T × List T :=
  runLoop (func isUnitCycle) 0 s.runs.toNat s

/-- The overload for a callback that works on an array. -/
def runFuncMem (s : Stats T) (func : List ℤ → ℤ → ℤ → ℕ → T) (mem : List ℤ)
    (arraySize stride : ℤ) : Stats T × List T :=
  runLoop (func mem arraySize stride) 0 s.runs.toNat s

section

variable [LinearOrder T] [Field D] (A : Arith T D)

def mean (s : Stats T) : Option D :=
  if s.vals.length = 0 then some 0
  else (s.vals.foldlM A.add A.zero).map fun sum => A.divSize sum s.vals.length

def variance (s : Stats T) : Option D :=
  if s.vals.length = 0 then some 0
  else (s.mean A).map fun m =>
    let sum := s.vals.foldl (fun sum v => sum + (A.toDouble v - m) ^ 2) 0
    A.sqrt (sum / s.vals.length)

def stdDev (s : Stats T) : Option D :=
  (s.variance A).map A.sqrt

/-- `m_vals[i]` for an int `i`. A negative one becomes an index behind the end of any vector. -/
def elemAt (vals : List T) (i : ℤ) : Option T :=
  if i < 0 then none else vals[i.toNat]?

/-- What `median` returns once the samples are sorted. -/
def middle (vals : List T) : Option D :=
  if vals.length % 2 ≠ 0 then vals[vals.length / 2]?.map A.toDouble
  else
    let mid := toInt (vals.length / 2 : ℕ)
    (elemAt vals mid).bind fun x => (elemAt vals (mid - 1)).bind fun y => (A.add x y).map A.half

def median (s : Stats T) : Stats T × Option D :=
  if s.vals.length = 0 then (s, some 0)
  else
    let vals := sort s.vals
    ({ s with vals := vals }, middle A vals)

end

def getVals (s : Stats T) : List T :=
  s.vals

def resetVals (s : Stats T) : Stats T :=
  { s with vals := [] }

inductive Query
  | mean
  | median
  | variance
  | stdDev
  deriving DecidableEq

/-- A call of a query, which may leave the object changed. -/
def answer [LinearOrder T] [Field D] (A : Arith T D) (s : Stats T) : Query → Stats T × Option D
  | .mean => (s, s.mean A)
  | .median => s.median A
  | .variance => (s, s.variance A)
  | .stdDev => (s, s.stdDev A)

inductive Op (T : Type)
  | runFunc (func : ℕ → T)
  | runFuncUnit (func : Bool → ℕ → T) (isUnitCycle : Bool)
  | runFuncMem (func : List ℤ → ℤ → ℤ → ℕ → T) (mem : List ℤ) (arraySize stride : ℤ)
  | query (q : Query)
  | getVals
  | resetVals

/-- What can be seen of an operation: each value that a callback returns and each answer. -/
inductive Event (T D : Type)
  | returned (v : T)
  | answered (q : Query) (value : Option D)
  | vals (vs : List T)
  | reset

def step [LinearOrder T] [Field D] (A : Arith T D) (s : Stats T) :
    Op T → Stats T × List (Event T D)
  | .runFunc func =>
    let (t, out) := s.runFunc func
    (t, out.map .returned)
  | .runFuncUnit func isUnitCycle =>
    let (t, out) := s.runFuncUnit func isUnitCycle
    (t, out.map .returned)
  | .runFuncMem func mem arraySize stride =>
    let (t, out) := s.runFuncMem func mem arraySize stride
    (t, out.map .returned)
  | .query q =>
    let (t, value) := s.answer A q
    (t, [.answered q value])
  | .getVals => (s, [.vals s.getVals])
  | .resetVals => (s.resetVals, [.reset])

/-- One object constructed with `n`, under any operations in any order. -/
def object [LinearOrder T] [Field D] (A : Arith T D) (n : ℤ) :
    Machine (Stats T) (Op T) (Event T D) where
  init := new n
  step s op := some (step A s op)

/-- The samples after one more event. -/
def Event.collect (vals : List T) : Event T D → List T
  | .returned v => vals ++ [v]
  | .answered _ _ => vals
  | .vals _ => vals
  | .reset => []

/-- What callbacks have returned since the last reset, in order. -/
def collected (tr : List (Event T D)) : List T :=
  tr.foldl Event.collect []

/-- The values that a `run_func` gets from its callback, by turns of its loop. -/
def Op.callback? : Op T → Option (ℕ → T)
  | .runFunc func => some func
  | .runFuncUnit func isUnitCycle => some (func isUnitCycle)
  | .runFuncMem func mem arraySize stride => some (func mem arraySize stride)
  | _ => none

end Stats

end SysPerf
