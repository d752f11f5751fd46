import SysPerf.FileBlocks
import SysPerf.Timer
import Mathlib.Algebra.Field.Rat
import Mathlib.Data.Prod.Lex

namespace SysPerf.RamAccess

open FileBlocks (checkInt)

/-- `N_RUNS`. -/
def nRuns : ℕ := 3

/-- `N_LOADS`. -/
def nLoads : ℕ := 1000000

/-- `mem[idx]`, `none` outside the array. -/
def load (mem : List ℤ) (idx : ℤ) : Option ℤ :=
  if 0 ≤ idx then mem[idx.toNat]? else none

/-- `mem[k] = val`, `none` outside the array. -/
def store (mem : List ℤ) (k : ℕ) (val : ℤ) : Option (List ℤ) :=
  if k < mem.length then some (mem.set k val) else none

/-- `new int[array_size]`, which throws for a negative size. The elements are not initialized, so
they are what is `fresh` in the memory. -/
def newArray (arraySize : ℤ) (fresh : ℕ → ℤ) : Option (List ℤ) :=
  if 0 ≤ arraySize then some ((List.range arraySize.toNat).map fresh) else none

/-- `count` turns of the loop that chases `idx` through the array: the indices it loads from, and
`idx` behind it. -/
def chase (mem : List ℤ) : ℕ → ℤ → Option (List ℤ × ℤ)
  | 0, idx => some ([], idx)
  | count + 1, idx =>
    (load mem idx).bind fun next =>
      (chase mem count next).map fun (visited, last) => (idx :: visited, last)

/-- A call of `memory_access_time_given_stride_arraysize`. -/
structure Call (K : Type) where
  arraySize : ℤ
  stride : ℤ
  visited : List ℤ
  time : K

section

variable {K : Type} [Field K] (freq : K)

/-- The timer `t` is not initialized; the stamps are those of its `begin` and `end`. -/
def memoryAccessTimeGivenStrideArraysize (t : Timer) (stamps : BitVec 64 × BitVec 64)
    (mem : List ℤ) (arraySize stride : ℤ) : Option (Call K) :=
  (chase mem nLoads 0).map fun (visited, _) =>
    ⟨arraySize, stride, visited,
      ((t.begin stamps.1).end' stamps.2).timeDiffNano freq / nLoads⟩

/-- What the calls of a driver meet, by the turns of its loops: memory fresh from `new`, a timer,
and the stamps it reads. -/
structure Env where
  fresh : ℕ → ℕ → ℕ → ℤ
  timer : ℕ → ℕ → Timer
  stamps : ℕ → ℕ → BitVec 64 × BitVec 64

/-- The loop of `memory_access_time_fixed_array_size` from `strides[j]` on. -/
def fixedArraySizeLoop (env : Env) (mem : List ℤ) (arraySize : ℤ) (j : ℕ) :
    List ℤ → List (Call K) → Std.TreeMap ℤ K → Option (List (Call K) × Std.TreeMap ℤ K)
  | [], calls, times => some (calls, times)
  | stride :: strides, calls, times =>
    (memoryAccessTimeGivenStrideArraysize freq (env.timer j 0) (env.stamps j 0) mem arraySize
      stride).bind fun call =>
        fixedArraySizeLoop env mem arraySize (j + 1) strides (calls ++ [call])
          (times.insert stride call.time)

def memoryAccessTimeFixedArraySize (env : Env) (strides : List ℤ) (arraySize : ℤ) :
    Option (List (Call K) × Std.TreeMap ℤ K) :=
  (newArray arraySize (env.fresh 0 0)).bind fun mem =>
    fixedArraySizeLoop freq env mem arraySize 0 strides [] ∅

/-- `(k + stride) % array_size`, `none` for an overflow or a division by zero. -/
def entry (arraySize stride k : ℤ) : Option ℤ :=
  (checkInt (k + stride)).bind fun sum =>
    if arraySize = 0 then none else some (sum.tmod arraySize)

/-- The loop that fills the array, with `left` turns from `k` on. -/
def fillLoop (arraySize stride : ℤ) (k : ℕ) : ℕ → List ℤ → Option (List ℤ)
  | 0, mem => some mem
  | left + 1, mem =>
    (entry arraySize stride k).bind fun val =>
      (store mem k val).bind (fillLoop arraySize stride (k + 1) left)

def filledArray (arraySize stride : ℤ) (fresh : ℕ → ℤ) : Option (List ℤ) :=
  (newArray arraySize fresh).bind (fillLoop arraySize stride 0 arraySize.toNat)

/-- The runs for `array_sizes[j]`. -/
def runs (env : Env) (j : ℕ) (arraySize stride : ℤ) : Option (List (Call K)) :=
  (List.range nRuns).mapM fun i =>
    (filledArray arraySize stride (env.fresh j i)).bind fun mem =>
      memoryAccessTimeGivenStrideArraysize freq (env.timer j i) (env.stamps j i) mem arraySize
        stride

/-- `mean / N_RUNS`. -/
def meanTime (calls : List (Call K)) : K :=
  calls.foldl (fun mean call => mean + call.time) 0 / nRuns

/-- The loop of `memory_access_time_fixed_stride` from `array_sizes[j]` on. -/
def fixedStrideLoop (env : Env) (stride : ℤ) (j : ℕ) :
    List ℤ → List (Call K) → Std.TreeMap ℤ K → Option (List (Call K) × Std.TreeMap ℤ K)
  | [], calls, times => some (calls, times)
  | arraySize :: arraySizes, calls, times =>
    (runs freq env j arraySize stride).bind fun more =>
      fixedStrideLoop env stride (j + 1) arraySizes (calls ++ more)
        (times.insert arraySize (meanTime more))

def memoryAccessTimeFixedStride (env : Env) (arraySizes : List ℤ) (stride : ℤ) :
    Option (List (Call K) × Std.TreeMap ℤ K) :=
  fixedStrideLoop freq env stride 0 arraySizes [] ∅

/-- The loop of `memory_access_time` from `strides[i]` on. -/
def memoryAccessTimeLoop (env : ℕ → Env) (arraySizes : List ℤ) (i : ℕ) :
    List ℤ → Std.TreeMap (ℤ ×ₗ ℤ) K → Option (Std.TreeMap (ℤ ×ₗ ℤ) K)
  | [], times => some times
  | stride :: strides, times =>
    (memoryAccessTimeFixedStride freq (env i) arraySizes stride).bind fun (_, timesFixedArray) =>
      memoryAccessTimeLoop env arraySizes (i + 1) strides
        (timesFixedArray.toList.foldl
          (fun times item => times.insert (toLex (item.1, stride)) item.2) times)

/-- The times by array size and stride. -/
def memoryAccessTime (env : ℕ → Env) (arraySizes strides : List ℤ) :
    Option (Std.TreeMap (ℤ ×ₗ ℤ) K) :=
  memoryAccessTimeLoop freq env arraySizes 0 strides ∅

end

/-- The array sizes that `main` measures: numbers of elements, for arrays of 2 KB to 1 GB. -/
def mainArraySizes : List ℤ :=
  (List.range' 11 20).map fun i => 2 ^ i / 4

def mainStrides : List ℤ :=
  [64, 128, 256, 512, 1024, 2048, 4096, 8192]

end SysPerf.RamAccess
