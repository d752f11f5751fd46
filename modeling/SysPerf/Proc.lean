import Mathlib.Data.Finset.Dedup
import Mathlib.Logic.Function.Basic

namespace SysPerf

/-- The threads of one process. -/
inductive Tid (ι : Type)
  | main
  | worker (i : ι)
  deriving DecidableEq

abbrev CpuSet := Finset ℕ

variable {ι : Type} [DecidableEq ι]

/-- `getpid()` is the id of the thread group, which is the id of its main thread. -/
def getpid (_caller : Tid ι) : Tid ι := .main

/-- `sched_setaffinity(id, ..)` sets the mask of the one thread `id`. -/
def schedSetaffinity (mask : Tid ι → CpuSet) (id : Tid ι) (set : CpuSet) : Tid ι → CpuSet :=
  Function.update mask id set

def useCores (mask : Tid ι → CpuSet) (caller : Tid ι) (cores : List ℕ) : Tid ι → CpuSet :=
  schedSetaffinity mask (getpid caller) cores.toFinset

/-- A new thread inherits the mask of its creator. -/
def pthreadCreate (mask : Tid ι → CpuSet) (creator new : Tid ι) : Tid ι → CpuSet :=
  Function.update mask new (mask creator)

end SysPerf
