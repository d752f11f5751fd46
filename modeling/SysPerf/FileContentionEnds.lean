import SysPerf.FileContentionSpec

namespace SysPerf.FileContention

variable {n runs : ℕ}

/-- Moves of a process that has the given number of runs to go, and of all it creates in them. -/
def turns (n : ℕ) : ℕ → ℕ
  | 0 => 2
  | left + 1 => (n + 1) * turns n left + 2 * n + 3

/-- The same for a process at any place. -/
def Pc.turns (n runs : ℕ) : Pc → ℕ
  | .looping i => FileContention.turns n (runs - i)
  | .creating i j =>
    (n - j) * (FileContention.turns n (runs - (i + 1)) + 2) +
      FileContention.turns n (runs - (i + 1)) + 2
  | .reading i _ => FileContention.turns n (runs - (i + 1)) + 1
  | .waiting => 1
  | .exited => 0

/-- The moves that all processes can still make together. -/
def State.turns (n runs : ℕ) (s : State) : ℕ :=
  total (fun q => q.pc.turns n runs) s

end SysPerf.FileContention
