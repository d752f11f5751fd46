import SysPerf.CsvFile
import SysPerf.CtxSwitchKernel
import SysPerf.Interaction
import SysPerf.RamAccessOutput
import SysPerf.StatsSpread

namespace SysPerf.BenchReport

open CsvFile CtxSwitchKernel Dispersion MachineInt Program RamAccess

/-- What `main` of ctxswitch.cpp and of ctxswitchkernel.cpp calls. -/
inductive Call
  | useCores (cores : List ℕ)
  | overhead (c : Bench)
  | totalPass (c : Bench)
  | kernThreadRing (c : Bench)
  deriving DecidableEq

/-- How `<<` prints a double, as a cell that needs no quotes. -/
structure DoubleCell (K : Type) where
  print : K → Text
  print_ne_nil : ∀ x, print x ≠ []
  print_plain : ∀ x, ∀ c ∈ print x, c ≠ dquote ∧ c ≠ '\n' ∧ c ≠ ','

def headerTexts : List Text :=
  ["No. of pipes".toList, "Footprint size(KB)".toList, "Mean overhead (us)".toList,
    "Mean total (us)".toList, "Mean ctx switch (us)".toList, "Std dev (us)".toList]

section

variable {K : Type} [Field K]

abbrev Main (K : Type) :=
  Program Call K Op

/-- The loop of `run_func` with the turns it has left. -/
def runLoop (func : Call) : ℕ → Stats K → (Stats K → Main K) → Main K
  | 0, s, next => next s
  | left + 1, s, next => .ask func fun v => runLoop func left (s.push v) next

def runFunc (s : Stats K) (func : Call) (next : Stats K → Main K) : Main K :=
  runLoop func s.runs.toNat s next

variable (sqrt : K → K) (d : DoubleCell K)

def putInt (z : ℤ) (next : Main K) : Main K :=
  if FitsInt z then .emit (.raw (printInt z)) next else .undefined

def putDouble (value : Option K) (next : Main K) : Main K :=
  match value with
  | some x => .emit (.raw (d.print x)) next
  | none => .undefined

def putKb (footprintArrLen : ℕ) (next : Main K) : Main K :=
  if FitsInt (footprintArrLen * 4) then putInt (footprintArrLen * 4 / 1024) next else .undefined

/-- The statement `out << pipes << .. << endrow`. -/
def putRow (c : Bench) (s t : Stats K) (next : Main K) : Main K :=
  let A := Arith.exact sqrt
  putInt c.pipes <|
  putKb c.footprintArrLen <|
  putDouble d (s.mean A) <|
  putDouble d (t.mean A) <|
  putDouble d ((t.mean A).bind fun x => (s.mean A).map fun y => x - y) <|
  putDouble d (t.stdDev A) <|
  .emit .endrow next

/-- The body of the two loops. -/
def measure (ring : Bench → Call) (runs : ℕ) (c : Bench) (next : Main K) : Main K :=
  runFunc (.new runs) (.overhead c) fun s =>
  runFunc (.new runs) (ring c) fun t =>
  putRow sqrt d c s t next

/-- `main` from the construction of its `csvfile` on. -/
def benchMain (ring : Bench → Call) (p : Plan) : Main K :=
  headerTexts.foldr (fun text next => .emit (.text text) next) <|
  .emit .endrow <|
  .act (.useCores [0]) <|
  p.pipeSize.foldr (fun tp : ℕ+ => fun next => p.footprintSize.foldr (fun tf next =>
    measure sqrt d ring p.runs ⟨tp, tp.pos, tf, p.iters⟩ next) next) .halt

/-- `main` of ctxswitch.cpp, with its own number of `iters`. -/
def ctxswitch (p : Plan) : Main K :=
  benchMain sqrt d .totalPass p

def ctxswitchkernel (p : Plan) : Main K :=
  benchMain sqrt d .kernThreadRing p

def configs (p : Plan) : List Bench :=
  p.pipeSize.flatMap fun tp : ℕ+ => p.footprintSize.map fun tf => ⟨tp, tp.pos, tf, p.iters⟩

theorem benchMain_eq (ring : Bench → Call) (p : Plan) : benchMain sqrt d ring p =
    headerTexts.foldr (fun text next => .emit (.text text) next) (.emit .endrow
      (.act (.useCores [0]) ((configs p).foldr (measure sqrt d ring p.runs) .halt))) := by
  simp only [benchMain, configs, List.foldr_flatMap, List.foldr_map]

/-- The calls that measure one configuration. -/
def callsOf (ring : Bench → Call) (runs : ℕ) (c : Bench) : List Call :=
  List.replicate runs (.overhead c) ++ List.replicate runs (ring c)

def calls (ring : Bench → Call) (p : Plan) : List Call :=
  (configs p).flatMap (callsOf ring p.runs)

/-- A configuration with the times that its two functions have returned. -/
structure Measured (K : Type) where
  bench : Bench
  overheads : List K
  totals : List K

/-- The configurations that the given times suffice for, in order. -/
def finished (runs : ℕ) : List Bench → List K → List (Measured K)
  | [], _ => []
  | c :: cs, times =>
    if 2 * runs ≤ times.length then
      ⟨c, times.take runs, (times.drop runs).take runs⟩ :: finished runs cs (times.drop (2 * runs))
    else []

/-- The row of a configuration. -/
def Measured.texts (m : Measured K) : List Text :=
  [printInt m.bench.pipes, printInt (m.bench.footprintArrLen * 4 / 1024),
    d.print (average m.overheads), d.print (average m.totals),
    d.print (average m.totals - average m.overheads), d.print (sqrt (sqrt (deviation m.totals)))]

def rowOps (texts : List Text) : List Op :=
  texts.map .raw ++ [.endrow]

/-- What is written with the given configurations finished. -/
def reportOps (ms : List (Measured K)) : List Op :=
  headerTexts.map .text ++ .endrow :: ms.flatMap fun m => rowOps (m.texts sqrt d)

/-- The numbers of the plan are values of an int, and so are the sizes in bytes. -/
structure Fits (p : Plan) : Prop where
  pipes : ∀ tp ∈ p.pipeSize, FitsInt (tp : ℕ)
  bytes : ∀ tf ∈ p.footprintSize, FitsInt (tf * 4)

def FitsBench (c : Bench) : Prop :=
  FitsInt c.pipes ∧ FitsInt (c.footprintArrLen * 4)

theorem fits_configs {p : Plan} (h : Fits p) : ∀ c ∈ configs p, FitsBench c := by
  intro c hc
  obtain ⟨tp, htp, hc⟩ := List.mem_flatMap.mp hc
  obtain ⟨tf, htf, rfl⟩ := List.mem_map.mp hc
  exact ⟨h.pipes tp htp, h.bytes tf htf⟩

end

end SysPerf.BenchReport
