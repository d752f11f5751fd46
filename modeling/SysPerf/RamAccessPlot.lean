import SysPerf.Grouping
import SysPerf.RamAccess

namespace SysPerf.RamAccess

open Grouping

abbrev Text := List Char

/-- An int as `<<` prints it. -/
def printInt : ℤ → Text
  | .ofNat n => Nat.toDigits 10 n
  | .negSucc n => '-' :: Nat.toDigits 10 (n + 1)

/-- How `<<` prints a double, as one word, and what Python's `float` makes of that word. -/
structure DoubleText (K Y : Type) where
  print : K → Text
  float : Text → Option Y
  printed : K → Y
  print_ne_nil : ∀ x, print x ≠ []
  print_word : ∀ x, ∀ c ∈ print x, c.isWhitespace = false
  float_print : ∀ x, float (print x) = some (printed x)

section

variable {K Y : Type} (d : DoubleText K Y)

/-- What `main` prints for one item of its map. -/
def printItem (item : (ℤ ×ₗ ℤ) × K) : Text :=
  printInt (ofLex item.1).1 ++ ' ' :: printInt (ofLex item.1).2 ++ ' ' :: d.print item.2

def mainOutput (times : Std.TreeMap (ℤ ×ₗ ℤ) K) : Text :=
  times.toList.flatMap fun item => printItem d item ++ ['\n']

end

/-- A text within one line. -/
structure Line where
  text : Text
  noNewline : '\n' ∉ text

theorem compile_noNewline : '\n' ∉ ("g++ -I ../utils -DCPU_FREQ=2700  -o ../build/ramAccessTime " ++
    "Memory/ramAccessTime.cpp ../utils/timer.cpp ../utils/stats.cpp").toList := by
  simp

theorem execute_noNewline : '\n' ∉ "./../build/ramAccessTime".toList := by
  simp

/-- The command lines of the target `ramAccessTime`. -/
def compileCommand : Line :=
  ⟨_, compile_noNewline⟩

def executeCommand : Line :=
  ⟨_, execute_noNewline⟩

/-- The file that `plot.py` reads: the compiler's command line and the program's, as `make` echoes
them, and the output of the program. -/
def outTxt (compile execute : Line) (output : Text) : Text :=
  compile.text ++ '\n' :: execute.text ++ '\n' :: output

/-- `f.readlines()` with a first line that has begun with `line`. -/
def readlines (line : Text) : Text → List Text
  | [] => if line = [] then [] else [line]
  | c :: rest =>
    if c = '\n' then (line ++ ['\n']) :: readlines [] rest else readlines (line ++ [c]) rest

/-- `line.split()`. -/
def split (line : Text) : List Text :=
  (line.splitOnP Char.isWhitespace).filter (· ≠ [])

/-- A turn of the loop over the lines, which throws for a line that has not three words. -/
def addLine (strides : Groups Text (Text × Text)) (line : Text) :
    Option (Groups Text (Text × Text)) :=
  match split line with
  | [arraySize, stride, time] => some (add stride (arraySize, time) strides)
  | _ => none

def readNat (digits : Text) : Option ℕ :=
  if digits ≠ [] ∧ digits.all Char.isDigit then some (Nat.ofDigitChars 10 digits 0) else none

/-- `int(text)` for decimal digits that may have a minus before them. -/
def int : Text → Option ℤ
  | '-' :: digits => (readNat digits).map fun n : ℕ => -(n : ℤ)
  | digits => (readNat digits).map fun n : ℕ => (n : ℤ)

section

variable {Y X : Type} (float : Text → Option Y) (log2 : ℤ → X)

/-- `math.log2`, which throws for what is not positive. -/
def mathLog2 (n : ℤ) : Option X :=
  if 0 < n then some (log2 n) else none

/-- The points that are drawn for one stride. -/
def points (items : List (Text × Text)) : Option (List (X × Y)) :=
  items.mapM fun item =>
    (int item.1).bind fun arraySize => (mathLog2 log2 arraySize).bind fun x =>
      (float item.2).map fun y => (x, y)

/-- `plot.py`: the series it draws by stride. -/
def plot (file : Text) : Option (Groups Text (X × Y)) :=
  (((readlines [] file).drop 2).foldlM addLine []).bind fun strides =>
    strides.mapM fun stride => (points float log2 stride.2).map fun drawn => (stride.1, drawn)

end

end SysPerf.RamAccess
