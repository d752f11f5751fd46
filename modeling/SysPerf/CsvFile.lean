import SysPerf.Rfc4180RoundTrip

namespace SysPerf.CsvFile

open Rfc4180

def dquote : Char := '"'

/-- `val.find_first_of(special_chars, from)`, with `none` for `npos`. -/
def findFirstOf (val specialChars : List Char) (start : ℕ) : Option ℕ :=
  ((val.drop start).findIdx? (· ∈ specialChars)).map (start + ·)

/-- `val.substr(pos, count)`, with `none` as the count for `npos`. It throws for a `pos` behind
the end. -/
def substr (val : List Char) (pos : ℕ) (count : Option ℕ) : Option (List Char) :=
  if pos ≤ val.length then
    match count with
    | some k => some ((val.drop pos).take k)
    | none => some (val.drop pos)
  else none

def escapeSeq : List Char := [dquote]

def specialChars : List Char := [dquote]

/-- The loop of `escape` with its `from` and its `result`. It is `none` if `fuel` turns are not
enough or a call in it throws. -/
def escapeLoop (val : List Char) : ℕ → ℕ → List Char → Option (ℕ × List Char)
  | 0, _, _ => none
  | fuel + 1, start, result =>
    if start < val.length then
      match findFirstOf val specialChars start with
      | some stop =>
        (substr val start (some (stop - start))).bind fun piece =>
          val[stop]?.bind fun c =>
            escapeLoop val fuel (stop + 1) (result ++ piece ++ escapeSeq ++ [c])
      | none => some (start, result)
    else some (start, result)

def escape (val : List Char) : Option (List Char) :=
  (escapeLoop val (val.length + 1) 0 [dquote]).bind fun (start, result) =>
    (substr val start none).map fun rest => result ++ rest ++ [dquote]

/-- The positions that `escape` calls `substr` with, from a turn of its loop with its `from` on; the
last call is the one behind the loop. -/
def substrPositions (val : List Char) : ℕ → ℕ → List ℕ
  | 0, _ => []
  | fuel + 1, start =>
    if start < val.length then
      match findFirstOf val specialChars start with
      | some stop => start :: substrPositions val fuel (stop + 1)
      | none => [start]
    else [start]

/-- The separator a `csvfile` is constructed with. -/
structure Separator where
  chars : List Char
  nonempty : chars ≠ []
  noQuote : dquote ∉ chars
  noNewline : '\n' ∉ chars

/-- The default argument of the constructor. -/
def Separator.comma : Separator :=
  ⟨[','], by decide, by decide, by decide⟩

/-- The stream `fs_`, as what it still buffers and what the file has, and `is_first_`. -/
structure State where
  isFirst : Bool
  buffer : List Char
  disk : List Char
  deriving DecidableEq

/-- `text` is a `const char *` or a `std::string`, `raw` any other value as it is printed. -/
inductive Op
  | text (val : List Char)
  | raw (printed : List Char)
  | endrow
  | flush
  deriving DecidableEq

def start : State := ⟨true, [], []⟩

def State.insert (s : State) (val : List Char) : State :=
  { s with buffer := s.buffer ++ val }

def State.flush (s : State) : State :=
  { s with buffer := [], disk := s.disk ++ s.buffer }

def State.write (sep : Separator) (s : State) (val : List Char) : State :=
  let s := if s.isFirst then { s with isFirst := false } else s.insert sep.chars
  s.insert val

/-- `std::endl` inserts a newline and flushes. -/
def State.endrow (s : State) : State :=
  { (s.insert ['\n']).flush with isFirst := true }

def step (sep : Separator) (s : State) : Op → Option State
  | .text val => (escape val).map (s.write sep)
  | .raw printed => some (s.write sep printed)
  | .endrow => some s.endrow
  | .flush => some s.flush

def run (sep : Separator) (ops : List Op) : Option State :=
  ops.foldlM (step sep) start

/-- What `~csvfile` leaves in the file, which it flushes and closes. -/
def State.file (s : State) : List Char :=
  s.flush.disk

def output (sep : Separator) (ops : List Op) : Option (List Char) :=
  (run sep ops).map State.file

/-- The table the caller means to write. -/
def addOp (t : Table (Cell Char)) : Op → Table (Cell Char)
  | .text val => { t with last := t.last ++ [.quoted val] }
  | .raw printed => { t with last := t.last ++ [.bare printed] }
  | .endrow => ⟨t.rows ++ [t.last], []⟩
  | .flush => t

def written (ops : List Op) : Table (Cell Char) :=
  ops.foldl addOp ⟨[], []⟩

def Separator.dialect (sep : Separator) : Dialect Char where
  quote := dquote
  newline := '\n'
  separator := sep.chars
  quote_ne_newline := by decide
  separator_ne_nil := sep.nonempty
  quote_not_mem := sep.noQuote
  newline_not_mem := sep.noNewline

/-- A raw cell prints something without a quote, a newline or a character of the separator. -/
def Op.Ok (sep : Separator) : Op → Prop
  | .raw printed => printed ≠ [] ∧ ∀ c ∈ printed, c ≠ dquote ∧ c ≠ '\n' ∧ c ∉ sep.chars
  | _ => True

end SysPerf.CsvFile
