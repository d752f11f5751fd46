import Mathlib.Data.List.Basic

namespace SysPerf.Rfc4180

/-- The characters that give a file its structure. -/
structure Dialect (α : Type) where
  quote : α
  newline : α
  separator : List α
  quote_ne_newline : quote ≠ newline
  separator_ne_nil : separator ≠ []
  quote_not_mem : quote ∉ separator
  newline_not_mem : newline ∉ separator

/-- The closed rows and the cells of a row that has no newline yet. -/
structure Table (β : Type) where
  rows : List (List β)
  last : List β
  deriving DecidableEq

/-- Where the reader is: at the start of a row, some characters before the start of a cell, in
a cell without quotes, between two quotes, or behind a quote that may close its cell. -/
inductive Mode (α : Type)
  | rowStart
  | gap (k : ℕ)
  | bare (text : List α)
  | quoted (text : List α)
  | closed (text : List α)

structure Reader (α : Type) where
  mode : Mode α
  row : List (List α)
  rows : List (List (List α))

/-- What the head of the input is to the reader. -/
inductive Symbol
  | quote
  | newline
  | separator
  | other
  deriving DecidableEq

variable {α : Type} [DecidableEq α] (d : Dialect α)

def look (c : α) (rest : List α) : Symbol :=
  if c = d.quote then .quote
  else if c = d.newline then .newline
  else if d.separator <+: c :: rest then .separator
  else .other

/-- The cell `text` ends at a separator, whose first character is consumed. -/
def Reader.endCell (r : Reader α) (text : List α) : Reader α :=
  ⟨.gap (d.separator.length - 1), r.row ++ [text], r.rows⟩

def Reader.endRow (r : Reader α) (cells : List (List α)) : Reader α :=
  ⟨.rowStart, [], r.rows ++ [r.row ++ cells]⟩

/-- The effect of the character `c`; `none` where the input is not well formed. -/
def Reader.step (r : Reader α) (c : α) (rest : List α) : Option (Reader α) :=
  match r.mode, look d c rest with
  | .rowStart, .newline => some (r.endRow [])
  | .rowStart, .separator => some (r.endCell d [])
  | .rowStart, .quote => some { r with mode := .quoted [] }
  | .rowStart, .other => some { r with mode := .bare [c] }
  | .gap (k + 1), _ => some { r with mode := .gap k }
  | .gap 0, .newline => some (r.endRow [[]])
  | .gap 0, .separator => some (r.endCell d [])
  | .gap 0, .quote => some { r with mode := .quoted [] }
  | .gap 0, .other => some { r with mode := .bare [c] }
  | .bare text, .newline => some (r.endRow [text])
  | .bare text, .separator => some (r.endCell d text)
  | .bare _, .quote => none
  | .bare text, .other => some { r with mode := .bare (text ++ [c]) }
  | .quoted text, .quote => some { r with mode := .closed text }
  | .quoted text, _ => some { r with mode := .quoted (text ++ [c]) }
  | .closed text, .newline => some (r.endRow [text])
  | .closed text, .separator => some (r.endCell d text)
  | .closed text, .quote => some { r with mode := .quoted (text ++ [c]) }
  | .closed _, .other => none

def Reader.finish (r : Reader α) : Option (Table (List α)) :=
  match r.mode with
  | .rowStart => some ⟨r.rows, r.row⟩
  | .gap _ => some ⟨r.rows, r.row ++ [[]]⟩
  | .bare text => some ⟨r.rows, r.row ++ [text]⟩
  | .closed text => some ⟨r.rows, r.row ++ [text]⟩
  | .quoted _ => none

def read (r : Reader α) : List α → Option (Table (List α))
  | [] => r.finish
  | c :: rest => (r.step d c rest).bind fun next => read next rest

def decode (input : List α) : Option (Table (List α)) :=
  read d ⟨.rowStart, [], []⟩ input

/-- A cell as it stands in a file. -/
inductive Cell (α : Type)
  | quoted (text : List α)
  | bare (text : List α)
  deriving DecidableEq

def Cell.text : Cell α → List α
  | .quoted text => text
  | .bare text => text

def doubled (quote : α) (text : List α) : List α :=
  text.flatMap fun c => if c = quote then [c, c] else [c]

def Cell.print : Cell α → List α
  | .quoted text => d.quote :: doubled d.quote text ++ [d.quote]
  | .bare text => text

/-- A cell without quotes can be read back if nothing in it has a meaning of its own. -/
def Cell.Ok : Cell α → Prop
  | .quoted _ => True
  | .bare text => text ≠ [] ∧ ∀ c ∈ text, c ≠ d.quote ∧ c ≠ d.newline ∧ c ∉ d.separator

def printRow : List (Cell α) → List α
  | [] => []
  | cell :: cells => cell.print d ++ cells.flatMap fun next => d.separator ++ next.print d

def print (t : Table (Cell α)) : List α :=
  t.rows.flatMap (fun row => printRow d row ++ [d.newline]) ++ printRow d t.last

def Table.texts (t : Table (Cell α)) : Table (List α) :=
  ⟨t.rows.map fun row => row.map Cell.text, t.last.map Cell.text⟩

def Table.Ok (t : Table (Cell α)) : Prop :=
  (∀ row ∈ t.rows, ∀ cell ∈ row, cell.Ok d) ∧ ∀ cell ∈ t.last, cell.Ok d

end SysPerf.Rfc4180
