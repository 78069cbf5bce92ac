/-!
# Comma-separated rows

A text is read as rows of cells. A quote at the start of a cell opens it and the next single quote
closes it; between them two quotes stand for one, and commas and line ends are characters like any
other. What follows a closing quote still belongs to the cell. Quotes elsewhere are ordinary
characters, and a cell whose quote is never closed runs to the end of the text. Rows end with a
line feed, a carriage return, or the two together; a line with nothing on it is a row without
cells.

A table is read row by row, so that a fault further down, a cell that is too long or bytes that are
no text, leaves the rows above it standing.
-/

namespace FormulaBook.Csv

/-- Where in a row the reader is. -/
inductive Mode where
  /-- Before the first character of a row. -/
  | rowStart
  /-- The same, after a carriage return. -/
  | afterReturn
  /-- Before the first character of a later cell. -/
  | cellStart
  /-- Inside a cell, outside quotes. -/
  | plain
  /-- Inside quotes. -/
  | quoted
  /-- After a quote inside quotes. -/
  | closing
deriving DecidableEq

/-- Whether nothing of the row has been read. -/
def Mode.isRowStart (m : Mode) : Bool := m = .rowStart ∨ m = .afterReturn

/-- The row that ends with the given cell. -/
def endRow (row : List String) (cell : List Char) : List String :=
  row ++ [String.ofList cell.reverse]

/-- Rows that have ended, and the one that has not, if one has begun. -/
structure Rows where
  ended : List (List String)
  unfinished? : Option (List String)

/-- The rows with one more in front. -/
def Rows.cons (row : List String) (r : Rows) : Rows := { r with ended := row :: r.ended }

/-- The rows of the characters read in the given mode; `row` holds the cells of the row so far and
`cell` the characters of the cell so far, the last one first. -/
def rowsFrom (mode : Mode) (row : List String) (cell : List Char) : List Char → Rows
  | [] => ⟨[], if mode.isRowStart then none else some (endRow row cell)⟩
  | c :: cs =>
    if mode = .quoted then
      if c = '"' then rowsFrom .closing row cell cs else rowsFrom .quoted row (c :: cell) cs
    else if c = '\n' ∧ mode = .afterReturn then rowsFrom .rowStart [] [] cs
    else if c = '\n' ∨ c = '\r' then
      (rowsFrom (if c = '\r' then .afterReturn else .rowStart) [] [] cs).cons
        (if mode.isRowStart then [] else endRow row cell)
    else if c = ',' then rowsFrom .cellStart (endRow row cell) [] cs
    else if c = '"' ∧ mode ≠ .plain then
      rowsFrom .quoted row (if mode = .closing then c :: cell else cell) cs
    else rowsFrom .plain row (c :: cell) cs

/-- The rows of a text. -/
def rows (cs : List Char) : Rows := rowsFrom .rowStart [] [] cs

/-- The place of the last cell with the given text. -/
def lastIndex? (header : List String) (name : String) : Option Nat :=
  ((header.zipIdx.filter (·.1 == name)).getLast?).map Prod.snd

/-! ## Tables -/

/-- Whether all cells of a row have a length that is allowed. -/
def fits (maxLength : Nat) (row : List String) : Bool := row.all (·.length ≤ maxLength)

/-- Why a table ends before its text. -/
inductive Fault where
  /-- A cell is too long. -/
  | longCell
  /-- The text could not be decoded any further. -/
  | undecodable
deriving DecidableEq

/-- A text with a header row, as rows that are looked up by the names in it. Where the rows cannot
be read to the end, they stop short of the one at fault. -/
structure Table where
  header? : Option (List String)
  records : List (List String)
  fault? : Option Fault := none

/-- The table of some rows: the first one is the header, and the rows without cells among the others
are left out. -/
def Table.ofRows (rows : List (List String)) (fault? : Option Fault) : Table :=
  { header? := rows.head?, records := rows.tail.filter (!·.isEmpty), fault? }

/-- The table of rows of which the last one may not be finished. -/
def Table.ofOpenRows (maxLength : Nat) (finished : Bool) (r : Rows) : Table :=
  let all := r.ended ++ r.unfinished?.toList
  let fault? :=
    if !all.all (fits maxLength) then some .longCell
    else if finished then none
    else some .undecodable
  .ofRows ((if finished then all else r.ended).takeWhile (fits maxLength)) fault?

/-- The table of a text. -/
def Table.ofText (maxLength : Nat) (s : String) : Table :=
  .ofOpenRows maxLength true (rows s.toList)

/-- The characters up to the last line end. A carriage return at the very end does not count, as a
line feed may still follow it. -/
def uptoLineEnd (cs : List Char) : List Char :=
  let reversed := match cs.reverse with
    | '\r' :: rest => rest
    | rest => rest
  (reversed.dropWhile fun c => c != '\n' && c != '\r').reverse

/-- The table of the characters that have come of a text that cannot be decoded further. Only whole
lines are read. -/
def Table.ofPart (maxLength : Nat) (cs : List Char) : Table :=
  .ofOpenRows maxLength false (rows (uptoLineEnd cs))

/-- The header; empty if there is none. -/
def Table.header (t : Table) : List String := t.header?.getD []

/-- The cell of a record under a header; the last one if the header is repeated. -/
def Table.cell? (t : Table) (name : String) (record : List String) : Option String :=
  (lastIndex? t.header name).bind (record[·]?)

end FormulaBook.Csv
