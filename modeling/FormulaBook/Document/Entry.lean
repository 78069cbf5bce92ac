import FormulaBook.Book.Basic
import FormulaBook.Json.Content
import FormulaBook.Text.Quoted

/-!
# Entries of a formula document

A formula document comes down to a sequence of entries, each a name with a formula.
`Document.ofEntries` takes them into a document if all of them are clean: names and formulas are
strings, names are not blank, and no name is repeated. Blanks around names and formulas are
dropped. Otherwise the first entry that is not clean is reported. `Document.book` is the book of a
document: a name that is no text stays out of it, since nothing can mention it.
-/

namespace FormulaBook

open Json (Content)

/-- Why the system does not tell what lies under a path. -/
inductive SystemError where
  | nameTooLong
  | accessDenied
  | other (number : Nat) (reason : String)
deriving DecidableEq

/-- The text of a system error. -/
def SystemError.text : SystemError → String
  | .nameTooLong => "[Errno 36] File name too long"
  | .accessDenied => "[Errno 13] Permission denied"
  | .other number reason => "[Errno " ++ toString number ++ "] " ++ reason

/-- Why a formula document cannot be read. Rows count the entries of the document. -/
inductive DocumentError where
  /-- There is no such file. -/
  | notFound (path : String)
  /-- The file cannot be read, or its text is not of its format. -/
  | unreadable
  /-- The document is not an object. -/
  | notObject
  /-- The calculations of the document are not a list. -/
  | calculationsNotList
  /-- A calculation has no field of the given name, or is not an object at all. -/
  | recordWithout (field : Option String)
  /-- Columns are missing. -/
  | missingHeaders (headers : List String)
  /-- A name is no text, or blank. -/
  | badName (row : Nat)
  /-- A formula is no text. -/
  | badFormula (row : Nat) (name : String)
  /-- A name is repeated. -/
  | duplicateName (row : Nat) (name : String)
  /-- The system does not tell whether there is such a file. -/
  | system (e : SystemError) (path : String)
  /-- A cell of a table is longer than cells may be. -/
  | cellTooLong
deriving DecidableEq

/-- A path or a part of it is longer than paths can be. -/
@[match_pattern]
def DocumentError.pathTooLong (path : String) : DocumentError := .system .nameTooLong path

/-- The most characters a cell of a table may have. -/
def maxCellLength : Nat := 131072

/-- The message of a document error. -/
def DocumentError.message : DocumentError → String
  | .notFound path => "Formula file not found: " ++ path
  | .unreadable => "Error reading formula file"
  | .notObject => "Formula document must be a JSON object"
  | .calculationsNotList => "'calculations' must be a list"
  | .recordWithout none => "Calculation record without name/formula"
  | .recordWithout (some field) => "Calculation record without name/formula: '" ++ field ++ "'"
  | .missingHeaders headers =>
    "Missing required headers: \x7b" ++ ", ".intercalate (headers.map fun h => "'" ++ h ++ "'") ++
      "\x7d"
  | .badName row => "Entry " ++ toString row ++ ": formula name must be a non-empty string"
  | .badFormula row name =>
    "Entry " ++ toString row ++ ": formula for '" ++ name ++ "' must be a string"
  | .duplicateName row name =>
    "Entry " ++ toString row ++ ": duplicate formula name '" ++ name ++ "'"
  | .system e path => e.text ++ ": " ++ Text.quoted path
  | .cellTooLong => "field larger than field limit (" ++ toString maxCellLength ++ ")"

/-- Whether reading does not expect the error: it is none of the document, but one of the system or
of a limit to its size. -/
def DocumentError.isUnexpected : DocumentError → Bool
  | .system .. | .cellTooLong => true
  | _ => false

/-- A name with a formula, as far as they are strings. -/
structure Entry where
  name? : Option Content
  formula? : Option Content

/-- The formulas of a document by name, in order. -/
structure Document where
  entries : List (Content × Content)
  nodup : (entries.map Prod.fst).Nodup

namespace Document

/-- The document without entries. -/
def empty : Document := ⟨[], List.nodup_nil⟩

/-- Whether a name is in the document. -/
def contains (d : Document) (name : Content) : Bool := (d.entries.map Prod.fst).contains name

/-- The document with a formula written to a name. -/
def insert (d : Document) (name formula : Content) : Document :=
  ⟨Keyed.put name formula d.entries, Keyed.nodup_put d.nodup⟩

end Document

/-- The entry as it goes into the document, at the given row below the entries already in it. -/
def Entry.check (d : Document) (row : Nat) (e : Entry) : Except DocumentError (Content × Content) :=
  match e.name? with
  | none => .error (.badName row)
  | some name =>
    if name.isBlank then .error (.badName row)
    else
      match e.formula? with
      | none => .error (.badFormula row name.display)
      | some formula =>
        if d.contains name.trim then .error (.duplicateName row name.trim.display)
        else .ok (name.trim, formula.trim)

namespace Document

/-- The document with more entries, the first of which is at the given row. -/
def addEntries (d : Document) (row : Nat) : List Entry → Except DocumentError Document
  | [] => .ok d
  | e :: rest =>
    match e.check d row with
    | .error reason => .error reason
    | .ok (name, formula) => addEntries (d.insert name formula) (row + 1) rest

/-- The document of a sequence of entries, the first of which is at the given row. -/
def ofEntries (firstRow : Nat) (l : List Entry) : Except DocumentError Document :=
  addEntries empty firstRow l

/-- The formulas whose names are texts. -/
def book (d : Document) : Book :=
  .ofList (d.entries.filterMap fun e => e.1.text?.map fun name => (name, e.2.display))

/-- The name and the formula that come first. -/
def first? (d : Document) : Option (String × String) :=
  d.entries.head?.map fun e => (e.1.display, e.2.display)

end Document

end FormulaBook
