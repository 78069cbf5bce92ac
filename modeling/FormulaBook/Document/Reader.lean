import FormulaBook.Document.Csv
import FormulaBook.Document.Entry
import FormulaBook.Document.Path
import FormulaBook.Json.Reader
import FormulaBook.Text.Utf8

/-!
# Reading formula documents

A formula document is a table with the columns `name` and `formula`, or a JSON object. The object
either has a list of records under the key `calculations`, each with a name and a formula, or is
itself the mapping from names to formulas. Files whose suffix is `.csv`, in any case, hold tables.
An object is read as a whole; a table is read row by row, and what is wrong further down in the
file only counts once the rows above it have been found clean.
-/

namespace FormulaBook

/-- What is found under a path. -/
inductive Source where
  | absent
  /-- The system does not tell what is there. -/
  | refused (e : SystemError)
  /-- Something that cannot be read as a file, such as a directory. -/
  | unreadable
  | bytes (content : ByteArray)

namespace Document

/-- The entries of a list of calculations; a record has to be an object with both fields. -/
def entriesOfRecords : List Json → Except DocumentError (List Entry)
  | [] => .ok []
  | .object fields :: rest =>
    match Json.field? "name" fields, Json.field? "formula" fields with
    | none, _ => .error (.recordWithout (some "name"))
    | some _, none => .error (.recordWithout (some "formula"))
    | some name, some formula =>
      match entriesOfRecords rest with
      | .error reason => .error reason
      | .ok entries => .ok (⟨name.asContent?, formula.asContent?⟩ :: entries)
  | _ :: _ => .error (.recordWithout none)

/-- The document of a JSON value. -/
def ofJson : Json → Except DocumentError Document
  | .object fields =>
    match Json.field? "calculations" fields with
    | some (.array records) =>
      match entriesOfRecords records with
      | .error reason => .error reason
      | .ok entries => ofEntries 1 entries
    | some _ => .error .calculationsNotList
    | none => ofEntries 1 (fields.map fun f => ⟨some f.1, f.2.asContent?⟩)
  | _ => .error .notObject

/-- The error a fault of a table amounts to. -/
def ofFault : Csv.Fault → DocumentError
  | .longCell => .cellTooLong
  | .undecodable => .unreadable

/-- The result, unless a fault follows it. -/
def beforeFault (fault? : Option Csv.Fault) (r : Except DocumentError Document) :
    Except DocumentError Document :=
  match r, fault? with
  | .ok _, some fault => .error (ofFault fault)
  | r, _ => r

/-- The columns a table must have, in ascending order. -/
def requiredHeaders : List String := ["formula", "name"]

/-- The entry of a record. -/
def entryOfRecord (t : Csv.Table) (record : List String) : Entry :=
  ⟨(t.cell? "name" record).map .text, (t.cell? "formula" record).map .text⟩

/-- The document of a table. An error in its rows comes before the fault that ends them. -/
def ofTable (t : Csv.Table) : Except DocumentError Document :=
  match requiredHeaders.filter (!t.header.contains ·), t.header?, t.fault? with
  | _, none, some fault => .error (ofFault fault)
  | [], _, fault? => beforeFault fault? (ofEntries 2 (t.records.map (entryOfRecord t)))
  | missing, _, _ => .error (.missingHeaders missing)

/-- Whether the file under a path holds a table. -/
def isTable (p : Path) : Bool := p.suffix.toList.map Char.toLower == ".csv".toList

/-- The document of a text, read as the path tells. -/
def ofText (p : Path) (s : String) : Except DocumentError Document :=
  if isTable p then ofTable (.ofText maxCellLength s)
  else
    match Json.read? s with
    | some j => ofJson j
    | none => .error .unreadable

/-- The document of bytes that are no text. Only a table can be read up to where they cease to be
one. -/
def ofBrokenBytes (p : Path) (content : ByteArray) : Except DocumentError Document :=
  if isTable p then ofTable (.ofPart maxCellLength (Text.Utf8.decode content))
  else .error .unreadable

/-- The document of what is found under the path that `spelling` denotes. -/
def read (spelling : String) : Source → Except DocumentError Document
  | .absent => .error (.notFound spelling)
  | .refused e => .error (.system e (Path.ofString spelling).text)
  | .unreadable => .error .unreadable
  | .bytes content =>
    match String.fromUTF8? content with
    | some s => ofText (.ofString spelling) s
    | none => ofBrokenBytes (.ofString spelling) content

end Document

end FormulaBook
