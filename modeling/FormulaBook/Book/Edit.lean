import FormulaBook.Book.Basic
import FormulaBook.Expr.Parser

/-!
# Editing a book

A book is started from one formula, with placeholders for what it mentions, and grows and shrinks by
single formulas. Only formulas that parse are taken in.
-/

namespace FormulaBook

/-- Why an edit is refused. -/
inductive EditError where
  /-- The name or the formula is empty. -/
  | blankField
  /-- The name is taken. -/
  | duplicate (name : String)
  /-- The formula does not parse. -/
  | malformed (reason : ParseError)
deriving DecidableEq

/-- The message of an edit error. -/
def EditError.message : EditError → String
  | .blankField => "Formula name and expression are both required"
  | .duplicate name => "Formula '" ++ name ++ "' already exists"
  | .malformed reason => reason.message

namespace Book

/-- The book with a placeholder for a name, unless the name is there. -/
def reserve (b : Book) (name : String) : Book :=
  if b.contains name then b else b.insert name (placeholder name)

/-- The book of one formula and placeholders for its variables, these in ascending order. -/
def seed (name formula : String) : Except EditError Book :=
  match Expr.parse formula with
  | .error reason => .error (.malformed reason)
  | .ok e => .ok ((Text.ascending e.vars).foldl reserve (empty.insert name formula))

/-- The book with one more formula. -/
def add (b : Book) (name formula : String) : Except EditError Book :=
  if name = "" ∨ formula = "" then .error .blankField
  else if b.contains name then .error (.duplicate name)
  else
    match Expr.parse formula with
    | .error reason => .error (.malformed reason)
    | .ok _ => .ok (b.insert name formula)

/-- The book without a name, and the name to show next: the first one left. -/
def remove (b : Book) (name : String) : Book × Option String :=
  let left := b.erase name
  (left, left.names.head?)

end Book

end FormulaBook
