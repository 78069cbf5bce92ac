import FormulaBook.Book.Edit

/-!
# Working on a book

A session holds the book that is worked on and the names selected to be opened in its drawings. It
starts with neither and changes by one action after the other. An action that is refused changes
nothing.
-/

namespace FormulaBook

/-- A book with the names selected in it, each of them once. -/
structure Session where
  book : Book := .empty
  selected : List String := []

namespace Session

/-- What can be done in a session. -/
inductive Action where
  /-- Start over with the book of one formula. -/
  | seed (name formula : String)
  | add (name formula : String)
  | remove (name : String)
  /-- Select a name, or take it back if it is selected. -/
  | toggle (name : String)
deriving DecidableEq

/-- The selection with a name taken out if it is in it, and in if it is not. -/
def toggle (selected : List String) (name : String) : List String :=
  if name ∈ selected then selected.filter (· != name) else name :: selected

/-- The session after an action. -/
def act (s : Session) : Action → Except EditError Session
  | .seed name formula => (Book.seed name formula).map fun b => { s with book := b }
  | .add name formula => (s.book.add name formula).map fun b => { s with book := b }
  | .remove name => .ok { s with book := (s.book.remove name).1 }
  | .toggle name => .ok { s with selected := toggle s.selected name }

/-- The session after an action, or the same one if the action is refused. -/
def next (s : Session) (a : Action) : Session := (s.act a).toOption.getD s

/-- The session after several actions. -/
def run (s : Session) (l : List Action) : Session := l.foldl next s

end Session

end FormulaBook
