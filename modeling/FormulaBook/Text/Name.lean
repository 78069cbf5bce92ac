/-!
# Names and lists of names

A name starts with an ASCII letter or an underscore and goes on with letters, digits and
underscores. `ascending` arranges the members of a list of texts by code point, each of them once:
it is the form in which a set of texts is shown.
-/

namespace FormulaBook.Text

/-- A letter of the ASCII alphabet, in either case, or the underscore. -/
def startsName (c : Char) : Bool := c.isAlpha || c == '_'

/-- A character that may stand in a name after the first: an ASCII letter or digit, or the
underscore. -/
def continuesName (c : Char) : Bool := c.isAlphanum || c == '_'

/-- Whether a text is a name. -/
def isName (s : String) : Bool :=
  match s.toList with
  | [] => false
  | c :: cs => startsName c && cs.all continuesName

/-- The text put at its place in an ascending list, unless it is there. -/
def insertAscending (s : String) : List String → List String
  | [] => [s]
  | t :: rest =>
    if s < t then s :: t :: rest else if s = t then t :: rest else t :: insertAscending s rest

/-- The members of a list in ascending order, each once. -/
def ascending (l : List String) : List String := l.foldr insertAscending []

/-- What is inserted comes on top of what is there. -/
theorem mem_insertAscending {s t : String} {l : List String} :
    s ∈ insertAscending t l ↔ s = t ∨ s ∈ l := by
  induction l with
  | nil => simp [insertAscending]
  | cons u rest ih =>
    unfold insertAscending
    split
    · simp
    · split
      · rename_i h; subst h; simp
      · simp [ih, or_left_comm]

@[simp] theorem mem_ascending {s : String} {l : List String} : s ∈ ascending l ↔ s ∈ l := by
  induction l with
  | nil => simp [ascending]
  | cons t rest ih => rw [ascending, List.foldr_cons, mem_insertAscending, ← ascending, ih]; simp

end FormulaBook.Text
