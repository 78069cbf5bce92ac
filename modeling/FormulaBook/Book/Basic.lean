import FormulaBook.Keyed.Basic

/-!
# Books of formulas

A book gives formulas to names. It remembers the order in which the names were entered, and no
name is entered twice: writing to a name that is there changes its formula and nothing else.

A formula that is empty or ends in `_placeholder` only holds the place of a quantity that has no
formula yet; `Book.formula?` sees the others.
-/

namespace FormulaBook

/-- Formulas by name, in the order of entry. -/
structure Book where
  entries : List (String × String)
  nodup : (entries.map Prod.fst).Nodup

namespace Book

/-- The book without entries. -/
def empty : Book := ⟨[], List.nodup_nil⟩

/-- The names in the book, in the order of entry. -/
def names (b : Book) : List String := b.entries.map Prod.fst

/-- The text entered for a name. -/
def get? (b : Book) (name : String) : Option String := b.entries.lookup name

/-- Whether a name is in the book. -/
def contains (b : Book) (name : String) : Bool := b.names.contains name

/-- The book with a formula written to a name. -/
def insert (b : Book) (name formula : String) : Book :=
  ⟨Keyed.put name formula b.entries, Keyed.nodup_put b.nodup⟩

/-- The book without a name. -/
def erase (b : Book) (name : String) : Book :=
  ⟨b.entries.filter (·.1 != name), (List.filter_sublist.map _).nodup b.nodup⟩

/-- The book that holds the given formulas, written in order. -/
def ofList (l : List (String × String)) : Book :=
  l.foldl (fun b e => b.insert e.1 e.2) empty

/-- How the text of a placeholder ends. -/
def placeholderSuffix : String := "_placeholder"

/-- The placeholder for a quantity without a formula. -/
def placeholder (name : String) : String := name ++ placeholderSuffix

/-- Whether a text is a formula and no placeholder. -/
def isFormula (text : String) : Bool :=
  text != "" && !placeholderSuffix.toList.isSuffixOf text.toList

/-- The formula of a name, unless it is absent or a placeholder. -/
def formula? (b : Book) (name : String) : Option String := (b.get? name).filter isFormula

/-- Whether a name has a formula. -/
def hasFormula (b : Book) (name : String) : Bool := (b.formula? name).isSome

/-- A name with an entry is among the names of the book. -/
theorem mem_names_of_get? {b : Book} {name text : String} (h : b.get? name = some text) :
    name ∈ b.names := by
  obtain ⟨l₁, l₂, hl, -⟩ := List.lookup_eq_some_iff.mp h
  simp [names, hl]

/-- A name that stands for a formula is among the names of the book. -/
theorem mem_names_of_formula? {b : Book} {name text : String} (h : b.formula? name = some text) :
    name ∈ b.names := by
  obtain ⟨hg, -⟩ := Option.filter_eq_some_iff.mp h
  exact mem_names_of_get? hg

/-- Why no formula of a book can be chosen. -/
inductive ChoiceError where
  | emptyBook
  | unknownName (name : String)
deriving DecidableEq

/-- The message of a choice error. -/
def ChoiceError.message : ChoiceError → String
  | .emptyBook => "Formula file is empty"
  | .unknownName name => "Unknown formula: " ++ name

/-- The requested name, if it is in the book; the first one if none is requested. -/
def choose (b : Book) : Option String → Except ChoiceError String
  | none =>
    match b.names with
    | [] => .error .emptyBook
    | name :: _ => .ok name
  | some name => if b.contains name then .ok name else .error (.unknownName name)

end Book

end FormulaBook
