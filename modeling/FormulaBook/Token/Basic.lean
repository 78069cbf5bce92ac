import FormulaBook.Number.Notation

/-!
# Tokens

A formula is read as a sequence of tokens. A token says what kind of thing it is, what it carries
(a number or a text) and at which character of the formula it starts. The scanner gives numbers to
number tokens and texts to all others; sequences from elsewhere may pair kinds and values freely,
and the grammar looks at both.
-/

namespace FormulaBook

/-- The kinds of tokens. -/
inductive Token.Kind where
  | number
  | identifier
  | operator
  | openParen
  | closeParen
deriving DecidableEq

/-- What a token carries. -/
inductive Token.Value where
  | number (x : Binary64)
  | text (s : String)
deriving DecidableEq

/-- How a carried value is shown. -/
def Token.Value.show : Token.Value → String
  | .number x => x.text
  | .text s => s

/-- A type for the numbers of a tree: what a number token carries stands for one of them. -/
class Token.Numeral (ν : Type) where
  ofValue : Token.Value → ν

/-- Numbers may be left as they are carried. -/
instance : Token.Numeral Token.Value := ⟨id⟩

/-- A number that is carried stands for itself. A text is no number; the scanner gives none to a
number token. -/
instance : Token.Numeral Binary64 where
  ofValue
    | .number x => x
    | .text _ => .nan

/-- A lexical unit of a formula. -/
structure Token where
  kind : Token.Kind
  value : Token.Value
  position : Int
deriving DecidableEq

namespace Token

/-- The text the token is shown as. -/
def text (t : Token) : String := t.value.show

/-- The token for an operator spelled `s`. -/
def ofOperator (s : String) (position : Int) : Token := ⟨.operator, .text s, position⟩

/-- What a token of the given kind carries; `none` for a token of another kind. -/
def value? (kind : Token.Kind) (t : Token) : Option Token.Value :=
  if t.kind = kind then some t.value else none

/-- The text that a token of the given kind carries, if it is one. -/
def text? (kind : Token.Kind) (t : Token) : Option String :=
  match t.value? kind with
  | some (.text s) => some s
  | _ => none

/-- The spelling of an operator token; `none` for a token of another kind. -/
def operator? (t : Token) : Option String := t.text? .operator

/-- A token of another kind carries nothing of this kind. -/
theorem value?_of_ne {kind : Token.Kind} {t : Token} (h : t.kind ≠ kind) : t.value? kind = none :=
  if_neg h

/-- A token of another kind carries no text of this kind. -/
theorem text?_of_ne {kind : Token.Kind} {t : Token} (h : t.kind ≠ kind) : t.text? kind = none := by
  rw [text?, value?_of_ne h]

/-- What is carried is the value of a token of the given kind. -/
theorem value?_eq_some_iff {kind : Token.Kind} {t : Token} {v : Token.Value} :
    t.value? kind = some v ↔ t.kind = kind ∧ t.value = v := by
  rw [value?, Option.ite_none_right_eq_some, Option.some.injEq]

/-- The text is that of a token of the given kind. -/
theorem text?_eq_some_iff {kind : Token.Kind} {t : Token} {s : String} :
    t.text? kind = some s ↔ t = ⟨kind, .text s, t.position⟩ := by
  constructor
  · intro h
    unfold text? at h
    split at h <;> cases h
    obtain ⟨rfl, hv⟩ := value?_eq_some_iff.mp ‹_›
    rw [← hv]
  · intro h
    rw [text?, h, value?, if_pos rfl]

end Token

end FormulaBook
