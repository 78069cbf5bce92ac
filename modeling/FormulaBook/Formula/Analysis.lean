import FormulaBook.Expr.Parser
import FormulaBook.Formula.RawScan

/-!
# Analysis of a formula

`Analysis.of` says of any text which names and operators it uses. If the text parses they are read
off its tree; if not, off the raw text, so that something can be shown for every formula.
-/

namespace FormulaBook

/-- What a formula uses. -/
structure Analysis where
  /-- The tree, or why there is none. -/
  outcome : Except ParseError Expr
  /-- The names, each at its first occurrence. -/
  vars : List String
  /-- The symbols of the binary operators, as a set. -/
  operators : List String
  /-- The words and parentheses of the text. -/
  pieces : List String

namespace Analysis

/-- The analysis of a text. -/
def of (s : String) : Analysis :=
  let pieces := RawScan.pieces s
  match Expr.parse s with
  | .ok e => ⟨.ok e, e.vars, e.operators, pieces⟩
  | .error reason => ⟨.error reason, RawScan.vars s, RawScan.operators s, pieces⟩

/-- The tree, if there is one. -/
def expr? (a : Analysis) : Option Expr := a.outcome.toOption

/-- Whether the text parsed. -/
def parsed (a : Analysis) : Bool := a.expr?.isSome

end Analysis

end FormulaBook
