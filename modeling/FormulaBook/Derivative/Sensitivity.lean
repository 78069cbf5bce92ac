import FormulaBook.Derivative.Rules
import FormulaBook.Formula.Analysis

/-!
# Sensitivity

What a derivative says about its variable: whether the formula reacts to it at all, and whether it
enters as a factor. `partials` differentiates a formula by each of its variables.
-/

namespace FormulaBook

/-- The reading of a derivative. -/
structure Sensitivity where
  derivative : String
  /-- Whether the formula reacts to the variable. -/
  sensitive : Bool
  /-- Whether the variable enters as a factor. -/
  multiplicative : Bool
deriving DecidableEq

namespace Sensitivity

/-- The reading of the text of a derivative. -/
def classify (derivative : String) : Sensitivity where
  derivative := derivative
  sensitive := derivative != "0"
  multiplicative := derivative.toList.contains '*'

/-- The impact of the variable in words. -/
def impact (s : Sensitivity) : String :=
  if s.sensitive then "Direct impact" else "No direct impact"

/-- The way the variable enters, in words. -/
def relation (s : Sensitivity) : String := if s.multiplicative then "Multiplicative" else "Additive"

end Sensitivity

namespace Derivative

/-- The derivatives of a formula by the given variables, each taken once. -/
def partialsBy (expr : String) (vars : List String) : List (String × Derivative) :=
  vars.eraseDups.map fun v => (v, of expr v)

/-- The derivatives of a formula by all its variables. -/
def partials (expr : String) : List (String × Derivative) :=
  partialsBy expr (Analysis.of expr).vars

end Derivative

end FormulaBook
