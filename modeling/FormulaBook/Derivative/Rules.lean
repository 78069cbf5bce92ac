import FormulaBook.Derivative.Pieces
import FormulaBook.Text.Blank

/-!
# Differentiation

The derivative of a formula by a variable, as a text. The rules look at the text of the formula,
without its blanks, and not at its tree, so that they are exact for sums of simple terms and an
approximation beyond. In this order:

1. a text without the variable has the derivative `0`, and the variable itself `1`;
2. a text with a plus or a minus is differentiated term by term, and terms with derivative `0` are
   dropped;
3. a text with exactly one star follows the product rule, with factors `1` left out;
4. of a text with a parenthesised group the inside of the group is differentiated, and a coefficient
   is kept;
5. every other text is left as it is, in the form `d(text)/d(variable)`.
-/

namespace FormulaBook

/-- The text of a derivative, and the texts that no rule simplified, in the order they were met. -/
structure Derivative where
  text : String
  unresolved : List String := []
deriving DecidableEq

namespace Derivative

/-- The form of a derivative that no rule simplifies. -/
def unresolvedText (expr v : List Char) : String :=
  "d(" ++ String.ofList expr ++ ")/d(" ++ String.ofList v ++ ")"

/-- The sum so far with the derivative of one more term. -/
def addTerm (sum : String) (subtracted : Bool) (derivative : String) : String :=
  if derivative = "0" then sum
  else if sum ≠ "" then sum ++ (if subtracted then " - " else " + ") ++ derivative
  else if subtracted then "-" ++ derivative
  else derivative

/-- The derivative of a sum, from the derivatives of its terms. -/
def ofTerms (terms : List (Bool × Derivative)) : Derivative :=
  let sum := terms.foldl (fun sum t => addTerm sum t.1 t.2.text) ""
  { text := if sum = "" then "0" else sum
    unresolved := terms.flatMap (·.2.unresolved) }

/-- The derivative of a product `a * b`, from the derivatives of its factors. -/
def ofProduct (a b : String) (da db : Derivative) : Derivative :=
  let text :=
    if da.text = "0" ∧ db.text = "0" then "0"
    else if da.text = "0" then (if db.text = "1" then a else a ++ " * " ++ db.text)
    else if db.text = "0" then (if da.text = "1" then b else da.text ++ " * " ++ b)
    else a ++ " * " ++ db.text ++ " + " ++ b ++ " * " ++ da.text
  { text, unresolved := da.unresolved ++ db.unresolved }

/-- The derivative of a text with a group, from the derivative of the inside of the group. -/
def ofGroup (coefficient? : Option String) (inner : Derivative) : Derivative :=
  let text :=
    if inner.text = "0" then "0"
    else
      match coefficient? with
      | some coefficient => coefficient ++ " * (" ++ inner.text ++ ")"
      | none => inner.text
  { inner with text }

/-- The derivative of a text without blanks. -/
def derive (v : List Char) (expr : List Char) : Derivative :=
  if !occurs v expr then { text := "0" }
  else if expr = v then { text := "1" }
  else if _hs : hasSign expr then
    ofTerms ((terms expr).attach.map fun ⟨t, _ht⟩ => (t.subtracted, derive v t.text))
  else
    match _hf : factors? expr with
    | some (a, b) =>
      ofProduct (String.ofList a) (String.ofList b) (derive v a) (derive v b)
    | none =>
      match _hg : group? expr with
      | some g => ofGroup (g.coefficient?.map String.ofList) (derive v g.inner)
      | none =>
        let text := unresolvedText expr v
        { text, unresolved := [text] }
termination_by expr.length
decreasing_by
  · exact length_lt_of_mem_terms _hs _ht
  · exact (length_lt_of_factors? _hf).1
  · exact (length_lt_of_factors? _hf).2
  · exact length_lt_of_group? _hg

/-- The derivative of a formula by a variable. -/
def of (expr v : String) : Derivative :=
  derive v.toList (expr.toList.filter (!Text.isBlank ·))

/-- The text of the derivative of a formula by a variable. -/
def differentiate (expr v : String) : String := (of expr v).text

end Derivative

end FormulaBook
