import FormulaBook.Number.Notation
import FormulaBook.Text.Name
import FormulaBook.Text.Quoted

/-!
# Expressions

The tree of a formula: numbers and names, joined by five binary operators and two signs. Names are
not resolved, they stand for themselves. `Expr.text` writes a tree as a formula with all its
parentheses; `Expr.vars` and `Expr.operators` say what the tree is made of.
-/

namespace FormulaBook

/-- The binary operators. -/
inductive BinaryOp where
  | add
  | subtract
  | multiply
  | divide
  | power
deriving DecidableEq

namespace BinaryOp

/-- The symbol an operator is written with. -/
def symbol : BinaryOp → String
  | .add => "+"
  | .subtract => "-"
  | .multiply => "*"
  | .divide => "/"
  | .power => "**"

/-- The operator for a spelling; a power may also be written with a caret. -/
def ofSymbol? : String → Option BinaryOp
  | "+" => some .add
  | "-" => some .subtract
  | "*" => some .multiply
  | "/" => some .divide
  | "**" | "^" => some .power
  | _ => none

/-- The message about a text that spells no operator. -/
def unknownSymbol (s : String) : String := Text.quoted s ++ " is not a valid BinaryOperator"

@[simp] theorem ofSymbol?_symbol (op : BinaryOp) : ofSymbol? op.symbol = some op := by
  cases op <;> rfl

end BinaryOp

/-- The signs that may stand before an operand. -/
inductive Sign where
  | plus
  | minus
deriving DecidableEq

namespace Sign

/-- The symbol a sign is written with. -/
def symbol : Sign → String
  | .plus => "+"
  | .minus => "-"

/-- The sign for a spelling. -/
def ofSymbol? : String → Option Sign
  | "+" => some .plus
  | "-" => some .minus
  | _ => none

@[simp] theorem ofSymbol?_symbol (s : Sign) : ofSymbol? s.symbol = some s := by cases s <;> rfl

end Sign

/-- The tree of a formula with numbers of type `ν`. -/
inductive Expr (ν : Type := Binary64) where
  | number (x : ν)
  | identifier (name : String)
  | binary (op : BinaryOp) (left right : Expr ν)
  | signed (sign : Sign) (operand : Expr ν)
deriving DecidableEq

namespace Expr

/-- The formula of a tree, with parentheses around every operation. -/
def text : Expr → String
  | .number x => x.plain
  | .identifier name => name
  | .binary op left right => "(" ++ left.text ++ " " ++ op.symbol ++ " " ++ right.text ++ ")"
  | .signed sign operand => "(" ++ sign.symbol ++ operand.text ++ ")"

/-- The names in a tree from left to right, with all repetitions. -/
def identifiers : Expr → List String
  | .number _ => []
  | .identifier name => [name]
  | .binary _ left right => left.identifiers ++ right.identifiers
  | .signed _ operand => operand.identifiers

/-- The distinct names in a tree, each at its leftmost occurrence. -/
def vars (e : Expr) : List String := e.identifiers.eraseDups

/-- The symbols of the binary operators in a tree, operands first, with all repetitions. -/
def symbols : Expr → List String
  | .number _ | .identifier _ => []
  | .binary op left right => left.symbols ++ right.symbols ++ [op.symbol]
  | .signed _ operand => operand.symbols

/-- The symbols of the binary operators in a tree, as a set. -/
def operators (e : Expr) : List String := Text.ascending e.symbols

end Expr

end FormulaBook
