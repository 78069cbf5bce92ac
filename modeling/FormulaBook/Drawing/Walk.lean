import FormulaBook.Drawing.Graph
import FormulaBook.Drawing.Ids
import FormulaBook.Expr.Basic

/-!
# Walking a tree

A walk goes through the tree of one formula and gives every node its id and its row. Operators come
before their operands and are always nodes of their own; a name or a constant is one node however
often it occurs, on the row of its first occurrence. The edges from the operands to an operator are
drawn when its operands are done.
-/

namespace FormulaBook

/-- The sign shown for an operator. -/
def BinaryOp.label : BinaryOp → String
  | .add => "+"
  | .subtract => "-"
  | .multiply => "×"
  | .divide => "÷"
  | .power => "^"

/-- The sign shown for a sign. -/
def Sign.label : Sign → String
  | .plus => "+"
  | .minus => "−"

/-- What occurrences of a leaf have in common. A name and a constant are never the same leaf. -/
inductive Leaf where
  | name (s : String)
  | constant (text : String)
deriving DecidableEq

/-- A node that has its id and row. -/
structure Placed where
  id : String
  label : String
  kind : NodeKind
  row : Nat
  /-- Whether the node stands for a name; the label is the name then. -/
  named : Bool
deriving DecidableEq

/-- The state of a walk: ids given, leaves met with their node ids, nodes placed in order, number
of operators met, and all edges drawn so far. -/
structure Walk where
  ids : Ids
  leaves : List (Leaf × String)
  placed : List Placed
  operators : Nat
  edges : List Edge

namespace Walk

/-- The walk before its first node. -/
def start (ids : Ids) (leaves : List (Leaf × String)) (edges : List Edge) : Walk :=
  ⟨ids, leaves, [], 0, edges⟩

/-- The walk with one more node. Below an anchor the id begins with the id of the anchor. -/
def place (w : Walk) (anchor : Option String) (base : String) (label : String) (kind : NodeKind)
    (row : Nat) (named : Bool) : String × Walk :=
  let base := match anchor with
    | some anchor => anchor ++ "_" ++ base
    | none => base
  let (id, ids) := w.ids.claimNode base
  (id, { w with ids, placed := w.placed ++ [⟨id, label, kind, row, named⟩] })

/-- The walk with one more edge. -/
def connect (w : Walk) (source target : String) (kind : EdgeKind) : Walk :=
  let (id, ids) := w.ids.claimEdge (source ++ "-" ++ target)
  { w with ids, edges := w.edges ++ [{ id, source, target, kind }] }

/-- The node of a leaf, placed at its first occurrence. -/
def leaf (w : Walk) (anchor : Option String) (l : Leaf) (row : Nat) : String × Walk :=
  match w.leaves.lookup l with
  | some id => (id, w)
  | none =>
    let (id, w) := match l with
      | .name s => w.place anchor s s .quantity row true
      | .constant text => w.place anchor ("const_" ++ text) text .quantity row false
    (id, { w with leaves := (l, id) :: w.leaves })

/-- A new operator node. -/
def operator (w : Walk) (anchor : Option String) (label : String) (row : Nat) : String × Walk :=
  let (id, w) := w.place anchor ("op_" ++ toString w.operators) label .operation row false
  (id, { w with operators := w.operators + 1 })

/-- The walk through a tree whose root is on the given row; the id is that of its root node. -/
def through (anchor : Option String) : Expr → Nat → Walk → String × Walk
  | .number x, row, w => w.leaf anchor (.constant x.plain) row
  | .identifier name, row, w => w.leaf anchor (.name name) row
  | .binary op left right, row, w =>
    let (id, w) := w.operator anchor op.label row
    let (leftId, w) := through anchor left (row + 1) w
    let (rightId, w) := through anchor right (row + 1) w
    (id, (w.connect leftId id .input).connect rightId id .input)
  | .signed sign operand, row, w =>
    let (id, w) := w.operator anchor sign.label row
    let (operandId, w) := through anchor operand (row + 1) w
    (id, w.connect operandId id .input)

end Walk

end FormulaBook
