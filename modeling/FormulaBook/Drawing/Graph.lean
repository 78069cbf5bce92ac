/-!
# Graphs with positions

What is drawn for a formula: nodes with their coordinates and edges between them, each in the order
of creation. The type of coordinates is left open.
-/

namespace FormulaBook

/-- What a node stands for: a variable or a constant, an operator, or the formula itself. -/
inductive NodeKind where
  | quantity
  | operation
  | result
deriving DecidableEq

/-- What an edge says: its source is an operand of its target, it is the value of its target, or
it only occurs in the formula of its target. -/
inductive EdgeKind where
  | input
  | output
  | direct
deriving DecidableEq

namespace NodeKind

/-- The name of a kind of node. -/
def name : NodeKind → String
  | .quantity => "variable"
  | .operation => "operation"
  | .result => "result"

/-- The kind of node with the given name. -/
def ofName? (s : String) : Option NodeKind := [quantity, operation, result].find? (·.name == s)

end NodeKind

namespace EdgeKind

/-- The name of a kind of edge. -/
def name : EdgeKind → String
  | .input => "input"
  | .output => "output"
  | .direct => "direct"

/-- The kind of edge with the given name. -/
def ofName? (s : String) : Option EdgeKind := [input, output, direct].find? (·.name == s)

end EdgeKind

/-- A node with the text shown on it and its place. -/
structure Node (α : Type) where
  id : String
  label : String
  kind : NodeKind
  x : α
  y : α
deriving DecidableEq

/-- An edge from the node `source` to the node `target`, perhaps with an operation on it. -/
structure Edge where
  id : String
  source : String
  target : String
  kind : EdgeKind
  operation : Option String := none
deriving DecidableEq

/-- Nodes and edges in the order of creation. -/
structure Graph (α : Type) where
  nodes : List (Node α) := []
  edges : List Edge := []
deriving DecidableEq

namespace Graph

variable {α : Type}

/-- The first node with the given id. -/
def node? (g : Graph α) (id : String) : Option (Node α) := g.nodes.find? (·.id == id)

/-- Whether a node has the given id. -/
def hasNode (g : Graph α) (id : String) : Bool := g.nodes.any (·.id == id)

/-- The edges with an end that is no node of the graph. -/
def orphanEdges (g : Graph α) : List Edge :=
  g.edges.filter fun e => !(g.hasNode e.source && g.hasNode e.target)

end Graph

end FormulaBook
