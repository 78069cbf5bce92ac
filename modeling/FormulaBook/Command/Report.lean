import FormulaBook.Drawing.Layout
import FormulaBook.Json.Basic

/-!
# Reports

The JSON form of what is found out about a formula.
-/

namespace FormulaBook

/-- The JSON number of a binary64 number. -/
def Json.ofBinary64 (x : Binary64) : Json :=
  match x with
  | .finite .. => .number x.text
  | _ => .number x.plain

mutual

/-- The JSON form of a dependency tree. -/
def Tree.toJson : Tree → Json
  | .node name role depth children =>
    let type := match role with
      | .formula .. => "formula"
      | .leaf => "leaf"
      | .circular => "circular"
    let detail := match role with
      | .formula text operators =>
        [("expression", .string text), ("operators", .ofStrings operators)]
      | _ => []
    .ofFields ([("name", .string name), ("type", .string type),
      ("children", .array (toJsonAll children)), ("depth", .ofInt depth)] ++ detail)

/-- The JSON forms of several trees. -/
def Tree.toJsonAll : List Tree → List Json
  | [] => []
  | t :: ts => t.toJson :: toJsonAll ts

end

/-- The JSON form of a node. -/
def Node.toJson (n : Node Binary64) : Json :=
  .ofFields [("id", .string n.id), ("label", .string n.label), ("type", .string n.kind.name),
    ("x", .ofBinary64 n.x), ("y", .ofBinary64 n.y)]

/-- The JSON form of an edge. -/
def Edge.toJson (e : Edge) : Json :=
  let detail := match e.operation with
    | some operation => [("operation", .string operation)]
    | none => []
  .ofFields ([("id", .string e.id), ("from", .string e.source), ("to", .string e.target),
    ("type", .string e.kind.name)] ++ detail)

/-- The JSON form of a graph. -/
def Graph.toJson (g : Graph Binary64) : Json :=
  .ofFields
    [("nodes", .array (g.nodes.map Node.toJson)), ("edges", .array (g.edges.map Edge.toJson))]

end FormulaBook
