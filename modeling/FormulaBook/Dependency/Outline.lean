import FormulaBook.Dependency.Tree

/-!
# Outlines

A dependency tree as text: one line a node, indented by its depth, with a mark for its role and
the formula if there is one.
-/

namespace FormulaBook.Tree

/-- The mark of a role. -/
def Role.mark : Role → String
  | .formula .. => "ƒ"
  | .leaf => "•"
  | .circular => "↻"

/-- The line of a node. -/
def line : Tree → String
  | .node name role depth _ =>
    let detail := match role with
      | .formula text _ => " = " ++ text
      | _ => ""
    String.ofList (List.replicate (2 * depth) ' ') ++ role.mark ++ " " ++ name ++ detail

/-- The text of a tree. -/
def outline (t : Tree) : String := "\n".intercalate (t.preorder.map line)

end FormulaBook.Tree
