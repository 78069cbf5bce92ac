import FormulaBook.Book.Basic
import FormulaBook.Formula.Analysis

/-!
# Dependency trees

The dependency tree of a name shows everything its formula depends on. A name with a formula has
the variables of the formula as children, in the order of their first occurrence; a name without
one is a leaf. A name that recurs below itself is marked as circular and not opened again, and so is
every name below the depth limit.

`Tree.build` ends on every book: a name is opened only if it has a formula and is not on the path
from the root, so the names of the book that are off the path get fewer from step to step. A limit
that a host sets to recursion is left out.
-/

namespace FormulaBook

/-- The role of a name in a dependency tree. A formula comes with its text and its operator
symbols. -/
inductive Tree.Role where
  | formula (text : String) (operators : List String)
  | leaf
  | circular
deriving DecidableEq

/-- A name with everything it depends on. The depth of the root is zero. -/
inductive Tree where
  | node (name : String) (role : Tree.Role) (depth : Nat) (children : List Tree)

namespace Book

/-- How many names of the book are not on a path. -/
def unvisited (b : Book) (path : List String) : Nat :=
  (b.names.filter fun name => !path.contains name).length

/-- Going on to a name of the book that is not on the path leaves fewer names unvisited. -/
theorem unvisited_cons_lt {b : Book} {path : List String} {name : String} (hb : name ∈ b.names)
    (hp : name ∉ path) : b.unvisited (name :: path) < b.unvisited path := by
  have hsub : (b.names.filter fun n => !(name :: path).contains n) =
      ((b.names.filter fun n => !path.contains n).filter fun n => n != name) := by
    rw [List.filter_filter]
    congr 1
    funext n
    by_cases h : n = name <;> simp [h]
  unfold unvisited
  rw [hsub]
  exact List.length_filter_lt_length_iff_exists.mpr
    ⟨name, List.mem_filter.mpr ⟨hb, by simpa using hp⟩, by simp⟩

end Book

namespace Tree

/-- The depth limit where none is given. -/
def defaultMaxDepth : Int := 10

/-- The tree of a name below the names on `path`, at the given depth. -/
def grow (b : Book) (maxDepth : Int) (path : List String) (depth : Nat) (name : String) : Tree :=
  if _onPath : name ∈ path then .node name .circular depth []
  else if maxDepth < depth then .node name .circular depth []
  else
    match _text : b.formula? name with
    | none => .node name .leaf depth []
    | some text =>
      let a := Analysis.of text
      .node name (.formula text a.operators) depth
        (a.vars.map (grow b maxDepth (name :: path) (depth + 1)))
termination_by b.unvisited path
decreasing_by exact Book.unvisited_cons_lt (Book.mem_names_of_formula? _text) _onPath

/-- The dependency tree of a name. -/
def build (b : Book) (maxDepth : Int) (name : String) : Tree := grow b maxDepth [] 0 name

/-- The name at the root. -/
def name : Tree → String
  | .node n _ _ _ => n

/-- The role of the root. -/
def role : Tree → Role
  | .node _ r _ _ => r

/-- The depth of the root. -/
def depth : Tree → Nat
  | .node _ _ d _ => d

/-- The trees below the root. -/
def children : Tree → List Tree
  | .node _ _ _ cs => cs

mutual

/-- All nodes, each before the nodes below it. -/
def preorder : Tree → List Tree
  | .node n r d cs => .node n r d cs :: preorderAll cs

/-- The nodes of several trees, one tree after the other. -/
def preorderAll : List Tree → List Tree
  | [] => []
  | t :: ts => t.preorder ++ preorderAll ts

end

mutual

/-- The names from the root down to the first node with the given name; none if there is no such
node. -/
def findPath (target : String) : Tree → List String
  | .node n _ _ cs =>
    if n = target then [n]
    else
      match findPathAll target cs with
      | [] => []
      | below => n :: below

/-- The path in the first of several trees that has one. -/
def findPathAll (target : String) : List Tree → List String
  | [] => []
  | t :: ts =>
    match findPath target t with
    | [] => findPathAll target ts
    | path => path

end

end Tree

end FormulaBook
