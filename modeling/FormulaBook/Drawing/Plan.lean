import FormulaBook.Dependency.Tree

/-!
# What a drawing opens

Before anything is placed it is decided what a drawing shows. A formula is drawn as its tree, and
beside a variable its own formula may be opened: on the formula drawn the variables that were
selected, and inside an opened formula every variable that has one. A variable stays closed if
it has no formula, if its formula is open on the same branch, if the nesting is too deep, or if its
formula does not parse.
-/

namespace FormulaBook

/-- Why a variable stays closed. -/
inductive Plan.Reason where
  | unselected
  | noFormula
  | onBranch
  | tooDeep
  | unparsed (text : String)
deriving DecidableEq

/-- A variable, closed or with its formula opened; the plans inside are those of the variables of
that formula, in their order. -/
inductive Plan where
  | closed (name : String) (reason : Plan.Reason)
  | opened (name text : String) (expr : Expr) (inner : List Plan)

namespace Plan

/-- The plan of a variable at the given nesting below the names on `path`. -/
def grow (b : Book) (maxDepth : Int) (path : List String) (depth : Nat) (name : String) : Plan :=
  match _text : b.formula? name with
  | none => .closed name .noFormula
  | some text =>
    if _onPath : name ∈ path then .closed name .onBranch
    else if maxDepth < depth then .closed name .tooDeep
    else
      match Expr.parse text with
      | .error _ => .closed name (.unparsed text)
      | .ok e =>
        .opened name text e (e.vars.map (grow b maxDepth (name :: path) (depth + 1)))
termination_by b.unvisited path
decreasing_by exact Book.unvisited_cons_lt (Book.mem_names_of_formula? _text) _onPath

/-- The variable a plan is about. -/
def name : Plan → String
  | .closed name _ => name
  | .opened name _ _ _ => name

end Plan

/-- What is drawn for a name: nothing if it has no formula, only the names in its formula if that
does not parse, or else the tree of its formula with a plan for each of its variables but the
name itself. -/
inductive Scheme where
  | blank
  | flat (text : String) (vars : List String)
  | full (text : String) (expr : Expr) (parts : List Plan)

/-- The scheme for a name, with the variables in `selected` opened on the formula itself. -/
def Scheme.of (b : Book) (maxDepth : Int) (selected : List String) (name : String) : Scheme :=
  match b.formula? name with
  | none => .blank
  | some text =>
    match Expr.parse text with
    | .error _ => .flat text (Analysis.of text).vars
    | .ok e =>
      .full text e <| (e.vars.filter (· != name)).map fun v =>
        if selected.contains v then Plan.grow b maxDepth [name] 1 v else .closed v .unselected

end FormulaBook
