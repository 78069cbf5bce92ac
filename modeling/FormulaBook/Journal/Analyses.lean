import FormulaBook.Derivative.Sensitivity
import FormulaBook.Document.Reader
import FormulaBook.Drawing.Layout
import FormulaBook.Journal.Event

/-!
# The events of the analyses

The events that belong to each analysis, in the order in which its steps are taken. They are read
off the results: off the trees of formulas, the dependency trees, the derivatives and the plans of
drawings.
-/

namespace FormulaBook

/-- The name of the kind of a tree. -/
def Expr.kindName : Expr → String
  | .number _ => "Number"
  | .identifier _ => "Identifier"
  | .binary .. => "BinaryOp"
  | .signed .. => "UnaryOp"

namespace Event

/-! ## Formulas -/

/-- A formula has been cut into tokens. -/
def tokenized (s : String) (count : Nat) : Event :=
  .debug ("Tokenized '" ++ s ++ "' into " ++ toString count ++ " tokens")

/-- The tokens of a formula have been parsed. -/
def treeBuilt (count : Nat) (e : Expr) : Event :=
  .debug ("Successfully parsed " ++ toString count ++ " tokens into " ++ e.kindName)

/-- The events of parsing a formula that has to be right. -/
def ofParse (s : String) : List Event :=
  let count := (Token.scan s).length
  .debug ("Parsing formula: " ++ s) :: tokenized s count ::
    match Expr.parse s with
    | .ok e =>
      [treeBuilt count e,
        .debug ("Formula parsed successfully into AST with type: " ++ e.kindName)]
    | .error _ => [.debug "ParseError encountered during formula parsing"]

/-- The events of analysing a formula. -/
def ofAnalysis (s : String) : List Event :=
  let count := (Token.scan s).length
  tokenized s count ::
    match Expr.parse s with
    | .ok e => [treeBuilt count e]
    | .error reason =>
      [.warning ("AST parsing failed for '" ++ s ++ "', falling back to simple scan: " ++
        reason.message)]

/-! ## Dependency trees -/

mutual

/-- The events of growing a dependency tree below the names on `path`. -/
def ofTree (maxDepth : Int) (path : List String) : Tree → List Event
  | .node name (.formula text _) depth children =>
    ofAnalysis text ++ ofTrees maxDepth (name :: path) children ++
      [.debug ("Expanded '" ++ name ++ "' at depth " ++ toString depth ++ " into " ++
        toString children.length ++ " dependencies")]
  | .node _ .leaf _ _ => []
  | .node name .circular depth _ =>
    if name ∈ path then
      [.debug ("    🔁 Circular reference to '" ++ name ++ "' at depth " ++ toString depth)]
    else [.debug ("Depth limit " ++ toString maxDepth ++ " reached at '" ++ name ++ "'")]

/-- The events of growing several trees below the names on `path`. -/
def ofTrees (maxDepth : Int) (path : List String) : List Tree → List Event
  | [] => []
  | t :: ts => ofTree maxDepth path t ++ ofTrees maxDepth path ts

end

/-! ## Derivatives -/

/-- The events of differentiating a formula by all its variables. -/
def ofPartials (expr : String) (partials : List (String × Derivative)) : List Event :=
  ofAnalysis expr ++
    partials.flatMap (fun p => p.2.unresolved.map fun d => .debug ("No rule simplifies " ++ d)) ++
    [.debug ("Computed " ++ toString partials.length ++ " partial derivatives of '" ++ expr ++ "'")]

/-! ## Drawings -/

/-- A variable has been left closed. -/
def leftClosed (name reason : String) : Event :=
  .debug ("    ⏭️  Expansion of '" ++ name ++ "' skipped: " ++ reason)

mutual

/-- The events of opening a variable. -/
def ofPlan (maxDepth : Int) : Plan → List Event
  | .closed _ .unselected => []
  | .closed _ .noFormula => []
  | .closed name .onBranch => [leftClosed name "already on this branch"]
  | .closed name .tooDeep => [leftClosed name ("nesting deeper than " ++ toString maxDepth)]
  | .closed name (.unparsed text) => ofAnalysis text ++ [leftClosed name "formula does not parse"]
  | .opened _ text _ inner => ofAnalysis text ++ ofPlans maxDepth inner

/-- The events of opening several variables. -/
def ofPlans (maxDepth : Int) : List Plan → List Event
  | [] => []
  | p :: ps => ofPlan maxDepth p ++ ofPlans maxDepth ps

end

/-- The events of drawing a scheme for a name, with the graph that came of it. -/
def ofScheme {α : Type} (maxDepth : Int) (name : String) (g : Graph α) : Scheme → List Event
  | .blank => [.debug ("No formula named '" ++ name ++ "', empty layout")]
  | .flat text _ => ofAnalysis text
  | .full text _ parts =>
    ofAnalysis text ++ ofPlans maxDepth parts ++
      [.debug ("Laid out '" ++ name ++ "': " ++ toString g.nodes.length ++ " nodes, " ++
        toString g.edges.length ++ " edges")]

/-! ## Documents -/

/-- The events of reading the document under a path, with its number of formulas if it could be
read. -/
def ofReading (p : Path) (source : Source) (size? : Option Nat) : List Event :=
  match source with
  | .absent | .refused _ => []
  | _ =>
    .debug ("Reading formula file: " ++ p.text) ::
      match size? with
      | some n => [.debug ("Loaded " ++ toString n ++ " formulas from " ++ p.name)]
      | none => []

end Event

end FormulaBook
