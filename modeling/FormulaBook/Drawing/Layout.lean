import FormulaBook.Drawing.Plan
import FormulaBook.Drawing.Walk
import FormulaBook.Number.Decimal

/-!
# Layout

The drawing of a name: its result node on top, below it the tree of its formula row by row, and
then, one after the other, the formulas opened beside its variables. Every row is centred on a
common x. An opened formula hangs from its variable: it is centred on it and starts below the
lowest node drawn before, with closer spacing at every nesting. A formula that does not parse is
drawn as one row of names.

Coordinates are computed by the operations of `Coordinate` alone, in the order written here, so that
the same layout can be read in rounded and in exact arithmetic.
-/

namespace FormulaBook

/-- The arithmetic of coordinates. -/
class Coordinate (α : Type) extends Add α, Mul α where
  /-- Half of an integer. -/
  halves : Int → α
  /-- The second coordinate if it is greater than the first, and the first otherwise. -/
  lower : α → α → α

/-- Doubles as coordinates, rounded by every operation. -/
instance : Coordinate Binary64 where
  halves := Binary64.ofHalves
  lower x y := if x.lt y then y else x

/-- The measures of a drawing: the distance between rows and between neighbours on a row, the place
of the result node, the factor on the distance of neighbours at every nesting, and the deepest
nesting that is drawn. -/
structure Measures (α : Type) where
  levelHeight : α
  nodeSpacing : α
  rootY : α
  centerX : α
  expansionFactor : α
  maxExpansionDepth : Int

/-- The measures where none are given. -/
def Measures.standard : Measures Binary64 where
  levelHeight := Binary64.ofHalves 240
  nodeSpacing := Binary64.ofHalves 240
  rootY := Binary64.ofHalves 120
  centerX := Binary64.ofHalves 800
  expansionFactor := Binary64.ofDecimal false ⟨7, -1⟩
  maxExpansionDepth := 6

/-- A drawing in progress. -/
structure Canvas (α : Type) where
  ids : Ids
  nodes : List (Node α)
  edges : List Edge

namespace Layout

variable {α : Type} [Coordinate α]

/-- The x of the entry with the given index on a row of `count` entries. -/
def rowX (center spacing : α) (index count : Nat) : α :=
  center + Coordinate.halves (2 * index - (count - 1)) * spacing

/-- The y of a row. -/
def rowY (top height : α) (row : Nat) : α := top + Coordinate.halves (2 * row) * height

/-- The nodes of a walk, every row centred. -/
def settle (center top spacing height : α) (placed : List Placed) : List (Node α) :=
  placed.zipIdx.map fun (p, i) =>
    let count := placed.countP (·.row == p.row)
    let index := (placed.take i).countP (·.row == p.row)
    ⟨p.id, p.label, p.kind, rowX center spacing index count, rowY top height p.row⟩

/-- The nodes of a walk that stand for names. -/
def anchors (placed : List Placed) (nodes : List (Node α)) : List (Node α) :=
  ((placed.zip nodes).filter (·.1.named)).map Prod.snd

/-- The greatest y among the anchor and the nodes drawn. -/
def lowest (y : α) : List (Node α) → α
  | [] => y
  | n :: ns => Coordinate.lower y (ns.foldl (fun y n => Coordinate.lower y n.y) n.y)

mutual

/-- The canvas with the formula of a variable opened at its node. -/
def openAt (m : Measures α) (anchor : Node α) (spacing : α) : Plan → Canvas α → Canvas α
  | .closed .., c => c
  | .opened _ _ e inner, c =>
    let (root, w) := Walk.through (some anchor.id) e 1 (.start c.ids [] c.edges)
    let w := w.connect root anchor.id .output
    let nodes := settle anchor.x (lowest anchor.y c.nodes) spacing m.levelHeight w.placed
    openAll m (anchors w.placed nodes) (spacing * m.expansionFactor) inner
      ⟨w.ids, c.nodes ++ nodes, w.edges⟩

/-- The canvas with the formulas of several variables opened, each at the node in the same place. -/
def openAll (m : Measures α) (anchors : List (Node α)) (spacing : α) :
    List Plan → Canvas α → Canvas α
  | [], c => c
  | p :: ps, c =>
    match anchors with
    | [] => c
    | a :: as => openAll m as spacing ps (openAt m a spacing p c)

end

/-- The row of the names of a formula that does not parse. -/
def flatRow : Nat := 2

/-- The canvas with one name of a formula that does not parse. -/
def drawName (m : Measures α) (result operation : String) (count : Nat) (c : Canvas α)
    (name : String) (index : Nat) : Canvas α :=
  let (id, ids) := c.ids.claimNode name
  let node : Node α := ⟨id, name, .quantity, rowX m.centerX m.nodeSpacing index count,
    rowY m.rootY m.levelHeight flatRow⟩
  let (edge, ids) := ids.claimEdge (id ++ "-" ++ result)
  ⟨ids, c.nodes ++ [node], c.edges ++ [⟨edge, id, result, .direct, some operation⟩]⟩

/-- The canvas with all names of a formula that does not parse. -/
def drawFlat (m : Measures α) (result text : String) (names : List String) (c : Canvas α) :
    Canvas α :=
  names.zipIdx.foldl
    (fun c e => drawName m result (RawScan.operation text) names.length c e.1 e.2) c

/-- The canvas with the tree of a formula below its result node, and what is opened beside it. -/
def drawFull (m : Measures α) (name result : String) (e : Expr) (parts : List Plan) (c : Canvas α) :
    Canvas α :=
  let (root, w) := Walk.through none e 1 (.start c.ids [(.name name, result)] c.edges)
  let w := if root = result then w else w.connect root result .output
  let nodes := settle m.centerX m.rootY m.nodeSpacing m.levelHeight w.placed
  openAll m (anchors w.placed nodes) (m.nodeSpacing * m.expansionFactor) parts
    ⟨w.ids, c.nodes ++ nodes, w.edges⟩

/-- The graph of a scheme. -/
def draw (m : Measures α) (name : String) (s : Scheme) : Graph α :=
  let (result, ids) := Ids.claimNode {} name
  let c : Canvas α := ⟨ids, [⟨result, name, .result, m.centerX, m.rootY⟩], []⟩
  match s with
  | .blank => {}
  | .flat text names => let c := drawFlat m result text names c; ⟨c.nodes, c.edges⟩
  | .full _ e parts => let c := drawFull m name result e parts c; ⟨c.nodes, c.edges⟩

/-- The graph of a name, with the selected variables opened. -/
def of (b : Book) (m : Measures α) (selected : List String) (name : String) : Graph α :=
  draw m name (Scheme.of b m.maxExpansionDepth selected name)

end Layout

end FormulaBook
