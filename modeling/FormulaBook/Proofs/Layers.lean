import FormulaBook.Drawing.Layout
import FormulaBook.Proofs.Walks
import Mathlib.Data.List.Forall2

/-!
# Layers of a drawing

A drawing is made layer by layer. A layer is what one formula adds: the nodes of its walk with
their places, and the edges. The formula drawn gives the first layer (`Layer.full`), and every
formula opened at a variable gives another (`Layer.opened`); the names of a layer are where the
next ones hang. `Layout.drawFull` and `Layout.openAt` put a layer on the canvas and go on at its
names (`Layout.drawFull_eq`, `Layout.openAt_opened`), so what is on the canvas stays there and the
layers come behind it (`Layout.nodes_openAt`).
-/

namespace FormulaBook

namespace Layout

variable {α : Type}

/-! ## Settled nodes -/

/-- What a node shows of its place in the walk. -/
def Shows (p : Placed) (n : Node α) : Prop := n.id = p.id ∧ n.label = p.label ∧ n.kind = p.kind

/-- Nodes have the ids that were placed for them. -/
theorem map_id_of_shows {placed : List Placed} {nodes : List (Node α)}
    (h : List.Forall₂ Shows placed nodes) : nodes.map Node.id = placed.map Placed.id := by
  induction h with
  | nil => rfl
  | cons hab _ ih => rw [List.map_cons, List.map_cons, hab.1, ih]

variable [Coordinate α]

/-- Every node of a walk is settled, in order. -/
theorem shows_settle (center top spacing height : α) (placed : List Placed) :
    List.Forall₂ Shows placed (settle center top spacing height placed) := by
  have hsame : List.Forall₂ Shows (placed.zipIdx.map Prod.fst)
      (settle center top spacing height placed) := by
    rw [settle, List.forall₂_map_left_iff, List.forall₂_map_right_iff]
    exact List.forall₂_same.mpr fun p _ => ⟨rfl, rfl, rfl⟩
  rwa [List.zipIdx_map_fst] at hsame

/-- The result node of a drawing. -/
def resultNode (m : Measures α) (name : String) : Node α :=
  ⟨(Ids.claimNode {} name).1, name, .result, m.centerX, m.rootY⟩

/-- The canvas with nothing but the result node. -/
def firstCanvas (m : Measures α) (name : String) : Canvas α :=
  ⟨(Ids.claimNode {} name).2, [resultNode m name], []⟩

end Layout

/-! ## Layers -/

/-- What one formula adds to a drawing: the node it hangs from, the walk with all its edges, and
the nodes of the walk with their places. -/
structure Layer (α : Type) where
  owner : String
  walk : Walk
  nodes : List (Node α)
  shows : List.Forall₂ Layout.Shows walk.placed nodes

namespace Layer

variable {α : Type}

/-- The canvas with a layer on it. -/
def onto (l : Layer α) (c : Canvas α) : Canvas α := ⟨l.walk.ids, c.nodes ++ l.nodes, l.walk.edges⟩

/-- The nodes of a layer that stand for names. -/
def mentions (l : Layer α) : List (Node α) := Layout.anchors l.walk.placed l.nodes

/-- The nodes that stand for names are nodes of the layer, in order. -/
theorem mentions_sublist (l : Layer α) : l.mentions.Sublist l.nodes := by
  have hsub : l.mentions.Sublist ((l.walk.placed.zip l.nodes).map Prod.snd) :=
    List.filter_sublist.map _
  rwa [List.map_snd_zip (Nat.le_of_eq l.shows.length_eq.symm)] at hsub

/-- The walk through a formula opened at the node of a variable, with the edge to that node. -/
def openedWalk (anchor : String) (e : Expr) (c : Canvas α) : Walk :=
  let (root, w) := Walk.through (some anchor) e 1 (.start c.ids [] c.edges)
  w.connect root anchor .output

/-- The walk through the formula drawn, with the edge to the result node unless the root is the
result node itself. -/
def fullWalk (name result : String) (e : Expr) (c : Canvas α) : Walk :=
  let (root, w) := Walk.through none e 1 (.start c.ids [(.name name, result)] c.edges)
  if root = result then w else w.connect root result .output

variable [Coordinate α]

/-- The layer of a formula opened at the node of a variable. -/
def opened (m : Measures α) (anchor : Node α) (spacing : α) (e : Expr) (c : Canvas α) : Layer α :=
  ⟨anchor.id, openedWalk anchor.id e c,
    Layout.settle anchor.x (Layout.lowest anchor.y c.nodes) spacing m.levelHeight
      (openedWalk anchor.id e c).placed, Layout.shows_settle ..⟩

/-- The layer of the formula drawn, below its result node. -/
def full (m : Measures α) (name result : String) (e : Expr) (c : Canvas α) : Layer α :=
  ⟨result, fullWalk name result e c,
    Layout.settle m.centerX m.rootY m.nodeSpacing m.levelHeight (fullWalk name result e c).placed,
    Layout.shows_settle ..⟩

end Layer

namespace Layout

variable {α : Type} [Coordinate α]

/-! ## Canvases by layers -/

/-- A plan that opens nothing leaves the canvas. -/
theorem openAt_closed (m : Measures α) (anchor : Node α) (spacing : α) (name : String)
    (reason : Plan.Reason) (c : Canvas α) :
    openAt m anchor spacing (.closed name reason) c = c := by
  rw [openAt]

/-- A formula opened puts its layer on the canvas, and what is inside it is opened at the names of
the layer. -/
theorem openAt_opened (m : Measures α) (anchor : Node α) (spacing : α) (name text : String)
    (e : Expr) (inner : List Plan) (c : Canvas α) :
    openAt m anchor spacing (.opened name text e inner) c =
      openAll m (Layer.opened m anchor spacing e c).mentions (spacing * m.expansionFactor) inner
        ((Layer.opened m anchor spacing e c).onto c) := by
  rw [openAt]
  rfl

/-- No plans leave the canvas. -/
theorem openAll_nil (m : Measures α) (as : List (Node α)) (spacing : α) (c : Canvas α) :
    openAll m as spacing [] c = c := by
  rw [openAll]

/-- The first plan is opened at the first node, then the others at the others. -/
theorem openAll_cons (m : Measures α) (a : Node α) (as : List (Node α)) (spacing : α) (p : Plan)
    (ps : List Plan) (c : Canvas α) :
    openAll m (a :: as) spacing (p :: ps) c =
      openAll m as spacing ps (openAt m a spacing p c) := by
  rw [openAll]

/-- Without nodes to open at the canvas stays. -/
theorem openAll_no_anchors (m : Measures α) (spacing : α) (ps : List Plan) (c : Canvas α) :
    openAll m [] spacing ps c = c := by
  cases ps <;> rw [openAll]

/-- A formula drawn is its layer and what is opened at the names of the layer. -/
theorem drawFull_eq (m : Measures α) (name result : String) (e : Expr) (parts : List Plan)
    (c : Canvas α) :
    drawFull m name result e parts c =
      openAll m (Layer.full m name result e c).mentions (m.nodeSpacing * m.expansionFactor) parts
        ((Layer.full m name result e c).onto c) :=
  rfl

/-- A full drawing is what is on the canvas when the formula is drawn and the parts are opened. -/
theorem draw_full (m : Measures α) (name text : String) (e : Expr) (parts : List Plan) :
    draw m name (.full text e parts) =
      let c := drawFull m name (resultNode m name).id e parts (firstCanvas m name)
      ⟨c.nodes, c.edges⟩ :=
  rfl

/-! ## All layers -/

mutual

/-- The layers put on the canvas when a formula is opened. Each has an address: `path` if it is
that of the formula itself, and the address of another one says which of the names it hangs from. -/
def layersAt (m : Measures α) (path : List Nat) (anchor : Node α) (spacing : α) :
    Plan → Canvas α → List (List Nat × Layer α)
  | .closed .., _ => []
  | .opened _ _ e inner, c =>
    let l := Layer.opened m anchor spacing e c
    (path, l) :: layersAll m path 0 l.mentions (spacing * m.expansionFactor) inner (l.onto c)

/-- The layers put on the canvas when several formulas are opened, the first of them at the name
with the index `i`. -/
def layersAll (m : Measures α) (path : List Nat) (i : Nat) (anchors : List (Node α))
    (spacing : α) : List Plan → Canvas α → List (List Nat × Layer α)
  | [], _ => []
  | p :: ps, c =>
    match anchors with
    | [] => []
    | a :: as =>
      layersAt m (path ++ [i]) a spacing p c ++
        layersAll m path (i + 1) as spacing ps (openAt m a spacing p c)

end

mutual

/-- The nodes of the layers come behind those on the canvas. -/
theorem nodes_openAt (m : Measures α) (path : List Nat) (anchor : Node α) (spacing : α) :
    ∀ (p : Plan) (c : Canvas α), (openAt m anchor spacing p c).nodes =
      c.nodes ++ (layersAt m path anchor spacing p c).flatMap (·.2.nodes)
  | .closed name reason, c => by
    rw [openAt_closed, layersAt, List.flatMap_nil, List.append_nil]
  | .opened name text e inner, c => by
    rw [openAt_opened, nodes_openAll m path 0 _ _ inner, layersAt, List.flatMap_cons,
      Layer.onto, List.append_assoc]

/-- Opening several formulas adds the nodes of their layers. -/
theorem nodes_openAll (m : Measures α) (path : List Nat) (i : Nat) (as : List (Node α))
    (spacing : α) : ∀ (ps : List Plan) (c : Canvas α), (openAll m as spacing ps c).nodes =
      c.nodes ++ (layersAll m path i as spacing ps c).flatMap (·.2.nodes)
  | [], c => by rw [openAll_nil, layersAll, List.flatMap_nil, List.append_nil]
  | p :: ps, c => by
    cases as with
    | nil => rw [openAll_no_anchors, layersAll, List.flatMap_nil, List.append_nil]
    | cons a as =>
      rw [openAll_cons, nodes_openAll m path (i + 1) as spacing ps,
        nodes_openAt m (path ++ [i]) a spacing p, layersAll, List.flatMap_append,
        List.append_assoc]

end

/-- The layers of a drawing with their addresses. The formula drawn has the empty address. -/
def layersAtOf (m : Measures α) (name : String) : Scheme → List (List Nat × Layer α)
  | .blank | .flat .. => []
  | .full _ e parts =>
    let l := Layer.full m name (resultNode m name).id e (firstCanvas m name)
    ([], l) :: layersAll m [] 0 l.mentions (m.nodeSpacing * m.expansionFactor) parts
      (l.onto (firstCanvas m name))

/-- The layers of the drawing of a name, with the selected variables opened. -/
def layersOf (b : Book) (m : Measures α) (selected : List String) (name : String) :
    List (Layer α) :=
  (layersAtOf m name (Scheme.of b m.maxExpansionDepth selected name)).map Prod.snd

/-- The nodes of a drawing are the result node and those of its layers. -/
theorem nodes_draw_full (m : Measures α) (name text : String) (e : Expr) (parts : List Plan) :
    (draw m name (.full text e parts)).nodes =
      resultNode m name :: (layersAtOf m name (.full text e parts)).flatMap (·.2.nodes) := by
  rw [draw_full]
  dsimp only
  rw [drawFull_eq, nodes_openAll m [] 0, layersAtOf, List.flatMap_cons, Layer.onto,
    List.append_assoc]
  rfl

end Layout

end FormulaBook
