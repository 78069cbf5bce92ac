import FormulaBook.Proofs.Places

/-!
# What a drawing owes to its measures

The ids, labels and kinds of a drawing and its edges do not depend on where things are drawn, and
the places depend on the measures in a simple way: the drawing moves with its result node and is
stretched with the distances (`Layout.of_measured`). Both are said of two drawings in step with each
other. If the coordinates of one correspond to those of the other, and all operations of a layout
keep to that (`Correspondence.Keeps`), then nodes correspond to nodes, in order
(`Layout.agrees_of`). Where every coordinate corresponds to every other, what is left is the rest of
the drawing; and a drawing in exact arithmetic corresponds to the one with all distances one and the
result node at the origin (`Correspondence.keeps_scaled`).
-/

namespace FormulaBook

open Layout

/-! ## Corresponding coordinates -/

/-- Which coordinates of two drawings correspond: across, down, and as distances on a row. -/
structure Correspondence (α β : Type) where
  across : α → β → Prop
  down : α → β → Prop
  spacing : α → β → Prop

namespace Correspondence

variable {α β : Type} (r : Correspondence α β)

/-- The operations of a layout with one measures and with the other keep to the correspondence. -/
structure Keeps [Coordinate α] [Coordinate β] (m : Measures α) (m' : Measures β) : Prop where
  centerX : r.across m.centerX m'.centerX
  rootY : r.down m.rootY m'.rootY
  nodeSpacing : r.spacing m.nodeSpacing m'.nodeSpacing
  nested {s s'} : r.spacing s s' → r.spacing (s * m.expansionFactor) (s' * m'.expansionFactor)
  rowX {x x' s s'} (index count : Nat) : r.across x x' → r.spacing s s' →
    r.across (rowX x s index count) (rowX x' s' index count)
  rowY {y y'} (row : Nat) : r.down y y' →
    r.down (rowY y m.levelHeight row) (rowY y' m'.levelHeight row)
  lower {y y' z z'} : r.down y y' → r.down z z' →
    r.down (Coordinate.lower y z) (Coordinate.lower y' z')

/-- The nodes differ in nothing but their places, and these correspond. -/
structure OfNodes (n : Node α) (n' : Node β) : Prop where
  id : n.id = n'.id
  label : n.label = n'.label
  kind : n.kind = n'.kind
  across : r.across n.x n'.x
  down : r.down n.y n'.y

/-- The drawings so far differ in nothing but the places of nodes, and these correspond. -/
structure OfCanvases (c : Canvas α) (c' : Canvas β) : Prop where
  ids : c.ids = c'.ids
  nodes : List.Forall₂ r.OfNodes c.nodes c'.nodes
  edges : c.edges = c'.edges

/-- What corresponding nodes have in common is the same for both lists. -/
theorem map_eq_map {γ : Type} {r : Correspondence α β} {ns : List (Node α)} {ns' : List (Node β)}
    (h : List.Forall₂ r.OfNodes ns ns') {f : Node α → γ} {g : Node β → γ}
    (hfg : ∀ n n', r.OfNodes n n' → f n = g n') : ns.map f = ns'.map g := by
  induction h with
  | nil => rfl
  | cons hn _ ih => rw [List.map_cons, List.map_cons, hfg _ _ hn, ih]

end Correspondence

/-! ## Drawings in step -/

namespace Layer

variable {α β : Type} {r : Correspondence α β} {c : Canvas α} {c' : Canvas β}

/-- The walk through an opened formula does not depend on the places on the canvas. -/
theorem openedWalk_congr (h : r.OfCanvases c c') (anchor : String) (e : Expr) :
    openedWalk anchor e c = openedWalk anchor e c' := by
  rw [openedWalk, openedWalk, h.ids, h.edges]

/-- The walk through the main formula does not depend on the places on the canvas. -/
theorem fullWalk_congr (h : r.OfCanvases c c') (name result : String) (e : Expr) :
    fullWalk name result e c = fullWalk name result e c' := by
  rw [fullWalk, fullWalk, h.ids, h.edges]

/-- The nodes that stand for names are in the same places of both lists. -/
theorem agrees_anchors {placed : List Placed} {nodes : List (Node α)} {nodes' : List (Node β)}
    (h : List.Forall₂ r.OfNodes nodes nodes') :
    List.Forall₂ r.OfNodes (anchors placed nodes) (anchors placed nodes') := by
  induction h generalizing placed with
  | nil => cases placed <;> exact .nil
  | @cons n n' ns ns' hn _ ih =>
    cases placed with
    | nil => exact .nil
    | cons p placed =>
      have hrest := @ih placed
      unfold anchors at hrest ⊢
      rw [List.zip_cons_cons, List.zip_cons_cons, List.filter_cons, List.filter_cons]
      split
      · exact .cons hn hrest
      · exact hrest

end Layer

namespace Layout

variable {α β : Type} [Coordinate α] [Coordinate β] {r : Correspondence α β} {m : Measures α}
  {m' : Measures β} {c : Canvas α} {c' : Canvas β}

/-- Nodes that are settled at corresponding places correspond. -/
theorem agrees_settle (h : r.Keeps m m') {x y s : α} {x' y' s' : β} (hx : r.across x x')
    (hy : r.down y y') (hs : r.spacing s s') (placed : List Placed) :
    List.Forall₂ r.OfNodes (settle x y s m.levelHeight placed)
      (settle x' y' s' m'.levelHeight placed) := by
  rw [settle, settle, List.forall₂_map_left_iff, List.forall₂_map_right_iff]
  exact List.forall₂_same.mpr fun p _ => ⟨rfl, rfl, rfl, h.rowX _ _ hx hs, h.rowY _ hy⟩

/-- The lowest of corresponding nodes lie at corresponding heights. -/
theorem down_lowest (h : r.Keeps m m') {y : α} {y' : β} (hy : r.down y y')
    {nodes : List (Node α)} {nodes' : List (Node β)}
    (hnodes : List.Forall₂ r.OfNodes nodes nodes') :
    r.down (lowest y nodes) (lowest y' nodes') := by
  have hfold {ns : List (Node α)} {ns' : List (Node β)} (hns : List.Forall₂ r.OfNodes ns ns')
      {z : α} {z' : β} (hz : r.down z z') :
      r.down (ns.foldl (fun y n => Coordinate.lower y n.y) z)
        (ns'.foldl (fun y n => Coordinate.lower y n.y) z') := by
    induction hns generalizing z z' with
    | nil => exact hz
    | cons hn _ ih => exact ih (h.lower hz hn.down)
  cases hnodes with
  | nil => exact hy
  | cons hn hns => exact h.lower hy (hfold hns hn.down)

/-- Layers with one walk that are settled at corresponding places keep the canvases in step, and so
are the nodes where the next layers hang. -/
theorem agrees_onto (h : r.Keeps m m') (hc : r.OfCanvases c c') {l : Layer α} {k : Layer β}
    (hwalk : l.walk = k.walk) {x y s : α} {x' y' s' : β} (hx : r.across x x')
    (hy : r.down y y') (hs : r.spacing s s')
    (hl : l.nodes = settle x y s m.levelHeight l.walk.placed)
    (hk : k.nodes = settle x' y' s' m'.levelHeight k.walk.placed) :
    r.OfCanvases (l.onto c) (k.onto c') ∧ List.Forall₂ r.OfNodes l.mentions k.mentions := by
  have hnodes : List.Forall₂ r.OfNodes l.nodes k.nodes := by
    rw [hl, hk, ← hwalk]
    exact agrees_settle h hx hy hs _
  refine ⟨⟨congrArg Walk.ids hwalk, List.rel_append hc.nodes hnodes, congrArg Walk.edges hwalk⟩, ?_⟩
  rw [Layer.mentions, Layer.mentions, hwalk]
  exact Layer.agrees_anchors hnodes

mutual

/-- What is opened at corresponding nodes keeps the canvases in step. -/
theorem agrees_openAt (h : r.Keeps m m') {a : Node α} {a' : Node β} (ha : r.OfNodes a a') {s : α}
    {s' : β} (hs : r.spacing s s') : ∀ (p : Plan) {c : Canvas α} {c' : Canvas β},
      r.OfCanvases c c' → r.OfCanvases (openAt m a s p c) (openAt m' a' s' p c')
  | .closed name reason, c, c', hc => by
    rwa [openAt_closed, openAt_closed]
  | .opened name text e inner, c, c', hc => by
    rw [openAt_opened, openAt_opened]
    have hwalk : Layer.openedWalk a.id e c = Layer.openedWalk a'.id e c' :=
      ha.id ▸ Layer.openedWalk_congr hc a.id e
    obtain ⟨honto, hmentions⟩ := agrees_onto h hc (l := .opened m a s e c)
      (k := .opened m' a' s' e c') hwalk ha.across (down_lowest h ha.down hc.nodes) hs rfl rfl
    exact agrees_openAll h hmentions (h.nested hs) inner honto

/-- Opening several formulas on corresponding canvases keeps them corresponding. -/
theorem agrees_openAll (h : r.Keeps m m') {as : List (Node α)} {as' : List (Node β)}
    (has : List.Forall₂ r.OfNodes as as') {s : α} {s' : β} (hs : r.spacing s s') :
    ∀ (ps : List Plan) {c : Canvas α} {c' : Canvas β}, r.OfCanvases c c' →
      r.OfCanvases (openAll m as s ps c) (openAll m' as' s' ps c')
  | [], c, c', hc => by
    rwa [openAll_nil, openAll_nil]
  | p :: ps, c, c', hc => by
    cases has with
    | nil => rwa [openAll_no_anchors, openAll_no_anchors]
    | cons ha has =>
      rw [openAll_cons, openAll_cons]
      exact agrees_openAll h has hs ps (agrees_openAt h ha hs p hc)

end

/-- Drawing a name on corresponding canvases keeps them corresponding. -/
theorem agrees_drawName (h : r.Keeps m m') (result operation : String) (count : Nat)
    (hc : r.OfCanvases c c') (name : String) (index : Nat) :
    r.OfCanvases (drawName m result operation count c name index)
      (drawName m' result operation count c' name index) := by
  unfold drawName
  rw [hc.ids, hc.edges]
  refine ⟨rfl, List.rel_append hc.nodes (.cons ?_ .nil), rfl⟩
  exact ⟨rfl, rfl, rfl, h.rowX _ _ h.centerX h.nodeSpacing, h.rowY _ h.rootY⟩

/-- The names of a formula that does not parse keep the canvases in step. -/
theorem agrees_drawFlat (h : r.Keeps m m') (result text : String) (names : List String)
    (hc : r.OfCanvases c c') :
    r.OfCanvases (drawFlat m result text names c) (drawFlat m' result text names c') := by
  rw [drawFlat, drawFlat]
  generalize names.zipIdx = entries
  induction entries generalizing c c' with
  | nil => exact hc
  | cons entry entries ih => exact ih (agrees_drawName h result _ _ hc entry.1 entry.2)

/-- The formula drawn and what is opened beside it keep the canvases in step. -/
theorem agrees_drawFull (h : r.Keeps m m') (name result : String) (e : Expr) (parts : List Plan)
    (hc : r.OfCanvases c c') :
    r.OfCanvases (drawFull m name result e parts c) (drawFull m' name result e parts c') := by
  rw [drawFull_eq, drawFull_eq]
  obtain ⟨honto, hmentions⟩ := agrees_onto h hc (l := .full m name result e c)
    (k := .full m' name result e c') (Layer.fullWalk_congr hc name result e) h.centerX h.rootY
    h.nodeSpacing rfl rfl
  exact agrees_openAll h hmentions (h.nested h.nodeSpacing) parts honto

/-- The result nodes correspond. -/
theorem agrees_firstCanvas (h : r.Keeps m m') (name : String) :
    r.OfCanvases (firstCanvas m name) (firstCanvas m' name) :=
  ⟨rfl, .cons ⟨rfl, rfl, rfl, h.centerX, h.rootY⟩ .nil, rfl⟩

/-- If the operations of a layout keep to a correspondence, so do the drawings: node by node they
differ in nothing but the places, and they have the same edges. -/
theorem agrees_of (h : r.Keeps m m') (hdepth : m.maxExpansionDepth = m'.maxExpansionDepth)
    (b : Book) (selected : List String) (name : String) :
    List.Forall₂ r.OfNodes (of b m selected name).nodes (of b m' selected name).nodes ∧
      (of b m selected name).edges = (of b m' selected name).edges := by
  have hfirst := agrees_firstCanvas h name
  rw [of, of, hdepth]
  cases Scheme.of b m'.maxExpansionDepth selected name with
  | blank => exact ⟨.nil, rfl⟩
  | flat text names =>
    have hc := agrees_drawFlat h (resultNode m name).id text names hfirst
    exact ⟨hc.nodes, hc.edges⟩
  | full text e parts =>
    have hc := agrees_drawFull h name (resultNode m name).id e parts hfirst
    exact ⟨hc.nodes, hc.edges⟩

end Layout

/-! ## Correspondences -/

/-- A drawing without the places of its nodes. -/
def Graph.unplaced {α : Type} (g : Graph α) : List (String × String × NodeKind) × List Edge :=
  (g.nodes.map fun n => (n.id, n.label, n.kind), g.edges)

/-- Distances one and the result node at the origin. -/
def Measures.unit (factor : ℚ) (depth : Int) : Measures ℚ := ⟨1, 1, 0, 0, factor, depth⟩

namespace Correspondence

/-- Whatever the coordinates. -/
def whatever (α β : Type) : Correspondence α β where
  across _ _ := True
  down _ _ := True
  spacing _ _ := True

/-- All layouts keep to the correspondence that relates any two coordinates. -/
theorem keeps_whatever {α β : Type} [Coordinate α] [Coordinate β] (m : Measures α)
    (m' : Measures β) : (whatever α β).Keeps m m' :=
  ⟨trivial, trivial, trivial, fun _ => trivial, fun _ _ _ _ => trivial, fun _ _ => trivial,
    fun _ _ => trivial⟩

/-- Coordinates that are moved with the result node and stretched with the distances; those down
count rows. -/
def scaled (m : Measures ℚ) : Correspondence ℚ ℚ where
  across x x' := x = m.centerX + m.nodeSpacing * x'
  down y y' := y = m.rootY + m.levelHeight * y' ∧ ∃ row : ℤ, y' = row
  spacing s s' := s = m.nodeSpacing * s'

/-- A layout is the one with distances one, moved and stretched. -/
theorem keeps_scaled {m : Measures ℚ} (hm : 0 ≤ m.levelHeight) :
    (scaled m).Keeps m (.unit m.expansionFactor m.maxExpansionDepth) where
  centerX := by simp [scaled, Measures.unit]
  rootY := ⟨by simp [Measures.unit], 0, by simp [Measures.unit]⟩
  nodeSpacing := by simp [scaled, Measures.unit]
  nested := by
    rintro s s' (rfl : s = _)
    exact mul_assoc m.nodeSpacing s' m.expansionFactor
  rowX := by
    rintro x x' s s' index count (rfl : x = _) (rfl : s = _)
    simp only [scaled, rowX]
    ring
  rowY := by
    rintro y y' row ⟨rfl, k, rfl⟩
    refine ⟨?_, k + row, ?_⟩
    · simp only [rowY, Measures.unit]
      ring
    · change (k : ℚ) + ((2 * row : Int) : ℚ) / 2 * 1 = _
      push_cast
      ring
  lower := by
    rintro y y' z z' ⟨rfl, k, rfl⟩ ⟨rfl, l, rfl⟩
    rw [Coordinate.lower_eq_max, Coordinate.lower_eq_max]
    refine ⟨?_, max k l, Int.cast_max.symm⟩
    rw [max_add_add_left, mul_max_of_nonneg _ _ hm]

end Correspondence

namespace Layout

/-- Two drawings differ in nothing but places if the formulas are opened to the same depth. In exact
arithmetic, with rows going down, a place is the result node's, moved across by a multiple of the
spacing and down by whole rows; how far depends on the factor for nested spacings and the depth
alone. -/
theorem of_measured (b : Book) (selected : List String) (name : String) :
    (∀ (α β : Type) [Coordinate α] [Coordinate β] (m : Measures α) (m' : Measures β),
      m.maxExpansionDepth = m'.maxExpansionDepth →
        (of b m selected name).unplaced = (of b m' selected name).unplaced) ∧
    ∀ (factor : ℚ) (depth : Int), ∃ places : List (ℚ × ℤ), ∀ m : Measures ℚ,
      m.expansionFactor = factor → m.maxExpansionDepth = depth → 0 ≤ m.levelHeight →
        (of b m selected name).nodes.map Node.position = places.map fun (x, y) =>
          (m.centerX + m.nodeSpacing * x, m.rootY + m.levelHeight * y) := by
  constructor
  · intro α β _ _ m m' hdepth
    obtain ⟨hnodes, hedges⟩ :=
      agrees_of (Correspondence.keeps_whatever m m') hdepth b selected name
    refine Prod.ext (Correspondence.map_eq_map hnodes fun n n' hn => ?_) hedges
    rw [hn.id, hn.label, hn.kind]
  · intro factor depth
    refine ⟨(of b (.unit factor depth) selected name).nodes.map fun n => (n.x, n.y.num), ?_⟩
    rintro m rfl rfl hm
    obtain ⟨hnodes, -⟩ := agrees_of (Correspondence.keeps_scaled hm) rfl b selected name
    rw [List.map_map]
    refine Correspondence.map_eq_map hnodes fun n n' hn => ?_
    obtain ⟨hy, row, hrow⟩ := hn.down
    rw [Node.position, hn.across, hy, Function.comp_apply, hrow, Rat.num_intCast]

/-- Formulas that name each other, opened inside each other: the rounded and the exact drawing have
the same nodes and edges, and the exact one and one with all rows in one line have their nodes over
the same places. -/
theorem of_measured_nested :
    let b := Book.ofList [("r", "a + b * a"), ("a", "b / 2"), ("b", "a - c")]
    let m : Measures ℚ := ⟨120, 120, 60, 400, 7 / 10, 6⟩
    let flat : Measures ℚ := ⟨0, -50, 7, 1 / 3, 7 / 10, 6⟩
    (of b m ["a", "b"] "r").unplaced = (of b Measures.standard ["a", "b"] "r").unplaced ∧
      ∃ places : List (ℚ × ℤ), places.length = 17 ∧
        (of b m ["a", "b"] "r").nodes.map Node.position =
          (places.map fun (x, y) => (400 + 120 * x, 60 + 120 * (y : ℚ))) ∧
        (of b flat ["a", "b"] "r").nodes.map Node.position =
          places.map fun (x, y) => (1 / 3 + -50 * x, 7 + 0 * (y : ℚ)) := by
  intro b m flat
  obtain ⟨htopology, hplaces⟩ := of_measured b ["a", "b"] "r"
  obtain ⟨places, hplaces⟩ := hplaces (7 / 10) 6
  have hm := hplaces m rfl rfl (by norm_num [m])
  refine ⟨htopology _ _ m .standard rfl, places, ?_, hm, hplaces flat rfl rfl le_rfl⟩
  have hlength : (of b m ["a", "b"] "r").nodes.length = 17 := by decide +kernel
  rw [← hlength, ← List.length_map (f := Node.position), hm, List.length_map]

end Layout

end FormulaBook
