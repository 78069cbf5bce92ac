import FormulaBook.Proofs.Layers
import Mathlib.Algebra.Order.Field.Rat
import Mathlib.Tactic.Linarith
import Mathlib.Tactic.NormNum
import Mathlib.Tactic.Ring

/-!
# No two nodes at one place

In exact arithmetic, with positive distances, the nodes of a drawing are all at different places,
and what is opened beside a variable is drawn below everything drawn before it
(`Layout.nodup_position_of`). In one layer, nodes on different rows differ in height and nodes on
one row in their index on it (`Layout.spread_settle`). A layer that is opened starts below the
lowest node so far (`Layout.le_lowest`) and has no node on its own row zero (`Walk.le_row_through`);
so, whatever the spacing and however far apart the anchors are, layers are stacked one below the
other (`Layout.stacked_layersAt`).
-/

namespace FormulaBook

/-- Coordinates in exact arithmetic. -/
instance : Coordinate ℚ where
  halves k := k / 2
  lower x y := if x < y then y else x

/-- The lower of two rational places is the one with the greater coordinate. -/
theorem Coordinate.lower_eq_max (x y : ℚ) : Coordinate.lower x y = max x y := by
  change (if x < y then y else x) = max x y
  rw [max_def_lt]

/-- Where a node is. -/
def Node.position {α : Type} (n : Node α) : α × α := (n.x, n.y)

/-- All distances of a drawing are positive. -/
structure Measures.Positive (m : Measures ℚ) : Prop where
  levelHeight : 0 < m.levelHeight
  nodeSpacing : 0 < m.nodeSpacing
  expansionFactor : 0 < m.expansionFactor

namespace Walk

/-! ## Rows of a walk -/

/-- A leaf is placed on the row given, if it is placed. -/
theorem le_row_leaf {w : Walk} {anchor : Option String} {l : Leaf} {row : Nat} {p : Placed}
    (hp : p ∈ (w.leaf anchor l row).2.placed) : p ∈ w.placed ∨ row ≤ p.row := by
  cases hl : w.leaves.lookup l with
  | some id =>
    rw [leaf_of_lookup hl] at hp
    exact .inl hp
  | none =>
    rw [leaf_of_new hl] at hp
    rcases List.mem_append.mp hp with hp | hp
    · exact .inl hp
    · rw [List.mem_singleton.mp hp]
      exact .inr (Nat.le_refl row)

/-- An operator is placed on the row asked for, and nothing else is placed with it. -/
theorem le_row_operator {w : Walk} {anchor : Option String} {label : String} {row : Nat}
    {p : Placed} (hp : p ∈ (w.operator anchor label row).2.placed) :
    p ∈ w.placed ∨ row ≤ p.row := by
  rw [operator_eq] at hp
  rcases List.mem_append.mp hp with hp | hp
  · exact .inl hp
  · rw [List.mem_singleton.mp hp]
    exact .inr (Nat.le_refl row)

/-- The walk through a tree places nothing above the row of its root. -/
theorem le_row_through (anchor : Option String) (e : Expr) (row : Nat) (w : Walk) {p : Placed}
    (hp : p ∈ (through anchor e row w).2.placed) : p ∈ w.placed ∨ row ≤ p.row := by
  induction e generalizing row w with
  | number x => exact le_row_leaf hp
  | identifier name => exact le_row_leaf hp
  | binary op left right ihl ihr =>
    rw [through_binary] at hp
    rcases ihr (row + 1) _ hp with hp | hp
    · rcases ihl (row + 1) _ hp with hp | hp
      · exact le_row_operator hp
      · exact .inr (by omega)
    · exact .inr (by omega)
  | signed sign operand ih =>
    rw [through_signed] at hp
    rcases ih (row + 1) _ hp with hp | hp
    · exact le_row_operator hp
    · exact .inr (by omega)

end Walk

namespace Layout

/-- No two nodes are at one place. -/
def Spread (nodes : List (Node ℚ)) : Prop :=
  nodes.Pairwise fun n k => n.position ≠ k.position

/-- Nodes are spread if their places are distinct. -/
theorem spread_iff {nodes : List (Node ℚ)} : Spread nodes ↔ (nodes.map Node.position).Nodup :=
  List.pairwise_map.symm

/-- The nodes of the second list are below those of the first. -/
def Below (before nodes : List (Node ℚ)) : Prop := ∀ k ∈ before, ∀ n ∈ nodes, k.y < n.y

/-! ## One layer -/

/-- On a row the nodes come from left to right. -/
theorem rowX_lt {spacing : ℚ} (hs : 0 < spacing) (center : ℚ) {i j : Nat} (hij : i < j)
    (count : Nat) : rowX center spacing i count < rowX center spacing j count := by
  have hcast : ((2 * i - (count - 1) : Int) : ℚ) < ((2 * j - (count - 1) : Int) : ℚ) :=
    Int.cast_lt.mpr (by omega)
  have hhalf : ((2 * i - (count - 1) : Int) : ℚ) / 2 < ((2 * j - (count - 1) : Int) : ℚ) / 2 := by
    linarith
  exact add_lt_add_right (mul_lt_mul_of_pos_right hhalf hs) center

/-- The rows come from top to bottom. -/
theorem rowY_lt {height : ℚ} (hh : 0 < height) (top : ℚ) {i j : Nat} (hij : i < j) :
    rowY top height i < rowY top height j := by
  have hcast : ((2 * i : Int) : ℚ) < ((2 * j : Int) : ℚ) := Int.cast_lt.mpr (by omega)
  have hhalf : ((2 * i : Int) : ℚ) / 2 < ((2 * j : Int) : ℚ) / 2 := by linarith
  exact add_lt_add_right (mul_lt_mul_of_pos_right hhalf hh) top

/-- Row zero is at the top. -/
theorem top_lt_rowY {height : ℚ} (hh : 0 < height) (top : ℚ) {row : Nat} (hrow : 1 ≤ row) :
    top < rowY top height row := by
  have hzero : rowY top height 0 = top := by
    change top + ((2 * (0 : Nat) : Int) : ℚ) / 2 * height = top
    norm_num
  calc top = rowY top height 0 := hzero.symm
    _ < rowY top height row := rowY_lt hh top hrow

/-- Entries of a list that pass a test are counted one after the other. -/
theorem countP_take_lt {α : Type} {test : α → Bool} {l : List α} {i j : Nat} (hij : i < j)
    (hj : j < l.length) (hi : test l[i] = true) :
    (l.take i).countP test < (l.take j).countP test := by
  calc (l.take i).countP test < (l.take (i + 1)).countP test := by
        rw [List.take_succ_eq_append_getElem (by omega), List.countP_append,
          List.countP_singleton, if_pos hi]
        exact Nat.lt_succ_self _
    _ ≤ (l.take j).countP test := (List.take_sublist_take_left hij).countP_le

/-- Every node placed is settled. -/
theorem length_settle {α : Type} [Coordinate α] (center top spacing height : α)
    (placed : List Placed) :
    (settle center top spacing height placed).length = placed.length := by
  simp [settle]

/-- The place of a settled node: its index on its row, and its row. -/
theorem position_getElem_settle {α : Type} [Coordinate α] (center top spacing height : α)
    (placed : List Placed) {i : Nat} (hi : i < (settle center top spacing height placed).length)
    (hp : i < placed.length) :
    (settle center top spacing height placed)[i].position =
      (rowX center spacing ((placed.take i).countP (·.row == placed[i].row))
        (placed.countP (·.row == placed[i].row)), rowY top height placed[i].row) := by
  simp [settle, Node.position]

/-- The settled nodes of a walk are at different places. -/
theorem spread_settle {spacing height : ℚ} (hs : 0 < spacing) (hh : 0 < height) (center top : ℚ)
    (placed : List Placed) : Spread (settle center top spacing height placed) := by
  rw [Spread, List.pairwise_iff_getElem]
  intro i j hi hj hij heq
  have hip : i < placed.length := by rwa [length_settle] at hi
  have hjp : j < placed.length := by rwa [length_settle] at hj
  rw [position_getElem_settle _ _ _ _ _ hi hip, position_getElem_settle _ _ _ _ _ hj hjp] at heq
  obtain ⟨hx, hy⟩ := Prod.mk.inj heq
  have hrow : placed[i].row = placed[j].row := by
    rcases Nat.lt_trichotomy placed[i].row placed[j].row with hlt | hrow | hlt
    · exact absurd hy (rowY_lt hh top hlt).ne
    · exact hrow
    · exact absurd hy (rowY_lt hh top hlt).ne'
  rw [hrow] at hx
  have hsame : (placed[i].row == placed[j].row) = true := beq_iff_eq.mpr hrow
  have hindex : (placed.take i).countP (·.row == placed[j].row) <
      (placed.take j).countP (·.row == placed[j].row) := countP_take_lt hij hjp hsame
  exact absurd hx (rowX_lt hs center hindex _).ne

/-- Settled nodes that are not on row zero are below the top. -/
theorem lt_y_of_mem_settle {height : ℚ} (hh : 0 < height) {center top spacing : ℚ}
    {placed : List Placed} (hrows : ∀ p ∈ placed, 1 ≤ p.row) {n : Node ℚ}
    (hn : n ∈ settle center top spacing height placed) : top < n.y := by
  obtain ⟨⟨p, i⟩, hp, rfl⟩ := List.mem_map.mp hn
  exact top_lt_rowY hh top (hrows p (List.fst_mem_of_mem_zipIdx hp))

/-- No node drawn is below the lowest one. -/
theorem le_lowest (y : ℚ) {nodes : List (Node ℚ)} {k : Node ℚ} (hk : k ∈ nodes) :
    k.y ≤ lowest y nodes := by
  -- the fold starts from some node and never goes up
  have hfold (ns : List (Node ℚ)) (y : ℚ) :
      y ≤ ns.foldl (fun y n => Coordinate.lower y n.y) y ∧
        ∀ n ∈ ns, n.y ≤ ns.foldl (fun y n => Coordinate.lower y n.y) y := by
    induction ns generalizing y with
    | nil => exact ⟨le_refl y, fun n hn => absurd hn List.not_mem_nil⟩
    | cons n ns ih =>
      obtain ⟨hstart, hall⟩ := ih (Coordinate.lower y n.y)
      rw [Coordinate.lower_eq_max] at hstart
      refine ⟨(le_max_left y n.y).trans ?_, fun k hk => ?_⟩
      · rwa [List.foldl_cons, Coordinate.lower_eq_max]
      rcases List.mem_cons.mp hk with rfl | hk
      · exact (le_max_right _ _).trans (by rwa [List.foldl_cons, Coordinate.lower_eq_max])
      · exact hall k hk
  cases nodes with
  | nil => exact absurd hk List.not_mem_nil
  | cons n ns =>
    rw [lowest, Coordinate.lower_eq_max]
    obtain ⟨hstart, hall⟩ := hfold ns n.y
    refine le_trans ?_ (le_max_right _ _)
    rcases List.mem_cons.mp hk with rfl | hk
    · exact hstart
    · exact hall k hk

variable {m : Measures ℚ}

/-- A layer that is opened is spread, and below all nodes on the canvas. -/
theorem below_opened (hm : m.Positive) (anchor : Node ℚ) {spacing : ℚ} (hs : 0 < spacing)
    (e : Expr) (c : Canvas ℚ) :
    Spread (Layer.opened m anchor spacing e c).nodes ∧
      Below c.nodes (Layer.opened m anchor spacing e c).nodes := by
  refine ⟨spread_settle hs hm.levelHeight .., fun k hk n hn => ?_⟩
  have hrows : ∀ p ∈ (Layer.openedWalk anchor.id e c).placed, 1 ≤ p.row := fun p hp =>
    (Walk.le_row_through _ e 1 _ hp).resolve_left List.not_mem_nil
  exact (le_lowest anchor.y hk).trans_lt (lt_y_of_mem_settle hm.levelHeight hrows hn)

/-- The layer of the formula drawn is spread, and below its result node. -/
theorem below_full (hm : m.Positive) (name result : String) (e : Expr) (c : Canvas ℚ) :
    Spread (Layer.full m name result e c).nodes ∧
      Below [resultNode m name] (Layer.full m name result e c).nodes := by
  refine ⟨spread_settle hm.nodeSpacing hm.levelHeight .., fun k hk n hn => ?_⟩
  have hrows : ∀ p ∈ (Layer.fullWalk name result e c).placed, 1 ≤ p.row := fun p hp => by
    refine (Walk.le_row_through none e 1 (.start c.ids [(.name name, result)] c.edges)
      ?_).resolve_left List.not_mem_nil
    unfold Layer.fullWalk at hp
    dsimp only at hp
    split at hp <;> exact hp
  rw [List.mem_singleton.mp hk]
  exact lt_y_of_mem_settle hm.levelHeight hrows hn

/-! ## Layers one below the other -/

/-- Each of the layers is spread, and below the nodes before and the layers before. -/
def Stacked : List (Node ℚ) → List (Layer ℚ) → Prop
  | _, [] => True
  | before, l :: ls =>
    (Spread l.nodes ∧ Below before l.nodes) ∧ Stacked (before ++ l.nodes) ls

/-- Layers in a row are stacked if the first ones are, and then the others below them. -/
theorem stacked_append {before : List (Node ℚ)} {ls ls' : List (Layer ℚ)} :
    Stacked before (ls ++ ls') ↔
      Stacked before ls ∧ Stacked (before ++ ls.flatMap Layer.nodes) ls' := by
  induction ls generalizing before with
  | nil => simp [Stacked]
  | cons l ls ih =>
    rw [List.cons_append, Stacked, Stacked, ih, List.flatMap_cons, List.append_assoc]
    exact and_assoc.symm

/-- Nodes that are spread stay so with layers stacked below them. -/
theorem Stacked.spread {before : List (Node ℚ)} {ls : List (Layer ℚ)} (h : Stacked before ls)
    (hb : Spread before) : Spread (before ++ ls.flatMap Layer.nodes) := by
  induction ls generalizing before with
  | nil => rwa [List.flatMap_nil, List.append_nil]
  | cons l ls ih =>
    obtain ⟨⟨hl, hbelow⟩, hls⟩ := h
    rw [List.flatMap_cons, ← List.append_assoc]
    refine ih hls (List.pairwise_append.mpr ⟨hb, hl, fun k hk n hn heq => ?_⟩)
    exact (hbelow k hk n hn).ne (congrArg Prod.snd heq)

/-- A layer is below everything before it. -/
theorem Stacked.below {before : List (Node ℚ)} {earlier later : List (Layer ℚ)} {l : Layer ℚ}
    (h : Stacked before (earlier ++ l :: later)) :
    Below (before ++ earlier.flatMap Layer.nodes) l.nodes :=
  (stacked_append.mp h).2.1.2

mutual

/-- What is opened at a node is stacked below the nodes on the canvas. -/
theorem stacked_layersAt (hm : m.Positive) (path : List Nat) (anchor : Node ℚ) {spacing : ℚ}
    (hs : 0 < spacing) : ∀ (p : Plan) (c : Canvas ℚ),
      Stacked c.nodes ((layersAt m path anchor spacing p c).map Prod.snd)
  | .closed name reason, c => by
    rw [layersAt, List.map_nil, Stacked]
    trivial
  | .opened name text e inner, c => by
    rw [layersAt, List.map_cons, Stacked]
    refine ⟨below_opened hm anchor hs e c, ?_⟩
    exact stacked_layersAll hm path 0 (Layer.opened m anchor spacing e c).mentions
      (mul_pos hs hm.expansionFactor) inner ((Layer.opened m anchor spacing e c).onto c)

/-- The layers opened at several names are stacked below the canvas. -/
theorem stacked_layersAll (hm : m.Positive) (path : List Nat) (i : Nat) (as : List (Node ℚ))
    {spacing : ℚ} (hs : 0 < spacing) : ∀ (ps : List Plan) (c : Canvas ℚ),
      Stacked c.nodes ((layersAll m path i as spacing ps c).map Prod.snd)
  | [], c => by
    rw [layersAll, List.map_nil, Stacked]
    trivial
  | p :: ps, c => by
    cases as with
    | nil =>
      rw [layersAll, List.map_nil, Stacked]
      trivial
    | cons a as =>
      rw [layersAll, List.map_append, stacked_append, List.flatMap_map]
      refine ⟨stacked_layersAt hm (path ++ [i]) a hs p c, ?_⟩
      have hnodes := nodes_openAt m (path ++ [i]) a spacing p c
      exact hnodes ▸ stacked_layersAll hm path (i + 1) as hs ps (openAt m a spacing p c)

end

/-! ## Formulas that do not parse -/

/-- Names are drawn behind what is on the canvas, on one row. -/
theorem map_position_drawNames {α : Type} [Coordinate α] (m : Measures α)
    (result operation : String) (count : Nat) (entries : List (String × Nat)) (c : Canvas α) :
    (entries.foldl (fun c e => drawName m result operation count c e.1 e.2) c).nodes.map
        Node.position =
      c.nodes.map Node.position ++ (entries.map Prod.snd).map fun index =>
        (rowX m.centerX m.nodeSpacing index count, rowY m.rootY m.levelHeight flatRow) := by
  induction entries generalizing c with
  | nil => simp
  | cons e entries ih =>
    rw [List.foldl_cons, ih, drawName, List.map_append, List.append_assoc]
    rfl

/-- The names of a formula that does not parse are at different places below the result node. -/
theorem spread_drawFlat (hm : m.Positive) (name result text : String) (names : List String) :
    Spread (drawFlat m result text names (firstCanvas m name)).nodes := by
  rw [spread_iff, drawFlat, map_position_drawNames, List.zipIdx_map_snd]
  refine List.nodup_cons.mpr ⟨fun hmem => ?_, ?_⟩
  · obtain ⟨index, -, heq⟩ := List.mem_map.mp hmem
    have hy : rowY m.rootY m.levelHeight flatRow = m.rootY := congrArg Prod.snd heq
    exact absurd hy (top_lt_rowY hm.levelHeight m.rootY (by decide)).ne'
  · refine List.pairwise_map.mpr ((List.pairwise_lt_range' ..).imp fun {i j} hij heq => ?_)
    exact absurd (congrArg Prod.fst heq) (rowX_lt hm.nodeSpacing m.centerX hij _).ne

/-- In exact arithmetic, with positive distances, no two nodes of a drawing are at one place, and
each formula that is opened is drawn below everything drawn before it. -/
theorem nodup_position_of (b : Book) {m : Measures ℚ} (hm : m.Positive) (selected : List String)
    (name : String) :
    ((of b m selected name).nodes.map Node.position).Nodup ∧
      ∃ first, (of b m selected name).nodes =
          first ++ (layersOf b m selected name).flatMap Layer.nodes ∧
        ∀ earlier l later, layersOf b m selected name = earlier ++ l :: later →
          ∀ k ∈ first ++ earlier.flatMap Layer.nodes, ∀ n ∈ l.nodes, k.y < n.y := by
  rw [of, layersOf]
  cases Scheme.of b m.maxExpansionDepth selected name with
  | blank => exact ⟨List.nodup_nil, [], rfl, fun earlier l later h => by simp [layersAtOf] at h⟩
  | flat text names =>
    refine ⟨spread_iff.mp (spread_drawFlat hm name _ text names), _, (List.append_nil _).symm, ?_⟩
    exact fun earlier l later h => by simp [layersAtOf] at h
  | full text e parts =>
    have hstacked : Stacked [resultNode m name]
        ((layersAtOf m name (.full text e parts)).map Prod.snd) := by
      rw [layersAtOf, List.map_cons, Stacked]
      exact ⟨below_full hm name _ e _,
        stacked_layersAll hm [] 0 _ (mul_pos hm.nodeSpacing hm.expansionFactor) parts
          ((Layer.full m name (resultNode m name).id e (firstCanvas m name)).onto
            (firstCanvas m name))⟩
    have hnodes := nodes_draw_full m name text e parts
    refine ⟨spread_iff.mp ?_, [resultNode m name], ?_, fun earlier l later h => ?_⟩
    · have hall := hstacked.spread (List.pairwise_singleton _ _)
      rwa [List.flatMap_map, List.singleton_append, ← hnodes] at hall
    · rw [hnodes, List.flatMap_map]
      rfl
    · rw [h] at hstacked
      exact hstacked.below

/-- Formulas that name each other, opened inside each other: the seventeen nodes of five layers are
at different places, and the last layer is below the others. -/
theorem nodup_position_of_nested :
    let b := Book.ofList [("r", "a + b * a"), ("a", "b / 2"), ("b", "a - c")]
    let m : Measures ℚ := ⟨120, 120, 60, 400, 7 / 10, 6⟩
    m.Positive ∧ (of b m ["a", "b"] "r").nodes.length = 17 ∧
      (layersOf b m ["a", "b"] "r").length = 5 ∧
      ((of b m ["a", "b"] "r").nodes.map Node.position).Nodup ∧
      ∃ earlier l, layersOf b m ["a", "b"] "r" = earlier ++ [l] ∧
        ∀ k ∈ earlier.flatMap Layer.nodes, ∀ n ∈ l.nodes, k.y < n.y := by
  intro b m
  have hm : m.Positive := ⟨by norm_num [m], by norm_num [m], by norm_num [m]⟩
  have hlength : (layersOf b m ["a", "b"] "r").length = 5 := by decide +kernel
  obtain ⟨hnodup, first, -, hbelow⟩ := nodup_position_of b hm ["a", "b"] "r"
  have hne : layersOf b m ["a", "b"] "r" ≠ [] := List.ne_nil_of_length_pos (by omega)
  have hlast := (List.dropLast_append_getLast hne).symm
  refine ⟨hm, by decide +kernel, hlength, hnodup, _, _, hlast, fun k hk => ?_⟩
  exact hbelow _ _ [] hlast k (List.mem_append_right _ hk)

end Layout

end FormulaBook
