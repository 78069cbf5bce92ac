import FormulaBook.Proofs.Agreement
import FormulaBook.Proofs.Grafts

/-!
# Everything drawn flows into the result

Every layer of a drawing is a sketch grafted onto what was drawn before: the formula drawn at the
result node (`Layer.exists_graft_full`), and a formula opened at the node of its variable
(`Layer.exists_graft_opened`). What grafts keep is kept when formulas are opened, however deep they
nest (`Layout.opening_openAll`). So in the drawing of every name all nodes lead to the result node,
operators and variables have the edges they should have, the operators are those of the formulas
opened, and there is a cycle exactly if the formula drawn mentions its own name and is more than a
name (`Layout.flows_of`).
-/

namespace FormulaBook

open Relation (ReflTransGen)

/-! ## Plans that the book gives -/

namespace Plan

/-- What a plan opens are formulas of the book with plans for their variables. -/
inductive Grounded (b : Book) : Plan → Prop
  | closed (name : String) (reason : Reason) : Grounded b (.closed name reason)
  | opened {name text : String} {e : Expr} {inner : List Plan} :
    b.formula? name = some text → Expr.parse text = .ok e → inner.map Plan.name = e.vars →
      (∀ p ∈ inner, Grounded b p) → Grounded b (.opened name text e inner)

/-- The plan grown for a name has this name. -/
theorem name_grow (b : Book) (maxDepth : Int) (path : List String) (depth : Nat)
    (name : String) : (grow b maxDepth path depth name).name = name := by
  fun_cases grow b maxDepth path depth name <;> rfl

/-- The plans grown from a book open formulas of the book. -/
theorem grounded_grow (b : Book) (maxDepth : Int) (path : List String) (depth : Nat)
    (name : String) : (grow b maxDepth path depth name).Grounded b := by
  fun_induction grow b maxDepth path depth name with
  | case1 => exact .closed _ _
  | case2 => exact .closed _ _
  | case3 => exact .closed _ _
  | case4 => exact .closed _ _
  | case5 path depth name text htext hmem hdepth e hparse ih =>
    refine .opened htext hparse ?_ fun p hp => ?_
    · rw [List.map_map]
      exact List.map_id'' (fun v => name_grow ..) _
    · obtain ⟨v, -, rfl⟩ := List.mem_map.mp hp
      exact ih v

mutual

/-- The formulas that a plan opens, in the order in which they are drawn. -/
def exprs : Plan → List Expr
  | .closed .. => []
  | .opened _ _ e inner => e :: exprsAll inner

/-- The formulas that several plans open. -/
def exprsAll : List Plan → List Expr
  | [] => []
  | p :: ps => p.exprs ++ exprsAll ps

end

end Plan

/-- The formulas of a drawing in the order in which they are drawn. -/
def Scheme.exprs : Scheme → List Expr
  | .blank | .flat .. => []
  | .full _ e parts => e :: Plan.exprsAll parts

/-! ## Layers are grafts -/

/-- What is on a canvas as a graph. -/
def Canvas.graph {α : Type} (c : Canvas α) : Graph α := ⟨c.nodes, c.edges⟩

namespace Layout

variable {α : Type}

/-- A node settled is among the nodes placed. -/
theorem exists_placed_of_shows {placed : List Placed} {nodes : List (Node α)}
    (h : List.Forall₂ Shows placed nodes) {n : Node α} (hn : n ∈ nodes) :
    ∃ p ∈ placed, Shows p n := by
  induction h with
  | nil => exact absurd hn List.not_mem_nil
  | @cons p k _ _ hpk _ ih =>
    rcases List.mem_cons.mp hn with rfl | hn
    · exact ⟨p, List.mem_cons_self, hpk⟩
    · obtain ⟨q, hq, hqn⟩ := ih hn
      exact ⟨q, List.mem_cons_of_mem _ hq, hqn⟩

/-- The operators settled are those placed. -/
theorem operators_of_shows {placed : List Placed} {nodes : List (Node α)}
    (h : List.Forall₂ Shows placed nodes) :
    ((nodes.filter (·.kind = .operation)).map fun n => (n.id, n.label)) =
      (placed.filter (·.kind = .operation)).map fun p => (p.id, p.label) := by
  induction h with
  | nil => rfl
  | @cons p n _ _ hpn _ ih =>
    obtain ⟨hid, hlabel, hkind⟩ := hpn
    rw [List.filter_cons, List.filter_cons, hkind]
    split
    · rw [List.map_cons, List.map_cons, ih, hid, hlabel]
    · exact ih

end Layout

namespace Layer

variable {α : Type} {c : Canvas α} {anchor : Node α}

/-- The layer is a graft of a tree on the canvas, and its names are variables. -/
structure IsGraft (l : Layer α) (e : Expr) (G : c.graph.Graft anchor) : Prop where
  isOf : G.sketch.IsOf e
  nodes_eq : G.nodes = l.nodes
  graph_eq : G.graph = (l.onto c).graph
  kind_mentions : ∀ n ∈ l.mentions, n.kind = .quantity

/-- A name of a layer is a node that is placed as one. -/
theorem exists_placed_of_mem_mentions {l : Layer α} {n : Node α} (hn : n ∈ l.mentions) :
    ∃ p ∈ l.walk.placed, p.named = true ∧ n.kind = p.kind := by
  obtain ⟨⟨p, k⟩, hpk, rfl⟩ := List.mem_map.mp hn
  obtain ⟨hzip, hnamed⟩ := List.mem_filter.mp hpk
  have hshows : Layout.Shows p k := (List.forall₂_iff_zip.mp l.shows).2 hzip
  exact ⟨p, (List.of_mem_zip hzip).1, hnamed, hshows.2.2⟩

/-- The walk through a tree is a graft, if no leaf is known when it begins but the name of the
result node. -/
theorem exists_graft (hc : c.Sound) (ha : anchor ∈ c.nodes) (hkind : anchor.kind ≠ .operation)
    (known : List (Leaf × String)) (hnodup : (known.map Prod.fst).Nodup)
    (hknown : ∀ x ∈ known, anchor.kind = .result ∧ x = (.name anchor.label, anchor.id))
    (below : Option String) (e : Expr) {out : String × Walk}
    (hout : out = Walk.through below e 1 (.start c.ids known c.edges)) (l : Layer α)
    (hplaced : l.walk.placed = out.2.placed) {link : List Edge}
    (hedges : l.walk.edges = out.2.edges ++ link)
    (hlink : link.map Edge.ends = if out.1 = anchor.id then [] else [(out.1, anchor.id)])
    (hkinds : ∀ edge ∈ link, edge.kind = .output) :
    ∃ G : c.graph.Graft anchor, l.IsGraft e G ∧
      ∀ x ∈ known, ∀ id, (x.1, id) ∈ G.sketch.leaves → id = x.2 := by
  have hdrawn : (Walk.start c.ids known c.edges).LeavesDrawn := by
    intro x hx
    rw [(hknown x hx).2]
    exact (hc.mem_nodes _).mpr (List.mem_map_of_mem ha)
  obtain ⟨s, es, hs, htraces⟩ := Walk.exists_traces below hnodup hdrawn e 1
  have htracks := hc.tracks_of_arrives (Walk.arrives_through below e 1 _ hdrawn)
  rw [← hout] at htraces htracks
  have hshows := l.shows
  rw [hplaced] at hshows
  have hids : ((c.nodes ++ l.nodes).map Node.id).Nodup := by
    rw [List.map_append, Layout.map_id_of_shows hshows]
    exact htracks.nodup_nodes
  -- the ids of the nodes placed are new, so none is that of a leaf known
  have hfresh {n : Node α} (hn : n ∈ l.nodes) : n.id ∉ known.map Prod.snd := by
    rw [List.map_append, List.nodup_append] at hids
    intro hmem
    obtain ⟨x, hx, hid⟩ := List.mem_map.mp hmem
    rw [(hknown x hx).2] at hid
    exact hids.2.2 _ (List.mem_map_of_mem ha) _ (List.mem_map_of_mem hn) hid
  refine ⟨⟨s, l.nodes, es, link, ha, hkind, ?_, hids, ?_, ?_, ?_, htraces.ends_eq,
    htraces.kind_edges, ?_, hkinds⟩, ⟨hs, rfl, ?_, ?_⟩, htraces.known_unique⟩
  · exact fun edge hedge => ⟨(hc.joins edge hedge).1, (hc.joins edge hedge).2.1⟩
  · rw [Layout.operators_of_shows hshows]
    exact htraces.operations_eq
  · intro n hn
    obtain ⟨p, hp, hid, -, hpn⟩ := Layout.exists_placed_of_shows hshows hn
    rw [hpn, hid]
    refine (htraces.placed_cases p hp).imp And.left (.imp_right fun hmem => ?_)
    exact hmem.resolve_left (hid ▸ hfresh hn)
  · intro x hx
    rcases htraces.leaf_cases x hx with hx | ⟨p, hp, hpx⟩
    · exact .inr (hknown x hx)
    · obtain ⟨n, hn, hid, hlabel, hpn⟩ := Layout.exists_of_shows hshows hp
      exact .inl ⟨n, hn, hpn.trans hpx.1, hid.trans hpx.2.1, hlabel.trans hpx.2.2⟩
  · rw [htraces.root_eq]
    exact hlink
  · have hedges : l.walk.edges = c.edges ++ (es ++ link) := by
      rw [hedges, htraces.edges_eq, List.append_assoc]
    exact congrArg (Graph.mk _) hedges.symm
  · intro n hn
    obtain ⟨p, hp, hnamed, hpn⟩ := exists_placed_of_mem_mentions hn
    rw [hplaced] at hp
    rcases htraces.placed_cases p hp with ⟨-, hother⟩ | ⟨hquantity, -⟩
    · cases hnamed.symm.trans hother
    · exact hpn.trans hquantity

/-- The edge to the node of a variable is the last of a formula opened. -/
theorem exists_link_opened (anchor : String) (e : Expr) (c : Canvas α) :
    let out := Walk.through (some anchor) e 1 (.start c.ids [] c.edges)
    ∃ edge : Edge, (openedWalk anchor e c).edges = out.2.edges ++ [edge] ∧
      edge.ends = (out.1, anchor) ∧ edge.kind = .output :=
  ⟨_, rfl, rfl, rfl⟩

/-- The edge to the result node, unless the root is that node, is the last of the formula drawn. -/
theorem exists_link_full (name result : String) (e : Expr) (c : Canvas α) :
    let out := Walk.through none e 1 (.start c.ids [(.name name, result)] c.edges)
    ∃ link : List Edge, (fullWalk name result e c).edges = out.2.edges ++ link ∧
      link.map Edge.ends = (if out.1 = result then [] else [(out.1, result)]) ∧
      ∀ edge ∈ link, edge.kind = .output := by
  intro out
  by_cases hroot : out.1 = result
  · have hwalk : fullWalk name result e c = out.2 := if_pos hroot
    exact ⟨[], by rw [hwalk, List.append_nil], (if_pos hroot).symm, nofun⟩
  · have hwalk : fullWalk name result e c = out.2.connect out.1 result .output := if_neg hroot
    refine ⟨[_], by rw [hwalk, Walk.connect_eq], (if_neg hroot).symm, fun edge hedge => ?_⟩
    rw [List.mem_singleton.mp hedge]

variable [Coordinate α]

/-- A formula opened at the node of a variable is a graft. -/
theorem exists_graft_opened (m : Measures α) (hc : c.Sound) (ha : anchor ∈ c.nodes)
    (hkind : anchor.kind = .quantity) (spacing : α) (e : Expr) :
    ∃ G : c.graph.Graft anchor, (opened m anchor spacing e c).IsGraft e G := by
  obtain ⟨edge, hedges, hends, houtput⟩ := exists_link_opened anchor.id e c
  have harr := Walk.arrives_through (some anchor.id) e 1 (.start c.ids [] c.edges) nofun
  have hne : (Walk.through (some anchor.id) e 1 (.start c.ids [] c.edges)).1 ≠ anchor.id := by
    intro heq
    rcases harr.old_or_new with ⟨p, hp, -⟩ | hnew
    · exact absurd hp List.not_mem_nil
    · rw [heq] at hnew
      exact hnew ((hc.mem_nodes _).mpr (List.mem_map_of_mem ha))
  have hlink : [edge].map Edge.ends = [_] := congrArg (fun x => [x]) hends
  obtain ⟨G, hG, -⟩ :=
    exists_graft hc ha (by rw [hkind]; exact nofun) [] List.nodup_nil nofun (some anchor.id) e rfl
      (opened m anchor spacing e c) rfl hedges (hlink.trans (if_neg hne).symm)
      fun x hx => List.mem_singleton.mp hx ▸ houtput
  exact ⟨G, hG⟩

/-- The formula drawn is a graft at the result node, which is the leaf for its name. -/
theorem exists_graft_full (m : Measures α) (name : String) (e : Expr) :
    let result := Layout.resultNode m name
    let c := Layout.firstCanvas m name
    ∃ G : c.graph.Graft result, (full m name result.id e c).IsGraft e G ∧
      ∀ id, (Leaf.name name, id) ∈ G.sketch.leaves → id = result.id := by
  intro result c
  have hc : c.Sound := Ids.tracks_nil.claimNode name
  obtain ⟨link, hedges, hends, houtput⟩ := exists_link_full name result.id e c
  obtain ⟨G, hG, hleaf⟩ :=
    exists_graft hc (show result ∈ c.nodes from List.mem_cons_self) nofun
      [(.name name, result.id)] (List.nodup_singleton _)
      (fun x hx => ⟨rfl, List.mem_singleton.mp hx⟩) none e rfl (full m name result.id e c)
      (placed_fullWalk name result.id e c) hedges hends houtput
  exact ⟨G, hG, hleaf _ List.mem_cons_self⟩

end Layer

/-! ## Opening formulas -/

/-- What is on a canvas flows into the result node: the graph is wired, everything leads to the
result node, and the edges of no other node close a cycle. -/
structure Canvas.Flows {α : Type} (b : Book) (result : Node α) (c : Canvas α) : Prop where
  sound : c.Sound
  wired : c.graph.Wired b
  result_kind : result.kind = .result
  eq_result : ∀ n ∈ c.nodes, n.kind = .result → n = result
  reaches : ∀ n ∈ c.nodes, ReflTransGen c.graph.Leads n.id result.id
  falls : ∃ rank, c.graph.Falls result.id rank

/-- Opening formulas at some anchors: the canvas flows into the result node as before, the operators
of the formulas come on top, and for the old nodes nothing changes but for edges into anchors. -/
structure Canvas.Opening {α : Type} (b : Book) (result : Node α) (anchors : List String)
    (exprs : List Expr) (c c' : Canvas α) : Prop where
  flows : c'.Flows b result
  operations_eq : c'.graph.operations = c.graph.operations ++ exprs.flatMap Expr.operations
  subset : c.nodes ⊆ c'.nodes
  edgesInto_eq : ∀ n ∈ c.nodes, n.id ∉ anchors →
    c'.graph.edgesInto n.id = c.graph.edgesInto n.id
  edgesFrom_eq : ∀ n ∈ c.nodes, c'.graph.edgesFrom n.id = c.graph.edgesFrom n.id

namespace Canvas

variable {α : Type} {b : Book} {result : Node α} {c c' c'' : Canvas α}

/-- Opening no formula leaves the canvas. -/
theorem Flows.opening_refl (h : c.Flows b result) (anchors : List String) :
    Opening b result anchors [] c c :=
  ⟨h, (List.append_nil _).symm, List.Subset.refl _, fun _ _ _ => rfl, fun _ _ => rfl⟩

/-- Openings one after the other. Anchors of the second that are old are anchors of the whole. -/
theorem Opening.trans {as as' bs : List String} {es fs : List Expr}
    (h : Opening b result as es c c') (h' : Opening b result as' fs c' c'') (hsub : as ⊆ bs)
    (hnew : ∀ n ∈ c.nodes, n.id ∈ as' → n.id ∈ bs) : Opening b result bs (es ++ fs) c c'' where
  flows := h'.flows
  operations_eq := by
    rw [h'.operations_eq, h.operations_eq, List.flatMap_append, List.append_assoc]
  subset _ hn := h'.subset (h.subset hn)
  edgesInto_eq n hn hid := by
    rw [h'.edgesInto_eq n (h.subset hn) (mt (hnew n hn) hid),
      h.edgesInto_eq n hn fun hmem => hid (hsub hmem)]
  edgesFrom_eq n hn := by rw [h'.edgesFrom_eq n (h.subset hn), h.edgesFrom_eq n hn]

/-- A graft on a canvas that flows into the result node flows into it as well. -/
theorem Flows.graft (h : c.Flows b result) {anchor : Node α} (G : c.graph.Graft anchor) {e : Expr}
    (hof : G.sketch.IsOf e) (hopens : Graph.Graft.Opens b c.graph anchor e)
    (hanchor : anchor.kind = .result → anchor.id = result.id) (hgraph : G.graph = c'.graph)
    (hsound : c'.Sound) : c'.Flows b result where
  sound := hsound
  wired := hgraph ▸ G.wired hof hopens h.wired
  result_kind := h.result_kind
  eq_result n hn hkind := by
    have hn : n ∈ G.graph.nodes := hgraph ▸ hn
    rcases List.mem_append.mp hn with hold | hnew
    · exact h.eq_result n hold hkind
    · have hother := (G.node_cases n hnew).imp_right And.left
      rw [hkind] at hother
      rcases hother with hother | hother <;> cases hother
  reaches n hn := by
    have hn : n ∈ G.graph.nodes := hgraph ▸ hn
    have hmono {a z : String} (haz : ReflTransGen c.graph.Leads a z) :
        ReflTransGen G.graph.Leads a z := by
      refine ReflTransGen.mono (fun a b hab => ?_) _ _ haz
      obtain ⟨edge, hedge, hends⟩ := hab
      exact ⟨edge, List.mem_append_left _ hedge, hends⟩
    rw [← hgraph]
    rcases List.mem_append.mp hn with hold | hnew
    · exact hmono (h.reaches n hold)
    · exact (G.leads_anchor hnew).trans (hmono (h.reaches anchor G.anchor_mem))
  falls := hgraph ▸ G.exists_falls hanchor h.falls

/-- A graft at the node of a variable opens its formula. -/
theorem Flows.opening_graft (h : c.Flows b result) {anchor : Node α} (G : c.graph.Graft anchor)
    {e : Expr} (hof : G.sketch.IsOf e) (hkind : anchor.kind = .quantity)
    (hopens : Graph.Graft.Opens b c.graph anchor e) (hgraph : G.graph = c'.graph)
    (hsound : c'.Sound) : Opening b result [anchor.id] [e] c c' where
  flows := by
    refine h.graft G hof hopens (fun hresult => ?_) hgraph hsound
    rw [hkind] at hresult
    cases hresult
  operations_eq := by
    rw [← hgraph, G.operations_graph hof, List.flatMap_singleton]
  subset n hn := by
    have hmem : n ∈ G.graph.nodes := List.mem_append_left _ hn
    rw [hgraph] at hmem
    exact hmem
  edgesInto_eq n hn hid := by
    rw [← hgraph, G.edgesInto_of_mem hn, if_neg (by simpa using hid), List.append_nil]
  edgesFrom_eq n hn := by
    rw [← hgraph]
    refine G.edgesFrom_of_mem hn fun hresult => ?_
    rw [hkind] at hresult
    cases hresult

end Canvas

namespace Layout

variable {α : Type} {b : Book} {result : Node α}

/-- The nodes are variables on the canvas with no edges in. -/
def Ready (c : Canvas α) (as : List (Node α)) : Prop :=
  ∀ a ∈ as, a ∈ c.nodes ∧ a.kind = .quantity ∧ c.graph.edgesInto a.id = []

/-- The names of a layer are where formulas can be opened. -/
theorem ready_mentions {c : Canvas α} {anchor : Node α} {l : Layer α} {e : Expr}
    {G : c.graph.Graft anchor} (hG : l.IsGraft e G) : Ready (l.onto c) l.mentions := by
  intro a ha
  have hmem := l.mentions_sublist.subset ha
  have hkind := hG.kind_mentions a ha
  rw [← hG.graph_eq]
  exact ⟨List.mem_append_right _ hmem, hkind, G.edgesInto_eq_nil (hG.nodes_eq ▸ hmem) hkind⟩

/-- No two names of a layer are at one node. -/
theorem nodup_mentions {c : Canvas α} {l : Layer α} (h : (l.onto c).Sound) :
    (l.mentions.map Node.id).Nodup := by
  have hnodup := h.nodup_nodes
  rw [Layer.onto, List.map_append, List.nodup_append] at hnodup
  exact (l.mentions_sublist.map _).nodup hnodup.2.1

variable [Coordinate α]

mutual

/-- Opening a formula at the node of its variable. -/
theorem opening_openAt (m : Measures α) {a : Node α} (spacing : α) :
    ∀ (p : Plan) (c : Canvas α), c.Flows b result → Ready c [a] → a.label = p.name →
      p.Grounded b → Canvas.Opening b result [a.id] p.exprs c (openAt m a spacing p c)
  | .closed name reason, c, h, _, _, _ => by
    rw [openAt_closed]
    exact h.opening_refl _
  | .opened name text e inner, c, h, ha, hlabel, hp => by
    obtain ⟨hmem, hkind, hnone⟩ := ha a List.mem_cons_self
    cases hp with
    | opened htext hparse hnames hinner =>
      rw [openAt_opened]
      obtain ⟨G, hG⟩ := Layer.exists_graft_opened m h.sound hmem hkind spacing e
      have hsound := Canvas.sound_onto (l := Layer.opened m a spacing e c)
        (h.sound.tracks_openedWalk (List.mem_map_of_mem hmem) e)
      have hopens : Graph.Graft.Opens b c.graph a e := fun _ =>
        ⟨hnone, text, hlabel ▸ htext, hparse⟩
      have hlayer := h.opening_graft G hG.isOf hkind hopens hG.graph_eq hsound
      have hlabels := Layer.map_label_mentions_opened m a spacing e c
      refine hlayer.trans (opening_openAll m (spacing * m.expansionFactor) inner _ hlayer.flows
        (ready_mentions hG) (nodup_mentions hsound) (hlabels.trans hnames.symm) hinner)
        (List.Subset.refl _) fun n hn hid => ?_
      -- the names of the layer are new
      obtain ⟨k, hk, heq⟩ := List.mem_map.mp hid
      have hnew := (Layer.mentions_sublist _).subset hk
      rw [← hG.nodes_eq] at hnew
      exact absurd (heq ▸ List.mem_map_of_mem hn) (G.not_mem_of_mem_nodes hnew)

/-- Opening formulas at the nodes of their variables. -/
theorem opening_openAll (m : Measures α) {as : List (Node α)} (spacing : α) :
    ∀ (ps : List Plan) (c : Canvas α), c.Flows b result → Ready c as →
      (as.map Node.id).Nodup → as.map Node.label = ps.map Plan.name → (∀ p ∈ ps, p.Grounded b) →
      Canvas.Opening b result (as.map Node.id) (Plan.exprsAll ps) c (openAll m as spacing ps c)
  | [], c, h, _, _, _, _ => by
    rw [openAll_nil]
    exact h.opening_refl _
  | p :: ps, c, h, has, hnodup, hlabels, hps => by
    cases as with
    | nil => cases hlabels
    | cons a as =>
      rw [List.map_cons, List.map_cons, List.cons.injEq] at hlabels
      rw [List.map_cons, List.nodup_cons] at hnodup
      rw [openAll_cons]
      have hfirst := opening_openAt m spacing p c h
        (fun k hk => has k (List.mem_singleton.mp hk ▸ List.mem_cons_self)) hlabels.1
        (hps p List.mem_cons_self)
      -- the other anchors are as they were
      have hready : Ready (openAt m a spacing p c) as := by
        intro k hk
        obtain ⟨hmem, hkind, hnone⟩ := has k (List.mem_cons_of_mem _ hk)
        refine ⟨hfirst.subset hmem, hkind, ?_⟩
        rw [hfirst.edgesInto_eq k hmem fun hid => ?_, hnone]
        exact hnodup.1 (List.mem_singleton.mp hid ▸ List.mem_map_of_mem hk)
      refine hfirst.trans (opening_openAll m spacing ps _ hfirst.flows hready hnodup.2 hlabels.2
        fun q hq => hps q (List.mem_cons_of_mem _ hq)) (fun id hid => ?_) fun n _ hid => ?_
      · rw [List.mem_singleton.mp hid]
        exact List.mem_cons_self
      · exact List.mem_cons_of_mem _ hid

end

/-! ## The drawing of a name -/

omit [Coordinate α] in
/-- The canvas with nothing but the result node flows into it. -/
theorem flows_firstCanvas (b : Book) (m : Measures α) (name : String) :
    (firstCanvas m name).Flows b (resultNode m name) := by
  have honly : ∀ n ∈ (firstCanvas m name).nodes, n = resultNode m name :=
    fun n hn => List.mem_singleton.mp hn
  have hother {k : NodeKind} (hk : k ≠ .result) :
      ∀ n ∈ (firstCanvas m name).nodes, n.kind ≠ k := by
    intro n hn heq
    rw [honly n hn] at heq
    exact hk heq.symm
  have hoperation := hother (k := .operation) (by decide)
  have hquantity := hother (k := .quantity) (by decide)
  refine ⟨Ids.tracks_nil.claimNode name, ⟨?_, ?_, ?_, ?_⟩, rfl, fun n hn _ => honly n hn, ?_, ?_⟩
  · exact fun n hn h => absurd h (hoperation n hn)
  · exact fun n hn h => absurd h (hoperation n hn)
  · exact fun n hn h => absurd h (hquantity n hn)
  · exact fun n hn h => absurd h (hquantity n hn)
  · intro n hn
    rw [honly n hn]
  · exact ⟨fun _ => 0, fun e he => absurd he List.not_mem_nil⟩

/-- The drawing of a formula with parts that the book gives: it flows into the result node, its
operators are those of the formulas drawn, and an edge leads from the result node exactly if the
formula mentions its own name and is more than a name. -/
theorem flows_drawFull (m : Measures α) (name : String) (e : Expr) {parts : List Plan}
    (hnames : parts.map Plan.name = e.vars.filter (· != name))
    (hparts : ∀ p ∈ parts, p.Grounded b) :
    let result := resultNode m name
    let c := drawFull m name result.id e parts (firstCanvas m name)
    c.Flows b result ∧
      c.graph.operations = (e :: Plan.exprsAll parts).flatMap Expr.operations ∧
      (c.graph.edgesFrom result.id ≠ [] ↔
        (∀ s, e ≠ .identifier s) ∧ name ∈ e.identifiers) := by
  intro result c
  have hfirst := flows_firstCanvas b m name
  obtain ⟨G, hG, hknown⟩ := Layer.exists_graft_full m name e
  have hsound := Canvas.sound_onto (l := Layer.full m name result.id e (firstCanvas m name))
    (hfirst.sound.tracks_fullWalk name List.mem_cons_self e)
  have hlayer := hfirst.graft G hG.isOf nofun (fun _ => rfl) hG.graph_eq hsound
  have hlabels := Layer.map_label_mentions_full m name result.id e (firstCanvas m name)
  have hopening := opening_openAll m (m.nodeSpacing * m.expansionFactor) parts _ hlayer
    (ready_mentions hG) (nodup_mentions hsound) (hlabels.trans hnames.symm) hparts
  rw [← drawFull_eq] at hopening
  have hmem : result ∈ ((Layer.full m name result.id e (firstCanvas m name)).onto
      (firstCanvas m name)).nodes := List.mem_append_left _ List.mem_cons_self
  refine ⟨hopening.flows, ?_, ?_⟩
  · rw [hopening.operations_eq, ← hG.graph_eq, G.operations_graph hG.isOf, List.flatMap_cons]
    rfl
  · rw [hopening.edgesFrom_eq result hmem, ← hG.graph_eq]
    exact G.edgesFrom_anchor_ne_nil_iff hG.isOf rfl hknown

/-- The names of a formula that does not parse have edges to the result node. -/
theorem leads_of_mem_drawFlat (m : Measures α) {result : Node α} (text : String)
    (names : List String) {c : Canvas α}
    (hc : ∃ rest, c.nodes = result :: rest ∧
      ∀ n ∈ rest, n.kind = .quantity ∧ c.graph.Leads n.id result.id) :
    ∃ rest, (drawFlat m result.id text names c).nodes = result :: rest ∧
      ∀ n ∈ rest, n.kind = .quantity ∧
        (drawFlat m result.id text names c).graph.Leads n.id result.id := by
  rw [drawFlat]
  generalize names.zipIdx = entries, names.length = count
  induction entries generalizing c with
  | nil => exact hc
  | cons entry entries ih =>
    rw [List.foldl_cons]
    obtain ⟨rest, hnodes, hrest⟩ := hc
    let node : Node α := ⟨(c.ids.claimNode entry.1).1, entry.1, .quantity,
      rowX m.centerX m.nodeSpacing entry.2 count, rowY m.rootY m.levelHeight flatRow⟩
    refine ih ⟨rest ++ [node], ?_, fun n hn => ?_⟩
    · change c.nodes ++ [node] = _
      rw [hnodes, List.cons_append]
    · rcases List.mem_append.mp hn with hn | hn
      · obtain ⟨hkind, edge, hedge, hends⟩ := hrest n hn
        exact ⟨hkind, edge, List.mem_append_left _ hedge, hends⟩
      · rw [List.mem_singleton.mp hn]
        exact ⟨rfl, _, List.mem_append_right _ List.mem_cons_self, rfl, rfl⟩

end Layout

/-- The node is the first of the graph and its only result node, and everything leads to it. -/
structure Graph.DrainsInto {α : Type} (g : Graph α) (result : Node α) : Prop where
  head_eq : g.nodes.head? = some result
  results_eq : g.nodes.filter (·.kind = .result) = [result]
  reaches : ∀ n ∈ g.nodes, ReflTransGen g.Leads n.id result.id

/-- A graph drains into a first node that is its only result node and to which all others lead. -/
theorem Graph.drainsInto_of_cons {α : Type} {g : Graph α} {result : Node α} {rest : List (Node α)}
    (hnodes : g.nodes = result :: rest) (hkind : result.kind = .result)
    (hrest : ∀ n ∈ rest, n.kind ≠ .result)
    (hreaches : ∀ n ∈ rest, ReflTransGen g.Leads n.id result.id) : g.DrainsInto result where
  head_eq := by rw [hnodes, List.head?_cons]
  results_eq := by
    rw [hnodes, List.filter_cons, if_pos (decide_eq_true hkind),
      List.filter_eq_nil_iff.mpr fun n hn => by simpa using hrest n hn]
  reaches n hn := by
    rw [hnodes] at hn
    rcases List.mem_cons.mp hn with rfl | hn
    · exact .refl
    · exact hreaches n hn

/-- The operators of a tree take two operands or, if they are signs, one. -/
theorem Expr.mem_operations {e : Expr} {x : String × Nat} (h : x ∈ e.operations) :
    (∃ op : BinaryOp, x = (op.label, 2)) ∨ ∃ sign : Sign, x = (sign.label, 1) := by
  induction e with
  | number x => exact absurd h List.not_mem_nil
  | identifier name => exact absurd h List.not_mem_nil
  | binary op left right ihl ihr =>
    rcases List.mem_cons.mp h with rfl | h
    · exact .inl ⟨op, rfl⟩
    · exact (List.mem_append.mp h).elim ihl ihr
  | signed sign operand ih =>
    rcases List.mem_cons.mp h with rfl | h
    · exact .inr ⟨sign, rfl⟩
    · exact ih h

/-- The operators of a graph have the edges of the trees they come from. -/
theorem Graph.length_edgesInto {α : Type} {g : Graph α} {es : List Expr}
    (h : g.operations = es.flatMap Expr.operations) {n : Node α} (hn : n ∈ g.nodes)
    (hkind : n.kind = .operation) :
    (∃ op : BinaryOp, n.label = op.label ∧ (g.edgesInto n.id).length = 2) ∨
      ∃ sign : Sign, n.label = sign.label ∧ (g.edgesInto n.id).length = 1 := by
  have hmem : (n.label, (g.edgesInto n.id).length) ∈ g.operations :=
    List.mem_map_of_mem (f := fun n => (n.label, (g.edgesInto n.id).length))
      (List.mem_filter.mpr ⟨hn, decide_eq_true hkind⟩)
  rw [h] at hmem
  obtain ⟨e, -, hmem⟩ := List.mem_flatMap.mp hmem
  refine (Expr.mem_operations hmem).imp ?_ ?_
  · rintro ⟨op, heq⟩
    exact ⟨op, Prod.mk.inj heq⟩
  · rintro ⟨sign, heq⟩
    exact ⟨sign, Prod.mk.inj heq⟩

namespace Canvas

variable {α : Type} {b : Book} {result : Node α} {c : Canvas α}

/-- A canvas that flows into the result node drains into it if the node is the first. -/
theorem Flows.drainsInto (h : c.Flows b result) {rest : List (Node α)}
    (hnodes : c.nodes = result :: rest) : c.graph.DrainsInto result := by
  refine Graph.drainsInto_of_cons hnodes h.result_kind (fun n hn hkind => ?_) fun n hn => ?_
  · obtain rfl := h.eq_result n (hnodes ▸ List.mem_cons_of_mem _ hn) hkind
    have hnodup := h.sound.nodup_nodes
    rw [hnodes, List.map_cons, List.nodup_cons] at hnodup
    exact hnodup.1 (List.mem_map_of_mem hn)
  · exact h.reaches n (hnodes ▸ List.mem_cons_of_mem _ hn)

/-- Cycles go through the result node, and there is one if an edge leads from that node. -/
theorem Flows.cycles (h : c.Flows b result) :
    ((∃ l, c.graph.IsCycle l) ↔ c.graph.edgesFrom result.id ≠ []) ∧
      ∀ l, c.graph.IsCycle l → result.id ∈ l := by
  obtain ⟨rank, hfalls⟩ := h.falls
  refine ⟨hfalls.exists_isCycle_iff fun e he => ?_, fun l hl => hfalls.mem_of_isCycle hl⟩
  obtain ⟨n, hn, htarget⟩ := List.mem_map.mp (h.sound.joins e he).2.1
  exact htarget ▸ h.reaches n hn

end Canvas

namespace Layout

variable {α : Type} [Coordinate α]

/-- A formula that parses is drawn with a part for each of its variables but its own name. -/
theorem scheme_of_parse {b : Book} (maxDepth : Int) (selected : List String) {name text : String}
    {e : Expr} (htext : b.formula? name = some text) (hparse : Expr.parse text = .ok e) :
    ∃ parts, Scheme.of b maxDepth selected name = .full text e parts ∧
      parts.map Plan.name = e.vars.filter (· != name) ∧ ∀ p ∈ parts, p.Grounded b := by
  let part (v : String) : Plan :=
    if selected.contains v then .grow b maxDepth [name] 1 v else .closed v .unselected
  refine ⟨(e.vars.filter (· != name)).map part, ?_, ?_, fun p hp => ?_⟩
  · simp only [Scheme.of, htext, hparse, part]
  · rw [List.map_map]
    refine List.map_id'' (fun v => ?_) _
    change (part v).name = v
    unfold part
    split
    · exact Plan.name_grow ..
    · rfl
  · obtain ⟨v, -, rfl⟩ := List.mem_map.mp hp
    unfold part
    split
    · exact Plan.grounded_grow ..
    · exact .closed _ _

/-- The names of a formula that does not parse drain into the result node. -/
theorem drainsInto_draw_flat (m : Measures α) (name text : String) (names : List String) :
    (draw m name (.flat text names)).DrainsInto (resultNode m name) := by
  obtain ⟨rest, hnodes, hrest⟩ := leads_of_mem_drawFlat m text names
    (c := firstCanvas m name) ⟨[], rfl, nofun⟩
  refine Graph.drainsInto_of_cons hnodes rfl (fun n hn => ?_) fun n hn => .single (hrest n hn).2
  rw [(hrest n hn).1]
  exact nofun

/-- Everything drawn flows into the result. In a graph with nodes the first is the only result node
and everything leads to it. If the formula parses, the graph is wired, its operators are those of
the formulas drawn and have as many edges in as they take operands, and there is a cycle exactly if
the formula mentions its own name and is more than a name; every cycle goes through the result
node. -/
theorem flows_of (b : Book) (m : Measures α) (selected : List String) (name : String)
    (h : (of b m selected name).nodes ≠ []) :
    let g := of b m selected name
    ∃ result, result.label = name ∧ g.DrainsInto result ∧
      ∀ text e, b.formula? name = some text → Expr.parse text = .ok e →
        g.Wired b ∧
        g.operations =
          (Scheme.of b m.maxExpansionDepth selected name).exprs.flatMap Expr.operations ∧
        (∀ n ∈ g.nodes, n.kind = .operation →
          (∃ op : BinaryOp, n.label = op.label ∧ (g.edgesInto n.id).length = 2) ∨
            ∃ sign : Sign, n.label = sign.label ∧ (g.edgesInto n.id).length = 1) ∧
        ((∃ c, g.IsCycle c) ↔ (∀ s, e ≠ .identifier s) ∧ name ∈ e.identifiers) ∧
        ∀ c, g.IsCycle c → result.id ∈ c := by
  refine ⟨resultNode m name, rfl, ?_⟩
  cases htext : b.formula? name with
  | none =>
    have hblank : Scheme.of b m.maxExpansionDepth selected name = .blank := by
      simp only [Scheme.of, htext]
    rw [of, hblank] at h
    exact absurd rfl h
  | some text =>
    cases hparse : Expr.parse text with
    | error reason =>
      have hflat : Scheme.of b m.maxExpansionDepth selected name =
          .flat text (Analysis.of text).vars := by
        simp only [Scheme.of, htext, hparse]
      rw [of, hflat]
      refine ⟨drainsInto_draw_flat m name text _, fun text' e htext' he => ?_⟩
      rw [← Option.some.inj htext', hparse] at he
      cases he
    | ok e =>
      obtain ⟨parts, hfull, hnames, hparts⟩ :=
        scheme_of_parse m.maxExpansionDepth selected htext hparse
      obtain ⟨hflows, hoperations, hfrom⟩ := flows_drawFull m name e hnames hparts
      obtain ⟨hcycle, hthrough⟩ := hflows.cycles
      rw [of, hfull]
      refine ⟨hflows.drainsInto (nodes_draw_full m name text e parts), fun text' e' htext' he => ?_⟩
      rw [← Option.some.inj htext', hparse] at he
      obtain rfl := Except.ok.inj he
      exact ⟨hflows.wired, hoperations, fun n hn => Graph.length_edgesInto hoperations hn,
        hcycle.trans hfrom, hthrough⟩

/-- Two formulas that mention each other, the second opened: the name `r` in it is a node of its
own, so all cycles come from the `r` in the first and go through the result node. -/
theorem flows_of_mutual :
    let b := Book.ofList [("r", "a * r"), ("a", "-r")]
    let g := of b Measures.standard ["a"] "r"
    ∃ result, g.DrainsInto result ∧ g.Wired b ∧ g.operations = [("×", 2), ("−", 1)] ∧
      (∃ c, g.IsCycle c) ∧ ∀ c, g.IsCycle c → result.id ∈ c := by
  intro b g
  have htext : b.formula? "r" = some "a * r" := by decide +kernel
  have hparse : Expr.parse "a * r" =
      .ok (.binary .multiply (.identifier "a") (.identifier "r")) := by decide +kernel
  have hexprs : (Scheme.of b Measures.standard.maxExpansionDepth ["a"] "r").exprs.flatMap
      Expr.operations = [("×", 2), ("−", 1)] := by decide +kernel
  obtain ⟨result, -, hdrains, hrest⟩ :=
    flows_of b Measures.standard ["a"] "r" (by decide +kernel)
  obtain ⟨hwired, hoperations, -, hcycle, hthrough⟩ := hrest _ _ htext hparse
  exact ⟨result, hdrains, hwired, hoperations.trans hexprs,
    hcycle.mpr ⟨nofun, by decide +kernel⟩, hthrough⟩

end Layout

end FormulaBook
