import FormulaBook.Proofs.Layers

/-!
# Drawings are well formed

In the graph of every name, nodes and edges are told apart by their ids and every edge joins two
different nodes of the graph (`Layout.wellFormed_of`): for every book, whatever is selected and
however deep what is opened nests, and also for a formula that does not parse. The invariant is
that the ids given are those of what is on the canvas (`Canvas.Sound`); the walk through a formula
keeps track of them (`Canvas.Sound.tracks_openedWalk`, `Canvas.Sound.tracks_fullWalk`), and so does
a name drawn for a formula that does not parse (`Layout.sound_drawName`).
-/

namespace FormulaBook

/-- Nodes and edges have ids of their own, and every edge joins two different nodes. -/
structure Graph.WellFormed {α : Type} (g : Graph α) : Prop where
  nodup_nodes : (g.nodes.map Node.id).Nodup
  nodup_edges : (g.edges.map Edge.id).Nodup
  ends_mem : ∀ e ∈ g.edges, e.source ∈ g.nodes.map Node.id ∧ e.target ∈ g.nodes.map Node.id
  orphanEdges_eq_nil : g.orphanEdges = []
  source_ne_target : ∀ e ∈ g.edges, e.source ≠ e.target

namespace Canvas

variable {α : Type} {c : Canvas α}

/-- The ids given are those of what is on the canvas. -/
def Sound (c : Canvas α) : Prop := c.ids.Tracks (c.nodes.map Node.id) c.edges

/-- What is on a sound canvas is a graph without faults. -/
theorem Sound.wellFormed (h : c.Sound) : (⟨c.nodes, c.edges⟩ : Graph α).WellFormed where
  nodup_nodes := h.nodup_nodes
  nodup_edges := h.nodup_edges
  ends_mem e he := ⟨(h.joins e he).1, (h.joins e he).2.1⟩
  orphanEdges_eq_nil := by
    rw [Graph.orphanEdges, List.filter_eq_nil_iff]
    intro e he
    obtain ⟨hs, ht, -⟩ := h.joins e he
    obtain ⟨s, hs, hsid⟩ := List.mem_map.mp hs
    obtain ⟨t, ht, htid⟩ := List.mem_map.mp ht
    have hsource : (⟨c.nodes, c.edges⟩ : Graph α).hasNode e.source = true :=
      List.any_eq_true.mpr ⟨s, hs, beq_iff_eq.mpr hsid⟩
    have htarget : (⟨c.nodes, c.edges⟩ : Graph α).hasNode e.target = true :=
      List.any_eq_true.mpr ⟨t, ht, beq_iff_eq.mpr htid⟩
    simp [hsource, htarget]
  source_ne_target e he := (h.joins e he).2.2

/-- A walk that starts on a sound canvas keeps track of the ids. -/
theorem Sound.tracks_of_arrives (h : c.Sound) {anchor : Option String}
    {leaves : List (Leaf × String)} {out : String × Walk}
    (harr : Walk.Arrives anchor (.start c.ids leaves c.edges) out) :
    out.2.ids.Tracks (c.nodes.map Node.id ++ out.2.placed.map Placed.id) out.2.edges := by
  refine harr.steps.tracks ?_
  rw [Walk.start, List.map_nil, List.append_nil]
  exact h

/-- A formula opened at a node of the canvas keeps track of the ids. No leaf is known when its walk
begins, so its root is a new node. -/
theorem Sound.tracks_openedWalk (h : c.Sound) {anchor : String}
    (ha : anchor ∈ c.nodes.map Node.id) (e : Expr) :
    (Layer.openedWalk anchor e c).ids.Tracks
      (c.nodes.map Node.id ++ (Layer.openedWalk anchor e c).placed.map Placed.id)
      (Layer.openedWalk anchor e c).edges := by
  have hl : (Walk.start c.ids [] c.edges).LeavesDrawn := fun p hp => nomatch hp
  have harr := Walk.arrives_through (some anchor) e 1 _ hl
  have htr := h.tracks_of_arrives harr
  have hne : (Walk.through (some anchor) e 1 (.start c.ids [] c.edges)).1 ≠ anchor := by
    intro heq
    rcases harr.old_or_new with ⟨p, hp, -⟩ | hnew
    · exact nomatch hp
    · rw [heq] at hnew
      exact hnew ((h.mem_nodes _).mpr ha)
  exact htr.claimEdge _ ((htr.mem_nodes _).mp harr.mem_nodes) (List.mem_append_left _ ha) hne _ _

/-- The formula drawn keeps track of the ids. Its root may be the result node itself, and then no
edge is drawn between them. -/
theorem Sound.tracks_fullWalk (h : c.Sound) (name : String) {result : String}
    (hr : result ∈ c.nodes.map Node.id) (e : Expr) :
    (Layer.fullWalk name result e c).ids.Tracks
      (c.nodes.map Node.id ++ (Layer.fullWalk name result e c).placed.map Placed.id)
      (Layer.fullWalk name result e c).edges := by
  have hl : (Walk.start c.ids [(.name name, result)] c.edges).LeavesDrawn := by
    intro p hp
    rw [List.mem_singleton.mp hp]
    exact (h.mem_nodes _).mpr hr
  have harr := Walk.arrives_through none e 1 _ hl
  have htr := h.tracks_of_arrives harr
  unfold Layer.fullWalk
  dsimp only
  split
  · exact htr
  · rename_i hne
    exact htr.claimEdge _ ((htr.mem_nodes _).mp harr.mem_nodes) (List.mem_append_left _ hr) hne _ _

/-- A layer whose walk keeps track of the ids keeps the canvas sound. -/
theorem sound_onto {l : Layer α}
    (htracks : l.walk.ids.Tracks (c.nodes.map Node.id ++ l.walk.placed.map Placed.id)
      l.walk.edges) : (l.onto c).Sound := by
  rw [Sound, Layer.onto, List.map_append, Layout.map_id_of_shows l.shows]
  exact htracks

end Canvas

namespace Layout

variable {α : Type} [Coordinate α]

mutual

/-- Opening a formula at a node of a sound canvas keeps it sound, however deep it nests. -/
theorem sound_openAt (m : Measures α) (anchor : Node α) (spacing : α) :
    ∀ (p : Plan) (c : Canvas α), c.Sound → anchor ∈ c.nodes →
      (openAt m anchor spacing p c).Sound
  | .closed name reason, c, h, _ => by rwa [openAt_closed]
  | .opened name text e inner, c, h, ha => by
    rw [openAt_opened]
    have hlayer := Canvas.sound_onto (l := Layer.opened m anchor spacing e c)
      (h.tracks_openedWalk (List.mem_map_of_mem ha) e)
    refine sound_openAll m _ _ inner _ hlayer ?_
    exact fun a ha => List.mem_append_right _ ((Layer.mentions_sublist _).subset ha)

/-- Opening formulas at nodes of a sound canvas keeps it sound. -/
theorem sound_openAll (m : Measures α) (as : List (Node α)) (spacing : α) :
    ∀ (ps : List Plan) (c : Canvas α), c.Sound → (∀ a ∈ as, a ∈ c.nodes) →
      (openAll m as spacing ps c).Sound
  | [], c, h, _ => by rwa [openAll_nil]
  | p :: ps, c, h, has => by
    cases as with
    | nil => rwa [openAll_no_anchors]
    | cons a as =>
      rw [openAll_cons]
      refine sound_openAll m as spacing ps _
        (sound_openAt m a spacing p c h (has a List.mem_cons_self)) fun b hb => ?_
      rw [nodes_openAt m [] a spacing p c]
      exact List.mem_append_left _ (has b (List.mem_cons_of_mem _ hb))

end

/-- A formula drawn below a result node of a sound canvas keeps it sound. -/
theorem sound_drawFull (m : Measures α) (name : String) {result : String} (e : Expr)
    (parts : List Plan) {c : Canvas α} (h : c.Sound) (hr : result ∈ c.nodes.map Node.id) :
    (drawFull m name result e parts c).Sound := by
  rw [drawFull_eq]
  have hlayer := Canvas.sound_onto (l := Layer.full m name result e c)
    (h.tracks_fullWalk name hr e)
  refine sound_openAll m _ _ parts _ hlayer fun a ha => ?_
  exact List.mem_append_right _ ((Layer.mentions_sublist _).subset ha)

/-- A name of a formula that does not parse keeps the canvas sound. -/
theorem sound_drawName (m : Measures α) {result : String} (operation : String) (count : Nat)
    {c : Canvas α} (name : String) (index : Nat) (h : c.Sound)
    (hr : result ∈ c.nodes.map Node.id) :
    (drawName m result operation count c name index).Sound := by
  have hnode := Ids.Tracks.claimNode h name
  have hne : (c.ids.claimNode name).1 ≠ result :=
    fun heq => Ids.claimNode_not_mem c.ids name (heq ▸ (h.mem_nodes _).mpr hr)
  rw [Canvas.Sound, drawName, List.map_append]
  exact hnode.claimEdge _ (List.mem_append_right _ List.mem_cons_self) (List.mem_append_left _ hr)
    hne _ _

/-- Drawing names around the result node keeps the canvas sound. -/
theorem sound_drawFlat (m : Measures α) {result : String} (text : String) (names : List String)
    {c : Canvas α} (h : c.Sound) (hr : result ∈ c.nodes.map Node.id) :
    (drawFlat m result text names c).Sound := by
  rw [drawFlat]
  generalize names.zipIdx = entries
  induction entries generalizing c with
  | nil => exact h
  | cons entry entries ih =>
    rw [List.foldl_cons]
    refine ih (sound_drawName m _ _ _ _ h hr) ?_
    rw [drawName, List.map_append]
    exact List.mem_append_left _ hr

/-- Every drawing is well formed. -/
theorem wellFormed_of (b : Book) (m : Measures α) (selected : List String) (name : String) :
    (of b m selected name).WellFormed := by
  have hc : (firstCanvas m name).Sound := Ids.tracks_nil.claimNode name
  rw [of]
  cases Scheme.of b m.maxExpansionDepth selected name with
  | blank =>
    rw [draw]
    exact Canvas.Sound.wellFormed (c := ⟨{}, [], []⟩) Ids.tracks_nil
  | flat text names =>
    rw [draw]
    exact (sound_drawFlat m text names hc List.mem_cons_self).wellFormed
  | full text e parts =>
    rw [draw]
    exact (sound_drawFull m name e parts hc List.mem_cons_self).wellFormed

/-- The variable `b_c` below `a` and the variable `c` below `a_b` ask for the same id. -/
example :
    (of ⟨[("r", "a + a_b"), ("a", "b_c"), ("a_b", "c")], by decide⟩ Measures.standard
      ["a", "a_b"] "r").nodes.map Node.id =
      ["r", "op_0", "a", "a_b", "a_b_c", "a_b_c_1"] := by
  decide +kernel

end Layout

end FormulaBook
