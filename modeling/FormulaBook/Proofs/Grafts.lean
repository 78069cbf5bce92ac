import FormulaBook.Proofs.Readback
import FormulaBook.Proofs.Sketches
import Mathlib.Data.List.Chain

/-!
# Grafting a sketch onto a graph

A graph is drawn by grafting: the nodes and edges of a sketch come behind what is there, and its
root is linked to a node that was there, the anchor (`Graph.Graft`). The ids of the sketch are new,
but for the name of the result node, which may be one of its leaves. So every degree is seen on the
old graph or on the sketch alone. What a graft keeps is that operators have one edge out and only
`input` edges in, that variables have an edge out and at most one in, which comes from the root of
their own formula (`Graph.Wired`, `Graph.Graft.wired`), that everything leads to the anchor
(`Graph.Graft.leads_anchor`), and that the nodes can be numbered so that every edge but those of
the result node leads to a smaller number (`Graph.Graft.exists_falls`).
-/

namespace FormulaBook

open Relation (ReflTransGen)

/-- The sources of the edges to a node, read off the ends. -/
theorem Edge.map_source_filter (es : List Edge) (id : String) :
    (es.filter (·.target = id)).map Edge.source =
      ((es.map Edge.ends).filter (·.2 = id)).map Prod.fst := by
  rw [List.filter_map, List.map_map]
  rfl

namespace Graph

variable {α : Type} {g g' : Graph α}

/-! ## Degrees, paths and cycles -/

/-- The edges from a node. -/
def edgesFrom (g : Graph α) (id : String) : List Edge := g.edges.filter (·.source = id)

/-- The edges into a node. -/
def edgesInto (g : Graph α) (id : String) : List Edge := g.edges.filter (·.target = id)

/-- The labels of the operators, each with the number of the edges into it. -/
def operations (g : Graph α) : List (String × Nat) :=
  (g.nodes.filter (·.kind = .operation)).map fun n => (n.label, (g.edgesInto n.id).length)

/-- An edge leads from the first node to the second. -/
def Leads (g : Graph α) (a b : String) : Prop := ∃ e ∈ g.edges, e.source = a ∧ e.target = b

/-- The edges lead around through these nodes, from the last one back to the first. -/
def IsCycle (g : Graph α) : List String → Prop
  | [] => False
  | id :: ids => List.IsChain g.Leads (id :: ids ++ [id])

/-- Every edge leads to a smaller number, unless it comes from the result node. -/
def Falls (g : Graph α) (result : String) (rank : String → Nat) : Prop :=
  ∀ e ∈ g.edges, e.source ≠ result → rank e.target < rank e.source

/-- A node of a chain that is not the last one has one behind it. -/
theorem exists_of_isChain {R : String → String → Prop} {l : List String} {a z : String}
    (h : List.IsChain R (l ++ [z])) (ha : a ∈ l) : ∃ b, R a b := by
  obtain ⟨before, after, rfl⟩ := List.append_of_mem ha
  rw [List.append_assoc] at h
  have hrest := h.right_of_append
  cases after with
  | nil => exact ⟨z, (List.isChain_cons_cons.mp hrest).1⟩
  | cons b after => exact ⟨b, (List.isChain_cons_cons.mp hrest).1⟩

section

variable {result : String} {rank : String → Nat}

/-- A cycle goes through the result node if all other edges lead to smaller numbers. -/
theorem Falls.mem_of_isCycle (h : g.Falls result rank) {c : List String} (hc : g.IsCycle c) :
    result ∈ c := by
  cases c with
  | nil => exact hc.elim
  | cons id ids =>
    by_contra hout
    have hfalls : List.IsChain (fun a b => rank b < rank a) (id :: ids ++ [id]) := by
      refine hc.imp_of_mem_imp fun a b ha _ hab => ?_
      obtain ⟨e, he, rfl, rfl⟩ := hab
      refine h e he fun heq => hout (heq ▸ ?_)
      rw [List.mem_append, List.mem_singleton] at ha
      exact ha.elim (fun h => h) fun h => h ▸ List.mem_cons_self
    have : IsTrans String fun a b => rank b < rank a := ⟨fun _ _ _ h h' => Nat.lt_trans h' h⟩
    have hsorted := List.isChain_iff_pairwise.mp hfalls
    rw [List.cons_append] at hsorted
    exact Nat.lt_irrefl _ (List.rel_of_pairwise_cons hsorted
      (List.mem_append_right _ List.mem_cons_self))

/-- If everything leads to the result node, there is a cycle exactly if an edge leads from the
result node. -/
theorem Falls.exists_isCycle_iff (h : g.Falls result rank)
    (hreach : ∀ e ∈ g.edges, ReflTransGen g.Leads e.target result) :
    (∃ c, g.IsCycle c) ↔ g.edgesFrom result ≠ [] := by
  constructor
  · rintro ⟨c, hc⟩
    have hmem := h.mem_of_isCycle hc
    cases c with
    | nil => exact hc.elim
    | cons id ids =>
      obtain ⟨b, e, he, hsource, -⟩ := exists_of_isChain hc hmem
      exact List.ne_nil_of_mem (List.mem_filter.mpr ⟨he, decide_eq_true hsource⟩)
  · intro hne
    obtain ⟨e, hfrom⟩ := List.exists_mem_of_ne_nil _ hne
    obtain ⟨he, hsource⟩ := List.mem_filter.mp hfrom
    obtain rfl := of_decide_eq_true hsource
    obtain ⟨l, hl, hlast⟩ := List.exists_isChain_cons_of_relationReflTransGen (hreach e he)
    have hcycle : List.IsChain g.Leads (e.source :: e.target :: l) :=
      List.isChain_cons_cons.mpr ⟨⟨e, he, rfl, rfl⟩, hl⟩
    have hsplit : (e.target :: l).dropLast ++ [e.source] = e.target :: l := by
      rw [← hlast, List.dropLast_append_getLast]
    refine ⟨e.source :: (e.target :: l).dropLast, ?_⟩
    rwa [IsCycle, List.cons_append, hsplit]

end

/-! ## Trees drawn -/

/-- The node with this id is no operator and shows the text. -/
def HasLeaf (g : Graph α) (id text : String) : Prop :=
  ∃ n ∈ g.nodes, n.id = id ∧ n.kind ≠ .operation ∧ n.label = text

/-- The operands of an operator are the sources of the edges into it, if these are all of the kind
`input`. -/
theorem operandsOf_eq {id : String} (h : ∀ e ∈ g.edgesInto id, e.kind = .input) :
    Edge.operandsOf g.edges id = (g.edgesInto id).map Edge.source := by
  rw [Edge.operandsOf, edgesInto]
  congr 1
  refine List.filter_congr fun e he => ?_
  by_cases htarget : e.target = id
  · have hkind := h e (List.mem_filter.mpr ⟨he, decide_eq_true htarget⟩)
    simp [htarget, hkind]
  · simp [htarget]

/-- The tree is drawn with its root at the node with this id. -/
inductive Depicts (g : Graph α) : String → Expr → Prop
  | number {id x} : g.HasLeaf id x.plain → Depicts g id (.number x)
  | identifier {id s} : g.HasLeaf id s → Depicts g id (.identifier s)
  | binary {id op l r left right} : g.ReadsOperator id op.label [l, r] → Depicts g l left →
      Depicts g r right → Depicts g id (.binary op left right)
  | signed {id sign o operand} : g.ReadsOperator id sign.label [o] → Depicts g o operand →
      Depicts g id (.signed sign operand)

/-- A sketch whose nodes and operands a graph has is drawn in it. -/
theorem depicts_of_isOf {s : Sketch} {e : Expr} (h : s.IsOf e)
    (hleaves : ∀ x ∈ s.leaves, g.HasLeaf x.2 x.1.text)
    (hoperators : ∀ o ∈ s.operators, g.ReadsOperator o.id o.label o.operands) :
    g.Depicts s.root e := by
  induction h with
  | number id x => exact .number (hleaves _ List.mem_cons_self)
  | identifier id name => exact .identifier (hleaves _ List.mem_cons_self)
  | binary id op _ _ ihl ihr =>
    simp only [Sketch.leaves, Sketch.operators, List.mem_append, List.mem_cons, or_imp,
      forall_and, forall_eq] at hleaves hoperators
    exact .binary hoperators.1 (ihl hleaves.1 hoperators.2.1) (ihr hleaves.2 hoperators.2.2)
  | signed id sign _ ih =>
    simp only [Sketch.operators, List.mem_cons, or_imp, forall_and, forall_eq] at hoperators
    exact .signed hoperators.1 (ih hleaves hoperators.2)

/-- What is drawn stays drawn when nodes come and operators keep their operands. -/
theorem Depicts.mono {id : String} {e : Expr} (h : g.Depicts id e) (hnodes : g.nodes ⊆ g'.nodes)
    (hoperands : ∀ n ∈ g.nodes, n.kind = .operation →
      Edge.operandsOf g'.edges n.id = Edge.operandsOf g.edges n.id) : g'.Depicts id e := by
  have hleaf {id text : String} (h : g.HasLeaf id text) : g'.HasLeaf id text := by
    obtain ⟨n, hn, hid⟩ := h
    exact ⟨n, hnodes hn, hid⟩
  have hoperator {id label : String} {os : List String} (h : g.ReadsOperator id label os) :
      g'.ReadsOperator id label os := by
    obtain ⟨⟨n, hn, rfl, hkind, hlabel⟩, hos⟩ := h
    exact ⟨⟨n, hnodes hn, rfl, hkind, hlabel⟩, (hoperands n hn hkind).trans hos⟩
  induction h with
  | number hl => exact .number (hleaf hl)
  | identifier hl => exact .identifier (hleaf hl)
  | binary ho _ _ ihl ihr => exact .binary (hoperator ho) ihl ihr
  | signed ho _ ih => exact .signed (hoperator ho) ih

/-! ## Wired graphs -/

/-- The one edge into a node comes from the root of the formula that its label has in the book. -/
def OpenedAt (b : Book) (g : Graph α) (n : Node α) : Prop :=
  ∃ edge text e, g.edgesInto n.id = [edge] ∧ edge.kind = .output ∧
    b.formula? n.label = some text ∧ Expr.parse text = .ok e ∧ g.Depicts edge.source e

/-- Operators have one edge out and only operands in. Variables have an edge out, and they have no
edge in or are opened. -/
structure Wired (b : Book) (g : Graph α) : Prop where
  operation_from : ∀ n ∈ g.nodes, n.kind = .operation → (g.edgesFrom n.id).length = 1
  operation_into : ∀ n ∈ g.nodes, n.kind = .operation → ∀ e ∈ g.edgesInto n.id, e.kind = .input
  quantity_from : ∀ n ∈ g.nodes, n.kind = .quantity → g.edgesFrom n.id ≠ []
  quantity_into : ∀ n ∈ g.nodes, n.kind = .quantity → g.edgesInto n.id = [] ∨ g.OpenedAt b n

/-- Edges join nodes of the graph. -/
def Joined (g : Graph α) : Prop :=
  ∀ e ∈ g.edges, e.source ∈ g.nodes.map Node.id ∧ e.target ∈ g.nodes.map Node.id

/-! ## Grafts -/

/-- A sketch that is grafted onto a graph at one of its nodes. Its nodes and edges are new; only the
result node may be one of its leaves, under its label. The root is linked to the anchor unless it
is the anchor. -/
structure Graft (g : Graph α) (anchor : Node α) where
  sketch : Sketch
  nodes : List (Node α)
  edges : List Edge
  link : List Edge
  anchor_mem : anchor ∈ g.nodes
  anchor_kind : anchor.kind ≠ .operation
  joined : g.Joined
  nodup : ((g.nodes ++ nodes).map Node.id).Nodup
  operators_eq : ((nodes.filter (·.kind = .operation)).map fun n => (n.id, n.label)) =
    sketch.operators.map fun o => (o.id, o.label)
  node_cases : ∀ n ∈ nodes, n.kind = .operation ∨ n.kind = .quantity ∧ n.id ∈ sketch.leafIds
  leaf_cases : ∀ x ∈ sketch.leaves,
    (∃ n ∈ nodes, n.kind = .quantity ∧ n.id = x.2 ∧ n.label = x.1.text) ∨
      anchor.kind = .result ∧ x = (.name anchor.label, anchor.id)
  ends_eq : edges.map Edge.ends = sketch.edges
  kind_edges : ∀ e ∈ edges, e.kind = .input
  ends_link : link.map Edge.ends =
    if sketch.root = anchor.id then [] else [(sketch.root, anchor.id)]
  kind_link : ∀ e ∈ link, e.kind = .output

namespace Graft

variable {anchor : Node α} (G : g.Graft anchor)

/-- The graph with the graft on it. -/
def graph : Graph α := ⟨g.nodes ++ G.nodes, g.edges ++ (G.edges ++ G.link)⟩

/-! ### Ids -/

/-- The nodes of a graft have new ids. -/
theorem not_mem_of_mem_nodes {n : Node α} (hn : n ∈ G.nodes) : n.id ∉ g.nodes.map Node.id := by
  have hnodup := G.nodup
  rw [List.map_append, List.nodup_append] at hnodup
  exact fun hid => hnodup.2.2 _ hid _ (List.mem_map_of_mem hn) rfl

/-- No two nodes of a graft have the same id. -/
theorem eq_of_mem_nodes {n k : Node α} (hn : n ∈ G.nodes) (hk : k ∈ G.nodes) (h : n.id = k.id) :
    n = k :=
  List.inj_on_of_nodup_map G.nodup (List.mem_append_right _ hn) (List.mem_append_right _ hk) h

/-- An operator of the sketch has a new node. -/
theorem exists_node {o : Sketch.Operator} (ho : o ∈ G.sketch.operators) :
    ∃ n ∈ G.nodes, n.id = o.id ∧ n.kind = .operation ∧ n.label = o.label := by
  have hmem := List.mem_map_of_mem (f := fun o => (o.id, o.label)) ho
  rw [← G.operators_eq] at hmem
  obtain ⟨n, hn, heq⟩ := List.mem_map.mp hmem
  obtain ⟨hn, hkind⟩ := List.mem_filter.mp hn
  exact ⟨n, hn, (Prod.mk.inj heq).1, of_decide_eq_true hkind, (Prod.mk.inj heq).2⟩

/-- The ids of the operators in the sketch are those of operator nodes. -/
theorem exists_node_of_mem_operatorIds {id : String} (h : id ∈ G.sketch.operatorIds) :
    ∃ n ∈ G.nodes, n.id = id ∧ n.kind = .operation := by
  obtain ⟨o, ho, rfl⟩ := List.mem_map.mp h
  obtain ⟨n, hn, hid, hkind, -⟩ := G.exists_node ho
  exact ⟨n, hn, hid, hkind⟩

/-- The operators of the sketch are the operator nodes, in the same order. -/
theorem operatorIds_eq :
    G.sketch.operatorIds = (G.nodes.filter (·.kind = .operation)).map Node.id := by
  have hfst := congrArg (List.map Prod.fst) G.operators_eq
  rw [List.map_map, List.map_map] at hfst
  exact hfst.symm

/-- An operator node of the graft is an operator of the sketch. -/
theorem mem_operatorIds {n : Node α} (hn : n ∈ G.nodes) (hkind : n.kind = .operation) :
    n.id ∈ G.sketch.operatorIds := by
  rw [G.operatorIds_eq]
  exact List.mem_map_of_mem (List.mem_filter.mpr ⟨hn, decide_eq_true hkind⟩)

/-- The ids of operators are new. -/
theorem not_mem_of_mem_operatorIds {id : String} (h : id ∈ G.sketch.operatorIds) :
    id ∉ g.nodes.map Node.id := by
  obtain ⟨n, hn, rfl, -⟩ := G.exists_node_of_mem_operatorIds h
  exact G.not_mem_of_mem_nodes hn

/-- A leaf has a new node, or it is the result node. -/
theorem mem_leafIds {id : String} (h : id ∈ G.sketch.leafIds) :
    (∃ n ∈ G.nodes, n.id = id ∧ n.kind = .quantity) ∨ anchor.kind = .result ∧ id = anchor.id := by
  obtain ⟨x, hx, rfl⟩ := List.mem_map.mp h
  refine (G.leaf_cases x hx).imp ?_ (.imp_right (congrArg Prod.snd))
  rintro ⟨n, hn, hkind, hid, -⟩
  exact ⟨n, hn, hid, hkind⟩

/-- A place of the sketch has a new node, or it is the result node. -/
theorem mem_ids {id : String} (h : id ∈ G.sketch.ids) :
    (∃ n ∈ G.nodes, n.id = id) ∨ anchor.kind = .result ∧ id = anchor.id := by
  rcases Sketch.mem_ids.mp h with h | h
  · obtain ⟨n, hn, hid, -⟩ := G.exists_node_of_mem_operatorIds h
    exact .inl ⟨n, hn, hid⟩
  · refine (G.mem_leafIds h).imp_left ?_
    rintro ⟨n, hn, hid, -⟩
    exact ⟨n, hn, hid⟩

/-- A new node is at a place of the sketch. -/
theorem id_mem_ids {n : Node α} (hn : n ∈ G.nodes) : n.id ∈ G.sketch.ids := by
  rw [Sketch.mem_ids]
  exact (G.node_cases n hn).imp (G.mem_operatorIds hn) And.right

/-- The operators have ids of their own, for nodes have. -/
theorem apart : G.sketch.Apart where
  nodup := by
    rw [G.operatorIds_eq]
    have hnodup := G.nodup
    rw [List.map_append, List.nodup_append] at hnodup
    exact (List.filter_sublist.map _).nodup hnodup.2.1
  disjoint id hid hleaf := by
    obtain ⟨n, hn, rfl, hoperation⟩ := G.exists_node_of_mem_operatorIds hid
    rcases G.mem_leafIds hleaf with ⟨k, hk, heq, hquantity⟩ | ⟨-, heq⟩
    · rw [G.eq_of_mem_nodes hk hn heq, hoperation] at hquantity
      cases hquantity
    · exact G.not_mem_of_mem_nodes hn (heq ▸ List.mem_map_of_mem G.anchor_mem)

/-! ### Edges -/

/-- The edges of a graft are those of its sketch. -/
theorem mem_sketch_edges {e : Edge} (he : e ∈ G.edges) :
    (e.source, e.target) ∈ G.sketch.edges := by
  rw [← G.ends_eq]
  exact List.mem_map_of_mem (f := Edge.ends) he

/-- A link leads from the root to the anchor, and there is none where they are the same. -/
theorem mem_link {e : Edge} (he : e ∈ G.link) :
    G.sketch.root ≠ anchor.id ∧ e.source = G.sketch.root ∧ e.target = anchor.id := by
  have hmem := List.mem_map_of_mem (f := Edge.ends) he
  rw [G.ends_link] at hmem
  split at hmem
  · exact absurd hmem List.not_mem_nil
  · rename_i hne
    exact ⟨hne, Prod.mk.inj (List.mem_singleton.mp hmem)⟩

/-- A new edge comes from a place of the sketch. -/
theorem source_mem_ids {e : Edge} (he : e ∈ G.edges ++ G.link) : e.source ∈ G.sketch.ids := by
  rcases List.mem_append.mp he with he | he
  · exact Sketch.source_mem_ids (G.mem_sketch_edges he)
  · rw [(G.mem_link he).2.1]
    exact G.sketch.root_mem_ids

/-- The edges from an old node stay as they are, but for the result node. -/
theorem edgesFrom_of_mem {n : Node α} (hn : n ∈ g.nodes)
    (hother : anchor.kind = .result → n.id ≠ anchor.id) :
    G.graph.edgesFrom n.id = g.edgesFrom n.id := by
  have hnone : (G.edges ++ G.link).filter (·.source = n.id) = [] := by
    rw [List.filter_eq_nil_iff]
    intro e he hsource
    have hid := G.source_mem_ids he
    rw [of_decide_eq_true hsource] at hid
    rcases G.mem_ids hid with ⟨k, hk, heq⟩ | ⟨hkind, heq⟩
    · exact G.not_mem_of_mem_nodes hk (heq ▸ List.mem_map_of_mem hn)
    · exact hother hkind heq
  rw [edgesFrom, graph, List.filter_append, hnone, List.append_nil]
  rfl

/-- The edges into an old node stay as they are, and the anchor gets the link. -/
theorem edgesInto_of_mem {n : Node α} (hn : n ∈ g.nodes) :
    G.graph.edgesInto n.id = g.edgesInto n.id ++ if n.id = anchor.id then G.link else [] := by
  have hnone : G.edges.filter (·.target = n.id) = [] := by
    rw [List.filter_eq_nil_iff]
    intro e he htarget
    have hid := Sketch.target_mem_operatorIds (G.mem_sketch_edges he)
    rw [of_decide_eq_true htarget] at hid
    exact G.not_mem_of_mem_operatorIds hid (List.mem_map_of_mem hn)
  have hlink : G.link.filter (·.target = n.id) = if n.id = anchor.id then G.link else [] := by
    split
    · rename_i heq
      exact List.filter_eq_self.mpr fun e he => decide_eq_true ((G.mem_link he).2.2.trans heq.symm)
    · rename_i hne
      refine List.filter_eq_nil_iff.mpr fun e he htarget => hne ?_
      exact (of_decide_eq_true htarget).symm.trans (G.mem_link he).2.2
  rw [edgesInto, graph, List.filter_append, List.filter_append, hnone, hlink, List.nil_append]
  rfl

/-- The edges from a new node are new. -/
theorem edgesFrom_of_new {n : Node α} (hn : n ∈ G.nodes) :
    G.graph.edgesFrom n.id = (G.edges ++ G.link).filter (·.source = n.id) := by
  have hnone : g.edges.filter (·.source = n.id) = [] := by
    rw [List.filter_eq_nil_iff]
    intro e he hsource
    exact G.not_mem_of_mem_nodes hn (of_decide_eq_true hsource ▸ (G.joined e he).1)
  rw [edgesFrom, graph, List.filter_append, hnone, List.nil_append]

/-- The edges into a new node are those of the sketch. -/
theorem edgesInto_of_new {n : Node α} (hn : n ∈ G.nodes) :
    G.graph.edgesInto n.id = G.edges.filter (·.target = n.id) := by
  have hnone : g.edges.filter (·.target = n.id) = [] := by
    rw [List.filter_eq_nil_iff]
    intro e he htarget
    exact G.not_mem_of_mem_nodes hn (of_decide_eq_true htarget ▸ (G.joined e he).2)
  have hlink : G.link.filter (·.target = n.id) = [] := by
    rw [List.filter_eq_nil_iff]
    intro e he htarget
    refine G.not_mem_of_mem_nodes hn ?_
    rw [← of_decide_eq_true htarget, (G.mem_link he).2.2]
    exact List.mem_map_of_mem G.anchor_mem
  rw [edgesInto, graph, List.filter_append, List.filter_append, hnone, hlink, List.nil_append,
    List.append_nil]

/-- The edges into a new operator come from its operands. -/
theorem map_source_edgesInto {o : Sketch.Operator} (ho : o ∈ G.sketch.operators) :
    (G.graph.edgesInto o.id).map Edge.source = o.operands := by
  obtain ⟨n, hn, hid, -⟩ := G.exists_node ho
  rw [← hid, G.edgesInto_of_new hn, Edge.map_source_filter, G.ends_eq, hid]
  exact Sketch.sources_eq G.apart.nodup ho

/-- The root is linked to the anchor, unless it is the anchor. -/
theorem root_leads_anchor : ReflTransGen G.graph.Leads G.sketch.root anchor.id := by
  by_cases heq : G.sketch.root = anchor.id
  · rw [heq]
  · have hlink := G.ends_link
    rw [if_neg heq] at hlink
    have hmem : (G.sketch.root, anchor.id) ∈ G.link.map Edge.ends := hlink ▸ List.mem_cons_self
    obtain ⟨e, he, hends⟩ := List.mem_map.mp hmem
    obtain ⟨hsource, htarget⟩ := Prod.mk.inj hends
    exact .single ⟨e, List.mem_append_right _ (List.mem_append_right _ he), hsource, htarget⟩

/-- New nodes lead to the anchor. -/
theorem leads_anchor {n : Node α} (hn : n ∈ G.nodes) :
    ReflTransGen G.graph.Leads n.id anchor.id := by
  refine (ReflTransGen.mono (fun a b hab => ?_) _ _
    (Sketch.reaches_root (G.id_mem_ids hn))).trans G.root_leads_anchor
  rw [← G.ends_eq] at hab
  obtain ⟨e, he, hends⟩ := List.mem_map.mp hab
  obtain ⟨hsource, htarget⟩ := Prod.mk.inj hends
  exact ⟨e, List.mem_append_right _ (List.mem_append_left _ he), hsource, htarget⟩

/-! ### What a graft keeps -/

variable {b : Book} {e : Expr}

/-- A new operator has one edge out: to the operator it is an operand of, or to the anchor. -/
theorem length_edgesFrom {n : Node α} (hn : n ∈ G.nodes) (hkind : n.kind = .operation) :
    (G.graph.edgesFrom n.id).length = 1 := by
  have hcount := G.apart.count_sources (G.mem_operatorIds hn hkind)
  have hlength (es : List Edge) :
      (es.filter (·.source = n.id)).length = ((es.map Edge.ends).map Prod.fst).count n.id := by
    rw [List.map_map, List.count, List.countP_map, List.countP_eq_length_filter]
    rfl
  have hne : anchor.id ≠ n.id := fun heq =>
    G.not_mem_of_mem_nodes hn (heq ▸ List.mem_map_of_mem G.anchor_mem)
  rw [G.edgesFrom_of_new hn, List.filter_append, List.length_append, hlength, hlength, G.ends_eq,
    G.ends_link]
  by_cases hroot : G.sketch.root = anchor.id
  · rw [if_neg (hroot ▸ hne)] at hcount
    rw [if_pos hroot]
    simpa using hcount
  · rw [if_neg hroot]
    by_cases hid : G.sketch.root = n.id
    · rw [if_pos hid] at hcount
      simp only [List.map_cons, List.map_nil, hid, List.count_singleton_self]
      omega
    · rw [if_neg hid] at hcount
      have hzero : [G.sketch.root].count n.id = 0 :=
        List.count_eq_zero.mpr fun hmem => hid (List.mem_singleton.mp hmem).symm
      simp only [List.map_cons, List.map_nil, hzero]
      omega

/-- A new node has an edge out. -/
theorem edgesFrom_ne_nil {n : Node α} (hn : n ∈ G.nodes) : G.graph.edgesFrom n.id ≠ [] := by
  have hedge : ∃ b, G.graph.Leads n.id b := by
    rcases (G.leads_anchor hn).cases_head with heq | ⟨b, hb, -⟩
    · exact absurd (heq ▸ List.mem_map_of_mem G.anchor_mem) (G.not_mem_of_mem_nodes hn)
    · exact ⟨b, hb⟩
  obtain ⟨b, e, he, hsource, -⟩ := hedge
  exact List.ne_nil_of_mem (List.mem_filter.mpr ⟨he, decide_eq_true hsource⟩)

/-- A new variable has no edge in. -/
theorem edgesInto_eq_nil {n : Node α} (hn : n ∈ G.nodes) (hkind : n.kind = .quantity) :
    G.graph.edgesInto n.id = [] := by
  rw [G.edgesInto_of_new hn, List.filter_eq_nil_iff]
  intro e he htarget
  have hid := Sketch.target_mem_operatorIds (G.mem_sketch_edges he)
  rw [of_decide_eq_true htarget] at hid
  obtain ⟨k, hk, heq, hoperation⟩ := G.exists_node_of_mem_operatorIds hid
  rw [G.eq_of_mem_nodes hk hn heq, hkind] at hoperation
  cases hoperation

/-- The edges into a new operator are of the kind `input`. -/
theorem kind_edgesInto {n : Node α} (hn : n ∈ G.nodes) :
    ∀ e ∈ G.graph.edgesInto n.id, e.kind = .input := by
  rw [G.edgesInto_of_new hn]
  exact fun e he => G.kind_edges e (List.mem_of_mem_filter he)

/-- The tree of the sketch is drawn with its root at that of the sketch. -/
theorem depicts_root (hof : G.sketch.IsOf e) : G.graph.Depicts G.sketch.root e := by
  refine depicts_of_isOf hof (fun x hx => ?_) fun o ho => ?_
  · rcases G.leaf_cases x hx with ⟨n, hn, hkind, hid, hlabel⟩ | ⟨hkind, rfl⟩
    · exact ⟨n, List.mem_append_right _ hn, hid, by rw [hkind]; exact nofun, hlabel⟩
    · exact ⟨anchor, List.mem_append_left _ G.anchor_mem, rfl, G.anchor_kind, rfl⟩
  · obtain ⟨n, hn, hid, hkind, hlabel⟩ := G.exists_node ho
    refine ⟨⟨n, List.mem_append_right _ hn, hid, hkind, hlabel⟩, ?_⟩
    rw [operandsOf_eq (hid ▸ G.kind_edgesInto hn), G.map_source_edgesInto ho]

/-- The edges into an old operator stay as they are. -/
theorem edgesInto_of_operation {n : Node α} (hn : n ∈ g.nodes) (hkind : n.kind = .operation) :
    G.graph.edgesInto n.id = g.edgesInto n.id := by
  have hne : n.id ≠ anchor.id := fun heq => by
    have hsame := List.inj_on_of_nodup_map G.nodup (List.mem_append_left _ hn)
      (List.mem_append_left _ G.anchor_mem) heq
    exact G.anchor_kind (hsame ▸ hkind)
  rw [G.edgesInto_of_mem hn, if_neg hne, List.append_nil]

/-- Trees drawn before the graft stay drawn. -/
theorem depicts (h : g.Wired b) {id : String} (hid : g.Depicts id e) : G.graph.Depicts id e := by
  refine hid.mono (List.subset_append_left _ _) fun n hn hkind => ?_
  have hinto := G.edgesInto_of_operation hn hkind
  have hinput := h.operation_into n hn hkind
  rw [operandsOf_eq hinput, operandsOf_eq (hinto ▸ hinput), hinto]

/-- The anchor alone has its id. -/
theorem eq_anchor {n : Node α} (hn : n ∈ G.graph.nodes) (h : n.id = anchor.id) : n = anchor :=
  List.inj_on_of_nodup_map G.nodup hn (List.mem_append_left _ G.anchor_mem) h

/-- The anchor is a variable with no edge in that has the formula of the tree, or no variable. -/
def Opens (b : Book) (g : Graph α) (anchor : Node α) (e : Expr) : Prop :=
  anchor.kind = .quantity → g.edgesInto anchor.id = [] ∧
    ∃ text, b.formula? anchor.label = some text ∧ Expr.parse text = .ok e

/-- The link to a variable is one edge, from the root of the tree, whose node is new. -/
theorem exists_link (hkind : anchor.kind = .quantity) :
    ∃ edge, G.link = [edge] ∧ edge.source = G.sketch.root ∧ edge.kind = .output := by
  have hroot : G.sketch.root ≠ anchor.id := by
    intro hroot
    rcases G.mem_ids G.sketch.root_mem_ids with ⟨k, hk, hid⟩ | ⟨hresult, -⟩
    · exact G.not_mem_of_mem_nodes hk (hid ▸ hroot ▸ List.mem_map_of_mem G.anchor_mem)
    · cases hkind.symm.trans hresult
  obtain ⟨edge, hedge, hends⟩ := List.map_eq_singleton_iff.mp (G.ends_link.trans (if_neg hroot))
  exact ⟨edge, hedge, (Prod.mk.inj hends).1, G.kind_link edge (hedge ▸ List.mem_cons_self)⟩

/-- A graft keeps a graph wired. -/
theorem wired (hof : G.sketch.IsOf e) (hopens : Opens b g anchor e) (h : g.Wired b) :
    G.graph.Wired b where
  operation_from n hn hkind := by
    rcases List.mem_append.mp hn with hold | hnew
    · rw [G.edgesFrom_of_mem hold fun hresult heq => ?_]
      · exact h.operation_from n hold hkind
      · exact G.anchor_kind (G.eq_anchor hn heq ▸ hkind)
    · exact G.length_edgesFrom hnew hkind
  operation_into n hn hkind := by
    rcases List.mem_append.mp hn with hold | hnew
    · rw [G.edgesInto_of_operation hold hkind]
      exact h.operation_into n hold hkind
    · exact G.kind_edgesInto hnew
  quantity_from n hn hkind := by
    rcases List.mem_append.mp hn with hold | hnew
    · rw [G.edgesFrom_of_mem hold fun hresult heq => ?_]
      · exact h.quantity_from n hold hkind
      · rw [G.eq_anchor hn heq, hresult] at hkind
        cases hkind
    · exact G.edgesFrom_ne_nil hnew
  quantity_into n hn hkind := by
    rcases List.mem_append.mp hn with hold | hnew
    · have hinto := G.edgesInto_of_mem hold
      by_cases heq : n.id = anchor.id
      · -- the anchor is opened by this graft, so the link is its only edge in
        obtain rfl := G.eq_anchor hn heq
        obtain ⟨hnil, text, htext, hparse⟩ := hopens hkind
        obtain ⟨edge, hedge, hsource, houtput⟩ := G.exists_link hkind
        rw [if_pos rfl, hnil, List.nil_append, hedge] at hinto
        exact .inr ⟨edge, text, e, hinto, houtput, htext, hparse, hsource ▸ G.depicts_root hof⟩
      · rw [if_neg heq, List.append_nil] at hinto
        refine (h.quantity_into n hold hkind).imp (hinto.trans ·) ?_
        rintro ⟨edge, text, x, hedge, hkind, htext, hparse, hdepicts⟩
        exact ⟨edge, text, x, hinto.trans hedge, hkind, htext, hparse, G.depicts h hdepicts⟩
    · exact .inl (G.edgesInto_eq_nil hnew hkind)

/-- A graft adds the operators of its tree. -/
theorem operations_graph (hof : G.sketch.IsOf e) :
    G.graph.operations = g.operations ++ e.operations := by
  have hold : ((g.nodes.filter (·.kind = .operation)).map fun n =>
      (n.label, (G.graph.edgesInto n.id).length)) = g.operations := by
    refine List.map_congr_left fun n hn => ?_
    obtain ⟨hn, hkind⟩ := List.mem_filter.mp hn
    rw [G.edgesInto_of_operation hn (of_decide_eq_true hkind)]
  have hnew : ((G.nodes.filter (·.kind = .operation)).map fun n =>
      (n.label, (G.graph.edgesInto n.id).length)) = e.operations := by
    have hmap := congrArg
      (List.map fun x : String × String => (x.2, (G.graph.edgesInto x.1).length)) G.operators_eq
    rw [List.map_map, List.map_map] at hmap
    rw [← hof.operations_eq]
    refine hmap.trans (List.map_congr_left fun o ho => ?_)
    rw [← G.map_source_edgesInto ho, List.length_map]
    rfl
  rw [operations, graph, List.filter_append, List.map_append]
  exact congrArg₂ _ hold hnew

/-- The nodes can still be numbered so that all edges but those of the result node lead to smaller
numbers: the operators of the sketch come behind its anchor, and its leaves behind these. -/
theorem exists_falls {result : String} (hresult : anchor.kind = .result → anchor.id = result)
    (h : ∃ rank, g.Falls result rank) : ∃ rank, G.graph.Falls result rank := by
  obtain ⟨rank, hrank⟩ := h
  let number (id : String) : Nat :=
    if id ∈ G.nodes.map Node.id then rank anchor.id + 1 + G.sketch.operatorIds.idxOf id
    else rank id
  have hnumber {id : String} (hid : id ∈ g.nodes.map Node.id) : number id = rank id := by
    refine if_neg fun hnew => ?_
    obtain ⟨n, hn, rfl⟩ := List.mem_map.mp hnew
    exact G.not_mem_of_mem_nodes hn hid
  have hnew {id : String} (hid : id ∈ G.sketch.ids) (hne : id ≠ result) :
      number id = rank anchor.id + 1 + G.sketch.operatorIds.idxOf id := by
    rcases G.mem_ids hid with ⟨n, hn, rfl⟩ | ⟨hkind, heq⟩
    · exact if_pos (List.mem_map_of_mem hn)
    · exact absurd (heq.trans (hresult hkind)) hne
  refine ⟨number, fun e he hsource => ?_⟩
  rcases List.mem_append.mp he with hold | hadded
  · rw [hnumber (G.joined e hold).1, hnumber (G.joined e hold).2]
    exact hrank e hold hsource
  · rw [hnew (G.source_mem_ids hadded) hsource]
    rcases List.mem_append.mp hadded with hedge | hlink
    · have hends := G.mem_sketch_edges hedge
      obtain ⟨n, hn, hid, -⟩ :=
        G.exists_node_of_mem_operatorIds (Sketch.target_mem_operatorIds hends)
      have htarget : number e.target = rank anchor.id + 1 + G.sketch.operatorIds.idxOf e.target :=
        if_pos (hid ▸ List.mem_map_of_mem hn)
      have hlt := G.apart.idxOf_lt hends
      omega
    · rw [(G.mem_link hlink).2.2, hnumber (List.mem_map_of_mem G.anchor_mem)]
      omega

/-- In a graph without edges before, edges lead from the anchor if the sketch has some. -/
theorem edgesFrom_anchor_ne_nil_iff_mem (hg : g.edges = []) :
    G.graph.edgesFrom anchor.id ≠ [] ↔ anchor.id ∈ G.sketch.edges.map Prod.fst := by
  rw [edgesFrom, graph, hg, List.nil_append, ← G.ends_eq, List.map_map]
  constructor
  · intro hne
    obtain ⟨e, he⟩ := List.exists_mem_of_ne_nil _ hne
    obtain ⟨he, hid⟩ := List.mem_filter.mp he
    rcases List.mem_append.mp he with he | he
    · exact List.mem_map.mpr ⟨e, he, of_decide_eq_true hid⟩
    · obtain ⟨hne, hroot, -⟩ := G.mem_link he
      exact absurd (hroot.symm.trans (of_decide_eq_true hid)) hne
  · intro hmem
    obtain ⟨e, he, hid⟩ := List.mem_map.mp hmem
    exact List.ne_nil_of_mem (List.mem_filter.mpr ⟨List.mem_append_left _ he, decide_eq_true hid⟩)

/-- The anchor is a leaf of the sketch if the tree has its name and that leaf is known. -/
theorem anchor_mem_ids_iff (hof : G.sketch.IsOf e)
    (hknown : ∀ id, (Leaf.name anchor.label, id) ∈ G.sketch.leaves → id = anchor.id) :
    anchor.id ∈ G.sketch.ids ↔ anchor.label ∈ e.identifiers := by
  rw [hof.mem_identifiers_iff, Sketch.mem_ids]
  constructor
  · rintro (hid | hid)
    · exact absurd (List.mem_map_of_mem G.anchor_mem) (G.not_mem_of_mem_operatorIds hid)
    · obtain ⟨x, hx, hid⟩ := List.mem_map.mp hid
      rcases G.leaf_cases x hx with ⟨n, hn, -, heq, -⟩ | ⟨-, rfl⟩
      · exact absurd (heq.trans hid ▸ List.mem_map_of_mem G.anchor_mem)
          (G.not_mem_of_mem_nodes hn)
      · exact ⟨_, hx⟩
  · rintro ⟨id, hid⟩
    exact .inr (List.mem_map.mpr ⟨_, hid, hknown id hid⟩)

/-- From the result node an edge leads exactly if its name occurs in the tree and is not all of
it. -/
theorem edgesFrom_anchor_ne_nil_iff (hof : G.sketch.IsOf e) (hg : g.edges = [])
    (hknown : ∀ id, (Leaf.name anchor.label, id) ∈ G.sketch.leaves → id = anchor.id) :
    G.graph.edgesFrom anchor.id ≠ [] ↔
      (∀ s, e ≠ .identifier s) ∧ anchor.label ∈ e.identifiers := by
  rw [G.edgesFrom_anchor_ne_nil_iff_mem hg]
  by_cases hleaf : ∃ id l, G.sketch = .leaf id l
  · -- a single leaf has no edges, and the name occurs in it only if it is all of it
    obtain ⟨id, l, hl⟩ := hleaf
    rw [hl] at hof ⊢
    refine iff_of_false List.not_mem_nil ?_
    cases hof with
    | number id x => exact fun h => absurd h.2 List.not_mem_nil
    | identifier id name => exact fun h => h.1 name rfl
  · have hroot : G.sketch.root ∈ G.sketch.operatorIds :=
      Sketch.root_mem_operatorIds fun id l h => hleaf ⟨id, l, h⟩
    have hne : anchor.id ≠ G.sketch.root := fun heq =>
      G.not_mem_of_mem_operatorIds hroot (heq ▸ List.mem_map_of_mem G.anchor_mem)
    have hidentifier : ∀ s, e ≠ .identifier s := by
      rintro s rfl
      generalize hs : G.sketch = t at hof
      cases hof
      exact hleaf ⟨_, _, hs⟩
    rw [← G.anchor_mem_ids_iff hof hknown, ← G.sketch.perm_ids_sources.mem_iff, List.mem_cons,
      or_iff_right hne]
    exact (and_iff_right hidentifier).symm

end Graft

end Graph

end FormulaBook
