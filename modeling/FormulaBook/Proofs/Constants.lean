import FormulaBook.Proofs.Flow
import FormulaBook.Proofs.NumberTexts
import FormulaBook.Proofs.Selection

/-!
# Constants in drawings

A walk knows its leaves by what they show, and so a constant by the text of its number. The leaves
known have nodes of their own (`Walk.Steps.leavesApart`), so in the sketch of a walk two numbers are
at one node exactly if they are written alike, and that is if they are equal
(`Graph.DrawsConstants`). Every layer of a drawing draws the numbers of its formula so, and
different layers have different nodes (`Layout.mergesConstants_of`): equal constants are merged
inside a layer, and never across layers.
-/

namespace FormulaBook

/-! ## Nodes of leaves -/

namespace Walk

variable {anchor : Option String} {w w' : Walk}

/-- The leaves known have nodes of their own that are drawn. -/
structure LeavesApart (w : Walk) : Prop where
  drawn : w.LeavesDrawn
  nodup : (w.leaves.map Prod.snd).Nodup

/-- Any step of a walk keeps the nodes of the leaves apart. -/
theorem Step.leavesApart (h : Step anchor w w') (hw : w.LeavesApart) : w'.LeavesApart := by
  refine ⟨h.leavesDrawn hw.drawn, ?_⟩
  cases h with
  | leaf row hnew =>
    rw [leaf_of_new hnew, List.map_cons, List.nodup_cons]
    refine ⟨fun hmem => ?_, hw.nodup⟩
    obtain ⟨x, hx, hid⟩ := List.mem_map.mp hmem
    exact Ids.claimNode_not_mem _ _ (hid ▸ hw.drawn x hx)
  | operator label row => exact hw.nodup
  | connect hs ht hne => exact hw.nodup

/-- A leaf met for the first time gets a new node, so no node is that of two leaves. -/
theorem Steps.leavesApart (h : Steps anchor w w') (hw : w.LeavesApart) : w'.LeavesApart :=
  h.preserves (fun hstep => hstep.leavesApart) hw

end Walk

namespace Sketch

variable {s : Sketch} {e : Expr}

/-- The ids at the numbers, from left to right with all repetitions. -/
def constantIds : Sketch → List String
  | .leaf id (.constant _) => [id]
  | .leaf _ (.name _) => []
  | .binary _ _ left right => left.constantIds ++ right.constantIds
  | .signed _ _ operand => operand.constantIds

/-- Every number of the tree is at a place of the sketch. -/
theorem IsOf.length_constantIds (h : s.IsOf e) : s.constantIds.length = e.numbers.length := by
  induction h with
  | number id x => rfl
  | identifier id name => rfl
  | binary id op _ _ ihl ihr =>
    rw [constantIds, Expr.numbers, List.length_append, List.length_append, ihl, ihr]
  | signed id sign _ ih => exact ih

/-- A number of the tree is a leaf of the sketch by its text. -/
theorem IsOf.mem_leaves (h : s.IsOf e) {p : Binary64 × String}
    (hp : p ∈ e.numbers.zip s.constantIds) : (Leaf.constant p.1.plain, p.2) ∈ s.leaves := by
  induction h with
  | number id x =>
    obtain rfl := List.mem_singleton.mp hp
    exact List.mem_singleton_self _
  | identifier id name => exact absurd hp List.not_mem_nil
  | binary id op hl hr ihl ihr =>
    rw [Expr.numbers, constantIds, List.zip_append hl.length_constantIds.symm,
      List.mem_append] at hp
    exact List.mem_append.mpr (hp.imp ihl ihr)
  | signed id sign _ ih => exact ih hp

end Sketch

/-! ## Constants of a layer -/

/-- How a graph draws the numbers of a tree on some of its nodes. The edges of a sketch of the tree
are drawn, and at every number of the tree the sketch has a node with the text of the number. Two
numbers are at one node exactly if they are equal. -/
structure Graph.DrawsConstants {α : Type} (g : Graph α) (nodes : List (Node α)) (e : Expr)
    (s : Sketch) : Prop where
  isOf : s.IsOf e
  edges_infix : s.edges <:+: g.edges.map Edge.ends
  length_eq : s.constantIds.length = e.numbers.length
  exists_node : ∀ p ∈ e.numbers.zip s.constantIds,
    ∃ n ∈ nodes, n.kind = .quantity ∧ n.id = p.2 ∧ n.label = p.1.plain
  id_eq_iff : ∀ p ∈ e.numbers.zip s.constantIds, ∀ q ∈ e.numbers.zip s.constantIds,
    p.2 = q.2 ↔ p.1 = q.1

namespace Layer

variable {α : Type} {c : Canvas α} {g : Graph α}

/-- A layer whose walk goes through a tree, with no constant known before. -/
theorem exists_drawsConstants (known : List (Leaf × String))
    (hnames : ∀ x ∈ known, x.1.isName = true) (hnodup : (known.map Prod.fst).Nodup)
    (hapart : (Walk.start c.ids known c.edges).LeavesApart) (below : Option String) {e : Expr}
    (hx : ∀ x ∈ e.numbers, x.IsUnsigned) {out : String × Walk}
    (hout : out = Walk.through below e 1 (.start c.ids known c.edges)) (l : Layer α)
    (hplaced : l.walk.placed = out.2.placed) {link : List Edge}
    (hedges : l.walk.edges = out.2.edges ++ link) (hg : l.walk.edges <+: g.edges) :
    ∃ s, g.DrawsConstants l.nodes e s := by
  have hsteps := (Walk.arrives_through below e 1 _ hapart.drawn).steps
  have hregisters := hsteps.registers (Walk.registers_start c.ids c.edges hnodup)
  have hends := (hsteps.leavesApart hapart).nodup
  obtain ⟨s, hs, hdraws⟩ := Walk.exists_draws below e 1 (.start c.ids known c.edges)
  rw [← hout] at hregisters hends hdraws
  -- at the end of the walk all leaves of the sketch are known
  have hleaf {p} (hp : p ∈ e.numbers.zip s.constantIds) :
      (Leaf.constant p.1.plain, p.2) ∈ out.2.leaves :=
    (hdraws.mem_leaves _).mpr (.inr (hs.mem_leaves hp))
  refine ⟨s, hs, ?_, hs.length_constantIds, fun p hp => ?_, fun p hp q hq => ⟨fun hid => ?_, ?_⟩⟩
  · obtain ⟨later, hlater⟩ := hg
    refine ⟨c.edges.map Edge.ends, (link ++ later).map Edge.ends, ?_⟩
    rw [← hlater, hedges, List.map_append, List.map_append, List.map_append, hdraws.ends_eq]
    simp only [Walk.start, List.append_assoc]
  · rcases hregisters.leaf_cases _ (hleaf hp) with hknown | ⟨k, hk, hkind, hid, hlabel⟩
    · exact absurd (hnames _ hknown) Bool.false_ne_true
    · obtain ⟨n, hn, hshows⟩ := Layout.exists_of_shows l.shows (hplaced ▸ hk)
      exact ⟨n, hn, hshows.2.2.trans hkind, hshows.1.trans hid, hshows.2.1.trans hlabel⟩
  · have hsame := List.inj_on_of_nodup_map hends (hleaf hp) (hleaf hq) hid
    have htext : p.1.plain = q.1.plain := Leaf.constant.inj (Prod.mk.inj hsame).1
    exact Binary64.plain_inj (hx _ (List.of_mem_zip hp).1) (hx _ (List.of_mem_zip hq).1) htext
  · intro heq
    have htext : Leaf.constant p.1.plain = .constant q.1.plain := by rw [heq]
    exact (Prod.mk.inj (List.inj_on_of_nodup_map hregisters.nodup (hleaf hp) (hleaf hq) htext)).2

variable [Coordinate α]

/-- A formula opened begins with no leaf known. -/
theorem exists_drawsConstants_opened (m : Measures α) (anchor : Node α) (spacing : α) {e : Expr}
    (hx : ∀ x ∈ e.numbers, x.IsUnsigned)
    (hg : (opened m anchor spacing e c).walk.edges <+: g.edges) :
    ∃ s, g.DrawsConstants (opened m anchor spacing e c).nodes e s := by
  obtain ⟨edge, hedges, -⟩ := exists_link_opened anchor.id e c
  exact exists_drawsConstants [] nofun List.nodup_nil ⟨nofun, List.nodup_nil⟩
    (some anchor.id) hx rfl _ rfl hedges hg

/-- The formula drawn begins with its own name known. -/
theorem exists_drawsConstants_full (m : Measures α) (name : String) {e : Expr}
    (hx : ∀ x ∈ e.numbers, x.IsUnsigned)
    (hg : (full m name (Layout.resultNode m name).id e (Layout.firstCanvas m name)).walk.edges <+:
      g.edges) :
    ∃ s, g.DrawsConstants
      (full m name (Layout.resultNode m name).id e (Layout.firstCanvas m name)).nodes e s := by
  obtain ⟨link, hedges, -⟩ := exists_link_full name (Layout.resultNode m name).id e
    (Layout.firstCanvas m name)
  refine exists_drawsConstants [(.name name, (Layout.resultNode m name).id)]
    (fun x hx => List.mem_singleton.mp hx ▸ rfl) (List.nodup_singleton _)
    ⟨fun x hx => ?_, List.nodup_singleton _⟩ none hx rfl _ (placed_fullWalk _ _ _ _) hedges hg
  rw [List.mem_singleton.mp hx]
  exact List.mem_cons_self

end Layer

/-! ## Constants of a drawing -/

namespace Layout

variable {α : Type} [Coordinate α] {b : Book} {g : Graph α}

mutual

/-- What is opened by a plan, layer by layer. -/
theorem drawsConstants_layersAt (m : Measures α) (path : List Nat) (anchor : Node α) (spacing : α) :
    ∀ (p : Plan) (c : Canvas α), p.Grounded b →
      (openAt m anchor spacing p c).edges <+: g.edges →
      List.Forall₂ (fun x e => ∃ s, g.DrawsConstants x.2.nodes e s)
        (layersAt m path anchor spacing p c) p.exprs
  | .closed name reason, c, _, _ => by
    rw [layersAt]
    exact .nil
  | .opened name text e inner, c, hp, hg => by
    cases hp with
    | opened _ hparse hnames hinner =>
      rw [openAt_opened] at hg
      rw [layersAt]
      have hlayer := (prefix_openAll m _ _ inner
        ((Layer.opened m anchor spacing e c).onto c)).2.trans hg
      refine .cons (Layer.exists_drawsConstants_opened m anchor spacing
        (Expr.isUnsigned_of_parse hparse).1 hlayer) ?_
      refine drawsConstants_layersAll m path 0 _ inner _ ?_ hinner hg
      rw [Layer.map_label_mentions_opened, hnames]

/-- The layers opened at several nodes draw the constants of the formulas of their plans, in order.
-/
theorem drawsConstants_layersAll (m : Measures α) (path : List Nat) (i : Nat) {as : List (Node α)}
    (spacing : α) : ∀ (ps : List Plan) (c : Canvas α), as.map Node.label = ps.map Plan.name →
      (∀ p ∈ ps, p.Grounded b) → (openAll m as spacing ps c).edges <+: g.edges →
      List.Forall₂ (fun x e => ∃ s, g.DrawsConstants x.2.nodes e s)
        (layersAll m path i as spacing ps c) (Plan.exprsAll ps)
  | [], c, _, _, _ => by
    rw [layersAll]
    exact .nil
  | p :: ps, c, hlabels, hps, hg => by
    cases as with
    | nil => cases hlabels
    | cons a as =>
      rw [List.map_cons, List.map_cons, List.cons.injEq] at hlabels
      rw [openAll_cons] at hg
      rw [layersAll]
      exact List.rel_append
        (drawsConstants_layersAt m (path ++ [i]) a spacing p c (hps p List.mem_cons_self)
          ((prefix_openAll m as spacing ps _).2.trans hg))
        (drawsConstants_layersAll m path (i + 1) spacing ps _ hlabels.2
          (fun q hq => hps q (List.mem_cons_of_mem _ hq)) hg)

end

/-- The layers of a formula drawn have different nodes, which are those of the drawing. -/
theorem apart_layersAtOf (m : Measures α) (name text : String) (e : Expr) (parts : List Plan) :
    (layersAtOf m name (.full text e parts)).Pairwise
      fun x y => ∀ n ∈ x.2.nodes, ∀ n' ∈ y.2.nodes, n.id ≠ n'.id := by
  have hc : (firstCanvas m name).Sound := Ids.tracks_nil.claimNode name
  have hsound := sound_drawFull m name e parts hc List.mem_cons_self
  have hnodup : ((draw m name (.full text e parts)).nodes.map Node.id).Nodup := hsound.nodup_nodes
  rw [nodes_draw_full, List.map_cons, List.map_flatMap] at hnodup
  refine (List.nodup_flatMap.mp hnodup.of_cons).2.imp fun hdisjoint n hn n' hn' hid => ?_
  exact hdisjoint (List.mem_map_of_mem hn) (hid ▸ List.mem_map_of_mem hn')

/-- A formula drawn, layer by layer. -/
theorem drawsConstants_layersAtOf (m : Measures α) (name text : String) {e : Expr}
    {parts : List Plan} (hx : ∀ x ∈ e.numbers, x.IsUnsigned)
    (hnames : parts.map Plan.name = e.vars.filter (· != name))
    (hparts : ∀ p ∈ parts, p.Grounded b) :
    List.Forall₂ (fun x e' => ∃ s,
        (draw m name (.full text e parts)).DrawsConstants x.2.nodes e' s)
      (layersAtOf m name (.full text e parts)) (Scheme.full text e parts).exprs := by
  let l := Layer.full m name (resultNode m name).id e (firstCanvas m name)
  have hlabels : l.mentions.map Node.label = parts.map Plan.name := by
    rw [Layer.map_label_mentions_full, hnames]
  have hprefix : l.walk.edges <+: (draw m name (.full text e parts)).edges :=
    (prefix_openAll m l.mentions _ parts (l.onto (firstCanvas m name))).2
  exact .cons (Layer.exists_drawsConstants_full m name hx hprefix)
    (drawsConstants_layersAll m [] 0 _ parts _ hlabels hparts (List.prefix_refl _))

end Layout

/-- The layers of a drawing draw the numbers of their formulas on nodes of their own. -/
structure Graph.MergesConstants {α : Type} (g : Graph α) (layers : List (Layer α))
    (es : List Expr) : Prop where
  nodes_sublist : (layers.flatMap Layer.nodes).Sublist g.nodes
  apart : layers.Pairwise fun l k => ∀ n ∈ l.nodes, ∀ n' ∈ k.nodes, n.id ≠ n'.id
  draws : List.Forall₂ (fun l e => ∃ s, g.DrawsConstants l.nodes e s) layers es

namespace Layout

variable {α : Type} [Coordinate α]

/-- In every drawing equal constants are merged inside a layer, and only there. -/
theorem mergesConstants_of (b : Book) (m : Measures α) (selected : List String) (name : String) :
    (of b m selected name).MergesConstants (layersOf b m selected name)
      (Scheme.of b m.maxExpansionDepth selected name).exprs := by
  rw [of, layersOf]
  cases htext : b.formula? name with
  | none =>
    have hblank : Scheme.of b m.maxExpansionDepth selected name = .blank := by
      simp only [Scheme.of, htext]
    rw [hblank]
    exact ⟨List.nil_sublist _, .nil, .nil⟩
  | some text =>
    cases hparse : Expr.parse text with
    | error reason =>
      have hflat : Scheme.of b m.maxExpansionDepth selected name =
          .flat text (Analysis.of text).vars := by
        simp only [Scheme.of, htext, hparse]
      rw [hflat]
      exact ⟨List.nil_sublist _, .nil, .nil⟩
    | ok e =>
      obtain ⟨parts, hfull, hnames, hparts⟩ :=
        scheme_of_parse m.maxExpansionDepth selected htext hparse
      rw [hfull]
      refine ⟨?_, ?_, ?_⟩
      · rw [nodes_draw_full, List.flatMap_map]
        exact List.sublist_cons_self _ _
      · exact List.pairwise_map.mpr (apart_layersAtOf m name text e parts)
      · rw [List.forall₂_map_left_iff]
        exact drawsConstants_layersAtOf m name text (Expr.isUnsigned_of_parse hparse).1 hnames
          hparts

/-- One number in three spellings is one constant. -/
example :
    (of (.ofList [("r", "1.0 + 01 - 1e0")]) Measures.standard [] "r").nodes.map Node.id =
      ["r", "op_0", "op_1", "const_1"] := by
  decide +kernel

/-- The text of a number is exact, and constants go by it. A finite number without a sign is written
in a formula as the decimal of its natural text: without an exponent, with no zero that ends its
places, and with all its zeros if it is whole. The text is one token with the number in it, and
other numbers have other texts. So a layer of a drawing merges two constants exactly if they are
equal; those of different layers are different nodes. -/
theorem constants_exact :
    (∀ n (h : Representable n),
      let x := Binary64.finite false n h
      (∃ d, Decimal.read? Decimal.readSignedExponent? x.text.toList = some d ∧
        Binary64.ofDecimal false d = x ∧ x.plain.toList = Decimal.trimmed d.plain ∧
        d.WrittenAs x.plain.toList ∧ (unitsPerOne ∣ n ↔ ∃ k : Nat, d.value = k)) ∧
      Token.scan x.plain = [⟨.number, .number x, 0⟩] ∧
      ∀ n' (h' : Representable n'),
        x.plain = (Binary64.finite false n' h').plain ↔ x = .finite false n' h') ∧
    ∀ (b : Book) (m : Measures α) (selected : List String) (name : String),
      (of b m selected name).MergesConstants (layersOf b m selected name)
        (Scheme.of b m.maxExpansionDepth selected name).exprs :=
  ⟨fun _ h => ⟨Binary64.exists_writtenAs_plain h, Token.scan_plain h,
    fun _ _ => Binary64.plain_eq_iff rfl rfl⟩, mergesConstants_of⟩

/-- Two whole numbers, one with an exponent in its natural text and one with a point there. -/
theorem constants_exact_whole :
    let x := Binary64.finite false (tenPow 22 * unitsPerOne) (by decide +kernel)
    let y := Binary64.finite false (340 * unitsPerOne) (by decide +kernel)
    x.text = "1e+22" ∧ x.plain = "10000000000000000000000" ∧ y.text = "340.0" ∧
      y.plain = "340" := by
  intro x y
  have hplain (k : Nat) (h : Representable (k * unitsPerOne)) (d : Decimal)
      (hread : Decimal.read? Decimal.readSignedExponent?
        (Binary64.finite false (k * unitsPerOne) h).text.toList = some d) (hd : d.value = k) :
      (Binary64.finite false (k * unitsPerOne) h).plain.toList = Nat.toDigits 10 k := by
    obtain ⟨⟨d', hread', -, -, hwritten, -⟩, -⟩ := (constants_exact (α := Binary64)).1 _ h
    obtain rfl := Option.some.inj (hread.symm.trans hread')
    exact hwritten.eq_toDigits k hd
  have hx : x.plain.toList = Nat.toDigits 10 (tenPow 22) := by
    refine hplain _ _ ⟨1, 22⟩ ?_ ?_
    · decide +kernel
    · norm_num [Decimal.value, tenPow]
  have hy : y.plain.toList = Nat.toDigits 10 340 := by
    refine hplain _ _ ⟨3400, -1⟩ ?_ ?_
    · decide +kernel
    · norm_num [Decimal.value]
  refine ⟨by decide +kernel, String.toList_inj.mp (hx.trans ?_), by decide +kernel,
    String.toList_inj.mp (hy.trans ?_)⟩
  · decide +kernel
  · decide +kernel

/-- Equal constants of two layers are two nodes. -/
theorem not_merged_across_layers :
    ¬∀ (b : Book) (selected : List String) (name : String),
      let g := of b Measures.standard selected name
      ∀ n ∈ g.nodes, ∀ n' ∈ g.nodes, ∀ x : Binary64,
        Token.scan n.label = [⟨.number, .number x, 0⟩] →
        Token.scan n'.label = [⟨.number, .number x, 0⟩] → n.id = n'.id := by
  intro hmerged
  let g := of (.ofList [("a", "b + 1"), ("b", "1")]) Measures.standard ["b"] "a"
  obtain ⟨n, hn, hid, hlabel⟩ : ∃ n ∈ g.nodes, n.id = "const_1" ∧ n.label = "1" := by
    decide +kernel
  obtain ⟨n', hn', hid', hlabel'⟩ : ∃ n ∈ g.nodes, n.id = "b_const_1" ∧ n.label = "1" := by
    decide +kernel
  have hscan : Token.scan "1" =
      [⟨.number, .number (.finite false unitsPerOne (by decide +kernel)), 0⟩] := by
    decide +kernel
  have heq := hmerged _ _ _ n hn n' hn' _ (hlabel ▸ hscan) (hlabel' ▸ hscan)
  rw [hid, hid'] at heq
  exact absurd heq (by decide)

end Layout

end FormulaBook
