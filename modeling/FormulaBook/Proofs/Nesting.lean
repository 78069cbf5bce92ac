import FormulaBook.Proofs.LayerTree
import FormulaBook.Proofs.WellFormed
import Mathlib.Data.List.Flatten
import Mathlib.Data.Set.Function

/-!
# Drawings nest like dependency trees

With all variables of a formula selected, its drawing opens what its dependency tree shows. `Nests`
says how: the names drawn, without the result node, are placed one to one at the addresses of the
tree below its root, every name in the layer that hangs from its parent and in the order of its
siblings, and the names that are opened are the formulas of the tree. `Layout.exists_nests` finds
the placement for every book in which the formulas the name depends on parse, at every depth limit
that is not negative.
-/

namespace FormulaBook

variable {α : Type}

/-- The nodes of a drawing are placed at the addresses of a tree: the result node at its root, the
names drawn at the other addresses. The layers are those of the drawing, the names drawn are those
they mention, and a name is opened if an output edge leads to its node. -/
structure Nests (g : Graph α) (layers : List (Layer α)) (t : Tree) (place : List Nat → Node α) :
    Prop where
  nodes_eq : g.nodes = place [] :: layers.flatMap Layer.nodes
  bijOn : Set.BijOn place {p | p ≠ [] ∧ (t.at? p).isSome}
    {n | n ∈ layers.flatMap Layer.mentions}
  label_eq : ∀ p s, t.at? p = some s → (place p).label = s.name
  owner_eq : ∀ p, p ≠ [] → (t.at? p).isSome →
    ∃ l ∈ layers, place p ∈ l.mentions ∧ l.owner = (place p.dropLast).id
  siblings : ∀ p s, t.at? p = some s →
    ((List.range s.children.length).map fun i => place (p ++ [i])).Sublist g.nodes
  opened_iff : ∀ p s, p ≠ [] → t.at? p = some s →
    ((place p).id ∈ Edge.outputs g.edges ↔ s.isFormula = true)
  anchors_eq : (Edge.outputs g.edges).filter (· ≠ (place []).id) =
    ((t.located []).tail.filter (·.2.isFormula)).map fun x => (place x.1).id

namespace Layout

/-! ## Placements -/

/-- The nodes of a drawing that have addresses: the result node and the names drawn. -/
def drawnAt (result : Node α) (ls : List (List Nat × Layer α)) : List (List Nat × Node α) :=
  ([], result) :: mentionsAt ls

/-- The node of a drawing with an address. -/
def place (result : Node α) (ls : List (List Nat × Layer α)) (p : List Nat) : Node α :=
  ((drawnAt result ls).lookup p).getD result

/-- What ties the layers of a drawing to a tree: the names drawn have the addresses and names of the
tree, the layers have the addresses of its formulas and hang from the nodes at these addresses, and
no id is that of two nodes. -/
structure Along (result : Node α) (ls : List (List Nat × Layer α)) (t : Tree) : Prop where
  perm : ((drawnAt result ls).map labelled).Perm ((t.located []).map titled)
  fst_eq : ls.map Prod.fst = ((t.located []).filter (·.2.isFormula)).map Prod.fst
  owned : ls.map owned ⊆ (drawnAt result ls).map identified
  nodup : ((result :: ls.flatMap (·.2.nodes)).map Node.id).Nodup

namespace Along

variable {result : Node α} {ls : List (List Nat × Layer α)} {t : Tree}

/-- The result node is placed at the root. -/
theorem place_nil (result : Node α) (ls : List (List Nat × Layer α)) :
    place result ls [] = result := by
  simp [place, drawnAt]

/-- The addresses of the nodes drawn are those of the tree, and none has two nodes. -/
theorem perm_fst (h : Along result ls t) :
    ((drawnAt result ls).map Prod.fst).Perm ((t.located []).map Prod.fst) := by
  have hfst := h.perm.map Prod.fst
  rwa [List.map_map, List.map_map] at hfst

/-- The node drawn at an address is placed there. -/
theorem place_of_mem (h : Along result ls t) {p : List Nat} {n : Node α}
    (hn : (p, n) ∈ drawnAt result ls) : place result ls p = n := by
  have hkeys := h.perm_fst.nodup_iff.mpr (Tree.nodup_map_fst_located [] t)
  have hlookup : (drawnAt result ls).lookup p = some n := by
    obtain ⟨before, after, heq⟩ := List.append_of_mem hn
    refine List.lookup_eq_some_iff.mpr ⟨before, after, heq, fun x hx => ?_⟩
    rw [heq, List.map_append, List.nodup_append] at hkeys
    have hne := hkeys.2.2 x.1 (List.mem_map_of_mem hx) p (by simp)
    simpa using hne.symm
  rw [place, hlookup, Option.getD_some]

/-- At every address of the tree there is a node, with the name that is there in the tree. -/
theorem exists_mem (h : Along result ls t) {p : List Nat} {s : Tree} (hs : t.at? p = some s) :
    ∃ n, (p, n) ∈ drawnAt result ls ∧ n.label = s.name := by
  have hmem : (p, s.name) ∈ (t.located []).map titled :=
    List.mem_map_of_mem (f := titled) (Tree.mem_located.mpr ⟨p, rfl, hs⟩)
  obtain ⟨⟨q, n⟩, hn, heq⟩ := List.mem_map.mp (h.perm.mem_iff.mpr hmem)
  obtain ⟨rfl, hlabel⟩ := Prod.mk.inj heq
  exact ⟨n, hn, hlabel⟩

/-- A node with an address is at an address of the tree. -/
theorem isSome_of_mem (h : Along result ls t) {p : List Nat} {n : Node α}
    (hn : (p, n) ∈ drawnAt result ls) : (t.at? p).isSome := by
  have hmem := h.perm_fst.mem_iff.mp (List.mem_map_of_mem (f := Prod.fst) hn)
  obtain ⟨⟨q, s⟩, hs, heq⟩ := List.mem_map.mp hmem
  obtain ⟨r, hr, hat⟩ := Tree.mem_located.mp hs
  obtain rfl : q = p := heq
  rw [show q = r from hr, hat, Option.isSome_some]

/-- The nodes with addresses are nodes of the drawing, in the same order. -/
theorem map_snd_sublist (ls : List (List Nat × Layer α)) (result : Node α) :
    ((drawnAt result ls).map Prod.snd).Sublist (result :: ls.flatMap (·.2.nodes)) := by
  rw [drawnAt, List.map_cons, map_snd_mentionsAt]
  exact (List.Sublist.flatMap_right ls fun x _ => x.2.mentions_sublist).cons_cons result

/-- Different addresses have nodes with different ids. -/
theorem eq_of_id_eq (h : Along result ls t) {p q : List Nat} (hp : (t.at? p).isSome)
    (hq : (t.at? q).isSome) (heq : (place result ls p).id = (place result ls q).id) : p = q := by
  obtain ⟨s, hs⟩ := Option.isSome_iff_exists.mp hp
  obtain ⟨u, hu⟩ := Option.isSome_iff_exists.mp hq
  obtain ⟨n, hn, -⟩ := h.exists_mem hs
  obtain ⟨k, hk, -⟩ := h.exists_mem hu
  rw [h.place_of_mem hn, h.place_of_mem hk] at heq
  have hnodup := ((map_snd_sublist ls result).map Node.id).nodup h.nodup
  rw [List.map_map] at hnodup
  exact congrArg Prod.fst (List.inj_on_of_nodup_map hnodup hn hk heq)

/-- A node that is not at the root is in the layer with the address of its parent. -/
theorem exists_layer (h : Along result ls t) {p : List Nat} (hne : p ≠ [])
    (hp : (t.at? p).isSome) :
    ∃ x ∈ ls, ∃ i, x.2.mentions[i]? = some (place result ls p) ∧ p = x.1 ++ [i] := by
  obtain ⟨s, hs⟩ := Option.isSome_iff_exists.mp hp
  obtain ⟨n, hn, -⟩ := h.exists_mem hs
  rw [h.place_of_mem hn]
  rcases List.mem_cons.mp hn with heq | hn
  · exact absurd (congrArg Prod.fst heq) hne
  · exact mem_mentionsAt.mp hn

/-- A layer hangs from the node at its address. -/
theorem owner_eq (h : Along result ls t) {x : List Nat × Layer α} (hx : x ∈ ls) :
    x.2.owner = (place result ls x.1).id := by
  obtain ⟨⟨q, n⟩, hn, heq⟩ := List.mem_map.mp (h.owned (List.mem_map_of_mem hx))
  obtain ⟨hq, hid⟩ := Prod.mk.inj heq
  rw [← show q = x.1 from hq, h.place_of_mem hn]
  exact hid.symm

/-- The addresses below the root are placed on the names drawn, one to one. -/
theorem bijOn (h : Along result ls t) :
    Set.BijOn (place result ls) {p | p ≠ [] ∧ (t.at? p).isSome}
      {n | n ∈ (ls.map Prod.snd).flatMap Layer.mentions} := by
  rw [List.flatMap_map]
  refine ⟨?_, ?_, ?_⟩
  · rintro p ⟨hne, hp⟩
    obtain ⟨x, hx, i, hi, -⟩ := h.exists_layer hne hp
    exact List.mem_flatMap.mpr ⟨x, hx, List.mem_of_getElem? hi⟩
  · rintro p ⟨-, hp⟩ q ⟨-, hq⟩ heq
    exact h.eq_of_id_eq hp hq (congrArg Node.id heq)
  · intro n hn
    obtain ⟨x, hx, hn⟩ := List.mem_flatMap.mp hn
    obtain ⟨i, hi, hin⟩ := List.mem_iff_getElem.mp hn
    have hmem : (x.1 ++ [i], n) ∈ drawnAt result ls :=
      List.mem_cons_of_mem _
        (mem_mentionsAt.mpr ⟨x, hx, i, List.getElem?_eq_some_iff.mpr ⟨hi, hin⟩, rfl⟩)
    exact ⟨x.1 ++ [i], ⟨by simp, h.isSome_of_mem hmem⟩, h.place_of_mem hmem⟩

/-- The names of a layer are those at the addresses of the children. -/
theorem mentions_eq (h : Along result ls t) {x : List Nat × Layer α} (hx : x ∈ ls) {s : Tree}
    (hs : t.at? x.1 = some s) :
    (List.range s.children.length).map (fun i => place result ls (x.1 ++ [i])) =
      x.2.mentions := by
  have hat (i : Nat) := Tree.isSome_at?_append_singleton hs (i := i)
  have hlt (i : Nat) (n : Node α) (hi : x.2.mentions[i]? = some n) :
      i < s.children.length ∧ place result ls (x.1 ++ [i]) = n := by
    have hmem : (x.1 ++ [i], n) ∈ drawnAt result ls :=
      List.mem_cons_of_mem _ (mem_mentionsAt.mpr ⟨x, hx, i, hi, rfl⟩)
    exact ⟨(hat i).mp (h.isSome_of_mem hmem), h.place_of_mem hmem⟩
  -- no two layers have one address, so the node at the address of a child is in this layer
  have hnodup : (ls.map Prod.fst).Nodup := by
    rw [h.fst_eq]
    exact (List.filter_sublist.map _).nodup (Tree.nodup_map_fst_located [] t)
  refine List.ext_getElem? fun i => ?_
  rw [List.getElem?_map]
  by_cases hi : i < s.children.length
  · obtain ⟨y, hy, j, hj, heq⟩ := h.exists_layer (p := x.1 ++ [i]) (by simp) ((hat i).mpr hi)
    obtain ⟨hfst, hij⟩ := List.append_inj' heq rfl
    obtain rfl := List.inj_on_of_nodup_map hnodup hx hy hfst
    obtain rfl := (List.cons.inj hij).1
    rw [List.getElem?_range hi, hj]
    rfl
  · rw [List.getElem?_eq_none (by simpa using hi), Option.map_none]
    refine (List.getElem?_eq_none (Nat.le_of_not_lt fun hlen => ?_)).symm
    exact hi (hlt i _ (List.getElem?_eq_getElem hlen)).1

/-- The names of a layer, which are the children of its node, come in their order. -/
theorem siblings (h : Along result ls t) {p : List Nat} {s : Tree} (hs : t.at? p = some s) :
    ((List.range s.children.length).map fun i => place result ls (p ++ [i])).Sublist
      (result :: ls.flatMap (·.2.nodes)) := by
  rcases Nat.eq_zero_or_pos s.children.length with hzero | hpos
  · rw [hzero]
    exact List.nil_sublist _
  · have hfirst := (Tree.isSome_at?_append_singleton hs).mpr hpos
    obtain ⟨x, hx, j, -, heq⟩ := h.exists_layer (by simp) hfirst
    obtain ⟨rfl, -⟩ := List.append_inj' heq rfl
    rw [h.mentions_eq hx hs]
    refine .cons _ (x.2.mentions_sublist.trans ?_)
    rw [List.flatMap_def]
    exact List.sublist_flatten_of_mem (List.mem_map_of_mem (f := fun x => x.2.nodes) hx)

/-- The nodes that the layers but the first hang from are those of the formulas below the root. -/
theorem tail_owners (h : Along result ls t) (hformula : t.isFormula = true) :
    ls.tail.map (·.2.owner) =
      ((t.located []).tail.filter (·.2.isFormula)).map fun x => (place result ls x.1).id := by
  have hids : ls.map (·.2.owner) = (ls.map Prod.fst).map fun p => (place result ls p).id := by
    rw [List.map_map]
    exact List.map_congr_left fun x hx => h.owner_eq hx
  rw [List.map_tail, hids, h.fst_eq, Tree.located_eq, List.filter_cons_of_pos (by exact hformula),
    List.map_map, List.map_cons, List.tail_cons, List.tail_cons]
  rfl

/-- No other node has the id of the result node. -/
theorem id_ne_result (h : Along result ls t) {p : List Nat} {s : Tree} (hp : p ≠ [])
    (hs : t.at? p = some s) : (place result ls p).id ≠ result.id := by
  intro heq
  rw [← place_nil result ls] at heq
  exact hp (h.eq_of_id_eq (Option.isSome_of_mem hs) (Option.isSome_of_mem (Tree.at?_nil t)) heq)

section

/-! The output edges of a drawing lead to the result node and then to the nodes that the layers
behind the first hang from. -/

variable {g : Graph α} {own : List String}

/-- An output edge leads to the node of a name exactly if the name is a formula in the tree. -/
theorem mem_outputs_iff (h : Along result ls t) (hformula : t.isFormula = true)
    (hown : ∀ id ∈ own, id = result.id)
    (houtputs : Edge.outputs g.edges = own ++ ls.tail.map (·.2.owner)) {p : List Nat} {s : Tree}
    (hp : p ≠ []) (hs : t.at? p = some s) :
    (place result ls p).id ∈ Edge.outputs g.edges ↔ s.isFormula = true := by
  rw [houtputs, h.tail_owners hformula, List.mem_append, List.mem_map]
  constructor
  · rintro (hid | ⟨x, hx, hid⟩)
    · exact absurd (hown _ hid) (h.id_ne_result hp hs)
    · obtain ⟨hx, hxf⟩ := List.mem_filter.mp hx
      obtain ⟨-, hxs⟩ := Tree.mem_tail_located.mp hx
      have hxp := h.eq_of_id_eq (Option.isSome_of_mem hxs) (Option.isSome_of_mem hs) hid
      rw [hxp, hs] at hxs
      rwa [Option.some.inj hxs]
  · intro hf
    exact .inr ⟨(p, s), List.mem_filter.mpr ⟨Tree.mem_tail_located.mpr ⟨hp, hs⟩, hf⟩, rfl⟩

/-- The other output edges lead to the formulas of the tree below its root, in preorder. -/
theorem filter_outputs (h : Along result ls t) (hformula : t.isFormula = true)
    (hown : ∀ id ∈ own, id = result.id)
    (houtputs : Edge.outputs g.edges = own ++ ls.tail.map (·.2.owner)) :
    (Edge.outputs g.edges).filter (· ≠ result.id) =
      ((t.located []).tail.filter (·.2.isFormula)).map fun x => (place result ls x.1).id := by
  have hnone : own.filter (· ≠ result.id) = [] :=
    List.filter_eq_nil_iff.mpr fun id hid => by simp [hown id hid]
  rw [houtputs, h.tail_owners hformula, List.filter_append, hnone, List.nil_append]
  refine List.filter_eq_self.mpr fun id hid => ?_
  obtain ⟨x, hx, rfl⟩ := List.mem_map.mp hid
  obtain ⟨hne, hs⟩ := Tree.mem_tail_located.mp (List.mem_of_mem_filter hx)
  exact decide_eq_true (h.id_ne_result hne hs)

/-- A drawing with the nodes of the layers and these output edges nests like the tree. -/
theorem nests (h : Along result ls t) (hformula : t.isFormula = true)
    (hnodes : g.nodes = result :: ls.flatMap (·.2.nodes)) (hown : ∀ id ∈ own, id = result.id)
    (houtputs : Edge.outputs g.edges = own ++ ls.tail.map (·.2.owner)) :
    Nests g (ls.map Prod.snd) t (place result ls) where
  nodes_eq := by rw [place_nil, hnodes, List.flatMap_map]
  bijOn := h.bijOn
  label_eq p s hs := by
    obtain ⟨n, hn, hlabel⟩ := h.exists_mem hs
    rw [h.place_of_mem hn, hlabel]
  owner_eq p hp hat := by
    obtain ⟨x, hx, i, hi, heq⟩ := h.exists_layer hp hat
    refine ⟨x.2, List.mem_map_of_mem hx, List.mem_of_getElem? hi, ?_⟩
    rw [heq, List.dropLast_concat, h.owner_eq hx]
  siblings p s hs := hnodes ▸ h.siblings hs
  opened_iff p s hp hs := h.mem_outputs_iff hformula hown houtputs hp hs
  anchors_eq := by
    rw [place_nil]
    exact h.filter_outputs hformula hown houtputs

end

end Along

/-! ## The drawing of a name -/

variable [Coordinate α]

/-- The layers of a formula drawn, with all parts opened that its tree shows, go along the tree. -/
theorem along_of_agrees (m : Measures α) (text : String) {root : String} {e : Expr}
    {parts : List Plan} {t : Tree} (hroot : t.name = root) (hformula : t.isFormula = true)
    (hvars : t.children.map Tree.name = e.vars.filter (· != root))
    (hparts : Plan.AgreesAll parts t.children) :
    Along (resultNode m root) (layersAtOf m root (.full text e parts)) t := by
  have hlabels : (Layer.full m root (resultNode m root).id e (firstCanvas m root)).mentions.map
      Node.label = t.children.map Tree.name := by
    rw [Layer.map_label_mentions_full, hvars]
  refine ⟨?_, ?_, ?_, ?_⟩
  · rw [drawnAt, layersAtOf, mentionsAt_cons, Tree.located_eq, List.map_cons, List.map_cons,
      labelled, titled, hroot]
    exact .cons _ (perm_locatedAll m [] 0 _ _ parts _ _ hparts hlabels)
  · rw [layersAtOf, Tree.located_eq, List.filter_cons_of_pos (by exact hformula), List.map_cons,
      List.map_cons, map_fst_layersAll m [] 0 _ _ parts _ _ hparts hlabels]
  · rw [drawnAt, layersAtOf, mentionsAt_cons, List.map_cons, List.map_cons]
    refine List.cons_subset.mpr ⟨List.mem_cons_self, ?_⟩
    exact List.subset_cons_of_subset _ (owned_layersAll_subset m [] 0 _ _ parts _)
  · have hc : (firstCanvas m root).Sound := Ids.tracks_nil.claimNode root
    have hsound := sound_drawFull m root e parts hc List.mem_cons_self
    rw [← nodes_draw_full, draw_full]
    exact hsound.nodup_nodes

/-- The output edges of a formula drawn. -/
theorem outputs_draw_full (m : Measures α) (root text : String) (e : Expr) (parts : List Plan) :
    ∃ own : List String, (∀ id ∈ own, id = (resultNode m root).id) ∧
      Edge.outputs (draw m root (.full text e parts)).edges =
        own ++ (layersAtOf m root (.full text e parts)).tail.map (·.2.owner) := by
  have hr : (resultNode m root).id ∈ (firstCanvas m root).ids.nodes := List.mem_cons_self
  rw [draw_full]
  dsimp only
  rw [drawFull_eq, outputs_openAll m [] 0, layersAtOf, List.tail_cons]
  refine ⟨Edge.outputs (Layer.fullWalk root (resultNode m root).id e (firstCanvas m root)).edges,
    fun id hid => ?_, rfl⟩
  rcases Layer.outputs_fullWalk root e hr with hout | hout
  · rw [hout] at hid
    exact absurd hid List.not_mem_nil
  · rw [hout] at hid
    exact List.mem_singleton.mp hid

/-- With all variables selected a drawing nests like the dependency tree of the name without the
children that repeat the name, and leaving these out leaves out no formula: if all formulas the name
depends on parse, the nodes can be placed at the addresses of that tree. -/
theorem exists_nests (b : Book) (m : Measures α) (selected : List String) {root text : String}
    (htext : b.formula? root = some text) (hparses : b.ParsesFrom root)
    (hdepth : 0 ≤ m.maxExpansionDepth) (hselected : ∀ v ∈ (Analysis.of text).vars, v ∈ selected) :
    (∃ place, Nests (of b m selected root) (layersOf b m selected root)
      (Tree.build b m.maxExpansionDepth root).withoutSelf place) ∧
    (Tree.build b m.maxExpansionDepth root).withoutSelf.preorder.tail.filter Tree.isFormula =
      (Tree.build b m.maxExpansionDepth root).preorder.tail.filter Tree.isFormula := by
  obtain ⟨e, he⟩ := hparses root text .refl htext
  rw [Analysis.vars_of_parse he] at hselected
  have hbuild := Plan.withoutSelf_build (b := b) htext he hdepth
  have hagrees := Plan.agreesAll_children_build htext he hdepth hparses
  refine ⟨?_, Plan.filter_isFormula_withoutSelf_build htext he hdepth⟩
  rw [of, layersOf, Plan.scheme_of_selected htext he hselected]
  obtain ⟨own, hown, houtputs⟩ := outputs_draw_full m root text e
    ((e.vars.filter (· != root)).map (Plan.grow b m.maxExpansionDepth [root] 1))
  have hname : (Tree.build b m.maxExpansionDepth root).withoutSelf.name = root := by
    rw [hbuild, Tree.name]
  have hformula : (Tree.build b m.maxExpansionDepth root).withoutSelf.isFormula = true := by
    rw [hbuild]
    rfl
  have hvars : (Tree.build b m.maxExpansionDepth root).withoutSelf.children.map Tree.name =
      e.vars.filter (· != root) := by
    rw [hbuild, Tree.children, List.map_map]
    exact List.map_id'' (fun v => Tree.name_grow ..) _
  have halong := along_of_agrees m text hname hformula hvars hagrees
  exact ⟨_, halong.nests hformula (nodes_draw_full ..) hown houtputs⟩

/-- Formulas that depend on each other and on the name drawn. -/
theorem exists_nests_cyclic :
    ∃ place, Nests
      (of (.ofList [("r", "a + r * b"), ("a", "b ** 2"), ("b", "a - c / 3")]) Measures.standard
        ["a", "b", "r"] "r")
      (layersOf (.ofList [("r", "a + r * b"), ("a", "b ** 2"), ("b", "a - c / 3")])
        Measures.standard ["a", "b", "r"] "r")
      (Tree.build (.ofList [("r", "a + r * b"), ("a", "b ** 2"), ("b", "a - c / 3")])
        Measures.standard.maxExpansionDepth "r").withoutSelf place := by
  have hparses : (Book.ofList [("r", "a + r * b"), ("a", "b ** 2"),
      ("b", "a - c / 3")]).ParsesFrom "r" :=
    Book.parsesFrom_of_forall (by decide +kernel) "r"
  have hselected : ∀ v ∈ (Analysis.of "a + r * b").vars, v ∈ ["a", "b", "r"] := by
    decide +kernel
  exact (exists_nests _ Measures.standard ["a", "b", "r"] (by decide) hparses (by decide)
    hselected).1

end Layout

end FormulaBook
