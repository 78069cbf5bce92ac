import FormulaBook.Proofs.Agreement
import FormulaBook.Proofs.Mentions
import Mathlib.Data.List.Perm.Basic

/-!
# Layers along a tree

The layers of what is opened by a plan, read along a tree the plan agrees with. The layers have the
addresses of the formulas of the tree, in preorder (`Layout.map_fst_layersAt`). A name mentioned in
a layer has the address of the layer and its index behind it (`Layout.mentionsAt`); the names with
their addresses are those of the tree (`Layout.perm_located`), and every layer hangs from the name
with its address (`Layout.owned_layersAt_subset`). The output edges drawn are those to the nodes the
layers hang from (`Layout.outputs_openAt`).
-/

namespace FormulaBook.Layout

variable {α : Type}

/-! ## Names with their addresses -/

/-- Nodes with the addresses of the children of a node, the first of which has the index `i`. -/
def addressed (path : List Nat) (i : Nat) : List (Node α) → List (List Nat × Node α)
  | [] => []
  | n :: ns => (path ++ [i], n) :: addressed path (i + 1) ns

/-- The names of layers with their addresses. -/
def mentionsAt (ls : List (List Nat × Layer α)) : List (List Nat × Node α) :=
  ls.flatMap fun x => addressed x.1 0 x.2.mentions

/-- Each of the nodes has the address of the child with its index. -/
theorem mem_addressed {path q : List Nat} {i : Nat} {ns : List (Node α)} {n : Node α} :
    (q, n) ∈ addressed path i ns ↔ ∃ j, ns[j]? = some n ∧ q = path ++ [i + j] := by
  induction ns generalizing i with
  | nil => simp [addressed]
  | cons a ns ih =>
    rw [addressed, List.mem_cons, ih]
    constructor
    · rintro (h | ⟨j, hj, rfl⟩)
      · cases h
        exact ⟨0, rfl, rfl⟩
      · exact ⟨j + 1, hj, by rw [Nat.add_right_comm, Nat.add_assoc]⟩
    · rintro ⟨_ | j, hj, rfl⟩
      · obtain rfl := Option.some.inj hj
        exact .inl rfl
      · exact .inr ⟨j, hj, by rw [Nat.add_right_comm, Nat.add_assoc]⟩

@[simp] theorem map_snd_addressed (path : List Nat) (i : Nat) (ns : List (Node α)) :
    (addressed path i ns).map Prod.snd = ns := by
  induction ns generalizing i with
  | nil => rfl
  | cons n ns ih => rw [addressed, List.map_cons, ih]

/-- The names of a layer have the addresses below that of the layer. -/
theorem mem_mentionsAt {ls : List (List Nat × Layer α)} {q : List Nat} {n : Node α} :
    (q, n) ∈ mentionsAt ls ↔
      ∃ x ∈ ls, ∃ i, x.2.mentions[i]? = some n ∧ q = x.1 ++ [i] := by
  simp only [mentionsAt, List.mem_flatMap, mem_addressed, Nat.zero_add]

/-- Without the addresses the names are those of the layers. -/
theorem map_snd_mentionsAt (ls : List (List Nat × Layer α)) :
    (mentionsAt ls).map Prod.snd = ls.flatMap (·.2.mentions) := by
  rw [mentionsAt, List.map_flatMap]
  exact List.flatMap_congr fun x _ => map_snd_addressed ..

@[simp] theorem mentionsAt_nil : mentionsAt ([] : List (List Nat × Layer α)) = [] := rfl

@[simp] theorem mentionsAt_cons (x : List Nat × Layer α) (ls : List (List Nat × Layer α)) :
    mentionsAt (x :: ls) = addressed x.1 0 x.2.mentions ++ mentionsAt ls := rfl

@[simp] theorem mentionsAt_append (ls ks : List (List Nat × Layer α)) :
    mentionsAt (ls ++ ks) = mentionsAt ls ++ mentionsAt ks :=
  List.flatMap_append

variable [Coordinate α]

/-! ## Layers and formulas -/

mutual

/-- The layers have the addresses of the formulas of the tree, in preorder. -/
theorem map_fst_layersAt (m : Measures α) (path : List Nat) (anchor : Node α) (spacing : α) :
    ∀ (p : Plan) (c : Canvas α) (t : Tree), p.Agrees t →
      (layersAt m path anchor spacing p c).map Prod.fst =
        ((t.located path).filter (·.2.isFormula)).map Prod.fst
  | .closed name reason, c, t, h => by
    rw [Plan.Agrees] at h
    obtain ⟨-, hformula, hchildren⟩ := h
    rw [layersAt, Tree.located_eq, hchildren, Tree.locatedAll, List.filter_cons_of_neg]
    · rfl
    · simp [hformula]
  | .opened name text e inner, c, t, h => by
    rw [Plan.Agrees] at h
    obtain ⟨-, hformula, hvars, hinner⟩ := h
    rw [layersAt, Tree.located_eq, List.filter_cons_of_pos (by exact hformula), List.map_cons,
      List.map_cons]
    congr 1
    refine map_fst_layersAll m path 0 _ _ inner _ _ hinner ?_
    rw [Layer.map_label_mentions_opened, hvars]

/-- The layers opened at several names have the addresses of the formulas in their trees, in the
same order. -/
theorem map_fst_layersAll (m : Measures α) (path : List Nat) (i : Nat) (as : List (Node α))
    (spacing : α) : ∀ (ps : List Plan) (c : Canvas α) (ts : List Tree), Plan.AgreesAll ps ts →
      as.map Node.label = ts.map Tree.name →
      (layersAll m path i as spacing ps c).map Prod.fst =
        ((Tree.locatedAll path i ts).filter (·.2.isFormula)).map Prod.fst
  | [], c, ts, h, _ => by
    rw [Plan.AgreesAll] at h
    rw [h, layersAll, Tree.locatedAll]
    rfl
  | p :: ps, c, ts, h, has => by
    rw [Plan.AgreesAll] at h
    obtain ⟨t, ts, rfl, hp, hps⟩ := h
    cases as with
    | nil => exact nomatch has
    | cons a as =>
      obtain ⟨-, has⟩ := List.cons.inj has
      rw [layersAll, Tree.locatedAll, List.map_append, List.filter_append, List.map_append,
        map_fst_layersAt m _ a spacing p c t hp,
        map_fst_layersAll m path (i + 1) as spacing ps _ ts hps has]

end

/-- An address with the label of the node that has it. -/
def labelled (x : List Nat × Node α) : List Nat × String := (x.1, x.2.label)

/-- An address with the name of the node of a tree that has it. -/
def titled (x : List Nat × Tree) : List Nat × String := (x.1, x.2.name)

mutual

/-- The names drawn with their addresses are those of the tree. -/
theorem perm_located (m : Measures α) (path : List Nat) (anchor : Node α) (spacing : α) :
    ∀ (p : Plan) (c : Canvas α) (t : Tree), p.Agrees t → anchor.label = t.name →
      (((path, anchor) :: mentionsAt (layersAt m path anchor spacing p c)).map labelled).Perm
        ((t.located path).map titled)
  | .closed name reason, c, t, h, ha => by
    rw [Plan.Agrees] at h
    obtain ⟨-, -, hchildren⟩ := h
    rw [layersAt, Tree.located_eq, hchildren, Tree.locatedAll, mentionsAt_nil, List.map_singleton,
      List.map_singleton, labelled, titled, ha]
  | .opened name text e inner, c, t, h, ha => by
    rw [Plan.Agrees] at h
    obtain ⟨-, -, hvars, hinner⟩ := h
    rw [layersAt, Tree.located_eq, mentionsAt_cons, List.map_cons, List.map_cons, labelled, titled,
      ha]
    refine .cons _ (perm_locatedAll m path 0 _ _ inner _ _ hinner ?_)
    rw [Layer.map_label_mentions_opened, hvars]

/-- Several names with what is opened at them have the labels and addresses of the nodes of their
trees. -/
theorem perm_locatedAll (m : Measures α) (path : List Nat) (i : Nat) (as : List (Node α))
    (spacing : α) : ∀ (ps : List Plan) (c : Canvas α) (ts : List Tree), Plan.AgreesAll ps ts →
      as.map Node.label = ts.map Tree.name →
      ((addressed path i as ++ mentionsAt (layersAll m path i as spacing ps c)).map labelled).Perm
        ((Tree.locatedAll path i ts).map titled)
  | [], c, ts, h, has => by
    rw [Plan.AgreesAll] at h
    obtain rfl := h
    obtain rfl := List.map_eq_nil_iff.mp has
    rw [layersAll, Tree.locatedAll]
    exact .nil
  | p :: ps, c, ts, h, has => by
    rw [Plan.AgreesAll] at h
    obtain ⟨t, ts, rfl, hp, hps⟩ := h
    cases as with
    | nil => exact nomatch has
    | cons a as =>
      obtain ⟨ha, has⟩ := List.cons.inj has
      have hfirst := perm_located m (path ++ [i]) a spacing p c t hp ha
      have hrest := perm_locatedAll m path (i + 1) as spacing ps
        (openAt m a spacing p c) ts hps has
      have happend := hfirst.append hrest
      rw [← List.map_append, ← List.map_append] at happend
      rw [layersAll, Tree.locatedAll, mentionsAt_append, addressed]
      refine .trans (.map _ (.cons _ ?_)) happend
      exact List.perm_append_comm_assoc _ _ _

end

/-- An address with the id of the node that has it. -/
def identified (x : List Nat × Node α) : List Nat × String := (x.1, x.2.id)

/-- An address with the id of the node that the layer with it hangs from. -/
def owned (x : List Nat × Layer α) : List Nat × String := (x.1, x.2.owner)

mutual

/-- Every layer hangs from the node with its address. -/
theorem owned_layersAt_subset (m : Measures α) (path : List Nat) (anchor : Node α) (spacing : α) :
    ∀ (p : Plan) (c : Canvas α), (layersAt m path anchor spacing p c).map owned ⊆
      ((path, anchor) :: mentionsAt (layersAt m path anchor spacing p c)).map identified
  | .closed name reason, c => by
    rw [layersAt]
    exact List.nil_subset _
  | .opened name text e inner, c => by
    rw [layersAt, mentionsAt_cons, List.map_cons, List.map_cons]
    refine List.cons_subset.mpr ⟨List.mem_cons_self, ?_⟩
    exact List.subset_cons_of_subset _ (owned_layersAll_subset m path 0 _ _ inner _)

/-- Layers opened at several names hang from nodes drawn at their addresses. -/
theorem owned_layersAll_subset (m : Measures α) (path : List Nat) (i : Nat) (as : List (Node α))
    (spacing : α) : ∀ (ps : List Plan) (c : Canvas α),
      (layersAll m path i as spacing ps c).map owned ⊆
        (addressed path i as ++ mentionsAt (layersAll m path i as spacing ps c)).map identified
  | [], c => by
    rw [layersAll]
    exact List.nil_subset _
  | p :: ps, c => by
    cases as with
    | nil =>
      rw [layersAll]
      exact List.nil_subset _
    | cons a as =>
      have hfirst := owned_layersAt_subset m (path ++ [i]) a spacing p c
      have hrest := owned_layersAll_subset m path (i + 1) as spacing ps (openAt m a spacing p c)
      rw [layersAll, mentionsAt_append, addressed, List.map_append]
      refine List.append_subset.mpr
        ⟨List.Subset.trans hfirst (List.map_subset _ ?_),
          List.Subset.trans hrest (List.map_subset _ ?_)⟩
      · refine List.cons_subset_cons _ ?_
        exact List.subset_append_of_subset_right _ (List.subset_append_left _ _)
      · refine List.append_subset.mpr ⟨?_, ?_⟩
        · exact List.subset_cons_of_subset _ (List.subset_append_left _ _)
        · refine List.subset_cons_of_subset _ (List.subset_append_of_subset_right _ ?_)
          exact List.subset_append_right _ _

end

mutual

/-- The output edges drawn are those to the nodes the layers hang from. -/
theorem outputs_openAt (m : Measures α) (path : List Nat) (anchor : Node α) (spacing : α) :
    ∀ (p : Plan) (c : Canvas α), Edge.outputs (openAt m anchor spacing p c).edges =
      Edge.outputs c.edges ++ (layersAt m path anchor spacing p c).map (·.2.owner)
  | .closed name reason, c => by
    rw [openAt_closed, layersAt, List.map_nil, List.append_nil]
  | .opened name text e inner, c => by
    rw [openAt_opened, outputs_openAll m path 0 _ _ inner, layersAt, List.map_cons, Layer.onto]
    change Edge.outputs (Layer.openedWalk anchor.id e c).edges ++ _ = _
    rw [Layer.outputs_openedWalk, List.append_assoc]
    rfl

/-- Opening several formulas adds one output edge for each layer, to the node that it hangs from. -/
theorem outputs_openAll (m : Measures α) (path : List Nat) (i : Nat) (as : List (Node α))
    (spacing : α) : ∀ (ps : List Plan) (c : Canvas α),
      Edge.outputs (openAll m as spacing ps c).edges =
        Edge.outputs c.edges ++ (layersAll m path i as spacing ps c).map (·.2.owner)
  | [], c => by rw [openAll_nil, layersAll, List.map_nil, List.append_nil]
  | p :: ps, c => by
    cases as with
    | nil => rw [openAll_no_anchors, layersAll, List.map_nil, List.append_nil]
    | cons a as =>
      rw [openAll_cons, outputs_openAll m path (i + 1) as spacing ps,
        outputs_openAt m (path ++ [i]) a spacing p, layersAll, List.map_append,
        List.append_assoc]

end

end FormulaBook.Layout
