import FormulaBook.Proofs.Mentions
import FormulaBook.Proofs.RoundTrip
import FormulaBook.Proofs.WellFormed

/-!
# A drawing determines its formula

The tree of a formula can be read back from the nodes and edges drawn for it, although a name or a
constant is one node however often it occurs. `Graph.Reads` says which tree a node stands for: an
operator with two operands is binary and with one a sign, the operands come in the order of their
edges, and a node for a constant begins its id otherwise than its label. A node stands for one tree
at most (`Graph.Reads.unique`), and the root that a walk arrives at stands for the tree it went
through (`Graph.reads_through`). So formulas with equal drawings have equal trees
(`Layout.expr_eq_of_of_eq`).
-/

namespace FormulaBook

open Text

/-! ## Labels and ids -/

/-- Different operators have different labels. -/
theorem BinaryOp.label_injective : Function.Injective BinaryOp.label := by
  intro op op' h
  cases op <;> cases op' <;> first | rfl | exact absurd h (by decide)

/-- Different signs have different labels. -/
theorem Sign.label_injective : Function.Injective Sign.label := by
  intro s s' h
  cases s <;> cases s' <;> first | rfl | exact absurd h (by decide)

/-- An id begins as the text it is asked for by. -/
theorem Ids.head?_claimNode (ids : Ids) {base : String} (h : base.toList ≠ []) :
    (ids.claimNode base).1.toList.head? = base.toList.head? := by
  have hnumbered (n : Nat) : (numbered base n).toList.head? = base.toList.head? := by
    rw [numbered, String.toList_append, String.toList_append, List.append_assoc,
      List.head?_append_of_ne_nil _ h]
  change (claim ids.nodes ids.counter base).1.toList.head? = _
  unfold claim
  split
  · exact hnumbered _
  · rfl

/-- A number without a sign is written with a digit, a point or the letter I in front. -/
theorem Binary64.head?_plain {x : Binary64} (hx : x.IsUnsigned) :
    x.plain.toList.head? ≠ some 'c' := by
  cases x with
  | nan => exact hx.elim
  | infinity negative =>
    cases (hx : negative = false)
    decide
  | finite negative n h =>
    cases (hx : negative = false)
    have htext : (Binary64.finite false n h).plain.toList = (Decimal.shortest n).plain := by
      rw [Binary64.plain, Binary64.signText, String.toList_ofList]
      rfl
    rw [htext]
    intro hc
    rcases Decimal.mem_plain (List.mem_of_mem_head? hc) with hc | hc <;> exact absurd hc (by decide)

/-- The leaf that a node stands for, if it is no operator. The id of a constant begins with other
letters than its label, and that of a name with the same. -/
def Node.leaf? {α : Type} (n : Node α) : Option Leaf :=
  match n.kind with
  | .operation => none
  | .result => some (.name n.label)
  | .quantity =>
    if n.id.toList.head? = n.label.toList.head? then some (.name n.label)
    else some (.constant n.label)

/-- The leaves of formulas: names, and numbers without a sign. -/
def Leaf.IsValid : Leaf → Prop
  | .name s => IsName s
  | .constant text => ∃ x : Binary64, x.IsUnsigned ∧ x.plain = text

/-- The id that is claimed for a leaf tells a name from a constant. -/
theorem Leaf.IsValid.leaf?_eq {l : Leaf} (hl : l.IsValid) (ids : Ids) :
    (if (ids.claimNode (Walk.under none l.base)).1.toList.head? = l.text.toList.head? then
      some (Leaf.name l.text) else some (Leaf.constant l.text)) = some l := by
  cases l with
  | name s =>
    obtain ⟨c, cs, hs, -⟩ := hl
    exact if_pos (Ids.head?_claimNode ids (by simp [Leaf.base, Walk.under, hs]))
  | constant text =>
    obtain ⟨x, hx, rfl⟩ := hl
    refine if_neg ?_
    rw [Ids.head?_claimNode ids (by simp [Leaf.base, Walk.under])]
    have hbase : (Walk.under none (Leaf.constant x.plain).base).toList.head? = some 'c' := by
      simp [Leaf.base, Walk.under]
    rw [hbase]
    exact (Binary64.head?_plain hx).symm

/-! ## Reading a graph -/

/-- The nodes that an operator is applied to, in the order of the edges. -/
def Edge.operandsOf (edges : List Edge) (id : String) : List String :=
  (edges.filter fun e => e.kind = .input ∧ e.target = id).map Edge.source

/-- The operands drawn by more edges come behind those drawn before. -/
theorem Edge.operandsOf_append (es es' : List Edge) (id : String) :
    operandsOf (es ++ es') id = operandsOf es id ++ operandsOf es' id := by
  simp [operandsOf]

namespace Graph

variable {α : Type}

/-- The node with this id stands for the leaf. -/
def ReadsLeaf (g : Graph α) (id : String) (l : Leaf) : Prop :=
  ∃ n ∈ g.nodes, n.id = id ∧ n.leaf? = some l

/-- The node with this id is an operator with this label and these operands. -/
def ReadsOperator (g : Graph α) (id label : String) (operands : List String) : Prop :=
  (∃ n ∈ g.nodes, n.id = id ∧ n.kind = .operation ∧ n.label = label) ∧
    Edge.operandsOf g.edges id = operands

/-- The node with this id stands for the tree. -/
inductive Reads (g : Graph α) : String → Expr → Prop
  | number {id x} : x.IsUnsigned → g.ReadsLeaf id (.constant x.plain) → Reads g id (.number x)
  | identifier {id s} : g.ReadsLeaf id (.name s) → Reads g id (.identifier s)
  | binary {id op l r left right} : g.ReadsOperator id op.label [l, r] → Reads g l left →
      Reads g r right → Reads g id (.binary op left right)
  | signed {id sign o operand} : g.ReadsOperator id sign.label [o] → Reads g o operand →
      Reads g id (.signed sign operand)

/-- Nodes that are told apart by their ids. -/
theorem eq_of_id_eq {g : Graph α} (hg : (g.nodes.map Node.id).Nodup) {n k : Node α}
    (hn : n ∈ g.nodes) (hk : k ∈ g.nodes) (h : n.id = k.id) : n = k :=
  List.inj_on_of_nodup_map hg hn hk h

section

variable {g : Graph α} (hg : (g.nodes.map Node.id).Nodup) {id : String}
include hg

/-- A node stands for one leaf at most. -/
theorem ReadsLeaf.unique {l l' : Leaf} (h : g.ReadsLeaf id l) (h' : g.ReadsLeaf id l') :
    l = l' := by
  obtain ⟨n, hn, rfl, hl⟩ := h
  obtain ⟨k, hk, hid, hl'⟩ := h'
  obtain rfl := eq_of_id_eq hg hk hn hid
  exact Option.some.inj (hl.symm.trans hl')

/-- A node has one label and one list of operands at most. -/
theorem ReadsOperator.unique {label label' : String} {os os' : List String}
    (h : g.ReadsOperator id label os) (h' : g.ReadsOperator id label' os') :
    label = label' ∧ os = os' := by
  obtain ⟨⟨n, hn, rfl, -, rfl⟩, hos⟩ := h
  obtain ⟨⟨k, hk, hid, -, rfl⟩, hos'⟩ := h'
  obtain rfl := eq_of_id_eq hg hk hn hid
  exact ⟨rfl, hos.symm.trans hos'⟩

/-- A leaf is no operator. -/
theorem ReadsLeaf.not_readsOperator {l : Leaf} {label : String} {os : List String}
    (h : g.ReadsLeaf id l) : ¬ g.ReadsOperator id label os := by
  rintro ⟨⟨k, hk, hid, hkind, -⟩, -⟩
  obtain ⟨n, hn, rfl, hl⟩ := h
  obtain rfl := eq_of_id_eq hg hk hn hid
  rw [Node.leaf?, hkind] at hl
  cases hl

/-- A node stands for at most one tree. -/
theorem Reads.unique {e e' : Expr} (h : g.Reads id e) (h' : g.Reads id e') : e = e' := by
  induction h generalizing e' with
  | number hx hl =>
    cases h' with
    | number hx' hl' =>
      have htext := Leaf.constant.inj (hl.unique hg hl')
      rw [Binary64.plain_inj hx hx' htext]
    | identifier hl' => cases hl.unique hg hl'
    | binary ho' | signed ho' => exact absurd ho' (hl.not_readsOperator hg)
  | identifier hl =>
    cases h' with
    | number hx' hl' => cases hl.unique hg hl'
    | identifier hl' => rw [Leaf.name.inj (hl.unique hg hl')]
    | binary ho' | signed ho' => exact absurd ho' (hl.not_readsOperator hg)
  | binary ho _ _ ihl ihr =>
    cases h' with
    | number hx' hl' => exact absurd ho (hl'.not_readsOperator hg)
    | identifier hl' => exact absurd ho (hl'.not_readsOperator hg)
    | binary ho' hleft' hright' =>
      obtain ⟨hlabel, hos⟩ := ho.unique hg ho'
      cases hos
      rw [BinaryOp.label_injective hlabel, ihl hleft', ihr hright']
    | signed ho' => cases (ho.unique hg ho').2
  | signed ho _ ih =>
    cases h' with
    | number hx' hl' => exact absurd ho (hl'.not_readsOperator hg)
    | identifier hl' => exact absurd ho (hl'.not_readsOperator hg)
    | binary ho' => cases (ho.unique hg ho').2
    | signed ho' hoperand' =>
      obtain ⟨hlabel, hos⟩ := ho.unique hg ho'
      cases hos
      rw [Sign.label_injective hlabel, ih hoperand']

end

end Graph

/-! ## What a walk adds -/

namespace Walk

variable {w : Walk}

/-- The edges lead to nodes that are drawn. -/
def EdgesDrawn (w : Walk) : Prop := ∀ e ∈ w.edges, e.target ∈ w.ids.nodes

/-- A node that is not drawn has no operands. -/
theorem operandsOf_of_not_mem (hw : w.EdgesDrawn) {id : String} (hid : id ∉ w.ids.nodes) :
    Edge.operandsOf w.edges id = [] := by
  rw [Edge.operandsOf, List.map_eq_nil_iff, List.filter_eq_nil_iff]
  intro e he hin
  have htarget : e.target = id := (of_decide_eq_true hin).2
  exact hid (htarget ▸ hw e he)

/-- An edge gives its target one more operand. -/
theorem operandsOf_connect_self (w : Walk) (source target : String) :
    Edge.operandsOf (w.connect source target .input).edges target =
      Edge.operandsOf w.edges target ++ [source] := by
  rw [connect_eq, Edge.operandsOf_append]
  congr 1
  simp [Edge.operandsOf]

/-- An edge to another node is no operand of this one. -/
theorem operandsOf_connect_of_ne (w : Walk) (source : String) {target id : String}
    (h : target ≠ id) :
    Edge.operandsOf (w.connect source target .input).edges id = Edge.operandsOf w.edges id := by
  rw [connect_eq, Edge.operandsOf_append]
  simp [Edge.operandsOf, h]

/-- Walking to a leaf draws no edge. -/
theorem edges_leaf (w : Walk) (anchor : Option String) (l : Leaf) (row : Nat) :
    (w.leaf anchor l row).2.edges = w.edges := by
  cases hl : w.leaves.lookup l with
  | some id => rw [leaf_of_lookup hl]
  | none => rw [leaf_of_new hl]

variable {anchor : Option String} {w' : Walk}

/-- What is placed stays placed in a step of the walk. -/
theorem Step.mem_placed (h : Step anchor w w') {p : Placed} (hp : p ∈ w.placed) :
    p ∈ w'.placed := by
  cases h with
  | leaf row hnew =>
    rw [leaf_of_new hnew]
    exact List.mem_append_left _ hp
  | operator label row => exact List.mem_append_left _ hp
  | connect hs ht hne => exact hp

/-- After a step of the walk the edges lead to drawn nodes as before. -/
theorem Step.edgesDrawn (h : Step anchor w w') (hw : w.EdgesDrawn) : w'.EdgesDrawn := by
  cases h with
  | leaf row hnew =>
    rw [leaf_of_new hnew]
    exact fun e he => List.mem_cons_of_mem _ (hw e he)
  | operator label row => exact fun e he => List.mem_cons_of_mem _ (hw e he)
  | connect hs ht hne =>
    intro e he
    rcases List.mem_append.mp he with he | he
    · exact hw e he
    · rw [List.mem_singleton.mp he]
      exact ht

/-- What is placed stays placed. -/
theorem Steps.mem_placed (h : Steps anchor w w') {p : Placed} (hp : p ∈ w.placed) :
    p ∈ w'.placed :=
  h.preserves (fun hstep => hstep.mem_placed) hp

/-- After any steps the edges lead to drawn nodes as before. -/
theorem Steps.edgesDrawn (h : Steps anchor w w') (hw : w.EdgesDrawn) : w'.EdgesDrawn :=
  h.preserves (fun hstep => hstep.edgesDrawn) hw

section

/-! The operands that the walk through an operation leaves behind: its two last steps give the
operator what it is applied to, and the other nodes nothing. -/

variable (anchor : Option String) (op : BinaryOp) (sign : Sign) (left right operand : Expr)
  (row : Nat) (w : Walk)

/-- A binary operator has the nodes of its two operands as operands, the left one first. -/
theorem operandsOf_binary_self :
    let o := w.operator anchor op.label row
    let l := through anchor left (row + 1) o.2
    let r := through anchor right (row + 1) l.2
    Edge.operandsOf (through anchor (.binary op left right) row w).2.edges o.1 =
      Edge.operandsOf r.2.edges o.1 ++ [l.1, r.1] := by
  intro o l r
  rw [through_binary]
  dsimp only
  rw [operandsOf_connect_self, operandsOf_connect_self, List.append_assoc]
  rfl

/-- The edges to a binary operator are no operands of any other node. -/
theorem operandsOf_binary_of_ne {id : String} (h : (w.operator anchor op.label row).1 ≠ id) :
    Edge.operandsOf (through anchor (.binary op left right) row w).2.edges id =
      Edge.operandsOf (through anchor right (row + 1)
        (through anchor left (row + 1) (w.operator anchor op.label row).2).2).2.edges id := by
  rw [through_binary]
  dsimp only
  rw [operandsOf_connect_of_ne _ _ h, operandsOf_connect_of_ne _ _ h]

/-- A sign has the node of its operand as its only operand. -/
theorem operandsOf_signed_self :
    let o := w.operator anchor sign.label row
    let x := through anchor operand (row + 1) o.2
    Edge.operandsOf (through anchor (.signed sign operand) row w).2.edges o.1 =
      Edge.operandsOf x.2.edges o.1 ++ [x.1] := by
  intro o x
  rw [through_signed]
  dsimp only
  rw [operandsOf_connect_self]

/-- The edge to a sign is no operand of any other node. -/
theorem operandsOf_signed_of_ne {id : String} (h : (w.operator anchor sign.label row).1 ≠ id) :
    Edge.operandsOf (through anchor (.signed sign operand) row w).2.edges id =
      Edge.operandsOf
        (through anchor operand (row + 1) (w.operator anchor sign.label row).2).2.edges id := by
  rw [through_signed]
  dsimp only
  rw [operandsOf_connect_of_ne _ _ h]

end

/-- A walk gives no operands to a node that is drawn before it. -/
theorem operandsOf_through (anchor : Option String) (e : Expr) (row : Nat) (w : Walk)
    (hw : w.LeavesDrawn) {id : String} (hid : id ∈ w.ids.nodes) :
    Edge.operandsOf (through anchor e row w).2.edges id = Edge.operandsOf w.edges id := by
  induction e generalizing row w with
  | number x => rw [through, edges_leaf]
  | identifier name => rw [through, edges_leaf]
  | binary op left right ihl ihr =>
    have hop : Step anchor w (w.operator anchor op.label row).2 := .operator w op.label row
    have hwo := hop.leavesDrawn hw
    have hl := arrives_through anchor left (row + 1) _ hwo
    have hwl := hl.steps.leavesDrawn hwo
    have hido := hop.mem_nodes hid
    have hne : (w.operator anchor op.label row).1 ≠ id := fun heq =>
      Ids.claimNode_not_mem w.ids _ (heq ▸ hid)
    rw [operandsOf_binary_of_ne _ _ _ _ _ _ hne,
      ihr (row + 1) _ hwl (hl.steps.mem_nodes hido), ihl (row + 1) _ hwo hido]
    rfl
  | signed sign operand ih =>
    have hop : Step anchor w (w.operator anchor sign.label row).2 := .operator w sign.label row
    have hne : (w.operator anchor sign.label row).1 ≠ id := fun heq =>
      Ids.claimNode_not_mem w.ids _ (heq ▸ hid)
    rw [operandsOf_signed_of_ne _ _ _ _ _ hne,
      ih (row + 1) _ (hop.leavesDrawn hw) (hop.mem_nodes hid)]
    rfl

end Walk

namespace Graph

variable {α : Type} {g : Graph α}

/-- The graph has the nodes placed until `w'`, and those placed since `w` have the same operands
in it. -/
structure Covers (g : Graph α) (w w' : Walk) : Prop where
  placed : ∀ p ∈ w'.placed, ∃ n ∈ g.nodes, Layout.Shows p n
  operands : ∀ id ∈ w'.ids.nodes, id ∉ w.ids.nodes →
    Edge.operandsOf g.edges id = Edge.operandsOf w'.edges id

/-- The leaves known in a walk are those that their nodes stand for. -/
def Knows (g : Graph α) (w : Walk) : Prop :=
  ∀ l id, w.leaves.lookup l = some id → g.ReadsLeaf id l

/-- What covers a walk covers a part of it after which the operands of its nodes do not change. -/
theorem Covers.part {w w' u u' : Walk} (hg : g.Covers w w')
    (hstart : ∀ id ∈ w.ids.nodes, id ∈ u.ids.nodes) (hplaced : ∀ p ∈ u'.placed, p ∈ w'.placed)
    (hend : ∀ id ∈ u'.ids.nodes, id ∈ w'.ids.nodes)
    (hoperands : ∀ id ∈ u'.ids.nodes, id ∉ u.ids.nodes →
      Edge.operandsOf w'.edges id = Edge.operandsOf u'.edges id) : g.Covers u u' where
  placed p hp := hg.placed p (hplaced p hp)
  operands id hid hnew :=
    (hg.operands id (hend id hid) (mt (hstart id) hnew)).trans (hoperands id hid hnew)

/-- An operator that is placed has the operands drawn for it since. -/
theorem Covers.readsOperator {w w' : Walk} {label : String} {row : Nat} (hg : g.Covers w w')
    (hplaced : ∀ p ∈ (w.operator none label row).2.placed, p ∈ w'.placed)
    (hmem : (w.operator none label row).1 ∈ w'.ids.nodes) :
    g.ReadsOperator (w.operator none label row).1 label
      (Edge.operandsOf w'.edges (w.operator none label row).1) := by
  rw [Walk.operator_eq] at hplaced hmem ⊢
  obtain ⟨n, hn, hid, hlabel, hkind⟩ :=
    hg.placed _ (hplaced _ (List.mem_append_right _ List.mem_cons_self))
  exact ⟨⟨n, hn, hid, hkind, hlabel⟩, hg.operands _ hmem (Ids.claimNode_not_mem _ _)⟩

section

/-! The walk through an operation: what covers it covers the walks through its operands, and the
operator has the operands that it is given behind these walks. -/

variable {w : Walk} {op : BinaryOp} {sign : Sign} {left right operand : Expr} {row : Nat}

/-- A graph that covers the walk through an operation covers the one through its left operand. -/
theorem Covers.through_left (hw : w.LeavesDrawn)
    (hg : g.Covers w (Walk.through none (.binary op left right) row w).2) :
    g.Covers (w.operator none op.label row).2
      (Walk.through none left (row + 1) (w.operator none op.label row).2).2 := by
  have hop : Walk.Step none w (w.operator none op.label row).2 := .operator w op.label row
  have hwo := hop.leavesDrawn hw
  have hl := Walk.arrives_through none left (row + 1) _ hwo
  have hwl := hl.steps.leavesDrawn hwo
  have hr := Walk.arrives_through none right (row + 1) _ hwl
  refine hg.part (fun id hid => hop.mem_nodes hid) (fun p hp => hr.steps.mem_placed hp)
    (fun id hid => hr.steps.mem_nodes hid) fun id hid hold => ?_
  have hne : (w.operator none op.label row).1 ≠ id := fun heq => hold (heq ▸ List.mem_cons_self)
  rw [Walk.operandsOf_binary_of_ne _ _ _ _ _ _ hne,
    Walk.operandsOf_through none right (row + 1) _ hwl hid]

/-- A graph that covers the walk through an operation covers the one through its right operand. -/
theorem Covers.through_right (hw : w.LeavesDrawn)
    (hg : g.Covers w (Walk.through none (.binary op left right) row w).2) :
    g.Covers (Walk.through none left (row + 1) (w.operator none op.label row).2).2
      (Walk.through none right (row + 1)
        (Walk.through none left (row + 1) (w.operator none op.label row).2).2).2 := by
  have hop : Walk.Step none w (w.operator none op.label row).2 := .operator w op.label row
  have hl := Walk.arrives_through none left (row + 1) _ (hop.leavesDrawn hw)
  refine hg.part (fun id hid => hl.steps.mem_nodes (hop.mem_nodes hid)) (fun p hp => hp)
    (fun id hid => hid) fun id hid hold => ?_
  have hne : (w.operator none op.label row).1 ≠ id := fun heq =>
    hold (heq ▸ hl.steps.mem_nodes List.mem_cons_self)
  exact Walk.operandsOf_binary_of_ne _ _ _ _ _ _ hne

/-- A graph that covers the walk through a signed formula covers the one through its operand. -/
theorem Covers.through_operand
    (hg : g.Covers w (Walk.through none (.signed sign operand) row w).2) :
    g.Covers (w.operator none sign.label row).2
      (Walk.through none operand (row + 1) (w.operator none sign.label row).2).2 := by
  have hop : Walk.Step none w (w.operator none sign.label row).2 := .operator w sign.label row
  refine hg.part (fun id hid => hop.mem_nodes hid) (fun p hp => hp) (fun id hid => hid)
    fun id hid hold => ?_
  have hne : (w.operator none sign.label row).1 ≠ id := fun heq => hold (heq ▸ List.mem_cons_self)
  exact Walk.operandsOf_signed_of_ne _ _ _ _ _ hne

/-- In a graph that covers the walk, a binary operator is read with the nodes of its operands. -/
theorem Covers.readsOperator_binary (hw : w.LeavesDrawn) (hedges : w.EdgesDrawn)
    (hg : g.Covers w (Walk.through none (.binary op left right) row w).2) :
    let o := w.operator none op.label row
    let l := Walk.through none left (row + 1) o.2
    let r := Walk.through none right (row + 1) l.2
    g.ReadsOperator o.1 op.label [l.1, r.1] := by
  intro o l r
  have hwo : o.2.LeavesDrawn := (Walk.Step.operator w op.label row).leavesDrawn hw
  have hl := Walk.arrives_through none left (row + 1) _ hwo
  have hwl := hl.steps.leavesDrawn hwo
  have hr := Walk.arrives_through none right (row + 1) _ hwl
  have hmem : o.1 ∈ o.2.ids.nodes := List.mem_cons_self
  have hnone : Edge.operandsOf o.2.edges o.1 = [] :=
    Walk.operandsOf_of_not_mem hedges (Ids.claimNode_not_mem _ _)
  have hoperands : Edge.operandsOf (Walk.through none (.binary op left right) row w).2.edges o.1 =
      [l.1, r.1] := by
    rw [Walk.operandsOf_binary_self,
      Walk.operandsOf_through none right (row + 1) _ hwl (hl.steps.mem_nodes hmem),
      Walk.operandsOf_through none left (row + 1) _ hwo hmem, hnone]
    rfl
  rw [← hoperands]
  exact hg.readsOperator (fun p hp => hr.steps.mem_placed (hl.steps.mem_placed hp))
    (hr.steps.mem_nodes (hl.steps.mem_nodes hmem))

/-- In a graph that covers the walk, a sign is read with the node of its operand. -/
theorem Covers.readsOperator_signed (hw : w.LeavesDrawn) (hedges : w.EdgesDrawn)
    (hg : g.Covers w (Walk.through none (.signed sign operand) row w).2) :
    let o := w.operator none sign.label row
    g.ReadsOperator o.1 sign.label [(Walk.through none operand (row + 1) o.2).1] := by
  intro o
  have hwo : o.2.LeavesDrawn := (Walk.Step.operator w sign.label row).leavesDrawn hw
  have hx := Walk.arrives_through none operand (row + 1) _ hwo
  have hmem : o.1 ∈ o.2.ids.nodes := List.mem_cons_self
  have hnone : Edge.operandsOf o.2.edges o.1 = [] :=
    Walk.operandsOf_of_not_mem hedges (Ids.claimNode_not_mem _ _)
  have hoperands : Edge.operandsOf (Walk.through none (.signed sign operand) row w).2.edges o.1 =
      [(Walk.through none operand (row + 1) o.2).1] := by
    rw [Walk.operandsOf_signed_self, Walk.operandsOf_through none operand (row + 1) _ hwo hmem,
      hnone]
    rfl
  rw [← hoperands]
  exact hg.readsOperator (fun p hp => hx.steps.mem_placed hp) (hx.steps.mem_nodes hmem)

end

/-- The node of a leaf stands for it. -/
theorem readsLeaf_leaf {w : Walk} {l : Leaf} {row : Nat} (hl : l.IsValid) (hk : g.Knows w)
    (hplaced : ∀ p ∈ (w.leaf none l row).2.placed, ∃ n ∈ g.nodes, Layout.Shows p n) :
    g.ReadsLeaf (w.leaf none l row).1 l ∧ g.Knows (w.leaf none l row).2 := by
  cases hlookup : w.leaves.lookup l with
  | some id =>
    rw [Walk.leaf_of_lookup hlookup]
    exact ⟨hk l id hlookup, hk⟩
  | none =>
    rw [Walk.leaf_of_new hlookup] at hplaced ⊢
    obtain ⟨n, hn, hid, hlabel, hkind⟩ := hplaced _ (List.mem_append_right _ List.mem_cons_self)
    have hreads : g.ReadsLeaf (w.ids.claimNode (Walk.under none l.base)).1 l := by
      refine ⟨n, hn, hid, ?_⟩
      rw [Node.leaf?, hkind, hid, hlabel]
      exact hl.leaf?_eq w.ids
    -- the leaf just placed is the only one that was not known before
    refine ⟨hreads, fun l' id' hlookup' => ?_⟩
    rw [List.lookup_cons] at hlookup'
    split at hlookup'
    · rename_i heq
      obtain rfl := beq_iff_eq.mp heq
      rwa [← Option.some.inj hlookup']
    · exact hk l' id' hlookup'

/-- The root of the walk through a tree stands for the tree, in a graph that has what the walk
draws. -/
theorem reads_through {e : Expr} (hx : ∀ x ∈ e.numbers, x.IsUnsigned)
    (hs : ∀ s ∈ e.identifiers, IsName s) (row : Nat) (w : Walk) (hw : w.LeavesDrawn)
    (hedges : w.EdgesDrawn) (hk : g.Knows w) (hg : g.Covers w (Walk.through none e row w).2) :
    g.Reads (Walk.through none e row w).1 e ∧ g.Knows (Walk.through none e row w).2 := by
  -- the second part is for the next operand: it may have leaves in common with this one
  induction e generalizing row w with
  | number x =>
    have hx := hx x (List.mem_singleton_self x)
    have hvalid : (Leaf.constant x.plain).IsValid := ⟨x, hx, rfl⟩
    exact (readsLeaf_leaf hvalid hk hg.placed).imp_left (.number hx)
  | identifier name =>
    have hvalid : (Leaf.name name).IsValid := hs name (List.mem_singleton_self name)
    exact (readsLeaf_leaf hvalid hk hg.placed).imp_left .identifier
  | binary op left right ihl ihr =>
    simp only [Expr.numbers, Expr.identifiers, List.mem_append, or_imp, forall_and] at hx hs
    have hop : Walk.Step none w (w.operator none op.label row).2 := .operator w op.label row
    have hwo := hop.leavesDrawn hw
    have heo := hop.edgesDrawn hedges
    have hl := Walk.arrives_through none left (row + 1) _ hwo
    obtain ⟨hleft, hkl⟩ := ihl hx.1 hs.1 (row + 1) _ hwo heo hk (hg.through_left hw)
    obtain ⟨hright, hkr⟩ := ihr hx.2 hs.2 (row + 1) _ (hl.steps.leavesDrawn hwo)
      (hl.steps.edgesDrawn heo) hkl (hg.through_right hw)
    exact ⟨.binary (hg.readsOperator_binary hw hedges) hleft hright, hkr⟩
  | signed sign operand ih =>
    have hop : Walk.Step none w (w.operator none sign.label row).2 := .operator w sign.label row
    obtain ⟨hoperand, hko⟩ := ih hx hs (row + 1) _ (hop.leavesDrawn hw) (hop.edgesDrawn hedges) hk
      hg.through_operand
    exact ⟨.signed (hg.readsOperator_signed hw hedges) hoperand, hko⟩

/-- The node that the first output edge leads from, and the result node if there is none. -/
def top (g : Graph α) (result : String) : String :=
  ((g.edges.find? (·.kind = .output)).map Edge.source).getD result

end Graph

namespace Layer

variable {α : Type} {c : Canvas α} {name result : String} {e : Expr}

/-! ## The walk through the formula drawn -/

/-- The edge to the result node places nothing. -/
theorem placed_fullWalk (name result : String) (e : Expr) (c : Canvas α) :
    (fullWalk name result e c).placed =
      (Walk.through none e 1 (.start c.ids [(.name name, result)] c.edges)).2.placed := by
  unfold fullWalk
  dsimp only
  split <;> rfl

/-- The edge to the result node is no operand. -/
theorem operandsOf_fullWalk (name result : String) (e : Expr) (c : Canvas α) (id : String) :
    Edge.operandsOf (fullWalk name result e c).edges id =
      Edge.operandsOf
        (Walk.through none e 1 (.start c.ids [(.name name, result)] c.edges)).2.edges id := by
  unfold fullWalk
  dsimp only
  split
  · rfl
  · rw [Walk.connect_eq, Edge.operandsOf_append]
    exact List.append_nil _

/-- At the start only the formula drawn is known, and its node is drawn. -/
theorem leavesDrawn_start (name : String) (hr : result ∈ c.ids.nodes) :
    (Walk.start c.ids [(.name name, result)] c.edges).LeavesDrawn := by
  intro p hp
  rw [List.mem_singleton.mp hp]
  exact hr

/-- The root of the formula is found by the edge to the result node, or it is the result node. -/
theorem top_fullWalk (nodes : List (Node α)) (hr : result ∈ c.ids.nodes)
    (houtputs : Edge.outputs c.edges = []) :
    (⟨nodes, (fullWalk name result e c).edges⟩ : Graph α).top result =
      (Walk.through none e 1 (.start c.ids [(.name name, result)] c.edges)).1 := by
  have hsteps := (Walk.arrives_through none e 1 _ (leavesDrawn_start name hr)).steps
  have hnone := hsteps.outputs.trans houtputs
  rw [Edge.outputs, List.map_eq_nil_iff, List.filter_eq_nil_iff] at hnone
  have hfind := List.find?_eq_none.mpr hnone
  unfold fullWalk
  dsimp only
  split
  · rename_i hroot
    simp [Graph.top, hfind, hroot]
  · simp [Graph.top, Walk.connect_eq, List.find?_append, hfind]

end Layer

namespace Layout

variable {α : Type}

/-- A node placed is among the nodes settled. -/
theorem exists_of_shows {placed : List Placed} {nodes : List (Node α)}
    (h : List.Forall₂ Shows placed nodes) {p : Placed} (hp : p ∈ placed) :
    ∃ n ∈ nodes, Shows p n := by
  induction h with
  | nil => exact absurd hp List.not_mem_nil
  | @cons q n _ _ hqn _ ih =>
    rcases List.mem_cons.mp hp with rfl | hp
    · exact ⟨n, List.mem_cons_self, hqn⟩
    · obtain ⟨k, hk, hpk⟩ := ih hp
      exact ⟨k, List.mem_cons_of_mem _ hk, hpk⟩

variable [Coordinate α]

/-- Plans that open nothing leave the canvas. -/
theorem openAll_closed (m : Measures α) (as : List (Node α)) (spacing : α) {ps : List Plan}
    (h : ∀ p ∈ ps, ∃ name reason, p = .closed name reason) (c : Canvas α) :
    openAll m as spacing ps c = c := by
  induction ps generalizing as c with
  | nil => exact openAll_nil ..
  | cons p ps ih =>
    cases as with
    | nil => exact openAll_no_anchors ..
    | cons a as =>
      obtain ⟨name, reason, rfl⟩ := h p List.mem_cons_self
      rw [openAll_cons, openAt_closed]
      exact ih as (fun p hp => h p (List.mem_cons_of_mem _ hp)) c

/-- With nothing opened, a formula is drawn as its result node and the layer of its tree. -/
theorem draw_full_closed (m : Measures α) (name text : String) (e : Expr) {parts : List Plan}
    (h : ∀ p ∈ parts, ∃ name reason, p = .closed name reason) :
    let l := Layer.full m name (resultNode m name).id e (firstCanvas m name)
    draw m name (.full text e parts) = ⟨resultNode m name :: l.nodes, l.walk.edges⟩ := by
  rw [draw_full]
  dsimp only
  rw [drawFull_eq, openAll_closed m _ _ h]
  rfl

/-- With nothing opened, the drawing of a formula shows its tree. -/
theorem reads_draw_full (m : Measures α) (name : String) {text : String} {e : Expr}
    {parts : List Plan} (hx : ∀ x ∈ e.numbers, x.IsUnsigned) (hs : ∀ s ∈ e.identifiers, IsName s)
    (hparts : ∀ p ∈ parts, ∃ name reason, p = .closed name reason) :
    (draw m name (.full text e parts)).Reads
      ((draw m name (.full text e parts)).top (resultNode m name).id) e := by
  have hr : (resultNode m name).id ∈ (firstCanvas m name).ids.nodes := List.mem_cons_self
  have hleaves := Layer.leavesDrawn_start name hr
  let l := Layer.full m name (resultNode m name).id e (firstCanvas m name)
  let g : Graph α := ⟨resultNode m name :: l.nodes, l.walk.edges⟩
  have htop : g.top (resultNode m name).id = _ := Layer.top_fullWalk g.nodes hr rfl
  rw [draw_full_closed m name text e hparts]
  change g.Reads (g.top (resultNode m name).id) e
  rw [htop]
  refine (Graph.reads_through hx hs 1 _ hleaves (fun e he => absurd he List.not_mem_nil) ?_ ?_).1
  · -- the name of the formula stands for itself by the result node
    intro leaf id hlookup
    rw [Walk.start, List.lookup_cons] at hlookup
    split at hlookup
    · rename_i heq
      obtain rfl := beq_iff_eq.mp heq
      exact ⟨resultNode m name, List.mem_cons_self, Option.some.inj hlookup, rfl⟩
    · cases hlookup
  · refine ⟨fun p hp => ?_, fun id _ _ => Layer.operandsOf_fullWalk name _ e _ id⟩
    rw [← Layer.placed_fullWalk] at hp
    obtain ⟨n, hn, hpn⟩ := exists_of_shows l.shows hp
    exact ⟨n, List.mem_cons_of_mem _ hn, hpn⟩

/-- The drawing of the only formula of a book, with nothing selected, opens no formula in it. -/
theorem of_single_closed (m : Measures α) (name : String) {text : String} {e : Expr}
    (hf : Book.isFormula text = true) (he : Expr.parse text = .ok e) :
    ∃ parts, of (.ofList [(name, text)]) m [] name = draw m name (.full text e parts) ∧
      ∀ p ∈ parts, ∃ name reason, p = .closed name reason := by
  have hformula : (Book.ofList [(name, text)]).formula? name = some text := by
    simp [Book.ofList, Book.insert, Book.formula?, Book.get?, Book.empty, Keyed.put, hf]
  refine ⟨(e.vars.filter (· != name)).map fun v => .closed v .unselected, ?_, fun p hp => ?_⟩
  · rw [of]
    simp only [Scheme.of, hformula, he]
    rfl
  · obtain ⟨v, -, rfl⟩ := List.mem_map.mp hp
    exact ⟨v, .unselected, rfl⟩

/-- The drawing of the only formula of a book shows its tree, and no two nodes of it have one
id. -/
theorem reads_of_single (m : Measures α) (name : String) {text : String} {e : Expr}
    (hf : Book.isFormula text = true) (he : Expr.parse text = .ok e) :
    let g := of (.ofList [(name, text)]) m [] name
    g.Reads (g.top (resultNode m name).id) e ∧ (g.nodes.map Node.id).Nodup := by
  intro g
  obtain ⟨parts, hdraw, hclosed⟩ := of_single_closed m name hf he
  obtain ⟨hx, hs⟩ := Expr.isUnsigned_of_parse he
  have hc : (firstCanvas m name).Sound := Ids.tracks_nil.claimNode name
  have hsound := sound_drawFull m name e parts hc List.mem_cons_self
  rw [show g = draw m name (.full text e parts) from hdraw]
  refine ⟨reads_draw_full m name hx hs hclosed, ?_⟩
  rw [draw_full]
  exact hsound.nodup_nodes

/-- Formulas that are drawn alike, each as the only formula of a book, have the same tree. -/
theorem expr_eq_of_of_eq (m : Measures α) (name : String) {f f' : String} {e e' : Expr}
    (hf : Book.isFormula f = true) (hf' : Book.isFormula f' = true) (he : Expr.parse f = .ok e)
    (he' : Expr.parse f' = .ok e')
    (h : of (.ofList [(name, f)]) m [] name = of (.ofList [(name, f')]) m [] name) : e = e' := by
  obtain ⟨hreads, hnodup⟩ := reads_of_single m name hf he
  obtain ⟨hreads', -⟩ := reads_of_single m name hf' he'
  rw [← h] at hreads'
  exact hreads.unique hnodup hreads'

/-- Blanks and brackets do not show in a drawing, nor do the digits of a number that is too large:
these two texts are drawn alike. The constant written `Infinity` and the name `Infinity` are two
nodes. -/
theorem expr_eq_of_of_eq_infinity :
    ∃ e e', Expr.parse "+r - 1e400 * Infinity" = .ok e ∧
      Expr.parse "(+r)-(1e999*Infinity)" = .ok e' ∧
      of (.ofList [("r", "+r - 1e400 * Infinity")]) Measures.standard [] "r" =
        of (.ofList [("r", "(+r)-(1e999*Infinity)")]) Measures.standard [] "r" ∧ e = e' := by
  let e : Expr := .binary .subtract (.signed .plus (.identifier "r"))
    (.binary .multiply (.number (.infinity false)) (.identifier "Infinity"))
  have he : Expr.parse "+r - 1e400 * Infinity" = .ok e := by decide +kernel
  have he' : Expr.parse "(+r)-(1e999*Infinity)" = .ok e := by decide +kernel
  have h : of (.ofList [("r", "+r - 1e400 * Infinity")]) Measures.standard [] "r" =
      of (.ofList [("r", "(+r)-(1e999*Infinity)")]) Measures.standard [] "r" := by
    decide +kernel
  exact ⟨e, e, he, he', h,
    expr_eq_of_of_eq Measures.standard "r" (by decide) (by decide) he he' h⟩

end Layout

end FormulaBook
