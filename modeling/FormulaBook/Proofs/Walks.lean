import FormulaBook.Drawing.Walk
import FormulaBook.Proofs.FreshIds
import Mathlib.Logic.Relation

/-!
# What a walk can do

A walk goes by steps of three kinds (`Walk.Step`): it places a leaf met for the first time, it
places an operator, or it draws an edge between two different nodes that have their ids. The walk
through a tree is made of such steps (`Walk.arrives_through`), and its root is a node placed on the
way or the node of a leaf known before. What every step keeps holds along the walk: the nodes of
leaves are drawn (`Walk.LeavesDrawn`), and the ids given are those of what is drawn
(`Walk.Steps.tracks`).
-/

namespace FormulaBook

namespace Leaf

/-- The text the id of a leaf begins with. -/
def base : Leaf → String
  | .name s => s
  | .constant text => "const_" ++ text

/-- The text shown on a leaf. -/
def text : Leaf → String
  | .name s => s
  | .constant text => text

/-- Whether a leaf is a name. -/
def isName : Leaf → Bool
  | .name _ => true
  | .constant _ => false

end Leaf

namespace Walk

variable {anchor : Option String} {w w' : Walk}

/-! ## Single nodes and edges -/

/-- The id asked for below an anchor. -/
def under (anchor : Option String) (base : String) : String :=
  match anchor with
  | some anchor => anchor ++ "_" ++ base
  | none => base

/-- A leaf met before gives its node, and nothing is placed. -/
theorem leaf_of_lookup {l : Leaf} {id : String} (h : w.leaves.lookup l = some id)
    (anchor : Option String) (row : Nat) : w.leaf anchor l row = (id, w) := by
  simp only [leaf, h]

/-- A leaf met for the first time is placed and known from then on. -/
theorem leaf_of_new {l : Leaf} (h : w.leaves.lookup l = none) (anchor : Option String)
    (row : Nat) :
    w.leaf anchor l row =
      ((w.ids.claimNode (under anchor l.base)).1,
        { w with
          ids := (w.ids.claimNode (under anchor l.base)).2
          leaves := (l, (w.ids.claimNode (under anchor l.base)).1) :: w.leaves
          placed := w.placed ++ [⟨(w.ids.claimNode (under anchor l.base)).1, l.text, .quantity,
            row, l.isName⟩] }) := by
  simp only [leaf, h]
  cases l <;> rfl

/-- An operator gets a new id and is placed under it. -/
theorem operator_eq (w : Walk) (anchor : Option String) (label : String) (row : Nat) :
    w.operator anchor label row =
      ((w.ids.claimNode (under anchor ("op_" ++ toString w.operators))).1,
        { w with
          ids := (w.ids.claimNode (under anchor ("op_" ++ toString w.operators))).2
          placed := w.placed ++ [⟨(w.ids.claimNode (under anchor
            ("op_" ++ toString w.operators))).1, label, .operation, row, false⟩]
          operators := w.operators + 1 }) :=
  rfl

/-- An edge gets a new id and is drawn behind the others. -/
theorem connect_eq (w : Walk) (source target : String) (kind : EdgeKind) :
    w.connect source target kind =
      { w with
        ids := (w.ids.claimEdge (source ++ "-" ++ target)).2
        edges := w.edges ++
          [⟨(w.ids.claimEdge (source ++ "-" ++ target)).1, source, target, kind, none⟩] } :=
  rfl

/-! ## Steps -/

/-- One step of a walk: a leaf met for the first time is placed, an operator is placed, or an edge
is drawn between two different nodes that have their ids. -/
inductive Step (anchor : Option String) : Walk → Walk → Prop
  | leaf {w : Walk} {l : Leaf} (row : Nat) (hnew : w.leaves.lookup l = none) :
    Step anchor w (w.leaf anchor l row).2
  | operator (w : Walk) (label : String) (row : Nat) :
    Step anchor w (w.operator anchor label row).2
  | connect {w : Walk} {source target : String} (hs : source ∈ w.ids.nodes)
    (ht : target ∈ w.ids.nodes) (hne : source ≠ target) :
    Step anchor w (w.connect source target .input)

/-- Steps one after the other. -/
abbrev Steps (anchor : Option String) : Walk → Walk → Prop := Relation.ReflTransGen (Step anchor)

/-- The leaves known have nodes that are drawn. -/
def LeavesDrawn (w : Walk) : Prop := ∀ p ∈ w.leaves, p.2 ∈ w.ids.nodes

/-- A node that is drawn and is not the node of a leaf. -/
def Inner (w : Walk) (id : String) : Prop := id ∈ w.ids.nodes ∧ ∀ p ∈ w.leaves, p.2 ≠ id

/-- The ids of nodes stay taken in a step. -/
theorem Step.mem_nodes (h : Step anchor w w') {id : String} (hid : id ∈ w.ids.nodes) :
    id ∈ w'.ids.nodes := by
  cases h with
  | leaf row hnew =>
    rw [leaf_of_new hnew]
    exact List.mem_cons_of_mem _ hid
  | operator label row => exact List.mem_cons_of_mem _ hid
  | connect hs ht hne => exact hid

/-- After a step the leaves known are drawn as before. -/
theorem Step.leavesDrawn (h : Step anchor w w') (hw : w.LeavesDrawn) : w'.LeavesDrawn := by
  cases h with
  | leaf row hnew =>
    rw [leaf_of_new hnew]
    intro p hp
    rcases List.mem_cons.mp hp with rfl | hp
    · exact List.mem_cons_self
    · exact List.mem_cons_of_mem _ (hw p hp)
  | operator label row => exact fun p hp => List.mem_cons_of_mem _ (hw p hp)
  | connect hs ht hne => exact hw

/-- A node that is no leaf stays one in a step. -/
theorem Step.inner (h : Step anchor w w') {id : String} (hid : w.Inner id) : w'.Inner id := by
  refine ⟨h.mem_nodes hid.1, ?_⟩
  cases h with
  | leaf row hnew =>
    rw [leaf_of_new hnew]
    intro p hp
    rcases List.mem_cons.mp hp with rfl | hp
    · exact fun he => Ids.claimNode_not_mem _ _ (he ▸ hid.1)
    · exact hid.2 p hp
  | operator label row => exact hid.2
  | connect hs ht hne => exact hid.2

/-- A step keeps track of the ids, the nodes placed in this walk behind those drawn before. -/
theorem Step.tracks (h : Step anchor w w') {earlier : List String}
    (hw : w.ids.Tracks (earlier ++ w.placed.map Placed.id) w.edges) :
    w'.ids.Tracks (earlier ++ w'.placed.map Placed.id) w'.edges := by
  cases h with
  | leaf row hnew =>
    rw [leaf_of_new hnew, List.map_append, ← List.append_assoc]
    exact hw.claimNode _
  | operator label row =>
    rw [operator_eq, List.map_append, ← List.append_assoc]
    exact hw.claimNode _
  | connect hs ht hne =>
    exact hw.claimEdge _ ((hw.mem_nodes _).mp hs) ((hw.mem_nodes _).mp ht) hne _ _

/-- What every step preserves, steps one after the other do. -/
theorem Steps.preserves {P : Walk → Prop} (hP : ∀ {u u'}, Step anchor u u' → P u → P u')
    (h : Steps anchor w w') (hw : P w) : P w' := by
  induction h with
  | refl => exact hw
  | tail _ hstep ih => exact hP hstep ih

/-- The ids of nodes stay taken. -/
theorem Steps.mem_nodes (h : Steps anchor w w') {id : String} (hid : id ∈ w.ids.nodes) :
    id ∈ w'.ids.nodes :=
  h.preserves (fun hstep => hstep.mem_nodes) hid

/-- After any steps the leaves known are drawn as before. -/
theorem Steps.leavesDrawn (h : Steps anchor w w') (hw : w.LeavesDrawn) : w'.LeavesDrawn :=
  h.preserves (fun hstep => hstep.leavesDrawn) hw

/-- A node that is no leaf stays one. -/
theorem Steps.inner (h : Steps anchor w w') {id : String} (hid : w.Inner id) : w'.Inner id :=
  h.preserves (fun hstep => hstep.inner) hid

/-- Steps keep track of the ids. -/
theorem Steps.tracks (h : Steps anchor w w') {earlier : List String}
    (hw : w.ids.Tracks (earlier ++ w.placed.map Placed.id) w.edges) :
    w'.ids.Tracks (earlier ++ w'.placed.map Placed.id) w'.edges :=
  h.preserves (fun hstep => hstep.tracks) hw

/-! ## The walk through a tree -/

/-- The walk through an operation: the operator, its operands from left to right, and the edges. -/
theorem through_binary (anchor : Option String) (op : BinaryOp) (left right : Expr) (row : Nat)
    (w : Walk) :
    through anchor (.binary op left right) row w =
      let o := w.operator anchor op.label row
      let l := through anchor left (row + 1) o.2
      let r := through anchor right (row + 1) l.2
      (o.1, (r.2.connect l.1 o.1 .input).connect r.1 o.1 .input) :=
  rfl

/-- The walk through a signed operand. -/
theorem through_signed (anchor : Option String) (sign : Sign) (operand : Expr) (row : Nat)
    (w : Walk) :
    through anchor (.signed sign operand) row w =
      let o := w.operator anchor sign.label row
      let x := through anchor operand (row + 1) o.2
      (o.1, x.2.connect x.1 o.1 .input) :=
  rfl

/-- What a walk leads to from `w`: steps, and a node that is drawn at their end, which is that of a
leaf known before or has a new id. -/
structure Arrives (anchor : Option String) (w : Walk) (out : String × Walk) : Prop where
  steps : Steps anchor w out.2
  mem_nodes : out.1 ∈ out.2.ids.nodes
  old_or_new : (∃ p ∈ w.leaves, p.2 = out.1) ∨ out.1 ∉ w.ids.nodes

/-- A node inside the tree is not the root of what comes after it. -/
theorem Arrives.ne_of_inner {out : String × Walk} (h : Arrives anchor w out) {id : String}
    (hid : w.Inner id) : out.1 ≠ id := by
  rintro rfl
  rcases h.old_or_new with ⟨p, hp, he⟩ | hnew
  · exact hid.2 p hp he
  · exact hnew hid.1

/-- A walk to a leaf arrives at its node. -/
theorem arrives_leaf (hw : w.LeavesDrawn) (anchor : Option String) (l : Leaf) (row : Nat) :
    Arrives anchor w (w.leaf anchor l row) := by
  cases hl : w.leaves.lookup l with
  | some id =>
    have hmem : (l, id) ∈ w.leaves := by
      obtain ⟨before, after, hleaves, -⟩ := List.lookup_eq_some_iff.mp hl
      simp [hleaves]
    rw [leaf_of_lookup hl]
    exact ⟨.refl, hw _ hmem, .inl ⟨_, hmem, rfl⟩⟩
  | none =>
    refine ⟨.single (.leaf row hl), ?_, .inr ?_⟩
    · rw [leaf_of_new hl]
      exact List.mem_cons_self
    · rw [leaf_of_new hl]
      exact Ids.claimNode_not_mem _ _

/-- The node of an operator that is placed is no leaf. -/
theorem inner_operator (hw : w.LeavesDrawn) (anchor : Option String) (label : String)
    (row : Nat) : (w.operator anchor label row).2.Inner (w.operator anchor label row).1 := by
  rw [operator_eq]
  refine ⟨List.mem_cons_self, fun p hp he => ?_⟩
  exact Ids.claimNode_not_mem w.ids (under anchor ("op_" ++ toString w.operators)) (he ▸ hw p hp)

/-- The walk through a tree is made of steps. -/
theorem arrives_through (anchor : Option String) (e : Expr) (row : Nat) (w : Walk)
    (hw : w.LeavesDrawn) : Arrives anchor w (through anchor e row w) := by
  induction e generalizing row w with
  | number x => exact arrives_leaf hw anchor _ row
  | identifier name => exact arrives_leaf hw anchor _ row
  | binary op left right ihl ihr =>
    have hop : Step anchor w (w.operator anchor op.label row).2 := .operator w op.label row
    have hnew : (w.operator anchor op.label row).1 ∉ w.ids.nodes := Ids.claimNode_not_mem _ _
    have hin := inner_operator hw anchor op.label row
    have hl := ihl (row + 1) _ (hop.leavesDrawn hw)
    have hr := ihr (row + 1) _ (hl.steps.leavesDrawn (hop.leavesDrawn hw))
    have hinl := hl.steps.inner hin
    have hinr := hr.steps.inner hinl
    rw [through_binary]
    refine ⟨?_, hinr.1, .inr hnew⟩
    refine (((Relation.ReflTransGen.single hop).trans hl.steps).trans hr.steps).trans ?_
    refine .tail (.single (.connect (hr.steps.mem_nodes hl.mem_nodes) hinr.1 ?_))
      (.connect hr.mem_nodes hinr.1 ?_)
    · exact hl.ne_of_inner hin
    · exact hr.ne_of_inner hinl
  | signed sign operand ih =>
    have hop : Step anchor w (w.operator anchor sign.label row).2 := .operator w sign.label row
    have hnew : (w.operator anchor sign.label row).1 ∉ w.ids.nodes := Ids.claimNode_not_mem _ _
    have hin := inner_operator hw anchor sign.label row
    have h := ih (row + 1) _ (hop.leavesDrawn hw)
    have hinner := h.steps.inner hin
    rw [through_signed]
    refine ⟨?_, hinner.1, .inr hnew⟩
    exact ((Relation.ReflTransGen.single hop).trans h.steps).tail
      (.connect h.mem_nodes hinner.1 (h.ne_of_inner hin))

end Walk

end FormulaBook
