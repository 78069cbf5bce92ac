import FormulaBook.Proofs.Walks
import Mathlib.Data.List.Nodup

/-!
# Sketches of formulas

A sketch is the tree of a formula with the id of a node at every place. Operators have ids of their
own, and leaves may share theirs. The edges of a sketch lead from operands to operators, and what a
drawing owes to the tree is seen on it: every place but the root is the source of one edge
(`Sketch.perm_ids_sources`), the edges into an operator come from its operands in order
(`Sketch.sources_eq`), all places lead to the root (`Sketch.reaches_root`), and with the operators
numbered in preorder every edge leads to a smaller number (`Sketch.Apart.idxOf_lt`). The walk
through a tree draws a sketch of it (`Walk.exists_draws`) and places a node for everything in it
that was not known before (`Walk.exists_traces`).
-/

namespace FormulaBook

open Relation (ReflTransGen)

/-- An operator of a sketch: the id and the label of its node, and the ids at its operands. -/
structure Sketch.Operator where
  id : String
  label : String
  operands : List String

/-- The tree of a formula with ids at its places. -/
inductive Sketch where
  | leaf (id : String) (l : Leaf)
  | binary (id label : String) (left right : Sketch)
  | signed (id label : String) (operand : Sketch)

/-- The labels of the operators of a tree and how many operands they take, operators before their
operands. -/
def Expr.operations : Expr → List (String × Nat)
  | .number _ | .identifier _ => []
  | .binary op left right => (op.label, 2) :: (left.operations ++ right.operations)
  | .signed sign operand => (sign.label, 1) :: operand.operations

namespace Sketch

/-- The id at the root. -/
def root : Sketch → String
  | .leaf id _ | .binary id .. | .signed id .. => id

/-- The ids at all places, operators before their operands. -/
def ids : Sketch → List String
  | .leaf id _ => [id]
  | .binary id _ left right => id :: (left.ids ++ right.ids)
  | .signed id _ operand => id :: operand.ids

/-- The leaves with their ids, from left to right with all repetitions. -/
def leaves : Sketch → List (Leaf × String)
  | .leaf id l => [(l, id)]
  | .binary _ _ left right => left.leaves ++ right.leaves
  | .signed _ _ operand => operand.leaves

/-- The operators, each before those in its operands. -/
def operators : Sketch → List Operator
  | .leaf .. => []
  | .binary id label left right =>
    ⟨id, label, [left.root, right.root]⟩ :: (left.operators ++ right.operators)
  | .signed id label operand => ⟨id, label, [operand.root]⟩ :: operand.operators

/-- The edges from operands to operators by their ends, in the order in which they are drawn. -/
def edges : Sketch → List (String × String)
  | .leaf .. => []
  | .binary id _ left right => left.edges ++ right.edges ++ [(left.root, id), (right.root, id)]
  | .signed id _ operand => operand.edges ++ [(operand.root, id)]

/-- The ids of the operators. -/
def operatorIds (s : Sketch) : List String := s.operators.map Operator.id

/-- The ids of the leaves. -/
def leafIds (s : Sketch) : List String := s.leaves.map Prod.snd

/-- The sketch is one of the tree. -/
inductive IsOf : Sketch → Expr → Prop
  | number (id : String) (x : Binary64) : IsOf (.leaf id (.constant x.plain)) (.number x)
  | identifier (id name : String) : IsOf (.leaf id (.name name)) (.identifier name)
  | binary {left right : Sketch} {e e' : Expr} (id : String) (op : BinaryOp) :
    IsOf left e → IsOf right e' → IsOf (.binary id op.label left right) (.binary op e e')
  | signed {operand : Sketch} {e : Expr} (id : String) (sign : Sign) :
    IsOf operand e → IsOf (.signed id sign.label operand) (.signed sign e)

/-- Every operator has an id of its own, which is not that of a leaf. -/
structure Apart (s : Sketch) : Prop where
  nodup : s.operatorIds.Nodup
  disjoint : ∀ id ∈ s.operatorIds, id ∉ s.leafIds

section

variable {id label : String} {left right operand : Sketch}

@[simp] theorem operatorIds_leaf {l : Leaf} : (leaf id l).operatorIds = [] := rfl

@[simp] theorem operatorIds_binary :
    (binary id label left right).operatorIds = id :: (left.operatorIds ++ right.operatorIds) := by
  simp [operatorIds, operators]

@[simp] theorem operatorIds_signed :
    (signed id label operand).operatorIds = id :: operand.operatorIds := by
  simp [operatorIds, operators]

@[simp] theorem leafIds_leaf {l : Leaf} : (leaf id l).leafIds = [id] := rfl

@[simp] theorem leafIds_binary :
    (binary id label left right).leafIds = left.leafIds ++ right.leafIds := by
  simp [leafIds, leaves]

@[simp] theorem leafIds_signed : (signed id label operand).leafIds = operand.leafIds := rfl

end

/-! ## The tree of a sketch -/

variable {s : Sketch} {e : Expr}

/-- The operators of a sketch are those of its tree, each with as many operands as it takes. -/
theorem IsOf.operations_eq (h : s.IsOf e) :
    s.operators.map (fun o => (o.label, o.operands.length)) = e.operations := by
  induction h with
  | number id x => rfl
  | identifier id name => rfl
  | binary id op _ _ ihl ihr =>
    rw [operators, List.map_cons, List.map_append, ihl, ihr]
    rfl
  | signed id sign _ ih =>
    rw [operators, List.map_cons, ih]
    rfl

/-- The names of a sketch are those of its tree. -/
theorem IsOf.mem_identifiers_iff (h : s.IsOf e) {name : String} :
    name ∈ e.identifiers ↔ ∃ id, (Leaf.name name, id) ∈ s.leaves := by
  induction h with
  | number id x => simp [Expr.identifiers, leaves]
  | identifier id s => simp [Expr.identifiers, leaves]
  | binary id op _ _ ihl ihr =>
    simp only [Expr.identifiers, leaves, List.mem_append, ihl, ihr, exists_or]
  | signed id sign _ ih => exact ih

/-! ## Edges -/

/-- Every place is the root or the source of an edge, as often as its id comes. -/
theorem perm_ids_sources (s : Sketch) : (s.root :: s.edges.map Prod.fst).Perm s.ids := by
  rw [List.perm_iff_count]
  intro x
  induction s with
  | leaf id l => rfl
  | binary id label left right ihl ihr =>
    simp only [root, edges, ids, List.map_append, List.map_cons, List.map_nil, List.count_cons,
      List.count_append, List.count_nil] at ihl ihr ⊢
    omega
  | signed id label operand ih =>
    simp only [root, edges, ids, List.map_append, List.map_cons, List.map_nil, List.count_cons,
      List.count_append, List.count_nil] at ih ⊢
    omega

/-- At every place there is an operator or a leaf. -/
theorem perm_ids (s : Sketch) : s.ids.Perm (s.operatorIds ++ s.leafIds) := by
  rw [List.perm_iff_count]
  intro x
  induction s with
  | leaf id l => rfl
  | binary id label left right ihl ihr =>
    simp only [ids, operatorIds_binary, leafIds_binary, List.count_cons,
      List.count_append] at ihl ihr ⊢
    omega
  | signed id label operand ih =>
    simp only [ids, operatorIds_signed, leafIds_signed, List.count_cons,
      List.count_append] at ih ⊢
    omega

/-- The ids of a sketch are those of its operators and leaves. -/
theorem mem_ids {id : String} : id ∈ s.ids ↔ id ∈ s.operatorIds ∨ id ∈ s.leafIds := by
  rw [s.perm_ids.mem_iff, List.mem_append]

/-- The id at the root is one of the sketch. -/
theorem root_mem_ids (s : Sketch) : s.root ∈ s.ids :=
  s.perm_ids_sources.subset List.mem_cons_self

/-- Edges come from ids of the sketch. -/
theorem source_mem_ids {a b : String} (h : (a, b) ∈ s.edges) : a ∈ s.ids :=
  s.perm_ids_sources.subset (List.mem_cons_of_mem _ (List.mem_map_of_mem (f := Prod.fst) h))

/-- Edges lead to operators. -/
theorem target_mem_operatorIds {a b : String} (h : (a, b) ∈ s.edges) : b ∈ s.operatorIds := by
  induction s with
  | leaf id l => exact absurd h List.not_mem_nil
  | binary id label left right ihl ihr =>
    rw [operatorIds_binary, List.mem_cons, List.mem_append]
    rcases List.mem_append.mp h with h | h
    · rcases List.mem_append.mp h with h | h
      · exact .inr (.inl (ihl h))
      · exact .inr (.inr (ihr h))
    · simp only [List.mem_cons, Prod.mk.injEq, List.not_mem_nil, or_false] at h
      exact .inl (h.elim And.right And.right)
  | signed id label operand ih =>
    rw [operatorIds_signed, List.mem_cons]
    rcases List.mem_append.mp h with h | h
    · exact .inr (ih h)
    · exact .inl (Prod.mk.inj (List.mem_singleton.mp h)).2

/-- The root of an operation is an operator. -/
theorem root_mem_operatorIds (h : ∀ id l, s ≠ .leaf id l) : s.root ∈ s.operatorIds := by
  cases s with
  | leaf id l => exact absurd rfl (h id l)
  | binary id label left right => simp [root]
  | signed id label operand => simp [root]

/-- The sources of the edges to a node, in order. -/
def sources (s : Sketch) (id : String) : List String :=
  (s.edges.filter (·.2 = id)).map Prod.fst

/-- No edge leads to an id that is not that of an operator. -/
theorem sources_eq_nil {id : String} (h : id ∉ s.operatorIds) : s.sources id = [] := by
  rw [sources, List.map_eq_nil_iff, List.filter_eq_nil_iff]
  rintro ⟨a, b⟩ hab heq
  obtain rfl := of_decide_eq_true heq
  exact h (target_mem_operatorIds hab)

section

variable {id label : String} {left right operand : Sketch}

/-- The edges of an operation to a node are those in its operands, and those from their roots if the
node is that of the operator. -/
theorem sources_binary (x : String) :
    (binary id label left right).sources x =
      left.sources x ++ right.sources x ++ if id = x then [left.root, right.root] else [] := by
  by_cases h : id = x <;> simp [sources, edges, h]

/-- The edges of a signed formula to a node are those in its operand, and the one from its root if
the node is that of the sign. -/
theorem sources_signed (x : String) :
    (signed id label operand).sources x =
      operand.sources x ++ if id = x then [operand.root] else [] := by
  by_cases h : id = x <;> simp [sources, edges, h]

end

/-- The edges to an operator come from its operands. -/
theorem sources_eq (h : s.operatorIds.Nodup) {o : Operator} (ho : o ∈ s.operators) :
    s.sources o.id = o.operands := by
  have hmem {t : Sketch} (h : o ∈ t.operators) : o.id ∈ t.operatorIds :=
    List.mem_map_of_mem (f := Operator.id) h
  induction s with
  | leaf id l => exact absurd ho List.not_mem_nil
  | binary id label left right ihl ihr =>
    rw [operatorIds_binary, List.nodup_cons, List.mem_append, not_or, List.nodup_append] at h
    obtain ⟨⟨hl, hr⟩, hleft, hright, hne⟩ := h
    rw [sources_binary]
    rcases List.mem_cons.mp ho with rfl | ho
    · simp [sources_eq_nil hl, sources_eq_nil hr]
    rcases List.mem_append.mp ho with ho | ho
    · have hid : id ≠ o.id := fun heq => hl (heq ▸ hmem ho)
      have hoff : o.id ∉ right.operatorIds := fun hin => hne _ (hmem ho) _ hin rfl
      rw [ihl hleft ho, sources_eq_nil hoff, if_neg hid, List.append_nil, List.append_nil]
    · have hid : id ≠ o.id := fun heq => hr (heq ▸ hmem ho)
      have hoff : o.id ∉ left.operatorIds := fun hin => hne _ hin _ (hmem ho) rfl
      rw [ihr hright ho, sources_eq_nil hoff, if_neg hid, List.append_nil, List.nil_append]
  | signed id label operand ih =>
    rw [operatorIds_signed, List.nodup_cons] at h
    rw [sources_signed]
    rcases List.mem_cons.mp ho with rfl | ho
    · simp [sources_eq_nil h.1]
    · have hid : id ≠ o.id := fun heq => h.1 (heq ▸ hmem ho)
      rw [ih h.2 ho, if_neg hid, List.append_nil]

/-- All places lead to the root. -/
theorem reaches_root {id : String} (h : id ∈ s.ids) :
    ReflTransGen (fun a b => (a, b) ∈ s.edges) id s.root := by
  induction s with
  | leaf id' l => exact List.mem_singleton.mp h ▸ .refl
  | binary id' label left right ihl ihr =>
    have hleft : (left.root, id') ∈ (binary id' label left right).edges := by simp [edges]
    have hright : (right.root, id') ∈ (binary id' label left right).edges := by simp [edges]
    rw [ids, List.mem_cons, List.mem_append] at h
    rcases h with rfl | h | h
    · exact .refl
    · refine .tail (ReflTransGen.mono (fun a b hab => ?_) _ _ (ihl h)) hleft
      exact List.mem_append_left _ (List.mem_append_left _ hab)
    · refine .tail (ReflTransGen.mono (fun a b hab => ?_) _ _ (ihr h)) hright
      exact List.mem_append_left _ (List.mem_append_right _ hab)
  | signed id' label operand ih =>
    have hedge : (operand.root, id') ∈ (signed id' label operand).edges := by simp [edges]
    rw [ids, List.mem_cons] at h
    rcases h with rfl | h
    · exact .refl
    · refine .tail (ReflTransGen.mono (fun a b hab => ?_) _ _ (ih h)) hedge
      exact List.mem_append_left _ hab

/-- An operator comes before the operators among its operands. -/
theorem pair_sublist_operatorIds {a b : String} (h : (a, b) ∈ s.edges) :
    a ∈ s.leafIds ∨ [b, a].Sublist s.operatorIds := by
  -- the root of an operand is a leaf, or an operator that comes after the one in front
  have hroot (t : Sketch) : t.root ∈ t.leafIds ∨ t.root ∈ t.operatorIds :=
    (mem_ids.mp t.root_mem_ids).symm
  induction s with
  | leaf id l => exact absurd h List.not_mem_nil
  | binary id label left right ihl ihr =>
    rw [leafIds_binary, operatorIds_binary, List.mem_append]
    rcases List.mem_append.mp h with h | h
    · rcases List.mem_append.mp h with h | h
      · exact (ihl h).imp .inl fun hs => .cons id (hs.trans (List.sublist_append_left _ _))
      · exact (ihr h).imp .inr fun hs => .cons id (hs.trans (List.sublist_append_right _ _))
    · simp only [List.mem_cons, Prod.mk.injEq, List.not_mem_nil, or_false] at h
      rcases h with ⟨rfl, rfl⟩ | ⟨rfl, rfl⟩
      · refine (hroot left).imp .inl fun hin => List.cons_sublist_cons.mpr ?_
        exact List.singleton_sublist.mpr (List.mem_append_left _ hin)
      · refine (hroot right).imp .inr fun hin => List.cons_sublist_cons.mpr ?_
        exact List.singleton_sublist.mpr (List.mem_append_right _ hin)
  | signed id label operand ih =>
    rw [leafIds_signed, operatorIds_signed]
    rcases List.mem_append.mp h with h | h
    · exact (ih h).imp_right (.cons id)
    · obtain ⟨rfl, rfl⟩ := Prod.mk.inj (List.mem_singleton.mp h)
      exact (hroot operand).imp_right fun hin =>
        List.cons_sublist_cons.mpr (List.singleton_sublist.mpr hin)

/-- Every edge leads to an operator with a smaller number than its source has. Leaves come behind
all operators. -/
theorem Apart.idxOf_lt (h : s.Apart) {a b : String} (hab : (a, b) ∈ s.edges) :
    s.operatorIds.idxOf b < s.operatorIds.idxOf a := by
  rcases pair_sublist_operatorIds hab with ha | hsub
  · rw [List.idxOf_eq_length (mt (h.disjoint a) (not_not.mpr ha))]
    exact List.idxOf_lt_length_of_mem (target_mem_operatorIds hab)
  · have hsorted : s.operatorIds.Pairwise
        fun x y => s.operatorIds.idxOf x < s.operatorIds.idxOf y := by
      rw [List.pairwise_iff_getElem]
      intro i j hi hj hij
      rwa [h.nodup.idxOf_getElem, h.nodup.idxOf_getElem]
    exact List.rel_of_pairwise_cons (hsorted.sublist hsub) List.mem_cons_self

/-- An operator is the source of one edge, unless it is the root. -/
theorem Apart.count_sources (h : s.Apart) {id : String} (hid : id ∈ s.operatorIds) :
    (if s.root = id then 1 else 0) + (s.edges.map Prod.fst).count id = 1 := by
  have hcount := s.perm_ids_sources.count_eq id
  rw [s.perm_ids.count_eq, List.count_append, List.count_eq_zero.mpr (h.disjoint id hid),
    List.count_eq_one_of_mem h.nodup hid, List.count_cons] at hcount
  by_cases heq : s.root = id
  · simp only [heq, beq_self_eq_true, if_true] at hcount ⊢
    omega
  · simp only [heq, beq_iff_eq, if_false] at hcount ⊢
    omega

end Sketch

/-! ## The sketch of a walk -/

/-- The source and the target of an edge. -/
def Edge.ends (e : Edge) : String × String := (e.source, e.target)

namespace Walk

variable {anchor : Option String} {w w' : Walk}

/-- The ids and labels of the operators placed. -/
def operations (w : Walk) : List (String × String) :=
  (w.placed.filter (·.kind = .operation)).map fun p => (p.id, p.label)

/-- What a walk from `w` draws is what the sketch shows. -/
structure Draws (w : Walk) (out : String × Walk) (s : Sketch) : Prop where
  root_eq : s.root = out.1
  ends_eq : out.2.edges.map Edge.ends = w.edges.map Edge.ends ++ s.edges
  operations_eq :
    out.2.operations = w.operations ++ s.operators.map fun o => (o.id, o.label)
  mem_leaves : ∀ x, x ∈ out.2.leaves ↔ x ∈ w.leaves ∨ x ∈ s.leaves

/-- The walk to a leaf draws the sketch of the leaf. -/
theorem draws_leaf (w : Walk) (anchor : Option String) (l : Leaf) (row : Nat) :
    Draws w (w.leaf anchor l row) (.leaf (w.leaf anchor l row).1 l) := by
  cases hl : w.leaves.lookup l with
  | some id =>
    have hmem : (l, id) ∈ w.leaves := by
      obtain ⟨before, after, hleaves, -⟩ := List.lookup_eq_some_iff.mp hl
      simp [hleaves]
    rw [leaf_of_lookup hl]
    refine ⟨rfl, (List.append_nil _).symm, (List.append_nil _).symm, fun x => ?_⟩
    refine ⟨.inl, fun h => h.elim (fun h => h) fun h => ?_⟩
    exact List.mem_singleton.mp h ▸ hmem
  | none =>
    rw [leaf_of_new hl]
    refine ⟨rfl, (List.append_nil _).symm, ?_, fun x => ?_⟩
    · simp [operations, Sketch.operators]
    · simp [Sketch.leaves, or_comm]

/-- Placing an operator adds it to those placed. -/
theorem operations_operator (w : Walk) (anchor : Option String) (label : String) (row : Nat) :
    (w.operator anchor label row).2.operations =
      w.operations ++ [((w.operator anchor label row).1, label)] := by
  simp [operator_eq, operations]

@[simp] theorem operations_connect (w : Walk) (source target : String) (kind : EdgeKind) :
    (w.connect source target kind).operations = w.operations := rfl

/-- Connecting two nodes adds their ids as ends. -/
theorem map_ends_connect (w : Walk) (source target : String) (kind : EdgeKind) :
    (w.connect source target kind).edges.map Edge.ends =
      w.edges.map Edge.ends ++ [(source, target)] := by
  rw [connect_eq, List.map_append]
  rfl

/-- The walk through a tree draws a sketch of it. -/
theorem exists_draws (anchor : Option String) (e : Expr) (row : Nat) (w : Walk) :
    ∃ s : Sketch, s.IsOf e ∧ Draws w (through anchor e row w) s := by
  induction e generalizing row w with
  | number x => exact ⟨_, .number _ x, draws_leaf w anchor _ row⟩
  | identifier name => exact ⟨_, .identifier _ name, draws_leaf w anchor _ row⟩
  | binary op left right ihl ihr =>
    obtain ⟨l, hl, hdl⟩ := ihl (row + 1) (w.operator anchor op.label row).2
    obtain ⟨r, hr, hdr⟩ := ihr (row + 1) (through anchor left (row + 1)
      (w.operator anchor op.label row).2).2
    refine ⟨_, .binary (w.operator anchor op.label row).1 op hl hr, rfl, ?_, ?_, fun x => ?_⟩
    · rw [through_binary]
      dsimp only
      rw [map_ends_connect, map_ends_connect, hdr.ends_eq, hdl.ends_eq, Sketch.edges, hdl.root_eq,
        hdr.root_eq]
      simp only [List.append_assoc]
      rfl
    · rw [through_binary]
      dsimp only
      rw [operations_connect, operations_connect, hdr.operations_eq, hdl.operations_eq,
        operations_operator, Sketch.operators, List.map_cons, List.map_append]
      simp only [List.append_assoc, List.cons_append, List.nil_append]
    · rw [Sketch.leaves, List.mem_append, ← or_assoc]
      exact (hdr.mem_leaves x).trans (or_congr_left (hdl.mem_leaves x))
  | signed sign operand ih =>
    obtain ⟨s, hs, hd⟩ := ih (row + 1) (w.operator anchor sign.label row).2
    refine ⟨_, .signed (w.operator anchor sign.label row).1 sign hs, rfl, ?_, ?_, hd.mem_leaves⟩
    · rw [through_signed]
      dsimp only
      rw [map_ends_connect, hd.ends_eq, Sketch.edges, hd.root_eq, List.append_assoc]
      rfl
    · rw [through_signed]
      dsimp only
      rw [operations_connect, hd.operations_eq, operations_operator, Sketch.operators,
        List.map_cons, List.append_assoc]
      rfl

/-- The leaves known in a walk that began with some leaves known, and the nodes placed: every leaf
has one node, which was known or is placed with its text, and a node placed is an operator or that
of a leaf. -/
structure Registers (known : List (Leaf × String)) (w : Walk) : Prop where
  nodup : (w.leaves.map Prod.fst).Nodup
  subset : known ⊆ w.leaves
  leaf_cases : ∀ x ∈ w.leaves, x ∈ known ∨
    ∃ p ∈ w.placed, p.kind = .quantity ∧ p.id = x.2 ∧ p.label = x.1.text
  placed_cases : ∀ p ∈ w.placed, p.kind = .operation ∧ p.named = false ∨
    p.kind = .quantity ∧ p.id ∈ w.leaves.map Prod.snd

/-- At the start the leaves known are registered and nothing is placed. -/
theorem registers_start (ids : Ids) {known : List (Leaf × String)} (edges : List Edge)
    (h : (known.map Prod.fst).Nodup) : (start ids known edges).Registers known :=
  ⟨h, List.Subset.refl _, fun _ hx => .inl hx, nofun⟩

variable {known : List (Leaf × String)}

/-- A step of the walk keeps the leaves registered. -/
theorem Step.registers (h : Step anchor w w') (hw : w.Registers known) : w'.Registers known := by
  cases h with
  | @leaf l row hnew =>
    rw [leaf_of_new hnew]
    refine ⟨?_, fun x hx => List.mem_cons_of_mem _ (hw.subset hx), fun x hx => ?_,
      fun p hp => ?_⟩
    · rw [List.map_cons, List.nodup_cons]
      refine ⟨fun hmem => ?_, hw.nodup⟩
      obtain ⟨x, hx, rfl⟩ := List.mem_map.mp hmem
      simpa using List.lookup_eq_none_iff.mp hnew x hx
    · rcases List.mem_cons.mp hx with rfl | hx
      · exact .inr ⟨_, List.mem_append_right _ List.mem_cons_self, rfl, rfl, rfl⟩
      · refine (hw.leaf_cases x hx).imp_right ?_
        rintro ⟨p, hp, hpx⟩
        exact ⟨p, List.mem_append_left _ hp, hpx⟩
    · rcases List.mem_append.mp hp with hp | hp
      · exact (hw.placed_cases p hp).imp_right (.imp_right (List.mem_cons_of_mem _))
      · rw [List.mem_singleton.mp hp]
        exact .inr ⟨rfl, List.mem_cons_self⟩
  | operator label row =>
    rw [operator_eq]
    refine ⟨hw.nodup, hw.subset, fun x hx => ?_, fun p hp => ?_⟩
    · refine (hw.leaf_cases x hx).imp_right ?_
      rintro ⟨p, hp, hpx⟩
      exact ⟨p, List.mem_append_left _ hp, hpx⟩
    · rcases List.mem_append.mp hp with hp | hp
      · exact hw.placed_cases p hp
      · rw [List.mem_singleton.mp hp]
        exact .inl ⟨rfl, rfl⟩
  | connect hs ht hne => exact ⟨hw.nodup, hw.subset, hw.leaf_cases, hw.placed_cases⟩

/-- Any steps of the walk keep the leaves registered. -/
theorem Steps.registers (h : Steps anchor w w') (hw : w.Registers known) :
    w'.Registers known :=
  h.preserves (fun hstep => hstep.registers) hw

/-- The edges that a walk draws come behind those drawn before and are all of the kind `input`. -/
theorem Steps.exists_edges (h : Steps anchor w w') :
    ∃ es : List Edge, w'.edges = w.edges ++ es ∧ ∀ e ∈ es, e.kind = .input := by
  induction h with
  | refl => exact ⟨[], (List.append_nil _).symm, nofun⟩
  | @tail u u' _ hstep ih =>
    obtain ⟨es, hes, hkind⟩ := ih
    cases hstep with
    | leaf row hnew => exact ⟨es, by rw [leaf_of_new hnew]; exact hes, hkind⟩
    | operator label row => exact ⟨es, hes, hkind⟩
    | connect hs ht hne =>
      refine ⟨es ++ [_], by rw [connect_eq, hes, List.append_assoc], fun e he => ?_⟩
      rcases List.mem_append.mp he with he | he
      · exact hkind e he
      · exact List.mem_singleton.mp he ▸ rfl

/-- What a walk leaves behind that begins with some edges and leaves: a sketch of the tree, the
edges of the sketch behind those edges, and a node placed for every operator and every other
leaf. -/
structure Traces (known : List (Leaf × String)) (edges : List Edge) (out : String × Walk)
    (s : Sketch) (es : List Edge) : Prop where
  root_eq : s.root = out.1
  edges_eq : out.2.edges = edges ++ es
  ends_eq : es.map Edge.ends = s.edges
  kind_edges : ∀ e ∈ es, e.kind = .input
  operations_eq : out.2.operations = s.operators.map fun o => (o.id, o.label)
  placed_cases : ∀ p ∈ out.2.placed, p.kind = .operation ∧ p.named = false ∨
    p.kind = .quantity ∧ (p.id ∈ known.map Prod.snd ∨ p.id ∈ s.leafIds)
  leaf_cases : ∀ x ∈ s.leaves, x ∈ known ∨
    ∃ p ∈ out.2.placed, p.kind = .quantity ∧ p.id = x.2 ∧ p.label = x.1.text
  known_unique : ∀ x ∈ known, ∀ id, (x.1, id) ∈ s.leaves → id = x.2

/-- The walk through a tree leaves a sketch of it behind. -/
theorem exists_traces (anchor : Option String) {ids : Ids} {edges : List Edge}
    (hnodup : (known.map Prod.fst).Nodup) (hdrawn : (start ids known edges).LeavesDrawn)
    (e : Expr) (row : Nat) :
    ∃ s es, s.IsOf e ∧
      Traces known edges (through anchor e row (.start ids known edges)) s es := by
  have hsteps := (arrives_through anchor e row _ hdrawn).steps
  have hregisters := hsteps.registers (registers_start ids edges hnodup)
  obtain ⟨s, hs, hdraws⟩ := exists_draws anchor e row (start ids known edges)
  obtain ⟨es, hes, hkind⟩ := hsteps.exists_edges
  have hleaf {x} (hx : x ∈ s.leaves) := (hdraws.mem_leaves x).mpr (.inr hx)
  refine ⟨s, es, hs, hdraws.root_eq, hes, ?_, hkind, ?_, fun p hp => ?_,
    fun x hx => hregisters.leaf_cases x (hleaf hx), fun x hx id hid => ?_⟩
  · have hends := hdraws.ends_eq
    rw [hes, List.map_append] at hends
    exact List.append_cancel_left hends
  · exact hdraws.operations_eq.trans (List.nil_append _)
  · refine (hregisters.placed_cases p hp).imp_right (.imp_right fun hmem => ?_)
    obtain ⟨x, hx, hid⟩ := List.mem_map.mp hmem
    rw [← hid]
    exact ((hdraws.mem_leaves x).mp hx).imp List.mem_map_of_mem List.mem_map_of_mem
  · exact congrArg Prod.snd
      (List.inj_on_of_nodup_map hregisters.nodup (hleaf hid) (hregisters.subset hx) rfl)

end Walk

end FormulaBook
