import FormulaBook.Proofs.Places
import FormulaBook.Proofs.Readback

/-!
# What is drawn for a formula

What is drawn for a formula, with nothing opened beside it, is read off its tree
(`Layout.of_single_eq`). A node stands for a part of the formula (`Part`): for the formula as a
whole, for a leaf with all its occurrences, or for one operator. The nodes are those of the parts in
the order in which they first occur in the tree, operators before their operands
(`Expr.occurrences`, `Occurrence.firsts`), and the edges lead from operands to operators, operands
first (`Expr.inputs`). The walk through a tree keeps to this with an id for every part met so far
(`Walk.exists_realizes`).
-/

namespace FormulaBook

/-! ## Parts -/

/-- What a node stands for: the formula drawn, a leaf wherever it occurs, or the operator at an
address, which says operand by operand how to get there from the root. -/
inductive Part where
  | formula
  | leaf (l : Leaf)
  | operator (address : List Nat)
deriving DecidableEq

/-- Whether a part is a name in the formula. -/
def Part.isName : Part → Bool
  | .leaf l => l.isName
  | .formula | .operator _ => false

/-- The part that a leaf is. The name of the formula drawn is the formula. -/
def Leaf.part (own : String) (l : Leaf) : Part := if l = .name own then .formula else .leaf l

/-- A part where it occurs in the tree, with what its node shows if it is its first occurrence. -/
structure Occurrence where
  part : Part
  label : String
  kind : NodeKind
  row : Nat

namespace Expr

/-- The part at the root of a tree that stands at an address. -/
def part (own : String) (address : List Nat) : Expr → Part
  | .number x => (Leaf.constant x.plain).part own
  | .identifier name => (Leaf.name name).part own
  | .binary .. | .signed .. => .operator address

/-- The parts of a tree whose root has the given address and row, operators before their operands
and operands from left to right. -/
def occurrences (own : String) (address : List Nat) (row : Nat) : Expr → List Occurrence
  | .number x => [⟨(Leaf.constant x.plain).part own, x.plain, .quantity, row⟩]
  | .identifier name => [⟨(Leaf.name name).part own, name, .quantity, row⟩]
  | .binary op left right =>
    ⟨.operator address, op.label, .operation, row⟩ ::
      (left.occurrences own (address ++ [0]) (row + 1) ++
        right.occurrences own (address ++ [1]) (row + 1))
  | .signed sign operand =>
    ⟨.operator address, sign.label, .operation, row⟩ ::
      operand.occurrences own (address ++ [0]) (row + 1)

/-- The operands of all operators, each with its operator: an operator comes behind those in its
operands, and its operands from left to right. -/
def inputs (own : String) (address : List Nat) : Expr → List (Part × Part)
  | .number _ | .identifier _ => []
  | .binary _ left right =>
    left.inputs own (address ++ [0]) ++ right.inputs own (address ++ [1]) ++
      [(left.part own (address ++ [0]), .operator address),
        (right.part own (address ++ [1]), .operator address)]
  | .signed _ operand =>
    operand.inputs own (address ++ [0]) ++ [(operand.part own (address ++ [0]), .operator address)]

end Expr

namespace Occurrence

/-- The occurrences of parts that are not among those seen before and have not occurred earlier. -/
def firsts (seen : List Part) : List Occurrence → List Occurrence
  | [] => []
  | o :: os => (if o.part ∈ seen then [] else [o]) ++ firsts (seen ++ [o.part]) os

/-- First occurrences in a longer list are those in its beginning, and then those of what neither
the parts before nor the beginning have. -/
theorem firsts_append (seen : List Part) (os os' : List Occurrence) :
    firsts seen (os ++ os') = firsts seen os ++ firsts (seen ++ os.map part) os' := by
  induction os generalizing seen with
  | nil => simp [firsts]
  | cons o os ih => simp [firsts, ih]

/-- First occurrences are occurrences. -/
theorem mem_of_mem_firsts {seen : List Part} {os : List Occurrence} {o : Occurrence}
    (h : o ∈ firsts seen os) : o ∈ os := by
  induction os generalizing seen with
  | nil => exact h
  | cons o' os ih =>
    rw [firsts] at h
    rcases List.mem_append.mp h with h | h
    · split at h
      · cases h
      · exact List.mem_singleton.mp h ▸ List.mem_cons_self
    · exact List.mem_cons_of_mem _ (ih h)

/-- Every part that is new has its first occurrence. -/
theorem mem_firsts {seen : List Part} {os : List Occurrence} {p : Part} (h : p ∈ os.map part)
    (hnew : p ∉ seen) : p ∈ (firsts seen os).map part := by
  induction os generalizing seen with
  | nil => exact h
  | cons o os ih =>
    rw [firsts, List.map_append, List.mem_append]
    by_cases hp : p = o.part
    · rw [if_neg (hp ▸ hnew), List.map_singleton]
      exact .inl (List.mem_singleton.mpr hp)
    · have hrest := (List.mem_cons.mp h).resolve_left hp
      exact .inr (ih hrest (by simp [hnew, hp]))

/-- The node of a part, before it has its place on the row. -/
def placed (id : Part → String) (o : Occurrence) : Placed :=
  ⟨id o.part, o.label, o.kind, o.row, o.part.isName⟩

end Occurrence

/-- Different leaves are different parts. -/
theorem Leaf.part_injective (own : String) : Function.Injective (Leaf.part own) := by
  intro l l' h
  unfold Leaf.part at h
  split at h
  · split at h
    · simp_all
    · cases h
  · split at h
    · cases h
    · exact Part.leaf.inj h

/-- The leaf that is the formula drawn is its name. -/
theorem Leaf.part_eq_formula_iff {own : String} {l : Leaf} :
    l.part own = .formula ↔ l = .name own := by
  unfold Leaf.part
  split
  · exact ⟨fun _ => ‹_›, fun _ => rfl⟩
  · exact ⟨nofun, fun h => absurd h ‹_›⟩

/-- No leaf is an operator. -/
theorem Leaf.part_ne_operator (own : String) (l : Leaf) (address : List Nat) :
    l.part own ≠ .operator address := by
  unfold Leaf.part
  split <;> nofun

namespace Expr

variable {own : String} {e : Expr} {address : List Nat} {row : Nat}

/-- The operators of a tree have addresses that go through the one of its root. -/
theorem prefix_of_mem_occurrences {a : List Nat}
    (h : .operator a ∈ (e.occurrences own address row).map Occurrence.part) : address <+: a := by
  induction e generalizing address row with
  | number x =>
    exact absurd (List.mem_singleton.mp h).symm (Leaf.part_ne_operator own (.constant x.plain) a)
  | identifier name =>
    exact absurd (List.mem_singleton.mp h).symm (Leaf.part_ne_operator own (.name name) a)
  | binary op left right ihl ihr =>
    rw [occurrences, List.map_cons, List.map_append] at h
    rcases List.mem_cons.mp h with h | h
    · cases h
      exact List.prefix_rfl
    · rcases List.mem_append.mp h with h | h
      · exact (List.prefix_append address [0]).trans (ihl h)
      · exact (List.prefix_append address [1]).trans (ihr h)
  | signed sign operand ih =>
    rw [occurrences, List.map_cons] at h
    rcases List.mem_cons.mp h with h | h
    · cases h
      exact List.prefix_rfl
    · exact (List.prefix_append address [0]).trans (ih h)

/-- Only the name of the formula drawn is the formula. -/
theorem part_eq_formula_iff : e.part own address = .formula ↔ e = .identifier own := by
  cases e with
  | number x => simp [part, Leaf.part_eq_formula_iff]
  | identifier name => simp [part, Leaf.part_eq_formula_iff]
  | binary | signed => exact ⟨nofun, nofun⟩

/-- The part at the root of a tree occurs in it. -/
theorem part_mem_occurrences (own : String) (address : List Nat) (row : Nat) (e : Expr) :
    e.part own address ∈ (e.occurrences own address row).map Occurrence.part := by
  cases e <;> exact List.mem_cons_self

/-- Both ends of an input occur in the tree. -/
theorem mem_occurrences_of_mem_inputs {p q : Part} (h : (p, q) ∈ e.inputs own address)
    (row : Nat) : p ∈ (e.occurrences own address row).map Occurrence.part ∧
      q ∈ (e.occurrences own address row).map Occurrence.part := by
  induction e generalizing address row with
  | number | identifier => cases h
  | binary op left right ihl ihr =>
    rw [occurrences, List.map_cons, List.map_append]
    have hl (p : Part) (hp : p ∈ (left.occurrences own (address ++ [0]) (row + 1)).map
        Occurrence.part) := List.mem_cons_of_mem (Part.operator address) (List.mem_append_left
      ((right.occurrences own (address ++ [1]) (row + 1)).map Occurrence.part) hp)
    have hr (p : Part) (hp : p ∈ (right.occurrences own (address ++ [1]) (row + 1)).map
        Occurrence.part) := List.mem_cons_of_mem (Part.operator address) (List.mem_append_right
      ((left.occurrences own (address ++ [0]) (row + 1)).map Occurrence.part) hp)
    rw [inputs, List.mem_append, List.mem_append] at h
    rcases h with (h | h) | h
    · exact (ihl h (row + 1)).imp (hl p) (hl q)
    · exact (ihr h (row + 1)).imp (hr p) (hr q)
    · rcases List.mem_pair.mp h with h | h
      · cases h
        exact ⟨hl _ (part_mem_occurrences ..), List.mem_cons_self⟩
      · cases h
        exact ⟨hr _ (part_mem_occurrences ..), List.mem_cons_self⟩
  | signed sign operand ih =>
    rw [occurrences, List.map_cons]
    rw [inputs, List.mem_append] at h
    rcases h with h | h
    · exact (ih h (row + 1)).imp (List.mem_cons_of_mem _) (List.mem_cons_of_mem _)
    · cases List.mem_singleton.mp h
      exact ⟨List.mem_cons_of_mem _ (part_mem_occurrences ..), List.mem_cons_self⟩

end Expr

/-- No operator at the address or below it is among the parts. -/
def Unseen (seen : List Part) (address : List Nat) : Prop :=
  ∀ a, .operator a ∈ seen → ¬address <+: a

namespace Unseen

variable {seen : List Part} {address : List Nat}

/-- The operator at an unseen address has not been seen. -/
theorem not_mem (h : Unseen seen address) : .operator address ∉ seen :=
  fun hmem => h address hmem List.prefix_rfl

/-- Below an operator that is seen its operands are not. -/
theorem operand (h : Unseen seen address) (i : Nat) :
    Unseen (seen ++ [.operator address]) (address ++ [i]) := by
  intro a ha hprefix
  rcases List.mem_append.mp ha with ha | ha
  · exact h a ha ((List.prefix_append address [i]).trans hprefix)
  · cases List.mem_singleton.mp ha
    exact absurd hprefix.length_le (by simp)

/-- Behind the first operand of an operator the second is not seen. -/
theorem second (h : Unseen seen address) (own : String) (row : Nat) (e : Expr) :
    Unseen (seen ++ [.operator address] ++
      (e.occurrences own (address ++ [0]) row).map Occurrence.part) (address ++ [1]) := by
  intro a ha hprefix
  rcases List.mem_append.mp ha with ha | ha
  · exact h.operand 1 a ha hprefix
  · have hzero := Expr.prefix_of_mem_occurrences ha
    have heq := (List.prefix_of_prefix_length_le hzero hprefix (by simp)).eq_of_length (by simp)
    simp at heq

end Unseen

/-! ## The walk through a tree -/

/-- An edge without its id. -/
def Edge.unnamed (e : Edge) : String × String × EdgeKind × Option String :=
  (e.source, e.target, e.kind, e.operation)

/-- The edge of an input, by the ids of its ends. -/
def inputEdge (id : Part → String) (input : Part × Part) :
    String × String × EdgeKind × Option String :=
  (id input.1, id input.2, .input, none)

namespace Walk

/-- The walk knows the leaves among the parts seen so far, by the ids of these parts. The formula
drawn is one of them. -/
structure Knows (own : String) (seen : List Part) (id : Part → String) (w : Walk) : Prop where
  formula : Part.formula ∈ seen
  lookup : ∀ l, w.leaves.lookup l = if l.part own ∈ seen then some (id (l.part own)) else none

/-- What a walk from `w` through a tree leaves behind: ids for the parts of the tree that keep those
of the parts seen before, with which the nodes placed are the first occurrences in the tree, and the
edges drawn are the inputs. -/
structure Realizes (own : String) (seen : List Part) (id : Part → String) (w : Walk) (e : Expr)
    (address : List Nat) (row : Nat) (out : String × Walk) (id' : Part → String) : Prop where
  keeps : ∀ p ∈ seen, id' p = id p
  root_eq : out.1 = id' (e.part own address)
  placed_eq : out.2.placed = w.placed ++
    (Occurrence.firsts seen (e.occurrences own address row)).map (Occurrence.placed id')
  edges_eq : out.2.edges.map Edge.unnamed = w.edges.map Edge.unnamed ++
    (e.inputs own address).map (inputEdge id')
  knows : out.2.Knows own (seen ++ (e.occurrences own address row).map Occurrence.part) id'

variable {own : String} {seen : List Part} {id : Part → String} {w : Walk}

/-- Before its first node the walk through the formula drawn knows its name. -/
theorem knows_start (ids : Ids) (own result : String) (edges : List Edge) :
    (start ids [(.name own, result)] edges).Knows own [.formula] (fun _ => result) := by
  refine ⟨List.mem_singleton_self _, fun l => ?_⟩
  simp only [List.mem_singleton, Leaf.part_eq_formula_iff, start, List.lookup_cons]
  by_cases hl : l = .name own
  · simp [hl]
  · simp [hl, beq_eq_false_iff_ne.mpr hl]

/-- Seeing a part again changes nothing. -/
theorem Knows.again (h : w.Knows own seen id) {p : Part} (hp : p ∈ seen) :
    w.Knows own (seen ++ [p]) id := by
  refine ⟨List.mem_append_left _ h.formula, fun l => ?_⟩
  have hiff : l.part own ∈ seen ++ [p] ↔ l.part own ∈ seen := by
    simp only [List.mem_append, List.mem_singleton, or_iff_left_iff_imp]
    rintro rfl
    exact hp
  simp only [h.lookup l, hiff]

/-- A part that is new gets an id, and all other leaves stay known or unknown. -/
theorem Knows.lookup_of_ne (h : w.Knows own seen id) (p : Part) (new : String) {l : Leaf}
    (hl : l.part own ≠ p) : w.leaves.lookup l =
      if l.part own ∈ seen ++ [p] then some (Function.update id p new (l.part own)) else none := by
  rw [h.lookup l, Function.update_of_ne hl]
  simp [hl]

/-- A leaf that has not been seen is not the formula drawn. -/
theorem Knows.part_eq_leaf (h : w.Knows own seen id) {l : Leaf} (hl : l.part own ∉ seen) :
    l.part own = .leaf l := by
  unfold Leaf.part at hl ⊢
  split
  · rw [if_pos ‹_›] at hl
    exact absurd h.formula hl
  · rfl

/-- A new id for a new part leaves the ids of those seen before. -/
theorem update_eq_of_mem {p q : Part} (hp : p ∉ seen) (hq : q ∈ seen) (new : String) :
    Function.update id p new q = id q := by
  refine Function.update_of_ne ?_ new id
  rintro rfl
  exact hp hq

/-- Walking to a leaf gives its part an id, places its first occurrence and draws no edge. -/
theorem exists_realizes_leaf (hw : w.Knows own seen id) (anchor : Option String) (l : Leaf)
    (row : Nat) : ∃ id', (∀ p ∈ seen, id' p = id p) ∧
      (w.leaf anchor l row).1 = id' (l.part own) ∧
      (w.leaf anchor l row).2.placed = w.placed ++
        (Occurrence.firsts seen [⟨l.part own, l.text, .quantity, row⟩]).map
          (Occurrence.placed id') ∧
      (w.leaf anchor l row).2.edges = w.edges ∧
      (w.leaf anchor l row).2.Knows own (seen ++ [l.part own]) id' := by
  have hlookup := hw.lookup l
  by_cases hmem : l.part own ∈ seen
  · rw [if_pos hmem] at hlookup
    rw [leaf_of_lookup hlookup]
    exact ⟨id, fun _ _ => rfl, rfl, by simp [Occurrence.firsts, hmem], rfl, hw.again hmem⟩
  · rw [if_neg hmem] at hlookup
    rw [leaf_of_new hlookup]
    generalize w.ids.claimNode (under anchor l.base) = given
    have hname : (l.part own).isName = l.isName := by rw [hw.part_eq_leaf hmem, Part.isName]
    refine ⟨Function.update id (l.part own) given.1, fun p hp => update_eq_of_mem hmem hp _,
      (Function.update_self (l.part own) given.1 id).symm, ?_, rfl,
      List.mem_append_left _ hw.formula, fun l' => ?_⟩
    · simp [Occurrence.firsts, hmem, Occurrence.placed, hname]
    · by_cases hl : l' = l
      · subst hl
        simp
      · rw [List.lookup_cons, beq_eq_false_iff_ne.mpr hl]
        exact hw.lookup_of_ne _ _ fun heq => hl (Leaf.part_injective own heq)

/-- An operator is a part of its own. -/
theorem Knows.operator (hw : w.Knows own seen id) (anchor : Option String) (label : String)
    (row : Nat) (address : List Nat) :
    (w.operator anchor label row).2.Knows own (seen ++ [.operator address])
      (Function.update id (.operator address) (w.operator anchor label row).1) :=
  ⟨List.mem_append_left _ hw.formula, fun l =>
    hw.lookup_of_ne _ _ (Leaf.part_ne_operator own l address)⟩

/-- Connecting two nodes draws an edge between them behind the edges there are. -/
theorem map_unnamed_connect (w : Walk) (source target : String) (kind : EdgeKind) :
    (w.connect source target kind).edges.map Edge.unnamed =
      w.edges.map Edge.unnamed ++ [(source, target, kind, none)] := by
  rw [connect_eq, List.map_append]
  rfl

/-- Ids that agree on the parts of a tree place the same nodes. -/
theorem map_placed_congr {e : Expr} {address : List Nat} {row : Nat} {id' : Part → String}
    (h : ∀ p ∈ (e.occurrences own address row).map Occurrence.part, id' p = id p)
    (seen : List Part) :
    (Occurrence.firsts seen (e.occurrences own address row)).map (Occurrence.placed id') =
      (Occurrence.firsts seen (e.occurrences own address row)).map (Occurrence.placed id) := by
  refine List.map_congr_left fun o ho => ?_
  rw [Occurrence.placed, Occurrence.placed,
    h _ (List.mem_map_of_mem (Occurrence.mem_of_mem_firsts ho))]

/-- Ids that agree on the parts of a tree draw the same edges. -/
theorem map_inputs_congr {e : Expr} {address : List Nat} {row : Nat} {id' : Part → String}
    (h : ∀ p ∈ (e.occurrences own address row).map Occurrence.part, id' p = id p) :
    (e.inputs own address).map (inputEdge id') = (e.inputs own address).map (inputEdge id) := by
  refine List.map_congr_left fun input hinput => ?_
  obtain ⟨hp, hq⟩ := Expr.mem_occurrences_of_mem_inputs hinput row
  rw [inputEdge, inputEdge, h _ hp, h _ hq]

/-- The walk through a tree realizes it, if no operator at its address or below was seen before. -/
theorem exists_realizes (anchor : Option String) (e : Expr) {address : List Nat} (row : Nat)
    {w : Walk} (hw : w.Knows own seen id) (hunseen : Unseen seen address) :
    ∃ id', Realizes own seen id w e address row (through anchor e row w) id' := by
  induction e generalizing address row seen id w with
  | number x =>
    obtain ⟨id', hkeeps, hroot, hplaced, hedges, hknows⟩ :=
      exists_realizes_leaf hw anchor (.constant x.plain) row
    exact ⟨id', hkeeps, hroot, hplaced, by rw [through, hedges]; simp [Expr.inputs], hknows⟩
  | identifier name =>
    obtain ⟨id', hkeeps, hroot, hplaced, hedges, hknows⟩ :=
      exists_realizes_leaf hw anchor (.name name) row
    exact ⟨id', hkeeps, hroot, hplaced, by rw [through, hedges]; simp [Expr.inputs], hknows⟩
  | binary op left right ihl ihr =>
    have hop := hw.operator anchor op.label row address
    obtain ⟨id₁, hl⟩ := ihl (row + 1) hop (hunseen.operand 0)
    obtain ⟨id₂, hr⟩ := ihr (row + 1) hl.knows (hunseen.second own (row + 1) left)
    have hleft : ∀ p ∈ (left.occurrences own (address ++ [0]) (row + 1)).map Occurrence.part,
        id₂ p = id₁ p := fun p hp => hr.keeps p (List.mem_append_right _ hp)
    have hbefore {p : Part} (hp : p ∈ seen ++ [.operator address]) :
        id₂ p = Function.update id (.operator address) (w.operator anchor op.label row).1 p :=
      (hr.keeps p (List.mem_append_left _ hp)).trans (hl.keeps p hp)
    have hself : id₂ (.operator address) = (w.operator anchor op.label row).1 := by
      rw [hbefore (List.mem_append_right _ (List.mem_singleton_self _)), Function.update_self]
    rw [through_binary]
    refine ⟨id₂, fun p hp => ?_, hself.symm, ?_, ?_, ?_⟩
    · rw [hbefore (List.mem_append_left _ hp), update_eq_of_mem hunseen.not_mem hp]
    · change (through anchor right (row + 1) _).2.placed = _
      rw [hr.placed_eq, hl.placed_eq, Expr.occurrences, Occurrence.firsts, if_neg hunseen.not_mem,
        Occurrence.firsts_append, operator_eq]
      simp [Occurrence.placed, hself, Part.isName, operator_eq, map_placed_congr hleft]
    · rw [map_unnamed_connect, map_unnamed_connect, hr.edges_eq, hl.edges_eq, hl.root_eq,
        hr.root_eq, Expr.inputs, List.map_append, List.map_append, map_inputs_congr hleft]
      simp [inputEdge, hself, hleft _ (Expr.part_mem_occurrences ..), operator_eq]
    · have hknows := hr.knows
      rw [List.append_assoc, List.append_assoc] at hknows
      rw [Expr.occurrences, List.map_cons, List.map_append]
      exact ⟨hknows.formula, hknows.lookup⟩
  | signed sign operand ih =>
    have hop := hw.operator anchor sign.label row address
    obtain ⟨id', h⟩ := ih (row + 1) hop (hunseen.operand 0)
    have hself : id' (.operator address) = (w.operator anchor sign.label row).1 := by
      rw [h.keeps _ (List.mem_append_right _ (List.mem_singleton_self _)), Function.update_self]
    rw [through_signed]
    refine ⟨id', fun p hp => ?_, hself.symm, ?_, ?_, ?_⟩
    · rw [h.keeps p (List.mem_append_left _ hp), update_eq_of_mem hunseen.not_mem hp]
    · change (through anchor operand (row + 1) _).2.placed = _
      rw [h.placed_eq, Expr.occurrences, Occurrence.firsts, if_neg hunseen.not_mem, operator_eq]
      simp [Occurrence.placed, hself, Part.isName, operator_eq]
    · rw [map_unnamed_connect, h.edges_eq, h.root_eq, Expr.inputs, List.map_append]
      simp [inputEdge, hself, operator_eq]
    · have hknows := h.knows
      rw [List.append_assoc] at hknows
      exact ⟨hknows.formula, hknows.lookup⟩

end Walk

/-! ## The drawing of a formula -/

/-- The node of an occurrence, the one with index `i` among those that are `kept`. It stands on the
row of the occurrence, next to the ones before it there, and every row is centred. -/
def Occurrence.node (m : Measures ℚ) (id : Part → String) (kept : List Occurrence) (o : Occurrence)
    (i : Nat) : Node ℚ :=
  let index := (kept.take i).countP (·.row == o.row)
  let count := kept.countP (·.row == o.row)
  ⟨id o.part, o.label, o.kind, m.centerX + ((index : ℚ) - (count - 1) / 2) * m.nodeSpacing,
    m.rootY + o.row * m.levelHeight⟩

namespace Layout

/-- Nodes of a row stand around its centre with equal spacing. -/
theorem rowX_eq (center spacing : ℚ) (index count : Nat) :
    rowX center spacing index count = center + ((index : ℚ) - (count - 1) / 2) * spacing := by
  change center + ((2 * index - (count - 1) : Int) : ℚ) / 2 * spacing = _
  push_cast
  ring

/-- Rows lie below each other with equal distances. -/
theorem rowY_eq (top height : ℚ) (row : Nat) : rowY top height row = top + row * height := by
  change top + ((2 * row : Int) : ℚ) / 2 * height = _
  push_cast
  ring

/-- The nodes of a walk, settled, are those of the occurrences that it has placed. -/
theorem settle_map_placed (m : Measures ℚ) (id : Part → String) (kept : List Occurrence) :
    settle m.centerX m.rootY m.nodeSpacing m.levelHeight (kept.map (Occurrence.placed id)) =
      kept.zipIdx.map fun (o, i) => o.node m id kept i := by
  have hcount (os : List Occurrence) (row : Nat) :
      (os.map (Occurrence.placed id)).countP (·.row == row) = os.countP (·.row == row) := by
    rw [List.countP_map]
    rfl
  rw [settle, List.zipIdx_map, List.map_map]
  refine List.map_congr_left fun oi _ => ?_
  obtain ⟨o, i⟩ := oi
  dsimp only [Function.comp_apply, Prod.map_apply]
  rw [← List.map_take, hcount, hcount, rowX_eq, rowY_eq]
  rfl

/-- The nodes have the ids of their parts, in the order of the occurrences. -/
theorem map_id_nodes (m : Measures ℚ) (id : Part → String) (kept : List Occurrence) :
    (kept.zipIdx.map fun (o, i) => o.node m id kept i).map Node.id =
      kept.map fun o => id o.part := by
  calc (kept.zipIdx.map fun (o, i) => o.node m id kept i).map Node.id
      = kept.zipIdx.map fun oi => id oi.1.part := by rw [List.map_map]; rfl
    _ = (kept.zipIdx.map Prod.fst).map fun o => id o.part := by rw [List.map_map]; rfl
    _ = kept.map fun o => id o.part := by rw [List.zipIdx_map_fst]

/-- The drawing of the only formula of a book, in exact arithmetic, is what its tree says: the
formula on top, then its parts in the order of their first occurrences, each on the row of that
occurrence; and the inputs of all operators, with an edge from the root to the formula unless the
root is the formula's own name. -/
theorem of_single_eq (m : Measures ℚ) (name : String) {text : String} {e : Expr}
    (hf : Book.isFormula text = true) (he : Expr.parse text = .ok e) :
    let g := of (.ofList [(name, text)]) m [] name
    let kept := Occurrence.firsts [.formula] (e.occurrences name [] 1)
    (g.nodes.map Node.id).Nodup ∧ ∃ id : Part → String, id .formula = name ∧
      g.nodes = ⟨name, name, .result, m.centerX, m.rootY⟩ ::
        (kept.zipIdx.map fun (o, i) => o.node m id kept i) ∧
      g.edges.map Edge.unnamed = (e.inputs name []).map (inputEdge id) ++
        if e = .identifier name then [] else [(id (e.part name []), name, .output, none)] := by
  intro g kept
  obtain ⟨parts, hdraw, hclosed⟩ := of_single_closed m name hf he
  let c := firstCanvas m name
  have hc : c.Sound := Ids.tracks_nil.claimNode name
  have hg : g = draw m name (.full text e parts) := hdraw
  have hnodup : (g.nodes.map Node.id).Nodup := by
    rw [hg, draw_full]
    exact (sound_drawFull m name e parts hc List.mem_cons_self).nodup_nodes
  rw [draw_full_closed m name text e hclosed] at hg
  have hknows := Walk.knows_start c.ids name name c.edges
  have hunseen : Unseen [.formula] [] := fun a ha => by simp at ha
  obtain ⟨id, hid⟩ := Walk.exists_realizes none e 1 hknows hunseen
  have hformula : id .formula = name := hid.keeps _ (List.mem_singleton_self _)
  have hnodes : g.nodes = ⟨name, name, .result, m.centerX, m.rootY⟩ ::
      (kept.zipIdx.map fun (o, i) => o.node m id kept i) := by
    rw [hg, ← settle_map_placed]
    exact congrArg (resultNode m name :: settle _ _ _ _ ·)
      ((Layer.placed_fullWalk name name e c).trans hid.placed_eq)
  refine ⟨hnodup, id, hformula, hnodes, ?_⟩
  have hedges : g.edges = (Layer.fullWalk name name e c).edges := by rw [hg]; rfl
  have hinputs := hid.edges_eq
  rw [hedges, Layer.fullWalk]
  dsimp only
  by_cases hself : e = .identifier name
  · have hroot := hid.root_eq
    rw [Expr.part_eq_formula_iff.mpr hself, hformula] at hroot
    rw [if_pos hroot, if_pos hself, List.append_nil]
    exact hinputs
  · have hroot : id (e.part name []) ≠ name := by
      have hkept : e.part name [] ∈ kept.map Occurrence.part :=
        Occurrence.mem_firsts (Expr.part_mem_occurrences name [] 1 e)
          (mt List.mem_singleton.mp (mt Expr.part_eq_formula_iff.mp hself))
      obtain ⟨o, ho, hpart⟩ := List.mem_map.mp hkept
      rw [hnodes, List.map_cons, map_id_nodes, List.nodup_cons] at hnodup
      intro hroot
      exact hnodup.1 (List.mem_map.mpr ⟨o, ho, by rw [hpart, hroot]⟩)
    rw [hid.root_eq, if_neg hroot, if_neg hself, Walk.map_unnamed_connect, hinputs]
    rfl

/-- A tree with ten places, in which a name, a constant and the name of the formula occur again:
with the formula there are eight nodes. -/
theorem of_single_eq_repeated :
    let m : Measures ℚ := ⟨120, 120, 60, 400, 7 / 10, 6⟩
    let g := of (.ofList [("r", "a * 2 + -(r ^ (2 - a))")]) m [] "r"
    let inputs : List (Part × Part) :=
      [(.leaf (.name "a"), .operator [0]), (.leaf (.constant "2"), .operator [0]),
        (.leaf (.constant "2"), .operator [1, 0, 1]), (.leaf (.name "a"), .operator [1, 0, 1]),
        (.formula, .operator [1, 0]), (.operator [1, 0, 1], .operator [1, 0]),
        (.operator [1, 0], .operator [1]), (.operator [0], .operator []),
        (.operator [1], .operator [])]
    (g.nodes.map Node.id).Nodup ∧ g.nodes.map (fun n => (n.label, n.x, n.y)) =
      [("r", 400, 60), ("+", 400, 180), ("×", 340, 300), ("a", 280, 420), ("2", 400, 420),
        ("−", 460, 300), ("^", 520, 420), ("-", 400, 540)] ∧
      ∃ id : Part → String, g.edges.map Edge.unnamed =
        inputs.map (inputEdge id) ++ [(id (.operator []), "r", .output, none)] := by
  intro m g inputs
  let two : Expr := .number (.ofDecimal false ⟨2, 0⟩)
  let e : Expr := .binary .add (.binary .multiply (.identifier "a") two)
    (.signed .minus (.binary .power (.identifier "r") (.binary .subtract two (.identifier "a"))))
  have he : Expr.parse "a * 2 + -(r ^ (2 - a))" = .ok e := by decide +kernel
  have hinputs : e.inputs "r" [] = inputs := by decide +kernel
  obtain ⟨hnodup, id, -, -, hedges⟩ := of_single_eq m "r" (by decide +kernel) he
  rw [hinputs] at hedges
  exact ⟨hnodup, by decide +kernel, id, hedges⟩

end Layout

end FormulaBook
