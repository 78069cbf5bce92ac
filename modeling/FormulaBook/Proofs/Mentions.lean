import FormulaBook.Proofs.Layers

/-!
# What a layer mentions

A walk places every name of its formula once, in the order of first occurrence, unless the name is
known when the walk begins (`Walk.names_through`). So the names of a formula opened are its
variables, and those of the formula drawn are its variables but its own name
(`Layer.map_label_mentions_opened`, `Layer.map_label_mentions_full`). A layer draws one edge of the
kind `output`, to the node it hangs from; only the formula drawn draws none if its root is that
node (`Layer.outputs_openedWalk`, `Layer.outputs_fullWalk`).
-/

namespace FormulaBook

namespace Text

/-- What is left out of a list does not change which entry is the first of its kind. -/
theorem eraseDups_filter (q : String → Bool) : ∀ l : List String,
    (l.filter q).eraseDups = l.eraseDups.filter q
  | [] => rfl
  | s :: l => by
    have ih := eraseDups_filter q (l.filter (!· == s))
    rw [List.eraseDups_cons]
    cases hs : q s with
    | true =>
      rw [List.filter_cons_of_pos hs, List.eraseDups_cons, List.filter_cons_of_pos hs, ← ih,
        List.filter_filter, List.filter_filter]
      simp only [Bool.and_comm]
    | false =>
      rw [List.filter_cons_of_neg (by simp [hs]), List.filter_cons_of_neg (by simp [hs]), ← ih,
        List.filter_filter]
      refine congrArg List.eraseDups (List.filter_congr fun t _ => ?_)
      by_cases ht : t = s <;> simp [ht, hs]
termination_by l => l.length
decreasing_by exact Nat.lt_succ_of_le (List.length_filter_le _ l)

end Text

namespace Walk

variable {w w' : Walk} {anchor : Option String}

/-! ## Names of a walk -/

/-- The names placed so far, in order. -/
def names (w : Walk) : List String := (w.placed.filter (·.named)).map Placed.label

/-- Whether a name has no node yet. -/
def isUnknown (w : Walk) (name : String) : Bool := (w.leaves.lookup (.name name)).isNone

/-- A walk to a leaf makes its name known and no other. -/
theorem isUnknown_leaf (w : Walk) (anchor : Option String) (l : Leaf) (row : Nat)
    (name : String) :
    (w.leaf anchor l row).2.isUnknown name = (w.isUnknown name && Leaf.name name != l) := by
  cases hl : w.leaves.lookup l with
  | some id =>
    rw [leaf_of_lookup hl]
    by_cases he : Leaf.name name = l
    · simp [isUnknown, he, hl]
    · simp [he]
  | none =>
    rw [leaf_of_new hl]
    by_cases he : Leaf.name name = l
    · simp [isUnknown, he]
    · have hbeq : (Leaf.name name == l) = false := beq_eq_false_iff_ne.mpr he
      simp [isUnknown, List.lookup_cons, bne, hbeq]

/-- Of one leaf known before, the other names have no node yet. -/
theorem isUnknown_start (ids : Ids) (name id : String) (edges : List Edge) (s : String) :
    (start ids [(.name name, id)] edges).isUnknown s = (s != name) := by
  by_cases hs : s = name
  · simp [isUnknown, start, hs]
  · have hbeq : (Leaf.name s == Leaf.name name) = false := beq_eq_false_iff_ne.mpr (by simp [hs])
    simp [isUnknown, start, List.lookup_cons, hs, hbeq]

/-- A name is placed if it has no node yet. -/
theorem names_leaf_name (w : Walk) (anchor : Option String) (name : String) (row : Nat) :
    (w.leaf anchor (.name name) row).2.names = w.names ++ [name].filter w.isUnknown := by
  cases hl : w.leaves.lookup (.name name) with
  | some id => simp [leaf_of_lookup hl, isUnknown, hl]
  | none => simp [leaf_of_new hl, names, isUnknown, hl, Leaf.isName, Leaf.text]

/-- A constant is no name. -/
theorem names_leaf_constant (w : Walk) (anchor : Option String) (text : String) (row : Nat) :
    (w.leaf anchor (.constant text) row).2.names = w.names := by
  cases hl : w.leaves.lookup (.constant text) with
  | some id => rw [leaf_of_lookup hl]
  | none => simp [leaf_of_new hl, names, Leaf.isName]

/-- Placing an operator places no name. -/
theorem names_operator (w : Walk) (anchor : Option String) (label : String) (row : Nat) :
    (w.operator anchor label row).2.names = w.names := by
  simp [operator_eq, names]

@[simp] theorem names_connect (w : Walk) (source target : String) (kind : EdgeKind) :
    (w.connect source target kind).names = w.names := rfl

@[simp] theorem isUnknown_operator (w : Walk) (anchor : Option String) (label : String)
    (row : Nat) : (w.operator anchor label row).2.isUnknown = w.isUnknown := rfl

@[simp] theorem isUnknown_connect (w : Walk) (source target : String) (kind : EdgeKind) :
    (w.connect source target kind).isUnknown = w.isUnknown := rfl

/-- After the walk through a tree the names in it have their nodes. -/
theorem isUnknown_through (anchor : Option String) (e : Expr) (row : Nat) (w : Walk)
    (name : String) :
    (through anchor e row w).2.isUnknown name =
      (w.isUnknown name && !e.identifiers.contains name) := by
  induction e generalizing row w with
  | number x => simp [through, isUnknown_leaf, Expr.identifiers]
  | identifier s =>
    by_cases hs : name = s <;> simp [through, isUnknown_leaf, Expr.identifiers, hs]
  | binary op left right ihl ihr =>
    rw [through_binary]
    simp only [isUnknown_connect]
    rw [ihr, ihl, isUnknown_operator, Bool.and_assoc]
    simp [Expr.identifiers]
  | signed sign operand ih =>
    rw [through_signed]
    simp only [isUnknown_connect]
    rw [ih, isUnknown_operator]
    rfl

/-- The walk through a tree places the names in it that have no node yet, each at its first
occurrence. -/
theorem names_through (anchor : Option String) (e : Expr) (row : Nat) (w : Walk) :
    (through anchor e row w).2.names = w.names ++ e.vars.filter w.isUnknown := by
  induction e generalizing row w with
  | number x => simp [through, names_leaf_constant, Expr.vars, Expr.identifiers]
  | identifier s =>
    simp [through, names_leaf_name, Expr.vars, Expr.identifiers, List.eraseDups_cons]
  | binary op left right ihl ihr =>
    rw [through_binary]
    simp only [names_connect]
    rw [ihr, ihl, names_operator, isUnknown_operator, List.append_assoc]
    congr 1
    rw [Expr.vars, Expr.vars, Expr.vars, Expr.identifiers, List.eraseDups_append, List.removeAll,
      Text.eraseDups_filter, List.filter_append, List.filter_filter]
    congr 1
    refine List.filter_congr fun s _ => ?_
    rw [isUnknown_through, isUnknown_operator]
  | signed sign operand ih =>
    rw [through_signed]
    simp only [names_connect]
    rw [ih, names_operator, isUnknown_operator]
    rfl

end Walk

/-! ## Output edges -/

/-- The targets of the edges of the kind `output`, in order. -/
def Edge.outputs (edges : List Edge) : List String :=
  (edges.filter (·.kind = .output)).map Edge.target

@[simp] theorem Edge.outputs_append (es fs : List Edge) :
    outputs (es ++ fs) = outputs es ++ outputs fs := by
  simp [outputs]

namespace Walk

variable {w w' : Walk} {anchor : Option String}

/-- A step of a walk draws no output edge. -/
theorem Step.outputs (h : Step anchor w w') : Edge.outputs w'.edges = Edge.outputs w.edges := by
  cases h with
  | leaf row hnew => rw [leaf_of_new hnew]
  | operator label row => rfl
  | connect hs ht hne => simp [connect_eq, Edge.outputs]

/-- The steps of a walk draw no output edge. -/
theorem Steps.outputs (h : Steps anchor w w') : Edge.outputs w'.edges = Edge.outputs w.edges :=
  h.preserves (P := fun u => Edge.outputs u.edges = Edge.outputs w.edges)
    (fun hstep ih => hstep.outputs.trans ih) rfl

end Walk

namespace Layer

variable {α : Type} {c : Canvas α}

/-- A formula opened draws one output edge, to its anchor. -/
theorem outputs_openedWalk (anchor : String) (e : Expr) (c : Canvas α) :
    Edge.outputs (openedWalk anchor e c).edges = Edge.outputs c.edges ++ [anchor] := by
  have hl : (Walk.start c.ids [] c.edges).LeavesDrawn := fun p hp => nomatch hp
  have hsteps := (Walk.arrives_through (some anchor) e 1 _ hl).steps.outputs
  unfold openedWalk
  dsimp only
  rw [Walk.connect_eq, Edge.outputs_append, hsteps]
  rfl

/-- The formula drawn draws an output edge to its result node, unless its root is that node. -/
theorem outputs_fullWalk (name : String) {result : String} (e : Expr)
    (hr : result ∈ c.ids.nodes) :
    Edge.outputs (fullWalk name result e c).edges = Edge.outputs c.edges ∨
      Edge.outputs (fullWalk name result e c).edges = Edge.outputs c.edges ++ [result] := by
  have hl : (Walk.start c.ids [(.name name, result)] c.edges).LeavesDrawn := by
    intro p hp
    rwa [List.mem_singleton.mp hp]
  have hsteps := (Walk.arrives_through none e 1 _ hl).steps.outputs
  unfold fullWalk
  dsimp only
  split
  · exact .inl hsteps
  · refine .inr ?_
    rw [Walk.connect_eq, Edge.outputs_append, hsteps]
    rfl

/-! ## Names of a layer -/

/-- The labels of the nodes that stand for names are the names placed. -/
theorem map_label_mentions (l : Layer α) : l.mentions.map Node.label = l.walk.names := by
  have h := l.shows
  rw [mentions, Layout.anchors, Walk.names]
  generalize l.walk.placed = placed, l.nodes = nodes at h
  induction h with
  | nil => rfl
  | @cons p n placed nodes hpn _ ih =>
    rw [List.zip_cons_cons, List.filter_cons, List.filter_cons]
    split
    · simp only [List.map_cons, hpn.2.1, ih]
    · exact ih

variable [Coordinate α]

/-- The names of a formula opened are its variables. -/
theorem map_label_mentions_opened (m : Measures α) (anchor : Node α) (spacing : α) (e : Expr)
    (c : Canvas α) : (opened m anchor spacing e c).mentions.map Node.label = e.vars := by
  rw [map_label_mentions]
  change (openedWalk anchor.id e c).names = _
  unfold openedWalk
  dsimp only
  rw [Walk.names_connect, Walk.names_through]
  exact List.filter_eq_self.mpr fun s _ => rfl

/-- The names of the formula drawn are its variables but its own name. -/
theorem map_label_mentions_full (m : Measures α) (name result : String) (e : Expr)
    (c : Canvas α) :
    (full m name result e c).mentions.map Node.label = e.vars.filter (· != name) := by
  have hnames : (fullWalk name result e c).names =
      (Walk.through none e 1 (.start c.ids [(.name name, result)] c.edges)).2.names := by
    unfold fullWalk
    dsimp only
    split <;> rfl
  rw [map_label_mentions]
  change (fullWalk name result e c).names = _
  rw [hnames, Walk.names_through]
  exact List.filter_congr fun s _ => Walk.isUnknown_start _ _ _ _ s

end Layer

end FormulaBook
