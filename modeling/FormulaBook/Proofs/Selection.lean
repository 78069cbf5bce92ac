import FormulaBook.Proofs.Agreement
import FormulaBook.Proofs.Readback
import FormulaBook.Proofs.Sketches
import Mathlib.Data.List.Infix

/-!
# What a selection changes in a drawing

Opening a formula draws behind what is drawn already: nothing on the canvas is moved, renamed or
joined anew (`Layout.prefix_openAll`). So the drawing with nothing selected is where every other
drawing of the name begins. And a name counts in a selection only if it is a variable of the formula
drawn with a formula of its own that parses: any other variable stays closed whether it is selected
or not (`Plan.isClosed_grow`), and closed variables draw nothing (`Layout.openAll_congr`).
-/

namespace FormulaBook

/-- The name has a formula, and it parses. -/
def Book.HasTree (b : Book) (name : String) : Prop :=
  ∃ text e, b.formula? name = some text ∧ Expr.parse text = .ok e

namespace Plan

/-- The plan leaves its variable closed. -/
def IsClosed (p : Plan) : Prop := ∃ name reason, p = .closed name reason

/-- The plans open the same: they are one plan, or both leave their variables closed. -/
def OpensAlike (p q : Plan) : Prop := p = q ∨ p.IsClosed ∧ q.IsClosed

/-- A variable without a formula that parses stays closed. -/
theorem isClosed_grow {b : Book} {name : String} (h : ¬b.HasTree name) (maxDepth : Int)
    (path : List String) (depth : Nat) : (grow b maxDepth path depth name).IsClosed := by
  unfold grow
  split
  · exact ⟨_, _, rfl⟩
  · rename_i text htext
    split
    · exact ⟨_, _, rfl⟩
    · split
      · exact ⟨_, _, rfl⟩
      · split
        · exact ⟨_, _, rfl⟩
        · rename_i e he
          exact absurd ⟨text, e, htext, he⟩ h

end Plan

/-- The edges go on with others, none of which is direct. -/
def Edge.GoOn (es es' : List Edge) : Prop :=
  ∃ more : List Edge, es' = es ++ more ∧ ∀ e ∈ more, e.kind ≠ .direct

namespace Edge.GoOn

variable {es es' es'' : List Edge}

/-- Edges may go on with none. -/
theorem refl (es : List Edge) : GoOn es es :=
  ⟨[], (List.append_nil es).symm, fun _ h => absurd h List.not_mem_nil⟩

/-- Edges that go on may go on again. -/
theorem trans (h : GoOn es es') (h' : GoOn es' es'') : GoOn es es'' := by
  obtain ⟨more, rfl, hmore⟩ := h
  obtain ⟨more', rfl, hmore'⟩ := h'
  exact ⟨more ++ more', List.append_assoc .., List.forall_mem_append.mpr ⟨hmore, hmore'⟩⟩

/-- The edges stay where they are. -/
theorem isPrefix (h : GoOn es es') : es <+: es' := by
  obtain ⟨more, rfl, -⟩ := h
  exact List.prefix_append es more

/-- A direct edge was there before. -/
theorem mem_or_kind_ne (h : GoOn es es') {e : Edge} (he : e ∈ es') : e ∈ es ∨ e.kind ≠ .direct := by
  obtain ⟨more, rfl, hmore⟩ := h
  exact (List.mem_append.mp he).imp_right (hmore e)

end Edge.GoOn

namespace Walk

/-- The edges that a walk draws come behind those drawn before, and none of them is direct. -/
theorem Steps.goOn {anchor : Option String} {w w' : Walk} (h : Steps anchor w w') :
    Edge.GoOn w.edges w'.edges := by
  obtain ⟨es, hes, hkind⟩ := h.exists_edges
  refine ⟨es, hes, fun e he => ?_⟩
  rw [hkind e he]
  decide

/-- One more edge, if it is not direct. -/
theorem goOn_connect (w : Walk) (source target : String) {kind : EdgeKind}
    (hkind : kind ≠ .direct) : Edge.GoOn w.edges (w.connect source target kind).edges := by
  rw [connect_eq]
  exact ⟨[_], rfl, List.forall_mem_singleton.mpr hkind⟩

end Walk

namespace Layer

variable {α : Type}

/-- A formula opened draws its edges behind those drawn before. -/
theorem goOn_openedWalk (anchor : String) (e : Expr) (c : Canvas α) :
    Edge.GoOn c.edges (openedWalk anchor e c).edges := by
  have hl : (Walk.start c.ids [] c.edges).LeavesDrawn := fun p hp => nomatch hp
  have hsteps := (Walk.arrives_through (some anchor) e 1 _ hl).steps
  exact hsteps.goOn.trans (Walk.goOn_connect _ _ _ (by decide))

/-- The main formula draws its edges behind those drawn before. -/
theorem goOn_fullWalk (name : String) {result : String} (e : Expr) {c : Canvas α}
    (hr : result ∈ c.ids.nodes) : Edge.GoOn c.edges (fullWalk name result e c).edges := by
  have hsteps := (Walk.arrives_through none e 1 _ (leavesDrawn_start name hr)).steps
  unfold fullWalk
  dsimp only
  split
  · exact hsteps.goOn
  · exact hsteps.goOn.trans (Walk.goOn_connect _ _ _ (by decide))

end Layer

namespace Layout

variable {α : Type} [Coordinate α]

/-! ## What is drawn stays -/

mutual

/-- Opening a plan keeps the edges and adds more behind them, none of them direct. -/
theorem goOn_openAt (m : Measures α) (anchor : Node α) (spacing : α) :
    ∀ (p : Plan) (c : Canvas α), Edge.GoOn c.edges (openAt m anchor spacing p c).edges
  | .closed name reason, c => by
    rw [openAt_closed]
    exact .refl _
  | .opened name text e inner, c => by
    rw [openAt_opened]
    have hlayer : Edge.GoOn c.edges ((Layer.opened m anchor spacing e c).onto c).edges :=
      Layer.goOn_openedWalk anchor.id e c
    exact hlayer.trans (goOn_openAll m _ _ inner _)

/-- Opening several plans keeps the edges and adds more behind them, none of them direct. -/
theorem goOn_openAll (m : Measures α) (as : List (Node α)) (spacing : α) :
    ∀ (ps : List Plan) (c : Canvas α), Edge.GoOn c.edges (openAll m as spacing ps c).edges
  | [], c => by
    rw [openAll_nil]
    exact .refl _
  | p :: ps, c => by
    cases as with
    | nil =>
      rw [openAll_no_anchors]
      exact .refl _
    | cons a as =>
      rw [openAll_cons]
      exact (goOn_openAt m a spacing p c).trans (goOn_openAll m as spacing ps _)

end

/-- What is on the canvas stays there, and what is opened comes behind it. -/
theorem prefix_openAll (m : Measures α) (as : List (Node α)) (spacing : α) (ps : List Plan)
    (c : Canvas α) :
    c.nodes <+: (openAll m as spacing ps c).nodes ∧
      c.edges <+: (openAll m as spacing ps c).edges := by
  refine ⟨?_, (goOn_openAll m as spacing ps c).isPrefix⟩
  rw [nodes_openAll m [] 0]
  exact List.prefix_append _ _

/-- A formula drawn with nothing opened is where each drawing of it begins. -/
theorem prefix_draw_full (m : Measures α) (name text : String) (e : Expr) {closed : List Plan}
    (h : ∀ p ∈ closed, p.IsClosed) (parts : List Plan) :
    (draw m name (.full text e closed)).nodes <+: (draw m name (.full text e parts)).nodes ∧
      (draw m name (.full text e closed)).edges <+: (draw m name (.full text e parts)).edges := by
  let l := Layer.full m name (resultNode m name).id e (firstCanvas m name)
  rw [draw_full_closed m name text e h, draw_full]
  exact prefix_openAll m l.mentions _ parts (l.onto (firstCanvas m name))

/-! ## What a selection depends on -/

/-- Plans that open the same draw the same. -/
theorem openAt_congr (m : Measures α) (anchor : Node α) (spacing : α) {p q : Plan}
    (h : p.OpensAlike q) (c : Canvas α) :
    openAt m anchor spacing p c = openAt m anchor spacing q c := by
  rcases h with rfl | ⟨⟨_, _, rfl⟩, _, _, rfl⟩
  · rfl
  · rw [openAt_closed, openAt_closed]

/-- Plans that open the same, one by one, make one drawing. -/
theorem openAll_congr (m : Measures α) (as : List (Node α)) (spacing : α) {ps qs : List Plan}
    (h : List.Forall₂ Plan.OpensAlike ps qs) (c : Canvas α) :
    openAll m as spacing ps c = openAll m as spacing qs c := by
  induction h generalizing as c with
  | nil => rfl
  | cons hpq _ ih =>
    cases as with
    | nil => rw [openAll_no_anchors, openAll_no_anchors]
    | cons a as => rw [openAll_cons, openAll_cons, openAt_congr m a spacing hpq, ih]

/-- The drawing with nothing selected is where every drawing of the name begins, and selections that
agree on the variables of its formula whose own formulas parse give one drawing. -/
theorem of_selected (b : Book) (m : Measures α) (name : String) :
    (∀ selected, (of b m [] name).nodes <+: (of b m selected name).nodes ∧
      (of b m [] name).edges <+: (of b m selected name).edges) ∧
    ∀ s t : List String, (∀ v, b.Depends name v → b.HasTree v → (v ∈ s ↔ v ∈ t)) →
      of b m s name = of b m t name := by
  cases htext : b.formula? name with
  | none =>
    simp only [of, Scheme.of, htext]
    exact ⟨fun _ => ⟨List.prefix_rfl, List.prefix_rfl⟩, fun _ _ _ => trivial⟩
  | some text =>
    cases hparse : Expr.parse text with
    | error =>
      simp only [of, Scheme.of, htext, hparse]
      exact ⟨fun _ => ⟨List.prefix_rfl, List.prefix_rfl⟩, fun _ _ _ => trivial⟩
    | ok e =>
      simp only [of, Scheme.of, htext, hparse]
      refine ⟨fun selected => prefix_draw_full m name text e (fun p hp => ?_) _,
        fun s t hst => ?_⟩
      · obtain ⟨v, -, rfl⟩ := List.mem_map.mp hp
        exact ⟨v, .unselected, rfl⟩
      · rw [draw_full, draw_full, drawFull_eq, drawFull_eq, openAll_congr]
        rw [List.forall₂_map_left_iff, List.forall₂_map_right_iff, List.forall₂_same]
        intro v hv
        have hvar : b.Depends name v :=
          ⟨text, htext, Analysis.vars_of_parse hparse ▸ List.mem_of_mem_filter hv⟩
        by_cases htree : b.HasTree v
        · have hmem : s.contains v = t.contains v := by
            rw [Bool.eq_iff_iff, List.contains_iff_mem, List.contains_iff_mem]
            exact hst v hvar htree
          rw [hmem]
          exact .inl rfl
        · have hclosed (selected : Bool) : Plan.IsClosed
              (if selected then .grow b m.maxExpansionDepth [name] 1 v
                else .closed v .unselected) := by
            split
            · exact Plan.isClosed_grow htree _ _ _
            · exact ⟨_, _, rfl⟩
          exact .inr ⟨hclosed _, hclosed _⟩

/-- Of these selections the second has more names: one whose formula does not parse, one without a
formula, and one that nothing mentions. -/
theorem of_selected_idle_names :
    let b := Book.ofList [("r", "a + b - c"), ("a", "x * r"), ("b", "(")]
    let m := Measures.standard
    (of b m [] "r").nodes <+: (of b m ["a"] "r").nodes ∧
      of b m ["a"] "r" = of b m ["z", "c", "b", "a"] "r" := by
  intro b m
  refine ⟨((of_selected b m "r").1 ["a"]).1, (of_selected b m "r").2 _ _ ?_⟩
  rintro v ⟨text, htext, hv⟩ ⟨text', e, htext', he⟩
  have hroot : b.formula? "r" = some "a + b - c" := by decide +kernel
  have hvars : (Analysis.of "a + b - c").vars = ["a", "b", "c"] := by decide +kernel
  obtain rfl := Option.some.inj (htext.symm.trans hroot)
  simp only [hvars, List.mem_cons, List.not_mem_nil, or_false] at hv
  rcases hv with rfl | rfl | rfl
  · simp
  · have hb : b.formula? "b" = some "(" := by decide +kernel
    have hparse : (Expr.parse "(").isOk = false := by decide +kernel
    obtain rfl := Option.some.inj (htext'.symm.trans hb)
    rw [he] at hparse
    cases hparse
  · have hc : b.formula? "c" = none := by decide +kernel
    cases htext'.symm.trans hc

end Layout

end FormulaBook
