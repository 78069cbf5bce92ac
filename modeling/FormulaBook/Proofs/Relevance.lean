import FormulaBook.Proofs.Flow
import FormulaBook.Proofs.Reachability
import FormulaBook.Proofs.Selection
import Mathlib.Data.List.Infix
import Mathlib.Data.List.Nodup

/-!
# What matters for a tree and for a drawing

A book is only asked for formulas of names that are shown in the result: a dependency tree shows
every name it asks for (`Tree.grow_congr`), and a drawing asks for the name drawn and for names that
label its variables, since a variable has its node before its own formula is looked for
(`Plan.grow_congr`). So books that agree on what is shown for one of them show the same for both
(`Book.shown_determines`). Neither the order of the entries matters nor what is entered for a name
that is not shown.
-/

namespace FormulaBook

/-! ## What a book has for a name -/

/-- Putting a value at one key leaves the values at the others. -/
theorem Keyed.lookup_put_of_ne {key k value : String} (h : k ≠ key) (l : List (String × String)) :
    (put key value l).lookup k = l.lookup k := by
  have hk : (k == key) = false := beq_eq_false_iff_ne.mpr h
  induction l with
  | nil => simp [put, List.lookup_cons, hk]
  | cons e rest ih =>
    obtain ⟨n, text⟩ := e
    unfold put
    split
    · rename_i he
      obtain rfl : n = key := he
      rw [List.lookup_cons, List.lookup_cons, hk]
    · rw [List.lookup_cons, List.lookup_cons, ih]

namespace Book

variable {f g : Book} {name text : String}

/-- A name has the text it is entered with, since it is entered once. -/
theorem get?_eq_some_iff {b : Book} : b.get? name = some text ↔ (name, text) ∈ b.entries := by
  constructor
  · intro h
    obtain ⟨before, after, hentries, -⟩ := List.lookup_eq_some_iff.mp h
    simp [hentries]
  · intro h
    obtain ⟨before, after, hentries⟩ := List.append_of_mem h
    refine List.lookup_eq_some_iff.mpr ⟨before, after, hentries, fun e he => ?_⟩
    have hnodup := b.nodup
    rw [hentries, List.map_append, List.nodup_append] at hnodup
    have hne : e.1 ≠ name := hnodup.2.2 _ (List.mem_map_of_mem he) _ List.mem_cons_self
    exact bne_iff_ne.mpr hne.symm

/-- The order of the entries does not matter for what a name has. -/
theorem get?_eq_of_perm (h : f.entries.Perm g.entries) (name : String) :
    f.get? name = g.get? name :=
  Option.ext fun text => by
    rw [get?_eq_some_iff, get?_eq_some_iff]
    exact h.mem_iff

/-- Inserting one name leaves the entries of the others. -/
theorem get?_insert_of_ne {n : String} (h : n ≠ name) (b : Book) (text : String) :
    (b.insert name text).get? n = b.get? n :=
  Keyed.lookup_put_of_ne h b.entries

/-- Erasing one name leaves the entries of the others. -/
theorem get?_erase_of_ne {n : String} (h : n ≠ name) (b : Book) :
    (b.erase name).get? n = b.get? n :=
  Option.ext fun text => by
    rw [get?_eq_some_iff, get?_eq_some_iff, erase, List.mem_filter]
    exact and_iff_left (bne_iff_ne.mpr h)

/-- Books with the same entry for a name have the same formula for it. -/
theorem formula?_eq_of_get?_eq {n : String} (h : f.get? n = g.get? n) :
    f.formula? n = g.formula? n :=
  congrArg (Option.filter isFormula) h

end Book

/-! ## Dependency trees -/

/-- Books that agree on the names in a tree grow the same tree. -/
theorem Tree.grow_congr {f g : Book} {maxDepth : Int} {path : List String} {depth : Nat}
    {name : String} (h : ∀ t ∈ (grow f maxDepth path depth name).preorder,
      f.formula? t.name = g.formula? t.name) :
    grow g maxDepth path depth name = grow f maxDepth path depth name := by
  induction path, depth, name using Book.induction_off_path (b := f) with
  | step path depth name ih =>
  have hname : f.formula? name = g.formula? name := by
    simpa using h _ (self_mem_preorder _)
  rw [grow_eq g, grow_eq f, Role.of_congr hname]
  congr 1
  refine List.map_congr_left fun v hv => ?_
  obtain ⟨hpath, hdepth, hdepends⟩ := Role.mem_vars_of.mp hv
  exact ih hpath v hdepends fun t ht =>
    h t (mem_preorder_grow.mpr (.inr ⟨hpath, hdepth, v, hdepends, ht⟩))

/-! ## Drawings -/

/-- The books give every name that labels a variable among the nodes the same formula, or both
none. -/
def Book.AgreeOn {α : Type} (f g : Book) (nodes : List (Node α)) : Prop :=
  ∀ n ∈ nodes, n.kind = .quantity → Text.isName n.label = true →
    f.formula? n.label = g.formula? n.label

/-- Books that agree on some nodes agree on fewer. -/
theorem Book.AgreeOn.of_subset {α : Type} {f g : Book} {ns ks : List (Node α)}
    (h : f.AgreeOn g ns) (hsub : ks ⊆ ns) : f.AgreeOn g ks :=
  fun n hn => h n (hsub hn)

namespace Layer

variable {α : Type} [Coordinate α]

/-- The names of a formula opened label variables. -/
theorem kind_of_mem_mentions_opened (m : Measures α) (anchor : Node α) (spacing : α) (e : Expr)
    (c : Canvas α) : ∀ n ∈ (opened m anchor spacing e c).mentions, n.kind = .quantity := by
  intro n hn
  obtain ⟨p, hp, hnamed, hkind⟩ := exists_placed_of_mem_mentions hn
  have hsteps := (Walk.arrives_through (some anchor.id) e 1 (.start c.ids [] c.edges)
    fun p hp => nomatch hp).steps
  have hregisters := hsteps.registers (Walk.registers_start c.ids c.edges List.nodup_nil)
  rcases hregisters.placed_cases p hp with ⟨-, hother⟩ | ⟨hquantity, -⟩
  · cases hnamed.symm.trans hother
  · exact hkind.trans hquantity

/-- The names of the formula drawn label variables. -/
theorem kind_of_mem_mentions_full (m : Measures α) (name result : String) (e : Expr)
    (c : Canvas α) (hr : result ∈ c.ids.nodes) :
    ∀ n ∈ (full m name result e c).mentions, n.kind = .quantity := by
  intro n hn
  obtain ⟨p, hp, hnamed, hkind⟩ := exists_placed_of_mem_mentions hn
  have hplaced : p ∈ (fullWalk name result e c).placed := hp
  rw [placed_fullWalk] at hplaced
  have hdrawn : (Walk.start c.ids [(.name name, result)] c.edges).LeavesDrawn := by
    intro p hp
    rwa [List.mem_singleton.mp hp]
  have hsteps := (Walk.arrives_through none e 1 _ hdrawn).steps
  have hregisters := hsteps.registers (Walk.registers_start c.ids c.edges (List.nodup_singleton _))
  rcases hregisters.placed_cases p hplaced with ⟨-, hother⟩ | ⟨hquantity, -⟩
  · cases hnamed.symm.trans hother
  · exact hkind.trans hquantity

end Layer

namespace Layout

variable {α : Type} [Coordinate α]

/-- Of several formulas opened each has its nodes on the canvas at the end. -/
theorem exists_openAt_subset (m : Measures α) {as : List (Node α)} (spacing : α) {ps : List Plan}
    (c : Canvas α) (hlength : as.length = ps.length) {p : Plan} (hp : p ∈ ps) :
    ∃ a c', (openAt m a spacing p c').nodes ⊆ (openAll m as spacing ps c).nodes := by
  induction ps generalizing as c with
  | nil => cases hp
  | cons q ps ih =>
    obtain ⟨a, as, rfl⟩ := List.exists_cons_of_length_eq_add_one hlength
    rw [openAll_cons]
    rcases List.mem_cons.mp hp with rfl | hp
    · exact ⟨a, c, (prefix_openAll m as spacing ps _).1.subset⟩
    · exact ih _ (Nat.succ.inj hlength) hp

end Layout

variable {α : Type} [Coordinate α] {f g : Book} {maxDepth : Int}

/-- Books that agree on what is drawn from a layer on agree on each of its names and on what is
drawn where the name is opened. -/
theorem Layer.agreeOn_of_mem (m : Measures α) {l : Layer α} {spacing : α} {c : Canvas α}
    {vs : List String} {F : String → Plan} (hlabels : l.mentions.map Node.label = vs)
    (hkind : ∀ n ∈ l.mentions, n.kind = .quantity) (hnames : ∀ v ∈ vs, Text.IsName v)
    (h : f.AgreeOn g (Layout.openAll m l.mentions spacing (vs.map F) (l.onto c)).nodes)
    {v : String} (hv : v ∈ vs) :
    f.formula? v = g.formula? v ∧
      ∃ a c', f.AgreeOn g (Layout.openAt m a spacing (F v) c').nodes := by
  constructor
  · have hname := Text.isName_iff.mpr (hnames v hv)
    rw [← hlabels] at hv
    obtain ⟨n, hn, rfl⟩ := List.mem_map.mp hv
    refine h n ((Layout.prefix_openAll m _ spacing _ _).1.subset ?_) (hkind n hn) hname
    exact List.mem_append_right _ (l.mentions_sublist.subset hn)
  · have hlength : l.mentions.length = (vs.map F).length := by
      rw [← hlabels, List.length_map, List.length_map]
    obtain ⟨a, c', hsub⟩ := Layout.exists_openAt_subset m spacing (l.onto c) hlength
      (List.mem_map_of_mem hv)
    exact ⟨a, c', h.of_subset hsub⟩

/-- The variables of a formula are names. -/
theorem Expr.isName_of_mem_vars {text : String} {e : Expr} (h : Expr.parse text = .ok e)
    {v : String} (hv : v ∈ e.vars) : Text.IsName v :=
  (isUnsigned_of_parse h).2 v (List.mem_eraseDups.mp hv)

namespace Plan

/-- Books that agree on a variable and on what is drawn when it is opened plan the same for it. -/
theorem grow_congr (m : Measures α) {path : List String} {depth : Nat} {name : String}
    (hname : f.formula? name = g.formula? name) {anchor : Node α} {spacing : α} {c : Canvas α}
    (h : f.AgreeOn g
      (Layout.openAt m anchor spacing (grow f maxDepth path depth name) c).nodes) :
    grow g maxDepth path depth name = grow f maxDepth path depth name := by
  fun_induction grow f maxDepth path depth name generalizing anchor spacing c with
  | case1 path depth name htext =>
    rw [grow]
    split
    · rfl
    · cases htext.symm.trans (hname.trans ‹_›)
  | case2 path depth name text htext hpath =>
    rw [grow]
    split
    · cases htext.symm.trans (hname.trans ‹_›)
    · rw [dif_pos hpath]
  | case3 path depth name text htext hpath hdepth =>
    rw [grow]
    split
    · cases htext.symm.trans (hname.trans ‹_›)
    · rw [dif_neg hpath, if_pos hdepth]
  | case4 path depth name text htext hpath hdepth reason hparse =>
    rw [grow]
    split
    · cases htext.symm.trans (hname.trans ‹_›)
    · obtain rfl := Option.some.inj (htext.symm.trans (hname.trans ‹_›))
      rw [dif_neg hpath, if_neg hdepth]
      simp only [hparse]
  | case5 path depth name text htext hpath hdepth e hparse ih =>
    rw [Layout.openAt_opened] at h
    have hagree {v : String} := Layer.agreeOn_of_mem m
      (Layer.map_label_mentions_opened m anchor spacing e c)
      (Layer.kind_of_mem_mentions_opened m anchor spacing e c)
      (fun v => Expr.isName_of_mem_vars hparse) h (v := v)
    rw [grow]
    split
    · cases htext.symm.trans (hname.trans ‹_›)
    · obtain rfl := Option.some.inj (htext.symm.trans (hname.trans ‹_›))
      rw [dif_neg hpath, if_neg hdepth]
      simp only [hparse]
      congr 1
      refine List.map_congr_left fun v hv => ?_
      obtain ⟨hvar, a, c', hopened⟩ := hagree hv
      exact ih v hvar hopened

end Plan

/-- Books that agree on the name drawn and on the variables of the drawing have the same scheme. -/
theorem Scheme.of_congr {α : Type} [Coordinate α] (m : Measures α) {f g : Book} {maxDepth : Int}
    {selected : List String} {name : String} (hname : f.formula? name = g.formula? name)
    (h : f.AgreeOn g (Layout.draw m name (of f maxDepth selected name)).nodes) :
    of g maxDepth selected name = of f maxDepth selected name := by
  cases htext : f.formula? name with
  | none => simp only [of, htext, hname.symm.trans htext]
  | some text =>
    cases hparse : Expr.parse text with
    | error => simp only [of, htext, hname.symm.trans htext, hparse]
    | ok e =>
      simp only [of, htext, hname.symm.trans htext, hparse] at h ⊢
      rw [Layout.draw_full, Layout.drawFull_eq] at h
      have hagree {v : String} := Layer.agreeOn_of_mem m
        (Layer.map_label_mentions_full m name _ e _)
        (Layer.kind_of_mem_mentions_full m name _ e _ List.mem_cons_self)
        (fun v hv => Expr.isName_of_mem_vars hparse (List.mem_of_mem_filter hv)) h (v := v)
      congr 1
      refine List.map_congr_left fun v hv => ?_
      obtain ⟨hvar, a, c', hopened⟩ := hagree hv
      split
      · rename_i hselected
        rw [if_pos hselected] at hopened
        exact Plan.grow_congr m hvar hopened
      · rfl

namespace Book

variable {f g : Book}

/-- Books that agree on the names in a tree of one of them build the same tree. -/
theorem build_congr {maxDepth : Int} {root : String}
    (h : ∀ t ∈ (Tree.build f maxDepth root).preorder, f.formula? t.name = g.formula? t.name) :
    Tree.build g maxDepth root = Tree.build f maxDepth root :=
  Tree.grow_congr h

/-- Books that agree on the name drawn and on the variables of a drawing of one of them draw the
same. -/
theorem layout_congr {α : Type} [Coordinate α] {m : Measures α} {selected : List String}
    {root : String} (hroot : f.formula? root = g.formula? root)
    (h : f.AgreeOn g (Layout.of f m selected root).nodes) :
    Layout.of g m selected root = Layout.of f m selected root :=
  congrArg (Layout.draw m root) (Scheme.of_congr m hroot h)

/-- A tree is determined by the formulas of the names in it, and a drawing by those of the name
drawn and of the names that label its variables, a placeholder counting as no formula. So neither
depends on the order of the entries, nor on what is written or erased for a name that it does not
show. -/
theorem shown_determines {α : Type} [Coordinate α] (f g : Book) (m : Measures α)
    (selected : List String) (maxDepth : Int) (root : String) :
    ((∀ t ∈ (Tree.build f maxDepth root).preorder, f.formula? t.name = g.formula? t.name) →
      Tree.build g maxDepth root = Tree.build f maxDepth root) ∧
    (f.formula? root = g.formula? root → f.AgreeOn g (Layout.of f m selected root).nodes →
      Layout.of g m selected root = Layout.of f m selected root) ∧
    (f.entries.Perm g.entries →
      Tree.build g maxDepth root = Tree.build f maxDepth root ∧
      Layout.of g m selected root = Layout.of f m selected root) ∧
    ∀ name text,
      ((∀ t ∈ (Tree.build f maxDepth root).preorder, t.name ≠ name) →
        Tree.build (f.insert name text) maxDepth root = Tree.build f maxDepth root ∧
        Tree.build (f.erase name) maxDepth root = Tree.build f maxDepth root) ∧
      (root ≠ name →
        (∀ n ∈ (Layout.of f m selected root).nodes, n.kind = .quantity → n.label ≠ name) →
        Layout.of (f.insert name text) m selected root = Layout.of f m selected root ∧
        Layout.of (f.erase name) m selected root = Layout.of f m selected root) := by
  have hinsert {name text n : String} (h : n ≠ name) :
      f.formula? n = (f.insert name text).formula? n :=
    formula?_eq_of_get?_eq (get?_insert_of_ne h f text).symm
  have herase {name n : String} (h : n ≠ name) : f.formula? n = (f.erase name).formula? n :=
    formula?_eq_of_get?_eq (get?_erase_of_ne h f).symm
  refine ⟨build_congr, layout_congr, fun hperm => ?_,
    fun name text => ⟨fun h => ?_, fun hr h => ?_⟩⟩
  · have hall (n : String) : f.formula? n = g.formula? n :=
      formula?_eq_of_get?_eq (get?_eq_of_perm hperm n)
    exact ⟨build_congr fun t _ => hall t.name, layout_congr (hall root) fun n _ _ _ => hall n.label⟩
  · exact ⟨build_congr fun t ht => hinsert (h t ht), build_congr fun t ht => herase (h t ht)⟩
  · exact ⟨layout_congr (hinsert hr) fun n hn hkind _ => hinsert (h n hn hkind),
      layout_congr (herase hr) fun n hn hkind _ => herase (h n hn hkind)⟩

/-- The entries may stand in another order. -/
example :
    Layout.of (Book.ofList [("b", "z - 1"), ("r", "a + b")]) Measures.standard ["b"] "r" =
      Layout.of (Book.ofList [("r", "a + b"), ("b", "z - 1")]) Measures.standard ["b"] "r" := by
  decide +kernel

/-- These books differ in the formula of `z`, which is a variable of the formula of `b`, and in the
order of the entries. The tree of `r` ends above `z`, and its drawing opens `a` alone. -/
theorem shown_determines_below_limit :
    let f := Book.ofList [("r", "a + b"), ("a", "r ^ 2"), ("b", "z - 1"), ("z", "3")]
    let g := Book.ofList [("z", "r / z"), ("b", "z - 1"), ("a", "r ^ 2"), ("r", "a + b")]
    let m := Measures.standard
    (∀ t ∈ (Tree.build f 0 "r").preorder, f.formula? t.name = g.formula? t.name) ∧
      Tree.build g 0 "r" = Tree.build f 0 "r" ∧
      f.AgreeOn g (Layout.of f m ["a"] "r").nodes ∧
      Layout.of g m ["a"] "r" = Layout.of f m ["a"] "r" := by
  intro f g m
  have htree : ∀ t ∈ (Tree.build f 0 "r").preorder, f.formula? t.name = g.formula? t.name := by
    decide +kernel
  have hroot : f.formula? "r" = g.formula? "r" := by decide +kernel
  have hdrawing : f.AgreeOn g (Layout.of f m ["a"] "r").nodes := by
    unfold AgreeOn
    decide +kernel
  obtain ⟨hbuild, hlayout, -⟩ := shown_determines f g m ["a"] 0 "r"
  exact ⟨htree, hbuild htree, hdrawing, hlayout hroot hdrawing⟩

end Book

end FormulaBook
