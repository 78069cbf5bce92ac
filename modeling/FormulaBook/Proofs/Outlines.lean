import FormulaBook.Dependency.Outline
import FormulaBook.Proofs.RawScans
import FormulaBook.Proofs.Relevance
import FormulaBook.Proofs.Sessions

/-!
# What can be read off the text of a tree

The text of a dependency tree is enough to tell the tree, if the formulas in it are on one line each
(`Tree.eq_of_outline_eq`). A line tells the depth, the name and the role of its node
(`Tree.row_eq_of_line_eq`): neither a mark is a blank nor can a name go on with one, so the
indentation ends at the mark and the name at the next blank, whatever the formula behind it looks
like; and the operators of a formula are told by its text. In preorder the nodes below a node are
those up to the first one that is not deeper, so the depths of the nodes tell how they hang together
(`Tree.eq_of_rows`).
-/

namespace FormulaBook

/-! ## Names that a formula mentions -/

/-- The variables found in any text are names. -/
theorem RawScan.isName_of_mem_vars {text v : String} (h : v ∈ vars text) : Text.IsName v := by
  rw [vars, List.mem_eraseDups] at h
  obtain ⟨r, hr, rfl⟩ := List.mem_map.mp h
  obtain ⟨hr, hvariable⟩ := List.mem_filter.mp hr
  obtain ⟨front, after, -, hrun, -⟩ := exists_of_mem_runsFrom text.toList none [] nofun hr
  obtain ⟨c, cs, htext⟩ := List.exists_cons_of_ne_nil hrun.ne_nil
  simp only [Run.isVariable, htext, Bool.and_eq_true] at hvariable
  refine ⟨c, cs, by rw [String.toList_ofList, htext], Text.startsName_iff.mp hvariable.1.1, ?_⟩
  intro d hd
  exact Text.continuesName_iff.mp (hrun.all d (htext ▸ List.mem_cons_of_mem c hd))

/-- The variables of a text are names, whether they are read off its tree or off the text. -/
theorem Analysis.isName_of_mem_vars {text v : String} (h : v ∈ (of text).vars) : Text.IsName v := by
  unfold of at h
  split at h
  · rename_i e he
    exact Expr.isName_of_mem_vars he h
  · exact RawScan.isName_of_mem_vars h

/-- A text is cut where characters of one kind end. -/
theorem Text.eq_of_append_eq {p : Char → Bool} {as bs cs ds : List Char}
    (has : ∀ c ∈ as, p c = true) (hbs : ∀ c ∈ bs, p c = true) (hcs : ∀ c ∈ cs.head?, p c = false)
    (hds : ∀ c ∈ ds.head?, p c = false) (h : as ++ cs = bs ++ ds) : as = bs ∧ cs = ds := by
  have hfront {front rest : List Char} (hfront : ∀ c ∈ front, p c = true)
      (hrest : ∀ c ∈ rest.head?, p c = false) : (front ++ rest).takeWhile p = front := by
    rw [List.takeWhile_append_of_pos hfront]
    cases rest with
    | nil => exact List.append_nil front
    | cons c rest => rw [List.takeWhile_cons_of_neg (by simp [hrest c rfl]), List.append_nil]
  have hab : as = bs := by rw [← hfront has hcs, h, hfront hbs hds]
  subst hab
  exact ⟨rfl, List.append_cancel_left h⟩

namespace Tree

/-! ## Lines -/

/-- What a line shows of a node. -/
def row (t : Tree) : Nat × String × Role := (t.depth, t.name, t.role)

/-- The role of a formula on one line, with the operators of the formula, or another role. -/
def Role.Legible (r : Role) : Prop :=
  ∀ text operators, r = .formula text operators →
    '\n' ∉ text.toList ∧ operators = (Analysis.of text).operators

/-- A node that its line shows in full. -/
structure Legible (t : Tree) : Prop where
  isName : Text.IsName t.name
  role : t.role.Legible

/-- What stands on the line of a role behind the name. -/
def Role.detail : Role → String
  | .formula text _ => " = " ++ text
  | .leaf | .circular => ""

/-- The line of a node is its indent, its mark, its name and what its role says. -/
theorem toList_line (t : Tree) :
    t.line.toList = List.replicate (2 * t.depth) ' ' ++
      (t.role.mark.toList ++ ' ' :: (t.name.toList ++ t.role.detail.toList)) := by
  obtain ⟨name, role, depth, children⟩ := t
  cases role <;> simp [line, Role.detail, Tree.depth, Tree.role, Tree.name]

/-- The mark of a role is one character, neither a space nor a line feed. -/
theorem Role.exists_mark (r : Role) : ∃ c, r.mark.toList = [c] ∧ c ≠ ' ' ∧ c ≠ '\n' := by
  cases r with
  | formula => exact ⟨'ƒ', show "ƒ".toList = ['ƒ'] by decide, by decide, by decide⟩
  | leaf => exact ⟨'•', show "•".toList = ['•'] by decide, by decide, by decide⟩
  | circular => exact ⟨'↻', show "↻".toList = ['↻'] by decide, by decide, by decide⟩

/-- A name does not go on with what stands behind it. -/
theorem Role.not_continuesName_of_head? (r : Role) :
    ∀ c ∈ r.detail.toList.head?, Text.continuesName c = false := by
  cases r with
  | formula text operators =>
    rw [detail, String.toList_append]
    rintro _ ⟨⟩
    decide
  | leaf | circular => exact nofun

/-- A role is told by its mark and what stands behind the name. -/
theorem Role.eq_of_mark_eq {r s : Role} (hr : r.Legible) (hs : s.Legible) (hmark : r.mark = s.mark)
    (hdetail : r.detail = s.detail) : r = s := by
  cases r with
  | formula text operators =>
    cases s with
    | formula text' operators' =>
      obtain rfl : text = text' := (String.append_right_inj " = ").mp hdetail
      rw [(hr _ _ rfl).2, (hs _ _ rfl).2]
    | leaf => exact absurd hmark (show "ƒ" ≠ "•" by decide)
    | circular => exact absurd hmark (show "ƒ" ≠ "↻" by decide)
  | leaf =>
    cases s with
    | leaf => rfl
    | formula => exact absurd hmark (show "•" ≠ "ƒ" by decide)
    | circular => exact absurd hmark (show "•" ≠ "↻" by decide)
  | circular =>
    cases s with
    | circular => rfl
    | formula => exact absurd hmark (show "↻" ≠ "ƒ" by decide)
    | leaf => exact absurd hmark (show "↻" ≠ "•" by decide)

/-- The line of a node that it shows in full is one line. -/
theorem Legible.newline_not_mem {t : Tree} (h : t.Legible) : '\n' ∉ t.line.toList := by
  obtain ⟨mark, hmark, -, hnewline⟩ := t.role.exists_mark
  have hname : '\n' ∉ t.name.toList := fun hmem =>
    absurd (h.isName.continuesName _ hmem) (by decide)
  have hdetail : '\n' ∉ t.role.detail.toList := by
    cases hrole : t.role with
    | formula text operators =>
      rw [Role.detail, String.toList_append, List.mem_append, not_or]
      exact ⟨by decide, (h.role text operators hrole).1⟩
    | leaf | circular => exact List.not_mem_nil
  rw [toList_line, hmark]
  simp [List.mem_replicate, hnewline.symm, hname, hdetail]

/-- A line tells the depth, the name and the role of its node. -/
theorem row_eq_of_line_eq {t u : Tree} (ht : t.Legible) (hu : u.Legible) (h : t.line = u.line) :
    t.row = u.row := by
  have hchars := congrArg String.toList h
  obtain ⟨mark, hmark, hspace, -⟩ := t.role.exists_mark
  obtain ⟨mark', hmark', hspace', -⟩ := u.role.exists_mark
  rw [toList_line, toList_line, hmark, hmark'] at hchars
  have hindent (n : Nat) : ∀ c ∈ List.replicate n ' ', (c == ' ') = true := fun c hc => by
    rw [List.eq_of_mem_replicate hc]
    rfl
  -- the indentation ends at the mark
  obtain ⟨hindents, hchars⟩ := Text.eq_of_append_eq (hindent _) (hindent _)
    (by rintro c ⟨⟩; exact beq_false_of_ne hspace) (by rintro c ⟨⟩; exact beq_false_of_ne hspace')
    hchars
  have hdepth : 2 * t.depth = 2 * u.depth := by simpa using congrArg List.length hindents
  obtain ⟨hmarks, hchars⟩ := List.cons.inj hchars
  -- the name ends at a blank or with the line
  obtain ⟨hname, hdetail⟩ := Text.eq_of_append_eq ht.isName.continuesName hu.isName.continuesName
    t.role.not_continuesName_of_head? u.role.not_continuesName_of_head? (List.cons.inj hchars).2
  have hrole : t.role = u.role :=
    Role.eq_of_mark_eq ht.role hu.role (by rw [← String.toList_inj, hmark, hmark', hmarks])
      (String.toList_inj.mp hdetail)
  rw [row, row, Nat.eq_of_mul_eq_mul_left (by decide) hdepth, String.toList_inj.mp hname, hrole]

/-- Lines, one by one, tell the rows of their nodes. -/
theorem map_row_eq_of_map_line_eq : ∀ {ts us : List Tree}, (∀ t ∈ ts, t.Legible) →
    (∀ u ∈ us, u.Legible) → ts.map line = us.map line → ts.map row = us.map row
  | [], [], _, _, _ => rfl
  | t :: ts, u :: us, hts, hus, h => by
    obtain ⟨ht, hts⟩ := List.forall_mem_cons.mp hts
    obtain ⟨hu, hus⟩ := List.forall_mem_cons.mp hus
    obtain ⟨hline, hlines⟩ := List.cons.inj h
    rw [List.map_cons, List.map_cons, row_eq_of_line_eq ht hu hline,
      map_row_eq_of_map_line_eq hts hus hlines]

/-- The text of a tree tells its lines, and so the rows of its nodes. -/
theorem map_row_eq_of_outline_eq {t u : Tree} (ht : ∀ s ∈ t.preorder, s.Legible)
    (hu : ∀ s ∈ u.preorder, s.Legible) (h : t.outline = u.outline) :
    t.preorder.map row = u.preorder.map row := by
  have hsplit {t : Tree} (ht : ∀ s ∈ t.preorder, s.Legible) :
      t.outline.toList.splitOn '\n' = (t.preorder.map line).map String.toList := by
    rw [outline, String.toList_intercalate]
    refine List.splitOn_intercalate '\n' ?_ ?_
    · rw [List.map_map, List.forall_mem_map]
      exact fun s hs => (ht s hs).newline_not_mem
    · rw [preorder_eq]
      exact List.cons_ne_nil _ _
  refine map_row_eq_of_map_line_eq ht hu ?_
  refine List.map_injective_iff.mpr (fun _ _ => String.toList_inj.mp) ?_
  rw [← hsplit ht, ← hsplit hu, h]

/-! ## Trees told by the rows of their nodes -/

/-- The root is at the given depth, and every other node is one step deeper than its parent. -/
inductive Graded : Nat → Tree → Prop
  | node {depth name role children} : (∀ c ∈ children, Graded (depth + 1) c) →
      Graded depth (.node name role depth children)

/-- The first row, if there is one, is at most at the given depth. -/
def EndsAt (depth : Nat) (rows : List (Nat × String × Role)) : Prop :=
  ∀ r ∈ rows.head?, r.1 ≤ depth

/-- In a graded tree the root is at its depth. -/
theorem Graded.depth_eq {t : Tree} {depth : Nat} (h : t.Graded depth) : t.depth = depth := by
  cases h
  rfl

/-- Behind trees at one depth the rows still end at that depth, if no row behind all of them is
deeper. -/
theorem endsAt_preorderAll {ts : List Tree} {depth : Nat} (hts : ∀ t ∈ ts, t.Graded depth)
    {rest : List (Nat × String × Role)} (hrest : EndsAt depth rest) :
    EndsAt depth ((preorderAll ts).map row ++ rest) := by
  cases ts with
  | nil => exact hrest
  | cons t ts =>
    rw [preorderAll, preorder_eq]
    rintro _ ⟨⟩
    exact (hts t List.mem_cons_self).depth_eq.le

/-- Rows that begin with a deeper tree do not end. -/
theorem not_endsAt_preorderAll {t : Tree} {depth : Nat} (ht : t.Graded (depth + 1)) (ts : List Tree)
    (rest : List (Nat × String × Role)) :
    ¬EndsAt depth ((preorderAll (t :: ts)).map row ++ rest) := by
  rw [preorderAll, preorder_eq]
  intro h
  have hle : t.depth ≤ depth := h _ rfl
  rw [ht.depth_eq] at hle
  exact Nat.not_succ_le_self depth hle

mutual

/-- A tree is told by the rows of its nodes: they go on up to one that is not deeper than the
root. -/
theorem eq_of_rows : ∀ (t : Tree) {u : Tree} {depth : Nat} {ks ls : List (Nat × String × Role)},
    t.Graded depth → u.Graded depth → EndsAt depth ks → EndsAt depth ls →
    t.preorder.map row ++ ks = u.preorder.map row ++ ls → t = u ∧ ks = ls
  | .node _ _ _ ts, .node _ _ _ us, depth, ks, ls, ht, hu, hks, hls, h => by
    cases ht with
    | node hts =>
    cases hu with
    | node hus =>
    rw [preorder, preorder] at h
    obtain ⟨hrow, hrows⟩ := List.cons.inj h
    cases hrow
    obtain ⟨rfl, hrest⟩ := eq_of_rowsAll ts hts hus hks hls hrows
    exact ⟨rfl, hrest⟩

/-- Trees at one depth are told by the rows of their nodes: these go on up to one that is less deep
than the trees. -/
theorem eq_of_rowsAll : ∀ (ts : List Tree) {us : List Tree} {depth : Nat}
    {ks ls : List (Nat × String × Role)},
    (∀ t ∈ ts, t.Graded (depth + 1)) → (∀ u ∈ us, u.Graded (depth + 1)) →
    EndsAt depth ks → EndsAt depth ls →
    (preorderAll ts).map row ++ ks = (preorderAll us).map row ++ ls → ts = us ∧ ks = ls
  | [], [], _, _, _, _, _, _, _, h => ⟨rfl, h⟩
  | [], u :: us, _, _, ls, _, hus, hks, _, h => by
    have hends := not_endsAt_preorderAll (hus u List.mem_cons_self) us ls
    rw [← h] at hends
    exact absurd hks hends
  | t :: ts, [], _, ks, _, hts, _, _, hls, h => by
    have hends := not_endsAt_preorderAll (hts t List.mem_cons_self) ts ks
    rw [h] at hends
    exact absurd hls hends
  | t :: ts, u :: us, depth, ks, ls, hts, hus, hks, hls, h => by
    rw [List.forall_mem_cons] at hts hus
    rw [preorderAll, preorderAll, List.map_append, List.map_append, List.append_assoc,
      List.append_assoc] at h
    have hle : depth ≤ depth + 1 := Nat.le_succ depth
    -- behind the first trees come the others, which begin no deeper than their roots
    obtain ⟨rfl, hrows⟩ := eq_of_rows t hts.1 hus.1
      (endsAt_preorderAll hts.2 fun r hr => (hks r hr).trans hle)
      (endsAt_preorderAll hus.2 fun r hr => (hls r hr).trans hle) h
    obtain ⟨rfl, hrest⟩ := eq_of_rowsAll ts hts.2 hus.2 hks hls hrows
    exact ⟨rfl, hrest⟩

end

/-! ## Trees that are built -/

variable {b : Book} {maxDepth : Int} {path : List String} {depth : Nat} {name : String}

/-- A tree that is grown is graded. -/
theorem graded_grow : (grow b maxDepth path depth name).Graded depth := by
  induction path, depth, name using Book.induction_off_path (b := b) with
  | step path depth name ih =>
  rw [grow_eq]
  refine .node fun c hc => ?_
  obtain ⟨v, hv, rfl⟩ := List.mem_map.mp hc
  obtain ⟨hpath, -, hdepends⟩ := Role.mem_vars_of.mp hv
  exact ih hpath v hdepends

/-- Below a name all nodes have names, since only names are mentioned. -/
theorem isName_of_mem_preorder_grow (hname : Text.IsName name) {s : Tree}
    (hs : s ∈ (grow b maxDepth path depth name).preorder) : Text.IsName s.name := by
  induction path, depth, name using Book.induction_off_path (b := b) with
  | step path depth name ih =>
  rcases mem_preorder_grow.mp hs with rfl | ⟨hpath, -, v, hv, hs⟩
  · rwa [name_grow]
  · obtain ⟨text, -, hmention⟩ := id hv
    exact ih hpath v hv (Analysis.isName_of_mem_vars hmention) hs

/-- No formula in the tree has a line feed. -/
def Unbroken (t : Tree) : Prop :=
  ∀ s ∈ t.preorder, ∀ text operators, s.role = .formula text operators → '\n' ∉ text.toList

/-- A tree is unbroken if no formula of the book has a line feed. -/
theorem unbroken_build (hb : ∀ entry ∈ b.entries, '\n' ∉ entry.2.toList) (maxDepth : Int)
    (root : String) : (build b maxDepth root).Unbroken := by
  intro s hs text operators hrole
  have hget := (Option.filter_eq_some_iff.mp (of_role_formula hs hrole).1).1
  exact hb _ (Book.get?_eq_some_iff.mp hget)

/-- All nodes of an unbroken tree are legible if its root is a name. -/
theorem Unbroken.legible {root : String} (h : (build b maxDepth root).Unbroken)
    (hroot : Text.IsName root) : ∀ s ∈ (build b maxDepth root).preorder, s.Legible := by
  refine fun s hs => ⟨isName_of_mem_preorder_grow hroot hs, fun text operators hrole => ?_⟩
  exact ⟨h s hs text operators hrole, (of_role_formula hs hrole).2.1⟩

/-- The text of a tree tells the tree, if its root is a name and no formula in it has a line feed:
trees with one text have the same names, roles, formulas, operators and depths in the same
places. -/
theorem eq_of_outline_eq {f g : Book} {maxDepth maxDepth' : Int} {root root' : String}
    (hroot : Text.IsName root) (hroot' : Text.IsName root')
    (hf : (build f maxDepth root).Unbroken) (hg : (build g maxDepth' root').Unbroken)
    (h : (build f maxDepth root).outline = (build g maxDepth' root').outline) :
    build f maxDepth root = build g maxDepth' root' := by
  have hrows : (build f maxDepth root).preorder.map row ++ [] =
      (build g maxDepth' root').preorder.map row ++ [] := by
    rw [List.append_nil, List.append_nil]
    exact map_row_eq_of_outline_eq (hf.legible hroot) (hg.legible hroot') h
  have hends : EndsAt 0 [] := fun r hr => absurd hr (Option.not_mem_none r)
  exact (eq_of_rows _ graded_grow graded_grow hends hends hrows).1

/-- These books differ, and so do the limits, but the trees of `a` have one text, so they are one.
The formula of `a` looks like a part of an outline, and that of `b` begins with blanks. -/
theorem eq_of_outline_eq_marks :
    let f := Book.ofList [("a", "b = • c"), ("b", "  2 * a"), ("z", "1")]
    let g := Book.ofList [("b", "  2 * a"), ("c", ""), ("a", "b = • c")]
    (build f 2 "a").outline = "ƒ a = b = • c\n  ƒ b =   2 * a\n    ↻ a\n  • c" ∧
      build f 2 "a" = build g 7 "a" := by
  intro f g
  have hroot : Text.IsName "a" := Text.isName_iff.mp (by decide)
  have houtline : (build f 2 "a").outline = "ƒ a = b = • c\n  ƒ b =   2 * a\n    ↻ a\n  • c" := by
    decide +kernel
  have houtline' : (build g 7 "a").outline = "ƒ a = b = • c\n  ƒ b =   2 * a\n    ↻ a\n  • c" := by
    decide +kernel
  have hf : ∀ entry ∈ f.entries, '\n' ∉ entry.2.toList := by decide +kernel
  have hg : ∀ entry ∈ g.entries, '\n' ∉ entry.2.toList := by decide +kernel
  exact ⟨houtline, eq_of_outline_eq hroot hroot (unbroken_build hf 2 "a") (unbroken_build hg 7 "a")
    (houtline.trans houtline'.symm)⟩

end Tree

end FormulaBook
