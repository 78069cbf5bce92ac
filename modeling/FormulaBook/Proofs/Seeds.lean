import FormulaBook.Book.Edit
import FormulaBook.Proofs.Relevance

/-!
# Books started from one formula

A book that is started from a formula has the formula and a placeholder for each of its variables
(`Book.exists_seed`). Placeholders are no formulas, whatever the names are, so no name but that of
the formula has one (`Book.IsSeed.formula?_eq`). What is shown of the book ends there: the tree has
one level below its root, and there is nothing to open in a drawing. If the text of the formula
itself ends as placeholders do, nothing is shown of it (`Book.seed_shows`).
-/

namespace FormulaBook

/-- The value written is among the pairs. -/
theorem Keyed.self_mem_put (key value : String) :
    ∀ l : List (String × String), (key, value) ∈ put key value l
  | [] => List.mem_cons_self
  | e :: rest => by
    rw [put]
    split
    · exact List.mem_cons_self
    · exact List.mem_cons_of_mem _ (self_mem_put key value rest)

namespace Book

variable {b : Book} {name text : String} {vars : List String}

/-- A name that is inserted has its text. -/
theorem get?_insert_self (b : Book) (name text : String) :
    (b.insert name text).get? name = some text :=
  get?_eq_some_iff.mpr (Keyed.self_mem_put name text b.entries)

/-- The names of a book are those with an entry. -/
theorem mem_names_iff_isSome {n : String} : n ∈ b.names ↔ (b.get? n).isSome = true := by
  rw [Option.isSome_iff_exists, names, List.mem_map]
  constructor
  · rintro ⟨⟨n, text⟩, hentry, rfl⟩
    exact ⟨text, get?_eq_some_iff.mpr hentry⟩
  · rintro ⟨text, htext⟩
    exact ⟨(n, text), get?_eq_some_iff.mp htext, rfl⟩

/-! ## Placeholders -/

/-- What parses is a formula unless it ends as placeholders do. -/
theorem isFormula_of_parse {e : Expr} (h : Expr.parse text = .ok e) :
    isFormula text = true ↔ ¬placeholderSuffix.toList <:+ text.toList := by
  have hne : text ≠ "" := by
    rintro rfl
    cases h
  rw [isFormula, bne_iff_ne.mpr hne, Bool.true_and, Bool.not_eq_true', ← List.isSuffixOf_iff_suffix,
    Bool.not_eq_true]

/-- A placeholder is no formula. -/
theorem isFormula_placeholder (n : String) : isFormula (placeholder n) = false := by
  have hsuffix : placeholderSuffix.toList <:+ (placeholder n).toList := by
    rw [placeholder, String.toList_append]
    exact List.suffix_append _ _
  rw [isFormula, List.isSuffixOf_iff_suffix.mpr hsuffix, Bool.not_true, Bool.and_false]

/-- A reserved name has its placeholder, if it had nothing before; the other names have what they
had. -/
theorem get?_reserve (b : Book) (n k : String) :
    (b.reserve n).get? k = (b.get? k).or (if k = n then some (placeholder k) else none) := by
  by_cases hk : k = n
  · subst hk
    rw [if_pos rfl, reserve]
    split
    · rename_i hmem
      obtain ⟨text, htext⟩ := Option.isSome_iff_exists.mp
        (mem_names_iff_isSome.mp (List.contains_iff_mem.mp hmem))
      rw [htext, Option.some_or]
    · rename_i hmem
      have hnone : b.get? k = none := by
        rw [← Option.not_isSome_iff_eq_none, ← mem_names_iff_isSome]
        exact mt List.contains_iff_mem.mpr hmem
      rw [get?_insert_self, hnone, Option.none_or]
  · rw [if_neg hk, Option.or_none, reserve]
    split
    · rfl
    · exact get?_insert_of_ne hk b _

/-- Reserving names keeps all entries and gives the other names placeholders. -/
theorem get?_foldl_reserve (names : List String) (b : Book) (k : String) :
    (names.foldl reserve b).get? k =
      (b.get? k).or (if k ∈ names then some (placeholder k) else none) := by
  induction names generalizing b with
  | nil => simp
  | cons n names ih =>
    rw [List.foldl_cons, ih, get?_reserve, Option.or_assoc]
    congr 1
    by_cases hk : k = n <;> simp [hk]

/-! ## The book of one formula -/

/-- The book has a text for one name, and placeholders for variables besides. -/
def IsSeed (b : Book) (name text : String) (vars : List String) : Prop :=
  ∀ n, b.get? n =
    if n = name then some text else if n ∈ vars then some (placeholder n) else none

/-- A formula that parses seeds a book with placeholders for its variables. -/
theorem exists_seed {e : Expr} (h : Expr.parse text = .ok e) (name : String) :
    ∃ b, seed name text = .ok b ∧ b.IsSeed name text e.vars := by
  refine ⟨(Text.ascending e.vars).foldl reserve (empty.insert name text), ?_, fun n => ?_⟩
  · rw [seed, h]
  · simp only [get?_foldl_reserve, Text.mem_ascending]
    by_cases hn : n = name
    · rw [hn, get?_insert_self, if_pos rfl, Option.some_or]
    · rw [get?_insert_of_ne hn, if_neg hn]
      exact Option.none_or

namespace IsSeed

/-- The names of a seeded book are the name of the formula and its variables. -/
theorem mem_names_iff (h : b.IsSeed name text vars) {n : String} :
    n ∈ b.names ↔ n = name ∨ n ∈ vars := by
  rw [mem_names_iff_isSome, h n]
  by_cases hn : n = name <;> by_cases hv : n ∈ vars <;> simp [hn, hv]

/-- The only formula is the text of the name, if it is one. -/
theorem formula?_eq (h : b.IsSeed name text vars) (n : String) :
    b.formula? n = if n = name ∧ isFormula text = true then some text else none := by
  rw [formula?, h n]
  by_cases hn : n = name
  · simp [hn, Option.filter_some]
  · rw [if_neg hn, if_neg (mt And.left hn)]
    split
    · rw [Option.filter_some, isFormula_placeholder, if_neg Bool.false_ne_true]
    · rfl

end IsSeed

/-! ## What is shown of it -/

/-- The tree of the formula ends one step below it. -/
theorem IsSeed.build_eq {e : Expr} (h : b.IsSeed name text e.vars) (he : Expr.parse text = .ok e)
    (htext : isFormula text = true) {maxDepth : Int} (hdepth : 1 ≤ maxDepth) :
    Tree.build b maxDepth name =
      .node name (.formula text e.operators) 0
        (e.vars.map fun v => .node v (if v = name then .circular else .leaf) 1 []) := by
  have hformula : b.formula? name = some text := by rw [h.formula?_eq, if_pos ⟨rfl, htext⟩]
  have hanalysis : (Analysis.of text).operators = e.operators := by simp only [Analysis.of, he]
  rw [Tree.build, Tree.grow_of_formula List.not_mem_nil (by omega) hformula, hanalysis,
    Analysis.vars_of_parse he]
  refine congrArg _ (List.map_congr_left fun v _ => ?_)
  have hlimit : ¬maxDepth < ((0 + 1 : Nat) : Int) := by omega
  have hrole : Tree.Role.of b maxDepth [name] (0 + 1) v =
      if v = name then .circular else .leaf := by
    by_cases hv : v = name
    · rw [if_pos hv, Tree.Role.of, if_pos (.inl (List.mem_singleton.mpr hv))]
    · have hopen : ¬(v ∈ [name] ∨ maxDepth < ((0 + 1 : Nat) : Int)) :=
        not_or.mpr ⟨mt List.mem_singleton.mp hv, hlimit⟩
      rw [if_neg hv, Tree.Role.of, if_neg hopen, h.formula?_eq, if_neg (mt And.left hv)]
      rfl
  have hvars : (if v = name then Tree.Role.circular else .leaf).vars = [] := by split <;> rfl
  rw [Tree.grow_eq, hrole, hvars]
  rfl

/-- A name without a formula is a leaf. -/
theorem build_of_formula?_eq_none (h : b.formula? name = none) {maxDepth : Int}
    (hdepth : 0 ≤ maxDepth) : Tree.build b maxDepth name = .node name .leaf 0 [] := by
  have hopen : ¬(name ∈ [] ∨ maxDepth < ((0 : Nat) : Int)) :=
    not_or.mpr ⟨List.not_mem_nil, by omega⟩
  have hrole : Tree.Role.of b maxDepth [] 0 name = .leaf := by
    rw [Tree.Role.of, if_neg hopen, h]
    rfl
  rw [Tree.build, Tree.grow_eq, hrole]
  rfl

end Book

/-- Where no variable but the name drawn has a formula that parses, there is nothing to open. -/
theorem Layout.of_eq_of_closed {α : Type} [Coordinate α] {b : Book} {name text : String} {e : Expr}
    (htext : b.formula? name = some text) (he : Expr.parse text = .ok e)
    (hclosed : ∀ v ∈ e.vars, v ≠ name → ¬b.HasTree v) (m : Measures α) (selected : List String) :
    of b m selected name = of b m [] name := by
  have hparts (selected : List String) : ∀ p ∈ (e.vars.filter (· != name)).map (fun v =>
      if selected.contains v then Plan.grow b m.maxExpansionDepth [name] 1 v
      else .closed v .unselected), p.IsClosed := by
    intro p hp
    obtain ⟨v, hv, rfl⟩ := List.mem_map.mp hp
    obtain ⟨hmem, hne⟩ := List.mem_filter.mp hv
    split
    · exact Plan.isClosed_grow (hclosed v hmem (bne_iff_ne.mp hne)) _ _ _
    · exact ⟨v, .unselected, rfl⟩
  simp only [of, Scheme.of, htext, he]
  rw [draw_full_closed m name text e (hparts selected), draw_full_closed m name text e (hparts [])]

namespace Book

/-- From every formula that parses a book is started, with the variables as further names. The tree
has one level, on which a variable is a leaf, but circular if it is the name itself, and no
selection changes the drawing. If the text ends as placeholders do, the tree is a leaf and the
drawing is empty. -/
theorem seed_shows {text : String} {e : Expr} (h : Expr.parse text = .ok e) (name : String) :
    ∃ b, seed name text = .ok b ∧ (∀ n, n ∈ b.names ↔ n = name ∨ n ∈ e.vars) ∧
      (¬placeholderSuffix.toList <:+ text.toList →
        (∀ maxDepth : Int, 1 ≤ maxDepth → Tree.build b maxDepth name =
          .node name (.formula text e.operators) 0
            (e.vars.map fun v => .node v (if v = name then .circular else .leaf) 1 [])) ∧
        ∀ {α : Type} [Coordinate α] (m : Measures α) (selected : List String),
          Layout.of b m selected name = Layout.of b m [] name) ∧
      (placeholderSuffix.toList <:+ text.toList →
        (∀ maxDepth : Int, 0 ≤ maxDepth → Tree.build b maxDepth name = .node name .leaf 0 []) ∧
        ∀ {α : Type} [Coordinate α] (m : Measures α) (selected : List String),
          Layout.of b m selected name = {}) := by
  obtain ⟨b, hseed, hb⟩ := exists_seed h name
  refine ⟨b, hseed, fun n => hb.mem_names_iff, fun hsuffix => ?_, fun hsuffix => ?_⟩
  · have htext : isFormula text = true := (isFormula_of_parse h).mpr hsuffix
    have hformula : b.formula? name = some text := by rw [hb.formula?_eq, if_pos ⟨rfl, htext⟩]
    refine ⟨fun maxDepth hdepth => hb.build_eq h htext hdepth, fun m selected => ?_⟩
    refine Layout.of_eq_of_closed hformula h (fun v _ hv => ?_) m selected
    rintro ⟨text', e', htext', -⟩
    rw [hb.formula?_eq, if_neg (mt And.left hv)] at htext'
    cases htext'
  · have hformula : b.formula? name = none := by
      rw [hb.formula?_eq, if_neg fun hboth => (isFormula_of_parse h).mp hboth.2 hsuffix]
    refine ⟨fun maxDepth hdepth => build_of_formula?_eq_none hformula hdepth, fun m selected => ?_⟩
    rw [Layout.of, Scheme.of, hformula]
    rfl

/-- The formula of `a` mentions `a`, and a variable that is called like a placeholder. In the second
book the formula ends in such a variable. -/
theorem seed_shows_placeholder :
    (∃ b, seed "a" "b_placeholder * a" = .ok b ∧
      Tree.build b 1 "a" = .node "a" (.formula "b_placeholder * a" ["*"]) 0
        [.node "b_placeholder" .leaf 1 [], .node "a" .circular 1 []] ∧
      Layout.of b Measures.standard ["b_placeholder", "a"] "a" =
        Layout.of b Measures.standard [] "a") ∧
    ∃ b, seed "a" "a * b_placeholder" = .ok b ∧ b.names.Perm ["a", "b_placeholder"] ∧
      Tree.build b 1 "a" = .node "a" .leaf 0 [] ∧ Layout.of b Measures.standard ["a"] "a" = {} := by
  have hfirst : Expr.parse "b_placeholder * a" =
      .ok (.binary .multiply (.identifier "b_placeholder") (.identifier "a")) := by decide +kernel
  have hsecond : Expr.parse "a * b_placeholder" =
      .ok (.binary .multiply (.identifier "a") (.identifier "b_placeholder")) := by decide +kernel
  have hvars : (Expr.binary .multiply (.identifier "a") (.identifier "b_placeholder")).vars =
      ["a", "b_placeholder"] := by decide +kernel
  obtain ⟨b, hb, -, hshown, -⟩ := seed_shows hfirst "a"
  obtain ⟨c, hc, hnames, -, hnothing⟩ := seed_shows hsecond "a"
  obtain ⟨htree, hdrawing⟩ := hshown (by decide +kernel)
  obtain ⟨hleaf, hempty⟩ := hnothing (by decide +kernel)
  refine ⟨⟨b, hb, htree 1 (by decide), hdrawing _ _⟩, c, hc, ?_, hleaf 1 (by decide), hempty _ _⟩
  refine (List.perm_ext_iff_of_nodup c.nodup (by decide)).mpr fun n => (hnames n).trans ?_
  rw [hvars]
  simp

end Book

end FormulaBook
