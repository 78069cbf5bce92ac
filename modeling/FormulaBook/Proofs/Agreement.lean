import FormulaBook.Drawing.Plan
import FormulaBook.Proofs.Addresses
import Mathlib.Logic.Relation

/-!
# Plans agree with dependency trees

What a drawing opens is decided by a recursion of its own (`Plan.grow`), which looks for a formula
before it looks at the branch and at the nesting. `Plan.Agrees` says that a plan opens exactly the
nodes of a tree that are formulas, with the same names in the same order. If all formulas a name
depends on parse, the plan for it agrees with its tree (`Plan.agrees_grow`), so the parts of a
drawing with all variables selected agree with what is below the name drawn
(`Plan.agreesAll_children_build`).
-/

namespace FormulaBook

namespace Book

/-- A name depends on the variables of its formula. -/
def Depends (b : Book) (name v : String) : Prop :=
  ∃ text, b.formula? name = some text ∧ v ∈ (Analysis.of text).vars

/-- All formulas that a name depends on, through any number of names, parse. -/
def ParsesFrom (b : Book) (name : String) : Prop :=
  ∀ n text, Relation.ReflTransGen b.Depends name n → b.formula? n = some text →
    ∃ e, Expr.parse text = .ok e

variable {b : Book} {name : String}

/-- If all that a name depends on parses, so does all that its variables depend on. -/
theorem ParsesFrom.of_depends (h : b.ParsesFrom name) {v : String} (hv : b.Depends name v) :
    b.ParsesFrom v :=
  fun n text hn => h n text (.head hv hn)

/-- In a book in which all formulas parse, so do those a name depends on. -/
theorem parsesFrom_of_forall (h : ∀ entry ∈ b.entries, (Expr.parse entry.2).isOk = true)
    (name : String) : b.ParsesFrom name := by
  intro n text _ htext
  obtain ⟨hget, -⟩ := Option.filter_eq_some_iff.mp htext
  obtain ⟨before, after, hentries, -⟩ := List.lookup_eq_some_iff.mp hget
  have hok := h (n, text) (by simp [hentries])
  cases he : Expr.parse text with
  | ok e => exact ⟨e, rfl⟩
  | error reason =>
    rw [he] at hok
    cases hok

end Book

/-- The variables found in a text that parses are those of its tree. -/
theorem Analysis.vars_of_parse {text : String} {e : Expr} (h : Expr.parse text = .ok e) :
    (Analysis.of text).vars = e.vars := by
  simp only [Analysis.of, h]

namespace Tree

/-! ## What a tree shows of a name -/

/-- The names that a role has below it. -/
def Role.vars : Role → List String
  | .formula text _ => (Analysis.of text).vars
  | .leaf | .circular => []

/-- The role of a name below a path at a depth. -/
def Role.of (b : Book) (maxDepth : Int) (path : List String) (depth : Nat) (name : String) : Role :=
  if name ∈ path ∨ maxDepth < depth then .circular
  else (b.formula? name).elim .leaf fun text => .formula text (Analysis.of text).operators

variable {b : Book} {maxDepth : Int}

/-- The book is asked for nothing but the formula of the name. -/
theorem Role.of_congr {f g : Book} {name : String} (h : f.formula? name = g.formula? name)
    (maxDepth : Int) (path : List String) (depth : Nat) :
    Role.of g maxDepth path depth name = .of f maxDepth path depth name := by
  rw [Role.of, Role.of, h]

/-- What a role has below it are the names that the name depends on, if the name is off the path and
within the depth limit. -/
theorem Role.mem_vars_of {path : List String} {depth : Nat} {name v : String} :
    v ∈ (Role.of b maxDepth path depth name).vars ↔
      name ∉ path ∧ (depth : Int) ≤ maxDepth ∧ b.Depends name v := by
  unfold Role.of
  split
  · rename_i hcircular
    refine iff_of_false List.not_mem_nil ?_
    rintro ⟨hpath, hdepth, -⟩
    exact hcircular.elim hpath (Int.not_lt.mpr hdepth)
  · rename_i hopen
    obtain ⟨hpath, hdepth⟩ := not_or.mp hopen
    simp only [hpath, Int.not_lt.mp hdepth, not_false_eq_true, true_and, Book.Depends]
    cases b.formula? name <;> simp [vars]

/-- The tree of a name shows the role of the name, and below it the trees of the names that the
role has below it. -/
theorem grow_eq (b : Book) (maxDepth : Int) (path : List String) (depth : Nat) (name : String) :
    grow b maxDepth path depth name =
      .node name (.of b maxDepth path depth name) depth
        ((Role.of b maxDepth path depth name).vars.map
          (grow b maxDepth (name :: path) (depth + 1))) := by
  by_cases hpath : name ∈ path
  · rw [grow, dif_pos hpath, Role.of, if_pos (.inl hpath)]
    rfl
  by_cases hdepth : maxDepth < depth
  · rw [grow, dif_neg hpath, if_pos hdepth, Role.of, if_pos (.inr hdepth)]
    rfl
  rw [grow, dif_neg hpath, if_neg hdepth, Role.of, if_neg (not_or.mpr ⟨hpath, hdepth⟩)]
  split
  · rename_i htext
    rw [htext]
    rfl
  · rename_i text htext
    rw [htext]
    rfl

/-- The tree of a name has the name at its root. -/
@[simp] theorem name_grow (b : Book) (maxDepth : Int) (path : List String) (depth : Nat)
    (n : String) : (grow b maxDepth path depth n).name = n := by
  rw [grow_eq, name]

@[simp] theorem role_grow (b : Book) (maxDepth : Int) (path : List String) (depth : Nat)
    (n : String) : (grow b maxDepth path depth n).role = .of b maxDepth path depth n := by
  rw [grow_eq, role]

@[simp] theorem depth_grow (b : Book) (maxDepth : Int) (path : List String) (depth : Nat)
    (n : String) : (grow b maxDepth path depth n).depth = depth := by
  rw [grow_eq, Tree.depth]

/-- The children of a node are grown from the names that its role has below it. -/
theorem children_grow (b : Book) (maxDepth : Int) (path : List String) (depth : Nat)
    (n : String) : (grow b maxDepth path depth n).children =
      (Role.of b maxDepth path depth n).vars.map (grow b maxDepth (n :: path) (depth + 1)) := by
  rw [grow_eq, children]

/-- A name off the path and within the depth limit that has a formula has the trees of its
variables below it. -/
theorem grow_of_formula {path : List String} {depth : Nat} {name text : String}
    (hpath : name ∉ path) (hdepth : ¬ maxDepth < depth) (htext : b.formula? name = some text) :
    grow b maxDepth path depth name =
      .node name (.formula text (Analysis.of text).operators) depth
        ((Analysis.of text).vars.map (grow b maxDepth (name :: path) (depth + 1))) := by
  rw [grow_eq, Role.of, if_neg (not_or.mpr ⟨hpath, hdepth⟩), htext]
  rfl

/-- A name that is on the path, too deep or without a formula has nothing below it. -/
theorem grow_closed {path : List String} {depth : Nat} {name : String}
    (h : name ∈ path ∨ maxDepth < depth ∨ b.formula? name = none) :
    (grow b maxDepth path depth name).isFormula = false ∧
      (grow b maxDepth path depth name).children = [] := by
  have hrole : Role.of b maxDepth path depth name = .circular ∨
      Role.of b maxDepth path depth name = .leaf := by
    by_cases hcircular : name ∈ path ∨ maxDepth < depth
    · exact .inl (if_pos hcircular)
    · obtain ⟨hpath, hdepth⟩ := not_or.mp hcircular
      rw [Role.of, if_neg hcircular, (h.resolve_left hpath).resolve_left hdepth]
      exact .inr rfl
  rw [grow_eq]
  rcases hrole with hrole | hrole <;> rw [hrole] <;> exact ⟨rfl, rfl⟩

end Tree

namespace Plan

/-! ## Agreement -/

mutual

/-- A plan opens exactly the nodes of a tree that are formulas. -/
def Agrees : Plan → Tree → Prop
  | .closed name _, t => t.name = name ∧ t.isFormula = false ∧ t.children = []
  | .opened name _ e inner, t =>
    t.name = name ∧ t.isFormula = true ∧ t.children.map Tree.name = e.vars ∧
      AgreesAll inner t.children

/-- Several plans agree with as many trees. -/
def AgreesAll : List Plan → List Tree → Prop
  | [], ts => ts = []
  | p :: ps, ts => ∃ t us, ts = t :: us ∧ p.Agrees t ∧ AgreesAll ps us

end

/-- Plans made name by name agree with trees made from the same names if they do so for each name.
-/
theorem agreesAll_map {f : String → Plan} {g : String → Tree} {vs : List String}
    (h : ∀ v ∈ vs, (f v).Agrees (g v)) : AgreesAll (vs.map f) (vs.map g) := by
  induction vs with
  | nil => rw [List.map_nil, List.map_nil, AgreesAll]
  | cons v vs ih =>
    rw [List.map_cons, List.map_cons, AgreesAll]
    exact ⟨g v, vs.map g, rfl, h v List.mem_cons_self,
      ih fun u hu => h u (List.mem_cons_of_mem _ hu)⟩

/-- The plan for a name agrees with its tree below the same path at the same depth, if all formulas
the name depends on parse. The names on the path have formulas, so a name without one is off it. -/
theorem agrees_grow (b : Book) (maxDepth : Int) (path : List String) (depth : Nat)
    (name : String) (hpath : ∀ n ∈ path, b.formula? n ≠ none) (hparses : b.ParsesFrom name) :
    (grow b maxDepth path depth name).Agrees (Tree.grow b maxDepth path depth name) := by
  fun_induction grow b maxDepth path depth name with
  | case1 path depth name htext =>
    rw [Agrees]
    exact ⟨Tree.name_grow .., Tree.grow_closed (.inr (.inr htext))⟩
  | case2 path depth name text htext hmem =>
    rw [Agrees]
    exact ⟨Tree.name_grow .., Tree.grow_closed (.inl hmem)⟩
  | case3 path depth name text htext hmem hdepth =>
    rw [Agrees]
    exact ⟨Tree.name_grow .., Tree.grow_closed (.inr (.inl hdepth))⟩
  | case4 path depth name text htext hmem hdepth reason hparse =>
    obtain ⟨e, he⟩ := hparses name text .refl htext
    rw [he] at hparse
    cases hparse
  | case5 path depth name text htext hmem hdepth e hparse ih =>
    have hvars := Analysis.vars_of_parse hparse
    rw [Tree.grow_of_formula hmem hdepth htext, hvars, Agrees]
    refine ⟨rfl, rfl, ?_, agreesAll_map fun v hv => ih v ?_ ?_⟩
    · rw [Tree.children, List.map_map]
      exact List.map_id'' (fun v => Tree.name_grow ..) _
    · intro n hn
      rcases List.mem_cons.mp hn with rfl | hn
      · rw [htext]
        exact Option.some_ne_none text
      · exact hpath n hn
    · exact hparses.of_depends ⟨text, htext, hvars ▸ hv⟩

/-! ## The name drawn -/

variable {b : Book} {maxDepth : Int} {root text : String} {e : Expr}

/-- With all variables selected, the parts of a drawing are the plans of all variables of the
formula but the name drawn. -/
theorem scheme_of_selected {selected : List String} (htext : b.formula? root = some text)
    (hparse : Expr.parse text = .ok e) (hselected : ∀ v ∈ e.vars, v ∈ selected) :
    Scheme.of b maxDepth selected root =
      .full text e ((e.vars.filter (· != root)).map (grow b maxDepth [root] 1)) := by
  simp only [Scheme.of, htext, hparse]
  congr 1
  refine List.map_congr_left fun v hv => ?_
  rw [if_pos (List.contains_iff_mem.mpr (hselected v (List.mem_of_mem_filter hv)))]

/-- The tree of the name drawn, without the children that repeat the name. -/
theorem withoutSelf_build (htext : b.formula? root = some text)
    (hparse : Expr.parse text = .ok e) (hdepth : 0 ≤ maxDepth) :
    (Tree.build b maxDepth root).withoutSelf =
      .node root (.formula text (Analysis.of text).operators) 0
        ((e.vars.filter (· != root)).map (Tree.grow b maxDepth [root] 1)) := by
  have hnot : ¬ maxDepth < (0 : Nat) := by omega
  rw [Tree.build, Tree.grow_of_formula List.not_mem_nil hnot htext, Analysis.vars_of_parse hparse,
    Tree.withoutSelf, List.filter_map]
  congr 2
  exact List.filter_congr fun v _ => by simp

/-- If all formulas the name drawn depends on parse, the plans of its variables agree with their
trees. -/
theorem agreesAll_children_build (htext : b.formula? root = some text)
    (hparse : Expr.parse text = .ok e) (hdepth : 0 ≤ maxDepth) (hparses : b.ParsesFrom root) :
    AgreesAll ((e.vars.filter (· != root)).map (grow b maxDepth [root] 1))
      (Tree.build b maxDepth root).withoutSelf.children := by
  rw [withoutSelf_build htext hparse hdepth]
  refine agreesAll_map fun v hv => agrees_grow b maxDepth [root] 1 v ?_ ?_
  · intro n hn
    rw [List.mem_singleton.mp hn, htext]
    exact Option.some_ne_none text
  · refine hparses.of_depends ⟨text, htext, ?_⟩
    rw [Analysis.vars_of_parse hparse]
    exact List.mem_of_mem_filter hv

/-- The children left out have no formulas below them, so the formulas of the tree are the same. -/
theorem filter_isFormula_withoutSelf_build (htext : b.formula? root = some text)
    (hparse : Expr.parse text = .ok e) (hdepth : 0 ≤ maxDepth) :
    (Tree.build b maxDepth root).withoutSelf.preorder.tail.filter Tree.isFormula =
      (Tree.build b maxDepth root).preorder.tail.filter Tree.isFormula := by
  have hnot : ¬ maxDepth < (0 : Nat) := by omega
  rw [withoutSelf_build htext hparse hdepth, Tree.build,
    Tree.grow_of_formula List.not_mem_nil hnot htext, Analysis.vars_of_parse hparse,
    Tree.preorder, Tree.preorder, List.tail_cons, List.tail_cons]
  induction e.vars with
  | nil => rfl
  | cons v vs ih =>
    rw [List.map_cons, Tree.preorderAll, List.filter_append, ← ih]
    by_cases hv : v = root
    · obtain ⟨hformula, hchildren⟩ := Tree.grow_closed (.inl (List.mem_singleton.mpr hv))
      rw [List.filter_cons_of_neg (by simp [hv]), Tree.preorder_eq, hchildren, Tree.preorderAll,
        List.filter_cons_of_neg (by simp [hformula]), List.filter_nil, List.nil_append]
    · rw [List.filter_cons_of_pos (by simpa using hv), List.map_cons, Tree.preorderAll,
        List.filter_append]

end Plan

end FormulaBook
