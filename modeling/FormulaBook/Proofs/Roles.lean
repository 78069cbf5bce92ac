import FormulaBook.Proofs.Reachability

/-!
# Roles in a dependency tree

The role of a node can be read off the finished tree: it is decided by the names above the node, its
depth and the book, and by nothing else (`Tree.Decided`, `Tree.decided_build`). The recursion hands
down a path; at a node of the tree this path holds exactly the names above the node
(`Tree.eq_grow_of_at?`). All of these have formulas and none comes twice, so a node is no deeper
than the number of formulas, however great the depth limit is.
-/

namespace FormulaBook.Tree

/-- The nodes above an address, the root first. -/
def above : Tree → List Nat → List Tree
  | _, [] => []
  | t, i :: p => t :: (t.children[i]?).elim [] fun c => c.above p

@[simp] theorem above_nil (t : Tree) : t.above [] = [] := by rw [above]

/-- Above an address below a child are the root and what is above the address in the child. -/
theorem above_cons {t c : Tree} {i : Nat} (hc : t.children[i]? = some c) (p : List Nat) :
    t.above (i :: p) = t :: c.above p := by
  rw [above, hc, Option.elim_some]

variable {b : Book} {maxDepth : Int} {path : List String} {depth : Nat} {name : String}

/-! ## The path of a node -/

/-- A name with something below it is opened: it is off the path and within the depth limit, and
what is below it is grown from the longer path for a name that it depends on. -/
theorem exists_of_child {c : Tree} {i : Nat}
    (hc : (grow b maxDepth path depth name).children[i]? = some c) :
    name ∉ path ∧ (depth : Int) ≤ maxDepth ∧
      ∃ v, b.Depends name v ∧ c = grow b maxDepth (name :: path) (depth + 1) v := by
  rw [children_grow, List.getElem?_map, Option.map_eq_some_iff] at hc
  obtain ⟨v, hv, rfl⟩ := hc
  obtain ⟨hpath, hdepth, hdepends⟩ := Role.mem_vars_of.mp (List.mem_of_getElem? hv)
  exact ⟨hpath, hdepth, v, hdepends, rfl⟩

/-- What the nodes above an address are in a tree that is grown: names with formulas, no name twice
and none on the path, as many as the address is long and within the depth limit. -/
structure Leads (b : Book) (maxDepth : Int) (path : List String) (depth : Nat) (p : List Nat)
    (above : List Tree) : Prop where
  length_eq : above.length = p.length
  nodup : (above.map Tree.name).Nodup
  off_path : ∀ n ∈ above.map Tree.name, n ∉ path
  subset : above.map Tree.name ⊆ b.formulaNames
  depth_le : p = [] ∨ ((depth + p.length : Nat) : Int) ≤ maxDepth + 1

/-- Names with formulas, each of them once, bound the length of an address. -/
theorem Leads.length_le {p : List Nat} {above : List Tree}
    (h : Leads b maxDepth [] 0 p above) :
    (p.length : Int) ≤ max 0 (min (maxDepth + 1) b.formulaNames.length) := by
  have hlength := (h.nodup.subperm h.subset).length_le
  rw [List.length_map, h.length_eq] at hlength
  rcases h.depth_le with rfl | hle
  · rw [List.length_nil]
    omega
  · omega

/-- A node of a tree is grown from the path and the names above it. -/
theorem eq_grow_of_at? {p : List Nat} {s : Tree}
    (hs : (grow b maxDepth path depth name).at? p = some s) :
    Leads b maxDepth path depth p ((grow b maxDepth path depth name).above p) ∧
      s = grow b maxDepth
        ((((grow b maxDepth path depth name).above p).map Tree.name).reverse ++ path)
        (depth + p.length) s.name := by
  induction p generalizing path depth name with
  | nil =>
    obtain rfl := Option.some.inj ((at?_nil _).symm.trans hs)
    rw [above_nil, name_grow]
    exact ⟨⟨rfl, List.nodup_nil, nofun, List.nil_subset _, .inl rfl⟩, rfl⟩
  | cons i p ih =>
    obtain ⟨c, hc, hs⟩ := at?_cons.mp hs
    obtain ⟨hpath, hdepth, v, hdepends, rfl⟩ := exists_of_child hc
    obtain ⟨hleads, heq⟩ := ih hs
    rw [above_cons hc, List.map_cons, name_grow]
    refine ⟨⟨?_, ?_, ?_, ?_, ?_⟩, ?_⟩
    · rw [List.length_cons, hleads.length_eq, List.length_cons]
    · rw [List.map_cons, name_grow, List.nodup_cons]
      exact ⟨fun hmem => hleads.off_path name hmem List.mem_cons_self, hleads.nodup⟩
    · rw [List.map_cons, name_grow]
      refine List.forall_mem_cons.mpr ⟨hpath, fun n hn hmem => ?_⟩
      exact hleads.off_path n hn (List.mem_cons_of_mem _ hmem)
    · rw [List.map_cons, name_grow]
      exact List.cons_subset.mpr ⟨hdepends.mem_formulaNames, hleads.subset⟩
    · right
      rw [List.length_cons]
      rcases hleads.depth_le with rfl | hle
      · rw [List.length_nil]
        omega
      · omega
    · rw [List.reverse_cons, List.append_assoc, List.length_cons, Nat.add_comm p.length,
        ← Nat.add_assoc]
      exact heq

/-! ## The role of a node -/

/-- What is shown of a name, by whether it is on the path or too deep and whether it has a
formula. -/
theorem grow_cases (b : Book) (maxDepth : Int) (path : List String) (depth : Nat)
    (name : String) :
    let t := grow b maxDepth path depth name
    ((name ∈ path ∨ maxDepth < depth) ∧ t.role = .circular ∧ t.children = []) ∨
      ¬ (name ∈ path ∨ maxDepth < depth) ∧
        ((b.formula? name = none ∧ t.role = .leaf ∧ t.children = []) ∨
          ∃ text, b.formula? name = some text ∧
            t.role = .formula text (Analysis.of text).operators ∧
            t.children.map Tree.name = (Analysis.of text).vars) := by
  dsimp only
  rw [children_grow, role_grow]
  by_cases hcircular : name ∈ path ∨ maxDepth < depth
  · rw [Role.of, if_pos hcircular]
    exact .inl ⟨hcircular, rfl, rfl⟩
  · rw [Role.of, if_neg hcircular]
    refine .inr ⟨hcircular, ?_⟩
    cases htext : b.formula? name with
    | none => exact .inl ⟨rfl, rfl, rfl⟩
    | some text =>
      refine .inr ⟨text, rfl, rfl, ?_⟩
      rw [List.map_map]
      exact List.map_id'' (fun v => name_grow ..) _

/-- The role of a node at an address, with the nodes above it. The way to it comes to no formula
twice, and its depth is its distance from the root. It is circular if its name is above it or it is
too deep, and otherwise a formula or a leaf as the book says; only a formula has nodes below it. -/
structure Decided (b : Book) (maxDepth : Int) (p : List Nat) (above : List Tree) (s : Tree) :
    Prop where
  nodup_formulas : (((above ++ [s]).filter isFormula).map Tree.name).Nodup
  depth_eq : s.depth = p.length ∧ above.length = p.length
  depth_le : (s.depth : Int) ≤ max 0 (min (maxDepth + 1) b.formulaNames.length)
  circular_iff : s.role = .circular ↔ s.name ∈ above.map Tree.name ∨ maxDepth < s.depth
  formula_iff : ∀ text operators, s.role = .formula text operators ↔
    s.role ≠ .circular ∧ b.formula? s.name = some text ∧ operators = (Analysis.of text).operators
  leaf_iff : s.role = .leaf ↔ s.role ≠ .circular ∧ b.formula? s.name = none
  names_children : ∀ text operators, s.role = .formula text operators →
    s.children.map Tree.name = (Analysis.of text).vars
  children_eq_nil : s.role = .circular ∨ s.role = .leaf → s.children = []

/-- Formulas on the way to a node have different names if those above it have, for it is a formula
only if its name is not above it. -/
theorem nodup_formulas_append {above : List Tree} {s : Tree}
    (hnodup : (above.map Tree.name).Nodup)
    (hs : s.isFormula = true → s.name ∉ above.map Tree.name) :
    (((above ++ [s]).filter isFormula).map Tree.name).Nodup := by
  have habove : ((above.filter isFormula).map Tree.name).Sublist (above.map Tree.name) :=
    List.filter_sublist.map _
  rw [List.filter_append, List.map_append]
  by_cases hformula : s.isFormula = true
  · rw [List.filter_cons_of_pos hformula, List.filter_nil, List.map_singleton]
    refine List.nodup_append.mpr ⟨habove.nodup hnodup, List.nodup_singleton _, ?_⟩
    rintro n hn _ hmem rfl
    rw [List.mem_singleton] at hmem
    exact hs hformula (hmem ▸ habove.subset hn)
  · rw [List.filter_cons_of_neg hformula, List.filter_nil, List.map_nil, List.append_nil]
    exact habove.nodup hnodup

/-- In the tree of a name every role is decided by what is above the node. -/
theorem decided_build (b : Book) (maxDepth : Int) (root : String) {p : List Nat} {s : Tree}
    (hs : (build b maxDepth root).at? p = some s) :
    Decided b maxDepth p ((build b maxDepth root).above p) s := by
  obtain ⟨hleads, heq⟩ := eq_grow_of_at? hs
  rw [List.append_nil, Nat.zero_add] at heq
  change Leads b maxDepth [] 0 p ((build b maxDepth root).above p) at hleads
  change s = grow b maxDepth (((build b maxDepth root).above p).map Tree.name).reverse p.length
    s.name at heq
  generalize (build b maxDepth root).above p = above at hleads heq ⊢
  have hdepth : s.depth = p.length := by rw [heq, depth_grow]
  have hle := hleads.length_le
  rw [← hdepth] at hle
  have hcases := grow_cases b maxDepth (above.map Tree.name).reverse p.length s.name
  rw [← heq, List.mem_reverse, ← hdepth] at hcases
  have hformulas (h : s.isFormula = true → s.name ∉ above.map Tree.name) :=
    nodup_formulas_append hleads.nodup h
  have hlength : s.depth = p.length ∧ above.length = p.length := ⟨hdepth, hleads.length_eq⟩
  obtain ⟨hcircular, hrole, hchildren⟩ | ⟨hcircular, hcases⟩ := hcases
  · refine ⟨hformulas ?_, hlength, hle, iff_of_true hrole hcircular, ?_, ?_, ?_, fun _ => hchildren⟩
    all_goals simp [isFormula, hrole]
  · have hoff : s.name ∉ above.map Tree.name := fun h => hcircular (.inl h)
    obtain ⟨htext, hrole, hchildren⟩ | ⟨text, htext, hrole, hvars⟩ := hcases
    · refine ⟨hformulas fun _ => hoff, hlength, hle, iff_of_false ?_ hcircular, ?_, ?_, ?_,
        fun _ => hchildren⟩
      all_goals simp [hrole, htext]
    · refine ⟨hformulas fun _ => hoff, hlength, hle, iff_of_false ?_ hcircular, ?_, ?_, ?_, ?_⟩
      · simp [hrole]
      · intro text' operators
        simp only [hrole, htext, Role.formula.injEq, Option.some.injEq]
        constructor
        · rintro ⟨rfl, rfl⟩
          exact ⟨nofun, rfl, rfl⟩
        · rintro ⟨-, rfl, rfl⟩
          exact ⟨rfl, rfl⟩
      · simp [hrole, htext]
      · intro text' operators h
        rw [hrole] at h
        obtain ⟨rfl, -⟩ := Role.formula.inj h
        exact hvars
      · simp [hrole]

/-- Two names that mention each other, with a limit far beyond what the book can need: two steps
down the name is above itself, and so it is circular. -/
theorem decided_build_cyclic :
    let t := build (.ofList [("a", "b / 2"), ("b", "c - a")]) 1000 "a"
    ∃ s, t.at? [0, 1] = some s ∧ s.role = .circular ∧ s.depth = 2 ∧
      (t.above [0, 1]).map Tree.name = ["a", "b"] ∧
      Decided (.ofList [("a", "b / 2"), ("b", "c - a")]) 1000 [0, 1] (t.above [0, 1]) s := by
  intro t
  have hs : (t.at? [0, 1]).map Tree.role = some .circular := by decide +kernel
  have habove : (t.above [0, 1]).map Tree.name = ["a", "b"] := by decide +kernel
  obtain ⟨s, hat, hrole⟩ := Option.map_eq_some_iff.mp hs
  have hdecided := decided_build _ 1000 "a" hat
  exact ⟨s, hat, hrole, hdecided.depth_eq.1, habove, hdecided⟩

end FormulaBook.Tree
