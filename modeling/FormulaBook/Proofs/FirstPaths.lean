import FormulaBook.Proofs.Roles
import Mathlib.Data.List.Chain

/-!
# Paths to a name in a dependency tree

`Tree.findPath` goes down a tree and comes back from the children that do not lead to the name. The
path it finds is the one to the first node with the name, where each node comes before those below
it (`Tree.first?`), and it finds none only if there is no such node. No node above the first one has
its name, so in the tree of a book the path meets no name twice, goes from a name to a variable of
its formula and never ends where a name recurs below itself (`Tree.findPath_leads_to_first`).
-/

namespace FormulaBook.Tree

/-- The first node with the name and its address, where each node comes before those below it. -/
def first? (target : String) (t : Tree) : Option (List Nat × Tree) :=
  (t.located []).find? fun q => q.2.name == target

/-! ## The path found -/

variable {target : String} {t c s : Tree} {p : List Nat}

/-- The node at an address has the name, those above it do not, and the path leads to it. -/
structure Finds (target : String) (t : Tree) (p : List Nat) (s : Tree) (path : List String) :
    Prop where
  at?_eq : t.at? p = some s
  name_eq : s.name = target
  not_mem : target ∉ (t.above p).map name
  path_eq : path = (t.above p ++ [s]).map name

/-- A path that leads to a node is not empty. -/
theorem Finds.ne_nil {path : List String} (h : Finds target t p s path) : path ≠ [] := by
  rw [h.path_eq, List.map_append]
  exact List.append_ne_nil_of_right_ne_nil _ (List.cons_ne_nil _ _)

/-- What is found below a node with another name is found from the node. -/
theorem Finds.cons {path : List String} (h : Finds target c p s path) {i : Nat}
    (hc : t.children[i]? = some c) (ht : t.name ≠ target) :
    Finds target t (i :: p) s (t.name :: path) where
  at?_eq := at?_cons.mpr ⟨c, hc, h.at?_eq⟩
  name_eq := h.name_eq
  not_mem := by
    rw [above_cons hc, List.map_cons, List.mem_cons, not_or]
    exact ⟨ht.symm, h.not_mem⟩
  path_eq := by rw [above_cons hc, h.path_eq, List.cons_append, List.map_cons]

mutual

/-- Either no path is found and there is no node with the name, or the path found leads to the first
of them. -/
theorem findPath_cases (target : String) : ∀ (t : Tree) (q : List Nat),
    (findPath target t = [] ∧ (t.located q).find? (fun a => a.2.name == target) = none) ∨
      ∃ p s, (t.located q).find? (fun a => a.2.name == target) = some (q ++ p, s) ∧
        Finds target t p s (findPath target t)
  | .node n r d cs, q => by
    rw [located, findPath]
    by_cases hn : n = target
    · rw [if_pos hn, List.find?_cons_of_pos (by simpa [name] using hn)]
      refine .inr ⟨[], .node n r d cs, by rw [List.append_nil], at?_nil _, hn, ?_, rfl⟩
      exact List.not_mem_nil
    · rw [if_neg hn, List.find?_cons_of_neg (by simpa [name] using hn)]
      rcases findPathAll_cases target cs q 0 with ⟨hpath, hnone⟩ | ⟨j, c, p, s, hc, hfirst, h⟩
      · rw [hpath]
        exact .inl ⟨rfl, hnone⟩
      · rw [Nat.zero_add] at hfirst
        refine .inr ⟨j :: p, s, hfirst, ?_⟩
        -- the search takes an empty path for a failure, and a path that was found is not empty
        split
        · exact absurd ‹_› h.ne_nil
        · exact h.cons (t := .node n r d cs) hc hn

/-- Of several trees, the first one that has a node with the name is gone down. -/
theorem findPathAll_cases (target : String) : ∀ (ts : List Tree) (q : List Nat) (i : Nat),
    (findPathAll target ts = [] ∧
        (locatedAll q i ts).find? (fun a => a.2.name == target) = none) ∨
      ∃ j t p s, ts[j]? = some t ∧
        (locatedAll q i ts).find? (fun a => a.2.name == target) = some (q ++ (i + j) :: p, s) ∧
        Finds target t p s (findPathAll target ts)
  | [], q, i => .inl ⟨rfl, rfl⟩
  | t :: ts, q, i => by
    rw [locatedAll, findPathAll, List.find?_append]
    rcases findPath_cases target t (q ++ [i]) with ⟨hpath, hnone⟩ | ⟨p, s, hfirst, h⟩
    · rw [hpath, hnone, Option.none_or]
      rcases findPathAll_cases target ts q (i + 1) with ⟨hpath, hnone⟩ | ⟨j, u, p, s, hu, hfirst, h⟩
      · exact .inl ⟨hpath, hnone⟩
      · refine .inr ⟨j + 1, u, p, s, hu, ?_, h⟩
        rw [hfirst, Nat.add_right_comm, Nat.add_assoc]
    · refine .inr ⟨0, t, p, s, rfl, ?_, ?_⟩
      · rw [hfirst, Option.some_or, List.append_assoc]
        rfl
      · split
        · exact absurd ‹_› h.ne_nil
        · exact h

end

/-- The path found leads to the first node with the name. -/
theorem finds_of_first? (h : t.first? target = some (p, s)) :
    Finds target t p s (findPath target t) := by
  rcases findPath_cases target t [] with ⟨-, hnone⟩ | ⟨p', s', hfirst, hfinds⟩
  · cases h.symm.trans hnone
  · cases h.symm.trans hfirst
    exact hfinds

/-- There is no first node of a name where no node has it. -/
theorem first?_eq_none_iff : t.first? target = none ↔ ∀ s ∈ t.preorder, s.name ≠ target := by
  rw [first?, List.find?_eq_none, ← map_snd_located [] t, List.forall_mem_map]
  simp only [beq_iff_eq]

/-- The path is empty where there is no first node. -/
theorem findPath_eq_nil_iff : findPath target t = [] ↔ t.first? target = none := by
  rcases findPath_cases target t [] with ⟨hpath, hnone⟩ | ⟨p, s, hfirst, hfinds⟩
  · exact iff_of_true hpath hnone
  · exact iff_of_false hfinds.ne_nil fun hnone => nomatch hnone.symm.trans hfirst

/-! ## Paths in the tree of a book -/

variable {b : Book} {maxDepth : Int} {path : List String} {depth : Nat} {name : String}

/-- The way to a node starts at the root. -/
theorem head?_map_above (hs : t.at? p = some s) :
    ((t.above p ++ [s]).map Tree.name).head? = some t.name := by
  cases p with
  | nil =>
    obtain rfl := Option.some.inj ((at?_nil t).symm.trans hs)
    rfl
  | cons i p =>
    obtain ⟨c, hc, -⟩ := at?_cons.mp hs
    rw [above_cons hc]
    rfl

/-- The way to a node goes from each name to a variable of its formula. -/
theorem isChain_depends (hs : (grow b maxDepth path depth name).at? p = some s) :
    List.IsChain b.Depends
      (((grow b maxDepth path depth name).above p ++ [s]).map Tree.name) := by
  induction p generalizing path depth name with
  | nil => exact .singleton _
  | cons i p ih =>
    obtain ⟨c, hc, hs⟩ := at?_cons.mp hs
    obtain ⟨-, -, v, hdepends, rfl⟩ := exists_of_child hc
    rw [above_cons hc, List.cons_append, List.map_cons, List.isChain_cons, head?_map_above hs]
    refine ⟨fun u hu => ?_, ih hs⟩
    obtain rfl := Option.some.inj hu
    rw [name_grow, name_grow]
    exact hdepends

/-- A path is found exactly if there is a node with the name, and it leads to the first one. In the
tree of a book it meets no name twice and goes from each name to a variable of its formula; it ends
at no node that is circular because its name is above it, but only at one that is too deep. -/
theorem findPath_leads_to_first (target : String) :
    (∀ t : Tree,
      (findPath target t = [] ↔ ∀ s ∈ t.preorder, s.name ≠ target) ∧
      (findPath target t ≠ [] → ∃ p s, t.first? target = some (p, s) ∧
        findPath target t = (t.above p ++ [s]).map Tree.name)) ∧
    ∀ (b : Book) (maxDepth : Int) (root : String), findPath target (build b maxDepth root) ≠ [] →
      (findPath target (build b maxDepth root)).Nodup ∧
      (findPath target (build b maxDepth root)).IsChain b.Depends ∧
      ∃ p s, (build b maxDepth root).first? target = some (p, s) ∧
        (build b maxDepth root).at? p = some s ∧
        s.name ∉ ((build b maxDepth root).above p).map Tree.name ∧
        (s.role = .circular → maxDepth < s.depth) := by
  have hfirst {t : Tree} (h : findPath target t ≠ []) : ∃ p s, t.first? target = some (p, s) := by
    obtain ⟨⟨p, s⟩, hps⟩ := Option.ne_none_iff_exists'.mp (mt findPath_eq_nil_iff.mpr h)
    exact ⟨p, s, hps⟩
  refine ⟨fun t => ⟨findPath_eq_nil_iff.trans first?_eq_none_iff, fun h => ?_⟩,
    fun b maxDepth root h => ?_⟩
  · obtain ⟨p, s, hps⟩ := hfirst h
    exact ⟨p, s, hps, (finds_of_first? hps).path_eq⟩
  obtain ⟨p, s, hps⟩ := hfirst h
  have hfinds := finds_of_first? hps
  have hnew : s.name ∉ ((build b maxDepth root).above p).map Tree.name :=
    hfinds.name_eq ▸ hfinds.not_mem
  obtain ⟨hleads, hgrow⟩ := eq_grow_of_at? hfinds.at?_eq
  refine ⟨?_, ?_, p, s, hps, hfinds.at?_eq, hnew, fun hrole => ?_⟩
  · rw [hfinds.path_eq, List.map_append, List.map_singleton, List.nodup_append]
    refine ⟨hleads.nodup, List.nodup_singleton _, fun n hn m hm hnm => hnew ?_⟩
    rwa [← List.mem_singleton.mp hm, ← hnm]
  · rw [hfinds.path_eq]
    exact isChain_depends hfinds.at?_eq
  · have hdepth : s.depth = p.length := by rw [hgrow, depth_grow, Nat.zero_add]
    rw [hgrow, role_grow_eq_circular_iff, List.append_nil, List.mem_reverse, Nat.zero_add,
      ← hdepth] at hrole
    exact hrole.resolve_left hnew

/-- The first `d` is below `b` and `c`, though `a` mentions it itself. There it is one step beyond
the limit. -/
theorem findPath_leads_to_first_below :
    let t := build (.ofList [("a", "b + d"), ("b", "a * c"), ("c", "d"), ("d", "2 * x")]) 2 "a"
    findPath "d" t = ["a", "b", "c", "d"] ∧ (findPath "d" t).Nodup ∧
      ∃ s, t.first? "d" = some ([0, 1, 0], s) ∧ s.role = .circular ∧ 2 < s.depth := by
  intro t
  have hpath : findPath "d" t = ["a", "b", "c", "d"] := by decide +kernel
  have haddress : (t.first? "d").map Prod.fst = some [0, 1, 0] := by decide +kernel
  have hrole : (t.first? "d").map (·.2.role) = some .circular := by decide +kernel
  obtain ⟨hnodup, -, p, s, hfirst, -, -, hdeep⟩ := (findPath_leads_to_first "d").2 _ 2 "a"
    (hpath ▸ List.cons_ne_nil _ _ : findPath "d" t ≠ [])
  change t.first? "d" = some (p, s) at hfirst
  rw [hfirst] at haddress hrole
  obtain rfl : p = [0, 1, 0] := Option.some.inj haddress
  have hcircular : s.role = .circular := Option.some.inj hrole
  exact ⟨hpath, hnodup, s, hfirst, hcircular, Int.ofNat_lt.mp (hdeep hcircular)⟩

end FormulaBook.Tree
