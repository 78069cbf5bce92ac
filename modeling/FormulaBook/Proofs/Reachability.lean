import FormulaBook.Proofs.Agreement
import Mathlib.Data.List.Perm.Subperm
import Mathlib.Data.Nat.Find

/-!
# Dependency trees and the graph of dependencies

The names of a book with their dependencies are a directed graph, in which the dependency tree of a
name is grown path by path. A name occurs in the tree exactly if it is reached from the root in at
most one step more than the depth limit, and if the limit is no less than the number of formulas,
the tree has a circular node exactly if a cycle is reached from the root (`Tree.complete_build`).

The tree opens no name twice on a path, so its names are those at the end of a route that does not
come back to itself (`Tree.mem_names_grow_iff`); a walk of the least length is such a route
(`Book.Route.of_least`). A circular node that is not on its own path would be below more names with
formulas than there are (`Tree.Reaches.length_le`). Without circular nodes every walk from the root
ends, so it meets no cycle (`Tree.not_cycle_of_forall_role`).
-/

namespace FormulaBook

open Relation (ReflTransGen TransGen)

namespace Book

variable {b : Book}

/-- The second name is reached from the first in so many steps from a name to one that it depends
on. -/
inductive DependsIn (b : Book) : Nat → String → String → Prop
  | refl (n : String) : DependsIn b 0 n n
  | head {k n v w} : b.Depends n v → DependsIn b k v w → DependsIn b (k + 1) n w

/-- As before, going on neither from a name on the path nor from one name twice. -/
inductive Route (b : Book) : List String → Nat → String → String → Prop
  | refl {path} (n : String) : Route b path 0 n n
  | head {path k n v w} : n ∉ path → b.Depends n v → Route b (n :: path) k v w →
      Route b path (k + 1) n w

/-- A route leads from a name to one that it depends on. -/
theorem Route.dependsIn {path : List String} {k : Nat} {n w : String} (h : b.Route path k n w) :
    b.DependsIn k n w := by
  induction h with
  | refl n => exact .refl n
  | head _ hd _ ih => exact .head hd ih

/-- A walk of the least length is a route, if it leads nowhere that is as near to a name on the
path. -/
theorem Route.of_least {k : Nat} {n w : String} (h : b.DependsIn k n w) {path : List String}
    (hleast : ∀ j < k, ¬ b.DependsIn j n w) (hpath : ∀ q ∈ path, ∀ j ≤ k, ¬ b.DependsIn j q w) :
    b.Route path k n w := by
  induction h generalizing path with
  | refl n => exact .refl n
  | @head k n v w hd hv ih =>
    refine .head (fun hn => hpath n hn _ (Nat.le_refl _) (.head hd hv)) hd (ih ?_ ?_)
    · exact fun j hj hvw => hleast (j + 1) (by omega) (.head hd hvw)
    · intro q hq j hj hqw
      rcases List.mem_cons.mp hq with rfl | hq
      · exact hleast j (by omega) hqw
      · exact hpath q hq j (by omega) hqw

/-- What is reached is reached on a route that is no longer. -/
theorem exists_route {k : Nat} {n w : String} (h : b.DependsIn k n w) :
    ∃ j ≤ k, b.Route [] j n w := by
  classical
  have hex : ∃ j, b.DependsIn j n w := ⟨k, h⟩
  refine ⟨Nat.find hex, Nat.find_min' hex h, .of_least (Nat.find_spec hex) (fun j hj => ?_) ?_⟩
  · exact Nat.find_min hex hj
  · exact fun q hq => absurd hq List.not_mem_nil

/-- A name that depends on another is in the book. -/
theorem Depends.mem_names {n v : String} (h : b.Depends n v) : n ∈ b.names := by
  obtain ⟨text, htext, -⟩ := h
  exact mem_names_of_formula? htext

/-- What holds of a name below a path if it holds of everything the name depends on below the longer
path holds of all names: the names that are off the path get fewer. -/
theorem induction_off_path {motive : List String → Nat → String → Prop}
    (step : ∀ path depth name,
      (name ∉ path → ∀ v, b.Depends name v → motive (name :: path) (depth + 1) v) →
      motive path depth name)
    (path : List String) (depth : Nat) (name : String) : motive path depth name :=
  step path depth name fun _hpath v _hv =>
    induction_off_path step (name :: path) (depth + 1) v
termination_by b.unvisited path
decreasing_by exact unvisited_cons_lt _hv.mem_names _hpath

/-- The names that have formulas. -/
def formulaNames (b : Book) : List String := b.names.filter b.hasFormula

/-- A name that depends on another has a formula. -/
theorem Depends.mem_formulaNames {n v : String} (h : b.Depends n v) : n ∈ b.formulaNames := by
  obtain ⟨text, htext, -⟩ := id h
  exact List.mem_filter.mpr ⟨h.mem_names, by rw [hasFormula, htext]; rfl⟩

end Book

namespace Tree

variable {b : Book} {maxDepth : Int} {path : List String} {depth : Nat} {name : String} {s : Tree}

/-! ## Nodes of a tree that is grown -/

/-- The nodes of several trees are the nodes of each of them. -/
theorem mem_preorderAll {ts : List Tree} : s ∈ preorderAll ts ↔ ∃ t ∈ ts, s ∈ t.preorder := by
  induction ts with
  | nil => simp [preorderAll]
  | cons t ts ih => simp [preorderAll, ih]

/-- The nodes below a name are those below the names it depends on, if the name is off the path and
within the depth limit. -/
theorem mem_preorder_grow :
    s ∈ (grow b maxDepth path depth name).preorder ↔
      s = grow b maxDepth path depth name ∨
        name ∉ path ∧ (depth : Int) ≤ maxDepth ∧
          ∃ v, b.Depends name v ∧
            s ∈ (grow b maxDepth (name :: path) (depth + 1) v).preorder := by
  rw [preorder_eq, List.mem_cons, children_grow, mem_preorderAll]
  refine or_congr_right ?_
  constructor
  · rintro ⟨t, ht, hs⟩
    obtain ⟨v, hv, rfl⟩ := List.mem_map.mp ht
    obtain ⟨hpath, hdepth, hdepends⟩ := Role.mem_vars_of.mp hv
    exact ⟨hpath, hdepth, v, hdepends, hs⟩
  · rintro ⟨hpath, hdepth, v, hdepends, hs⟩
    exact ⟨_, List.mem_map_of_mem (Role.mem_vars_of.mpr ⟨hpath, hdepth, hdepends⟩), hs⟩

/-- The root of a tree is one of its nodes. -/
theorem self_mem_preorder (t : Tree) : t ∈ t.preorder := by
  rw [preorder_eq]
  exact List.mem_cons_self

/-- A node is circular if its name is on the path or it is too deep. -/
theorem role_grow_eq_circular_iff :
    (grow b maxDepth path depth name).role = .circular ↔ name ∈ path ∨ maxDepth < depth := by
  by_cases hpath : name ∈ path
  · rw [grow, dif_pos hpath]
    exact iff_of_true rfl (.inl hpath)
  · by_cases hdepth : maxDepth < depth
    · rw [grow, dif_neg hpath, if_pos hdepth]
      exact iff_of_true rfl (.inr hdepth)
    · rw [grow, dif_neg hpath, if_neg hdepth]
      refine iff_of_false ?_ (not_or.mpr ⟨hpath, hdepth⟩)
      split <;> exact nofun

/-! ## Names in a tree -/

/-- The names in a tree are those at the end of a route that the depth limit allows. -/
theorem mem_names_grow_iff {n : String} :
    n ∈ (grow b maxDepth path depth name).preorder.map Tree.name ↔
      ∃ k : Nat, (k = 0 ∨ (depth : Int) + k ≤ maxDepth + 1) ∧ b.Route path k name n := by
  constructor
  · induction path, depth, name using Book.induction_off_path (b := b) with
    | step path depth name ih =>
    rw [List.mem_map]
    rintro ⟨s, hs, rfl⟩
    rcases mem_preorder_grow.mp hs with rfl | ⟨hpath, hdepth, v, hv, hs⟩
    · rw [name_grow]
      exact ⟨0, .inl rfl, .refl name⟩
    · obtain ⟨k, hk, hroute⟩ := ih hpath v hv (List.mem_map_of_mem hs)
      exact ⟨k + 1, .inr (by omega), .head hpath hv hroute⟩
  · rintro ⟨k, hk, hroute⟩
    rw [List.mem_map]
    induction hroute generalizing depth with
    | refl n => exact ⟨_, self_mem_preorder _, name_grow ..⟩
    | @head path k n v w hpath hv hroute ih =>
      have hk' : k = 0 ∨ ((depth + 1 : Nat) : Int) + k ≤ maxDepth + 1 := by omega
      obtain ⟨s, hs, hname⟩ := ih hk'
      exact ⟨s, mem_preorder_grow.mpr (.inr ⟨hpath, by omega, v, hv, hs⟩), hname⟩

/-! ## Circular nodes -/

/-- A path that leads from the root to a name through names with formulas, none of them twice. -/
structure Reaches (b : Book) (root : String) (path : List String) (name : String) : Prop where
  nodup : path.Nodup
  subset : path ⊆ b.formulaNames
  reaches : ReflTransGen b.Depends root name
  goes : ∀ q ∈ path, TransGen b.Depends q name

namespace Reaches

variable {root : String}

/-- The root is reached by the empty path. -/
theorem nil (b : Book) (root : String) : Reaches b root [] root :=
  ⟨List.nodup_nil, List.nil_subset _, .refl, fun _ hq => absurd hq List.not_mem_nil⟩

/-- The path goes on from a name that is off it. -/
theorem cons (h : Reaches b root path name) (hpath : name ∉ path) {v : String}
    (hv : b.Depends name v) : Reaches b root (name :: path) v where
  nodup := List.nodup_cons.mpr ⟨hpath, h.nodup⟩
  subset := List.cons_subset.mpr ⟨hv.mem_formulaNames, h.subset⟩
  reaches := h.reaches.tail hv
  goes q hq := by
    rcases List.mem_cons.mp hq with rfl | hq
    · exact .single hv
    · exact (h.goes q hq).tail hv

/-- A path is no longer than the number of formulas. -/
theorem length_le (h : Reaches b root path name) : path.length ≤ b.formulaNames.length :=
  (h.nodup.subperm h.subset).length_le

end Reaches

/-- Below a path from the root that the depth limit allows, a circular node is on its own path, and
this is a cycle. -/
theorem exists_cycle_of_circular {root : String} (hlimit : (b.formulaNames.length : Int) ≤ maxDepth)
    (hs : s ∈ (grow b maxDepth path depth name).preorder) (hrole : s.role = .circular)
    (hpath : Reaches b root path name) (hdepth : depth = path.length) :
    ∃ c, ReflTransGen b.Depends root c ∧ TransGen b.Depends c c := by
  induction path, depth, name using Book.induction_off_path (b := b) with
  | step path depth name ih =>
  rcases mem_preorder_grow.mp hs with rfl | ⟨hoff, -, v, hv, hs⟩
  · rcases role_grow_eq_circular_iff.mp hrole with hmem | hdeep
    · exact ⟨name, hpath.reaches, hpath.goes name hmem⟩
    · -- so deep a path would have more names on it than there are formulas
      have hlen := hpath.length_le
      omega
  · exact ih hoff v hv hs (hpath.cons hoff hv) (by rw [hdepth, List.length_cons])

/-- Without circular nodes no cycle is reached. A cycle through the name itself is one through what
it depends on. -/
theorem not_cycle_of_forall_role
    (hroles : ∀ s ∈ (grow b maxDepth path depth name).preorder, s.role ≠ .circular) {c : String}
    (hc : ReflTransGen b.Depends name c) : ¬ TransGen b.Depends c c := by
  induction path, depth, name using Book.induction_off_path (b := b) generalizing c with
  | step path depth name ih =>
  have hopen := mt role_grow_eq_circular_iff.mpr (hroles _ (self_mem_preorder _))
  obtain ⟨hpath, hdepth⟩ := not_or.mp hopen
  have hbelow (v : String) (hv : b.Depends name v) {c : String}
      (hc : ReflTransGen b.Depends v c) : ¬ TransGen b.Depends c c :=
    ih hpath v hv
      (fun s hs => hroles s (mem_preorder_grow.mpr (.inr ⟨hpath, by omega, v, hv, hs⟩))) hc
  rcases hc.cases_head with rfl | ⟨v, hv, hvc⟩
  · intro hcycle
    obtain ⟨v, hv, hvc⟩ := TransGen.head'_iff.mp hcycle
    exact hbelow v hv .refl (.tail' hvc hv)
  · exact hbelow v hv hvc

/-! ## The tree of a name -/

/-- The tree of a name shows what the name reaches: a name occurs in it exactly if it is reached in
as many steps as the depth limit allows and one more, and if the limit is no less than the number of
formulas, a node is circular exactly if a cycle is reached. -/
theorem complete_build (b : Book) {maxDepth : Int} (hdepth : 0 ≤ maxDepth) (root : String) :
    (∀ n, n ∈ (build b maxDepth root).preorder.map Tree.name ↔
      ∃ k : Nat, (k : Int) ≤ maxDepth + 1 ∧ b.DependsIn k root n) ∧
    ((b.formulaNames.length : Int) ≤ maxDepth →
      ((∃ t ∈ (build b maxDepth root).preorder, t.role = .circular) ↔
        ∃ c, ReflTransGen b.Depends root c ∧ TransGen b.Depends c c)) := by
  constructor
  · intro n
    rw [build, mem_names_grow_iff]
    constructor
    · rintro ⟨k, hk, hroute⟩
      exact ⟨k, by omega, hroute.dependsIn⟩
    · -- the shortest way comes back to no name, so the tree does not cut it
      rintro ⟨k, hk, hsteps⟩
      obtain ⟨j, hj, hroute⟩ := Book.exists_route hsteps
      exact ⟨j, .inr (by omega), hroute⟩
  · intro hlimit
    constructor
    · rintro ⟨t, ht, hrole⟩
      exact exists_cycle_of_circular hlimit ht hrole (.nil b root) rfl
    · rintro ⟨c, hc, hcycle⟩
      by_contra hnone
      exact not_cycle_of_forall_role (fun s hs hrole => hnone ⟨s, hs, hrole⟩) hc hcycle

/-- With a limit of two, the number of formulas, the name `c` is reached within the limit, and the
cycle of `a` and `b` shows. -/
theorem complete_build_cyclic :
    let b := Book.ofList [("a", "b / 2"), ("b", "a - c")]
    (b.formulaNames.length : Int) ≤ 2 ∧ b.DependsIn 2 "a" "c" ∧ TransGen b.Depends "a" "a" ∧
      "c" ∈ (build b 2 "a").preorder.map Tree.name ∧
      ∃ t ∈ (build b 2 "a").preorder, t.role = .circular := by
  intro b
  have hab : b.Depends "a" "b" := ⟨"b / 2", by decide +kernel, by decide +kernel⟩
  have hba : b.Depends "b" "a" := ⟨"a - c", by decide +kernel, by decide +kernel⟩
  have hbc : b.Depends "b" "c" := ⟨"a - c", by decide +kernel, by decide +kernel⟩
  have hlimit : (b.formulaNames.length : Int) ≤ 2 := by decide +kernel
  have hsteps : b.DependsIn 2 "a" "c" := .head hab (.head hbc (.refl "c"))
  have hcycle : TransGen b.Depends "a" "a" := .tail (.single hab) hba
  obtain ⟨hnames, hcircular⟩ := complete_build b (show (0 : Int) ≤ 2 by decide) "a"
  exact ⟨hlimit, hsteps, hcycle, (hnames "c").mpr ⟨2, by decide, hsteps⟩,
    (hcircular hlimit).mpr ⟨"a", .refl, hcycle⟩⟩

end Tree

end FormulaBook
