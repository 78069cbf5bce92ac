import FormulaBook.Proofs.Relevance
import FormulaBook.Proofs.Sessions

/-!
# Pruned dependency trees

What becomes of a tree when a formula is taken out of its book or the depth limit is lowered. A tree
is pruned (`Tree.pruned`) by giving some of its nodes another role and leaving out what is below
them. Without the formula of a name, the nodes that show it become leaves (`Tree.build_remove`);
with a lower limit, the nodes beyond it become circular (`Tree.build_of_le`).

Both compare two recursions, and one induction serves them (`Tree.grow_eq_pruned`). As long as no
node is pruned the two go down the same paths, so it is enough to compare the roles of one name
below one path. Below a pruned node the paths differ, but there only one of the recursions goes on,
and what it finds is left out.
-/

namespace FormulaBook

/-! ## A name that is not in a book -/

namespace Book

variable {b : Book} {name : String}

/-- A name that is erased stands for no formula. -/
theorem formula?_erase_self (b : Book) (name : String) : (b.erase name).formula? name = none := by
  have hget : (b.erase name).get? name = none := by
    rw [get?, List.lookup_eq_none_iff]
    intro e he
    exact bne_iff_ne.mpr (bne_iff_ne.mp (List.mem_filter.mp he).2).symm
  rw [formula?, hget, Option.filter_none]

/-- A name that is written and then erased leaves nothing behind, if it was not in the book. -/
theorem erase_insert_of_not_mem (h : name ∉ b.names) (text : String) :
    (b.insert name text).erase name = b := by
  have hentries : (Keyed.put name text b.entries).filter (·.1 != name) = b.entries := by
    rw [Keyed.put_of_not_mem h, List.filter_append, List.filter_cons_of_neg (by simp),
      List.filter_nil, List.append_nil, List.filter_eq_self]
    exact fun e he => bne_iff_ne.mpr fun hname => h (hname ▸ List.mem_map_of_mem he)
  cases b with
  | mk entries nodup =>
    rw [erase]
    congr 1

end Book

namespace Tree

/-! ## Pruning -/

mutual

/-- The tree with some nodes pruned: where `role?` has a role for a node, the node shows that role
and nothing is below it. -/
def pruned (role? : Tree → Option Role) : Tree → Tree
  | .node name role depth children =>
    match role? (.node name role depth children) with
    | some role => .node name role depth []
    | none => .node name role depth (prunedAll role? children)

/-- Several trees with some nodes pruned. -/
def prunedAll (role? : Tree → Option Role) : List Tree → List Tree
  | [] => []
  | t :: ts => t.pruned role? :: prunedAll role? ts

end

/-- The tree in which the nodes that show a formula of the name are leaves. -/
def withoutFormula (name : String) (t : Tree) : Tree :=
  t.pruned fun s => if s.name = name ∧ s.isFormula = true then some .leaf else none

/-- The tree in which the nodes that are deeper than the limit are circular. As depth grows by one
from a node to those below it, the nodes left there are one deeper than the limit. -/
def truncated (limit : Int) (t : Tree) : Tree :=
  t.pruned fun s => if limit < s.depth then some .circular else none

variable {role? : Tree → Option Role}

/-- Several trees are pruned one by one. -/
theorem prunedAll_eq_map (ts : List Tree) : prunedAll role? ts = ts.map (pruned role?) := by
  induction ts with
  | nil => rfl
  | cons t ts ih => rw [prunedAll, List.map_cons, ih]

/-- A node that is to show another role is pruned to a leaf with this role. -/
theorem pruned_of_some {t : Tree} {role : Role} (h : role? t = some role) :
    t.pruned role? = .node t.name role t.depth [] := by
  cases t with
  | node name r depth children => simp only [pruned, h, Tree.name, Tree.depth]

/-- A node that keeps its role has its children pruned. -/
theorem pruned_of_none {t : Tree} (h : role? t = none) :
    t.pruned role? = .node t.name t.role t.depth (t.children.map (pruned role?)) := by
  cases t with
  | node name role depth children =>
    simp only [pruned, h, prunedAll_eq_map, Tree.name, Tree.role, Tree.depth, Tree.children]

/-! ## Two recursions -/

variable {b f g : Book} {limit limit' : Int}

/-- A tree is another one pruned if below every path each name has the role that the pruning gives
it, and a pruned node has a role with nothing below it. -/
theorem grow_eq_pruned (hvars : ∀ t role, role? t = some role → role.vars = [])
    (hrole : ∀ path depth name, Role.of g limit' path depth name =
      (role? (grow f limit path depth name)).getD (.of f limit path depth name))
    (path : List String) (depth : Nat) (name : String) :
    grow g limit' path depth name = (grow f limit path depth name).pruned role? := by
  induction path, depth, name using Book.induction_off_path (b := f) with
  | step path depth name ih =>
  rw [grow_eq g, hrole]
  cases hpruned : role? (grow f limit path depth name) with
  | some role =>
    rw [pruned_of_some hpruned, name_grow, depth_grow, Option.getD_some, hvars _ _ hpruned,
      List.map_nil]
  | none =>
    rw [pruned_of_none hpruned, name_grow, role_grow, depth_grow, children_grow, List.map_map,
      Option.getD_none]
    congr 1
    -- both go on from the same path with the names below the same role
    refine List.map_congr_left fun v hv => ?_
    obtain ⟨hpath, -, hdepends⟩ := Role.mem_vars_of.mp hv
    exact ih hpath v hdepends

/-! ## A book without a formula -/

/-- A name has its role also without the formula of another one, and without its own it is a leaf
where it would be a formula. -/
theorem Role.of_erase (b : Book) (limit : Int) (n : String) (path : List String) (depth : Nat)
    (name : String) :
    Role.of (b.erase n) limit path depth name =
      (if name = n ∧ (grow b limit path depth name).isFormula = true then some .leaf
        else none).getD (.of b limit path depth name) := by
  by_cases hname : name = n
  · subst hname
    rw [isFormula, role_grow, Role.of, Role.of, Book.formula?_erase_self]
    by_cases hcircular : name ∈ path ∨ limit < depth
    · rw [if_pos hcircular, if_pos hcircular, if_neg (by simp)]
      rfl
    · rw [if_neg hcircular, if_neg hcircular]
      cases b.formula? name <;> simp
  · rw [if_neg fun h => hname h.1]
    exact Role.of_congr (Book.formula?_eq_of_get?_eq (Book.get?_erase_of_ne hname b)).symm _ _ _

/-- Without the formula of a name a tree is the same but for the nodes that show the formula, which
are leaves. What is added to a book is taken out of it again by removing the name, and the
name to show next is the first one in the book. -/
theorem build_remove (b : Book) (n : String) :
    (∀ limit root, build (b.remove n).1 limit root = (build b limit root).withoutFormula n) ∧
      ∀ text b', b.add n text = .ok b' → b'.remove n = (b, b.names.head?) := by
  constructor
  · intro limit root
    refine grow_eq_pruned (fun t role h => ?_) (fun path depth name => ?_) [] 0 root
    · split at h <;> cases h
      rfl
    · rw [name_grow]
      exact Role.of_erase b limit n path depth name
  · intro text b' hadd
    obtain ⟨hnew, -, rfl⟩ := Book.eq_insert_of_add hadd
    rw [Book.remove, Book.erase_insert_of_not_mem hnew]

/-- The formula of `b` is taken in and out again. While it is there, the name `a` recurs below it
and is circular; without it `b` is a leaf in both places where it was a formula. -/
theorem build_remove_shared :
    let m := Book.ofList [("r", "b + a * b"), ("a", "b ^ c")]
    let m' := m.insert "b" "a - c"
    m.add "b" "a - c" = .ok m' ∧ m'.remove "b" = (m, some "r") ∧
      build m 10 "r" = (build m' 10 "r").withoutFormula "b" := by
  intro m m'
  have hadd : m.add "b" "a - c" = .ok m' := by
    have hfilled : ¬ ("b" = "" ∨ "a - c" = "") := by decide
    have hnew : m.contains "b" = false := by decide +kernel
    have hparse : Expr.parse "a - c" =
        .ok (.binary .subtract (.identifier "a") (.identifier "c")) := by decide +kernel
    rw [Book.add, if_neg hfilled, hnew, hparse]
    rfl
  have hremove : m'.remove "b" = (m, some "r") := (build_remove m "b").2 "a - c" m' hadd
  have hbuild := (build_remove m' "b").1 10 "r"
  rw [hremove] at hbuild
  exact ⟨hadd, hremove, hbuild⟩

/-! ## A lower limit -/

/-- Below the limit a tree ends with the nodes next to it. -/
theorem depth_le_of_mem_preorder_grow {path : List String} {depth : Nat} {name : String} {s : Tree}
    (hs : s ∈ (grow b limit path depth name).preorder) :
    (s.depth : Int) ≤ max (depth : Int) (limit + 1) := by
  induction path, depth, name using Book.induction_off_path (b := b) with
  | step path depth name ih =>
  rcases mem_preorder_grow.mp hs with rfl | ⟨hpath, hdepth, v, hv, hs⟩
  · rw [depth_grow]
    omega
  · have hle := ih hpath v hv hs
    omega

/-- With a lower limit a name is circular beyond it and has the same role elsewhere. -/
theorem Role.of_of_le {d d' : Int} (h : d ≤ d') (path : List String) (depth : Nat)
    (name : String) :
    Role.of b d path depth name =
      (if d < depth then some Role.circular else none).getD (.of b d' path depth name) := by
  rw [Role.of, Role.of]
  by_cases hdepth : d < depth
  · rw [if_pos (.inr hdepth), if_pos hdepth]
    rfl
  · have hdepth' : ¬ d' < depth := by omega
    rw [if_neg hdepth]
    simp only [hdepth, hdepth', or_false, Option.getD_none]

/-- A tree with a lower limit is the one with the higher limit truncated: the nodes within the lower
limit are the same, the next ones are circular, and there are no others. -/
theorem build_of_le (b : Book) {d d' : Int} (hd : 0 ≤ d) (h : d ≤ d') (root : String) :
    build b d root = (build b d' root).truncated d ∧
      ∀ s ∈ (build b d root).preorder, (s.depth : Int) ≤ d + 1 := by
  constructor
  · refine grow_eq_pruned (fun t role hrole => ?_) (fun path depth name => ?_) [] 0 root
    · split at hrole <;> cases hrole
      rfl
    · rw [depth_grow]
      exact Role.of_of_le h path depth name
  · intro s hs
    have hle := depth_le_of_mem_preorder_grow hs
    omega

/-- One step below the limit are the leaf `c` and the name `a`, which is below itself. With the
lower limit both are circular. -/
theorem build_of_le_one :
    let b := Book.ofList [("a", "b"), ("b", "a - c")]
    (0 : Int) ≤ 1 ∧ (1 : Int) ≤ 5 ∧ build b 1 "a" = (build b 5 "a").truncated 1 ∧
      ((build b 5 "a").at? [0, 1]).map role = some .leaf ∧
      ((build b 1 "a").at? [0, 1]).map role = some .circular := by
  intro b
  have hd : (0 : Int) ≤ 1 := by decide
  have h : (1 : Int) ≤ 5 := by decide
  have hleaf : ((build b 5 "a").at? [0, 1]).map role = some .leaf := by decide +kernel
  have hcircular : ((build b 1 "a").at? [0, 1]).map role = some .circular := by decide +kernel
  exact ⟨hd, h, (build_of_le b hd h "a").1, hleaf, hcircular⟩

end Tree

end FormulaBook
