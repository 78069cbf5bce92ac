import FormulaBook.Dependency.Tree
import Mathlib.Data.List.Nodup

/-!
# Addresses in a dependency tree

A node of a dependency tree is told by its address, the indices of the children on the way from the
root to it (`Tree.at?`). `Tree.located` lists all nodes with their addresses, each node before those
below it: without the addresses it is `Tree.preorder` (`Tree.map_snd_located`), it has exactly the
addresses in the tree (`Tree.mem_located`), and it has none of them twice
(`Tree.nodup_map_fst_located`).
-/

namespace FormulaBook.Tree

/-- Whether a node has a formula that is shown below it. -/
def isFormula (t : Tree) : Bool :=
  match t.role with
  | .formula _ _ => true
  | .leaf | .circular => false

/-- The node at an address. -/
def at? : Tree → List Nat → Option Tree
  | t, [] => some t
  | t, i :: p => t.children[i]?.bind fun c => c.at? p

@[simp] theorem at?_nil (t : Tree) : t.at? [] = some t := by rw [at?]

/-- An address goes on below the child that its first index names. -/
theorem at?_cons {t s : Tree} {i : Nat} {p : List Nat} :
    t.at? (i :: p) = some s ↔ ∃ c, t.children[i]? = some c ∧ c.at? p = some s := by
  rw [at?, Option.bind_eq_some_iff]

/-- The child with an index is one step further than its parent. -/
theorem at?_append_singleton {t s : Tree} {p : List Nat} (hs : t.at? p = some s) (i : Nat) :
    t.at? (p ++ [i]) = s.children[i]? := by
  induction p generalizing t with
  | nil =>
    obtain rfl := Option.some.inj (hs.symm.trans (at?_nil t))
    rw [List.nil_append, at?]
    cases s.children[i]? <;> simp
  | cons j p ih =>
    obtain ⟨c, hc, hs⟩ := at?_cons.mp hs
    rw [List.cons_append, at?, hc, Option.bind_some, ih hs]

/-- Below a node there is one address for every child. -/
theorem isSome_at?_append_singleton {t s : Tree} {p : List Nat} (hs : t.at? p = some s) {i : Nat} :
    (t.at? (p ++ [i])).isSome = true ↔ i < s.children.length := by
  rw [at?_append_singleton hs, isSome_getElem?]

mutual

/-- All nodes with their addresses below `path`, each before the nodes below it. -/
def located (path : List Nat) : Tree → List (List Nat × Tree)
  | .node n r d cs => (path, .node n r d cs) :: locatedAll path 0 cs

/-- The nodes of several trees, the first of which has the index `i`. -/
def locatedAll (path : List Nat) (i : Nat) : List Tree → List (List Nat × Tree)
  | [] => []
  | t :: ts => t.located (path ++ [i]) ++ locatedAll path (i + 1) ts

end

/-- A node comes before all those below it. -/
theorem preorder_eq (t : Tree) : t.preorder = t :: preorderAll t.children := by
  cases t
  rw [preorder, children]

/-- A node comes with its own address before all those below it. -/
theorem located_eq (path : List Nat) (t : Tree) :
    t.located path = (path, t) :: locatedAll path 0 t.children := by
  cases t
  rw [located, children]

mutual

/-- Without the addresses the nodes are those of the tree in preorder. -/
theorem map_snd_located (path : List Nat) : ∀ t : Tree, (t.located path).map Prod.snd = t.preorder
  | .node n r d cs => by
    rw [located, List.map_cons, map_snd_locatedAll path 0 cs, preorder]

/-- Without their addresses, the nodes of several trees are those in preorder. -/
theorem map_snd_locatedAll (path : List Nat) (i : Nat) :
    ∀ ts : List Tree, (locatedAll path i ts).map Prod.snd = preorderAll ts
  | [] => by rw [locatedAll, List.map_nil, preorderAll]
  | t :: ts => by
    rw [locatedAll, List.map_append, map_snd_located _ t, map_snd_locatedAll path _ ts, preorderAll]

end

mutual

/-- The nodes listed are those at the addresses in the tree. -/
theorem mem_located : ∀ {t : Tree} {path q : List Nat} {s : Tree},
    (q, s) ∈ t.located path ↔ ∃ r, q = path ++ r ∧ t.at? r = some s
  | .node n role d cs, path, q, s => by
    rw [located, List.mem_cons, mem_locatedAll]
    constructor
    · rintro (h | ⟨j, t, r, ht, rfl, hr⟩)
      · cases h
        exact ⟨[], (List.append_nil _).symm, at?_nil _⟩
      · exact ⟨j :: r, by rw [Nat.zero_add], at?_cons.mpr ⟨t, ht, hr⟩⟩
    · rintro ⟨_ | ⟨j, r⟩, rfl, hr⟩
      · rw [at?_nil] at hr
        exact .inl (by rw [List.append_nil, Option.some.inj hr])
      · obtain ⟨t, ht, hr⟩ := at?_cons.mp hr
        exact .inr ⟨j, t, r, ht, by rw [Nat.zero_add], hr⟩

/-- The nodes of several trees are those at the addresses that go on from the index of one of the
trees. -/
theorem mem_locatedAll : ∀ {ts : List Tree} {path q : List Nat} {i : Nat} {s : Tree},
    (q, s) ∈ locatedAll path i ts ↔
      ∃ j t r, ts[j]? = some t ∧ q = path ++ (i + j) :: r ∧ t.at? r = some s
  | [], path, q, i, s => by simp [locatedAll]
  | t :: ts, path, q, i, s => by
    rw [locatedAll, List.mem_append, mem_located, mem_locatedAll]
    constructor
    · rintro (⟨r, rfl, hr⟩ | ⟨j, u, r, hu, rfl, hr⟩)
      · exact ⟨0, t, r, rfl, by simp, hr⟩
      · exact ⟨j + 1, u, r, hu, by rw [Nat.add_right_comm, Nat.add_assoc], hr⟩
    · rintro ⟨_ | j, u, r, hu, rfl, hr⟩
      · obtain rfl := Option.some.inj hu
        exact .inl ⟨r, by simp, hr⟩
      · exact .inr ⟨j, u, r, hu, by rw [Nat.add_right_comm, Nat.add_assoc], hr⟩

end

/-- The nodes listed behind the root are those below it. -/
theorem mem_tail_located {t s : Tree} {q : List Nat} :
    (q, s) ∈ (t.located []).tail ↔ q ≠ [] ∧ t.at? q = some s := by
  rw [located_eq, List.tail_cons, mem_locatedAll]
  constructor
  · rintro ⟨j, u, r, hu, rfl, hr⟩
    rw [List.nil_append, Nat.zero_add]
    exact ⟨List.cons_ne_nil _ _, at?_cons.mpr ⟨u, hu, hr⟩⟩
  · rintro ⟨hq, hs⟩
    obtain ⟨j, r, rfl⟩ := List.exists_cons_of_ne_nil hq
    obtain ⟨u, hu, hr⟩ := at?_cons.mp hs
    exact ⟨j, u, r, hu, by rw [List.nil_append, Nat.zero_add], hr⟩

/-- Addresses of several trees go on from the path with an index. -/
theorem exists_of_mem_map_fst_locatedAll {ts : List Tree} {path q : List Nat} {i : Nat}
    (h : q ∈ (locatedAll path i ts).map Prod.fst) : ∃ j r, q = path ++ (i + j) :: r := by
  obtain ⟨⟨q, s⟩, hmem, rfl⟩ := List.mem_map.mp h
  obtain ⟨j, -, r, -, hq, -⟩ := mem_locatedAll.mp hmem
  exact ⟨j, r, hq⟩

mutual

/-- No address is listed twice. -/
theorem nodup_map_fst_located (path : List Nat) :
    ∀ t : Tree, ((t.located path).map Prod.fst).Nodup
  | .node n role d cs => by
    rw [located, List.map_cons, List.nodup_cons]
    refine ⟨fun h => ?_, nodup_map_fst_locatedAll path 0 cs⟩
    obtain ⟨j, r, hq⟩ := exists_of_mem_map_fst_locatedAll h
    simp at hq

/-- No address of several trees comes twice. -/
theorem nodup_map_fst_locatedAll (path : List Nat) (i : Nat) :
    ∀ ts : List Tree, ((locatedAll path i ts).map Prod.fst).Nodup
  | [] => by
    rw [locatedAll]
    exact List.nodup_nil
  | t :: ts => by
    rw [locatedAll, List.map_append]
    refine List.nodup_append.mpr ⟨nodup_map_fst_located _ t, nodup_map_fst_locatedAll path _ ts, ?_⟩
    -- the addresses in the first tree go on with `i`, those in the others with a greater index
    rintro q hq _ hq' rfl
    obtain ⟨⟨q, s⟩, hmem, rfl⟩ := List.mem_map.mp hq
    obtain ⟨r, hr, -⟩ := mem_located.mp hmem
    obtain ⟨j, r', hr'⟩ := exists_of_mem_map_fst_locatedAll hq'
    have hlists : path ++ [i] ++ r = path ++ (i + 1 + j) :: r' := hr.symm.trans hr'
    simp at hlists
    omega

end

/-- A name without the children that repeat it. -/
def withoutSelf : Tree → Tree
  | .node n r d cs => .node n r d (cs.filter (·.name != n))

end FormulaBook.Tree
