import FormulaBook.Drawing.Graph
import FormulaBook.Drawing.Ids
import Mathlib.Data.List.Nodup
import Mathlib.Data.List.Perm.Subperm

/-!
# Fresh ids are fresh

Different numbers behind one base give different texts (`numbered_injective`), so among one more
number than there are ids taken one is free, and the id that is given is none of those taken
(`Ids.claim_not_mem`). `Ids.Tracks` says that the ids given are those of the nodes and edges drawn,
each given once, and that every edge joins two different nodes; drawing one more node or edge keeps
it (`Ids.Tracks.claimNode`, `Ids.Tracks.claimEdge`).
-/

namespace FormulaBook

/-- Different numbers behind a text make different texts. -/
theorem numbered_injective (base : String) : Function.Injective (numbered base) := by
  intro m n h
  have htext := congrArg String.toList h
  simp only [numbered, String.toList_append, List.append_assoc, List.append_cancel_left_eq,
    Nat.toString_eq_repr, Nat.toList_repr] at htext
  have hvalue := congrArg (Nat.ofDigitChars 10 · 0) htext
  simpa using hvalue

/-- Of one more number than there are texts one is free. -/
theorem exists_numbered_not_mem (taken : List String) (base : String) (counter : Nat) :
    ∃ i < taken.length + 1, numbered base (counter + 1 + i) ∉ taken := by
  by_contra hall
  have hsub : (List.range (taken.length + 1)).map (fun i => numbered base (counter + 1 + i)) ⊆
      taken := by
    intro s hs
    obtain ⟨i, hi, rfl⟩ := List.mem_map.mp hs
    by_contra hfree
    exact hall ⟨i, List.mem_range.mp hi, hfree⟩
  have hnodup : ((List.range (taken.length + 1)).map
      fun i => numbered base (counter + 1 + i)).Nodup := by
    refine List.Nodup.map (fun i j h => ?_) List.nodup_range
    have hij := numbered_injective base h
    omega
  have hlen := (hnodup.subperm hsub).length_le
  rw [List.length_map, List.length_range] at hlen
  omega

/-- The number looked for is found. -/
theorem numbered_freshNumber_not_mem (taken : List String) (base : String) (counter : Nat) :
    numbered base (freshNumber taken base counter) ∉ taken := by
  unfold freshNumber
  dsimp only
  cases hfind : (List.range (taken.length + 1)).find? fun i =>
      !taken.contains (numbered base (counter + 1 + i)) with
  | none =>
    obtain ⟨i, hi, hfree⟩ := exists_numbered_not_mem taken base counter
    have hnone := List.find?_eq_none.mp hfind i (List.mem_range.mpr hi)
    simp [hfree] at hnone
  | some i =>
    have hsome := List.find?_some hfind
    simpa using hsome

namespace Ids

/-- The id that is given was not taken. -/
theorem claim_not_mem (taken : List String) (counter : Nat) (base : String) :
    (claim taken counter base).1 ∉ taken := by
  unfold claim
  split
  · exact numbered_freshNumber_not_mem taken base counter
  · rename_i h
    simpa using h

/-- The id claimed for a node is not taken by a node. -/
theorem claimNode_not_mem (ids : Ids) (base : String) : (ids.claimNode base).1 ∉ ids.nodes :=
  claim_not_mem ids.nodes ids.counter base

/-- The id claimed for an edge is not taken by an edge. -/
theorem claimEdge_not_mem (ids : Ids) (base : String) : (ids.claimEdge base).1 ∉ ids.edges :=
  claim_not_mem ids.edges ids.counter base

@[simp] theorem nodes_claimNode (ids : Ids) (base : String) :
    (ids.claimNode base).2.nodes = (ids.claimNode base).1 :: ids.nodes := rfl

@[simp] theorem edges_claimEdge (ids : Ids) (base : String) :
    (ids.claimEdge base).2.edges = (ids.claimEdge base).1 :: ids.edges := rfl

/-! ## The ids of what is drawn -/

/-- The ids given are those of the nodes and of the edges drawn. Nothing is drawn twice, and every
edge joins two different nodes. -/
structure Tracks (ids : Ids) (nodeIds : List String) (edges : List Edge) : Prop where
  mem_nodes : ∀ id, id ∈ ids.nodes ↔ id ∈ nodeIds
  mem_edges : ∀ id, id ∈ ids.edges ↔ id ∈ edges.map Edge.id
  nodup_nodes : nodeIds.Nodup
  nodup_edges : (edges.map Edge.id).Nodup
  joins : ∀ e ∈ edges, e.source ∈ nodeIds ∧ e.target ∈ nodeIds ∧ e.source ≠ e.target

/-- Before anything is drawn no id is given. -/
theorem tracks_nil : Tracks {} [] [] := by
  constructor <;> simp

variable {ids : Ids} {nodeIds : List String} {edges : List Edge}

/-- One more node is drawn under an id that is claimed for it. -/
theorem Tracks.claimNode (h : ids.Tracks nodeIds edges) (base : String) :
    (ids.claimNode base).2.Tracks (nodeIds ++ [(ids.claimNode base).1]) edges where
  mem_nodes id := by
    rw [nodes_claimNode, List.mem_cons, List.mem_append, List.mem_singleton, h.mem_nodes id]
    exact or_comm
  mem_edges := h.mem_edges
  nodup_nodes := by
    have hfree := mt (h.mem_nodes _).mpr (claimNode_not_mem ids base)
    exact List.nodup_append.mpr
      ⟨h.nodup_nodes, List.nodup_singleton _, fun a ha b hb hab => hfree (by simp_all)⟩
  nodup_edges := h.nodup_edges
  joins e he := by
    obtain ⟨hs, ht, hne⟩ := h.joins e he
    exact ⟨List.mem_append_left _ hs, List.mem_append_left _ ht, hne⟩

/-- One more edge is drawn between two nodes under an id that is claimed for it. -/
theorem Tracks.claimEdge (h : ids.Tracks nodeIds edges) (base : String) {source target : String}
    (hs : source ∈ nodeIds) (ht : target ∈ nodeIds) (hne : source ≠ target) (kind : EdgeKind)
    (operation : Option String) :
    (ids.claimEdge base).2.Tracks nodeIds
      (edges ++ [⟨(ids.claimEdge base).1, source, target, kind, operation⟩]) where
  mem_nodes := h.mem_nodes
  mem_edges id := by
    rw [edges_claimEdge, List.map_append, List.mem_cons, List.mem_append, List.map_singleton,
      List.mem_singleton, h.mem_edges id]
    exact or_comm
  nodup_nodes := h.nodup_nodes
  nodup_edges := by
    have hfree := mt (h.mem_edges _).mpr (claimEdge_not_mem ids base)
    rw [List.map_append]
    exact List.nodup_append.mpr
      ⟨h.nodup_edges, List.nodup_singleton _, fun a ha b hb hab => hfree (by simp_all)⟩
  joins e he := by
    rcases List.mem_append.mp he with he | he
    · exact h.joins e he
    · rw [List.mem_singleton.mp he]
      exact ⟨hs, ht, hne⟩

end Ids

end FormulaBook
