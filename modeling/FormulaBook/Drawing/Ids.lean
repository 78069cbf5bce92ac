/-!
# Fresh ids

Nodes and edges are told apart by their ids. An id is asked for by a base text and given as that
text if it is free, and otherwise with a number behind it. The numbers come from one counter that
nodes and edges share and that only grows.
-/

namespace FormulaBook

/-- The base text with a number behind it. -/
def numbered (base : String) (n : Nat) : String := base ++ "_" ++ toString n

/-- The first number after `counter` with which the base is not among the ids taken. As many
numbers as there are ids, and one more, are enough to look at. -/
def freshNumber (taken : List String) (base : String) (counter : Nat) : Nat :=
  let free := (List.range (taken.length + 1)).find? fun i =>
    !taken.contains (numbered base (counter + 1 + i))
  counter + 1 + free.getD taken.length

/-- The ids given so far and the counter. -/
structure Ids where
  nodes : List String := []
  edges : List String := []
  counter : Nat := 0

namespace Ids

/-- An id that is not taken, and the counter after it. -/
def claim (taken : List String) (counter : Nat) (base : String) : String × Nat :=
  if taken.contains base then
    let n := freshNumber taken base counter
    (numbered base n, n)
  else (base, counter)

/-- A new node id. -/
def claimNode (ids : Ids) (base : String) : String × Ids :=
  let (id, counter) := claim ids.nodes ids.counter base
  (id, { ids with nodes := id :: ids.nodes, counter })

/-- A new edge id. -/
def claimEdge (ids : Ids) (base : String) : String × Ids :=
  let (id, counter) := claim ids.edges ids.counter base
  (id, { ids with edges := id :: ids.edges, counter })

end Ids

end FormulaBook
