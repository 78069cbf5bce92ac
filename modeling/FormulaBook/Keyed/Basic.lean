/-!
# Lists with keys

Pairs of a key and a value in the order in which the keys came, no key twice. `Keyed.put` writes a
value to a key: a key that is there keeps its place, a new one goes to the end. Main statement:
`nodup_put`, keys stay distinct.
-/

namespace FormulaBook.Keyed

variable {α β : Type} [DecidableEq α]

/-- The pairs with the value of `key` replaced, or added at the end. -/
def put (key : α) (value : β) : List (α × β) → List (α × β)
  | [] => [(key, value)]
  | e :: rest => if e.1 = key then (key, value) :: rest else e :: put key value rest

/-- Putting a value at a key that is there leaves the keys and their order. -/
theorem map_fst_put_of_mem {key : α} {value : β} {l : List (α × β)}
    (h : key ∈ l.map Prod.fst) : (put key value l).map Prod.fst = l.map Prod.fst := by
  induction l with
  | nil => simp at h
  | cons e rest ih =>
    unfold put
    split
    · rename_i he; simp [he]
    · rename_i he
      have : key ∈ rest.map Prod.fst := by
        simpa [Ne.symm he] using h
      simp [ih this]

/-- A new key goes to the end, with its value. -/
theorem put_of_not_mem {key : α} {value : β} {l : List (α × β)} (h : key ∉ l.map Prod.fst) :
    put key value l = l ++ [(key, value)] := by
  induction l with
  | nil => rfl
  | cons e rest ih =>
    simp only [List.map_cons, List.mem_cons, not_or] at h
    unfold put
    rw [if_neg (Ne.symm h.1), ih h.2, List.cons_append]

/-- A pair of the list written to is the one written or was there before. -/
theorem mem_put {key : α} {value : β} {l : List (α × β)} {e : α × β} (h : e ∈ put key value l) :
    e = (key, value) ∨ e ∈ l := by
  induction l with
  | nil => exact .inl (List.mem_singleton.mp h)
  | cons first rest ih =>
    rw [put] at h
    split at h
    · exact (List.mem_cons.mp h).imp_right (List.mem_cons_of_mem _)
    · rcases List.mem_cons.mp h with rfl | h
      · exact .inr List.mem_cons_self
      · exact (ih h).imp_right (List.mem_cons_of_mem _)

/-- The keys of the list written to stay, and the one written is among them. -/
theorem mem_map_fst_put {key k : α} {value : β} {l : List (α × β)}
    (h : k = key ∨ k ∈ l.map Prod.fst) : k ∈ (put key value l).map Prod.fst := by
  by_cases hmem : key ∈ l.map Prod.fst
  · rw [map_fst_put_of_mem hmem]
    rcases h with rfl | h
    · exact hmem
    · exact h
  · rw [put_of_not_mem hmem, List.map_append, List.mem_append]
    rcases h with rfl | h
    · exact .inr List.mem_cons_self
    · exact .inl h

/-- Putting a value keeps the keys distinct. -/
theorem nodup_put {key : α} {value : β} {l : List (α × β)}
    (h : (l.map Prod.fst).Nodup) : ((put key value l).map Prod.fst).Nodup := by
  by_cases hm : key ∈ l.map Prod.fst
  · rwa [map_fst_put_of_mem hm]
  · rw [put_of_not_mem hm, List.map_append, List.nodup_append]
    refine ⟨h, by simp, fun a ha b hb hab => hm ?_⟩
    rw [List.map_singleton, List.mem_singleton] at hb
    rwa [hab, hb] at ha

end FormulaBook.Keyed
