import FormulaBook.Proofs.FreshIds
import Mathlib.Data.Finset.Card

/-!
# Every claim is given a fresh id

An id is looked for by trying one text after the other: the base, and while the text tried is taken,
the base with the next number of the counter behind it (`Ids.Search`). All texts tried are
different, so there are no more rounds than ids taken (`Ids.Search.rounds_le`), and the search ends
with the id and the counter that `Ids.claim` gives (`Ids.search_claim`). What is claimed is given
once (`Ids.Grants`), and in a sequence of claims for nodes and for edges, which share the counter,
no id of one kind is given twice (`Ids.Supplies`). Main statement: `Ids.fresh_claims`.
-/

namespace FormulaBook

/-- A number behind a text makes it longer. -/
theorem numbered_ne (base : String) (n : Nat) : numbered base n ≠ base := by
  intro h
  have hlength := congrArg (fun s => s.toList.length) h
  simp only [numbered, String.toList_append, List.length_append] at hlength
  have hunderscore : "_".toList.length = 1 := rfl
  omega

namespace Ids

/-! ## The search for an id -/

/-- The search for an id that is not taken, with a text to try and the counter. A text that is free
ends it; for one that is taken the counter goes on, and the base with its number is tried next. The
rounds are the texts tried that were taken. -/
inductive Search (taken : List String) (base : String) :
    String → Nat → Nat → String × Nat → Prop
  | free {text : String} {counter : Nat} : text ∉ taken →
    Search taken base text counter 0 (text, counter)
  | next {text : String} {counter rounds : Nat} {out : String × Nat} : text ∈ taken →
    Search taken base (numbered base (counter + 1)) (counter + 1) rounds out →
    Search taken base text counter (rounds + 1) out

section

variable {taken : List String} {base text : String} {counter rounds : Nat} {out : String × Nat}

/-- A search has one way to go. -/
theorem Search.unique (h : Search taken base text counter rounds out) {rounds' : Nat}
    {out' : String × Nat} (h' : Search taken base text counter rounds' out') :
    rounds' = rounds ∧ out' = out := by
  induction h generalizing rounds' with
  | free hfree =>
    cases h' with
    | free => exact ⟨rfl, rfl⟩
    | next htaken => exact absurd htaken hfree
  | next htaken _ ih =>
    cases h' with
    | free hfree => exact absurd htaken hfree
    | next _ hrest => exact (ih hrest).imp_left (congrArg (· + 1))

/-- A search ends with a free id. -/
theorem Search.not_mem (h : Search taken base text counter rounds out) : out.1 ∉ taken := by
  induction h with
  | free hfree => exact hfree
  | next _ _ ih => exact ih

/-- From the number of the counter on, a search goes through the numbers up to that of the id. -/
theorem Search.of_numbered
    (h : Search taken base (numbered base counter) counter rounds out) :
    out = (numbered base (counter + rounds), counter + rounds) ∧
      ∀ i < rounds, numbered base (counter + i) ∈ taken := by
  generalize htext : numbered base counter = text at h
  induction h with
  | free => exact ⟨by rw [← htext]; rfl, fun i hi => absurd hi (Nat.not_lt_zero i)⟩
  | @next text counter rounds out htaken _ ih =>
    obtain ⟨hout, hmem⟩ := ih rfl
    refine ⟨by rw [hout, Nat.add_assoc, Nat.add_comm 1], fun i hi => ?_⟩
    cases i with
    | zero => exact htext ▸ htaken
    | succ i =>
      rw [Nat.add_comm i, ← Nat.add_assoc]
      exact hmem i (by omega)

/-- What a search from the base ends with: the base if that is free, and else the base with a number
behind the counter. -/
theorem Search.out_cases (h : Search taken base base counter rounds out) :
    (base ∉ taken ∧ out = (base, counter)) ∨
      ∃ k, base ∈ taken ∧ out = (numbered base (counter + 1 + k), counter + 1 + k) := by
  cases h with
  | free hfree => exact .inl ⟨hfree, rfl⟩
  | next hbase hrest => exact .inr ⟨_, hbase, hrest.of_numbered.1⟩

/-- A search goes through numbers that are taken up to one that is free. -/
theorem search_numbered (htaken : ∀ i < rounds, numbered base (counter + i) ∈ taken)
    (hfree : numbered base (counter + rounds) ∉ taken) :
    Search taken base (numbered base counter) counter rounds
      (numbered base (counter + rounds), counter + rounds) := by
  induction rounds generalizing counter with
  | zero => exact .free hfree
  | succ rounds ih =>
    have hshift (i : Nat) : counter + (i + 1) = counter + 1 + i := by omega
    rw [hshift] at hfree ⊢
    refine .next (htaken 0 (Nat.succ_pos rounds)) (ih (fun i hi => ?_) hfree)
    rw [← hshift]
    exact htaken (i + 1) (Nat.succ_lt_succ hi)

/-- A search from the base takes no more rounds than there are ids taken: the texts tried are all
different, and all but the last are taken. -/
theorem Search.rounds_le (h : Search taken base base counter rounds out) :
    rounds ≤ taken.toFinset.card := by
  cases h with
  | free => exact Nat.zero_le _
  | @next _ _ rounds _ hbase hrest =>
    obtain ⟨-, hmem⟩ := hrest.of_numbered
    let tried := base :: (List.range rounds).map fun i => numbered base (counter + 1 + i)
    have hnodup : tried.Nodup := by
      refine List.nodup_cons.mpr ⟨fun hin => ?_, List.nodup_range.map fun i j hij => ?_⟩
      · obtain ⟨i, -, hi⟩ := List.mem_map.mp hin
        exact numbered_ne base _ hi
      · have hsum := numbered_injective base hij
        omega
    have hsub : tried.toFinset ⊆ taken.toFinset := by
      intro text htext
      rw [List.mem_toFinset] at htext ⊢
      rcases List.mem_cons.mp htext with rfl | htext
      · exact hbase
      · obtain ⟨i, hi, rfl⟩ := List.mem_map.mp htext
        exact hmem i (List.mem_range.mp hi)
    have hcard := Finset.card_le_card hsub
    rw [List.toFinset_card_of_nodup hnodup] at hcard
    simpa [tried] using hcard

/-- The number looked for is the first of those behind the counter that is free. -/
theorem exists_freshNumber_eq (taken : List String) (base : String) (counter : Nat) :
    ∃ k, freshNumber taken base counter = counter + 1 + k ∧
      ∀ i < k, numbered base (counter + 1 + i) ∈ taken := by
  refine ⟨_, rfl, fun i hi => ?_⟩
  cases hfind : (List.range (taken.length + 1)).find? fun i =>
      !taken.contains (numbered base (counter + 1 + i)) with
  | none =>
    rw [hfind, Option.getD_none] at hi
    simpa using List.find?_eq_none.mp hfind i (List.mem_range.mpr (by omega))
  | some k =>
    rw [hfind, Option.getD_some] at hi
    simpa using (List.find?_range_eq_some.mp hfind).2.2 i hi

end

/-- The search from the base ends with what is given. -/
theorem search_claim (taken : List String) (counter : Nat) (base : String) :
    ∃ rounds, Search taken base base counter rounds (claim taken counter base) := by
  unfold claim
  split
  · rename_i hbase
    obtain ⟨k, hk, htaken⟩ := exists_freshNumber_eq taken base counter
    have hfree := numbered_freshNumber_not_mem taken base counter
    dsimp only
    rw [hk] at hfree ⊢
    exact ⟨k + 1, .next (by simpa using hbase) (search_numbered htaken hfree)⟩
  · rename_i hbase
    exact ⟨0, .free (by simpa using hbase)⟩

/-! ## Claims -/

/-- What an id is for. -/
inductive Kind where
  | node
  | edge

/-- The ids of a kind that are given. -/
def given (ids : Ids) : Kind → List String
  | .node => ids.nodes
  | .edge => ids.edges

/-- A new id of a kind. -/
def claimOf (ids : Ids) (kind : Kind) (base : String) : String × Ids :=
  match kind with
  | .node => ids.claimNode base
  | .edge => ids.claimEdge base

/-- What is given for one claim. The search ends, in one way only and after no more rounds than
there are ids taken. Its id is fresh; it is the base if that is free, and else the base with the new
number of the counter. It is the only id that becomes taken, and the counter does not go back. -/
structure Grants (ids : Ids) (kind : Kind) (base : String) (out : String × Ids) : Prop where
  ends : ∃ n ≤ (ids.given kind).toFinset.card, ∀ rounds result,
    Search (ids.given kind) base base ids.counter rounds result ↔
      rounds = n ∧ result = (out.1, out.2.counter)
  not_mem : out.1 ∉ ids.given kind
  eq_base_iff : out.1 = base ↔ base ∉ ids.given kind
  eq_numbered : base ∈ ids.given kind → out.1 = numbered base out.2.counter
  given_eq : out.2.given kind = out.1 :: ids.given kind
  given_other : ∀ other ≠ kind, out.2.given other = ids.given other
  counter_le : ids.counter ≤ out.2.counter

/-- The id of a claim and the counter behind it. -/
theorem claimOf_eq (ids : Ids) (kind : Kind) (base : String) :
    ((ids.claimOf kind base).1, (ids.claimOf kind base).2.counter) =
      claim (ids.given kind) ids.counter base := by
  cases kind <;> rfl

/-- A claim is granted whatever ids are taken. -/
theorem grants_claimOf (ids : Ids) (kind : Kind) (base : String) :
    ids.Grants kind base (ids.claimOf kind base) := by
  obtain ⟨n, hsearch⟩ := search_claim (ids.given kind) ids.counter base
  have hcases := hsearch.out_cases
  rw [← claimOf_eq] at hsearch hcases
  refine ⟨⟨n, hsearch.rounds_le, fun rounds result => ⟨hsearch.unique, ?_⟩⟩, hsearch.not_mem,
    ?_, ?_, ?_, ?_, ?_⟩
  · rintro ⟨rfl, rfl⟩
    exact hsearch
  · rcases hcases with ⟨hfree, hout⟩ | ⟨k, hbase, hout⟩
    · exact iff_of_true (Prod.mk.inj hout).1 hfree
    · exact iff_of_false ((Prod.mk.inj hout).1 ▸ numbered_ne base _) (not_not.mpr hbase)
  · intro hbase
    rcases hcases with ⟨hfree, -⟩ | ⟨k, -, hout⟩
    · exact absurd hbase hfree
    · rw [(Prod.mk.inj hout).1, (Prod.mk.inj hout).2]
  · cases kind <;> rfl
  · intro other hother
    cases kind <;> cases other <;> first | rfl | exact absurd rfl hother
  · rcases hcases with ⟨-, hout⟩ | ⟨k, -, hout⟩ <;> have hcounter := (Prod.mk.inj hout).2 <;> omega

/-! ## Sequences of claims -/

/-- The ids for several claims, one after the other, each with its kind. -/
def claimAll (ids : Ids) : List (Kind × String) → List (Kind × String) × Ids
  | [] => ([], ids)
  | (kind, base) :: claims =>
    let (id, ids) := ids.claimOf kind base
    let (rest, ids) := ids.claimAll claims
    ((kind, id) :: rest, ids)

/-- The ids of one kind. -/
def ofKind (kind : Kind) (out : List (Kind × String)) : List String :=
  out.filterMap fun p => match kind, p.1 with
    | .node, .node | .edge, .edge => some p.2
    | .node, .edge | .edge, .node => none

/-- What is given for several claims: an id of the right kind for each, no two of one kind the same
and none that was taken. They are the only ids that become taken, and the counter does not go
back. -/
structure Supplies (ids : Ids) (claims : List (Kind × String))
    (out : List (Kind × String) × Ids) : Prop where
  kinds_eq : out.1.map Prod.fst = claims.map Prod.fst
  nodup : ∀ kind, (ofKind kind out.1).Nodup
  not_mem : ∀ kind, ∀ id ∈ ofKind kind out.1, id ∉ ids.given kind
  given_eq : ∀ kind, out.2.given kind = (ofKind kind out.1).reverse ++ ids.given kind
  counter_le : ids.counter ≤ out.2.counter

/-- An id of a kind is the first of its kind in front of others. -/
theorem ofKind_cons_self (kind : Kind) (id : String) (out : List (Kind × String)) :
    ofKind kind ((kind, id) :: out) = id :: ofKind kind out := by
  cases kind <;> rfl

/-- An id of another kind is left out. -/
theorem ofKind_cons_of_ne {kind other : Kind} (h : other ≠ kind) (id : String)
    (out : List (Kind × String)) : ofKind other ((kind, id) :: out) = ofKind other out := by
  cases kind <;> cases other <;> first | rfl | exact absurd rfl h

/-- A claim in front of others: its id is taken when the others are given. -/
theorem Supplies.cons {ids ids' ids'' : Ids} {kind : Kind} {base id : String}
    {claims out : List (Kind × String)} (hfirst : ids.Grants kind base (id, ids'))
    (hrest : ids'.Supplies claims (out, ids'')) :
    ids.Supplies ((kind, base) :: claims) ((kind, id) :: out, ids'') where
  kinds_eq := congrArg (kind :: ·) hrest.kinds_eq
  nodup other := by
    by_cases hother : other = kind
    · subst hother
      have htaken : id ∈ ids'.given other := hfirst.given_eq ▸ List.mem_cons_self
      rw [ofKind_cons_self]
      exact List.nodup_cons.mpr
        ⟨fun hid => hrest.not_mem other id hid htaken, hrest.nodup other⟩
    · rw [ofKind_cons_of_ne hother]
      exact hrest.nodup other
  not_mem other x hx := by
    by_cases hother : other = kind
    · subst hother
      rw [ofKind_cons_self] at hx
      rcases List.mem_cons.mp hx with rfl | hx
      · exact hfirst.not_mem
      · have hnew := hrest.not_mem other x hx
        rw [hfirst.given_eq] at hnew
        exact List.not_mem_of_not_mem_cons hnew
    · rw [ofKind_cons_of_ne hother] at hx
      rw [← hfirst.given_other other hother]
      exact hrest.not_mem other x hx
  given_eq other := by
    by_cases hother : other = kind
    · subst hother
      rw [ofKind_cons_self, List.reverse_cons, List.append_assoc, hrest.given_eq, hfirst.given_eq]
      rfl
    · rw [ofKind_cons_of_ne hother, hrest.given_eq, hfirst.given_other other hother]
  counter_le := hfirst.counter_le.trans hrest.counter_le

/-- Any claims, one after the other, are supplied. -/
theorem supplies_claimAll (ids : Ids) (claims : List (Kind × String)) :
    ids.Supplies claims (ids.claimAll claims) := by
  induction claims generalizing ids with
  | nil => exact ⟨rfl, fun _ => List.nodup_nil, fun _ _ h => absurd h List.not_mem_nil,
      fun _ => rfl, Nat.le_refl _⟩
  | cons c claims ih => exact .cons (ids.grants_claimOf c.1 c.2) (ih _)

/-- Whatever ids are taken and wherever the counter stands, every claim is given a fresh id by a
search that ends, and in a sequence of claims no id of one kind is given twice. -/
theorem fresh_claims (ids : Ids) :
    (∀ kind base, ids.Grants kind base (ids.claimOf kind base)) ∧
      ∀ claims, ids.Supplies claims (ids.claimAll claims) :=
  ⟨ids.grants_claimOf, ids.supplies_claimAll⟩

/-- A base may look like a text with a number, and nodes and edges share the counter but not the
ids. -/
example :
    let out := ({} : Ids).claimAll
      [(.node, "a_1"), (.node, "a"), (.node, "a"), (.edge, "a"), (.edge, "a"), (.node, "a_1")]
    out.1.map Prod.snd = ["a_1", "a", "a_2", "a", "a_3", "a_1_4"] := by
  decide +kernel

end Ids

end FormulaBook
