/-!
# Taking a formula text apart

The differentiation rules work on the text of a formula. They cut it at plus and minus into terms,
at stars into factors, or take out its first parenthesised group. Every piece is shorter than the
text it comes from (`length_lt_of_mem_terms`, `length_lt_of_factors?`, `length_lt_of_group?`), which
is why differentiation ends.
-/

namespace FormulaBook.Derivative

/-- Whether the characters `v` occur side by side in a text. -/
def occurs (v : List Char) : List Char → Bool
  | [] => v.isEmpty
  | c :: cs => v.isPrefixOf (c :: cs) || occurs v cs

/-! ## Terms -/

/-- A term of a text, and whether the sign before it is a minus. -/
structure Term where
  subtracted : Bool
  text : List Char

/-- The term that has just ended, given in reverse; no term for no characters. -/
def endTerm (subtracted : Bool) (term : List Char) : List Term :=
  if term.isEmpty then [] else [⟨subtracted, term.reverse⟩]

/-- The terms of a text. The characters of a term that has begun are in `term`, the last one first,
and `subtracted` tells the sign before it. Of several signs in a row the last one counts. -/
def termsFrom (subtracted : Bool) (term : List Char) : List Char → List Term
  | [] => endTerm subtracted term
  | c :: cs =>
    if c = '+' then endTerm subtracted term ++ termsFrom false [] cs
    else if c = '-' then endTerm subtracted term ++ termsFrom true [] cs
    else termsFrom subtracted (c :: term) cs

/-- The terms of a text. -/
def terms (cs : List Char) : List Term := termsFrom false [] cs

/-- Whether a text has a plus or a minus. -/
def hasSign (cs : List Char) : Bool := cs.any fun c => c == '+' || c == '-'

/-- A term that ends has all the characters read for it. -/
theorem length_le_of_mem_endTerm {subtracted : Bool} {term : List Char} {t : Term}
    (h : t ∈ endTerm subtracted term) : t.text.length = term.length := by
  unfold endTerm at h
  split at h
  · simp at h
  · rw [List.mem_singleton] at h; subst h; simp

/-- A term has no more characters than are read, and one less if there is a sign among those to
come. -/
theorem length_le_of_mem_termsFrom {cs : List Char} {subtracted : Bool} {term : List Char}
    {t : Term} (h : t ∈ termsFrom subtracted term cs) :
    t.text.length + (if hasSign cs then 1 else 0) ≤ term.length + cs.length := by
  induction cs generalizing subtracted term with
  | nil => simpa [hasSign] using Nat.le_of_eq (length_le_of_mem_endTerm h)
  | cons c cs ih =>
    unfold termsFrom at h
    have hone : (if hasSign (c :: cs) then 1 else 0) ≤ 1 := by split <;> omega
    split at h
    · rcases List.mem_append.mp h with h | h
      · have := length_le_of_mem_endTerm h; simp only [List.length_cons]; omega
      · have := ih h; simp only [List.length_cons, List.length_nil] at this ⊢; omega
    · split at h
      · rcases List.mem_append.mp h with h | h
        · have := length_le_of_mem_endTerm h; simp only [List.length_cons]; omega
        · have := ih h; simp only [List.length_cons, List.length_nil] at this ⊢; omega
      · rename_i hp hm
        have := ih h
        have hs : hasSign (c :: cs) = hasSign cs := by simp [hasSign, hp, hm]
        rw [hs]
        simp only [List.length_cons] at this ⊢
        omega

/-- Every term of a text with a sign is shorter than the text. -/
theorem length_lt_of_mem_terms {cs : List Char} {t : Term} (hs : hasSign cs = true)
    (h : t ∈ terms cs) : t.text.length < cs.length := by
  have := length_le_of_mem_termsFrom h
  rw [hs] at this
  simp only [if_true, List.length_nil] at this
  omega

/-! ## Factors -/

/-- The two factors of a text with exactly one star. -/
def factors? (cs : List Char) : Option (List Char × List Char) :=
  match cs.splitOn '*' with
  | [a, b] => some (a, b)
  | _ => none

/-- The two factors of a text stand on the two sides of a star. -/
theorem eq_of_factors? {cs a b : List Char} (h : factors? cs = some (a, b)) :
    cs = a ++ '*' :: b := by
  have hs : ['*'].intercalate (cs.splitOn '*') = cs := List.intercalate_splitOn '*'
  unfold factors? at h
  split at h
  · rename_i x y hxy
    cases h
    rw [hxy] at hs
    simpa [List.intercalate] using hs.symm
  · cases h

/-- Both factors are shorter than the text. -/
theorem length_lt_of_factors? {cs a b : List Char} (h : factors? cs = some (a, b)) :
    a.length < cs.length ∧ b.length < cs.length := by
  rw [eq_of_factors? h, List.length_append, List.length_cons]
  omega

/-! ## Groups -/

/-- The first group of a text: what stands between an opening parenthesis and the first closing one
after it, where that is something, with the characters around it. -/
structure Group where
  before : List Char
  inner : List Char
  after : List Char

/-- The first group of a text whose characters before are given in reverse. -/
def groupFrom? (before : List Char) : List Char → Option Group
  | [] => none
  | c :: cs =>
    if c = '(' then
      match cs.takeWhile (· != ')'), cs.dropWhile (· != ')') with
      | i :: inner, _ :: after => some ⟨before.reverse, i :: inner, after⟩
      | _, _ => groupFrom? (c :: before) cs
    else groupFrom? (c :: before) cs

/-- The first group of a text. -/
def group? (cs : List Char) : Option Group := groupFrom? [] cs

/-- What stands inside the parentheses of a group is shorter than the text. -/
theorem length_le_of_groupFrom? {cs before : List Char} {g : Group}
    (h : groupFrom? before cs = some g) : g.inner.length < cs.length := by
  induction cs generalizing before with
  | nil => simp [groupFrom?] at h
  | cons c cs ih =>
    unfold groupFrom? at h
    split at h
    · split at h
      · rename_i i inner x after hi ha
        simp only [Option.some.injEq] at h
        have hl := congrArg List.length
          (List.takeWhile_append_dropWhile (p := (· != ')')) (l := cs))
        rw [hi, ha] at hl
        rw [← h]
        simp only [List.length_append, List.length_cons] at hl ⊢
        omega
      · have := ih h; simp only [List.length_cons]; omega
    · have := ih h; simp only [List.length_cons]; omega

/-- The inside of a group is shorter than the text. -/
theorem length_lt_of_group? {cs : List Char} {g : Group} (h : group? cs = some g) :
    g.inner.length < cs.length := length_le_of_groupFrom? h

/-- What stands in for the group while its coefficient is looked for. -/
def marker : List Char := "INNER".toList

/-- The coefficient of a group: of the factors of the text with the group replaced by the marker,
the first that is not the marker. It counts only if there is a star and the factor is not empty. -/
def Group.coefficient? (g : Group) : Option (List Char) :=
  let remaining := g.before ++ marker ++ g.after
  if '*' ∈ remaining then
    ((remaining.splitOn '*').find? (· != marker)).filter (!·.isEmpty)
  else none

end FormulaBook.Derivative
