import FormulaBook.Derivative.Rules
import FormulaBook.Proofs.Pieces
import FormulaBook.Proofs.RoundTrip

/-!
# Where a derivative of zero comes from

A derivative is `0` because the variable does not occur in a piece of the text, or because a rule
has dropped it. In a text that is `transparent` to the variable, the rules see every occurrence of
it, and there is one way left: each occurrence is a factor of a product of two factors whose other
factor is `0`, and the product is a whole term or a whole group (`zeroBefore_or_zeroAfter`).

A text is transparent if no exponent is a signed zero with a star after it and if, in every term
with the variable, no factor is empty, no factor beside a group is `0`, and the variable stands
nowhere but in the first group of a piece that has one. Without this a rule may drop an occurrence
that matters: `x/(y)`, `x*-y`, `y^-0*x` and `(y+0*z)/(x)` have the derivative `0` by `x`.
-/

namespace FormulaBook

namespace Derivative

/-! ## Transparent texts -/

/-- Whether the text has no group, or the variable stands nowhere but in its first one. -/
def grouped (v t : List Char) : Bool :=
  (group? t).all fun g => !occurs v g.before && !occurs v g.after

/-- Whether a text with two factors has no empty one. -/
def hasFullFactors (t : List Char) : Bool :=
  (factors? t).all fun (a, b) => !a.isEmpty && !b.isEmpty

/-- Where factors are full, neither of the two is empty. -/
theorem ne_nil_of_hasFullFactors {t a b : List Char} (h : hasFullFactors t = true)
    (hf : factors? t = some (a, b)) : a ≠ [] ∧ b ≠ [] := by
  simpa [hasFullFactors, hf] using h

/-- Whether the rules see every occurrence of the variable in a term. If the term has two factors
and a group, no factor may be `0`, since the factors may cut the group. -/
def transparentTerm (v t : List Char) : Bool :=
  match factors? t with
  | some (a, b) =>
    hasFullFactors t &&
      ((group? t).isNone || (a != ['0'] && b != ['0'] && grouped v a && grouped v b))
  | none => grouped v t && (group? t).all (hasFullFactors ·.inner)

/-- Whether a text begins with a zero that has signs before it and a star after it. -/
def beginsSignedZero (cs : List Char) : Bool :=
  cs.head?.any (IsSign ·) && ['0', '*'].isPrefixOf (cs.dropWhile (IsSign ·))

/-- Whether an exponent is a zero with signs before it, and a star follows. -/
def hasSignedZeroExponent (cs : List Char) : Bool :=
  cs.tails.any fun
    | '^' :: t | '*' :: '*' :: t => beginsSignedZero t
    | _ => false

/-- Whether the rules see every occurrence of the variable in a text without blanks. -/
def transparent (v cs : List Char) : Bool :=
  !hasSignedZeroExponent cs && (terms cs).all fun t => !occurs v t.text || transparentTerm v t.text

/-! ## The rules one by one -/

section Rules

variable {v t : List Char}

/-- What does not have the variable in it has the derivative zero. -/
theorem derive_of_not_occurs (h : occurs v t = false) : (derive v t).text = "0" := by
  rw [derive, h]
  rfl

/-- The variable has the derivative one. -/
theorem derive_self (v : List Char) : (derive v v).text = "1" := by
  have h := occurs_append v [] []
  rw [List.append_nil, List.nil_append] at h
  rw [derive, h]
  simp

/-- A text with signs is derived term by term. -/
theorem derive_of_hasSign (ho : occurs v t = true) (hne : t ≠ v) (hs : hasSign t = true) :
    derive v t = ofTerms ((terms t).map fun s => (s.subtracted, derive v s.text)) := by
  rw [derive]
  simp [ho, hne, hs]

variable (ho : occurs v t = true) (hne : t ≠ v) (hs : hasSign t = false)
include ho hne hs

/-- A text with two factors is derived by the product rule. -/
theorem derive_of_factors? {a b : List Char} (hf : factors? t = some (a, b)) :
    derive v t = ofProduct (String.ofList a) (String.ofList b) (derive v a) (derive v b) := by
  rw [derive, if_neg (by simp [ho]), if_neg hne, dif_neg (by simp [hs])]
  split
  · cases hf.symm.trans ‹_›
    rfl
  · cases hf.symm.trans ‹_›

/-- A text with a group and without two factors is derived by the inside of the group. -/
theorem derive_of_group? {g : Group} (hf : factors? t = none) (hg : group? t = some g) :
    derive v t = ofGroup (g.coefficient?.map String.ofList) (derive v g.inner) := by
  rw [derive, if_neg (by simp [ho]), if_neg hne, dif_neg (by simp [hs])]
  split
  · cases hf.symm.trans ‹_›
  · split
    · cases hg.symm.trans ‹_›
      rfl
    · cases hg.symm.trans ‹_›

/-- A text with neither factors nor a group stays unresolved. -/
theorem derive_unresolved (hf : factors? t = none) (hg : group? t = none) :
    (derive v t).text = unresolvedText t v := by
  rw [derive, if_neg (by simp [ho]), if_neg hne, dif_neg (by simp [hs])]
  split
  · cases hf.symm.trans ‹_›
  · split
    · cases hg.symm.trans ‹_›
    · rfl

end Rules

/-! ## What a sum drops -/

/-- The derivative of a term that leaves no trace at the beginning of a sum. -/
def Drops (s : String) : Prop := s = "0" ∨ s = ""

/-- A text with two characters in its middle is not dropped. -/
theorem not_drops_append {x : String} (hx : 1 < x.length) (s t : String) :
    ¬Drops (s ++ x ++ t) := by
  have hlength : 1 < (s ++ x ++ t).length := by
    simp only [String.length_append]
    omega
  rintro (h | h) <;> rw [h] at hlength <;> exact absurd hlength (by decide)

/-- A one is not dropped. -/
theorem not_drops_one : ¬Drops "1" := by simp [Drops]

/-- An unresolved derivative is not dropped. -/
theorem not_drops_unresolvedText (t v : List Char) : ¬Drops (unresolvedText t v) := by
  rw [unresolvedText, String.append_assoc]
  exact not_drops_append (by decide) _ _

/-- A sum that is still empty was empty, and the term was dropped. -/
theorem addTerm_eq_empty {sum d : String} {subtracted : Bool}
    (h : addTerm sum subtracted d = "") : sum = "" ∧ Drops d := by
  unfold addTerm at h
  split at h
  · exact ⟨h, .inl ‹_›⟩
  · split at h
    · refine absurd (.inr h) (not_drops_append ?_ _ _)
      split <;> decide
    · refine ⟨not_not.mp ‹_›, .inr ?_⟩
      split at h
      · exact (String.append_eq_empty_iff.mp h).2
      · exact h

/-- Adding a term makes no sum zero that was not. -/
theorem addTerm_ne_zero {sum : String} (h : sum ≠ "0") (subtracted : Bool) (d : String) :
    addTerm sum subtracted d ≠ "0" := by
  unfold addTerm
  split
  · exact h
  · split
    · refine fun hzero => absurd (.inl hzero) (not_drops_append ?_ _ _)
      split <;> decide
    · split
      · intro hzero
        have := congrArg (List.head? ∘ String.toList) hzero
        simp at this
      · assumption

/-- Nothing but dropped terms sums up to nothing. -/
theorem drops_of_foldl_addTerm {ts : List (Bool × Derivative)} {sum : String}
    (h : ts.foldl (fun sum t => addTerm sum t.1 t.2.text) sum = "") :
    sum = "" ∧ ∀ t ∈ ts, Drops t.2.text := by
  induction ts generalizing sum with
  | nil => exact ⟨h, by simp⟩
  | cons t ts ih =>
    obtain ⟨hsum, hts⟩ := ih h
    obtain ⟨hsum, ht⟩ := addTerm_eq_empty hsum
    exact ⟨hsum, List.forall_mem_cons.mpr ⟨ht, hts⟩⟩

/-- Adding terms makes no sum zero that was not. -/
theorem foldl_addTerm_ne_zero (ts : List (Bool × Derivative)) {sum : String} (h : sum ≠ "0") :
    ts.foldl (fun sum t => addTerm sum t.1 t.2.text) sum ≠ "0" := by
  induction ts generalizing sum with
  | nil => exact h
  | cons t ts ih => exact ih (addTerm_ne_zero h _ _)

/-- The derivative of a sum is zero only if that of every term is dropped. -/
theorem drops_of_ofTerms {ts : List (Bool × Derivative)} (h : (ofTerms ts).text = "0") :
    ∀ t ∈ ts, Drops t.2.text := by
  by_cases hsum : ts.foldl (fun sum t => addTerm sum t.1 t.2.text) "" = ""
  · exact (drops_of_foldl_addTerm hsum).2
  · simp only [ofTerms, if_neg hsum] at h
    exact absurd h (foldl_addTerm_ne_zero ts (by simp))

/-- The derivative of a product is dropped only if those of both factors are zero, or one is one and
the other factor is dropped. -/
theorem drops_of_ofProduct {a b : String} {da db : Derivative}
    (h : Drops (ofProduct a b da db).text) :
    (da.text = "0" ∧ db.text = "0") ∨ (Drops a ∧ da.text = "0" ∧ db.text = "1") ∨
      (Drops b ∧ da.text = "1" ∧ db.text = "0") := by
  unfold ofProduct at h
  dsimp only at h
  split at h
  · exact .inl ‹_›
  · split at h
    · split at h
      · exact .inr (.inl ⟨h, ‹_›, ‹_›⟩)
      · exact absurd h (not_drops_append (by decide) _ _)
    · split at h
      · split at h
        · exact .inr (.inr ⟨h, ‹_›, ‹_›⟩)
        · exact absurd h (not_drops_append (by decide) _ _)
      · exact absurd h (not_drops_append (by decide) _ _)

/-- The derivative of a group is dropped only if that of its inside is. -/
theorem drops_of_ofGroup {coefficient? : Option String} {inner : Derivative}
    (h : Drops (ofGroup coefficient? inner).text) : Drops inner.text := by
  unfold ofGroup at h
  dsimp only at h
  split at h
  · exact .inl ‹_›
  · split at h
    · rw [String.append_assoc] at h
      exact absurd h (not_drops_append (by decide) _ _)
    · exact h

/-- A text whose derivative is dropped is not the variable. -/
theorem ne_of_drops {v t : List Char} (h : Drops (derive v t).text) : t ≠ v := by
  rintro rfl
  rw [derive_self] at h
  exact not_drops_one h

/-- The derivative of a text is zero only if that of every term is dropped. -/
theorem drops_of_mem_terms {v cs : List Char} (ho : occurs v cs = true)
    (h : (derive v cs).text = "0") {t : Term} (ht : t ∈ terms cs) :
    Drops (derive v t.text).text := by
  by_cases hs : hasSign cs = true
  · rw [derive_of_hasSign ho (ne_of_drops (.inl h)) hs] at h
    exact drops_of_ofTerms h (t.subtracted, derive v t.text) (List.mem_map.mpr ⟨t, ht, rfl⟩)
  · rw [text_eq_of_mem_terms (Bool.not_eq_true _ ▸ hs) ht]
    exact .inl h

/-! ## What a term drops -/

/-- The variable times zero. -/
def IsZeroProduct (v t : List Char) : Prop := t = '0' :: '*' :: v ∨ t = v ++ ['*', '0']

section Dropped

variable {v t : List Char}

/-- A factor that is dropped and not empty is a zero. -/
theorem drops_ofList {a : List Char} (h : Drops (String.ofList a)) (hne : a ≠ []) : a = ['0'] := by
  rcases h with h | h
  · rw [← String.toList_ofList (l := a), h]
    rfl
  · rw [← String.toList_ofList (l := a), h] at hne
    exact absurd rfl hne

/-- An unresolved derivative is not one. -/
theorem unresolvedText_ne_one (t v : List Char) : unresolvedText t v ≠ "1" := by
  intro h
  have := congrArg (List.head? ∘ String.toList) h
  simp [unresolvedText] at this

/-- A factor without a group is resolved only where it is the variable, or without it. -/
theorem derive_factor (hs : hasSign t = false) (hstar : '*' ∉ t) (hg : group? t = none) :
    (occurs v t = false ∧ (derive v t).text = "0") ∨ (t = v ∧ (derive v t).text = "1") ∨
      (derive v t).text = unresolvedText t v := by
  by_cases ho : occurs v t = true
  · by_cases hne : t = v
    · exact .inr (.inl ⟨hne, by rw [hne, derive_self]⟩)
    · exact .inr (.inr (derive_unresolved ho hne hs (factors?_of_not_mem hstar) hg))
  · have ho := Bool.not_eq_true _ ▸ ho
    exact .inl ⟨ho, derive_of_not_occurs ho⟩

/-- A text with neither signs, factors nor groups is the variable if its derivative is one. -/
theorem eq_of_derive_eq_one (hs : hasSign t = false) (hstar : '*' ∉ t) (hg : group? t = none)
    (h : (derive v t).text = "1") : t = v := by
  rcases derive_factor (v := v) hs hstar hg with ⟨-, h'⟩ | ⟨rfl, -⟩ | h'
  · rw [h'] at h
    exact absurd h (by decide)
  · rfl
  · exact absurd (h' ▸ h) (unresolvedText_ne_one t v)

/-- A text with neither signs, factors nor groups is without the variable if its derivative is
dropped. -/
theorem not_occurs_of_drops (hs : hasSign t = false) (hstar : '*' ∉ t) (hg : group? t = none)
    (h : Drops (derive v t).text) : occurs v t = false := by
  rcases derive_factor (v := v) hs hstar hg with ⟨ho, -⟩ | ⟨-, h'⟩ | h'
  · exact ho
  · exact absurd (h' ▸ h) not_drops_one
  · exact absurd (h' ▸ h) (not_drops_unresolvedText t v)

variable (hv : ∀ c ∈ v, Token.isWordChar c = true)
include hv

/-- No star is in a name. -/
theorem star_not_mem : '*' ∉ v := fun h => absurd (hv _ h) (by decide)

/-- No opening parenthesis is in a name. -/
theorem openParen_not_mem : '(' ∉ v := fun h => absurd (hv _ h) (by decide)

/-- No closing parenthesis is in a name. -/
theorem closeParen_not_mem : ')' ∉ v := fun h => absurd (hv _ h) (by decide)

/-- No sign is in a name. -/
theorem hasSign_of_isWordChar : hasSign v = false := by
  rw [hasSign, List.any_eq_false]
  rintro c hc hsign
  rw [Bool.or_eq_true, beq_iff_eq, beq_iff_eq] at hsign
  rcases hsign with rfl | rfl <;> exact absurd (hv _ hc) (by decide)

/-- An occurrence that is not around a group is in it. -/
theorem Group.Encloses.place {g : Group} {l r : List Char} (he : g.Encloses t)
    (hb : occurs v g.before = false) (ha : occurs v g.after = false) (h : l ++ (v ++ r) = t) :
    ∃ l' r', l = g.before ++ '(' :: l' ∧ r = r' ++ ')' :: g.after ∧
      g.inner = l' ++ (v ++ r') := by
  rw [he.eq] at h
  rcases append_eq_append_cons (openParen_not_mem hv) h with ⟨r', -, hr⟩ | ⟨l', rfl, hl⟩
  · rw [hr, occurs_append] at hb
    cases hb
  · rcases append_eq_append_cons (closeParen_not_mem hv) hl.symm with ⟨r', rfl, hr⟩ | ⟨l', -, hr⟩
    · exact ⟨l', r', rfl, rfl, hr⟩
    · rw [hr, occurs_append] at ha
      cases ha

/-- A factor that is dropped does not have the variable, if at most its first group could. -/
theorem not_occurs_of_drops_factor (hs : hasSign t = false) (hstar : '*' ∉ t)
    (hgrouped : grouped v t = true) (h : Drops (derive v t).text) : occurs v t = false := by
  cases hg : group? t with
  | none => exact not_occurs_of_drops hs hstar hg h
  | some g =>
    rw [grouped, hg, Option.all_some, Bool.and_eq_true, Bool.not_eq_true',
      Bool.not_eq_true'] at hgrouped
    by_contra ho
    rw [Bool.not_eq_false] at ho
    have he := encloses_of_group? hg
    rw [derive_of_group? ho (ne_of_drops h) hs (factors?_of_not_mem hstar) hg] at h
    have hinner := not_occurs_of_drops (hasSign_of_part he.part hs)
      (fun hmem => hstar (he.part.subset hmem)) (group?_of_not_mem he.not_mem) (drops_of_ofGroup h)
    obtain ⟨l, r, hlr⟩ := exists_append_of_occurs ho
    obtain ⟨l', r', -, -, hin⟩ := Group.Encloses.place hv he hgrouped.1 hgrouped.2 hlr
    rw [hin, occurs_append] at hinner
    cases hinner

/-- A product of two factors that has the variable and is dropped has a factor `0`, if at most the
first group of each factor could have the variable. -/
theorem eq_zero_of_drops {a b : List Char} (hs : hasSign t = false)
    (hf : factors? t = some (a, b)) (hfull : hasFullFactors t = true) (hga : grouped v a = true)
    (hgb : grouped v b = true) (ho : occurs v t = true) (h : Drops (derive v t).text) :
    (a = ['0'] ∧ (derive v b).text = "1") ∨ (b = ['0'] ∧ (derive v a).text = "1") := by
  obtain ⟨hane, hbne⟩ := ne_nil_of_hasFullFactors hfull hf
  obtain ⟨hia, hib⟩ := parts_of_factors? hf
  obtain ⟨ha, hb⟩ := not_mem_of_factors? hf
  obtain rfl := eq_of_factors? hf
  rw [derive_of_factors? ho (ne_of_drops h) hs hf] at h
  rcases drops_of_ofProduct h with ⟨hda, hdb⟩ | ⟨hd, -, hone⟩ | ⟨hd, hone, -⟩
  · exfalso
    rcases (occurs_append_cons (star_not_mem hv)).mp ho with ho | ho
    · rw [not_occurs_of_drops_factor hv (hasSign_of_part hia hs) ha hga (.inl hda)] at ho
      cases ho
    · rw [not_occurs_of_drops_factor hv (hasSign_of_part hib hs) hb hgb (.inl hdb)] at ho
      cases ho
  · exact .inl ⟨drops_ofList hd hane, hone⟩
  · exact .inr ⟨drops_ofList hd hbne, hone⟩

/-- A text without groups that has the variable and is dropped is the variable times zero. -/
theorem isZeroProduct_of_drops (hs : hasSign t = false) (hg : group? t = none)
    (hfull : hasFullFactors t = true) (ho : occurs v t = true) (h : Drops (derive v t).text) :
    IsZeroProduct v t := by
  cases hf : factors? t with
  | none =>
    rw [derive_unresolved ho (ne_of_drops h) hs hf hg] at h
    exact absurd h (not_drops_unresolvedText t v)
  | some ab =>
    obtain ⟨a, b⟩ := ab
    obtain ⟨hia, hib⟩ := parts_of_factors? hf
    obtain ⟨ha, hb⟩ := not_mem_of_factors? hf
    obtain rfl := eq_of_factors? hf
    have hga := group?_of_part hia hg
    have hgb := group?_of_part hib hg
    rcases eq_zero_of_drops hv hs hf hfull (by rw [grouped, hga]; rfl) (by rw [grouped, hgb]; rfl)
      ho h with ⟨rfl, hone⟩ | ⟨rfl, hone⟩
    · rw [eq_of_derive_eq_one (hasSign_of_part hib hs) hb hgb hone]
      exact .inl rfl
    · rw [eq_of_derive_eq_one (hasSign_of_part hia hs) ha hga hone]
      exact .inr rfl

/-- A transparent term that has the variable and is dropped is the variable times zero, or a group
around it with no other occurrence. -/
theorem isZeroProduct_of_transparentTerm (hs : hasSign t = false)
    (ht : transparentTerm v t = true) (ho : occurs v t = true) (h : Drops (derive v t).text) :
    IsZeroProduct v t ∨ ∃ g : Group, g.Encloses t ∧ IsZeroProduct v g.inner ∧
      occurs v g.before = false ∧ occurs v g.after = false := by
  cases hf : factors? t with
  | some ab =>
    obtain ⟨a, b⟩ := ab
    simp only [transparentTerm, hf, Bool.and_eq_true, Bool.or_eq_true, Option.isNone_iff_eq_none,
      bne_iff_ne] at ht
    obtain ⟨hfull, hg | ⟨⟨⟨ha, hb⟩, hga⟩, hgb⟩⟩ := ht
    · exact .inl (isZeroProduct_of_drops hv hs hg hfull ho h)
    · rcases eq_zero_of_drops hv hs hf hfull hga hgb ho h with ⟨hzero, -⟩ | ⟨hzero, -⟩
      exacts [absurd hzero ha, absurd hzero hb]
  | none =>
    simp only [transparentTerm, hf, grouped, Bool.and_eq_true] at ht
    cases hg : group? t with
    | none =>
      rw [derive_unresolved ho (ne_of_drops h) hs hf hg] at h
      exact absurd h (not_drops_unresolvedText t v)
    | some g =>
      simp only [hg, Option.all_some, Bool.and_eq_true, Bool.not_eq_true'] at ht
      obtain ⟨⟨hb, ha⟩, hfull⟩ := ht
      have he := encloses_of_group? hg
      rw [derive_of_group? ho (ne_of_drops h) hs hf hg] at h
      obtain ⟨l, r, hlr⟩ := exists_append_of_occurs ho
      obtain ⟨l', r', -, -, hin⟩ := Group.Encloses.place hv he hb ha hlr
      refine .inr ⟨g, he, ?_, hb, ha⟩
      exact isZeroProduct_of_drops hv (hasSign_of_part he.part hs)
        (group?_of_not_mem he.not_mem) hfull (hin ▸ occurs_append ..) (drops_of_ofGroup h)

/-- An occurrence in the variable times zero has the zero beside it. -/
theorem IsZeroProduct.place (hne : v ≠ []) (hzero : v ≠ ['0']) (ht : IsZeroProduct v t)
    {l r : List Char} (h : l ++ (v ++ r) = t) : l = ['0', '*'] ∨ r = ['*', '0'] := by
  have hstar := star_not_mem hv
  have hlone {l r : List Char} (h : ['0'] = l ++ (v ++ r)) : False := by
    rcases List.singleton_eq_append_iff.mp h with ⟨-, hvr⟩ | ⟨-, hvr⟩
    · rcases List.singleton_eq_append_iff.mp hvr.symm with ⟨hnil, -⟩ | ⟨hself, -⟩
      exacts [hne hnil, hzero hself]
    · exact hne (List.append_eq_nil_iff.mp hvr).1
  have hself {l r : List Char} (h : v = l ++ (v ++ r)) : l = [] ∧ r = [] := by
    have hlength := congrArg List.length h
    simp only [List.length_append] at hlength
    exact ⟨List.length_eq_zero_iff.mp (by omega), List.length_eq_zero_iff.mp (by omega)⟩
  rcases ht with rfl | rfl
  · rcases append_eq_append_cons (x := ['0']) hstar h with ⟨r', -, h0⟩ | ⟨l', rfl, hl⟩
    · exact (hlone h0).elim
    · rw [(hself hl).1]
      exact .inl rfl
  · rcases append_eq_append_cons (y := ['0']) hstar h with ⟨r', rfl, hr⟩ | ⟨l', -, h0⟩
    · rw [(hself hr).2]
      exact .inr rfl
    · exact (hlone h0).elim

end Dropped

/-! ## Occurrences in a text -/

/-- After the character a term or a group may begin. -/
def IsOpening (c : Char) : Prop := IsSign c ∨ c = '('

/-- Before the character a term or a group may end. -/
def IsClosing (c : Char) : Prop := IsSign c ∨ c = ')'

/-- What stands before an operand ends with a zero, which begins a term or a group, and a star. -/
def ZeroBefore (pre : List Char) : Prop :=
  ∃ pre', pre = pre' ++ ['0', '*'] ∧ EndsWith IsOpening pre'

/-- What stands after an operand begins with a star and a zero, which ends a term or a group. -/
def ZeroAfter (post : List Char) : Prop :=
  ∃ post', post = '*' :: '0' :: post' ∧ BeginsWith IsClosing post'

/-- A zero is no name. -/
theorem toList_ne_zero_of_isName {s : String} (h : Text.IsName s) : s.toList ≠ ['0'] := by
  intro hs
  have hliteral := Decimal.ofLiteral?_name h
  rw [hs] at hliteral
  exact absurd hliteral (by decide)

/-- If a text is transparent to a variable and its derivative is zero, every occurrence of the
variable has a zero beside it. -/
theorem zeroBefore_or_zeroAfter {s : String} (hname : Text.IsName s) {cs pre post : List Char}
    (ht : transparent s.toList cs = true) (hd : (derive s.toList cs).text = "0")
    (h : pre ++ (s.toList ++ post) = cs) : ZeroBefore pre ∨ ZeroAfter post := by
  obtain ⟨hne, hv⟩ := Token.isWordChar_of_mem_name hname
  have hzero := toList_ne_zero_of_isName hname
  have hsign := hasSign_of_isWordChar hv
  have ho : occurs s.toList cs = true := h ▸ occurs_append ..
  obtain ⟨t, hmem, pre', l, r, post', hpre, rfl, htext, hs, hbegin, hend⟩ :=
    exists_mem_termsFrom hne hsign false (show hasSign [].reverse = false from rfl) pre post
  rw [h] at hmem
  have hot : occurs s.toList t.text = true := htext ▸ occurs_append ..
  rw [List.reverse_nil, List.nil_append] at hpre
  rw [transparent, Bool.and_eq_true, List.all_eq_true] at ht
  have htt := ht.2 t hmem
  rw [hot, Bool.not_true, Bool.false_or] at htt
  rcases isZeroProduct_of_transparentTerm hv hs htt hot (drops_of_mem_terms ho hd hmem) with
    hz | ⟨g, he, hz, hb, ha⟩
  · rcases hz.place hv hne hzero htext.symm with rfl | rfl
    · exact .inl ⟨pre', hpre, fun c hc => .inl (hbegin c hc)⟩
    · exact .inr ⟨post', rfl, fun c hc => .inl (hend c hc)⟩
  · obtain ⟨l', r', rfl, rfl, hin⟩ := he.place hv hb ha htext.symm
    rcases hz.place hv hne hzero hin.symm with rfl | rfl
    · refine .inl ⟨pre' ++ (g.before ++ ['(']), by rw [hpre]; simp, fun c hc => .inr ?_⟩
      simpa using hc.symm
    · refine .inr ⟨')' :: (g.after ++ post'), by simp, fun c hc => .inr ?_⟩
      simpa using hc.symm

end Derivative

end FormulaBook
