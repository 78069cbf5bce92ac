import FormulaBook.Proofs.Readings
import FormulaBook.Proofs.TreeDerivatives
import FormulaBook.Proofs.Words

/-!
# Derivatives of sums of products

On a sum whose terms with the variable are the variable itself or products of two numbers or names,
the rules on texts compute the textbook derivative. A term of the text is a term of the tree
(`Written.exists_sign`, `Derivative.terms_append`), and its derivative is written as zero, as one
operand or, for a square, as a sum of two products (`TermReads`). Term by term the sum of these
texts reads as the derivative of the tree so far (`SumReads.addTerm`).
-/

namespace FormulaBook

open Text Token FormulaBook.Derivative

namespace Derivative

/-- Wherever the characters `v` occur in a word of the text, they are the whole word. -/
def StandsWhole (v cs : List Char) : Prop := ∀ w ∈ runs isWordChar cs, v <:+: w → w = v

/-- Whether characters are whole words wherever they occur can be decided. -/
instance (v cs : List Char) : Decidable (StandsWhole v cs) :=
  inferInstanceAs (Decidable (∀ w ∈ runs isWordChar cs, v <:+: w → w = v))

/-! ## Characters between words -/

section

variable {v as bs cs : List Char} {c : Char}

/-- What is whole in a text is whole on both sides of a character that is in no word. -/
theorem StandsWhole.of_append_cons (hc : isWordChar c = false)
    (h : StandsWhole v (as ++ c :: bs)) : StandsWhole v as ∧ StandsWhole v bs := by
  rw [StandsWhole, runs_append hc] at h
  exact ⟨fun w hw => h w (List.mem_append_left _ hw), fun w hw => h w (List.mem_append_right _ hw)⟩

/-- A word in which the characters occur, and are whole, is these characters. -/
theorem eq_of_standsWhole (hne : cs ≠ []) (hcs : ∀ c ∈ cs, isWordChar c = true)
    (h : StandsWhole v cs) (ho : occurs v cs = true) : cs = v :=
  h cs (by simp [runs_of_forall hne hcs]) (occurs_iff.mp ho)

/-! ## Terms and factors -/

/-- A text is split at a sign into the terms before and behind it. -/
theorem termsFrom_append_cons (hc : IsSign c) (subtracted : Bool) (term as bs : List Char) :
    termsFrom subtracted term (as ++ c :: bs) =
      termsFrom subtracted term as ++ termsFrom (c = '-') [] bs := by
  induction as generalizing subtracted term with
  | nil => rcases hc with rfl | rfl <;> rfl
  | cons a as ih =>
    rw [List.cons_append, termsFrom, termsFrom]
    split
    · rw [ih, List.append_assoc]
    · split
      · rw [ih, List.append_assoc]
      · exact ih _ _

/-- A text without signs is one term. -/
theorem termsFrom_of_hasSign (hne : cs ≠ []) (hs : hasSign cs = false) (subtracted : Bool) :
    termsFrom subtracted [] cs = [⟨subtracted, cs⟩] := by
  have h := termsFrom_append hs subtracted [] []
  rw [List.append_nil, List.append_nil] at h
  rw [h, termsFrom, endTerm, if_neg (by simpa using hne), List.reverse_reverse]

/-- Behind a sign the last term begins. -/
theorem terms_append (hc : IsSign c) (hne : bs ≠ []) (hs : hasSign bs = false) :
    terms (as ++ c :: bs) = terms as ++ [⟨c = '-', bs⟩] := by
  rw [terms, termsFrom_append_cons hc, termsFrom_of_hasSign hne hs]
  rfl

/-- A text with one star has the factors on its sides. -/
theorem factors?_append_cons (has : '*' ∉ as) (hbs : '*' ∉ bs) :
    factors? (as ++ '*' :: bs) = some (as, bs) := by
  rw [factors?, List.splitOn_append_cons_self_of_not_mem has, List.splitOn_eq_singleton hbs]

end

end Derivative

/-- The operator of a sum is spelled with one sign. -/
theorem Tier.Spells.isSign {s : String} {op : BinaryOp} (ho : Tier.Spells .sum s op) :
    ∃ c, IsSign c ∧ s.toList = [c] ∧ op = Expr.termOp (c = '-') := by
  cases ho
  exacts [⟨'+', .inl rfl, rfl, rfl⟩, ⟨'-', .inr rfl, rfl, rfl⟩]

/-! ## What is written without parentheses -/

section

variable {phrase : Phrase} {tier : Tier} {s v : String} {op : BinaryOp} {cs as bs : List Char}
  {e left right : Expr}

/-- What is between words is no part of `v`, and cut at an operator a text has the words of both
sides. -/
theorem Tier.Spells.parts (ho : Tier.Spells tier s op) (hv : IsName v) :
    (occurs v.toList (as ++ (s.toList ++ bs)) = true ↔
      occurs v.toList as = true ∨ occurs v.toList bs = true) ∧
    (StandsWhole v.toList (as ++ (s.toList ++ bs)) →
      StandsWhole v.toList as ∧ StandsWhole v.toList bs) := by
  obtain ⟨hne, hword⟩ := isWordChar_of_mem_name hv
  have hcut {c : Char} (hc : isWordChar c = false) (as bs : List Char) :
      (occurs v.toList (as ++ c :: bs) = true ↔
        occurs v.toList as = true ∨ occurs v.toList bs = true) ∧
      (StandsWhole v.toList (as ++ c :: bs) →
        StandsWhole v.toList as ∧ StandsWhole v.toList bs) :=
    ⟨occurs_append_cons fun h => absurd (hword c h) (by simp [hc]), StandsWhole.of_append_cons hc⟩
  cases ho with
  | plus | minus | star | slash | caret => exact hcut (by decide) as bs
  | stars =>
    have hstar : isWordChar '*' = false := by decide
    have hnil : ¬occurs v.toList [] = true := by simpa [occurs] using hne
    obtain ⟨ho, hw⟩ := hcut hstar as ('*' :: bs)
    obtain ⟨ho', hw'⟩ := hcut hstar [] bs
    have hright := ho'.trans (or_iff_right hnil)
    exact ⟨ho.trans (or_congr_right hright), fun h => ⟨(hw h).1, (hw' (hw h).2).2⟩⟩

/-- A sign in front has no part in an occurrence of a name. -/
theorem Sign.occurs_append (sign : Sign) (hv : IsName v) :
    occurs v.toList (sign.symbol.toList ++ cs) = true ↔ occurs v.toList cs = true := by
  obtain ⟨hne, hword⟩ := isWordChar_of_mem_name hv
  have hnil : ¬occurs v.toList [] = true := by simpa [occurs] using hne
  have hcut {c : Char} (hc : isWordChar c = false) :
      occurs v.toList ([] ++ c :: cs) = true ↔ occurs v.toList cs = true :=
    (occurs_append_cons fun h => absurd (hword c h) (by simp [hc])).trans (or_iff_right hnil)
  cases sign
  exacts [hcut (by decide), hcut (by decide)]

/-- A text behind a sign is one term with this sign. -/
theorem Sign.terms_append (sign : Sign) (hne : cs ≠ []) (hs : hasSign cs = false) :
    terms (sign.symbol.toList ++ cs) = [⟨decide (sign = .minus), cs⟩] := by
  have hcut {c : Char} (hc : IsSign c) : terms ([] ++ c :: cs) = [⟨decide (c = '-'), cs⟩] :=
    Derivative.terms_append hc hne hs
  cases sign
  exacts [hcut (.inl rfl), hcut (.inr rfl)]

/-- What is whole behind a sign is whole without it. -/
theorem Sign.standsWhole_append (sign : Sign)
    (h : StandsWhole v.toList (sign.symbol.toList ++ cs)) :
    StandsWhole v.toList cs := by
  have hcut {c : Char} (hc : isWordChar c = false) (h : StandsWhole v.toList ([] ++ c :: cs)) :
      StandsWhole v.toList cs := (StandsWhole.of_append_cons hc h).2
  cases sign
  exacts [hcut (by decide) h, hcut (by decide) h]

namespace Written

/-- A phrase that is written out is not empty. -/
theorem ne_nil (h : Written phrase cs e) : cs ≠ [] := by
  obtain ⟨c, rest, rfl, -⟩ := h.exists_cons
  exact List.cons_ne_nil c rest

/-- A name occurs in the text of a phrase, where it stands whole, exactly if it is in the tree. -/
theorem occurs_iff_mem (h : Written phrase cs e) (hparens : '(' ∉ cs) (hv : IsName v)
    (hwhole : StandsWhole v.toList cs) : occurs v.toList cs = true ↔ v ∈ e.identifiers := by
  induction h with
  | single _ ih | unsigned _ ih => exact ih hparens hwhole
  | @snoc tier s op as bs left right _ ho _ ihl ihr =>
    obtain ⟨hocc, hparts⟩ := ho.parts hv
    rw [List.mem_append, List.mem_append, not_or, not_or] at hparens
    rw [hocc, ihl hparens.1 (hparts hwhole).1, ihr hparens.2.2 (hparts hwhole).2,
      Expr.identifiers, List.mem_append]
  | @sign s cs e _ ih =>
    rw [s.occurs_append hv]
    exact ih (fun h => hparens (List.mem_append_right _ h)) (s.standsWhole_append hwhole)
  | number hword hd =>
    refine ⟨fun ho => ?_, fun hmem => absurd hmem List.not_mem_nil⟩
    rw [eq_of_standsWhole (ne_nil_of_ofLiteral? hd) hword hwhole ho,
      Decimal.ofLiteral?_name hv] at hd
    cases hd
  | name hs =>
    obtain ⟨hne, hword⟩ := isWordChar_of_mem_name hs
    rw [Expr.identifiers, List.mem_singleton]
    constructor
    · exact fun ho => (String.toList_inj.mp (eq_of_standsWhole hne hword hwhole ho)).symm
    · rintro rfl
      exact Derivative.occurs_iff.mpr List.infix_rfl
  | parens => exact absurd List.mem_cons_self hparens

/-- A product without signs in its tree and without parentheses is written without signs. -/
theorem hasSign_eq_false (h : Written phrase cs e) (hphrase : phrase ≠ .chain .sum)
    (hparens : '(' ∉ cs) (hfree : e.signFree = true) : hasSign cs = false := by
  induction h with
  | @single tier cs e _ ih =>
    exact ih (by cases tier <;> simp [Tier.joined]) hparens hfree
  | @snoc tier s op as bs left right _ ho _ ihl ihr =>
    rw [Expr.signFree, Bool.and_eq_true] at hfree
    rw [List.mem_append, List.mem_append, not_or, not_or] at hparens
    have hs : hasSign s.toList = false := by
      cases ho with
      | plus | minus => exact absurd rfl hphrase
      | star | slash | caret | stars => decide
    rw [hasSign_append, hasSign_append, hs, ihl hphrase hparens.1 hfree.1,
      ihr (by cases tier <;> simp [Tier.joined]) hparens.2.2 hfree.2]
    rfl
  | sign => cases hfree
  | unsigned _ ih => exact ih (by simp) hparens hfree
  | number hword => exact hasSign_of_isWordChar hword
  | name hs => exact hasSign_of_isWordChar (isWordChar_of_mem_name hs).2
  | parens => exact absurd List.mem_cons_self hparens

/-- In a phrase tighter than a sum the sign in front of the first operand is the first character,
and without it the rest is such a phrase. -/
theorem exists_sign (h : Written phrase cs e) (hphrase : phrase ≠ .chain .sum)
    (hparens : '(' ∉ cs) (hfirst : e.signFirst = true) :
    e.signFree = true ∨ ∃ (sign : Sign) (ds : List Char), cs = sign.symbol.toList ++ ds ∧
      e.splitSign.1 = decide (sign = .minus) ∧ Written phrase ds e.splitSign.2 ∧
      e.splitSign.2.signFree = true := by
  induction h with
  | @single tier cs e _ ih =>
    refine (ih (by cases tier <;> simp [Tier.joined]) hparens hfirst).imp_right ?_
    rintro ⟨sign, ds, hcs, hsub, hds, hfree⟩
    exact ⟨sign, ds, hcs, hsub, .single hds, hfree⟩
  | @snoc tier s op as bs left right _ ho hr ihl _ =>
    rw [Expr.signFirst, Bool.and_eq_true] at hfirst
    rw [List.mem_append, not_or] at hparens
    rcases ihl hphrase hparens.1 hfirst.1 with hfree | ⟨sign, ds, rfl, hsub, hds, hfree⟩
    · exact .inl (by rw [Expr.signFree, hfree, hfirst.2]; rfl)
    · refine .inr ⟨sign, ds ++ (s.toList ++ bs), by simp, hsub, .snoc hds ho hr, ?_⟩
      rw [Expr.splitSign, Expr.signFree, hfree, hfirst.2]
      rfl
  | @sign s cs e h _ => exact .inr ⟨s, cs, rfl, rfl, h, hfirst⟩
  | unsigned _ ih =>
    refine (ih (by simp) hparens hfirst).imp_right ?_
    rintro ⟨sign, ds, hcs, hsub, hds, hfree⟩
    exact ⟨sign, ds, hcs, hsub, .unsigned hds, hfree⟩
  | number | name => exact .inl rfl
  | parens => exact absurd List.mem_cons_self hparens

/-- A phrase tighter than a sum is one term. -/
theorem terms_eq (h : Written phrase cs e) (hphrase : phrase ≠ .chain .sum)
    (hparens : '(' ∉ cs) : e.terms = [e.splitSign] := by
  induction h with
  | @single tier cs e _ ih => exact ih (by cases tier <;> simp [Tier.joined]) hparens
  | snoc _ ho =>
    cases ho with
    | plus | minus => exact absurd rfl hphrase
    | star | slash | caret | stars => rfl
  | unsigned _ ih => exact ih (by simp) hparens
  | sign | number | name => rfl
  | parens => exact absurd List.mem_cons_self hparens

/-- A number or a name is written as one word. -/
theorem word_of_isLeaf (h : Written phrase cs e) (hparens : '(' ∉ cs) (hleaf : e.isLeaf = true) :
    (∀ c ∈ cs, isWordChar c = true) ∧ Reads .operand cs e := by
  induction h with
  | single _ ih | unsigned _ ih => exact ih hparens hleaf
  | snoc | sign => cases hleaf
  | number hword hd => exact ⟨hword, .number (ne_nil_of_ofLiteral? hd) hword hd⟩
  | name hs => exact ⟨(isWordChar_of_mem_name hs).2, .name hs⟩
  | parens => exact absurd List.mem_cons_self hparens

/-- Without parentheses a name is written as itself. -/
theorem eq_toList (h : Written phrase cs (.identifier v)) (hparens : '(' ∉ cs) :
    cs = v.toList := by
  generalize he : Expr.identifier v = e at h
  induction h with
  | single _ ih | unsigned _ ih => exact ih hparens he
  | snoc | sign | number => cases he
  | name => cases he; rfl
  | parens => exact absurd List.mem_cons_self hparens

/-- A product is written with a star between its factors. -/
theorem exists_factors (h : Written phrase cs (.binary .multiply left right))
    (hparens : '(' ∉ cs) : ∃ as bs, cs = as ++ '*' :: bs ∧
      Written (.chain .product) as left ∧ Written (.chain .power) bs right := by
  generalize he : Expr.binary .multiply left right = e at h
  induction h with
  | single _ ih | unsigned _ ih => exact ih hparens he
  | @snoc tier s op as bs _ _ hl ho hr =>
    cases he
    cases ho
    exact ⟨as, bs, rfl, hl, hr⟩
  | sign | number | name => cases he
  | parens => exact absurd List.mem_cons_self hparens

end Written

end

/-! ## The derivative of a term -/

/-- How the derivative of a term is written that is added to a sum or subtracted from it: as zero,
as one operand, or as a sum of two products if it is added. -/
inductive TermReads (d : Expr) : Bool → String → Prop
  | zero {subtracted} : d.SameValue (.whole 0) → TermReads d subtracted "0"
  | operand {subtracted text e} : text ≠ "0" → text ≠ "" → Reads .operand text.toList e →
      e.SameValue d → TermReads d subtracted text
  | pair {left right l r} : Reads (.chain .product) left.toList l →
      Reads (.chain .product) right.toList r → (Expr.binary .add l r).SameValue d →
      TermReads d false (left ++ " + " ++ right)

/-- A zero reads as zero. -/
theorem Reads.zero : Reads .operand "0".toList (.whole 0) :=
  .number (by decide) (List.all_eq_true.mp (show "0".toList.all isWordChar = true by decide))
    (by decide)

/-- A one reads as one. -/
theorem Reads.one : Reads .operand "1".toList (.whole 1) :=
  .number (by decide) (List.all_eq_true.mp (show "1".toList.all isWordChar = true by decide))
    (by decide)

namespace Expr

variable {v : String}

/-- The product rule where only the first factor is the variable. -/
theorem sameValue_one_multiply_add (v : String) (e : Expr) :
    (binary .add (.binary .multiply (whole 1) e)
      (.binary .multiply (.identifier v) (whole 0))).SameValue e := by
  intro power ρ
  simp only [value?, value?_zero, value?_one]
  cases e.value? power ρ <;> simp [BinaryOp.result?]

/-- The product rule where only the second factor is the variable. -/
theorem sameValue_add_multiply_one (v : String) (e : Expr) :
    (binary .add (.binary .multiply (whole 0) (.identifier v))
      (.binary .multiply e (whole 1))).SameValue e := by
  intro power ρ
  simp only [value?, value?_zero, value?_one]
  cases e.value? power ρ <;> simp [BinaryOp.result?]

/-- The product rule for a square, and what the rule for texts makes of it. -/
theorem sameValue_square (v : String) :
    (binary .add (.binary .multiply (.identifier v) (whole 1))
      (.binary .multiply (.identifier v) (whole 1))).SameValue
      (.binary .add (.binary .multiply (whole 1) (.identifier v))
        (.binary .multiply (.identifier v) (whole 1))) := by
  intro power ρ
  simp only [value?, value?_one]
  simp [BinaryOp.result?]

/-- The derivative of a square has a value. -/
theorem Valued.square (v : String) :
    (binary .add (.binary .multiply (.identifier v) (whole 1))
      (.binary .multiply (.identifier v) (whole 1))).Valued := by
  intro power ρ
  simp [value?, value?_one, BinaryOp.result?]

/-- A sum may be put in parentheses behind a plus. -/
theorem sameValue_add_assoc (d e f : Expr) :
    (binary (termOp false) (.binary (termOp false) d e) f).SameValue
      (.binary (termOp false) d (.binary .add e f)) := by
  intro power ρ
  simp only [value?, termOp]
  cases d.value? power ρ <;> cases e.value? power ρ <;> cases f.value? power ρ <;>
    simp [BinaryOp.result?, add_assoc]

/-- The product rule. -/
theorem derivative?_multiply {a b a' b' : Expr} (hv : v ∈ a.identifiers ++ b.identifiers)
    (ha : a.derivative? v = some a') (hb : b.derivative? v = some b') :
    (binary .multiply a b).derivative? v =
      some (.binary .add (.binary .multiply a' b) (.binary .multiply a b')) := by
  rw [derivative?, if_pos hv, ha, hb]
  rfl

end Expr

section

variable {v : String} {cs as bs : List Char} {a b t : Expr}

/-- The derivative of a factor is zero or one. -/
theorem Written.derive_factor {phrase : Phrase} (h : Written phrase cs a) (hparens : '(' ∉ cs)
    (hleaf : a.isLeaf = true) (hv : IsName v) (hwhole : StandsWhole v.toList cs) :
    (a = .identifier v ∧ cs = v.toList ∧ (derive v.toList cs).text = "1") ∨
      (v ∉ a.identifiers ∧ (derive v.toList cs).text = "0") := by
  by_cases hmem : v ∈ a.identifiers
  · left
    cases a with
    | number => cases hmem
    | identifier name =>
      obtain rfl := List.mem_singleton.mp hmem
      obtain rfl := h.eq_toList hparens
      exact ⟨rfl, rfl, derive_self _⟩
    | binary | signed => cases hleaf
  · refine .inr ⟨hmem, derive_of_not_occurs ?_⟩
    rw [← Bool.not_eq_true, h.occurs_iff_mem hparens hv hwhole]
    exact hmem

/-- A name times one reads as a product. -/
theorem Reads.timesOne (h : Reads (.chain .product) v.toList a) :
    Reads (.chain .product) (v ++ " * 1").toList (.binary .multiply a (.whole 1)) := by
  have hone : Reads (.chain .power) "1".toList (.whole 1) := Reads.one.chain
  have hsnoc : Reads (.chain .product)
      (v.toList ++ ' ' :: (BinaryOp.multiply.symbol.toList ++ ' ' :: "1".toList))
      (.binary .multiply a (.whole 1)) := h.snoc .star hone
  have htext : (v ++ " * 1").toList =
      v.toList ++ ' ' :: (BinaryOp.multiply.symbol.toList ++ ' ' :: "1".toList) := by
    simp [BinaryOp.symbol]
  rwa [htext]

/-- A zero reads as nothing else. -/
theorem Reads.eq_zero (h : Reads .operand "0".toList a) : a = .whole 0 :=
  Except.ok.inj (h.chain.parse.symm.trans Reads.zero.chain.parse)

/-- A number or name as a derivative, be it the number zero. -/
theorem TermReads.leaf {d : Expr} (h : Reads .operand cs a) (hne : cs ≠ [])
    (hsame : a.SameValue d) (subtracted : Bool) :
    TermReads d subtracted (String.ofList cs) := by
  have hreads : Reads .operand (String.ofList cs).toList a := by rwa [String.toList_ofList]
  by_cases hzero : String.ofList cs = "0"
  · rw [hzero] at hreads ⊢
    exact .zero (hreads.eq_zero ▸ hsame.symm)
  · refine .operand hzero (fun h => hne ?_) hreads hsame
    rw [← String.toList_ofList (l := cs), h]
    rfl

/-- The rule for a product of two is used where the variable is one of two factors. -/
theorem Written.derive_product (ha : Written (.chain .product) as a)
    (hb : Written (.chain .power) bs b) (hparens : '(' ∉ as ++ '*' :: bs) (hla : a.isLeaf = true)
    (hlb : b.isLeaf = true) (hv : IsName v) (hwhole : StandsWhole v.toList (as ++ '*' :: bs))
    (hmem : v ∈ a.identifiers ++ b.identifiers) :
    derive v.toList (as ++ '*' :: bs) = ofProduct (String.ofList as) (String.ofList bs)
      (derive v.toList as) (derive v.toList bs) := by
  rw [List.mem_append, List.mem_cons, not_or, not_or] at hparens
  obtain ⟨hpa, -, hpb⟩ := hparens
  obtain ⟨hwa, hwb⟩ := StandsWhole.of_append_cons (by decide) hwhole
  obtain ⟨hworda, -⟩ := ha.word_of_isLeaf hpa hla
  obtain ⟨hwordb, -⟩ := hb.word_of_isLeaf hpb hlb
  have hstar := star_not_mem (isWordChar_of_mem_name hv).2
  refine derive_of_factors? ?_ ?_ ?_
    (factors?_append_cons (star_not_mem hworda) (star_not_mem hwordb))
  · rw [occurs_append_cons hstar, ha.occurs_iff_mem hpa hv hwa, hb.occurs_iff_mem hpb hv hwb,
      ← List.mem_append]
    exact hmem
  · intro h
    rw [← h] at hstar
    simp at hstar
  · rw [hasSign_append, hasSign_of_isWordChar hworda,
      hasSign_cons.mpr ⟨by decide, hasSign_of_isWordChar hwordb⟩]
    rfl

/-- The derivative of a product of two numbers or names is written as it should be. -/
theorem Written.exists_derivative_factors {subtracted : Bool}
    (ha : Written (.chain .product) as a) (hb : Written (.chain .power) bs b)
    (hparens : '(' ∉ as ++ '*' :: bs) (hla : a.isLeaf = true) (hlb : b.isLeaf = true)
    (hv : IsName v) (hwhole : StandsWhole v.toList (as ++ '*' :: bs))
    (hmem : v ∈ a.identifiers ++ b.identifiers)
    (hsquare : subtracted = true → ¬(a = .identifier v ∧ b = .identifier v)) :
    ∃ d, (Expr.binary .multiply a b).derivative? v = some d ∧
      TermReads d subtracted (derive v.toList (as ++ '*' :: bs)).text ∧
      ((Expr.binary .multiply a b).FiniteNumbers → d.Valued) := by
  rw [ha.derive_product hb hparens hla hlb hv hwhole hmem]
  rw [List.mem_append, List.mem_cons, not_or, not_or] at hparens
  obtain ⟨hpa, -, hpb⟩ := hparens
  obtain ⟨hwa, hwb⟩ := StandsWhole.of_append_cons (by decide) hwhole
  obtain ⟨-, hra⟩ := ha.word_of_isLeaf hpa hla
  obtain ⟨-, hrb⟩ := hb.word_of_isLeaf hpb hlb
  rcases ha.derive_factor hpa hla hv hwa with ⟨rfl, rfl, hda⟩ | ⟨hna, hda⟩ <;>
    rcases hb.derive_factor hpb hlb hv hwb with ⟨rfl, rfl, hdb⟩ | ⟨hnb, hdb⟩
  · refine ⟨_, Expr.derivative?_multiply hmem (Expr.derivative?_self v)
      (Expr.derivative?_self v), ?_⟩
    cases subtracted with
    | true => exact absurd ⟨rfl, rfl⟩ (hsquare rfl)
    | false =>
      have htext : (ofProduct (String.ofList v.toList) (String.ofList v.toList)
          (derive v.toList v.toList) (derive v.toList v.toList)).text =
          v ++ " * 1" ++ " + " ++ (v ++ " * 1") := by
        simp [ofProduct, hda, String.append_assoc]
      rw [htext]
      exact ⟨.pair hra.chain.timesOne hra.chain.timesOne (Expr.sameValue_square v),
        fun _ => (Expr.Valued.square v).congr (Expr.sameValue_square v).symm⟩
  · refine ⟨_, Expr.derivative?_multiply hmem (Expr.derivative?_self v)
      (Expr.derivative?_of_not_mem hnb), ?_⟩
    have htext : (ofProduct (String.ofList v.toList) (String.ofList bs)
        (derive v.toList v.toList) (derive v.toList bs)).text = String.ofList bs := by
      simp [ofProduct, hda, hdb]
    rw [htext]
    have hsame := Expr.sameValue_one_multiply_add v b
    exact ⟨.leaf hrb hb.ne_nil hsame.symm subtracted,
      fun hn => (Expr.valued_of_isLeaf hlb hn.of_binary.2).congr hsame⟩
  · refine ⟨_, Expr.derivative?_multiply hmem (Expr.derivative?_of_not_mem hna)
      (Expr.derivative?_self v), ?_⟩
    have htext : (ofProduct (String.ofList as) (String.ofList v.toList)
        (derive v.toList as) (derive v.toList v.toList)).text = String.ofList as := by
      simp [ofProduct, hda, hdb]
    rw [htext]
    have hsame := Expr.sameValue_add_multiply_one v a
    exact ⟨.leaf hra ha.ne_nil hsame.symm subtracted,
      fun hn => (Expr.valued_of_isLeaf hla hn.of_binary.1).congr hsame⟩
  · exact absurd (List.mem_append.mp hmem) (not_or.mpr ⟨hna, hnb⟩)

/-- The derivative of a term without signs is written as it should be. -/
theorem Written.exists_derivative_term (h : Written (.chain .product) cs t) (subtracted : Bool)
    (hparens : '(' ∉ cs) (hv : IsName v) (hwhole : StandsWhole v.toList cs)
    (hsimple : v ∈ t.identifiers → t.isSimpleTerm v = true)
    (hsquare : subtracted = true →
      t ≠ .binary .multiply (.identifier v) (.identifier v)) :
    ∃ d, t.derivative? v = some d ∧ TermReads d subtracted (derive v.toList cs).text ∧
      (t.FiniteNumbers → d.Valued) := by
  by_cases hmem : v ∈ t.identifiers
  · rcases Expr.cases_of_isSimpleTerm (hsimple hmem) with rfl | ⟨a, b, rfl, ha, hb⟩
    · obtain rfl := h.eq_toList hparens
      refine ⟨_, Expr.derivative?_self v, ?_, fun _ => .one⟩
      rw [derive_self]
      exact .operand (by decide) (by decide) .one (.refl _)
    · obtain ⟨as, bs, rfl, has, hbs⟩ := h.exists_factors hparens
      refine has.exists_derivative_factors hbs hparens ha hb hv hwhole hmem ?_
      rintro hs ⟨rfl, rfl⟩
      exact hsquare hs rfl
  · refine ⟨_, Expr.derivative?_of_not_mem hmem, ?_, fun _ => .zero⟩
    have ho : occurs v.toList cs = false := by
      rw [← Bool.not_eq_true, h.occurs_iff_mem hparens hv hwhole]
      exact hmem
    rw [derive_of_not_occurs ho]
    exact .zero (.refl _)

end

/-! ## The derivative of a sum -/

/-- The text of the terms so far reads as a derivative with the same value, or is empty for zero. -/
inductive SumReads (d : Expr) : String → Prop
  | empty : d.SameValue (.whole 0) → SumReads d ""
  | sum {text e} : text ≠ "" → Reads (.chain .sum) text.toList e → e.SameValue d → SumReads d text

/-- What reads as a derivative reads as any other with the same value. -/
theorem SumReads.congr {d d' : Expr} {text : String} (h : SumReads d text)
    (hsame : d'.SameValue d) : SumReads d' text := by
  cases h with
  | empty hd => exact .empty (hsame.trans hd)
  | sum hne hr he => exact .sum hne hr (he.trans hsame.symm)

/-- A product reads as a sum of one term. -/
theorem Reads.sum {cs : List Char} {e : Expr} (h : Reads (.chain .product) cs e) :
    Reads (.chain .sum) cs e :=
  h.imp fun _ (hd : Derives Tier.sum.joined _ _) => hd.single

/-- A sum and a product with a sign between them read as a sum. -/
theorem Reads.join {l r : String} {d e : Expr} (hl : Reads (.chain .sum) l.toList d)
    (hr : Reads (.chain .product) r.toList e) (subtracted : Bool) :
    Reads (.chain .sum) (l ++ (if subtracted then " - " else " + ") ++ r).toList
      (.binary (Expr.termOp subtracted) d e) := by
  have hspells : Tier.Spells .sum (Expr.termOp subtracted).symbol (Expr.termOp subtracted) := by
    cases subtracted
    exacts [.plus, .minus]
  have htext : (l ++ (if subtracted then " - " else " + ") ++ r).toList =
      l.toList ++ ' ' :: ((Expr.termOp subtracted).symbol.toList ++ ' ' :: r.toList) := by
    cases subtracted <;> simp [Expr.termOp, BinaryOp.symbol]
  rw [htext]
  exact hl.snoc hspells hr

/-- An operand behind a minus reads as a product. -/
theorem Reads.negated {text : String} {e : Expr} (h : Reads .operand text.toList e) :
    Reads (.chain .product) ("-" ++ text).toList (.signed .minus e) := by
  rw [String.toList_append]
  exact ((h.imp fun _ => .unsigned).sign .minus).imp fun _ hd =>
    (Derives.single (Derives.single hd : Derives (.chain .power) _ _) :
      Derives (.chain .product) _ _)

/-- One more term keeps the sum right. -/
theorem SumReads.addTerm {d d' : Expr} {sum text : String} {subtracted : Bool}
    (h : SumReads d sum) (ht : TermReads d' subtracted text) :
    SumReads (.binary (Expr.termOp subtracted) d d')
      (Derivative.addTerm sum subtracted text) := by
  have hfirst (hd : d.SameValue (.whole 0)) : d'.SameValue (.binary (Expr.termOp false) d d') :=
    ((hd.binary _ (.refl d')).trans (Expr.sameValue_zero_add d')).symm
  unfold Derivative.addTerm
  cases ht with
  | zero hd' =>
    rw [if_pos rfl]
    have hsame := Expr.sameValue_termOp_zero subtracted (d := d) hd'
    cases h with
    | empty hd => exact .empty (hsame.trans hd)
    | sum hne hr he => exact .sum hne hr (he.trans hsame.symm)
  | operand hzero hne hr he =>
    rw [if_neg hzero]
    cases h with
    | empty hd =>
      rw [if_neg (not_not_intro rfl)]
      cases subtracted with
      | false => exact .sum hne hr.chain (he.trans (hfirst hd))
      | true =>
        refine .sum (by simp) hr.negated.sum ((he.signed .minus).trans ?_)
        exact ((hd.binary _ (.refl d')).trans (Expr.sameValue_zero_subtract d')).symm
    | sum hne' hr' he' =>
      rw [if_pos hne']
      refine .sum (fun h => ?_) (hr'.join hr.chain subtracted) (he'.binary _ he)
      exact not_drops_append (by cases subtracted <;> decide) _ _ (.inr h)
  | @pair left right l r hl hr he =>
    have hjoined := hl.sum.join hr false
    rw [if_neg fun h => not_drops_append (by decide) _ _ (.inl h)]
    cases h with
    | empty hd =>
      rw [if_neg (not_not_intro rfl)]
      refine .sum (fun h => ?_) hjoined (he.trans (hfirst hd))
      exact not_drops_append (by decide) _ _ (.inr h)
    | @sum sum e hne' hr' he' =>
      rw [if_pos hne']
      have htext : sum ++ " + " ++ (left ++ " + " ++ right) =
          sum ++ " + " ++ left ++ " + " ++ right := by simp only [String.append_assoc]
      refine .sum (fun h => not_drops_append (by decide) _ _ (.inr h)) ?_
        ((Expr.sameValue_add_assoc e l r).trans (he'.binary _ he))
      change Reads (.chain .sum) (sum ++ " + " ++ (left ++ " + " ++ right)).toList _
      rw [htext]
      exact (hr'.join hl false).join hr false

/-- The first term is differentiated as the tree is, whether a sign stands in front of it or not. -/
theorem Written.exists_derivative_first {v : String} {cs : List Char} {e : Expr}
    (h : Written (.chain .product) cs e) (hparens : '(' ∉ cs) (hsigns : e.signFirst = true)
    (hv : IsName v) (hwhole : StandsWhole v.toList cs)
    (hterms : ∀ t ∈ e.terms, v ∈ t.2.identifiers → t.2.isSimpleTerm v = true)
    (hsquare : (true, .binary .multiply (.identifier v) (.identifier v)) ∉ e.terms) :
    ∃ d, e.derivative? v = some d ∧ SumReads d ((terms cs).foldl
      (fun sum t => addTerm sum t.subtracted (derive v.toList t.text).text) "") ∧
      (e.FiniteNumbers → d.Valued) := by
  have hstart : SumReads (.whole 0) "" := .empty (.refl _)
  have hne : (.chain .product : Phrase) ≠ .chain .sum := by simp
  have hterm := h.terms_eq hne hparens
  rw [hterm, List.forall_mem_singleton] at hterms
  rw [hterm, List.mem_singleton] at hsquare
  rcases h.exists_sign hne hparens hsigns with hfree | ⟨sign, ds, rfl, hsub, hds, hfree⟩
  · rw [Expr.splitSign_of_signFree hfree] at hterms
    obtain ⟨d, hd, hterm, hvalued⟩ :=
      h.exists_derivative_term false hparens hv hwhole hterms (fun h => absurd h Bool.false_ne_true)
    refine ⟨d, hd, ?_, hvalued⟩
    rw [terms, termsFrom_of_hasSign h.ne_nil (h.hasSign_eq_false hne hparens hfree)]
    exact (hstart.addTerm hterm).congr (Expr.sameValue_zero_add d).symm
  · have hparens' : '(' ∉ ds := fun h => hparens (List.mem_append_right _ h)
    obtain ⟨d, hd, hterm, hvalued⟩ := hds.exists_derivative_term e.splitSign.1 hparens' hv
      (sign.standsWhole_append hwhole) hterms (fun hsub h => hsquare (by rw [← hsub, ← h]))
    obtain ⟨D, hD, hsame⟩ := Expr.exists_derivative_of_splitSign rfl hterms hd
    have hvalued' (hn : e.FiniteNumbers) : D.Valued := by
      refine (Expr.Valued.zero.termOp _ (hvalued ?_)).congr hsame
      rwa [Expr.FiniteNumbers, Expr.numbers_splitSign]
    refine ⟨D, hD, ?_, hvalued'⟩
    rw [sign.terms_append hds.ne_nil (hds.hasSign_eq_false hne hparens' hfree), ← hsub]
    exact (hstart.addTerm hterm).congr hsame

/-- The text of a sum without parentheses is differentiated as the tree is. -/
theorem Written.exists_derivative_sum {v : String} {cs : List Char} {e : Expr}
    (h : Written (.chain .sum) cs e) (hparens : '(' ∉ cs) (hsigns : e.signFirst = true)
    (hv : IsName v) (hwhole : StandsWhole v.toList cs)
    (hterms : ∀ t ∈ e.terms, v ∈ t.2.identifiers → t.2.isSimpleTerm v = true)
    (hsquare : (true, .binary .multiply (.identifier v) (.identifier v)) ∉ e.terms) :
    ∃ d, e.derivative? v = some d ∧ SumReads d ((terms cs).foldl
      (fun sum t => addTerm sum t.subtracted (derive v.toList t.text).text) "") ∧
      (e.FiniteNumbers → d.Valued) := by
  generalize hphrase : Phrase.chain .sum = phrase at h
  induction h with
  | single h =>
    cases hphrase
    exact h.exists_derivative_first hparens hsigns hv hwhole hterms hsquare
  | @snoc tier s op as bs left right hl ho hr ih _ =>
    cases hphrase
    obtain ⟨c, hc, hs, rfl⟩ := ho.isSign
    obtain ⟨hleft, hright⟩ := Bool.and_eq_true_iff.mp hsigns
    obtain ⟨hwl, hwr⟩ := (ho.parts hv).2 hwhole
    rw [List.mem_append, List.mem_append, not_or, not_or] at hparens
    have hsplit : (Expr.binary (Expr.termOp (c = '-')) left right).terms =
        left.terms ++ [(decide (c = '-'), right)] := by
      rcases hc with rfl | rfl <;> rfl
    rw [hsplit] at hterms hsquare
    obtain ⟨d, hd, hsum, hvalued⟩ := ih hparens.1 hleft hwl
      (fun t ht => hterms t (List.mem_append_left _ ht))
      (fun h => hsquare (List.mem_append_left _ h)) rfl
    have hlast := List.mem_append_right left.terms
      (List.mem_singleton_self (decide (c = '-'), right))
    have hnosquare (hsub : decide (c = '-') = true) :
        right ≠ .binary .multiply (.identifier v) (.identifier v) := by
      rintro rfl
      rw [hsub] at hlast hsquare
      exact hsquare hlast
    obtain ⟨d', hd', hterm, hvalued'⟩ := Written.exists_derivative_term hr (decide (c = '-'))
      hparens.2.2 hv hwr (hterms _ hlast) hnosquare
    obtain ⟨D, hD, hsame⟩ := Expr.exists_derivative_termOp (decide (c = '-')) hd hd'
    refine ⟨D, hD, ?_, fun hn =>
      ((hvalued hn.of_binary.1).termOp _ (hvalued' hn.of_binary.2)).congr hsame⟩
    have hne : (Tier.sum.joined : Phrase) ≠ .chain .sum := by simp [Tier.joined]
    rw [hs, List.singleton_append, terms_append hc hr.ne_nil
      (hr.hasSign_eq_false hne hparens.2.2 hright), List.foldl_append]
    exact (hsum.addTerm hterm).congr hsame
  | sign | unsigned | number | name | parens => cases hphrase

/-- The sum as it is given out. -/
theorem SumReads.exists_parse {d : Expr} {sum : String} (h : SumReads d sum) :
    ∃ e, Expr.parse (if sum = "" then "0" else sum) = .ok e ∧ e.SameValue d := by
  cases h with
  | empty hd =>
    exact ⟨_, Reads.zero.chain.parse, hd.symm⟩
  | sum hne hr he =>
    rw [if_neg hne]
    exact ⟨_, hr.parse, he⟩

/-- The derivative of a term parses with the right value. -/
theorem TermReads.exists_parse {d : Expr} {subtracted : Bool} {text : String}
    (h : TermReads d subtracted text) : ∃ e, Expr.parse text = .ok e ∧ e.SameValue d := by
  cases h with
  | zero hd => exact ⟨_, Reads.zero.chain.parse, hd.symm⟩
  | operand _ _ hr he => exact ⟨_, hr.chain.parse, he⟩
  | pair hl hr he => exact ⟨_, (hl.sum.join hr false).parse, he⟩

/-- A sum whose text has no sign is one term. -/
theorem Written.single_of_hasSign {cs : List Char} {e : Expr} (h : Written (.chain .sum) cs e)
    (hs : hasSign cs = false) : Written (.chain .product) cs e := by
  cases h with
  | single h => exact h
  | snoc _ ho _ =>
    obtain ⟨c, hc, htext, -⟩ := ho.isSign
    rw [htext, hasSign_append, Bool.or_eq_false_iff] at hs
    exact absurd hc (hasSign_cons.mp hs.2).1

/-- A text of one term without a sign is a product. -/
theorem Written.product_of_hasSign {cs : List Char} {e : Expr} (h : Written (.chain .sum) cs e)
    (hparens : '(' ∉ cs) (hsigns : e.signFirst = true) (hs : hasSign cs = false) :
    Written (.chain .product) cs e ∧ e.signFree = true := by
  have hproduct := h.single_of_hasSign hs
  refine ⟨hproduct, ?_⟩
  rcases hproduct.exists_sign (by simp) hparens hsigns with hfree | ⟨sign, ds, rfl, -⟩
  · exact hfree
  · rw [hasSign_append] at hs
    cases sign <;> simp [hasSign, Sign.symbol] at hs

namespace Derivative

/-- On a text without parentheses and with no signs before operands but perhaps one in front, in
which the variable stands only as a whole word, and in which the terms with the variable are the
variable itself or products of two numbers or names, no square of it being subtracted, the rules
give the textbook derivative: the text parses and has the same value as the derivative of the tree.
The value exists if the numbers of the formula are finite. -/
theorem differentiate_sum_of_products {f v : String} {e : Expr} (hf : Expr.parse f = .ok e)
    (hparens : '(' ∉ f.toList) (hsigns : e.signFirst = true) (hv : IsName v)
    (hwhole : StandsWhole v.toList f.toList)
    (hterms : ∀ t ∈ e.terms, v ∈ t.2.identifiers → t.2.isSimpleTerm v = true)
    (hsquare : (true, .binary .multiply (.identifier v) (.identifier v)) ∉ e.terms) :
    ∃ text' derivative, Expr.parse (differentiate f v) = .ok text' ∧
      e.derivative? v = some derivative ∧
      (∀ power ρ, text'.value? power ρ = derivative.value? power ρ) ∧
      (e.FiniteNumbers → ∀ power ρ, (text'.value? power ρ).isSome = true) := by
  have hwritten := Expr.written_of_parse hf
  have hparens' : '(' ∉ f.toList.filter (!isBlank ·) := fun h => hparens (List.mem_filter.mp h).1
  have hwhole' : StandsWhole v.toList (f.toList.filter (!isBlank ·)) := by
    rwa [StandsWhole, Expr.runs_unspaced_of_parse hf]
  suffices h : ∃ derivative, e.derivative? v = some derivative ∧
      (∃ text', Expr.parse (differentiate f v) = .ok text' ∧ text'.SameValue derivative) ∧
      (e.FiniteNumbers → derivative.Valued) by
    obtain ⟨derivative, hd, ⟨text', ht, hsame⟩, hvalued⟩ := h
    exact ⟨text', derivative, ht, hd, hsame, fun hn => (hvalued hn).congr hsame⟩
  rw [differentiate, of]
  generalize f.toList.filter (!isBlank ·) = cs at *
  cases hs : hasSign cs with
  | false =>
    obtain ⟨hproduct, hfree⟩ := hwritten.product_of_hasSign hparens' hsigns hs
    rw [hproduct.terms_eq (by simp) hparens', Expr.splitSign_of_signFree hfree,
      List.forall_mem_singleton] at hterms
    obtain ⟨d, hd, hterm, hvalued⟩ :=
      hproduct.exists_derivative_term false hparens' hv hwhole' hterms nofun
    exact ⟨d, hd, hterm.exists_parse, hvalued⟩
  | true =>
    by_cases ho : occurs v.toList cs = true
    · obtain ⟨d, hd, hsum, hvalued⟩ :=
        hwritten.exists_derivative_sum hparens' hsigns hv hwhole' hterms hsquare
      refine ⟨d, hd, ?_, hvalued⟩
      have hne : cs ≠ v.toList := by
        rintro rfl
        rw [hasSign_of_isWordChar (isWordChar_of_mem_name hv).2] at hs
        cases hs
      rw [derive_of_hasSign ho hne hs, ofTerms, List.foldl_map]
      exact hsum.exists_parse
    · have hmem := (hwritten.occurs_iff_mem hparens' hv hwhole').not.mp ho
      refine ⟨_, Expr.derivative?_of_not_mem hmem, ?_, fun _ => .zero⟩
      rw [derive_of_not_occurs (Bool.eq_false_iff.mpr ho)]
      exact ⟨_, Reads.zero.chain.parse, .refl _⟩

/-- A sum with a sign in front, a square, a power without the variable, and blanks. -/
theorem differentiate_sum_of_products_signed :
    ∃ e text' derivative, Expr.parse "-2*x + x * x - z ** w" = .ok e ∧
      Expr.parse (differentiate "-2*x + x * x - z ** w" "x") = .ok text' ∧
      e.derivative? "x" = some derivative ∧
      (∀ power ρ, text'.value? power ρ = derivative.value? power ρ) ∧
      ∀ power ρ, (text'.value? power ρ).isSome = true := by
  have hf : Expr.parse "-2*x + x * x - z ** w" = .ok (.binary .subtract (.binary .add
      (.binary .multiply (.signed .minus (.whole 2)) (.identifier "x"))
      (.binary .multiply (.identifier "x") (.identifier "x")))
      (.binary .power (.identifier "z") (.identifier "w"))) := by decide +kernel
  have hv : IsName "x" := isName_iff.mp (by decide +kernel)
  obtain ⟨text', derivative, htext, hd, hsame, hvalued⟩ :=
    differentiate_sum_of_products hf (by decide +kernel) rfl hv (by decide +kernel)
      (by decide +kernel) (by decide +kernel)
  exact ⟨_, text', derivative, hf, htext, hd, hsame, hvalued (by decide +kernel)⟩

end Derivative

end FormulaBook
