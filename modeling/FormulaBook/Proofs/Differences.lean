import FormulaBook.Proofs.SumsOfProducts

/-!
# Derivatives of differences

The derivative of a difference of two terms is written from the derivatives of the terms, with no
parentheses around them. If the derivatives of the terms parse, so does that of the difference
(`Derivative.differentiate_difference`), since the derivative of a term then is a product or, for a
square, a sum of two products (`Derivative.derive_term_cases`). Its value is the difference of their
values, unless the sum is subtracted or a minus comes to stand in front of the base of a power
(`Derivative.missubtracts_square_and_power`).
-/

namespace FormulaBook

open Text Token FormulaBook.Derivative

namespace Expr

/-- Whether the first operand of a tree is the base of a power. -/
def beginsWithPower : Expr → Bool
  | .binary .power _ _ => true
  | .binary _ left _ => left.beginsWithPower
  | .number _ | .identifier _ | .signed .. => false

end Expr

/-! ## A minus in front of a product -/

/-- A factor that is negated negates a product or a quotient. -/
theorem BinaryOp.result?_neg {power : ℚ → ℚ → Option ℚ} {op : BinaryOp}
    (hop : op = .multiply ∨ op = .divide) (x y : ℚ) :
    op.result? power (-x) y = (op.result? power x y).map (-·) := by
  rcases hop with rfl | rfl
  · simp [result?, neg_mul]
  · by_cases hy : y = 0 <;> simp [result?, hy, neg_div]

/-- A product or quotient changes its sign with its left operand. -/
theorem Expr.value?_binary_neg {power : ℚ → ℚ → Option ℚ} {ρ : String → ℚ} {op : BinaryOp}
    (hop : op = .multiply ∨ op = .divide) {left left' right : Expr}
    (h : left'.value? power ρ = (left.value? power ρ).map (-·)) :
    (binary op left' right).value? power ρ = ((binary op left right).value? power ρ).map (-·) := by
  rw [value?, value?, h]
  cases left.value? power ρ with
  | none => rfl
  | some x =>
    cases right.value? power ρ with
    | none => rfl
    | some y => exact BinaryOp.result?_neg hop x y

/-- A minus in front of what is written stands in front of its first operand. Unless that is the
base of a power, the value is negated. -/
theorem Written.negated {phrase : Phrase} {cs : List Char} {e : Expr} (h : Written phrase cs e)
    (hphrase : phrase ≠ .operand) (hsum : phrase ≠ .chain .sum) :
    ∃ e', Written phrase ('-' :: cs) e' ∧ (e.beginsWithPower = false →
      ∀ power ρ, e'.value? power ρ = (e.value? power ρ).map (-·)) := by
  induction h with
  | @single tier cs e h ih =>
    obtain ⟨e', he', hvalue⟩ := ih (by cases tier <;> simp [Tier.joined])
      (by cases tier <;> simp [Tier.joined])
    exact ⟨e', .single he', hvalue⟩
  | @snoc tier s op as bs left right _ ho hr ihl _ =>
    obtain ⟨left', hl', hvalue⟩ := ihl hphrase hsum
    refine ⟨.binary op left' right, .snoc hl' ho hr, fun hpower power ρ => ?_⟩
    cases ho with
    | plus | minus => exact absurd rfl hsum
    | caret | stars => cases hpower
    | star => exact Expr.value?_binary_neg (.inl rfl) (hvalue hpower power ρ)
    | slash => exact Expr.value?_binary_neg (.inr rfl) (hvalue hpower power ρ)
  | @sign s cs e h _ =>
    refine ⟨.signed .minus (.signed s e), .sign (s := .minus) (.sign h), fun _ power ρ => ?_⟩
    rfl
  | @unsigned cs e h _ =>
    exact ⟨.signed .minus e, .sign (s := .minus) (.unsigned h), fun _ power ρ => rfl⟩
  | number | name | parens => exact absurd rfl hphrase

/-! ## Texts that are no formulas -/

namespace Derivative

/-- A text in which a parenthesis opens right behind the letter `d`. -/
def HasCall (s : String) : Prop := ['d', '('] <:+: s.toList

/-- A call in a text is there in front of any text. -/
theorem HasCall.append_left {s : String} (h : HasCall s) (t : String) : HasCall (s ++ t) := by
  rw [HasCall, String.toList_append]
  exact h.trans (List.prefix_append _ _).isInfix

/-- A call in a text is there behind any text. -/
theorem HasCall.append_right {t : String} (h : HasCall t) (s : String) : HasCall (s ++ t) := by
  rw [HasCall, String.toList_append]
  exact h.trans (List.suffix_append _ _).isInfix

/-- An unresolved derivative has a call in it. -/
theorem hasCall_unresolvedText (cs v : List Char) : HasCall (unresolvedText cs v) := by
  have h : HasCall "d(" := List.infix_rfl
  exact (((h.append_left _).append_left _).append_left _).append_left _

/-- No formula has a group right behind a word. -/
theorem HasCall.not_parse {s : String} (h : HasCall s) (e : Expr) : Expr.parse s ≠ .ok e := by
  intro hs
  obtain ⟨as, bs, hcs⟩ := h
  have hd := (Expr.written_of_parse hs).detached
  rw [← hcs, List.filter_append, List.filter_append, List.append_assoc] at hd
  have hcall : MayFollow 'd' '(' := (List.isChain_cons_cons.mp hd.right_of_append).1
  exact absurd (hcall.1 rfl) (by decide)

/-! ## The derivative of a term -/

/-- A text without signs and parentheses. -/
def IsPlain (s : String) : Prop :=
  '+' ∉ s.toList ∧ '-' ∉ s.toList ∧ '(' ∉ s.toList ∧ ')' ∉ s.toList

/-- Whether a text is plain can be decided. -/
instance (s : String) : Decidable (IsPlain s) :=
  inferInstanceAs (Decidable ('+' ∉ s.toList ∧ '-' ∉ s.toList ∧ '(' ∉ s.toList ∧ ')' ∉ s.toList))

/-- A text without blanks and signs that parses is a product. -/
theorem written_product_of_parse {s : String} {e : Expr} (h : Expr.parse s = .ok e)
    (hblank : ∀ c ∈ s.toList, isBlank c = false) (hs : hasSign s.toList = false) :
    Written (.chain .product) s.toList e := by
  have hw := Expr.written_of_parse h
  rw [List.filter_eq_self.mpr fun c hc => by simp [hblank c hc]] at hw
  exact hw.single_of_hasSign hs

/-- A product has a call if the derivative of one of its factors has one. -/
theorem hasCall_ofProduct {a b : String} {da db : Derivative}
    (h : HasCall da.text ∨ HasCall db.text) : HasCall (ofProduct a b da db).text := by
  have hzero : ¬HasCall "0" := by
    unfold HasCall
    decide
  have hone : ¬HasCall "1" := by
    unfold HasCall
    decide
  unfold ofProduct
  dsimp only
  split
  · rename_i hboth
    rw [hboth.1, hboth.2] at h
    exact absurd h (by simp [hzero])
  · split
    · rename_i ha
      rw [ha] at h
      have h := h.resolve_left hzero
      rw [if_neg fun hb : db.text = "1" => hone (hb ▸ h)]
      exact h.append_right _
    · split
      · rename_i hb
        rw [hb] at h
        have h := h.resolve_right hzero
        rw [if_neg fun ha : da.text = "1" => hone (ha ▸ h)]
        exact (h.append_left _).append_left _
      · rcases h with h | h
        · exact h.append_right _
        · exact ((((h.append_right _).append_left _).append_left _).append_left _).append_left _

/-- The derivative of a square. -/
def squareText (v : String) : String := v ++ " * 1" ++ " + " ++ (v ++ " * 1")

section

variable {v : String} {cs : List Char}

/-- If the derivative of a product is a formula, it is zero, one of the factors or, for a square, a
sum. -/
theorem derive_product_cases {a b : List Char} (ho : occurs v.toList cs = true)
    (hne : cs ≠ v.toList) (hs : hasSign cs = false) (hparen : ')' ∉ cs)
    (hf : factors? cs = some (a, b)) (hd : ¬HasCall (derive v.toList cs).text) :
    (derive v.toList cs).text ∈ ["0", String.ofList a, String.ofList b] ∨
      (cs = v.toList ++ '*' :: v.toList ∧ (derive v.toList cs).text = squareText v) := by
  have hcs := eq_of_factors? hf
  obtain ⟨ha, hb⟩ := not_mem_of_factors? hf
  obtain ⟨hpa, hpb⟩ := parts_of_factors? hf
  rw [derive_of_factors? ho hne hs hf] at hd ⊢
  -- A factor that is neither free of the variable nor the variable leaves a call in the text.
  have hpart {t : List Char} (ht : t <:+: cs) (hstar : '*' ∉ t)
      (hcall : ¬HasCall (derive v.toList t).text) : (derive v.toList t).text = "0" ∨
        (t = v.toList ∧ (derive v.toList t).text = "1") := by
    rcases derive_factor (v := v.toList) (hasSign_of_part ht hs) hstar
      (group?_of_not_mem fun h => hparen (ht.subset h)) with h | h | h
    · exact .inl h.2
    · exact .inr h
    · exact absurd (h ▸ hasCall_unresolvedText t v.toList) hcall
  rcases hpart hpa ha fun h => hd (hasCall_ofProduct (.inl h)) with hda | ⟨rfl, hda⟩ <;>
    rcases hpart hpb hb fun h => hd (hasCall_ofProduct (.inr h)) with hdb | ⟨rfl, hdb⟩
  · exact .inl (by simp [ofProduct, hda, hdb])
  · exact .inl (by simp [ofProduct, hda, hdb])
  · exact .inl (by simp [ofProduct, hda, hdb])
  · refine .inr ⟨hcs, ?_⟩
    simp [ofProduct, hda, squareText, String.append_assoc]

/-- If the derivative of a term without parentheses is a formula, it is written as a product, or it
is that of a square. -/
theorem derive_term_cases {d : Expr} (hs : hasSign cs = false) (hparen : ')' ∉ cs)
    (hblank : ∀ c ∈ cs, isBlank c = false)
    (hd : Expr.parse (derive v.toList cs).text = .ok d) :
    Written (.chain .product) (derive v.toList cs).text.toList d ∨
      (cs = v.toList ++ '*' :: v.toList ∧ (derive v.toList cs).text = squareText v) := by
  have hcall : ¬HasCall (derive v.toList cs).text := fun h => h.not_parse d hd
  have hpart {t : List Char} (ht : t <:+: cs)
      (htext : (derive v.toList cs).text = String.ofList t) :
      Written (.chain .product) (derive v.toList cs).text.toList d := by
    refine written_product_of_parse hd ?_ ?_
    · rw [htext, String.toList_ofList]
      exact fun c hc => hblank c (ht.subset hc)
    · rw [htext, String.toList_ofList]
      exact hasSign_of_part ht hs
  have hdigit {s : String} (hword : s.toList.all isWordChar = true)
      (htext : (derive v.toList cs).text = s) :
      Written (.chain .product) (derive v.toList cs).text.toList d := by
    rw [List.all_eq_true] at hword
    subst htext
    exact written_product_of_parse hd (fun c hc => isBlank_of_isWordChar (hword c hc))
      (hasSign_of_isWordChar hword)
  cases ho : occurs v.toList cs with
  | false => exact .inl (hdigit (by decide) (derive_of_not_occurs ho))
  | true =>
    by_cases hne : cs = v.toList
    · have hone : (derive v.toList cs).text = "1" := by rw [hne, derive_self]
      exact .inl (hdigit (by decide) hone)
    · cases hf : factors? cs with
      | none =>
        rw [derive_unresolved ho hne hs hf (group?_of_not_mem hparen)] at hcall
        exact absurd (hasCall_unresolvedText cs v.toList) hcall
      | some ab =>
        obtain ⟨a, b⟩ := ab
        obtain ⟨hpa, hpb⟩ := parts_of_factors? hf
        refine (derive_product_cases ho hne hs hparen hf hcall).imp_left fun h => ?_
        simp only [List.mem_cons, List.not_mem_nil, or_false] at h
        rcases h with h | h | h
        exacts [hdigit (by decide) h, hpart hpa h, hpart hpb h]

end

/-! ## The derivative of a difference -/

/-- The derivative of a difference, as it is written from the derivatives of the terms. -/
def differenceText (left right : String) : String :=
  if right = "0" then left
  else if left = "0" then "-" ++ right
  else left ++ " - " ++ right

/-- The derivative of a difference is written from those of its terms. -/
theorem ofTerms_difference {left right : Derivative} (hleft : left.text ≠ "") :
    (ofTerms [(false, left), (true, right)]).text = differenceText left.text right.text := by
  have hfirst : addTerm "" false left.text = if left.text = "0" then "" else left.text := by
    simp [addTerm]
  rw [ofTerms, List.foldl_cons, List.foldl_cons, List.foldl_nil, hfirst, differenceText, addTerm]
  by_cases hr : right.text = "0" <;> by_cases hl : left.text = "0" <;> simp [hr, hl, hleft]

/-- The derivative of a difference is put together from those of the terms. -/
theorem derive_difference {v : String} (hv : IsName v) {as bs : List Char} (ha : as ≠ [])
    (hb : bs ≠ []) (hsa : hasSign as = false) (hsb : hasSign bs = false)
    (hleft : (derive v.toList as).text ≠ "") :
    (derive v.toList (as ++ '-' :: bs)).text =
      differenceText (derive v.toList as).text (derive v.toList bs).text := by
  have hminus : '-' ∉ v.toList := fun h => absurd ((isWordChar_of_mem_name hv).2 _ h) (by decide)
  cases ho : occurs v.toList (as ++ '-' :: bs) with
  | false =>
    have hboth := ho
    rw [← Bool.not_eq_true, occurs_append_cons hminus, not_or, Bool.not_eq_true,
      Bool.not_eq_true] at hboth
    rw [derive_of_not_occurs ho, derive_of_not_occurs hboth.1, derive_of_not_occurs hboth.2]
    rfl
  | true =>
    have hne : as ++ '-' :: bs ≠ v.toList := fun h => hminus (h ▸ by simp)
    have hs : hasSign (as ++ '-' :: bs) = true := by
      rw [hasSign_append]
      simp [hasSign]
    rw [derive_of_hasSign ho hne hs, terms_append (.inr rfl) hb hsb, terms,
      termsFrom_of_hasSign ha hsa]
    exact ofTerms_difference hleft

/-- The tree of the derivative of a square. -/
def squareTree (v : String) : Expr :=
  .binary .add (.binary .multiply (.identifier v) (.whole 1))
    (.binary .multiply (.identifier v) (.whole 1))

/-- A name times one reads as this product. -/
theorem reads_timesOne {v : String} (hv : IsName v) :
    Reads (.chain .product) (v ++ " * 1").toList (.binary .multiply (.identifier v) (.whole 1)) :=
  (Reads.name hv).chain.timesOne

/-- The derivative of a square reads as its tree. -/
theorem reads_squareText {v : String} (hv : IsName v) :
    Reads (.chain .sum) (squareText v).toList (squareTree v) :=
  (reads_timesOne hv).sum.join (reads_timesOne hv) false

/-- A sum of two products can stand behind a minus. -/
theorem exists_parse_differenceText_square {v left : String} {e : Expr} (hv : IsName v)
    (hleft : Reads (.chain .sum) left.toList e) :
    ∃ d, Expr.parse (differenceText left (squareText v)) = .ok d := by
  have hproduct := reads_timesOne hv
  have hnonzero : squareText v ≠ "0" := fun h => not_drops_append (by decide) _ _ (.inl h)
  rw [differenceText, if_neg hnonzero]
  split
  · have htext : "-" ++ squareText v = "-" ++ v ++ " * 1" ++ " + " ++ (v ++ " * 1") := by
      simp only [squareText, String.append_assoc]
    rw [htext]
    exact ⟨_, ((Reads.name hv).negated.timesOne.sum.join hproduct false).parse⟩
  · have htext : left ++ " - " ++ squareText v =
        left ++ " - " ++ (v ++ " * 1") ++ " + " ++ (v ++ " * 1") := by
      simp only [squareText, String.append_assoc]
    rw [htext]
    exact ⟨_, ((hleft.join hproduct true).join hproduct false).parse⟩

/-- A name times itself is a product written out. -/
theorem written_square {v : String} (hv : IsName v) :
    Written (.chain .sum) (v.toList ++ '*' :: v.toList)
      (.binary .multiply (.identifier v) (.identifier v)) := by
  have hname : Written (.chain .power) v.toList (.identifier v) := .single (.unsigned (.name hv))
  have hfirst : Written (.chain .product) v.toList (.identifier v) := .single hname
  have hproduct : Written (.chain .product) (v.toList ++ ("*".toList ++ v.toList))
      (.binary .multiply (.identifier v) (.identifier v)) := .snoc hfirst .star hname
  exact .single hproduct

/-- A plain text has no sign and no parenthesis once its blanks are gone. -/
theorem IsPlain.unspaced {s : String} (h : IsPlain s) :
    hasSign (s.toList.filter (!isBlank ·)) = false ∧ ')' ∉ s.toList.filter (!isBlank ·) := by
  obtain ⟨hplus, hminus, -, hparen⟩ := h
  constructor
  · refine List.any_eq_false.mpr fun c hc hsign => ?_
    have hmem := (List.mem_filter.mp hc).1
    rw [Bool.or_eq_true, beq_iff_eq, beq_iff_eq] at hsign
    rcases hsign with rfl | rfl
    exacts [hplus hmem, hminus hmem]
  · exact fun hmem => hparen (List.mem_filter.mp hmem).1

/-- The tree read from a zero has no value but zero. -/
theorem value?_of_zero {e : Expr} (h : Expr.parse "0" = .ok e) {power : ℚ → ℚ → Option ℚ}
    {ρ : String → ℚ} {x : ℚ} (hx : e.value? power ρ = some x) : x = 0 := by
  obtain rfl := Except.ok.inj (h.symm.trans Reads.zero.chain.parse)
  rw [Expr.value?_zero] at hx
  exact (Option.some.inj hx).symm

/-- A product can be subtracted, from zero unless it begins with a power. -/
theorem exists_value_differenceText {left right : String} {dl dr : Expr}
    (hleft : Reads (.chain .sum) left.toList dl)
    (hright : Written (.chain .product) right.toList dr) :
    ∃ d, Expr.parse (differenceText left right) = .ok d ∧
      ((left = "0" → dr.beginsWithPower = false) →
        ∀ power ρ x y, dl.value? power ρ = some x → dr.value? power ρ = some y →
          d.value? power ρ = some (x - y)) := by
  unfold differenceText
  split_ifs with hr hl
  · refine ⟨dl, hleft.parse, fun _ power ρ x y hx hy => ?_⟩
    rw [value?_of_zero (hr ▸ hright.reads.sum.parse) hy, hx, sub_zero]
  · obtain ⟨d, hd, hvalue⟩ := hright.negated (by simp) (by simp)
    have hreads : Reads (.chain .sum) ("-" ++ right).toList d := by
      rw [String.toList_append]
      exact hd.reads.sum
    refine ⟨d, hreads.parse, fun hpower power ρ x y hx hy => ?_⟩
    rw [hvalue (hpower hl), hy, value?_of_zero (hl ▸ hleft.parse) hx, zero_sub]
    rfl
  · refine ⟨_, (hleft.join hright.reads true).parse, fun _ power ρ x y hx hy => ?_⟩
    rw [Expr.value?_termOp, hx, hy]
    rfl

/-- The derivative of a difference of two terms is a formula if the derivatives of the terms are.
Its value is the difference of their values, unless the second term is the square of the variable or
the derivative of the first is zero and that of the second begins with a power. -/
theorem differentiate_difference {s t v : String} {es et ds dt : Expr}
    (hs : Expr.parse s = .ok es) (ht : Expr.parse t = .ok et) (hsplain : IsPlain s)
    (htplain : IsPlain t) (hv : IsName v) (hds : Expr.parse (differentiate s v) = .ok ds)
    (hdt : Expr.parse (differentiate t v) = .ok dt) :
    ∃ d, Expr.parse (differentiate (s ++ "-" ++ t) v) = .ok d ∧
      (et ≠ .binary .multiply (.identifier v) (.identifier v) →
        (differentiate s v = "0" → dt.beginsWithPower = false) →
        ∀ power ρ x y, ds.value? power ρ = some x → dt.value? power ρ = some y →
          d.value? power ρ = some (x - y)) := by
  have hcut : (s ++ "-" ++ t).toList.filter (!isBlank ·) =
      s.toList.filter (!isBlank ·) ++ '-' :: t.toList.filter (!isBlank ·) := by
    rw [String.toList_append, String.toList_append, List.filter_append, List.filter_append,
      List.append_assoc]
    rfl
  have hblank {u : String} : ∀ c ∈ u.toList.filter (!isBlank ·), isBlank c = false := fun c hc =>
    by simpa using (List.mem_filter.mp hc).2
  have hws := Expr.written_of_parse hs
  have hwt := Expr.written_of_parse ht
  obtain ⟨hsigns, hparens⟩ := hsplain.unspaced
  obtain ⟨hsignt, hparent⟩ := htplain.unspaced
  rw [differentiate, of] at hds hdt ⊢
  have hne : (derive v.toList (s.toList.filter (!isBlank ·))).text ≠ "" := fun h =>
    (Expr.written_of_parse hds).ne_nil (by rw [h]; rfl)
  rw [differentiate, of, hcut, derive_difference hv hws.ne_nil hwt.ne_nil hsigns hsignt hne]
  have hleft : Reads (.chain .sum) (derive v.toList (s.toList.filter (!isBlank ·))).text.toList
      ds := by
    rcases derive_term_cases hsigns hparens hblank hds with hproduct | ⟨-, htext⟩
    · exact hproduct.reads.sum
    · rw [htext] at hds ⊢
      obtain rfl := Except.ok.inj (hds.symm.trans (reads_squareText hv).parse)
      exact reads_squareText hv
  rcases derive_term_cases hsignt hparent hblank hdt with hproduct | ⟨hsquare, htext⟩
  · obtain ⟨d, hd, hvalue⟩ := exists_value_differenceText hleft hproduct
    exact ⟨d, hd, fun _ => hvalue⟩
  · rw [htext]
    obtain ⟨d, hd⟩ := exists_parse_differenceText_square hv hleft
    exact ⟨d, hd, fun hnot => absurd (hwt.unique (hsquare ▸ written_square hv)) hnot⟩

/-- A quotient that is subtracted from zero. -/
theorem differentiate_difference_quotient :
    let quotient : Expr := .binary .divide (.identifier "y") (.identifier "z")
    Expr.parse (differentiate "a" "x") = .ok (.whole 0) ∧
      Expr.parse (differentiate "x*y/z" "x") = .ok quotient ∧
      ∃ d, Expr.parse (differentiate "a-x*y/z" "x") = .ok d ∧
        ∀ power ρ x y, (Expr.whole 0).value? power ρ = some x →
          quotient.value? power ρ = some y → d.value? power ρ = some (x - y) := by
  intro quotient
  have hs : Expr.parse "a" = .ok (.identifier "a") := by decide +kernel
  have ht : Expr.parse "x*y/z" = .ok (.binary .divide
      (.binary .multiply (.identifier "x") (.identifier "y")) (.identifier "z")) := by
    decide +kernel
  have hds : Expr.parse (differentiate "a" "x") = .ok (.whole 0) := by decide +kernel
  have hdt : Expr.parse (differentiate "x*y/z" "x") = .ok quotient := by decide +kernel
  obtain ⟨d, hd, hvalue⟩ :=
    differentiate_difference hs ht (by decide) (by decide) (isName_iff.mp rfl) hds hdt
  exact ⟨hds, hdt, d, hd, hvalue (by decide) fun _ => rfl⟩

/-- Two terms have derivatives that are formulas, and the value of the derivative of the difference
is not the difference of their values. -/
def Missubtracts (s t v : String) : Prop :=
  ∃ es et ds dt d, Expr.parse s = .ok es ∧ Expr.parse t = .ok et ∧ IsPlain s ∧ IsPlain t ∧
    IsName v ∧ Expr.parse (differentiate s v) = .ok ds ∧
    Expr.parse (differentiate t v) = .ok dt ∧
    Expr.parse (differentiate (s ++ "-" ++ t) v) = .ok d ∧
    ∃ ρ x y, ds.value? wholePower ρ = some x ∧ dt.value? wholePower ρ = some y ∧
      d.value? wholePower ρ ≠ some (x - y)

/-- The derivative of `y-x*x` by `x` is written `-x * 1 + x * 1`, and that of `y-x*z^2` is written
`-z^2`, where the minus belongs to the base. -/
theorem missubtracts_square_and_power :
    Missubtracts "y" "x*x" "x" ∧ Missubtracts "y" "x*z^2" "x" := by
  have hv : IsName "x" := isName_iff.mp rfl
  let ρ (_ : String) : ℚ := 1
  let one := Expr.whole 1
  let x : Expr := .identifier "x"
  let y : Expr := .identifier "y"
  let z : Expr := .identifier "z"
  let power := Expr.binary .power z (.whole 2)
  refine ⟨⟨y, .binary .multiply x x, .whole 0, squareTree "x",
    .binary .add (.binary .multiply (.signed .minus x) one) (.binary .multiply x one), ?_⟩,
    ⟨y, .binary .multiply x power, .whole 0, power,
      .binary .power (.signed .minus z) (.whole 2), ?_⟩⟩
  · refine ⟨by decide +kernel, by decide +kernel, by decide, by decide, hv, by decide +kernel,
      by decide +kernel, by decide +kernel, ρ, 0, 2, ?_⟩
    decide +kernel
  · refine ⟨by decide +kernel, by decide +kernel, by decide, by decide, hv, by decide +kernel,
      by decide +kernel, by decide +kernel, ρ, 0, 1, ?_⟩
    decide +kernel

end Derivative

end FormulaBook
