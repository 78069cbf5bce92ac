import FormulaBook.Derivative.Sensitivity
import FormulaBook.Proofs.Characters
import FormulaBook.Proofs.ZeroDerivatives
import Mathlib.Algebra.Field.Rat
import Mathlib.Algebra.Order.Ring.Unbundled.Rat
import Mathlib.Data.List.Infix

/-!
# A derivative of zero and the value of a formula

If the derivative of a formula by a variable is `0` and the text of the formula is transparent to
the variable, the value of the formula over the rationals does not depend on the variable
(`Derivative.independentOf_of_differentiate_eq_zero`). Every occurrence of the variable then has a
zero beside it (`Derivative.zeroBefore_or_zeroAfter`). Such a zero is a factor of a product that
also has the occurrence: a zero at the end of what is written before a star is the last operand of
the left factor (`Written.vanishes_of_append`), and one at the beginning of what is written behind
it is the right factor (`Written.eq_zero_of_append`).

Without transparency the derivative may be `0` although the value changes with the variable
(`Derivative.overlooks_without_transparency`).
-/

namespace FormulaBook

open Text Token FormulaBook.Derivative

/-! ## Values -/

/-- The value of a number, which an infinity does not have. -/
def Binary64.value? : Binary64 → Option ℚ
  | .nan | .infinity _ => none
  | .finite negative units _ => some (signed negative units / unitsPerOne)

/-- The result of an operator. Division by zero has none, and which powers have one, and which one,
is up to `power`. -/
def BinaryOp.result? (power : ℚ → ℚ → Option ℚ) (x y : ℚ) : BinaryOp → Option ℚ
  | .add => some (x + y)
  | .subtract => some (x - y)
  | .multiply => some (x * y)
  | .divide => if y = 0 then none else some (x / y)
  | .power => power x y

/-- A value with a sign before it. -/
def Sign.apply (x : ℚ) : Sign → ℚ
  | .plus => x
  | .minus => -x

/-- The powers with a whole exponent, but for negative powers of zero. -/
def wholePower (x y : ℚ) : Option ℚ :=
  if y.den ≠ 1 then none
  else if 0 ≤ y then some (x ^ y.num.natAbs)
  else if x = 0 then none
  else some (x ^ y.num.natAbs)⁻¹

namespace Expr

section

variable (power : ℚ → ℚ → Option ℚ)

/-- The value of a formula where its names have the values `ρ`. -/
def value? (ρ : String → ℚ) : Expr → Option ℚ
  | .number x => x.value?
  | .identifier name => some (ρ name)
  | .binary op left right =>
    (left.value? ρ).bind fun x => (right.value? ρ).bind fun y => op.result? power x y
  | .signed sign operand => (operand.value? ρ).map (sign.apply ·)

/-- Where two assignments differ at most in the value of `v` and the formula has a value under both,
it has the same value. -/
def IndependentOf (v : String) (e : Expr) : Prop :=
  ∀ ρ ρ' : String → ℚ, (∀ n, n ≠ v → ρ n = ρ' n) →
    ∀ x y, e.value? power ρ = some x → e.value? power ρ' = some y → x = y

/-- The formula is zero wherever it has a value. -/
def Vanishes (e : Expr) : Prop := ∀ ρ x, e.value? power ρ = some x → x = 0

end

variable {power : ℚ → ℚ → Option ℚ} {v : String} {e left right : Expr}

/-- A binary operation that has a value has operands with values and a result for them. -/
theorem value?_binary {op : BinaryOp} {ρ : String → ℚ} {z : ℚ}
    (h : (Expr.binary op left right).value? power ρ = some z) :
    ∃ x y, left.value? power ρ = some x ∧ right.value? power ρ = some y ∧
      op.result? power x y = some z := by
  obtain ⟨x, hx, h⟩ := Option.bind_eq_some_iff.mp h
  obtain ⟨y, hy, h⟩ := Option.bind_eq_some_iff.mp h
  exact ⟨x, y, hx, hy, h⟩

/-- A formula that vanishes depends on nothing. -/
theorem Vanishes.independentOf (h : e.Vanishes power) : e.IndependentOf power v :=
  fun ρ ρ' _ x y hx hy => (h ρ x hx).trans (h ρ' y hy).symm

/-- An operation on operands that do not depend on a variable does not. -/
theorem IndependentOf.binary {op : BinaryOp} (hl : left.IndependentOf power v)
    (hr : right.IndependentOf power v) : (Expr.binary op left right).IndependentOf power v := by
  intro ρ ρ' hρ z z' hz hz'
  obtain ⟨x, y, hx, hy, hz⟩ := value?_binary hz
  obtain ⟨x', y', hx', hy', hz'⟩ := value?_binary hz'
  rw [hl ρ ρ' hρ x x' hx hx', hr ρ ρ' hρ y y' hy hy', hz'] at hz
  exact (Option.some.inj hz).symm

/-- A sign in front leaves a formula independent of a variable. -/
theorem IndependentOf.signed {sign : Sign} (h : e.IndependentOf power v) :
    (Expr.signed sign e).IndependentOf power v := by
  intro ρ ρ' hρ z z' hz hz'
  obtain ⟨x, hx, rfl⟩ := Option.map_eq_some_iff.mp hz
  obtain ⟨x', hx', rfl⟩ := Option.map_eq_some_iff.mp hz'
  rw [h ρ ρ' hρ x x' hx hx']

/-- A product or quotient with a vanishing operand vanishes; a quotient by zero has no value. -/
theorem Vanishes.binary {s : String} {op : BinaryOp} (ho : Tier.Spells .product s op)
    (h : left.Vanishes power ∨ right.Vanishes power) :
    (Expr.binary op left right).Vanishes power := by
  intro ρ z hz
  obtain ⟨x, y, hx, hy, hz⟩ := value?_binary hz
  have hxy : x = 0 ∨ y = 0 := h.imp (· ρ x hx) (· ρ y hy)
  cases ho with
  | star =>
    cases hz
    exact mul_eq_zero.mpr hxy
  | slash =>
    rw [BinaryOp.result?] at hz
    split at hz
    · cases hz
    · cases hz
      exact div_eq_zero_iff.mpr hxy

/-- A sign in front leaves a formula that vanishes zero. -/
theorem Vanishes.signed {sign : Sign} (h : e.Vanishes power) :
    (Expr.signed sign e).Vanishes power := by
  intro ρ z hz
  obtain ⟨x, hx, rfl⟩ := Option.map_eq_some_iff.mp hz
  rw [h ρ x hx]
  cases sign <;> simp [Sign.apply]

/-- The literal `0` vanishes. -/
theorem vanishes_zero {d : Decimal} (h : Decimal.ofLiteral? ['0'] = some d) :
    (Expr.number (Binary64.ofDecimal false d)).Vanishes power := by
  intro ρ x hx
  have hzero : Decimal.ofLiteral? ['0'] = some ⟨0, 0⟩ := by decide
  cases hzero.symm.trans h
  have hx : some (((0 : Int) : ℚ) / unitsPerOne) = some x := hx
  rw [Int.cast_zero, zero_div] at hx
  exact (Option.some.inj hx).symm

end Expr

/-! ## A zero at the edge of a phrase -/

/-- No opening character is in a word. -/
theorem not_isWordChar_of_isOpening {c : Char} (h : IsOpening c) : isWordChar c ≠ true := by
  rcases h with (rfl | rfl) | rfl <;> decide

/-- No closing character is in a word. -/
theorem not_isWordChar_of_isClosing {c : Char} (h : IsClosing c) : isWordChar c ≠ true := by
  rcases h with (rfl | rfl) | rfl <;> decide

/-- A word whose last character is the zero that begins a term or a group is that zero. -/
theorem eq_zero_of_append_eq_concat {cs pre pre' : List Char} (hne : cs ≠ [])
    (hword : ∀ c ∈ cs, isWordChar c = true) (h : pre ++ cs = pre' ++ ['0'])
    (hbegin : EndsWith IsOpening pre') : cs = ['0'] ∧ pre' = pre := by
  obtain ⟨w, c, rfl⟩ := List.eq_nil_or_concat' cs |>.resolve_left hne
  rw [← List.append_assoc] at h
  obtain ⟨rfl, hc⟩ := List.append_inj' h rfl
  cases hc
  rcases List.eq_nil_or_concat' w with rfl | ⟨w, d, rfl⟩
  · exact ⟨rfl, List.append_nil pre⟩
  · exact absurd (hword d (by simp)) (not_isWordChar_of_isOpening (hbegin d (by simp)))

/-- A word whose first character is the zero that ends a term or a group is that zero. -/
theorem eq_zero_of_append_eq_cons {cs post post' : List Char} (hne : cs ≠ [])
    (hword : ∀ c ∈ cs, isWordChar c = true) (h : cs ++ post = '0' :: post')
    (hend : BeginsWith IsClosing post') : cs = ['0'] := by
  obtain ⟨c, w, rfl⟩ := List.exists_cons_of_ne_nil hne
  obtain ⟨rfl, rfl⟩ := List.cons.inj h
  cases w with
  | nil => rfl
  | cons d w => exact absurd (hword d (by simp)) (not_isWordChar_of_isClosing (hend d rfl))

namespace Written

variable {power : ℚ → ℚ → Option ℚ} {cs : List Char} {e : Expr}

/-- An operand whose last character is the zero that begins a term or a group is that zero. -/
theorem eq_zero_of_operand (h : Written .operand cs e) {pre pre' : List Char}
    (hcs : pre ++ cs = pre' ++ ['0']) (hbegin : EndsWith IsOpening pre') :
    cs = ['0'] ∧ pre' = pre := by
  cases h with
  | number hword hd =>
    exact eq_zero_of_append_eq_concat (ne_nil_of_ofLiteral? hd) hword hcs hbegin
  | name hs =>
    obtain ⟨hne, hword⟩ := isWordChar_of_mem_name hs
    exact eq_zero_of_append_eq_concat hne hword hcs hbegin
  | parens =>
    rw [← List.cons_append, ← List.append_assoc] at hcs
    cases (List.append_inj' hcs rfl).2

/-- An operand whose last character is the zero that begins a term or a group is zero. -/
theorem vanishes_of_operand (h : Written .operand cs e) {pre pre' : List Char}
    (hcs : pre ++ cs = pre' ++ ['0']) (hbegin : EndsWith IsOpening pre') :
    e.Vanishes power := by
  have hzero := (h.eq_zero_of_operand hcs hbegin).1
  cases h with
  | number _ hd => exact Expr.vanishes_zero (hzero ▸ hd)
  | name hs => exact absurd hzero (toList_ne_zero_of_isName hs)
  | parens => cases hzero

/-- A signed operand whose last character is the zero that begins a term or a group is that zero
with signs before it. -/
theorem signed_of_append (h : Written .signed cs e) {pre pre' : List Char}
    (hcs : pre ++ cs = pre' ++ ['0']) (hbegin : EndsWith IsOpening pre') :
    ∃ signs, cs = signs ++ ['0'] ∧ pre' = pre ++ signs ∧ ∀ c ∈ signs, IsSign c := by
  generalize hphrase : Phrase.signed = phrase at h
  induction h generalizing pre with
  | @sign s cs e _ ih =>
    rw [← List.append_assoc] at hcs
    obtain ⟨signs, rfl, rfl, hsigns⟩ := ih hcs rfl
    refine ⟨s.symbol.toList ++ signs, by simp, by simp, fun c hc => ?_⟩
    rcases List.mem_append.mp hc with hc | hc
    · cases s
      exacts [.inl (List.mem_singleton.mp hc), .inr (List.mem_singleton.mp hc)]
    · exact hsigns c hc
  | unsigned h _ =>
    obtain ⟨rfl, rfl⟩ := h.eq_zero_of_operand hcs hbegin
    exact ⟨[], rfl, (List.append_nil _).symm, by simp⟩
  | single | snoc | number | name | parens => cases hphrase

/-- A zero in front of a star that is a signed exponent is noticed as one. -/
theorem hasSignedZeroExponent_of_spells {s : String} {op : BinaryOp}
    (ho : Tier.Spells .power s op) (pre post : List Char) {signs : List Char} (hne : signs ≠ [])
    (hsigns : ∀ c ∈ signs, IsSign c) :
    hasSignedZeroExponent (pre ++ (s.toList ++ (signs ++ '0' :: '*' :: post))) = true := by
  have hbegins : beginsSignedZero (signs ++ '0' :: '*' :: post) = true := by
    obtain ⟨c, cs, rfl⟩ := List.exists_cons_of_ne_nil hne
    rw [beginsSignedZero, List.dropWhile_append_of_pos (by simpa using hsigns)]
    have hc : c = '+' ∨ c = '-' := hsigns c List.mem_cons_self
    simp [hc, IsSign]
  refine List.any_eq_true.mpr ⟨_, (List.mem_tails _ _).mpr ⟨pre, rfl⟩, ?_⟩
  cases ho <;> exact hbegins

/-- A phrase tighter than a sum vanishes if its last character is the zero that begins a term or a
group, and the zero is no exponent. -/
theorem vanishes_of_append {phrase : Phrase} (h : Written phrase cs e)
    (hphrase : phrase ≠ .chain .sum) {pre pre' post : List Char} (hcs : pre ++ cs = pre' ++ ['0'])
    (hbegin : EndsWith IsOpening pre')
    (hexponent : hasSignedZeroExponent (pre ++ (cs ++ '*' :: post)) = false) :
    e.Vanishes power := by
  induction h generalizing pre with
  | @single tier cs e hjoined ih =>
    refine ih ?_ hcs hexponent
    cases tier <;> simp [Tier.joined]
  | @snoc tier s op cs ds left right hl ho hr ihl ihr =>
    have hright : pre ++ (cs ++ s.toList) ++ ds = pre' ++ ['0'] := by simpa using hcs
    cases tier with
    | sum => exact absurd rfl hphrase
    | product =>
      exact .binary ho (.inr (ihr (by simp [Tier.joined]) hright (by simpa using hexponent)))
    | power =>
      exfalso
      obtain ⟨signs, rfl, rfl, hsigns⟩ := signed_of_append hr hright hbegin
      rcases List.eq_nil_or_concat' signs with rfl | ⟨signs', c, rfl⟩
      · -- Without signs the zero stands behind the operator, where no term begins.
        cases ho with
        | caret => simpa [IsOpening, IsSign] using hbegin '^' (by simp)
        | stars => simpa [IsOpening, IsSign] using hbegin '*' (by simp)
      · have hassoc : pre ++ (cs ++ (s.toList ++ (signs' ++ [c] ++ ['0'])) ++ '*' :: post) =
            pre ++ cs ++ (s.toList ++ (signs' ++ [c] ++ '0' :: '*' :: post)) := by simp
        rw [hassoc, hasSignedZeroExponent_of_spells ho _ _ (by simp) hsigns] at hexponent
        cases hexponent
  | sign _ ih =>
    rw [← List.append_assoc] at hcs
    exact (ih (by simp) hcs (by simpa using hexponent)).signed
  | unsigned _ ih => exact ih (by simp) hcs hexponent
  | number hword hd => exact (Written.number hword hd).vanishes_of_operand hcs hbegin
  | name hs => exact (Written.name hs).vanishes_of_operand hcs hbegin
  | parens hinner => exact (Written.parens hinner).vanishes_of_operand hcs hbegin

/-- A phrase tighter than a sum vanishes if its first character is the zero that ends a term or a
group: it is that zero. -/
theorem eq_zero_of_append {phrase : Phrase} (h : Written phrase cs e)
    (hphrase : phrase ≠ .chain .sum) {post post' : List Char} (hcs : cs ++ post = '0' :: post')
    (hend : BeginsWith IsClosing post') :
    cs = ['0'] ∧ e.Vanishes power := by
  induction h generalizing post with
  | @single tier cs e hjoined ih =>
    refine ih ?_ hcs
    cases tier <;> simp [Tier.joined]
  | @snoc tier s op cs ds left right hl ho hr ihl ihr =>
    rw [List.append_assoc] at hcs
    obtain ⟨rfl, -⟩ := ihl hphrase hcs
    cases hcs
    exfalso
    cases ho with
    | plus | minus => exact hphrase rfl
    | star | stars => simpa [IsClosing, IsSign] using hend '*' rfl
    | slash => simpa [IsClosing, IsSign] using hend '/' rfl
    | caret => simpa [IsClosing, IsSign] using hend '^' rfl
  | @sign s => cases s <;> cases hcs
  | unsigned _ ih => exact ih (by simp) hcs
  | number hword hd =>
    obtain rfl := eq_zero_of_append_eq_cons (ne_nil_of_ofLiteral? hd) hword hcs hend
    exact ⟨rfl, Expr.vanishes_zero hd⟩
  | name hs =>
    obtain ⟨hne, hword⟩ := isWordChar_of_mem_name hs
    exact absurd (eq_zero_of_append_eq_cons hne hword hcs hend) (toList_ne_zero_of_isName hs)
  | parens => cases hcs

end Written

/-! ## No occurrence matters -/

/-- The zero before a factor ends in its star. -/
theorem getLast?_of_zeroBefore {pre : List Char} (h : ZeroBefore pre) :
    pre.getLast? = some '*' := by
  obtain ⟨pre', rfl, -⟩ := h
  simp

/-- The zero behind a factor begins with its star. -/
theorem head?_of_zeroAfter {post : List Char} (h : ZeroAfter post) : post.head? = some '*' := by
  obtain ⟨post', rfl, -⟩ := h
  rfl

/-- A star spells a product. -/
theorem Tier.Spells.tier_star {tier : Tier} {op : BinaryOp} (h : Tier.Spells tier "*" op) :
    tier = .product := by
  generalize hs : "*" = s at h
  cases h with
  | star | slash => rfl
  | plus | minus | caret | stars => simp at hs

/-- Of all operators only the star has a zero before or after it. -/
theorem not_zeroBefore_of_spells {tier : Tier} {s : String} {op : BinaryOp}
    (ho : Tier.Spells tier s op) (hs : s ≠ "*") (pre : List Char) :
    ¬ZeroBefore (pre ++ s.toList) := by
  intro h
  cases ho with
  | plus | minus | slash | caret => simpa using getLast?_of_zeroBefore h
  | star => exact hs rfl
  | stars =>
    obtain ⟨pre', hpre, -⟩ := h
    cases (List.append_inj' hpre rfl).2

/-- Of all operators only the star has a zero after it. -/
theorem not_zeroAfter_of_spells {tier : Tier} {s : String} {op : BinaryOp}
    (ho : Tier.Spells tier s op) (hs : s ≠ "*") (post : List Char) :
    ¬ZeroAfter (s.toList ++ post) := by
  intro h
  cases ho with
  | plus | minus | slash | caret => cases head?_of_zeroAfter h
  | star => exact hs rfl
  | stars =>
    obtain ⟨post', hpost, -⟩ := h
    cases hpost

/-- The tree of what stands between `pre` and `post` does not depend on `v`, or a zero beside it is
to answer for that. -/
def Expr.IndependentBeside (power : ℚ → ℚ → Option ℚ) (v : String) (pre post : List Char)
    (e : Expr) : Prop :=
  e.IndependentOf power v ∨ ZeroBefore pre ∨ ZeroAfter post

section

variable {power : ℚ → ℚ → Option ℚ} {v s : String} {op : BinaryOp} {tier : Tier}
  {pre cs ds post : List Char} {left right : Expr}

/-- A zero beside the star of a product is the factor on that side, or its last one. -/
theorem Written.independentBeside_star (hl : Written (.chain .product) cs left)
    (ho : Tier.Spells .product "*" op) (hr : Written (.chain .power) ds right)
    (hexponent : hasSignedZeroExponent (pre ++ (cs ++ '*' :: (ds ++ post))) = false)
    (hleft : left.IndependentBeside power v pre ('*' :: (ds ++ post)))
    (hright : right.IndependentBeside power v (pre ++ cs ++ ['*']) post) :
    (Expr.binary op left right).IndependentBeside power v pre post := by
  rcases hleft with hleft | hbefore | ⟨post', hpost, hend⟩
  · rcases hright with hright | ⟨pre', hpre, hbegin⟩ | hafter
    · exact .inl (hleft.binary hright)
    · have hpre : pre ++ cs ++ ['*'] = pre' ++ ['0'] ++ ['*'] := by simpa using hpre
      have hvanishes : left.Vanishes power :=
        hl.vanishes_of_append (by simp) (List.append_inj' hpre rfl).1 hbegin hexponent
      exact .inl (Expr.Vanishes.binary ho (.inl hvanishes)).independentOf
    · exact .inr (.inr hafter)
  · exact .inr (.inl hbefore)
  · have hvanishes : right.Vanishes power :=
      (hr.eq_zero_of_append (by simp) (List.cons.inj hpost).2 hend).2
    exact .inl (Expr.Vanishes.binary ho (.inr hvanishes)).independentOf

/-- No zero stands beside another operator. -/
theorem Expr.IndependentBeside.binary (ho : Tier.Spells tier s op) (hs : s ≠ "*")
    (hleft : left.IndependentBeside power v pre (s.toList ++ (ds ++ post)))
    (hright : right.IndependentBeside power v (pre ++ cs ++ s.toList) post) :
    (Expr.binary op left right).IndependentBeside power v pre post := by
  rcases hleft with hleft | hbefore | hafter
  · rcases hright with hright | hbefore | hafter
    · exact .inl (hleft.binary hright)
    · exact absurd hbefore (not_zeroBefore_of_spells ho hs _)
    · exact .inr (.inr hafter)
  · exact .inr (.inl hbefore)
  · exact absurd hafter (not_zeroAfter_of_spells ho hs _)

end

/-- Where every occurrence of `v` has a zero beside it, so has every phrase of the formula that
depends on `v`. -/
theorem Written.independentBeside {power : ℚ → ℚ → Option ℚ} {v : String} {all : List Char}
    (hzero : IsName v → ∀ {pre post}, pre ++ (v.toList ++ post) = all →
      ZeroBefore pre ∨ ZeroAfter post)
    (hexponent : hasSignedZeroExponent all = false) {phrase : Phrase} {cs : List Char} {e : Expr}
    (h : Written phrase cs e) {pre post : List Char} (hall : pre ++ (cs ++ post) = all) :
    e.IndependentBeside power v pre post := by
  induction h generalizing pre post with
  | single _ ih | unsigned _ ih => exact ih hall
  | @snoc tier s op cs ds left right hl ho hr ihl ihr =>
    have hleft := @ihl pre (s.toList ++ (ds ++ post)) (by simpa using hall)
    have hright := @ihr (pre ++ cs ++ s.toList) post (by simpa using hall)
    by_cases hs : s = "*"
    · subst hs
      obtain rfl := ho.tier_star
      refine hl.independentBeside_star ho hr ?_ hleft hright
      rw [← hexponent, ← hall, List.append_assoc]
      rfl
    · exact hleft.binary ho hs hright
  | @sign s cs e _ ih =>
    have hoperand : pre ++ s.symbol.toList ++ (cs ++ post) = all := by simpa using hall
    rcases ih hoperand with h | hbefore | hafter
    · exact .inl h.signed
    · cases s <;> simpa [Sign.symbol] using getLast?_of_zeroBefore hbefore
    · exact .inr (.inr hafter)
  | number => exact .inl fun ρ ρ' _ x y hx hy => Option.some.inj (hx.symm.trans hy)
  | @name s hs =>
    by_cases hv : s = v
    · subst hv
      exact .inr (hzero hs hall)
    · refine .inl fun ρ ρ' hρ x y hx hy => ?_
      cases hx
      cases hy
      exact hρ s hv
  | @parens cs e _ ih =>
    have hinner : pre ++ ['('] ++ (cs ++ (')' :: post)) = all := by simpa using hall
    rcases ih hinner with h | hbefore | hafter
    · exact .inl h
    · simpa using getLast?_of_zeroBefore hbefore
    · cases head?_of_zeroAfter hafter

/-! ## The derivative of a formula -/

namespace Derivative

/-- If the derivative of a formula by a variable is `0`, which reads as no impact, and the text of
the formula is transparent to the variable, the value of the formula does not depend on the
variable, whatever powers are. -/
theorem independentOf_of_differentiate_eq_zero (power : ℚ → ℚ → Option ℚ) {f v : String}
    {e : Expr} (hf : Expr.parse f = .ok e) (hd : differentiate f v = "0")
    (ht : transparent v.toList (f.toList.filter (!isBlank ·)) = true) :
    (Sensitivity.classify (differentiate f v)).impact = "No direct impact" ∧
      e.IndependentOf power v := by
  refine ⟨by rw [hd]; rfl, ?_⟩
  have hexponent : hasSignedZeroExponent (f.toList.filter (!isBlank ·)) = false := by
    rw [transparent, Bool.and_eq_true, Bool.not_eq_true'] at ht
    exact ht.1
  have hall : [] ++ (f.toList.filter (!isBlank ·) ++ []) = f.toList.filter (!isBlank ·) := by simp
  have hbeside : e.IndependentBeside power v [] [] :=
    (Expr.written_of_parse hf).independentBeside
      (fun hname _ _ h => zeroBefore_or_zeroAfter hname ht hd h) hexponent hall
  rcases hbeside with h | hbefore | hafter
  · exact h
  · cases getLast?_of_zeroBefore hbefore
  · cases head?_of_zeroAfter hafter

/-- The products of a sum vanish one by one, with zeros on either side of the variable. -/
theorem independentOf_of_differentiate_eq_zero_products :
    let f := "z - 2 * y * (x * 0) + 0*x"
    let e := Expr.binary .add
      (.binary .subtract (.identifier "z")
        (.binary .multiply (.binary .multiply (.number (.ofDecimal false ⟨2, 0⟩)) (.identifier "y"))
          (.binary .multiply (.identifier "x") (.number (.zero false)))))
      (.binary .multiply (.number (.zero false)) (.identifier "x"))
    Expr.parse f = .ok e ∧ differentiate f "x" = "0" ∧
      transparent "x".toList (f.toList.filter (!isBlank ·)) = true ∧
      (Sensitivity.classify (differentiate f "x")).impact = "No direct impact" ∧
      e.IndependentOf wholePower "x" := by
  intro f e
  have hf : Expr.parse f = .ok e := by decide +kernel
  have hd : differentiate f "x" = "0" := by decide +kernel
  have ht : transparent "x".toList (f.toList.filter (!isBlank ·)) = true := by decide +kernel
  exact ⟨hf, hd, ht, independentOf_of_differentiate_eq_zero wholePower hf hd ht⟩

/-- The derivative of a formula by one of its variables is `0`, and still the value changes with
the variable. -/
def Overlooks (f v : String) : Prop :=
  ∃ e, Expr.parse f = .ok e ∧ v ∈ e.vars ∧ differentiate f v = "0" ∧
    ¬e.IndependentOf wholePower v

/-- Without transparency a derivative of `0` says nothing: behind a quotient the group rule looks at
the denominator alone, a star before a sign leaves an empty factor, a sign in an exponent cuts off a
zero that is no term, and a star inside a group cuts off one that is no factor. -/
theorem overlooks_without_transparency :
    Overlooks "x/(y)" "x" ∧ Overlooks "x*-y" "x" ∧ Overlooks "y^-0*x" "x" ∧
      Overlooks "(y+0*z)/(x)" "x" := by
  let ρ (n : String) : ℚ := if n = "x" then 2 else 1
  let ρ' (_ : String) : ℚ := 1
  have hρ : ∀ n, n ≠ "x" → ρ n = ρ' n := fun n hn => if_neg hn
  have hdependent {e : Expr} {x y : ℚ} (hx : e.value? wholePower ρ = some x)
      (hy : e.value? wholePower ρ' = some y) (hne : x ≠ y) : ¬e.IndependentOf wholePower "x" :=
    fun h => hne (h ρ ρ' hρ x y hx hy)
  let x : Expr := .identifier "x"
  let y : Expr := .identifier "y"
  let zero : Expr := .number (.zero false)
  refine ⟨⟨.binary .divide x y, ?_⟩, ⟨.binary .multiply x (.signed .minus y), ?_⟩,
    ⟨.binary .multiply (.binary .power y (.signed .minus zero)) x, ?_⟩,
    ⟨.binary .divide (.binary .add y (.binary .multiply zero (.identifier "z"))) x, ?_⟩⟩
  all_goals
    refine ⟨by decide +kernel, by decide +kernel, by decide +kernel, ?_⟩
  · exact hdependent (x := 2) (y := 1) (by decide +kernel) (by decide +kernel) (by decide)
  · exact hdependent (x := -2) (y := -1) (by decide +kernel) (by decide +kernel) (by decide)
  · exact hdependent (x := 2) (y := 1) (by decide +kernel) (by decide +kernel) (by decide)
  · exact hdependent (x := 1 / 2) (y := 1) (by decide +kernel) (by decide +kernel)
      (by decide +kernel)

end Derivative

end FormulaBook
