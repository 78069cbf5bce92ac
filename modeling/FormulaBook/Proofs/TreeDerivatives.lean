import FormulaBook.Proofs.Independence

/-!
# Derivatives of trees

The textbook derivative of a formula is taken on its tree, rule by rule (`Expr.derivative?`): it is
what the rules on texts are measured by. Of a sum it is the sum of the derivatives of the terms
(`Expr.exists_derivative_termOp`), and a sign in front of the first operand of a term comes out of
it (`Expr.exists_derivative_of_splitSign`).
-/

namespace FormulaBook

namespace Expr

/-- A whole number. -/
def whole (n : Nat) : Expr := .number (.ofDecimal false ⟨n, 0⟩)

end Expr

/-- The rule for an operator: the derivative from the operands and their derivatives. A power has
one only if the exponent is without the variable, since formulas have no logarithms. -/
def BinaryOp.derivative? (v : String) (left left' right right' : Expr) : BinaryOp → Option Expr
  | .add => some (.binary .add left' right')
  | .subtract => some (.binary .subtract left' right')
  | .multiply =>
    some (.binary .add (.binary .multiply left' right) (.binary .multiply left right'))
  | .divide =>
    some (.binary .divide
      (.binary .subtract (.binary .multiply left' right) (.binary .multiply left right'))
      (.binary .multiply right right))
  | .power =>
    if v ∈ right.identifiers then none
    else
      some (.binary .multiply
        (.binary .multiply right (.binary .power left (.binary .subtract right (.whole 1)))) left')

namespace Expr

/-- The derivative of a tree by `v`. Whatever is without `v` has the derivative zero. -/
def derivative? (v : String) : Expr → Option Expr
  | .number _ => some (whole 0)
  | .identifier name => some (whole (if name = v then 1 else 0))
  | .signed sign operand =>
    if v ∈ operand.identifiers then (derivative? v operand).map (.signed sign)
    else some (whole 0)
  | .binary op left right =>
    if v ∈ left.identifiers ++ right.identifiers then
      (derivative? v left).bind fun left' =>
        (derivative? v right).bind fun right' => op.derivative? v left left' right right'
    else some (whole 0)

variable {v : String} {e left right : Expr}

/-- A tree without the variable has the derivative zero. -/
theorem derivative?_of_not_mem (h : v ∉ e.identifiers) : e.derivative? v = some (whole 0) := by
  cases e with
  | number x => rfl
  | identifier name =>
    have hne : name ≠ v := fun hv => h (List.mem_singleton.mpr hv.symm)
    rw [derivative?, if_neg hne]
  | signed sign operand => exact if_neg h
  | binary op left right => exact if_neg h

/-- The variable has the derivative one. -/
theorem derivative?_self (v : String) : (identifier v).derivative? v = some (whole 1) := by
  rw [derivative?, if_pos rfl]

/-- Nothing is simplified. -/
example : (binary .multiply (identifier "x") (identifier "y")).derivative? "x" =
    some (.binary .add (.binary .multiply (whole 1) (identifier "y"))
      (.binary .multiply (identifier "x") (whole 0))) := by decide +kernel

/-! ## Values -/

section

variable {power : ℚ → ℚ → Option ℚ} {ρ : String → ℚ}

@[simp] theorem value?_zero : (whole 0).value? power ρ = some 0 := by
  change (Binary64.ofDecimal false ⟨0, 0⟩).value? = some 0
  decide +kernel

@[simp] theorem value?_one : (whole 1).value? power ρ = some 1 := by
  change (Binary64.ofDecimal false ⟨1, 0⟩).value? = some 1
  decide +kernel

end

/-- Two trees have the same value, wherever one of them has one. -/
def SameValue (d e : Expr) : Prop :=
  ∀ (power : ℚ → ℚ → Option ℚ) (ρ : String → ℚ), d.value? power ρ = e.value? power ρ

namespace SameValue

variable {d e d' e' : Expr}

/-- A tree has the same value as itself. -/
theorem refl (e : Expr) : e.SameValue e := fun _ _ => rfl

/-- Having the same value goes both ways. -/
theorem symm (h : d.SameValue e) : e.SameValue d := fun power ρ => (h power ρ).symm

/-- Two trees with the same value as a third have the same value. -/
theorem trans {f : Expr} (h : d.SameValue e) (h' : e.SameValue f) : d.SameValue f :=
  fun power ρ => (h power ρ).trans (h' power ρ)

/-- Operands with the same values make operations with the same value. -/
theorem binary (op : BinaryOp) (h : d.SameValue e) (h' : d'.SameValue e') :
    (Expr.binary op d d').SameValue (.binary op e e') := by
  intro power ρ
  simp only [value?, h power ρ, h' power ρ]

/-- A sign keeps two trees at the same value. -/
theorem signed (sign : Sign) (h : d.SameValue e) :
    (Expr.signed sign d).SameValue (.signed sign e) := by
  intro power ρ
  simp only [value?, h power ρ]

end SameValue

/-- The operator that a sign is between two terms. -/
def termOp (subtracted : Bool) : BinaryOp := if subtracted then .subtract else .add

/-- The value of a sum or difference, where both sides have one. -/
theorem value?_termOp (subtracted : Bool) (d e : Expr) (power : ℚ → ℚ → Option ℚ)
    (ρ : String → ℚ) : (binary (termOp subtracted) d e).value? power ρ =
      (d.value? power ρ).bind fun x => (e.value? power ρ).map fun y =>
        if subtracted then x - y else x + y := by
  rw [value?]
  cases d.value? power ρ <;> cases e.value? power ρ <;> cases subtracted <;> rfl

/-- What has the value zero is added or subtracted without effect. -/
theorem sameValue_termOp_zero (subtracted : Bool) {d e : Expr} (h : e.SameValue (whole 0)) :
    (binary (termOp subtracted) d e).SameValue d := by
  intro power ρ
  rw [value?_termOp, h power ρ, value?_zero]
  cases d.value? power ρ <;> simp

/-- Zero in front of a plus may be left away. -/
theorem sameValue_zero_add (e : Expr) : (binary (termOp false) (whole 0) e).SameValue e := by
  intro power ρ
  rw [value?_termOp, value?_zero]
  simp

/-- Zero in front of a minus makes it a sign. -/
theorem sameValue_zero_subtract (e : Expr) :
    (binary (termOp true) (whole 0) e).SameValue (.signed .minus e) := by
  intro power ρ
  rw [value?_termOp, value?_zero, value?]
  simp [Sign.apply]

/-- A tree has a value whatever its names stand for. -/
def Valued (e : Expr) : Prop :=
  ∀ (power : ℚ → ℚ → Option ℚ) (ρ : String → ℚ), (e.value? power ρ).isSome = true

namespace Valued

variable {d e : Expr}

/-- Zero has a value. -/
theorem zero : (whole 0).Valued := fun power ρ => by rw [value?_zero]; rfl

/-- One has a value. -/
theorem one : (whole 1).Valued := fun power ρ => by rw [value?_one]; rfl

/-- A tree with the same value as one that always has a value always has one. -/
theorem congr (h : e.Valued) (hsame : d.SameValue e) : d.Valued := by
  intro power ρ
  rw [hsame power ρ]
  exact h power ρ

/-- Sums and differences of trees that have values have values. -/
theorem termOp (subtracted : Bool) (hd : d.Valued) (he : e.Valued) :
    (binary (Expr.termOp subtracted) d e).Valued := by
  intro power ρ
  obtain ⟨x, hx⟩ := Option.isSome_iff_exists.mp (hd power ρ)
  obtain ⟨y, hy⟩ := Option.isSome_iff_exists.mp (he power ρ)
  rw [value?_termOp, hx, hy]
  rfl

end Valued

/-- The numbers of a tree are finite. -/
def FiniteNumbers (e : Expr) : Prop := ∀ x ∈ e.numbers, x.value?.isSome = true

/-- Whether all numbers of a tree are finite can be decided. -/
instance (e : Expr) : Decidable e.FiniteNumbers :=
  inferInstanceAs (Decidable (∀ x ∈ e.numbers, _))

/-- The operands of an operation have no more numbers than it has. -/
theorem FiniteNumbers.of_binary {op : BinaryOp} (h : (binary op left right).FiniteNumbers) :
    left.FiniteNumbers ∧ right.FiniteNumbers :=
  ⟨fun x hx => h x (List.mem_append_left _ hx), fun x hx => h x (List.mem_append_right _ hx)⟩

/-- The derivative of a sum is that of its last term, added to or subtracted from that of what comes
before it. -/
theorem exists_derivative_termOp (subtracted : Bool) {left' right' : Expr}
    (hl : left.derivative? v = some left') (hr : right.derivative? v = some right') :
    ∃ d, (binary (termOp subtracted) left right).derivative? v = some d ∧
      d.SameValue (.binary (termOp subtracted) left' right') := by
  by_cases hv : v ∈ left.identifiers ++ right.identifiers
  · refine ⟨.binary (termOp subtracted) left' right', ?_, .refl _⟩
    rw [derivative?, if_pos hv, hl, hr]
    cases subtracted <;> rfl
  · have hv' : v ∉ (binary (termOp subtracted) left right).identifiers := hv
    rw [List.mem_append, not_or] at hv
    rw [derivative?_of_not_mem hv.1] at hl
    rw [derivative?_of_not_mem hv.2] at hr
    obtain rfl := Option.some.inj hl
    obtain rfl := Option.some.inj hr
    exact ⟨_, derivative?_of_not_mem hv', (sameValue_termOp_zero subtracted (.refl _)).symm⟩

/-! ## Terms -/

/-- Whether there is no sign in a tree. -/
def signFree : Expr → Bool
  | .number _ | .identifier _ => true
  | .binary _ left right => left.signFree && right.signFree
  | .signed .. => false

/-- Whether there is no sign in a tree but perhaps one, in front of its first operand. -/
def signFirst : Expr → Bool
  | .number _ | .identifier _ => true
  | .binary _ left right => left.signFirst && right.signFree
  | .signed _ operand => operand.signFree

/-- Whether a minus stands in front of the first operand of a tree, and the tree without the sign
there. -/
def splitSign : Expr → Bool × Expr
  | .signed sign operand => (sign = .minus, operand)
  | .binary op left right => (left.splitSign.1, .binary op left.splitSign.2 right)
  | e => (false, e)

/-- The terms of a sum without parentheses, each with whether it is subtracted. A sign in front of
the first one counts for all of it. -/
def terms : Expr → List (Bool × Expr)
  | .binary .add left right => left.terms ++ [(false, right)]
  | .binary .subtract left right => left.terms ++ [(true, right)]
  | e => [e.splitSign]

/-- Whether a tree is a number or a name. -/
def isLeaf : Expr → Bool
  | .number _ | .identifier _ => true
  | .binary .. | .signed .. => false

/-- Whether a term is `v` itself or a product of two numbers or names. -/
def isSimpleTerm (v : String) : Expr → Bool
  | .identifier name => name = v
  | .binary .multiply left right => left.isLeaf && right.isLeaf
  | _ => false

/-- A simple term is the variable or a product of leaves. -/
theorem cases_of_isSimpleTerm {t : Expr} (h : t.isSimpleTerm v = true) :
    t = .identifier v ∨
      ∃ a b, t = .binary .multiply a b ∧ a.isLeaf = true ∧ b.isLeaf = true := by
  unfold isSimpleTerm at h
  split at h
  · exact .inl (congrArg identifier (of_decide_eq_true h))
  · exact .inr ⟨_, _, rfl, Bool.and_eq_true_iff.mp h⟩
  · cases h

/-- A tree without signs has none to split off. -/
theorem splitSign_of_signFree (h : e.signFree = true) : e.splitSign = (false, e) := by
  induction e with
  | number | identifier => rfl
  | binary op left right ihl _ =>
    rw [signFree, Bool.and_eq_true] at h
    rw [splitSign, ihl h.1]
  | signed => cases h

/-- Splitting off the sign keeps the names. -/
theorem identifiers_splitSign (e : Expr) : e.splitSign.2.identifiers = e.identifiers := by
  induction e with
  | number | identifier | signed => rfl
  | binary op left right ihl _ => simp only [splitSign, identifiers, ihl]

/-- Splitting off the sign keeps the numbers. -/
theorem numbers_splitSign (e : Expr) : e.splitSign.2.numbers = e.numbers := by
  induction e with
  | number | identifier | signed => rfl
  | binary op left right ihl _ => simp only [splitSign, numbers, ihl]

/-- Names and finite numbers have values. -/
theorem valued_of_isLeaf (hleaf : e.isLeaf = true) (h : e.FiniteNumbers) : e.Valued := by
  cases e with
  | number x => exact fun _ _ => h x List.mem_cons_self
  | identifier => exact fun _ _ => rfl
  | binary | signed => cases hleaf

/-- The derivative behind a sign has the value of the derivative with this sign. -/
theorem exists_derivative_signed (s : Sign) {a a' : Expr} (ha : a.derivative? v = some a') :
    ∃ d, (signed s a).derivative? v = some d ∧ d.SameValue (.signed s a') := by
  by_cases hv : v ∈ a.identifiers
  · refine ⟨.signed s a', ?_, .refl _⟩
    rw [derivative?, if_pos hv, ha]
    rfl
  · rw [derivative?_of_not_mem hv] at ha
    obtain rfl := Option.some.inj ha
    refine ⟨whole 0, derivative?_of_not_mem hv, fun power ρ => ?_⟩
    rw [value?, value?_zero]
    cases s <;> simp [Sign.apply]

/-- A sign in front is the same as adding to zero or subtracting from it. -/
theorem sameValue_signed_termOp (s : Sign) (e : Expr) :
    (signed s e).SameValue (.binary (termOp (s = .minus)) (whole 0) e) := by
  intro power ρ
  rw [value?_termOp, value?_zero, value?]
  cases s <;> cases e.value? power ρ <;> simp [Sign.apply]

/-- A sign of an operand of a product comes out of the derivative of the product. -/
theorem sameValue_derivative_multiply {a b a' b' : Expr} (s : Sign) :
    (binary .add (.binary .multiply (.signed s a') b)
      (.binary .multiply (.signed s a) b')).SameValue
      (.binary (termOp (s = .minus)) (whole 0)
        (.binary .add (.binary .multiply a' b) (.binary .multiply a b'))) := by
  intro power ρ
  rw [value?_termOp, value?_zero]
  simp only [value?]
  cases a.value? power ρ <;> cases a'.value? power ρ <;> cases b.value? power ρ <;>
    cases b'.value? power ρ <;> cases s <;> simp [BinaryOp.result?, Sign.apply]
  exact add_comm _ _

/-- The sign of a first factor comes out of the derivative of the product. -/
theorem exists_derivative_multiply {l a b t' : Expr} (hl : l.splitSign.2 = a)
    (ha : a.isLeaf = true) (hv : v ∈ a.identifiers ++ b.identifiers)
    (hd : (binary .multiply a b).derivative? v = some t') :
    ∃ d, (binary .multiply l b).derivative? v = some d ∧
      d.SameValue (.binary (termOp l.splitSign.1) (whole 0) t') := by
  cases l with
  | number | identifier =>
    obtain rfl := hl
    exact ⟨t', hd, (sameValue_zero_add t').symm⟩
  | binary => subst hl; cases ha
  | signed s c =>
    obtain rfl : c = a := hl
    rw [derivative?, if_pos hv] at hd
    obtain ⟨a', ha', hd⟩ := Option.bind_eq_some_iff.mp hd
    obtain ⟨b', hb', hd⟩ := Option.bind_eq_some_iff.mp hd
    obtain rfl := Option.some.inj hd
    obtain ⟨l', hl', hsame⟩ := exists_derivative_signed s ha'
    refine ⟨.binary .add (.binary .multiply l' b) (.binary .multiply (.signed s c) b'), ?_, ?_⟩
    · have hv' : v ∈ (signed s c).identifiers ++ b.identifiers := hv
      rw [derivative?, if_pos hv', hl', hb']
      rfl
    · exact (SameValue.binary .add (hsame.binary .multiply (.refl b)) (.refl _)).trans
        (sameValue_derivative_multiply s)

/-- The derivative of a term with a sign in front of it is that of the term without the sign, added
to zero or subtracted from it. -/
theorem exists_derivative_of_splitSign {t t' : Expr} (ht : e.splitSign.2 = t)
    (hsimple : v ∈ t.identifiers → t.isSimpleTerm v = true) (hd : t.derivative? v = some t') :
    ∃ d, e.derivative? v = some d ∧
      d.SameValue (.binary (termOp e.splitSign.1) (whole 0) t') := by
  by_cases hv : v ∈ t.identifiers
  · cases e with
    | number | identifier =>
      obtain rfl := ht
      exact ⟨t', hd, (sameValue_zero_add t').symm⟩
    | signed s a =>
      obtain rfl := ht
      obtain ⟨d, hd', hsame⟩ := exists_derivative_signed s hd
      exact ⟨d, hd', hsame.trans (sameValue_signed_termOp s t')⟩
    | binary op l b =>
      rcases cases_of_isSimpleTerm (hsimple hv) with rfl | ⟨a, b', rfl, ha, hb⟩
      · cases ht
      · cases ht
        exact exists_derivative_multiply rfl ha hv hd
  · have hv' : v ∉ e.identifiers := by
      rwa [← identifiers_splitSign, ht]
    rw [derivative?_of_not_mem hv] at hd
    obtain rfl := Option.some.inj hd
    exact ⟨whole 0, derivative?_of_not_mem hv', (sameValue_termOp_zero _ (.refl _)).symm⟩

end Expr

end FormulaBook
