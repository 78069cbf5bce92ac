import FormulaBook.Number.Decimal
import Mathlib.Data.List.Basic

/-!
# Rounding depends on the value alone

A number is rounded from a quotient of natural numbers. The result does not change when numerator
and denominator are multiplied by the same factor (`Binary64.ofRatio_mul_left`), and what the
exponent of a decimal decides beforehand is what rounding its quotient gives
(`Binary64.ofDecimal_eq_ofRatio`). So two ways to write a decimal are rounded alike
(`Binary64.ofDecimal_shift`), and the shortest decimal of a number rounds to it
(`Decimal.roundsTo_shortest`).
-/

namespace FormulaBook

/-! ## Powers of two and ten -/

/-- A sum in the exponent is a product of powers of two. -/
theorem twoPow_add (m n : Nat) : twoPow (m + n) = twoPow m * twoPow n := Nat.pow_add 2 m n

/-- Powers of two grow with their exponents. -/
theorem twoPow_le_twoPow {m n : Nat} (h : m ≤ n) : twoPow m ≤ twoPow n :=
  Nat.pow_le_pow_right (by decide) h

/-- No number is below the power of two with its logarithm. -/
theorem twoPow_log2_le {n : Nat} (h : n ≠ 0) : twoPow n.log2 ≤ n := Nat.log2_self_le h

/-- Every number is below the next power of two. -/
theorem lt_twoPow_log2 (n : Nat) : n < twoPow (n.log2 + 1) := Nat.lt_log2_self

/-- A sum in the exponent is a product of powers of ten. -/
theorem tenPow_add (m n : Nat) : tenPow (m + n) = tenPow m * tenPow n := Nat.pow_add 10 m n

/-- The next power of ten is ten times as large. -/
theorem tenPow_succ (n : Nat) : tenPow (n + 1) = 10 * tenPow n := by
  rw [Nat.add_comm, tenPow_add]
  rfl

/-- A power of five times the same power of two is a power of ten. -/
theorem mul_fivePow_mul_twoPow (n k : Nat) : n * Nat.pow 5 k * twoPow k = tenPow k * n := by
  have hten : Nat.pow 5 k * twoPow k = tenPow k := (Nat.mul_pow 5 2 k).symm
  rw [Nat.mul_assoc, hten, Nat.mul_comm]

/-- Powers of ten are positive. -/
theorem tenPow_pos (n : Nat) : 0 < tenPow n := Nat.pow_pos (by decide)

/-- Powers of ten grow with their exponents. -/
theorem tenPow_le_tenPow {m n : Nat} (h : m ≤ n) : tenPow m ≤ tenPow n :=
  Nat.pow_le_pow_right (by decide) h

/-- Ten is more than the third power of two. -/
theorem twoPow_three_mul_le_tenPow (n : Nat) : twoPow (3 * n) ≤ tenPow n := by
  induction n with
  | zero => exact Nat.le_refl 1
  | succ n ih =>
    rw [tenPow_succ, Nat.mul_add, twoPow_add, Nat.mul_comm]
    exact Nat.mul_le_mul (show twoPow (3 * 1) ≤ 10 by decide) ih

/-! ## Quotients -/

/-- Rounding a quotient does not depend on a common factor. -/
theorem roundDiv_mul_left {c : Nat} (hc : 0 < c) (num den : Nat) :
    roundDiv (c * num) (c * den) = roundDiv num den := by
  unfold roundDiv
  rw [Nat.mul_div_mul_left _ _ hc, Nat.mul_mod_mul_left]
  have h1 : 2 * (c * (num % den)) < c * den ↔ 2 * (num % den) < den := by
    rw [Nat.mul_left_comm]
    exact Nat.mul_lt_mul_left hc
  have h2 : 2 * (c * (num % den)) = c * den ↔ 2 * (num % den) = den := by
    rw [Nat.mul_left_comm]
    exact Nat.mul_right_inj (Nat.pos_iff_ne_zero.mp hc)
  simp only [h1, h2]

/-- Rounding a quotient to units of the format does not depend on a common factor. -/
theorem roundUnits_mul_left {c : Nat} (hc : 0 < c) (num den : Nat) :
    roundUnits (c * num) (c * den) = roundUnits num den := by
  unfold roundUnits
  rw [Nat.mul_div_mul_left _ _ hc]
  simp only [Nat.mul_assoc, roundDiv_mul_left hc]

/-- A quotient below one half rounds to zero. -/
theorem roundUnits_eq_zero {num den : Nat} (h : 2 * num < den) : roundUnits num den = 0 := by
  have hq : num / den = 0 := Nat.div_eq_of_lt (by omega)
  have hstep : twoPow (Nat.log2 0 - 52) = 1 := by decide
  have hmod : num % den = num := Nat.mod_eq_of_lt (by omega)
  simp only [roundUnits, hq, hstep, roundDiv, Nat.mul_one, hmod, h, true_or, if_true]

/-- A quotient is not rounded below its whole part. -/
theorem div_le_roundDiv (num den : Nat) : num / den ≤ roundDiv num den := by
  unfold roundDiv
  dsimp only
  split <;> omega

/-- Rounding does not go below the leading bit of the quotient. -/
theorem twoPow_log2_le_roundUnits {num den : Nat} (h : num / den ≠ 0) :
    twoPow (num / den).log2 ≤ roundUnits num den := by
  have hlead := twoPow_log2_le h
  unfold roundUnits
  generalize hq : num / den = q at h hlead ⊢
  generalize hk : q.log2 = k at hlead ⊢
  have hstep : twoPow k = twoPow (k - (k - 52)) * twoPow (k - 52) := by
    rw [← twoPow_add]
    congr 1
    omega
  calc twoPow k = twoPow (k - (k - 52)) * twoPow (k - 52) := hstep
    _ ≤ q / twoPow (k - 52) * twoPow (k - 52) := by
      refine Nat.mul_le_mul_right _ ((Nat.le_div_iff_mul_le (twoPow_pos _)).mpr ?_)
      rwa [← hstep]
    _ = num / (den * twoPow (k - 52)) * twoPow (k - 52) := by rw [← hq, Nat.div_div_eq_div_mul]
    _ ≤ roundDiv num (den * twoPow (k - 52)) * twoPow (k - 52) :=
      Nat.mul_le_mul_right _ (div_le_roundDiv _ _)

namespace Binary64

/-- The double nearest to a ratio does not depend on a common factor. -/
theorem ofRatio_mul_left {c : Nat} (hc : 0 < c) (negative : Bool) (num den : Nat) :
    ofRatio negative (c * num) (c * den) = ofRatio negative num den := by
  simp only [ofRatio, roundUnits_mul_left hc]

/-- A magnitude of the format, written as a quotient in any way, is its own rounding. -/
theorem ofRatio_of_representable {c n : Nat} (hc : 0 < c) (h : Representable n) (negative : Bool) :
    ofRatio negative (c * n) c = .finite negative n h := by
  have hone := ofRatio_mul_left hc negative n 1
  rw [Nat.mul_one] at hone
  rw [hone, ofRatio]
  simp only [roundUnits_of_representable h, h, dif_pos]

/-- A ratio below half a unit is rounded to zero. -/
theorem ofRatio_eq_zero {num den : Nat} (h : 2 * num < den) (negative : Bool) :
    ofRatio negative num den = zero negative := by
  simp only [ofRatio, roundUnits_eq_zero h, representable_zero, dif_pos, zero]

/-- A ratio with too many units is rounded to infinity. -/
theorem ofRatio_eq_infinity {num den : Nat} (h : unitsLimit ≤ num / den) (negative : Bool) :
    ofRatio negative num den = .infinity negative := by
  have hpos : num / den ≠ 0 := by
    have := unitsLimit_pos
    omega
  have hlog : 2098 ≤ (num / den).log2 := by
    by_contra hlt
    have h1 := lt_twoPow_log2 (num / den)
    have h2 : twoPow ((num / den).log2 + 1) ≤ unitsLimit := twoPow_le_twoPow (by omega)
    omega
  have hbig : unitsLimit ≤ roundUnits num den :=
    Nat.le_trans (twoPow_le_twoPow hlog) (twoPow_log2_le_roundUnits hpos)
  have hnot : ¬ Representable (roundUnits num den) := fun hr => by
    have := hr.1
    omega
  simp only [ofRatio, hnot, dif_neg, not_false_eq_true]

/-- What a decimal is rounded from. -/
def ofDecimalRatio (negative : Bool) (d : Decimal) : Binary64 :=
  ofRatio negative (d.digits * tenPow d.exponent.toNat * unitsPerOne) (tenPow (-d.exponent).toNat)

/-- The limit of the format is at two to the 1024. -/
theorem unitsLimit_eq : unitsLimit = twoPow 1024 * unitsPerOne := by
  rw [unitsPerOne, ← twoPow_add]
  rfl

/-- A decimal that is too large for the format by its exponent. -/
theorem unitsLimit_le_of_exponent {n : Nat} {k : Nat} (hn : n ≠ 0) (hk : 309 ≤ k) :
    unitsLimit ≤ n * tenPow k * unitsPerOne := by
  have hten : twoPow 1024 ≤ tenPow 309 := by decide +kernel
  calc unitsLimit = twoPow 1024 * unitsPerOne := unitsLimit_eq
    _ ≤ tenPow 309 * unitsPerOne := Nat.mul_le_mul_right _ hten
    _ ≤ tenPow k * unitsPerOne :=
      Nat.mul_le_mul_right _ (tenPow_le_tenPow hk)
    _ ≤ n * tenPow k * unitsPerOne :=
      Nat.mul_le_mul_right _ (Nat.le_mul_of_pos_left _ (Nat.pos_of_ne_zero hn))

/-- A decimal that is too small for the format by its exponent and its number of digits. -/
theorem two_mul_lt_of_exponent {n m k : Nat} (hk : n.log2 + m + 2 ≤ 3 * k) :
    2 * (n * twoPow m) < tenPow k := by
  calc 2 * (n * twoPow m) < 2 * (twoPow (n.log2 + 1) * twoPow m) := by
        have h := Nat.mul_lt_mul_of_pos_right (lt_twoPow_log2 n) (twoPow_pos m)
        exact Nat.mul_lt_mul_of_pos_left h (by decide)
    _ = twoPow (1 + (n.log2 + 1 + m)) := by rw [twoPow_add 1, twoPow_add _ m]; rfl
    _ ≤ twoPow (3 * k) := twoPow_le_twoPow (by omega)
    _ ≤ tenPow k := twoPow_three_mul_le_tenPow k

/-- What the exponent of a decimal decides alone agrees with rounding its quotient. -/
theorem ofDecimal_eq_ofRatio (negative : Bool) (d : Decimal) :
    ofDecimal negative d = ofDecimalRatio negative d := by
  obtain ⟨n, e⟩ := d
  unfold ofDecimal ofDecimalRatio
  dsimp only
  split
  · rename_i hn
    rw [hn, Nat.zero_mul, Nat.zero_mul, ofRatio_eq_zero (by simpa using tenPow_pos _)]
  rename_i hn
  split
  · rename_i he
    have hneg : (-e).toNat = 0 := by omega
    rw [hneg, ofRatio_eq_infinity]
    rw [show tenPow 0 = 1 from rfl, Nat.div_one]
    exact unitsLimit_le_of_exponent hn (by omega)
  split
  · rename_i he
    have hpos : e.toNat = 0 := by omega
    rw [hpos, show tenPow 0 = 1 from rfl, Nat.mul_one, ofRatio_eq_zero]
    exact two_mul_lt_of_exponent (by omega)
  · rfl

/-- A zero may be moved between the digits and the exponent. -/
theorem ofDecimal_shift (negative : Bool) (n : Nat) (e : Int) :
    ofDecimal negative ⟨10 * n, e⟩ = ofDecimal negative ⟨n, e + 1⟩ := by
  simp only [ofDecimal_eq_ofRatio, ofDecimalRatio]
  rcases Int.lt_or_le e 0 with he | he
  · have h1 : (-e).toNat = (-(e + 1)).toNat + 1 := by omega
    have h2 : e.toNat = 0 := by omega
    have h3 : (e + 1).toNat = 0 := by omega
    rw [h1, h2, h3, tenPow_succ, Nat.mul_assoc 10, Nat.mul_assoc 10,
      ofRatio_mul_left (by decide : 0 < 10)]
  · have h1 : (-e).toNat = 0 := by omega
    have h2 : (-(e + 1)).toNat = 0 := by omega
    have h3 : (e + 1).toNat = e.toNat + 1 := by omega
    rw [h1, h2, h3, tenPow_succ, Nat.mul_comm 10 n, Nat.mul_assoc n]

/-- Any number of zeros may be moved from the exponent to the digits. -/
theorem ofDecimal_expand (negative : Bool) (n k : Nat) (e : Int) :
    ofDecimal negative ⟨n * tenPow k, e⟩ = ofDecimal negative ⟨n, e + k⟩ := by
  induction k generalizing e with
  | zero => simp [tenPow]
  | succ k ih =>
    rw [tenPow_succ, Nat.mul_left_comm, ofDecimal_shift, ih]
    congr 2
    omega

/-- Decimals are rounded to numbers without a sign. -/
theorem ofDecimal_false_cases (d : Decimal) :
    ofDecimal false d = .infinity false ∨ ∃ n h, ofDecimal false d = .finite false n h := by
  rw [ofDecimal_eq_ofRatio, ofDecimalRatio]
  unfold ofRatio
  dsimp only
  split
  · exact .inr ⟨_, ‹_›, rfl⟩
  · exact .inl rfl

end Binary64

/-! ## Shortest decimals -/

namespace Decimal

/-- The decimal rounds to a count of units. -/
def RoundsTo (d : Decimal) (n : Nat) : Prop :=
  ∃ h, Binary64.ofDecimal false d = .finite false n h

/-- A decimal rounds the same without zeros at its end. -/
theorem RoundsTo.strip {n : Nat} (steps : Nat) {d : Decimal} (h : d.RoundsTo n) :
    (strip steps d).RoundsTo n := by
  induction steps generalizing d with
  | zero => exact h
  | succ steps ih =>
    unfold Decimal.strip
    split
    · rename_i hd
      refine ih ?_
      have hten : d.digits = 10 * (d.digits / 10) := by omega
      unfold RoundsTo at h ⊢
      rwa [← Binary64.ofDecimal_shift, ← hten]
    · exact h

/-- The exact value of a magnitude rounds to it. -/
theorem roundsTo_ofUnits {n : Nat} (h : Representable n) : (ofUnits n).RoundsTo n := by
  refine ⟨h, ?_⟩
  have hpos : (-1074 : Int).toNat = 0 := rfl
  have hneg : (-(-1074 : Int)).toNat = 1074 := rfl
  rw [Binary64.ofDecimal_eq_ofRatio, Binary64.ofDecimalRatio, ofUnits]
  simp only [hpos, hneg]
  rw [show tenPow 0 = 1 from rfl, Nat.mul_one, unitsPerOne]
  generalize 1074 = k
  rw [mul_fivePow_mul_twoPow, Binary64.ofRatio_of_representable (tenPow_pos k)]

/-- What is found on the grid rounds to the magnitude. -/
theorem roundsTo_of_onGrid? {n : Nat} {e : Int} {d : Decimal} (h : onGrid? n e = some d) :
    d.RoundsTo n := by
  unfold onGrid? at h
  extract_lets low high readsBack at h
  have hreads (d : Decimal) (hd : readsBack d = true) : d.RoundsTo n := by
    rcases Binary64.ofDecimal_false_cases d with hinf | ⟨m, hm, hfin⟩
    · simp [readsBack, hinf] at hd
    · simp only [readsBack, hfin, beq_iff_eq] at hd
      subst hd
      exact ⟨hm, hfin⟩
  split at h
  · rw [← Option.some.inj h]
    split
    · exact hreads _ ‹_›
    · exact hreads _ ‹_›
  · rw [← Option.some.inj h]
    exact hreads _ ‹_›
  · rw [← Option.some.inj h]
    exact hreads _ ‹_›
  · exact absurd h.symm (Option.some_ne_none d)

/-- The shortest decimal of a magnitude rounds to it. -/
theorem roundsTo_shortest {n : Nat} (h : Representable n) : (shortest n).RoundsTo n := by
  unfold shortest
  split
  · rename_i hn
    subst hn
    exact ⟨h, rfl⟩
  · refine RoundsTo.strip _ ?_
    cases hf : (List.range 17).findSome? fun k => onGrid? n (magnitude n - 1 - (k : Nat)) with
    | none => exact roundsTo_ofUnits h
    | some d =>
      obtain ⟨k, -, hk⟩ := List.exists_of_findSome?_eq_some hf
      exact roundsTo_of_onGrid? hk

end Decimal

end FormulaBook
