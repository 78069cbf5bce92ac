import FormulaBook.Number.Binary64

/-!
# Decimals

A decimal is a natural number of digits scaled by a power of ten. `Binary64.ofDecimal` rounds one
to the nearest binary64 number, and `Decimal.shortest` goes the other way: of the decimals that
round to a given number it finds one with the fewest digits, and of those the nearest.

`shortest` only ever returns a decimal that was seen to round back, or else the exact value of the
number, so that its result always reads back.
-/

namespace FormulaBook

/-- A power of ten. -/
def tenPow (k : Nat) : Nat := Nat.pow 10 k

/-- The decimal `digits · 10 ^ exponent`. -/
structure Decimal where
  digits : Nat
  exponent : Int
deriving DecidableEq

namespace Binary64

/-- The number nearest to a decimal. A decimal far outside the range of the format is decided from
its exponent alone, before any power of ten is computed. -/
def ofDecimal (negative : Bool) (d : Decimal) : Binary64 :=
  if d.digits = 0 then zero negative
  else if 309 ≤ d.exponent then .infinity negative
  else if d.exponent + d.digits.log2 + 1100 < 0 then zero negative
  else ofRatio negative (d.digits * tenPow d.exponent.toNat * unitsPerOne)
    (tenPow (-d.exponent).toNat)

end Binary64

namespace Decimal

/-- The decimal with as many zeros moved from its digits to its exponent as `steps` allows. -/
def strip : Nat → Decimal → Decimal
  | 0, d => d
  | steps + 1, d =>
    if d.digits ≠ 0 ∧ d.digits % 10 = 0 then strip steps ⟨d.digits / 10, d.exponent + 1⟩ else d

/-- The decimal of the same value whose digits do not end in zero. -/
def normal (d : Decimal) : Decimal := strip d.digits.log2 d

/-- The exact value of a count of units. -/
def ofUnits (n : Nat) : Decimal := ⟨n * Nat.pow 5 1074, -1074⟩

/-- The value of a count of units in whole multiples of `10 ^ exponent`, rounded down. -/
def floorAt (n : Nat) (exponent : Int) : Nat :=
  n * tenPow (-exponent).toNat / (unitsPerOne * tenPow exponent.toNat)

/-- The least power of ten above the value of a positive count of units. -/
def magnitude (n : Nat) : Int :=
  if unitsPerOne ≤ n then (Nat.toDigits 10 (n / unitsPerOne)).length
  else
    let zeros := ((List.range 324).find? fun k => unitsPerOne ≤ n * tenPow (k + 1)).getD 324
    Int.negOfNat zeros

/-- Whether the exact value lies nearer to `digits + 1` than to `digits` on the grid of multiples
of `10 ^ exponent`, or halfway between the two with an odd number below it. -/
def roundsUp (n : Nat) (digits : Nat) (exponent : Int) : Bool :=
  let value := 2 * n * tenPow (-exponent).toNat
  let middle := (2 * digits + 1) * unitsPerOne * tenPow exponent.toNat
  middle < value || (middle == value && digits % 2 == 1)

/-- On the grid of multiples of `10 ^ exponent`, the neighbour of the value that rounds to it; the
nearer one if both do. -/
def onGrid? (n : Nat) (exponent : Int) : Option Decimal :=
  let low : Decimal := ⟨floorAt n exponent, exponent⟩
  let high : Decimal := ⟨low.digits + 1, exponent⟩
  let readsBack (d : Decimal) : Bool :=
    match Binary64.ofDecimal false d with
    | .finite _ m _ => m == n
    | _ => false
  match readsBack low, readsBack high with
  | true, true => some (if roundsUp n low.digits exponent then high else low)
  | true, false => some low
  | false, true => some high
  | false, false => none

/-- The shortest decimal that rounds to a count of units. -/
def shortest (n : Nat) : Decimal :=
  if n = 0 then ⟨0, 0⟩
  else
    let top := magnitude n
    let found := (List.range 17).findSome? fun k => onGrid? n (top - 1 - (k : Nat))
    (found.getD (ofUnits n)).normal

end Decimal

end FormulaBook
