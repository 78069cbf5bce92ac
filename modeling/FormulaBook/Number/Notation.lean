import FormulaBook.Number.Decimal

/-!
# How numbers are written

Three notations of a binary64 number. `Binary64.plain` writes its shortest digits without an
exponent and without a point where none is needed: the way a number stands in a formula.
`Binary64.text` always shows a point or an exponent and uses the exponent for very large and very
small numbers. `Binary64.fixed` rounds the exact value to a given number of places.
-/

namespace FormulaBook

namespace Decimal

/-- The digits with a point before the last `places` of them; zeros are written in front until one
digit stands before the point. No places, no point. -/
def pointed (digits places : Nat) : List Char :=
  let ds := Nat.toDigits 10 digits
  if places = 0 then ds
  else
    let padded := List.replicate (places + 1 - ds.length) '0' ++ ds
    padded.take (padded.length - places) ++ '.' :: padded.drop (padded.length - places)

/-- The decimal written out without an exponent. -/
def plain (d : Decimal) : List Char :=
  pointed (d.digits * tenPow d.exponent.toNat) (-d.exponent).toNat

/-- The decimal with one digit before the point and an exponent of at least two digits that always
has a sign. -/
def scientific (d : Decimal) : List Char :=
  let ds := Nat.toDigits 10 d.digits
  let e := d.exponent + (ds.length - 1 : Nat)
  let es := Nat.toDigits 10 e.natAbs
  let mantissa := match ds with
    | first :: second :: rest => first :: '.' :: second :: rest
    | ds => ds
  mantissa ++ 'e' :: (if e < 0 then '-' else '+') :: (List.replicate (2 - es.length) '0' ++ es)

/-- Positional when the leading digit has an exponent from -4 to 15, and then with a digit after
the point; scientific otherwise. -/
def natural (d : Decimal) : List Char :=
  let e := d.exponent + ((Nat.toDigits 10 d.digits).length - 1 : Nat)
  if -4 ≤ e ∧ e < 16 then if d.exponent < 0 then d.plain else d.plain ++ ['.', '0']
  else d.scientific

end Decimal

namespace Binary64

/-- A text with a minus in front if the number is negative. -/
def signText (negative : Bool) (cs : List Char) : String :=
  String.ofList (if negative then '-' :: cs else cs)

/-- The number as it would stand in a formula, without an exponent. -/
def plain : Binary64 → String
  | .nan => "NaN"
  | .infinity a => signText a "Infinity".toList
  | .finite a m _ => signText a (Decimal.shortest m).plain

/-- The number by its shortest digits, with a point or an exponent. -/
def text : Binary64 → String
  | .nan => "nan"
  | .infinity a => signText a "inf".toList
  | .finite a m _ => signText a (Decimal.shortest m).natural

/-- The exact value rounded to `places` digits after the point, from a tie to the even digit. -/
def fixed (places : Nat) : Binary64 → String
  | .nan => "nan"
  | .infinity a => signText a "inf".toList
  | .finite a m _ =>
    signText a (Decimal.pointed (roundDiv (m * tenPow places) unitsPerOne) places)

end Binary64

end FormulaBook
