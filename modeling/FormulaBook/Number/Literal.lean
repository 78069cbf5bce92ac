import FormulaBook.Number.Decimal
import FormulaBook.Text.Blank
import FormulaBook.Text.Digit
import FormulaBook.Text.Quoted

/-!
# Reading numbers

A number in a formula has no sign: digits with at most one point among them and at least one digit,
then perhaps the letter e and an exponent, which has no sign either (`Decimal.ofLiteral?`). Numbers
elsewhere may have a sign, a signed exponent, or be one of the names for infinity and not-a-number;
blanks may stand around them and underscores between their digits (`Binary64.ofText?`). Digits of
every script count.
-/

namespace FormulaBook

open Text

namespace Decimal

/-- The digits before the exponent, and the characters after them. -/
def readMantissa? (cs : List Char) : Option (Decimal × List Char) :=
  let (whole, rest) := spanDigits cs
  match rest with
  | '.' :: more =>
    let (places, rest) := spanDigits more
    if whole.isEmpty && places.isEmpty then none
    else some (⟨ofDigits (ofDigits 0 whole) places, -(places.length : Nat)⟩, rest)
  | rest => if whole.isEmpty then none else some (⟨ofDigits 0 whole, 0⟩, rest)

/-- Digits up to the end, at least one. -/
def readDigits? (cs : List Char) : Option Nat :=
  match spanDigits cs with
  | ([], _) => none
  | (ds, []) => some (ofDigits 0 ds)
  | _ => none

/-- An exponent without a sign. -/
def readExponent? (cs : List Char) : Option Int := (readDigits? cs).map Int.ofNat

/-- An exponent, which may have a sign. -/
def readSignedExponent? : List Char → Option Int
  | '+' :: cs => readExponent? cs
  | '-' :: cs => (readExponent? cs).map (- ·)
  | cs => readExponent? cs

/-- A decimal whose exponent, if it has one, is read by `exponent?`. -/
def read? (exponent? : List Char → Option Int) (cs : List Char) : Option Decimal := do
  let (d, rest) ← readMantissa? cs
  match rest with
  | [] => some d
  | c :: rest =>
    if c = 'e' ∨ c = 'E' then
      let e ← exponent? rest
      some { d with exponent := d.exponent + e }
    else none

/-- The decimal that a number literal of a formula denotes; `none` for a text that is none. -/
def ofLiteral? (cs : List Char) : Option Decimal := read? readExponent? cs

end Decimal

namespace Binary64

/-- The number a text without its sign denotes. -/
def ofMagnitude? (negative : Bool) (cs : List Char) : Option Binary64 :=
  let name := String.ofList (cs.map Char.toLower)
  if name = "inf" ∨ name = "infinity" then some (.infinity negative)
  else if name = "nan" then some .nan
  else (Decimal.read? Decimal.readSignedExponent? cs).map (ofDecimal negative)

/-- The number a text denotes. -/
def ofText? (s : String) : Option Binary64 := do
  match ← ungrouped? false (unpadded s.toList) with
  | '-' :: cs => ofMagnitude? true cs
  | '+' :: cs => ofMagnitude? false cs
  | cs => ofMagnitude? false cs

/-- The message about a text that denotes no number. -/
def unreadable (s : String) : String := "could not convert string to float: " ++ quoted s

end Binary64

end FormulaBook
