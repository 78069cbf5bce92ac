/-!
# Binary64 numbers

The numbers of the IEEE 754 format with 64 bits, by value: every finite one is a sign and a
multiple of 2⁻¹⁰⁷⁴, the least positive number of the format, so its magnitude is a natural number
of such *units*. A count of units belongs to the format when all its bits after the first 53 are
zero and it stays below `unitsLimit` (`Representable`).

Every operation computes its exact result as a quotient of natural numbers and rounds it once
(`ofRatio`), to the nearest number of the format and from a tie to the even neighbour; what is too
large becomes an infinity. `roundUnits_of_representable` says that a number of the format is its
own rounding.
-/

namespace FormulaBook

/-- A power of two. -/
def twoPow (k : Nat) : Nat := Nat.pow 2 k

/-- Powers of two are positive. -/
theorem twoPow_pos (k : Nat) : 0 < twoPow k := Nat.two_pow_pos k

/-- The least positive number is one unit; there are `unitsPerOne` of them in the number one. -/
def unitsPerOne : Nat := twoPow 1074

/-- The first count of units that is too large for the format. -/
def unitsLimit : Nat := twoPow 2098

/-- Whether a count of units is a magnitude of the format. -/
def Representable (n : Nat) : Prop := n < unitsLimit ∧ twoPow (n.log2 - 52) ∣ n

/-- Whether units make up a double can be decided. -/
instance (n : Nat) : Decidable (Representable n) := inferInstanceAs (Decidable (_ ∧ _))

/-- No units at all are within the format. -/
theorem unitsLimit_pos : 0 < unitsLimit := twoPow_pos 2098

/-- Zero is a double. -/
theorem representable_zero : Representable 0 := ⟨unitsLimit_pos, Nat.dvd_zero _⟩

/-- A number of the format: not a number, infinite, or finite with its sign and units. Zero has
a sign too. -/
inductive Binary64 where
  | nan
  | infinity (negative : Bool)
  | finite (negative : Bool) (units : Nat) (representable : Representable units)
deriving DecidableEq

/-- The quotient of two natural numbers, to the nearest and from a tie to the even one. -/
def roundDiv (num den : Nat) : Nat :=
  let q := num / den
  let r := num % den
  if 2 * r < den ∨ (2 * r = den ∧ q % 2 = 0) then q else q + 1

/-- The quotient in units, rounded to 53 bits. -/
def roundUnits (num den : Nat) : Nat :=
  let step := twoPow ((num / den).log2 - 52)
  roundDiv num (den * step) * step

/-- A multiple is divided without a remainder, so there is nothing to round. -/
theorem roundDiv_of_dvd {num den : Nat} (hd : 0 < den) (h : den ∣ num) :
    roundDiv num den = num / den := by
  simp [roundDiv, Nat.mod_eq_zero_of_dvd h, hd]

/-- A number of the format is its own rounding. -/
theorem roundUnits_of_representable {n : Nat} (h : Representable n) : roundUnits n 1 = n := by
  have hd := h.2
  simp only [roundUnits, Nat.div_one, Nat.one_mul]
  rw [roundDiv_of_dvd (twoPow_pos _) hd, Nat.div_mul_cancel hd]

namespace Binary64

/-- The zero of the given sign. -/
def zero (negative : Bool) : Binary64 := .finite negative 0 representable_zero

/-- The number nearest to a quotient counted in units. -/
def ofRatio (negative : Bool) (num den : Nat) : Binary64 :=
  let n := roundUnits num den
  if h : Representable n then .finite negative n h else .infinity negative

/-- The number nearest to half of an integer. -/
def ofHalves (k : Int) : Binary64 := ofRatio (k < 0) (k.natAbs * unitsPerOne) 2

/-- The units of a finite number, with its sign. -/
def signed (negative : Bool) (units : Nat) : Int := if negative then -units else units

/-- The sum. Of two zeros it is negative when both are. -/
def add : Binary64 → Binary64 → Binary64
  | .nan, _ | _, .nan => .nan
  | .infinity a, .infinity b => if a = b then .infinity a else .nan
  | .infinity a, .finite .. => .infinity a
  | .finite .., .infinity b => .infinity b
  | .finite a m _, .finite b n _ =>
    let s := signed a m + signed b n
    if s = 0 then zero (a && b) else ofRatio (s < 0) s.natAbs 1

/-- The product. -/
def mul : Binary64 → Binary64 → Binary64
  | .nan, _ | _, .nan => .nan
  | .infinity a, .infinity b => .infinity (a != b)
  | .infinity a, .finite b n _ => if n = 0 then .nan else .infinity (a != b)
  | .finite a m _, .infinity b => if m = 0 then .nan else .infinity (a != b)
  | .finite a m _, .finite b n _ => ofRatio (a != b) (m * n) unitsPerOne

/-- The quotient by a natural number other than zero. -/
def divNat (x : Binary64) (k : Nat) : Binary64 :=
  match x with
  | .finite a m _ => ofRatio a m k
  | x => x

/-- The number of the opposite sign. -/
def neg : Binary64 → Binary64
  | .nan => .nan
  | .infinity a => .infinity !a
  | .finite a m h => .finite (!a) m h

/-- Whether one number is less than another; never with `nan`, and the zeros are equal. -/
def lt : Binary64 → Binary64 → Bool
  | .nan, _ | _, .nan => false
  | .infinity a, .infinity b => a && !b
  | .infinity a, .finite .. => a
  | .finite .., .infinity b => !b
  | .finite a m _, .finite b n _ => signed a m < signed b n

/-- Doubles are added with rounding. -/
instance : Add Binary64 := ⟨add⟩

/-- Doubles are multiplied with rounding. -/
instance : Mul Binary64 := ⟨mul⟩

/-- The negative of a double has the other sign. -/
instance : Neg Binary64 := ⟨neg⟩

end Binary64

end FormulaBook
