/-!
# Sets of characters by their turns

A set of characters that come in long runs is given by its *turns*: the code points, in ascending
order, at which membership changes.
-/

namespace FormulaBook.Text

/-- Whether a code point is in a set, given whether the code points before the first turn are. -/
def afterTurns (inside : Bool) (n : Nat) : List Nat → Bool
  | [] => inside
  | turn :: turns => if n < turn then inside else afterTurns (!inside) n turns

/-- Whether a character is in the set with the given turns, the first of which enters it. -/
def isWithin (turns : List Nat) (c : Char) : Bool := afterTurns false c.toNat turns

end FormulaBook.Text
