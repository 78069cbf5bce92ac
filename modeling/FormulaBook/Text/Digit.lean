/-!
# Decimal digits

The decimal digits of every script: the characters of the general category Nd, in the
Unicode version 14.0. They come in runs of ten, zero first, so the zeros say it all. Digits of
different scripts may stand in one number, and single underscores may group them.
-/

namespace FormulaBook.Text

/-- The zeros of all decimal digits, in ascending order. -/
def zeros : List Nat :=
  [0x30, 0x660, 0x6F0, 0x7C0, 0x966, 0x9E6, 0xA66, 0xAE6, 0xB66, 0xBE6, 0xC66, 0xCE6, 0xD66,
    0xDE6, 0xE50, 0xED0, 0xF20, 0x1040, 0x1090, 0x17E0, 0x1810, 0x1946, 0x19D0, 0x1A80, 0x1A90,
    0x1B50, 0x1BB0, 0x1C40, 0x1C50, 0xA620, 0xA8D0, 0xA900, 0xA9D0, 0xA9F0, 0xAA50, 0xABF0,
    0xFF10, 0x104A0, 0x10D30, 0x11066, 0x110F0, 0x11136, 0x111D0, 0x112F0, 0x11450, 0x114D0,
    0x11650, 0x116C0, 0x11730, 0x118E0, 0x11950, 0x11C50, 0x11D50, 0x11DA0, 0x16A60, 0x16AC0,
    0x16B50, 0x1D7CE, 0x1D7D8, 0x1D7E2, 0x1D7EC, 0x1D7F6, 0x1E140, 0x1E2F0, 0x1E950, 0x1FBF0]

/-- The value of a decimal digit; `none` for every other character. -/
def digit? (c : Char) : Option Nat :=
  zeros.findSome? fun z => if z ≤ c.toNat ∧ c.toNat < z + 10 then some (c.toNat - z) else none

/-- A digit stands for a number below ten. -/
theorem digit?_lt {c : Char} {d : Nat} (h : digit? c = some d) : d < 10 := by
  obtain ⟨z, -, hz⟩ := List.exists_of_findSome?_eq_some h
  split at hz
  · simp only [Option.some.injEq] at hz; omega
  · simp at hz

/-- The number that a run of digits denotes, after the digits already read into `n`. -/
def ofDigits (n : Nat) (ds : List Nat) : Nat := ds.foldl (fun n d => 10 * n + d) n

/-- The digits at the front, and the characters after them. -/
def spanDigits : List Char → List Nat × List Char
  | [] => ([], [])
  | c :: cs =>
    match digit? c with
    | some d => let (ds, rest) := spanDigits cs; (d :: ds, rest)
    | none => ([], c :: cs)

/-- The characters of a number without the underscores that group its digits; `none` if one stands
anywhere but between two digits. `afterDigit` tells whether a digit stands in front. -/
def ungrouped? (afterDigit : Bool) : List Char → Option (List Char)
  | [] => some []
  | c :: cs =>
    if c = '_' then
      if afterDigit && cs.head?.any fun d => (digit? d).isSome then ungrouped? false cs else none
    else (ungrouped? (digit? c).isSome cs).map (c :: ·)

end FormulaBook.Text
