import FormulaBook.Text.Case

/-!
# Texts in lower case

Every letter goes to its lower case by itself, but for two: the capital I with a dot becomes two
characters, and the capital sigma takes its final form at the end of a word. Ignored characters,
such as apostrophes and accents, do not count as neighbours there.
-/

namespace FormulaBook.Text

/-- Whether a cased character comes next, ignored ones aside. -/
def beforeCased : List Char → Bool
  | [] => false
  | c :: cs => if isCaseIgnored c then beforeCased cs else isCased c

/-- The lower case of a character in front of the characters `rest`; `afterCased` tells whether a
cased character came before it, ignored ones aside. -/
def lowerAt (afterCased : Bool) (c : Char) (rest : List Char) : List Char :=
  if c = 'Σ' then [if afterCased && !beforeCased rest then 'ς' else 'σ']
  else if c = 'İ' then ['i', '\u0307']
  else [lowerLetter c]

/-- The lower case of characters; `afterCased` tells whether a cased character came before them,
ignored ones aside. -/
def lowerFrom (afterCased : Bool) : List Char → List Char
  | [] => []
  | c :: cs =>
    lowerAt afterCased c cs ++
      lowerFrom (if isCaseIgnored c then afterCased else isCased c) cs

/-- A text in lower case. -/
def lower (s : String) : String := String.ofList (lowerFrom false s.toList)

end FormulaBook.Text
