import FormulaBook.Token.Basic
import FormulaBook.Number.Literal
import FormulaBook.Text.Blank

/-!
# Scanning a formula

`Token.scan` cuts a text into tokens. Parentheses and the operators `+ - * / ^ **` are tokens of
their own, two adjacent stars being one operator; every maximal run of other characters that are
not blank is one token, a number if it reads as a number literal and an identifier otherwise.
Whether an identifier is well formed is left to the grammar, so no text is ever refused here.
-/

namespace FormulaBook.Token

open Text

/-- The characters that are an operator on their own. -/
def isOperatorChar (c : Char) : Bool := c == '+' || c == '-' || c == '*' || c == '/' || c == '^'

/-- The characters that words are made of: no blanks, operators or parentheses. -/
def isWordChar (c : Char) : Bool := !(isBlank c || isOperatorChar c || c == '(' || c == ')')

/-- The token for a word. -/
def ofWord (cs : List Char) (position : Int) : Token :=
  match Decimal.ofLiteral? cs with
  | some d => ⟨.number, .number (Binary64.ofDecimal false d), position⟩
  | none => ⟨.identifier, .text (String.ofList cs), position⟩

/-- The token for a word that has just ended before `position`, given in reverse; no token for no
characters. -/
def endWord (word : List Char) (position : Nat) : List Token :=
  if word.isEmpty then [] else [ofWord word.reverse ((position - word.length : Nat) : Int)]

/-- The tokens of the characters from `position` on. The characters of a word that has begun before
them are in `word`, the last one first. -/
def scanFrom (word : List Char) (position : Nat) : List Char → List Token
  | [] => endWord word position
  | '*' :: '*' :: cs =>
    endWord word position ++ ofOperator "**" position :: scanFrom [] (position + 2) cs
  | c :: cs =>
    if isWordChar c then scanFrom (c :: word) (position + 1) cs
    else
      let rest := scanFrom [] (position + 1) cs
      endWord word position ++
        if isBlank c then rest
        else if c = '(' then ⟨.openParen, .text "(", position⟩ :: rest
        else if c = ')' then ⟨.closeParen, .text ")", position⟩ :: rest
        else ofOperator (String.singleton c) position :: rest

/-- The tokens of a formula, in the order of the text. -/
def scan (s : String) : List Token := scanFrom [] 0 s.toList

end FormulaBook.Token
