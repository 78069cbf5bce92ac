import FormulaBook.Text.Blank
import FormulaBook.Text.Name

/-!
# Looking at a formula without parsing it

What can be said of a formula that does not parse: the names and operator symbols that occur in
its text, its pieces, and a guess at the operation it performs. Nothing here depends on the
grammar.
-/

namespace FormulaBook.RawScan

open Text

/-- The words that never count as names, whatever their case. -/
def reserved : List String := ["and", "or", "not"]

/-- A maximal run of characters that may stand in a name, with the character before it. -/
structure Run where
  before : Option Char
  text : List Char

/-- The run that has just ended, given in reverse; no run for no characters. -/
def endRun (before : Option Char) (run : List Char) : List Run :=
  if run.isEmpty then [] else [⟨before, run.reverse⟩]

/-- The runs of name characters in a text. The characters of a run that has begun are in `run`, the
last one first, and `before` is the character in front of it. -/
def runsFrom (before : Option Char) (run : List Char) : List Char → List Run
  | [] => endRun before run
  | c :: cs =>
    if continuesName c then runsFrom before (c :: run) cs
    else endRun before run ++ runsFrom (some c) [] cs

/-- Whether a run counts as a name: it starts like one, it is not the tail of a number, and it is
not reserved. -/
def Run.isVariable (r : Run) : Bool :=
  r.text.head?.any startsName && r.before != some '.' &&
    !reserved.contains (String.ofList (r.text.map Char.toLower))

/-- The distinct names in a text, each at its first occurrence. -/
def vars (s : String) : List String :=
  (((runsFrom none [] s.toList).filter Run.isVariable).map (String.ofList ·.text)).eraseDups

/-- The operator symbols in a text, with all repetitions. Two adjacent stars are one symbol, and a
caret is reported as two stars. -/
def symbolsFrom : List Char → List String
  | [] => []
  | '*' :: '*' :: cs => "**" :: symbolsFrom cs
  | '^' :: cs => "**" :: symbolsFrom cs
  | c :: cs =>
    if c ∈ ['+', '-', '*', '/', '%'] then String.singleton c :: symbolsFrom cs else symbolsFrom cs

/-- The operator symbols in a text, as a set. -/
def operators (s : String) : List String := ascending (symbolsFrom s.toList)

/-- The pieces of a text: its words, with every parenthesis a piece of its own. -/
def pieces (s : String) : List String :=
  words (s.toList.flatMap fun c => if c = '(' ∨ c = ')' then [' ', c, ' '] else [c])

/-- The sign shown for the operation of a formula that does not parse: the first of minus, divide
and times that occurs in it, or else plus. -/
def operation (s : String) : String :=
  if '-' ∈ s.toList then "−"
  else if '/' ∈ s.toList then "÷"
  else if '*' ∈ s.toList then "×"
  else "+"

end FormulaBook.RawScan
