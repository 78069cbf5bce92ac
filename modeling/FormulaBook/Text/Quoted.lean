import FormulaBook.Text.Printable

/-!
# Quoted texts

A text in single quotes, in which it can be read unmistakably. If it holds single quotes and no
double ones, it stands in double quotes. A backslash goes before the quote that is used and before
every backslash; characters that would not show are written by their codes.
-/

namespace FormulaBook.Text

/-- The quote a text stands in. -/
def quoteMark (cs : List Char) : Char := if cs.contains '\'' && !cs.contains '"' then '"' else '\''

/-- The hexadecimal digits of a number, `width` of them at least. -/
def hexDigits (width n : Nat) : List Char :=
  let ds := Nat.toDigits 16 n
  List.replicate (width - ds.length) '0' ++ ds

/-- A character by its code, in two, four or eight digits. -/
def codeEscape (c : Char) : List Char :=
  let n := c.toNat
  if n < 0x100 then '\\' :: 'x' :: hexDigits 2 n
  else if n < 0x10000 then '\\' :: 'u' :: hexDigits 4 n
  else '\\' :: 'U' :: hexDigits 8 n

/-- A character as it stands between quotes. -/
def quoteChar (mark c : Char) : List Char :=
  if c = mark ∨ c = '\\' then ['\\', c]
  else if c = '\n' then ['\\', 'n']
  else if c = '\r' then ['\\', 'r']
  else if c = '\t' then ['\\', 't']
  else if isPrintable c then [c]
  else codeEscape c

/-- A text in quotes. -/
def quoted (s : String) : String :=
  let mark := quoteMark s.toList
  String.ofList (mark :: s.toList.flatMap (quoteChar mark) ++ [mark])

end FormulaBook.Text
