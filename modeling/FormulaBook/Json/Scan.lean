import FormulaBook.Json.Basic

/-!
# Scanning JSON

A JSON text is cut into tokens: the six structural characters, strings, and words, which are the
constants and the numbers. Besides the constants of the standard, `NaN`, `Infinity` and `-Infinity`
are read as numbers. A text that cannot be cut is refused: an unknown word, a character that stands
nowhere, a control character or an unknown escape in a string, or an integer of more than 4300
digits.
-/

namespace FormulaBook.Json

/-- The tokens of a JSON text. -/
inductive Token where
  | openArray
  | closeArray
  | openObject
  | closeObject
  | comma
  | colon
  | string (s : Content)
  | scalar (j : Json)

/-! ## Words -/

/-- The characters words are made of. -/
def isWordChar (c : Char) : Bool := c.isAlphanum || c == '+' || c == '-' || c == '.'

/-- Digits at the front, at least one, and the rest. -/
def skipDigits? (cs : List Char) : Option (List Char × List Char) :=
  let ds := cs.takeWhile Char.isDigit
  if ds.isEmpty then none else some (ds, cs.dropWhile Char.isDigit)

/-- Whether the characters are an exponent or nothing. -/
def isExponent : List Char → Bool
  | [] => true
  | e :: cs =>
    let digits := match cs with
      | '+' :: ds | '-' :: ds => ds
      | ds => ds
    (e == 'e' || e == 'E') && !digits.isEmpty && digits.all Char.isDigit

/-- The most digits an integer may have. -/
def maxIntegerDigits : Nat := 4300

/-- Whether the characters, without a minus in front, are a number: no superfluous zero in front,
and digits on both sides of a point. -/
def isNumber (cs : List Char) : Bool :=
  match skipDigits? cs with
  | none => false
  | some (whole, rest) =>
    let wholeOk := whole.head? != some '0' || whole.length == 1
    match rest with
    | [] => wholeOk && decide (whole.length ≤ maxIntegerDigits)
    | '.' :: rest =>
      match skipDigits? rest with
      | none => false
      | some (_, rest) => wholeOk && isExponent rest
    | rest => wholeOk && isExponent rest

/-- The token of a word. -/
def ofWord? (cs : List Char) : Option Token :=
  let s := String.ofList cs
  if s = "null" then some (.scalar .null)
  else if s = "true" then some (.scalar (.bool true))
  else if s = "false" then some (.scalar (.bool false))
  else if s = "NaN" ∨ s = "Infinity" ∨ s = "-Infinity" then some (.scalar (.number s))
  else
    let unsigned := match cs with
      | '-' :: cs => cs
      | cs => cs
    if isNumber unsigned then some (.scalar (.number s)) else none

/-! ## Strings -/

/-- The character an escape letter stands for. -/
def unescape? (c : Char) : Option Char :=
  if c = '"' ∨ c = '\\' ∨ c = '/' then some c
  else if c = 'n' then some '\n'
  else if c = 'r' then some '\r'
  else if c = 't' then some '\t'
  else if c = 'b' then some '\x08'
  else if c = 'f' then some '\x0c'
  else none

/-- The value of a hexadecimal digit. -/
def hexDigit? (c : Char) : Option Nat :=
  if c.isDigit then some (c.toNat - '0'.toNat)
  else if 'a' ≤ c ∧ c ≤ 'f' then some (c.toNat - 'a'.toNat + 10)
  else if 'A' ≤ c ∧ c ≤ 'F' then some (c.toNat - 'A'.toNat + 10)
  else none

/-- The token of a string, whose codes are given in reverse. -/
def ofString (codes : List Nat) : Token := .string (.ofCodes codes.reverse)

/-! ## Texts -/

/-- Where in a text the scanner is. What has been read of a word or a string is kept in reverse. -/
inductive Mode where
  | between
  | word (chars : List Char)
  | string (codes : List Nat)
  | escape (codes : List Nat)
  /-- Inside a numeric escape, of which `count` digits with the given value have been read. -/
  | hex (codes : List Nat) (value count : Nat)

/-- The token a character is outside of words and strings: `some none` for white space. -/
def structural? (c : Char) : Option (Option Token) :=
  if c = ' ' ∨ c = '\t' ∨ c = '\n' ∨ c = '\r' then some none
  else if c = '[' then some (some .openArray)
  else if c = ']' then some (some .closeArray)
  else if c = '\x7b' then some (some .openObject)
  else if c = '\x7d' then some (some .closeObject)
  else if c = ',' then some (some .comma)
  else if c = ':' then some (some .colon)
  else none

/-- The token of a word that has just ended, in front of the tokens after it. -/
def endWord (chars : List Char) (rest : Option (List Token)) : Option (List Token) := do
  let t ← ofWord? chars.reverse
  let ts ← rest
  some (t :: ts)

/-- The tokens of the characters read in the given mode. -/
def scanFrom : Mode → List Char → Option (List Token)
  | .between, [] => some []
  | .word chars, [] => endWord chars (some [])
  | _, [] => none
  | .between, c :: cs =>
    if c = '"' then scanFrom (.string []) cs
    else if isWordChar c then scanFrom (.word [c]) cs
    else
      match structural? c with
      | some (some t) => (scanFrom .between cs).map (t :: ·)
      | some none => scanFrom .between cs
      | none => none
  | .word chars, c :: cs =>
    if isWordChar c then scanFrom (.word (c :: chars)) cs
    else if c = '"' then endWord chars (scanFrom (.string []) cs)
    else
      match structural? c with
      | some (some t) => endWord chars ((scanFrom .between cs).map (t :: ·))
      | some none => endWord chars (scanFrom .between cs)
      | none => none
  | .string codes, c :: cs =>
    if c = '"' then (scanFrom .between cs).map (ofString codes :: ·)
    else if c = '\\' then scanFrom (.escape codes) cs
    else if c.toNat < 0x20 then none
    else scanFrom (.string (c.toNat :: codes)) cs
  | .escape codes, c :: cs =>
    if c = 'u' then scanFrom (.hex codes 0 0) cs
    else
      match unescape? c with
      | some d => scanFrom (.string (d.toNat :: codes)) cs
      | none => none
  | .hex codes value count, c :: cs =>
    match hexDigit? c with
    | none => none
    | some d =>
      if count = 3 then scanFrom (.string ((16 * value + d) :: codes)) cs
      else scanFrom (.hex codes (16 * value + d) (count + 1)) cs

/-- The tokens of a text. -/
def scan? (s : String) : Option (List Token) := scanFrom .between s.toList

end FormulaBook.Json
