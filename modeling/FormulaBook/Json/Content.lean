import FormulaBook.Text.Blank

/-!
# The contents of JSON strings

A JSON string can name any UTF-16 code unit, also half of a surrogate pair on its own, which is no
character. `Content.ofCodes` joins the pairs and yields a text if nothing is left over; otherwise
the codes are kept as they are, so that different strings stay different. `Content.display` puts
the replacement character where a half has no partner.
-/

namespace FormulaBook.Json

/-- Whether a code is the first half of a pair of surrogates. -/
def isHighSurrogate (n : Nat) : Bool := 0xD800 ≤ n && n < 0xDC00

/-- Whether a code is the second half of a pair of surrogates. -/
def isLowSurrogate (n : Nat) : Bool := 0xDC00 ≤ n && n < 0xE000

/-- Whether a code is half of a pair of surrogates. -/
def isSurrogate (n : Nat) : Bool := isHighSurrogate n || isLowSurrogate n

/-- What a JSON string holds: a text, or the codes of one in which surrogates are unpaired. -/
inductive Content where
  | text (s : String)
  | broken (codes : List Nat)
deriving DecidableEq

namespace Content

/-- A text is content without lone surrogates. -/
instance : Coe String Content := ⟨.text⟩

/-- A code in front of others; the two halves of a pair of surrogates make one character. -/
def joinCode (m : Nat) : List Nat → List Nat
  | [] => [m]
  | n :: rest =>
    if isHighSurrogate m && isLowSurrogate n then
      (0x10000 + (m - 0xD800) * 0x400 + (n - 0xDC00)) :: rest
    else m :: n :: rest

/-- The codes with every pair of surrogates joined to the code of its character. -/
def joinPairs (codes : List Nat) : List Nat := codes.foldr joinCode []

/-- The content of a sequence of codes. -/
def ofCodes (codes : List Nat) : Content :=
  let codes := joinPairs codes
  if codes.any isSurrogate then .broken codes else .text (String.ofList (codes.map Char.ofNat))

/-- The character of a code; the replacement character for a surrogate. -/
def displayCode (n : Nat) : Char := if isSurrogate n then '\uFFFD' else Char.ofNat n

/-- The content as a text. -/
def display : Content → String
  | .text s => s
  | .broken codes => String.ofList (codes.map displayCode)

/-- The content without the blanks at either end. -/
def trim : Content → Content
  | .text s => .text (Text.trim s)
  | .broken codes =>
    .broken ((codes.dropWhile Text.isBlankCode).reverse.dropWhile Text.isBlankCode).reverse

/-- Whether there is nothing but blanks. -/
def isBlank (c : Content) : Bool := c.trim = .text ""

/-- The text, unless the content is broken. -/
def text? : Content → Option String
  | .text s => some s
  | .broken _ => none

end Content

end FormulaBook.Json
