/-!
# UTF-8 in blocks

A text that comes as bytes is decoded block by block. A block with a byte that cannot stand where
it does is lost as a whole, and so is all that follows; the end of the bytes inside a character
costs only that character. `Utf8.decode` yields what is left of the text.
-/

namespace FormulaBook.Text.Utf8

/-- A character whose bytes are not all there: its code so far, how many bytes are still due, and
the least and the greatest value of the next one. -/
structure Pending where
  code : Nat
  due : Nat
  low : Nat := 0x80
  high : Nat := 0xBF

/-- The character that a byte begins; `none` if it begins none. The bounds of the second byte leave
out longer forms than needed and codes above the last character. -/
def first? (b : Nat) : Option Pending :=
  if b < 0x80 then some { code := b, due := 0 }
  else if b < 0xC2 then none
  else if b < 0xE0 then some { code := b - 0xC0, due := 1 }
  else if b = 0xE0 then some { code := 0, due := 2, low := 0xA0 }
  else if b < 0xF0 then some { code := b - 0xE0, due := 2 }
  else if b = 0xF0 then some { code := 0, due := 3, low := 0x90 }
  else if b < 0xF4 then some { code := b - 0xF0, due := 3 }
  else if b = 0xF4 then some { code := b - 0xF0, due := 3, high := 0x8F }
  else none

/-- Whether a code with one byte due is that of surrogates. -/
def beginsSurrogate (code : Nat) : Bool := 0x360 ≤ code && code < 0x380

/-- The character with one more byte; `none` if the byte cannot stand there. A surrogate is refused
at its third byte, whatever that is. -/
def Pending.next? (p : Pending) (b : Nat) : Option Pending :=
  if p.low ≤ b ∧ b ≤ p.high then
    let code := p.code * 0x40 + (b - 0x80)
    if p.due = 2 ∧ beginsSurrogate code then some { code, due := 1, low := 0x100 }
    else some { code, due := p.due - 1 }
  else none

/-- The character after one more byte, whether it begins with it or has begun. -/
def step? : Option Pending → Nat → Option Pending
  | none, b => first? b
  | some p, b => p.next? b

/-- The number of bytes in a block. -/
def blockSize : Nat := 8192

/-- Decodes bytes, of which `count` were read before. They gave the characters `chars`, those of
earlier blocks `kept`, both in reverse, and `pending?` is the character that has begun. -/
def decodeFrom (count : Nat) (kept chars : List Char) (pending? : Option Pending) :
    List UInt8 → List Char
  | [] => chars.reverse
  | b :: bs =>
    let kept := if count % blockSize = 0 then chars else kept
    match step? pending? b.toNat with
    | none => kept.reverse
    | some p =>
      if p.due = 0 then decodeFrom (count + 1) kept (Char.ofNat p.code :: chars) none bs
      else decodeFrom (count + 1) kept chars (some p) bs

/-- The characters that can be decoded of some bytes. -/
def decode (bytes : ByteArray) : List Char := decodeFrom 0 [] [] none bytes.data.toList

end FormulaBook.Text.Utf8
