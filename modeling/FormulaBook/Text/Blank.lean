/-!
# Blank characters

Which characters separate words, and the operations that depend on it: `trim` drops the blanks
around a text, `words` lists its maximal runs of other characters, and `unspaced` drops every
blank. Blank are the characters of the Unicode property White_Space and the four information
separators U+001C to U+001F; zero-width characters are not.
-/

namespace FormulaBook.Text

/-- The code points from `first` to `last`, both included. -/
structure Range where
  first : Nat
  last : Nat

/-- Whether a code point lies in the range. -/
def Range.holds (r : Range) (n : Nat) : Bool := r.first ≤ n && n ≤ r.last

/-- The blank characters, as ranges that ascend and stay apart. -/
def blankRanges : List Range :=
  [⟨0x09, 0x0D⟩, ⟨0x1C, 0x20⟩, ⟨0x85, 0x85⟩, ⟨0xA0, 0xA0⟩, ⟨0x1680, 0x1680⟩, ⟨0x2000, 0x200A⟩,
    ⟨0x2028, 0x2029⟩, ⟨0x202F, 0x202F⟩, ⟨0x205F, 0x205F⟩, ⟨0x3000, 0x3000⟩]

/-- Whether a code point is that of a blank character. -/
def isBlankCode (n : Nat) : Bool := blankRanges.any (·.holds n)

/-- Whether a character is blank. -/
def isBlank (c : Char) : Bool := isBlankCode c.toNat

/-- Every character the core library calls white space is blank; the ranges only add to it. -/
theorem isBlank_of_isWhitespace {c : Char} (h : c.isWhitespace = true) : isBlank c = true := by
  simp only [Char.isWhitespace, Bool.or_eq_true, decide_eq_true_eq] at h
  rcases h with ((rfl | rfl) | rfl) | rfl <;> decide

/-- The characters without the blanks in front. -/
def trimLeft (cs : List Char) : List Char := cs.dropWhile isBlank

/-- The text without the blanks at either end. -/
def trim (s : String) : String :=
  String.ofList (trimLeft (trimLeft s.toList).reverse).reverse

/-- Whether a character may stand around a number: a blank, but no information separator. -/
def isPadding (c : Char) : Bool := isBlank c && !(0x1C ≤ c.toNat && c.toNat ≤ 0x1F)

/-- The characters of a number without what stands around it. -/
def unpadded (cs : List Char) : List Char :=
  ((cs.dropWhile isPadding).reverse.dropWhile isPadding).reverse

/-- The text without any blank. -/
def unspaced (s : String) : String := String.ofList (s.toList.filter (!isBlank ·))

/-- The maximal runs of characters that satisfy `p`, in order. -/
def runs (p : Char → Bool) : List Char → List (List Char)
  | [] => []
  | c :: cs =>
    if p c then
      match cs.head?.any p, runs p cs with
      | true, run :: rest => (c :: run) :: rest
      | _, rest => [c] :: rest
    else runs p cs

/-- The words of a text: its maximal runs of characters that are not blank. -/
def words (cs : List Char) : List String := (runs (!isBlank ·) cs).map String.ofList

end FormulaBook.Text
