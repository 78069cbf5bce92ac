/-!
# Paths

A path is a sequence of components, relative or from the root. Repeated and trailing slashes and the
component `.` say nothing and are dropped; `..` is kept.
-/

namespace FormulaBook

/-- A path in its simplest form. The root is one slash, two if the path began with exactly two. -/
structure Path where
  root : String
  components : List String
deriving DecidableEq

namespace Path

/-- The path a text denotes. -/
def ofString (s : String) : Path where
  root :=
    let slashes := (s.toList.takeWhile (· == '/')).length
    if slashes = 0 then "" else if slashes = 2 then "//" else "/"
  components := ((s.toList.splitOn '/').map String.ofList).filter fun c => c != "" && c != "."

/-- The text of a path; the current directory is a point. -/
def text (p : Path) : String :=
  if p.root = "" ∧ p.components = [] then "." else p.root ++ "/".intercalate p.components

/-- The last component; empty if there is none. -/
def name (p : Path) : String := p.components.getLast?.getD ""

/-- What follows the last point of the name, with the point; nothing if the point is the first or
last character of the name. -/
def suffix (p : Path) : String :=
  let reversed := p.name.toList.reverse
  let extension := reversed.takeWhile (· != '.')
  let stem := (reversed.dropWhile (· != '.')).drop 1
  if extension.isEmpty ∨ stem.isEmpty then "" else String.ofList ('.' :: extension.reverse)

/-- The path of `s` seen from the directory `directory`; one that starts at the root stays as it
is. -/
def join (directory s : String) : String :=
  if s.toList.head? = some '/' then s else directory ++ "/" ++ s

/-- The most bytes a component may have. -/
def maxComponentSize : Nat := 255

/-- The most bytes the text of a path may have. -/
def maxSize : Nat := 4095

/-- Whether a component is too long for anything to be found under it. -/
def isLongComponent (c : String) : Bool := maxComponentSize < c.utf8ByteSize

/-- Whether the text of a path is too long for anything to be found under it. -/
def isLong (p : Path) : Bool := maxSize < p.text.utf8ByteSize

end Path

end FormulaBook
