import FormulaBook.Json.Content
import FormulaBook.Text.Quoted

/-!
# JSON values and how they are written

A JSON value keeps the fields of its objects in order and its numbers as they are spelled.
`Json.text` writes a value over several lines, one item or field a line, indented by two
blanks at every nesting; empty arrays and objects stay on one line. In strings only the quote, the
backslash and the control characters are escaped.
-/

namespace FormulaBook

/-- A JSON value. -/
inductive Json where
  | null
  | bool (b : Bool)
  | number (spelling : String)
  | string (s : Json.Content)
  | array (items : List Json)
  | object (fields : List (Json.Content × Json))

namespace Json

/-- The string a value is. -/
def asContent? : Json → Option Content
  | .string s => some s
  | _ => none

/-- The value of the field with the given name. -/
def field? (name : String) (fields : List (Content × Json)) : Option Json :=
  fields.lookup (Content.text name)

/-- The object with the given fields. -/
def ofFields (fields : List (String × Json)) : Json :=
  .object (fields.map fun f => (.text f.1, f.2))

/-- The integer as a number. -/
def ofInt (n : Int) : Json := .number (toString n)

/-- The array of some strings. -/
def ofStrings (l : List String) : Json := .array (l.map fun s : String => .string s)

/-! ## Writing -/

/-- A character as it stands in a string. -/
def escape (c : Char) : List Char :=
  if c = '"' then ['\\', '"']
  else if c = '\\' then ['\\', '\\']
  else if c = '\n' then ['\\', 'n']
  else if c = '\r' then ['\\', 'r']
  else if c = '\t' then ['\\', 't']
  else if c = '\x08' then ['\\', 'b']
  else if c = '\x0c' then ['\\', 'f']
  else if c.toNat < 0x20 then '\\' :: 'u' :: Text.hexDigits 4 c.toNat
  else [c]

/-- A string in quotes. -/
def quoted (s : String) : List Char := '"' :: s.toList.flatMap escape ++ ['"']

/-- A new line at the given nesting. -/
def newline (level : Nat) : List Char := '\n' :: List.replicate (2 * level) ' '

mutual

/-- A value at the given nesting. -/
def write (level : Nat) : Json → List Char
  | .null => "null".toList
  | .bool b => (if b then "true" else "false").toList
  | .number spelling => spelling.toList
  | .string s => quoted s.display
  | .array [] => ['[', ']']
  | .array (j :: js) =>
    '[' :: newline (level + 1) ++ write (level + 1) j ++ writeItems (level + 1) js ++
      newline level ++ [']']
  | .object [] => ['\x7b', '\x7d']
  | .object ((key, j) :: fields) =>
    '\x7b' :: newline (level + 1) ++ quoted key.display ++ [':', ' '] ++ write (level + 1) j ++
      writeFields (level + 1) fields ++ newline level ++ ['\x7d']

/-- The items of an array after the first. -/
def writeItems (level : Nat) : List Json → List Char
  | [] => []
  | j :: js => ',' :: newline level ++ write level j ++ writeItems level js

/-- The fields of an object after the first. -/
def writeFields (level : Nat) : List (Content × Json) → List Char
  | [] => []
  | (key, j) :: fields =>
    ',' :: newline level ++ quoted key.display ++ [':', ' '] ++ write level j ++
      writeFields level fields

end

/-- The text of a value. -/
def text (j : Json) : String := String.ofList (write 0 j)

end Json

end FormulaBook
