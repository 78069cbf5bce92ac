import FormulaBook.Json.Scan
import FormulaBook.Keyed.Basic

/-!
# Reading JSON

`Json.read?` reads the value of a JSON text. Tokens are read one by one; the arrays and objects
that are still open are kept from the inside out. A key that an object already has keeps its place
and takes the new value.
-/

namespace FormulaBook.Json

/-- An array or object that is still open, with what it holds; in an object the value of `key` is
due. -/
inductive Frame where
  | array (items : List Json)
  | object (fields : List (Content × Json)) (key : Content)

/-- What is due next, inside the open frames. -/
inductive State where
  /-- A value. -/
  | value (frames : List Frame)
  /-- A value, or the end of an array that was just opened. -/
  | firstItem (frames : List Frame)
  /-- A key. -/
  | key (fields : List (Content × Json)) (frames : List Frame)
  /-- A key, or the end of an object that was just opened. -/
  | firstKey (frames : List Frame)
  /-- The colon after a key. -/
  | colon (fields : List (Content × Json)) (key : Content) (frames : List Frame)
  /-- A comma or a closing bracket after a value, or the end of the text. -/
  | after (j : Json) (frames : List Frame)

/-- The state after a token with which a value starts. -/
def openValue (frames : List Frame) : Token → Option State
  | .string s => some (.after (.string s) frames)
  | .scalar j => some (.after j frames)
  | .openArray => some (.firstItem frames)
  | .openObject => some (.firstKey frames)
  | _ => none

/-- The state after one more token. -/
def State.step : State → Token → Option State
  | .value frames, t => openValue frames t
  | .firstItem frames, .closeArray => some (.after (.array []) frames)
  | .firstItem frames, t => openValue (.array [] :: frames) t
  | .key fields frames, .string s => some (.colon fields s frames)
  | .firstKey frames, .string s => some (.colon [] s frames)
  | .firstKey frames, .closeObject => some (.after (.object []) frames)
  | .colon fields k frames, .colon => some (.value (.object fields k :: frames))
  | .after j (.array items :: frames), .comma => some (.value (.array (items ++ [j]) :: frames))
  | .after j (.array items :: frames), .closeArray =>
    some (.after (.array (items ++ [j])) frames)
  | .after j (.object fields k :: frames), .comma => some (.key (Keyed.put k j fields) frames)
  | .after j (.object fields k :: frames), .closeObject =>
    some (.after (.object (Keyed.put k j fields)) frames)
  | _, _ => none

/-- The value that some tokens complete. -/
def run? : State → List Token → Option Json
  | .after j [], [] => some j
  | _, [] => none
  | s, t :: ts => do run? (← s.step t) ts

/-- The value of a JSON text. -/
def read? (s : String) : Option Json := do run? (.value []) (← scan? s)

end FormulaBook.Json
