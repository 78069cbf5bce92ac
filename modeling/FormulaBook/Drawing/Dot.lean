import FormulaBook.Drawing.Graph
import FormulaBook.Number.Notation
import FormulaBook.Text.Lower
import FormulaBook.Text.Name
import FormulaBook.Text.Quoted

/-!
# Graphs in the DOT language

A graph is written as a digraph of the DOT language with every node pinned to its place. Positions
are in inches, with two places, and the y axis points upwards. `Dot.quote` writes a text as an
identifier of the language; the ends of edges are first taken apart at colons, since the language
reads `node:place:direction` there.
-/

namespace FormulaBook.Dot

/-! ## Identifiers -/

/-- The words that cannot be identifiers without quotes, whatever their case. -/
def keywords : List String := ["node", "edge", "graph", "digraph", "subgraph", "strict"]

/-- Digits with at most one point among them, and a digit in front of the point or after it. -/
def isNumeral (cs : List Char) : Bool :=
  let whole := cs.takeWhile Char.isDigit
  match cs.dropWhile Char.isDigit with
  | [] => !whole.isEmpty
  | c :: places => c == '.' && places.all Char.isDigit && !(whole.isEmpty && places.isEmpty)

/-- The characters without a line feed at their very end; the form of a text is read off them. -/
def withoutLineEnd (cs : List Char) : List Char :=
  if cs.getLast? = some '\n' then cs.dropLast else cs

/-- Whether a text is an identifier as it stands: a name, or a numeral with perhaps a minus in
front, and no keyword. -/
def isBare (s : String) : Bool :=
  let body := withoutLineEnd s.toList
  let numeral := match body with
    | '-' :: cs => isNumeral cs
    | cs => isNumeral cs
  (Text.isName (String.ofList body) || numeral) &&
    !keywords.contains (String.ofList (s.toList.map Char.toLower))

/-- Whether a text is markup, which is written as it stands. -/
def isMarkup (s : String) : Bool :=
  s.toList.head? == some '<' && (withoutLineEnd s.toList).getLast? == some '>'

/-- The characters with a backslash before every quote that has none. A quote has one if an odd
number of backslashes stands before it; `odd` tells whether that holds of those just written. -/
def escapeQuotes (odd : Bool) : List Char → List Char
  | [] => []
  | c :: cs =>
    if c = '\\' then c :: escapeQuotes (!odd) cs
    else if c = '"' ∧ odd = false then '\\' :: c :: escapeQuotes false cs
    else c :: escapeQuotes false cs

/-- A text as an identifier. -/
def quote (s : String) : String :=
  if isMarkup s || isBare s then s
  else "\"" ++ String.ofList (escapeQuotes false s.toList) ++ "\""

/-- The characters before the first colon, and those after it. -/
def splitColon (s : String) : String × String :=
  (String.ofList (s.toList.takeWhile (· != ':')),
    String.ofList ((s.toList.dropWhile (· != ':')).drop 1))

/-- A text as the end of an edge: a node, a place on it and a direction, as far as there are any. -/
def quoteEnd (s : String) : String :=
  let (node, rest) := splitColon s
  if rest = "" then quote node
  else
    let (place, direction) := splitColon rest
    quote node ++ ":" ++ quote place ++ (if direction = "" then "" else ":" ++ direction)

/-! ## Statements -/

/-- An attribute with its value. -/
structure Attribute where
  name : String
  value : String
deriving DecidableEq

/-- The attributes in brackets. -/
def attributeList (attributes : List Attribute) : String :=
  "[" ++ " ".intercalate (attributes.map fun a => a.name ++ "=" ++ quote a.value) ++ "]"

/-- A statement of a digraph: a node or an edge with its attributes. -/
inductive Statement where
  | node (id : String) (attributes : List Attribute)
  | edge (source target : String) (attributes : List Attribute)
deriving DecidableEq

/-- The line of a statement. -/
def Statement.line : Statement → String
  | .node id attributes => "\t" ++ quote id ++ " " ++ attributeList attributes ++ "\n"
  | .edge source target attributes =>
    "\t" ++ quoteEnd source ++ " -> " ++ quoteEnd target ++ " " ++ attributeList attributes ++ "\n"

/-- The digraph of some statements under a comment. -/
def digraph (comment : String) (statements : List Statement) : String :=
  "// " ++ comment ++ "\ndigraph \x7b\n" ++
    "\toverlap=false splines=true\n" ++
    "\tnode [fontsize=10 style=filled]\n" ++
    String.join (statements.map Statement.line) ++ "\x7d\n"

/-! ## Graphs -/

/-- The units of layout coordinates in an inch. -/
def pointsPerInch : Nat := 72

/-- A pinned position. Layout coordinates grow downwards. -/
def position (x y : Binary64) : String :=
  (x.divNat pointsPerInch).fixed 2 ++ "," ++ ((-y).divNat pointsPerInch).fixed 2 ++ "!"

/-- The fill colour and the shape of a kind of node. -/
def nodeStyle : NodeKind → String × String
  | .result => ("palegreen", "box")
  | .operation => ("lightgoldenrodyellow", "circle")
  | .quantity => ("lightskyblue", "ellipse")

/-- The line style of a kind of edge. -/
def edgeStyle : EdgeKind → String
  | .input => "solid"
  | .output => "bold"
  | .direct => "dashed"

/-- The statement of a node. -/
def ofNode (n : Node Binary64) : Statement :=
  let (fill, shape) := nodeStyle n.kind
  .node n.id [⟨"label", n.label⟩, ⟨"fillcolor", fill⟩, ⟨"pos", position n.x n.y⟩, ⟨"shape", shape⟩]

/-- The statement of an edge. -/
def ofEdge (e : Edge) : Statement :=
  let style : Attribute := ⟨"style", edgeStyle e.kind⟩
  match e.operation with
  | some operation => .edge e.source e.target [⟨"label", operation⟩, style]
  | none => .edge e.source e.target [style]

/-- A graph under a title, in the DOT language. -/
def source (g : Graph Binary64) (title : String) : String :=
  digraph ("Expression graph for " ++ title) (g.nodes.map ofNode ++ g.edges.map ofEdge)

/-! ## Rendering -/

/-- The program that honours pinned positions. -/
def engine : String := "neato"

/-- The output formats of the renderer. -/
def formats : List String :=
  ["bmp", "canon", "dot", "gv", "xdot", "xdot1.2", "xdot1.4", "cgimage", "cmap", "eps", "exr",
    "fig", "gd", "gd2", "gif", "gtk", "ico", "imap", "cmapx", "imap_np", "cmapx_np", "ismap",
    "jp2", "jpg", "jpeg", "jpe", "json", "json0", "dot_json", "xdot_json", "pct", "pict", "pdf",
    "pic", "plain", "plain-ext", "png", "pov", "ps", "ps2", "psd", "sgi", "svg", "svg_inline",
    "svgz", "tga", "tif", "tiff", "tk", "vml", "vmlz", "vrml", "wbmp", "webp", "xlib", "x11"]

/-- The format of the given name, in lower case; `none` if the renderer does not know it. -/
def format? (name : String) : Option String :=
  if formats.contains (Text.lower name) then some (Text.lower name) else none

/-- The message about a name that is no format; it lists the formats. -/
def unknownFormat (name : String) : String :=
  "unknown format: " ++ Text.quoted (Text.lower name) ++ " (must be one of [" ++
    ", ".intercalate ((Text.ascending formats).map Text.quoted) ++ "])"

end FormulaBook.Dot
