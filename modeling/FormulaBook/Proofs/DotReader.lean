import FormulaBook.Drawing.Dot

/-!
# Reading the DOT language

What a text in the DOT language says, by the rules of the language and without regard to how the
text was written. It is read in two passes, each by a transducer: characters into symbols
(`Dot.scanner`) and symbols into statements (`Dot.parser`). A comment goes on to the end of its
line, an identifier is a name, a numeral, a text in quotes or markup in angle brackets, and an end
of an edge is a node with at most two parts behind it, each after a colon. Settings and defaults are
read over. This is the part of the language for one digraph without a name, without subgraphs and
with a list of attributes behind every node and every edge.
-/

namespace FormulaBook

/-! ## Transducers -/

/-- A machine that reads symbol by symbol. In a state every symbol is refused or leads to a state,
with some output. -/
structure Transducer (σ ι ο : Type) where
  next? : σ → ι → Option (List ο × σ)
  finish? : σ → Option (List ο)

namespace Transducer

variable {σ ι ο : Type} {M : Transducer σ ι ο} {s t u : σ} {is js : List ι} {fs gs : List ο}

/-- The output on the way from a state, and the state that is reached. -/
def reach? (M : Transducer σ ι ο) : σ → List ι → Option (List ο × σ)
  | s, [] => some ([], s)
  | s, i :: is =>
    (M.next? s i).bind fun r => (M.reach? r.2 is).map fun rest => (r.1 ++ rest.1, rest.2)

/-- The whole output, unless a symbol is refused or the input stops where it must not. -/
def run? (M : Transducer σ ι ο) (s : σ) (is : List ι) : Option (List ο) :=
  (M.reach? s is).bind fun r => (M.finish? r.2).map (r.1 ++ ·)

/-- The input leads from one state to another with this output. -/
def Leads (M : Transducer σ ι ο) (s : σ) (is : List ι) (fs : List ο) (t : σ) : Prop :=
  M.reach? s is = some (fs, t)

/-- Whether an input leads from one state to another can be decided by running the machine. -/
instance [DecidableEq σ] [DecidableEq ο] : Decidable (M.Leads s is fs t) :=
  inferInstanceAs (Decidable (_ = _))

/-- Without input a machine stays where it is. -/
theorem Leads.nil (s : σ) : M.Leads s [] [] s := rfl

/-- A step and the way from there make one way. -/
theorem Leads.cons {i : ι} (hi : M.next? s i = some (fs, t)) (h : M.Leads t is gs u) :
    M.Leads s (i :: is) (fs ++ gs) u := by
  rw [Leads, reach?, hi, Option.bind_some, show M.reach? t is = some (gs, u) from h,
    Option.map_some]

/-- A symbol without output leads on. -/
theorem Leads.silent {i : ι} (hi : M.next? s i = some ([], t)) (h : M.Leads t is gs u) :
    M.Leads s (i :: is) gs u :=
  cons hi h

/-- A single step is a way. -/
theorem Leads.single {i : ι} (hi : M.next? s i = some (fs, t)) : M.Leads s [i] fs t := by
  have h := cons hi (.nil t)
  rwa [List.append_nil] at h

/-- Two ways, one behind the other, make one way. -/
theorem Leads.trans (h : M.Leads s is fs t) (h' : M.Leads t js gs u) :
    M.Leads s (is ++ js) (fs ++ gs) u := by
  induction is generalizing s fs with
  | nil =>
    obtain ⟨rfl, rfl⟩ := Prod.mk.inj (Option.some.inj h)
    exact h'
  | cons i is ih =>
    obtain ⟨⟨found, s'⟩, hi, hcons⟩ := Option.bind_eq_some_iff.mp h
    obtain ⟨⟨rest, t'⟩, hrest, hout⟩ := Option.map_eq_some_iff.mp hcons
    obtain ⟨rfl, rfl⟩ := Prod.mk.inj hout
    rw [List.append_assoc]
    exact .cons hi (ih hrest)

/-- Input that is only collected leads to where it is collected, the last symbol first. -/
theorem leads_of_collects (f : List ι → σ)
    (h : ∀ i ∈ is, ∀ read, M.next? (f read) i = some ([], f (i :: read))) (read : List ι) :
    M.Leads (f read) is [] (f (is.reverse ++ read)) := by
  induction is generalizing read with
  | nil => exact .nil _
  | cons i is ih =>
    rw [List.reverse_cons, List.append_assoc]
    exact .silent (h i List.mem_cons_self read) (ih (fun j hj => h j (List.mem_cons_of_mem _ hj)) _)

/-- On the way to a state a run puts out what leads there, and then what the state ends with. -/
theorem Leads.run?_eq (h : M.Leads s is fs t) : M.run? s is = (M.finish? t).map (fs ++ ·) := by
  rw [run?, show M.reach? s is = some (fs, t) from h, Option.bind_some]

end Transducer

namespace Dot

open Text

/-! ## Symbols -/

/-- An identifier: a text, or the inside of markup. -/
inductive Ident where
  | text (s : String)
  | markup (s : String)
deriving DecidableEq

/-- A symbol of the language. -/
inductive Symbol where
  | ident (i : Ident)
  | keyword (s : String)
  | mark (c : Char)
  | arrow
deriving DecidableEq

/-- The symbol that the characters of a name are, the last of them first. -/
def Symbol.ofName (read : List Char) : Symbol :=
  let lower := String.ofList (read.reverse.map Char.toLower)
  if keywords.contains lower then .keyword lower else .ident (.text (String.ofList read.reverse))

/-- The symbol that the characters of a numeral are, the last of them first. There is a digit among
them. -/
def Symbol.ofNumeral? (read : List Char) : Option Symbol :=
  if read.any Char.isDigit then some (.ident (.text (String.ofList read.reverse))) else none

/-- Where the scanner is, with the characters read of an open identifier, the last of them first: in
a name, in a numeral perhaps behind its point, in quotes perhaps behind a backslash, or in markup
with this many brackets open inside. -/
inductive Mode where
  | between
  | slash
  | comment
  | dash
  | name (read : List Char)
  | numeral (pointed : Bool) (read : List Char)
  | quoted (escaped : Bool) (read : List Char)
  | markup (depth : Nat) (read : List Char)
deriving DecidableEq

namespace Mode

/-- The marks of the language. -/
def marks : List Char := ['\x7b', '\x7d', '[', ']', '=', ':', ';', ',']

/-- The numeral that begins or goes on with a character. -/
def numeral? (read : List Char) (c : Char) : Option Mode :=
  if c = '.' then some (.numeral true (c :: read))
  else if c.isDigit then some (.numeral false (c :: read))
  else none

/-- What a character begins. -/
def begin? (c : Char) : Option (List Symbol × Mode) :=
  if c = ' ' ∨ c = '\t' ∨ c = '\n' ∨ c = '\r' then some ([], .between)
  else if c = '/' then some ([], .slash)
  else if c = '"' then some ([], .quoted false [])
  else if c = '<' then some ([], .markup 0 [])
  else if c = '-' then some ([], .dash)
  else if startsName c then some ([], .name [c])
  else if marks.contains c then some ([.mark c], .between)
  else (numeral? [] c).map ([], ·)

/-- What a character that does not belong to the symbol just read begins. -/
def beginAfter? (s : Symbol) (c : Char) : Option (List Symbol × Mode) :=
  (begin? c).map fun (found, m) => (s :: found, m)

/-- What a character leads to. A quote behind a backslash belongs to the text, a line end behind one
to nothing, and in front of any other character the backslash stays. -/
def next? : Mode → Char → Option (List Symbol × Mode)
  | .between, c => begin? c
  | .slash, c => if c = '/' then some ([], .comment) else none
  | .comment, c => some ([], if c = '\n' then .between else .comment)
  | .dash, c => if c = '>' then some ([.arrow], .between) else (numeral? ['-'] c).map ([], ·)
  | .name read, c =>
    if continuesName c then some ([], .name (c :: read)) else beginAfter? (.ofName read) c
  | .numeral pointed read, c =>
    if c.isDigit then some ([], .numeral pointed (c :: read))
    else if c = '.' ∧ pointed = false then some ([], .numeral true (c :: read))
    else (Symbol.ofNumeral? read).bind (beginAfter? · c)
  | .quoted true read, c =>
    some ([], .quoted false
      (if c = '"' then c :: read else if c = '\n' then read else c :: '\\' :: read))
  | .quoted false read, c =>
    if c = '\\' then some ([], .quoted true read)
    else if c = '"' then some ([.ident (.text (String.ofList read.reverse))], .between)
    else some ([], .quoted false (c :: read))
  | .markup depth read, c =>
    if c = '<' then some ([], .markup (depth + 1) (c :: read))
    else if c = '>' then
      match depth with
      | 0 => some ([.ident (.markup (String.ofList read.reverse))], .between)
      | depth + 1 => some ([], .markup depth (c :: read))
    else some ([], .markup depth (c :: read))

/-- What the end of the text leads to. -/
def finish? : Mode → Option (List Symbol)
  | .between | .comment => some []
  | .name read => some [.ofName read]
  | .numeral _ read => (Symbol.ofNumeral? read).map ([·])
  | .slash | .dash | .quoted .. | .markup .. => none

end Mode

/-- Characters into symbols. -/
def scanner : Transducer Mode Char Symbol := ⟨Mode.next?, Mode.finish?⟩

/-! ## Statements -/

/-- An end of an edge, or the subject of a statement about a node: the node, and what stands behind
it after colons, a place on it and a direction. -/
structure End where
  node : Ident
  parts : List Ident := []
deriving DecidableEq

/-- What a statement says: there is a node, or there is an edge between two nodes. -/
inductive Reading where
  | node (subject : End) (attributes : List (Ident × Ident))
  | edge (source target : End) (attributes : List (Ident × Ident))
deriving DecidableEq

/-- The node that a statement declares. -/
def Reading.declared? : Reading → Option End
  | .node subject _ => some subject
  | .edge .. => none

/-- What a list of attributes is for: the subject of a statement, behind the source if it is about
an edge, or else the defaults. -/
inductive Owner where
  | defaults
  | node (subject : End)
  | edge (source target : End)
deriving DecidableEq

namespace Owner

/-- What is said about the owner of a list of attributes. -/
def readings (attributes : List (Ident × Ident)) : Owner → List Reading
  | .defaults => []
  | .node subject => [.node subject attributes]
  | .edge source target => [.edge source target attributes]

/-- The owner with one more part behind its last end. -/
def withPart? (part : Ident) : Owner → Option Owner
  | .defaults => none
  | .node e => if e.parts.length < 2 then some (.node ⟨e.node, e.parts ++ [part]⟩) else none
  | .edge source e =>
    if e.parts.length < 2 then some (.edge source ⟨e.node, e.parts ++ [part]⟩) else none

end Owner

/-- Where the parser is: before the digraph or behind it, where a statement may begin, behind an
end, a colon, an arrow or the mark of a setting, and in a list of attributes, behind a whole
attribute, a name or a mark. -/
inductive Stage where
  | start
  | header
  | body
  | subject (owner : Owner)
  | colon (owner : Owner)
  | arrow (source : End)
  | setting
  | list (owner : Owner) (attributes : List (Ident × Ident))
  | key (owner : Owner) (attributes : List (Ident × Ident)) (name : Ident)
  | value (owner : Owner) (attributes : List (Ident × Ident)) (name : Ident)
  | closed
deriving DecidableEq

namespace Stage

/-- What an identifier leads to. -/
def ident? (i : Ident) : Stage → Option Stage
  | .body => some (.subject (.node ⟨i, []⟩))
  | .colon owner => (owner.withPart? i).map .subject
  | .arrow source => some (.subject (.edge source ⟨i, []⟩))
  | .setting => some .body
  | .list owner attributes => some (.key owner attributes i)
  | .value owner attributes name => some (.list owner (attributes ++ [(name, i)]))
  | _ => none

/-- What a keyword leads to. -/
def keyword? (s : String) : Stage → Option Stage
  | .start => if s = "digraph" then some .header else none
  | .body => if s = "node" ∨ s = "edge" ∨ s = "graph" then some (.subject .defaults) else none
  | _ => none

/-- What a mark leads to. -/
def mark? (c : Char) : Stage → Option (List Reading × Stage)
  | .header => if c = '\x7b' then some ([], .body) else none
  | .body =>
    if c = '\x7d' then some ([], .closed) else if c = ';' then some ([], .body) else none
  | .subject owner =>
    if c = '[' then some ([], .list owner [])
    else if c = ':' then some ([], .colon owner)
    else
      match owner with
      | .node ⟨_, []⟩ => if c = '=' then some ([], .setting) else none
      | _ => none
  | .list owner attributes =>
    if c = ']' then some (owner.readings attributes, .body)
    else if c = ',' ∨ c = ';' then some ([], .list owner attributes)
    else none
  | .key owner attributes name =>
    if c = '=' then some ([], .value owner attributes name) else none
  | _ => none

/-- What an arrow leads to. -/
def arrow? : Stage → Option Stage
  | .subject (.node source) => some (.arrow source)
  | _ => none

/-- What a symbol leads to. -/
def next? (stage : Stage) : Symbol → Option (List Reading × Stage)
  | .ident i => (stage.ident? i).map ([], ·)
  | .keyword s => (stage.keyword? s).map ([], ·)
  | .mark c => stage.mark? c
  | .arrow => stage.arrow?.map ([], ·)

/-- What the end of the text leads to. -/
def finish? : Stage → Option (List Reading)
  | .closed => some []
  | _ => none

end Stage

/-- Symbols into what the statements say. -/
def parser : Transducer Stage Symbol Reading := ⟨Stage.next?, Stage.finish?⟩

/-- What the nodes and edges of a digraph are, statement by statement. -/
def read? (s : String) : Option (List Reading) :=
  (scanner.run? .between s.toList).bind (parser.run? .start)

end Dot

end FormulaBook
