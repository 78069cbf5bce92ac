import FormulaBook.Document.Path
import FormulaBook.Dependency.Tree
import FormulaBook.Text.Blank
import FormulaBook.Text.Digit

/-!
# Options

How the arguments of the command are understood. Long options may be shortened as long as they
stay unique, and take a value after an equals sign or as the next argument. Short options may
share a dash, and their value may follow at once. Of a repeated option the last value counts,
except that all names to expand are collected. There are no arguments besides options and their
values: any other is misuse, but help that is asked for before something wrong is met is still
given.

The releases of the argument parser that the command uses do not agree on what is attached to an
option, so the `Rules` to go by are a parameter.
-/

namespace FormulaBook

/-- The rules for what is attached to an option. -/
inductive Rules where
  /-- The rules of the releases 3.11.10 and 3.12.3. Behind every short option an equals sign
  separates its value, and is misuse if it takes none. Letters that are no options are a stray
  argument. Two dashes are a value like any other. -/
  | current
  /-- The rules of the releases before those. Only behind the first of several short options is an
  equals sign dropped, and a letter there that is no option is misuse. Two dashes are no value:
  attached to an option that takes one they leave it without a value, and what comes of that is
  decided when the value is needed. -/
  | earlier
deriving DecidableEq

/-- Which formula is asked for. -/
inductive Request where
  /-- The first one of the document. -/
  | first
  | named (name : String)
  /-- Nothing: the option was left without a value. -/
  | nothing
deriving DecidableEq

/-- What is to be done with a formula. -/
structure Options where
  request : Request := .first
  check : Bool := false
  tree : Bool := false
  derivatives : Bool := false
  layout : Bool := false
  /-- The names to expand; `none` for an option left without a value. -/
  expand : List (Option String) := []
  render? : Option String := none
  /-- The format to render to; `none` if the option was left without a value. -/
  format? : Option String := some "png"
  /-- The depth limit; `none` if the option was left without a value. -/
  maxDepth? : Option Int := some Tree.defaultMaxDepth
  json : Bool := false
  verbose : Bool := false
  debug : Bool := false
deriving DecidableEq

/-- What the arguments ask for: help, a run on the document under a path, or nothing sensible. -/
inductive Invocation where
  | help
  | misuse
  | run (path : Path) (options : Options)
deriving DecidableEq

namespace Options

/-- The options. -/
inductive Key where
  | help | formulas | name | check | tree | derivatives | layout | expand | render | format
  | maxDepth | json | verbose | debug
deriving DecidableEq

/-- Whether an option takes a value. -/
def Key.takesValue : Key → Bool
  | .formulas | .name | .expand | .render | .format | .maxDepth => true
  | _ => false

/-- The short spellings of options. -/
def shortKeys : List (Char × Key) :=
  [('h', .help), ('f', .formulas), ('n', .name), ('v', .verbose)]

/-- The long spellings of options. -/
def longKeys : List (String × Key) :=
  [("--help", .help), ("--formulas", .formulas), ("--name", .name), ("--check", .check),
    ("--tree", .tree), ("--derivatives", .derivatives), ("--layout", .layout),
    ("--expand", .expand), ("--render", .render), ("--format", .format),
    ("--max-depth", .maxDepth), ("--json", .json), ("--verbose", .verbose), ("--debug", .debug)]

/-! ## Words -/

/-- What an argument looks like before its neighbours are considered. -/
inductive Word where
  /-- A value, or a stray argument. -/
  | plain
  /-- The mark after which no argument is an option. -/
  | separator
  /-- A long option, with what follows its equals sign. -/
  | long (key : Key) (value? : Option (List Char))
  /-- A short option, with the characters behind it. -/
  | short (key : Key) (tail : List Char)
  /-- An option that is none. -/
  | unknown
  /-- A shortened option that fits several. -/
  | ambiguous
deriving DecidableEq

/-- Whether a word is neither an option nor, as it follows none, a value. -/
def Word.isStray : Word → Bool
  | .long .. | .short .. => false
  | _ => true

/-- Whether the characters are digits with at most one point, and a digit at the end; one line feed
may follow. -/
def isUnsignedNumber (cs : List Char) : Bool :=
  let (whole, rest) := Text.spanDigits cs
  let atEnd (cs : List Char) : Bool := cs.isEmpty || cs == ['\n']
  match rest with
  | '.' :: rest =>
    let (places, rest) := Text.spanDigits rest
    !places.isEmpty && atEnd rest
  | rest => !whole.isEmpty && atEnd rest

/-- The word for something with a dash in front that is no option. A negative number and a text
with a blank in it pass for values. -/
def unmatched (cs : List Char) : Word :=
  if isUnsignedNumber (cs.drop 1) || cs.contains ' ' then .plain else .unknown

/-- The word for a text that begins with two dashes. -/
def longWord (cs : List Char) : Word :=
  let spelling := cs.takeWhile (· != '=')
  let value? := match cs.dropWhile (· != '=') with
    | _ :: value => some value
    | [] => none
  match longKeys.lookup (String.ofList spelling) with
  | some key => .long key value?
  | none =>
    match longKeys.filter fun k => spelling.isPrefixOf k.1.toList with
    | [] => unmatched cs
    | [k] => .long k.2 value?
    | _ => .ambiguous

/-- The word an argument is. -/
def Word.of (s : String) : Word :=
  match s.toList with
  | '-' :: '-' :: cs => if cs.isEmpty then .separator else longWord s.toList
  | '-' :: c :: tail =>
    match shortKeys.lookup c with
    | some key => .short key tail
    | none => unmatched s.toList
  | _ => .plain

/-- The arguments with the words they are; behind the separator all are plain. -/
def words : List String → List (String × Word)
  | [] => []
  | s :: rest =>
    match Word.of s with
    | .separator => (s, .separator) :: rest.map fun s => (s, .plain)
    | w => (s, w) :: words rest

/-! ## Settings -/

/-- What the options of one word say: settings, with their values if they have any, and perhaps an
option whose value is the next argument. -/
structure Group where
  settings : List (Key × Option String)
  waiting? : Option Key := none
  /-- Whether letters behind the options are none. -/
  stray : Bool := false

/-- The group with one more setting in front. -/
def Group.cons (key : Key) (g : Group) : Group := { g with settings := (key, none) :: g.settings }

/-- An option with no value attached. -/
def Group.bare (key : Key) : Group :=
  if key.takesValue then { settings := [], waiting? := some key } else { settings := [(key, none)] }

/-- An option with a value attached, which two dashes are not by the earlier rules. -/
def Group.withValue (r : Rules) (key : Key) (value : List Char) : Group :=
  { settings := [(key,
      if r = .earlier ∧ value = ['-', '-'] then none else some (String.ofList value))] }

/-- The group of a short option with characters attached: its value, or, if it takes none, more
short options. It is told whether an equals sign stands in front of the characters. -/
def shortGroup (r : Rules) (key : Key) (separated : Bool) : List Char → Option Group
  | [] => if key.takesValue then some (.withValue r key []) else none
  | c :: cs =>
    if key.takesValue then some (.withValue r key (c :: cs))
    else if r = .current ∧ (separated ∨ c = '-') then none
    else
      match shortKeys.lookup c, cs with
      | none, _ =>
        if r = .current then some { settings := [(key, none)], stray := true } else none
      | some next, [] => some (.cons key (.bare next))
      | some next, d :: ds =>
        (if r = .current ∧ d = '=' then shortGroup r next true ds
          else shortGroup r next false (d :: ds)).map (.cons key)

/-- The group of a long option with a value attached; only options that take one may have it. -/
def longGroup (r : Rules) (key : Key) (value : List Char) : Option Group :=
  if key.takesValue then some (.withValue r key value) else none

/-- What the options of a word say; nothing if it cannot be understood. -/
def Word.group? (r : Rules) : Word → Option Group
  | .long key (some value) => longGroup r key value
  | .long key none | .short key [] => some (.bare key)
  | .short key ('=' :: value) => shortGroup r key true value
  | .short key tail => shortGroup r key false tail
  | _ => some { settings := [] }

/-- The digits of an integer; single underscores may stand between them. -/
def integerDigits (afterDigit : Bool) : List Char → Option (List Nat)
  | [] => if afterDigit then some [] else none
  | c :: cs =>
    if c = '_' then if afterDigit then integerDigits false cs else none
    else
      match Text.digit? c with
      | some d => (integerDigits true cs).map (d :: ·)
      | none => none

/-- The most digits an integer may have. -/
def maxIntegerDigits : Nat := 4300

/-- The integer a text denotes. -/
def readInteger? (s : String) : Option Int :=
  let cs := Text.unpadded s.toList
  let (negative, unsigned) := match cs with
    | '-' :: cs => (true, cs)
    | '+' :: cs => (false, cs)
    | cs => (false, cs)
  match integerDigits false unsigned with
  | none => none
  | some ds =>
    if maxIntegerDigits < ds.length then none
    else
      let n : Int := Text.ofDigits 0 ds
      some (if negative then -n else n)

/-- The options understood so far, with the path if it was given. -/
structure Draft where
  path? : Option Path := none
  options : Options := {}

/-- Why reading the arguments ends early. -/
inductive Stop where
  | help
  | misuse

/-- The spelling of a path that is left out. -/
def missingPath : String := "[]"

/-- The draft with one more setting; `value?` is its value, if it has one. -/
def Draft.set (d : Draft) (key : Key) (value? : Option String) : Except Stop Draft :=
  let o := d.options
  match key with
  | .help => .error .help
  | .formulas => .ok { d with path? := some (.ofString (value?.getD missingPath)) }
  | .name =>
    let request := match value? with
      | some name => .named name
      | none => .nothing
    .ok { d with options := { o with request } }
  | .check => .ok { d with options := { o with check := true } }
  | .tree => .ok { d with options := { o with tree := true } }
  | .derivatives => .ok { d with options := { o with derivatives := true } }
  | .layout => .ok { d with options := { o with layout := true } }
  | .expand => .ok { d with options := { o with expand := o.expand ++ [value?] } }
  | .render => .ok { d with options := { o with render? := value? } }
  | .format => .ok { d with options := { o with format? := value? } }
  | .maxDepth =>
    match value? with
    | none => .ok { d with options := { o with maxDepth? := none } }
    | some value =>
      match readInteger? value with
      | some n => .ok { d with options := { o with maxDepth? := some n } }
      | none => .error .misuse
  | .json => .ok { d with options := { o with json := true } }
  | .verbose => .ok { d with options := { o with verbose := true } }
  | .debug => .ok { d with options := { o with debug := true } }

/-- The draft with several more settings. -/
def Draft.setAll (d : Draft) : List (Key × Option String) → Except Stop Draft
  | [] => .ok d
  | (key, value?) :: rest =>
    match d.set key value? with
    | .ok d => d.setAll rest
    | .error stop => .error stop

/-- The invocation a stop amounts to. -/
def Stop.invocation : Stop → Invocation
  | .help => .help
  | .misuse => .misuse

/-- The invocation after the last argument. -/
def Draft.finish (d : Draft) (stray : Bool) : Invocation :=
  match d.path?, stray with
  | some path, false => .run path d.options
  | _, _ => .misuse

/-- The invocation of the arguments that follow a draft; `stray` tells whether something was met
that is neither an option nor a value. -/
def read (r : Rules) (d : Draft) (stray : Bool) : List (String × Word) → Invocation
  | [] => d.finish stray
  | (_, w) :: rest =>
    match w.group? r with
    | none => .misuse
    | some g =>
      let stray := stray || w.isStray || g.stray
      match g.waiting? with
      | none =>
        match d.setAll g.settings with
        | .ok d => read r d stray rest
        | .error stop => stop.invocation
      | some key =>
        match rest with
        | (value, .plain) :: rest =>
          match d.setAll (g.settings ++ [(key, some value)]) with
          | .ok d => read r d stray rest
          | .error stop => stop.invocation
        | _ => .misuse

/-- What the arguments ask for; by the earlier rules unless said otherwise. -/
def parse (args : List String) (r : Rules := .earlier) : Invocation :=
  let ws := words args
  let ambiguous := ws.any fun w => match w.2 with
    | .ambiguous => true
    | _ => false
  if ambiguous then .misuse else read r {} false ws

end Options

end FormulaBook
