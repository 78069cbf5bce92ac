import FormulaBook.Command.Options
import FormulaBook.Command.Report
import FormulaBook.Dependency.Outline
import FormulaBook.Document.Files
import FormulaBook.Drawing.Dot
import FormulaBook.Journal.Analyses

/-!
# Running the command

`Command.inspect` reads a formula document, chooses a formula and runs the analyses asked for.
Each analysis is a section: it reports events and contributes fields to the report, and it may
fail, which ends the run with an exit code of its own. Nothing here touches a file: what lies
under the path comes in as a `Source`, and rendering is left to a program that is not at hand, so
that it always ends in a warning.
-/

namespace FormulaBook.Command

/-- Why a run ends without a report. -/
inductive Failure where
  | document (e : DocumentError)
  | formula (e : ParseError)
  | choice (e : Book.ChoiceError)
  | unknownFormat (name : String)
  /-- An option that was left without a value is needed. -/
  | valueless (option : String)

namespace Failure

/-- The exit code of a failure. -/
def exitCode : Failure → Nat
  | .document e => if e.isUnexpected then 5 else 1
  | .formula _ => 2
  | .choice _ => 3
  | .unknownFormat _ => 5
  | .valueless _ => 5

/-- The event a failure is reported as. -/
def event : Failure → Event
  | .document e =>
    .error ((if e.isUnexpected then "Unexpected error: " else "Formula file error: ") ++ e.message)
  | .formula e => .error ("Formula parsing error: " ++ e.message)
  | .choice e => .error ("Formula selection error: " ++ e.message)
  | .unknownFormat name => .error ("Unexpected error: " ++ Dot.unknownFormat name)
  | .valueless option => .error ("Unexpected error: no value for " ++ option)

end Failure

/-- What a part of a run reports, contributes, and perhaps fails of. -/
structure Section where
  events : List Event := []
  fields : List (String × Json) := []
  failure? : Option Failure := none

namespace Section

/-- One section after the other, up to the first that fails. -/
def join : List Section → Section
  | [] => {}
  | s :: rest =>
    match s.failure? with
    | some _ => s
    | none =>
      let r := join rest
      { events := s.events ++ r.events, fields := s.fields ++ r.fields, failure? := r.failure? }

/-- The section that names the formula. -/
def heading (name text : String) : Section :=
  { fields := [("name", .string name), ("formula", .string text)] }

/-- The section that parses the formula. -/
def check (name text : String) : Section :=
  let events := Event.ofParse text
  match Expr.parse text with
  | .error e => { events, failure? := some (.formula e) }
  | .ok e =>
    let vars := Text.ascending e.vars
    let listed := if vars.isEmpty then "(none)" else ", ".intercalate vars
    { events := events ++
        [.info ("✅ " ++ name ++ " = " ++ e.text), .info ("   variables: " ++ listed)]
      fields := [("ast", .string e.text), ("variables", .ofStrings vars)] }

/-- The section of the dependency tree. -/
def tree (b : Book) (maxDepth? : Option Int) (name : String) : Section :=
  match maxDepth? with
  | none => { failure? := some (.valueless "--max-depth") }
  | some maxDepth =>
    let t := Tree.build b maxDepth name
    { events := Event.ofTree maxDepth [] t ++
        [.info ("\n🌳 Dependency tree of " ++ name ++ ":\n" ++ t.outline)]
      fields := [("tree", t.toJson)] }

/-- The event of one derivative. -/
def derivativeEvent (name : String) (p : String × Derivative) : Event :=
  let s := Sensitivity.classify p.2.text
  .info ("  ∂" ++ name ++ "/∂" ++ p.1 ++ " = " ++ p.2.text ++
    "  (" ++ s.impact ++ ", " ++ s.relation ++ ")")

/-- The section of the derivatives. -/
def derivatives (name text : String) : Section :=
  let partials := Derivative.partials text
  { events := Event.ofPartials text partials ++
      .info ("\n📐 Partial derivatives of " ++ name ++ ":") ::
      partials.map (derivativeEvent name)
    fields := [("derivatives", .ofFields (partials.map fun p => (p.1, .string p.2.text)))] }

/-- The section of the drawing. -/
def layout (b : Book) (expand : List (Option String)) (name : String) : Section :=
  match expand.mapM id with
  | none => { failure? := some (.valueless "--expand") }
  | some selected =>
    let m := Measures.standard
    let scheme := Scheme.of b m.maxExpansionDepth selected name
    let g := Layout.draw m name scheme
    { events := Event.ofScheme m.maxExpansionDepth name g scheme ++
        [.info ("\n🗺️  Layout of " ++ name ++ ": " ++ toString g.nodes.length ++ " nodes, " ++
          toString g.edges.length ++ " edges")]
      fields := [("graph", g.toJson)] }

/-- The directory that rendered drawings go to. -/
def renderFolder : String := "formula_visualizations"

/-- The section of rendering a drawing. -/
def render (folderExists : Bool) (base : String) (format? : Option String) : Section :=
  match format? with
  | none => { failure? := some (.valueless "--format") }
  | some format =>
    if (Dot.format? format).isNone then { failure? := some (.unknownFormat format) }
    else
      let created := Event.info ("Created directory for formula visualizations: " ++ renderFolder)
      let failed := Event.warning ("Failed to render expression graph to " ++
        Path.join renderFolder base ++ "." ++ format)
      { events := if folderExists then [failed] else [created, failed]
        fields := [("rendered", .null)] }

end Section

/-- The base name to render to, if rendering is asked for. -/
def renderBase? (o : Options) : Option String := o.render?.filter (· != "")

/-- Whether the formula is to be checked: when that is asked for, and when nothing else is. -/
def checks (o : Options) : Bool :=
  o.check || !(o.tree || o.derivatives || o.layout || (renderBase? o).isSome)

/-- The section if it is wanted. -/
def wanted (b : Bool) (s : Unit → Section) : List Section := if b then [s ()] else []

/-- The sections asked for, on the formula of a name. -/
def sections (o : Options) (folderExists : Bool) (b : Book) (name text : String) : List Section :=
  .heading name text ::
    wanted (checks o) (fun _ => .check name text) ++
    wanted o.tree (fun _ => .tree b o.maxDepth? name) ++
    wanted o.derivatives (fun _ => .derivatives name text) ++
    wanted (o.layout || (renderBase? o).isSome) (fun _ => .layout b o.expand name) ++
    match renderBase? o with
    | some base => [.render folderExists base o.format?]
    | none => []

/-- The name and the text of the formula that is asked for. -/
def choose (d : Document) : Request → Except Failure (String × String)
  | .first => d.first?.elim (.error (.choice .emptyBook)) .ok
  | .named name =>
    match d.book.get? name with
    | some text => .ok (name, text)
    | none => .error (.choice (.unknownName name))
  | .nothing => .error (.valueless "--name")

/-- The whole run on what is found under a path. -/
def inspectSource (o : Options) (path : Path) (source : Source) (folderExists : Bool) : Section :=
  match Document.read path.text source with
  | .error e => { events := Event.ofReading path source none, failure? := some (.document e) }
  | .ok d =>
    let reading : Section := { events := Event.ofReading path source (some d.entries.length) }
    match choose d o.request with
    | .error e => { reading with failure? := some e }
    | .ok (name, text) => Section.join (reading :: sections o folderExists d.book name text)

/-- The least level of events that are shown. -/
def threshold (o : Options) : Level :=
  if o.debug then .debug else if o.verbose || !o.json then .info else .warning

/-- What a run leaves behind. -/
structure Outcome where
  exitCode : Nat
  stdout : String
  stderr : String

/-- The outcome of a run on what is found under a path. -/
def inspect (o : Options) (path : Path) (source : Source) (folderExists : Bool) : Outcome :=
  let s := inspectSource o path source folderExists
  match s.failure? with
  | some f => ⟨f.exitCode, "", Event.render (threshold o) (s.events ++ [f.event])⟩
  | none =>
    ⟨0, if o.json then (Json.ofFields s.fields).text ++ "\n" else "",
      Event.render (threshold o) s.events⟩

/-- The outcome of the command among some files. -/
def onFiles (f : Files) (o : Options) (path : Path) : Outcome :=
  inspect o path (f.source path) (f.contains (.ofString Section.renderFolder))

end FormulaBook.Command
