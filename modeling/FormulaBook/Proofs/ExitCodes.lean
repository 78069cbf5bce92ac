import FormulaBook.Command.Run
import FormulaBook.Proofs.OptionValues
import Mathlib.Tactic.Common

/-!
# Exit codes and output of the command

A run without rendering does one thing after the other, and what ends it first decides the exit
code: the document, the choice of a formula, and last the check. The sections fail of nothing else
(`Command.findSome?_sections`), whatever the formulas are like. What is printed for a program to
read is the whole report or nothing. All this holds of whatever is found under the path, and of all
options that have their values, as those read by the current rules do.
-/

namespace FormulaBook.Command

/-! ## Sections in a row -/

namespace Section

/-- Sections in a row fail as the first one does that fails. -/
theorem failure?_join (l : List Section) : (join l).failure? = l.findSome? Section.failure? := by
  induction l with
  | nil => rfl
  | cons s l ih =>
    rw [join, List.findSome?_cons]
    cases hs : s.failure? with
    | none => exact ih
    | some f => exact hs

/-- Sections in a row none of which fails contribute what each of them does. -/
theorem fields_join {l : List Section} (h : ∀ s ∈ l, s.failure? = none) :
    (join l).fields = l.flatMap Section.fields := by
  induction l with
  | nil => rfl
  | cons s l ih =>
    obtain ⟨hs, hl⟩ := List.forall_mem_cons.mp h
    rw [join, hs, List.flatMap_cons, ← ih hl]

/-- All values are there. -/
theorem mapM_map_some {α : Type} (l : List α) : (l.map some).mapM id = some l := by
  rw [List.mapM_map]
  exact List.mapM_pure.trans (congrArg some (List.map_id l))

end Section

variable {o : Options}

/-- A section that is not wanted does not fail. -/
theorem findSome?_wanted (c : Bool) (s : Unit → Section) :
    (wanted c s).findSome? Section.failure? = if c then (s ()).failure? else none := by
  cases c with
  | false => rfl
  | true => cases h : (s ()).failure? <;> simp [wanted, h]

/-- A section that is not wanted contributes nothing. -/
theorem flatMap_wanted (c : Bool) (s : Unit → Section) :
    (wanted c s).flatMap Section.fields = if c then (s ()).fields else [] := by
  cases c <;> simp [wanted]

/-- The fields of a report, with the tree `e` of the formula if it is checked, and with the values
of the options. -/
def reportFields (o : Options) (b : Book) (name text : String) (e : Expr) (maxDepth : Int)
    (selected : List String) : List (String × Json) :=
  [("name", .string name), ("formula", .string text)] ++
    (if checks o then
      [("ast", .string e.text), ("variables", .ofStrings (Text.ascending e.vars))] else []) ++
    (if o.tree then [("tree", (Tree.build b maxDepth name).toJson)] else []) ++
    (if o.derivatives then
      [("derivatives", .ofFields ((Derivative.partials text).map fun p => (p.1, .string p.2.text)))]
      else []) ++
    (if o.layout then
      [("graph", (Layout.of b Measures.standard selected name).toJson)] else [])

section

variable {maxDepth : Int} {selected : List String} (hrender : renderBase? o = none)
  (hdepth : o.maxDepth? = some maxDepth) (hselected : o.expand = selected.map some)
include hrender hdepth hselected

/-- Without rendering the sections fail only of a check. -/
theorem findSome?_sections (folderExists : Bool) (b : Book) (name text : String) :
    (sections o folderExists b name text).findSome? Section.failure? =
      if checks o then (Section.check name text).failure? else none := by
  have htree : (Section.tree b o.maxDepth? name).failure? = none := by rw [hdepth, Section.tree]
  have hderivatives : (Section.derivatives name text).failure? = none := rfl
  have hlayout : (Section.layout b o.expand name).failure? = none := by
    rw [hselected, Section.layout, Section.mapM_map_some]
  simp only [sections, hrender, List.append_nil, List.cons_append, List.findSome?_cons,
    List.findSome?_append, findSome?_wanted, htree, hderivatives, hlayout, ite_self,
    Option.or_none, Section.heading]

/-- What sections contribute that do not fail is the report. -/
theorem flatMap_sections (folderExists : Bool) (b : Book) (name : String) {text : String}
    {e : Expr} (he : checks o = true → Expr.parse text = .ok e) :
    (sections o folderExists b name text).flatMap Section.fields =
      reportFields o b name text e maxDepth selected := by
  have hcheck : (if checks o then (Section.check name text).fields else []) =
      if checks o then
        [("ast", .string e.text), ("variables", .ofStrings (Text.ascending e.vars))] else [] := by
    split
    · rw [Section.check, he ‹_›]
    · rfl
  have htree : (Section.tree b o.maxDepth? name).fields =
      [("tree", (Tree.build b maxDepth name).toJson)] := by
    rw [hdepth]
    rfl
  have hlayout : (Section.layout b o.expand name).fields =
      [("graph", (Layout.of b Measures.standard selected name).toJson)] := by
    rw [hselected, Section.layout, Section.mapM_map_some]
    rfl
  rw [reportFields, ← hcheck, ← htree, ← hlayout]
  simp only [sections, hrender, List.append_nil, List.cons_append, List.flatMap_cons,
    List.flatMap_append, flatMap_wanted, Option.isSome_none, Bool.or_false, Section.heading,
    Section.derivatives, List.append_assoc]

end

/-- The section of a check fails exactly if the formula does not parse. -/
theorem Section.failure?_check (name text : String) : (check name text).failure? =
    match Expr.parse text with
    | .error e => some (.formula e)
    | .ok _ => none := by
  unfold check
  cases Expr.parse text <;> rfl

/-! ## The formula chosen -/

/-- The formula of a document that is asked for: the first one, or the one of the name given. -/
def Chosen (d : Document) : Request → String → String → Prop
  | .first, name, text => d.first? = some (name, text)
  | .named requested, name, text => name = requested ∧ d.book.get? requested = some text
  | .nothing, _, _ => False

/-- What is asked for is not in the document: it has no formulas, or none of the name given. -/
def Missing (d : Document) : Request → Prop
  | .first => d.entries = []
  | .named name => d.book.get? name = none
  | .nothing => False

/-- A request is for a formula of the document or for one that is missing. -/
theorem choose_cases (d : Document) {request : Request} (hrequest : request ≠ .nothing) :
    (∃ name text, choose d request = .ok (name, text) ∧ Chosen d request name text) ∨
      ∃ e, choose d request = .error (.choice e) ∧ Missing d request := by
  cases request with
  | first =>
    cases h : d.entries with
    | nil => exact .inr ⟨.emptyBook, by simp [choose, Document.first?, h], h⟩
    | cons entry rest =>
      exact .inl ⟨entry.1.display, entry.2.display, by simp [choose, Document.first?, h],
        by simp [Chosen, Document.first?, h]⟩
  | named name =>
    cases h : d.book.get? name with
    | none => exact .inr ⟨.unknownName name, by simp [choose, h], h⟩
    | some text => exact .inl ⟨name, text, by simp [choose, h], rfl, h⟩
  | nothing => exact absurd rfl hrequest

/-- At most one formula is chosen. -/
theorem Chosen.unique {d : Document} {request : Request} {name text name' text' : String}
    (h : Chosen d request name text) (h' : Chosen d request name' text') :
    name = name' ∧ text = text' := by
  cases request with
  | first => exact Prod.mk.inj (Option.some.inj (h.symm.trans h'))
  | named requested =>
    obtain ⟨rfl, h⟩ := h
    obtain ⟨rfl, h'⟩ := h'
    exact ⟨rfl, Option.some.inj (h.symm.trans h')⟩
  | nothing => exact h.elim

/-- What holds of some formula that is chosen holds of the one that is. -/
theorem Chosen.exists_iff {d : Document} {request : Request} {name text : String}
    (h : Chosen d request name text) {P : String → String → Prop} :
    (∃ name' text', Chosen d request name' text' ∧ P name' text') ↔ P name text := by
  constructor
  · rintro ⟨name', text', h', hP⟩
    obtain ⟨rfl, rfl⟩ := h.unique h'
    exact hP
  · exact fun hP => ⟨name, text, h, hP⟩

/-- A formula that is chosen is not missing. -/
theorem Chosen.not_missing {d : Document} {request : Request} {name text : String}
    (h : Chosen d request name text) : ¬Missing d request := by
  intro hmissing
  cases request with
  | first =>
    have hnone : d.first? = none := by simp [Document.first?, show d.entries = [] from hmissing]
    cases hnone.symm.trans h
  | named requested => cases (show d.book.get? requested = none from hmissing).symm.trans h.2
  | nothing => exact h

/-! ## The run -/

/-- How a run without rendering ends, with the given values of its options: with which exit code,
and with which report if any. -/
inductive Ends (o : Options) (maxDepth : Int) (selected : List String)
    (read : Except DocumentError Document) : Nat → Option (List (String × Json)) → Prop
  | unexpected {e} : read = .error e → e.isUnexpected = true →
      Ends o maxDepth selected read 5 none
  | unread {e} : read = .error e → e.isUnexpected = false → Ends o maxDepth selected read 1 none
  | missing {d} : read = .ok d → Missing d o.request → Ends o maxDepth selected read 3 none
  | unparsed {d name text e} : read = .ok d → Chosen d o.request name text → checks o = true →
      Expr.parse text = .error e → Ends o maxDepth selected read 2 none
  | reported {d name text e} : read = .ok d → Chosen d o.request name text →
      (checks o = true → Expr.parse text = .ok e) →
      Ends o maxDepth selected read 0 (some (reportFields o d.book name text e maxDepth selected))

/-- What is printed for a program to read: the report, if there is one and it is asked for. -/
def printed (o : Options) (report? : Option (List (String × Json))) : String :=
  match report? with
  | some fields => if o.json then (Json.ofFields fields).text ++ "\n" else ""
  | none => ""

section

variable {maxDepth : Int} {selected : List String} {path : Path} {source : Source}
  {folderExists : Bool}

/-- A run that fails prints nothing. -/
theorem ends_of_failure {f : Failure} {read : Except DocumentError Document}
    (h : (inspectSource o path source folderExists).failure? = some f)
    (hends : Ends o maxDepth selected read f.exitCode none) :
    ∃ report?, Ends o maxDepth selected read
        (inspect o path source folderExists).exitCode report? ∧
      (inspect o path source folderExists).stdout = printed o report? := by
  refine ⟨none, ?_, ?_⟩ <;> simp only [inspect, h]
  exacts [hends, rfl]

/-- A run on a formula that is chosen ends with the check or with the report. -/
theorem ends_of_chosen (hrender : renderBase? o = none) (hdepth : o.maxDepth? = some maxDepth)
    (hselected : o.expand = selected.map some) {d : Document} {name text : String}
    (hread : Document.read path.text source = .ok d)
    (hchoose : choose d o.request = .ok (name, text)) (hchosen : Chosen d o.request name text) :
    ∃ report?, Ends o maxDepth selected (.ok d)
        (inspect o path source folderExists).exitCode report? ∧
      (inspect o path source folderExists).stdout = printed o report? := by
  have hjoin : inspectSource o path source folderExists =
      Section.join ({ events := Event.ofReading path source (some d.entries.length) } ::
        sections o folderExists d.book name text) := by
    simp only [inspectSource, hread, hchoose]
  have hsections := findSome?_sections hrender hdepth hselected folderExists d.book name text
  have hfailure : (inspectSource o path source folderExists).failure? =
      if checks o then (Section.check name text).failure? else none := by
    rw [hjoin, Section.failure?_join, ← hsections]
    rfl
  rw [Section.failure?_check] at hsections hfailure
  by_cases hfails : ∃ e, checks o = true ∧ Expr.parse text = .error e
  · obtain ⟨e, hchecks, he⟩ := hfails
    rw [if_pos hchecks, he] at hfailure
    exact ends_of_failure hfailure (.unparsed rfl hchosen hchecks he)
  · obtain ⟨e, he⟩ : ∃ e, checks o = true → Expr.parse text = .ok e := by
      cases hparse : Expr.parse text with
      | error e => exact ⟨.identifier name, fun hchecks => absurd ⟨e, hchecks, hparse⟩ hfails⟩
      | ok e => exact ⟨e, fun _ => rfl⟩
    have hnone : (if checks o then
        match Expr.parse text with
        | .error e => some (Failure.formula e)
        | .ok _ => none else none) = none := by
      split
      · rw [he ‹_›]
      · rfl
    rw [hnone] at hsections hfailure
    have hreport : (inspectSource o path source folderExists).fields =
        reportFields o d.book name text e maxDepth selected := by
      rw [hjoin, Section.fields_join, List.flatMap_cons,
        flatMap_sections hrender hdepth hselected folderExists d.book name he]
      · rfl
      · exact List.forall_mem_cons.mpr ⟨rfl, List.findSome?_eq_none_iff.mp hsections⟩
    refine ⟨some (reportFields o d.book name text e maxDepth selected), ?_, ?_⟩ <;>
      simp only [inspect, hfailure]
    · exact .reported rfl hchosen he
    · rw [hreport]
      rfl

variable (path source folderExists) in
/-- A run without rendering ends in one of these ways. -/
theorem inspect_ends (hrender : renderBase? o = none) (hrequest : o.request ≠ .nothing)
    (hdepth : o.maxDepth? = some maxDepth) (hselected : o.expand = selected.map some) :
    ∃ report?, Ends o maxDepth selected (Document.read path.text source)
      (inspect o path source folderExists).exitCode report? ∧
      (inspect o path source folderExists).stdout = printed o report? := by
  cases hread : Document.read path.text source with
  | error e =>
    refine ends_of_failure (f := .document e) (by simp [inspectSource, hread]) ?_
    rw [Failure.exitCode]
    split
    · exact .unexpected rfl ‹_›
    · exact .unread rfl (Bool.eq_false_iff.mpr ‹_›)
  | ok d =>
    rcases choose_cases d hrequest with ⟨name, text, hchoose, hchosen⟩ | ⟨e, hchoose, hmissing⟩
    · exact ends_of_chosen hrender hdepth hselected hread hchoose hchosen
    · exact ends_of_failure (f := .choice e) (by simp [inspectSource, hread, hchoose])
        (.missing rfl hmissing)

end

/-- Something is printed exactly if there is a report and it is asked for. -/
theorem printed_ne_empty_iff (report? : Option (List (String × Json))) :
    printed o report? ≠ "" ↔ o.json = true ∧ report?.isSome = true := by
  cases report? with
  | none => simp [printed]
  | some fields => cases h : o.json <;> simp [printed, h]

namespace Ends

variable {maxDepth : Int} {selected : List String} {read : Except DocumentError Document} {n : Nat}
  {report? : Option (List (String × Json))}

/-- The exit code is 1 exactly if the document has a fault. -/
theorem eq_one_iff (h : Ends o maxDepth selected read n report?) :
    n = 1 ↔ ∃ e, read = .error e ∧ e.isUnexpected = false := by
  cases h <;> simp [*]

/-- The exit code is 3 exactly if the formula asked for is missing. -/
theorem eq_three_iff (h : Ends o maxDepth selected read n report?) :
    n = 3 ↔ ∃ d, read = .ok d ∧ Missing d o.request := by
  cases h with
  | unexpected hread | unread hread => simp [hread]
  | missing hread hmissing => simp [hread, hmissing]
  | unparsed hread hchosen | reported hread hchosen => simp [hread, hchosen.not_missing]

/-- The exit code is 2 exactly if the formula chosen is checked and does not parse. -/
theorem eq_two_iff (h : Ends o maxDepth selected read n report?) :
    n = 2 ↔ ∃ d, read = .ok d ∧ ∃ name text, Chosen d o.request name text ∧
      checks o = true ∧ ∃ e, Expr.parse text = .error e := by
  cases h with
  | unexpected hread | unread hread => simp [hread]
  | missing hread hmissing =>
    have hno (name text : String) : ¬Chosen _ o.request name text := fun h => h.not_missing hmissing
    simp [hread, hno]
  | unparsed hread hchosen hcheck he => simp [hread, hchosen.exists_iff, hcheck, he]
  | reported hread hchosen hparse =>
    simp only [hread, Except.ok.injEq, exists_eq_left', hchosen.exists_iff]
    refine iff_of_false (by simp) ?_
    rintro ⟨hc, e, he⟩
    cases he.symm.trans (hparse hc)

/-- The exit code is 5 exactly if reading ends in an error that it does not expect. -/
theorem eq_five_iff (h : Ends o maxDepth selected read n report?) :
    n = 5 ↔ ∃ e, read = .error e ∧ e.isUnexpected = true := by
  cases h <;> simp [*]

/-- There are no other exit codes than these. -/
theorem mem_codes (h : Ends o maxDepth selected read n report?) : n ∈ [0, 1, 2, 3, 5] := by
  cases h <;> simp

/-- There is a report exactly if the exit code is 0. -/
theorem isSome_report_iff (h : Ends o maxDepth selected read n report?) :
    report?.isSome = true ↔ n = 0 := by
  cases h <;> simp

/-- A report is on the formula chosen. -/
theorem exists_report {fields : List (String × Json)}
    (h : Ends o maxDepth selected read n (some fields)) :
    ∃ d name text e, read = .ok d ∧ Chosen d o.request name text ∧
      (checks o = true → Expr.parse text = .ok e) ∧
      fields = reportFields o d.book name text e maxDepth selected := by
  cases h with
  | @reported d name text e hread hchosen hparse =>
    exact ⟨d, name, text, e, hread, hchosen, hparse, rfl⟩

end Ends

/-- The document, the choice and the check decide how a run without rendering ends, and nothing else
in it can fail but for errors that reading does not expect. The report is printed as a whole, and
only by a run that has not failed. -/
theorem inspect_decided {args : List String} {path : Path}
    (hargs : Options.parse args .current = .run path o) (hrender : renderBase? o = none)
    (source : Source) (folderExists : Bool) :
    let read := Document.read path.text source
    let outcome := inspect o path source folderExists
    (outcome.exitCode = 1 ↔ ∃ e, read = .error e ∧ e.isUnexpected = false) ∧
    (outcome.exitCode = 3 ↔ ∃ d, read = .ok d ∧ Missing d o.request) ∧
    (outcome.exitCode = 2 ↔ ∃ d, read = .ok d ∧ ∃ name text, Chosen d o.request name text ∧
      checks o = true ∧ ∃ e, Expr.parse text = .error e) ∧
    (outcome.exitCode = 5 ↔ ∃ e, read = .error e ∧ e.isUnexpected = true) ∧
    outcome.exitCode ∈ [0, 1, 2, 3, 5] ∧
    (outcome.stdout ≠ "" ↔ outcome.exitCode = 0 ∧ o.json = true) ∧
    (outcome.stdout ≠ "" → ∃ d name text e maxDepth selected, read = .ok d ∧
      Chosen d o.request name text ∧ (checks o = true → Expr.parse text = .ok e) ∧
      o.maxDepth? = some maxDepth ∧ o.expand = selected.map some ∧
      outcome.stdout =
        (Json.ofFields (reportFields o d.book name text e maxDepth selected)).text ++ "\n") := by
  intro read outcome
  have hfilled := Options.isFilled_of_parse hargs
  obtain ⟨maxDepth, hdepth⟩ := Option.ne_none_iff_exists'.mp hfilled.maxDepth
  obtain ⟨selected, hselected⟩ := Options.exists_map_some hfilled.expand
  obtain ⟨report?, hends, hstdout⟩ :=
    inspect_ends path source folderExists hrender hfilled.request hdepth hselected
  change Ends o maxDepth selected read outcome.exitCode report? at hends
  change outcome.stdout = _ at hstdout
  refine ⟨hends.eq_one_iff, hends.eq_three_iff, hends.eq_two_iff, hends.eq_five_iff,
    hends.mem_codes, ?_, fun h => ?_⟩
  · rw [hstdout, printed_ne_empty_iff, hends.isSome_report_iff]
    exact and_comm
  · rw [hstdout, printed_ne_empty_iff] at h
    obtain ⟨fields, rfl⟩ := Option.isSome_iff_exists.mp h.2
    obtain ⟨d, name, text, e, hread, hchosen, hparse, rfl⟩ := hends.exists_report
    exact ⟨d, name, text, e, maxDepth, selected, hread, hchosen, hparse, hdepth, hselected,
      hstdout.trans (if_pos h.1)⟩

/-- A formula that does not parse ends no run that does not check it, wherever its file lies. -/
theorem inspect_decided_malformed :
    let args := ["-f", "/srv/t.json", "--tree", "--json"]
    let source := Source.bytes "\x7b\"T\": \"A +\"\x7d".toUTF8
    ∃ path o, Options.parse args .current = .run path o ∧ renderBase? o = none ∧
      (inspect o path source false).exitCode ∈ [0, 1, 2, 3, 5] ∧
      (inspect o path source false).exitCode ≠ 5 ∧
      ((inspect o path source false).stdout ≠ "" ↔
        (inspect o path source false).exitCode = 0 ∧ o.json = true) := by
  intro args source
  let path : Path := ⟨"/", ["srv", "t.json"]⟩
  have hargs : Options.parse args .current = .run path { tree := true, json := true } := by
    decide +kernel
  have hread : (Document.read path.text source).isOk = true := by decide +kernel
  obtain ⟨-, -, -, hfive, hcodes, hstdout, -⟩ := inspect_decided hargs rfl source false
  refine ⟨_, _, hargs, rfl, hcodes, fun h => ?_, hstdout⟩
  obtain ⟨e, he, -⟩ := hfive.mp h
  rw [he] at hread
  cases hread

/-! ## Errors of the system -/

/-- By all rules a path that looks like no option is read as it is. -/
theorem parse_path {s : String} (h : s.toList.head? ≠ some '-') (r : Rules) :
    Options.parse ["-f", s] r = .run (.ofString s) {} := by
  have hword : Options.Word.of s = .plain := by
    unfold Options.Word.of
    split
    · rename_i htext
      exact absurd (congrArg List.head? htext) h
    · rename_i htext
      exact absurd (congrArg List.head? htext) h
    · rfl
  have hwords : Options.words ["-f", s] = [("-f", .short .formulas []), (s, .plain)] := by
    rw [Options.words, show Options.Word.of "-f" = .short .formulas [] by decide +kernel]
    simp only [Options.words, hword]
  have hread : Options.read r {} false [("-f", .short .formulas []), (s, .plain)] =
      .run (.ofString s) {} := by
    rw [Options.read]
    simp [Options.Word.group?, Options.Group.bare, Options.Key.takesValue, Options.Draft.setAll,
      Options.Draft.set, Options.read, Options.Draft.finish, Options.Word.isStray]
  simp only [Options.parse, hwords]
  exact hread

/-- A text without slashes is a relative path of one component. -/
theorem ofString_of_not_mem {s : String} (hslash : '/' ∉ s.toList) (hne : s ≠ "") (hdot : s ≠ ".") :
    Path.ofString s = ⟨"", [s]⟩ := by
  have hroot : s.toList.takeWhile (· == '/') = [] := by
    cases h : s.toList with
    | nil => rfl
    | cons c cs =>
      rw [h, List.mem_cons, not_or] at hslash
      exact List.takeWhile_cons_of_neg (by simpa using Ne.symm hslash.1)
  rw [Path.ofString, List.splitOn_eq_singleton hslash]
  simp [hroot, hne, hdot]

/-- The system does not tell what lies under a component that is too long, nor what lies in a
directory that is closed. -/
theorem exists_source_eq_refused (files : Files) {s : String} (hnul : '\x00' ∉ s.toList)
    (h : Path.isLongComponent s = true ∨ files.directory ∈ files.closed) :
    ∃ e, files.source ⟨"", [s]⟩ = .refused e := by
  have htext : Path.text ⟨"", [s]⟩ = s := by simp [Path.text]
  unfold Files.source
  rw [htext, if_neg (by simpa using hnul)]
  split
  · exact ⟨_, rfl⟩
  · have hdirectory : files.isDirectory files.directory = true := by simp [Files.isDirectory]
    have hdestination : files.destination ⟨"", [s]⟩ = files.step (.place files.directory) s := rfl
    rw [hdestination, Files.step, hdirectory]
    by_cases hclosed : files.directory ∈ files.closed
    · exact ⟨.accessDenied, by simp [hclosed, Files.lookUp]⟩
    · have hlong := h.resolve_right hclosed
      have hup : s ≠ ".." := by
        rintro rfl
        exact absurd hlong (by decide)
      exact ⟨.nameTooLong, by simp [hclosed, hup, hlong, Files.lookUp]⟩

/-- Where the system does not tell what lies under a path, the run ends in an unexpected error,
though it is the document that cannot be read. -/
theorem onFiles_of_refused (files : Files) {s : String} (hs : ∀ c ∈ s.toList, c ≠ '/' ∧ c ≠ '\x00')
    (hne : s ≠ "") (hdot : s ≠ ".") (hdash : s.toList.head? ≠ some '-')
    (h : Path.isLongComponent s = true ∨ files.directory ∈ files.closed) :
    let path : Path := ⟨"", [s]⟩
    Options.parse ["-f", s] .current = .run path {} ∧
      (Document.read path.text (files.source path)).isOk = false ∧
      (onFiles files {} path).exitCode = 5 := by
  have hpath : Path.ofString s = ⟨"", [s]⟩ :=
    ofString_of_not_mem (fun h => (hs _ h).1 rfl) hne hdot
  obtain ⟨e, hsource⟩ := exists_source_eq_refused files (fun h => (hs _ h).2 rfl) h
  refine ⟨hpath ▸ parse_path hdash .current, ?_, ?_⟩
  · rw [hsource]
    rfl
  · rw [onFiles, hsource]
    rfl

/-- A name of 256 letters is one character too long. -/
theorem onFiles_of_refused_letters :
    let s := String.ofList (List.replicate 256 'a')
    let path : Path := ⟨"", [s]⟩
    Options.parse ["-f", s] .current = .run path {} ∧
      (Document.read path.text ((Files.ofList []).source path)).isOk = false ∧
      (onFiles (.ofList []) {} path).exitCode = 5 := by
  have htext : (String.ofList (List.replicate 256 'a')).toList = List.replicate 256 'a' :=
    String.toList_ofList
  have hlength {t : String} (ht : t.toList.length < 256) :
      String.ofList (List.replicate 256 'a') ≠ t := by
    rintro rfl
    rw [htext, List.length_replicate] at ht
    exact absurd ht (Nat.lt_irrefl 256)
  refine onFiles_of_refused _ (fun c hc => ?_) (hlength (by decide)) (hlength (by decide)) ?_
    (.inl (by decide +kernel))
  · rw [htext] at hc
    rw [List.eq_of_mem_replicate hc]
    decide
  · rw [htext]
    decide

end FormulaBook.Command
