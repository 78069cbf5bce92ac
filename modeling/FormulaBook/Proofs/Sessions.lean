import FormulaBook.Book.Session
import FormulaBook.Command.Run
import FormulaBook.Proofs.Roles
import FormulaBook.Proofs.Selection

/-!
# Formulas of a session parse

A session starts with the empty book, takes in only formulas that parse, and writes placeholders
only for names of formulas, which are formulas themselves. So every text in its book parses
(`Session.next_book_parses` for one action, `Session.run_book_parses` for any number), and none of
what is shown of the book is read off a raw text: not the dependency trees, not the drawings, which
have no edge of the kind `direct`, and the check of a formula does not fail
(`Session.run_never_degrades`).
-/

namespace FormulaBook

/-! ## Books in which every text parses -/

namespace Book

/-- Every text in the book is a formula of the grammar. -/
def Parses (b : Book) : Prop := ∀ entry ∈ b.entries, ∃ e, Expr.parse entry.2 = .ok e

variable {b : Book}

/-- In the empty book every text parses. -/
theorem parses_empty : empty.Parses := nofun

/-- Inserting a text that parses keeps a book parsing. -/
theorem Parses.insert (h : b.Parses) (name : String) {text : String} {e : Expr}
    (he : Expr.parse text = .ok e) : (b.insert name text).Parses := by
  intro entry hentry
  rcases Keyed.mem_put hentry with rfl | hentry
  · exact ⟨e, he⟩
  · exact h entry hentry

/-- Erasing a name keeps a book parsing. -/
theorem Parses.erase (h : b.Parses) (name : String) : (b.erase name).Parses :=
  fun entry hentry => h entry (List.mem_of_mem_filter hentry)

/-- The placeholder of a name is a name. -/
theorem isName_placeholder {name : String} (h : Text.IsName name) :
    Text.IsName (placeholder name) := by
  obtain ⟨c, cs, hname, hc, hcs⟩ := h
  have hsuffix : placeholderSuffix.toList.all Text.continuesName = true := by decide +kernel
  rw [List.all_eq_true] at hsuffix
  refine ⟨c, cs ++ placeholderSuffix.toList, ?_, hc, fun d hd => ?_⟩
  · rw [placeholder, String.toList_append, hname, List.cons_append]
  · exact (List.mem_append.mp hd).elim (hcs d) fun hd => Text.continuesName_iff.mp (hsuffix d hd)

/-- A name is a formula. -/
theorem parse_name {name : String} (h : Text.IsName name) :
    Expr.parse name = .ok (.identifier name) := by
  refine Expr.parse_text_of_isUnsigned (e := .identifier name) (fun x hx => ?_) fun s hs => ?_
  · exact absurd hx List.not_mem_nil
  · exact List.mem_singleton.mp hs ▸ h

/-- Reserving a name keeps a book parsing, since its placeholder parses. -/
theorem Parses.reserve (h : b.Parses) {name : String} (hname : Text.IsName name) :
    (b.reserve name).Parses := by
  unfold Book.reserve
  split
  · exact h
  · exact h.insert name (parse_name (isName_placeholder hname))

/-- Reserving several names keeps a book parsing. -/
theorem Parses.foldl_reserve (h : b.Parses) {names : List String}
    (hnames : ∀ s ∈ names, Text.IsName s) : (names.foldl Book.reserve b).Parses := by
  induction names generalizing b with
  | nil => exact h
  | cons s rest ih =>
    exact ih (h.reserve (hnames s List.mem_cons_self))
      fun s hs => hnames s (List.mem_cons_of_mem _ hs)

/-- A book that is started from a formula has the formula and the placeholders of its variables. -/
theorem parses_seed {name text : String} (h : seed name text = .ok b) : b.Parses := by
  unfold seed at h
  split at h <;> cases h
  rename_i e he
  have hnames : ∀ s ∈ Text.ascending e.vars, Text.IsName s := fun s hs =>
    (Expr.isUnsigned_of_parse he).2 s (List.mem_eraseDups.mp (Text.mem_ascending.mp hs))
  exact (parses_empty.insert name he).foldl_reserve hnames

/-- A formula that is taken in parses, is new and goes to the end of the book. -/
theorem eq_insert_of_add {b' : Book} {name text : String} (h : b.add name text = .ok b') :
    name ∉ b.names ∧ (∃ e, Expr.parse text = .ok e) ∧ b' = b.insert name text := by
  unfold add at h
  split at h
  · cases h
  · split at h
    · cases h
    · rename_i hnew
      split at h <;> cases h
      rename_i e he
      exact ⟨fun hmem => hnew (List.contains_iff_mem.mpr hmem), ⟨e, he⟩, rfl⟩

/-- A formula that is added has parsed. -/
theorem Parses.add {b' : Book} (h : b.Parses) {name text : String}
    (hadd : b.add name text = .ok b') : b'.Parses := by
  obtain ⟨-, ⟨e, he⟩, rfl⟩ := eq_insert_of_add hadd
  exact h.insert name he

/-- A text of a book in which every text parses. -/
theorem Parses.of_get? (h : b.Parses) {name text : String} (htext : b.get? name = some text) :
    ∃ e, Expr.parse text = .ok e := by
  obtain ⟨before, after, hentries, -⟩ := List.lookup_eq_some_iff.mp htext
  exact h (name, text) (by simp [hentries])

/-- In a book that parses a name's formula has a tree. -/
theorem Parses.of_formula? (h : b.Parses) {name text : String}
    (htext : b.formula? name = some text) : ∃ e, Expr.parse text = .ok e :=
  h.of_get? (Option.filter_eq_some_iff.mp htext).1

end Book

/-- What parses is not empty. -/
theorem Expr.ne_empty_of_parse {text : String} {e : Expr} (h : Expr.parse text = .ok e) :
    text ≠ "" := by
  rintro rfl
  cases h

/-! ## What is shown of a book in which every text parses -/

namespace Tree

/-- A formula in a tree shows what the book and its text say. -/
theorem of_role_formula {b : Book} {maxDepth : Int} {root text : String} {operators : List String}
    {s : Tree} (hs : s ∈ (build b maxDepth root).preorder)
    (hrole : s.role = .formula text operators) :
    b.formula? s.name = some text ∧ operators = (Analysis.of text).operators ∧
      s.children.map Tree.name = (Analysis.of text).vars := by
  rw [← map_snd_located [], List.mem_map] at hs
  obtain ⟨⟨q, s⟩, hmem, rfl⟩ := hs
  obtain ⟨p, -, hat⟩ := mem_located.mp hmem
  have hcases := grow_cases b maxDepth
    ((((grow b maxDepth [] 0 root).above p).map Tree.name).reverse ++ []) (0 + p.length) s.name
  rw [← (eq_grow_of_at? hat).2] at hcases
  obtain ⟨-, hother, -⟩ | ⟨-, ⟨-, hother, -⟩ | ⟨text', htext, hother, hvars⟩⟩ := hcases
  · cases hrole.symm.trans hother
  · cases hrole.symm.trans hother
  · obtain ⟨rfl, rfl⟩ := Role.formula.inj (hrole.symm.trans hother)
    exact ⟨htext, rfl, hvars⟩

end Tree

namespace Layout

variable {α : Type} [Coordinate α] {edge : Edge}

/-- The drawing of a tree has no direct edge. -/
theorem kind_ne_direct_of_mem_draw_full (m : Measures α) (name text : String) (e : Expr)
    (parts : List Plan) (h : edge ∈ (draw m name (.full text e parts)).edges) :
    edge.kind ≠ .direct := by
  have hr : (resultNode m name).id ∈ (firstCanvas m name).ids.nodes := List.mem_cons_self
  rw [draw_full] at h
  dsimp only at h
  rw [drawFull_eq] at h
  let l := Layer.full m name (resultNode m name).id e (firstCanvas m name)
  have hfull : Edge.GoOn [] (l.onto (firstCanvas m name)).edges := Layer.goOn_fullWalk name e hr
  exact ((hfull.trans (goOn_openAll m _ _ parts _)).mem_or_kind_ne h).resolve_left List.not_mem_nil

end Layout

/-- In a book in which every text parses no drawing is flat. -/
theorem Book.Parses.scheme_ne_flat {b : Book} (h : b.Parses) (maxDepth : Int)
    (selected : List String) (name text : String) (vars : List String) :
    Scheme.of b maxDepth selected name ≠ .flat text vars := by
  unfold Scheme.of
  split
  · exact nofun
  · rename_i text' htext
    obtain ⟨e, he⟩ := h.of_formula? htext
    rw [he]
    exact nofun

/-- In a book in which every text parses no drawing has a direct edge. -/
theorem Book.Parses.kind_ne_direct {α : Type} [Coordinate α] {b : Book} (h : b.Parses)
    (m : Measures α) (selected : List String) (name : String) {edge : Edge}
    (hedge : edge ∈ (Layout.of b m selected name).edges) : edge.kind ≠ .direct := by
  rw [Layout.of] at hedge
  cases hs : Scheme.of b m.maxExpansionDepth selected name with
  | blank =>
    rw [hs] at hedge
    exact absurd hedge List.not_mem_nil
  | flat text vars => exact (h.scheme_ne_flat _ _ _ _ _ hs).elim
  | full text e parts =>
    rw [hs] at hedge
    exact Layout.kind_ne_direct_of_mem_draw_full m name text e parts hedge

/-! ## Sessions -/

namespace Session

/-- An action keeps a book in which every text parses such a book. -/
theorem next_book_parses {s : Session} (h : s.book.Parses) (a : Action) :
    (s.next a).book.Parses := by
  cases a with
  | seed name formula =>
    rw [next, act]
    cases hseed : Book.seed name formula with
    | error reason => exact h
    | ok b => exact Book.parses_seed hseed
  | add name formula =>
    rw [next, act]
    cases hadd : s.book.add name formula with
    | error reason => exact h
    | ok b => exact h.add hadd
  | remove name => exact h.erase name
  | toggle name => exact h

/-- Whatever actions are taken, every text of the book still parses. -/
theorem run_book_parses {s : Session} (h : s.book.Parses) (l : List Action) :
    (s.run l).book.Parses := by
  induction l generalizing s with
  | nil => exact h
  | cons a l ih => exact ih (next_book_parses h a)

/-- Whatever is done from the empty book on, every text in the book is a formula of the grammar. So
every formula in a dependency tree has the variables of its tree below it, no drawing shows a raw
text or has a direct edge, and the check of a formula does not fail. -/
theorem run_never_degrades (l : List Action) :
    let b := (run {} l).book
    (∀ entry ∈ b.entries, entry.2 ≠ "" ∧ ∃ e, Expr.parse entry.2 = .ok e) ∧
    (∀ maxDepth root, ∀ s ∈ (Tree.build b maxDepth root).preorder, ∀ text operators,
      s.role = .formula text operators →
        ∃ e, Expr.parse text = .ok e ∧ s.children.map Tree.name = e.vars) ∧
    (∀ {α : Type} [Coordinate α] (m : Measures α) (selected : List String) (name : String),
      (∀ text vars, Scheme.of b m.maxExpansionDepth selected name ≠ .flat text vars) ∧
        ∀ edge ∈ (Layout.of b m selected name).edges, edge.kind ≠ .direct) ∧
    ∀ name text, b.get? name = some text → (Command.Section.check name text).failure? = none := by
  intro b
  have h : b.Parses := run_book_parses Book.parses_empty l
  refine ⟨fun entry hentry => ?_, fun maxDepth root s hs text operators hrole => ?_,
    fun m selected name => ⟨h.scheme_ne_flat _ _ _, fun edge => h.kind_ne_direct m selected name⟩,
    fun name text htext => ?_⟩
  · obtain ⟨e, he⟩ := h entry hentry
    exact ⟨Expr.ne_empty_of_parse he, e, he⟩
  · obtain ⟨htext, -, hvars⟩ := Tree.of_role_formula hs hrole
    obtain ⟨e, he⟩ := h.of_formula? htext
    exact ⟨e, he, hvars.trans (Analysis.vars_of_parse he)⟩
  · obtain ⟨e, he⟩ := h.of_get? htext
    rw [Command.Section.check, he]

end Session

end FormulaBook
