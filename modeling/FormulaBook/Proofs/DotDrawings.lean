import FormulaBook.Proofs.DotQuoting
import FormulaBook.Proofs.Flow
import FormulaBook.Proofs.RawScans
import FormulaBook.Proofs.WellFormed
import FormulaBook.Number.Notation

/-!
# Drawings read back

The text of a drawing in the DOT language is read back as one statement for every node and every
edge, whatever book is drawn. Only the name drawn can be in the way: it stands in the comment, as
the id and label of the result node and as the end of edges, and in each of these places other
characters are taken for something else (`Dot.read?_source_of_colon`). All other texts are made of
names, numbers and signs and are plain (`Dot.IsPlain`): a walk gives plain ids and labels
(`Walk.Plain.through`), and so do the formulas opened and the names of a formula that does not parse
(`Layout.exists_canvas_of`).
-/

namespace FormulaBook

namespace Dot

/-! ## Plain texts -/

/-- The characters that mean something in quotes, at the beginning of markup, in an end of an edge
or in a comment. -/
def special : List Char := ['"', '\\', '<', ':', '\n']

/-- A text without special characters. -/
def IsPlain (s : String) : Prop := s.toList.all (!special.contains ·) = true

/-- Whether a text is plain can be decided. -/
instance (s : String) : Decidable (IsPlain s) := inferInstanceAs (Decidable (_ = _))

variable {s t : String}

/-- No special character is in a plain text. -/
theorem IsPlain.not_mem (h : IsPlain s) {c : Char} (hc : c ∈ special) : c ∉ s.toList := by
  intro hmem
  have hplain := List.all_eq_true.mp h c hmem
  simp [hc] at hplain

/-- Plain texts in a row are a plain text. -/
theorem IsPlain.append (h : IsPlain s) (h' : IsPlain t) : IsPlain (s ++ t) := by
  rw [IsPlain, String.toList_append, List.all_append, Bool.and_eq_true]
  exact ⟨h, h'⟩

/-- A text is plain if all its characters are of a sort that no special character is of. -/
theorem isPlain_of_forall {p : Char → Bool} (hp : special.all (!p ·) = true)
    (h : ∀ c ∈ s.toList, p c = true) : IsPlain s := by
  refine List.all_eq_true.mpr fun c hc => ?_
  rw [Bool.not_eq_true', Bool.eq_false_iff, ne_eq, List.contains_iff_mem]
  intro hspecial
  have hnot := List.all_eq_true.mp hp c hspecial
  rw [h c hc] at hnot
  cases hnot

/-- Without a backslash no character is escaped at the end. -/
theorem endsEscaped_of_not_mem {cs : List Char} (h : '\\' ∉ cs) : endsEscaped false cs = false := by
  induction cs with
  | nil => rfl
  | cons c cs ih =>
    rw [List.mem_cons, not_or] at h
    rw [endsEscaped, decide_eq_false (Ne.symm h.1)]
    exact ih h.2

/-- A plain text is no markup. -/
theorem IsPlain.isMarkup_eq_false (h : IsPlain s) : isMarkup s = false := by
  rw [isMarkup, Bool.and_eq_false_iff]
  refine .inl (beq_eq_false_iff_ne.mpr fun hhead => ?_)
  exact h.not_mem (by decide) (List.mem_of_mem_head? hhead)

/-- A plain text is read back wherever it stands. -/
theorem IsPlain.whole (h : IsPlain s) : Whole s where
  noLineFeed := h.not_mem (by decide)
  closed := by
    rw [h.isMarkup_eq_false, if_neg Bool.false_ne_true]
    exact endsEscaped_of_not_mem (h.not_mem (by decide))
  noColon := h.not_mem (by decide)

/-- A plain text denotes itself. -/
theorem IsPlain.denoted_eq (h : IsPlain s) : denoted s = .text s := by
  rw [denoted, h.isMarkup_eq_false, if_neg Bool.false_ne_true,
    unescape_of_not_mem (h.not_mem (by decide)), String.ofList_toList]

/-- Only a plain text is read as one: what is special in a text stays in what is read of it. -/
theorem not_mem_of_unescape : ∀ {cs : List Char}, endsEscaped false cs = false →
    '\\' ∉ unescape false cs → '"' ∉ unescape false cs → '\\' ∉ cs
  | [], _, _, _ => List.not_mem_nil
  | c :: cs, hend, hslash, hquote => by
    by_cases hc : c = '\\'
    · subst hc
      cases cs with
      | nil => cases hend
      | cons d cs =>
        -- Behind the backslash there is a quote, which stays, or the backslash itself stays.
        by_cases hd : d = '"'
        · subst hd
          exact absurd List.mem_cons_self hquote
        · have hread : unescape false ('\\' :: d :: cs) = '\\' :: d :: unescape false cs := by
            simp [unescape, hd]
          rw [hread] at hslash
          exact absurd List.mem_cons_self hslash
    · have hread : unescape false (c :: cs) = c :: unescape false cs := by
        simp [unescape, hc]
      rw [hread, List.mem_cons, not_or] at hslash hquote
      rw [endsEscaped, decide_eq_false hc] at hend
      rw [List.mem_cons, not_or]
      exact ⟨Ne.symm hc, not_mem_of_unescape hend hslash.2 hquote.2⟩

/-- A text that denotes what a plain text does is this text. -/
theorem Quotable.eq_of_denoted_eq (h : Quotable s) (ht : IsPlain t) (heq : denoted s = .text t) :
    s = t := by
  have hclosed := h.closed
  rw [denoted] at heq
  split at heq
  · cases heq
  · rename_i hmarkup
    rw [if_neg hmarkup] at hclosed
    have hread := Ident.text.inj heq
    have hchars : unescape false s.toList = t.toList := by rw [← hread, String.toList_ofList]
    have hslash := not_mem_of_unescape hclosed (hchars ▸ ht.not_mem (by decide))
      (hchars ▸ ht.not_mem (by decide))
    rwa [unescape_of_not_mem hslash, String.ofList_toList] at hread

/-! ## Texts that are plain -/

/-- A text of letters, digits and underscores is plain. -/
theorem isPlain_of_continuesName (h : ∀ c ∈ s.toList, Text.continuesName c = true) : IsPlain s :=
  isPlain_of_forall (by decide) h

/-- A name is plain. -/
theorem isPlain_of_isName (h : Text.IsName s) : IsPlain s := by
  obtain ⟨c, cs, hs, hc, hcs⟩ := h
  refine isPlain_of_continuesName fun d hd => Text.continuesName_iff.mpr ?_
  rw [hs] at hd
  rcases List.mem_cons.mp hd with rfl | hd
  · exact .inl hc
  · exact hcs d hd

/-- The names found in a formula that does not parse are plain. -/
theorem isPlain_of_mem_vars {f : String} (h : s ∈ RawScan.vars f) : IsPlain s := by
  obtain ⟨run, hrun, rfl⟩ := List.mem_map.mp (List.mem_eraseDups.mp h)
  obtain ⟨front, after, -, hmaximal, -⟩ := RawScan.exists_of_mem_runsFrom f.toList none []
    (fun _ hc => absurd hc List.not_mem_nil) (List.mem_of_mem_filter hrun)
  refine isPlain_of_continuesName fun c hc => hmaximal.all c ?_
  rwa [String.toList_ofList] at hc

/-- The digits of a number are plain. -/
theorem isPlain_toString (n : Nat) : IsPlain (toString n) := by
  refine isPlain_of_forall (p := Char.isDigit) (by decide) fun c hc => ?_
  rw [Nat.toString_eq_repr, Nat.toList_repr] at hc
  exact Decimal.isDigit_of_mem_toDigits c hc

/-- A plain text with a number behind it is plain. -/
theorem isPlain_numbered (h : IsPlain s) (n : Nat) : IsPlain (numbered s n) :=
  (h.append (by decide)).append (isPlain_toString n)

/-- The id given for a plain text is plain. -/
theorem isPlain_claimNode (h : IsPlain s) (ids : Ids) : IsPlain (ids.claimNode s).1 := by
  change IsPlain (Ids.claim ids.nodes ids.counter s).1
  unfold Ids.claim
  split
  · exact isPlain_numbered h _
  · exact h

/-- Digits and points behind a sign are plain. -/
theorem isPlain_signText {cs : List Char} (h : ∀ c ∈ cs, c.isDigit = true ∨ c = '.')
    (negative : Bool) : IsPlain (Binary64.signText negative cs) := by
  have hcs (c : Char) (hc : c ∈ cs) : (c.isDigit || c == '.' || c == '-') = true := by
    rcases h c hc with hd | rfl
    · simp [hd]
    · rfl
  refine isPlain_of_forall (p := fun c => c.isDigit || c == '.' || c == '-') (by decide) ?_
  intro c hc
  rw [Binary64.signText, String.toList_ofList] at hc
  cases negative with
  | false => exact hcs c hc
  | true =>
    rcases List.mem_cons.mp hc with rfl | hc
    · rfl
    · exact hcs c hc

/-- The plain text of a double is a plain text. -/
theorem isPlain_plain (x : Binary64) : IsPlain x.plain := by
  cases x with
  | nan => decide
  | infinity negative => cases negative <;> decide
  | finite negative m h => exact isPlain_signText (fun _ hc => Decimal.mem_plain hc) negative

/-- A double written with a fixed number of places is plain. -/
theorem isPlain_fixed (places : Nat) (x : Binary64) : IsPlain (x.fixed places) := by
  cases x with
  | nan =>
    change IsPlain "nan"
    decide
  | infinity negative =>
    change IsPlain (Binary64.signText negative "inf".toList)
    cases negative <;> decide
  | finite negative m h => exact isPlain_signText (fun _ hc => Decimal.mem_pointed hc) negative

/-- A place is a plain text. -/
theorem isPlain_position (x y : Binary64) : IsPlain (position x y) :=
  (((isPlain_fixed 2 _).append (by decide)).append (isPlain_fixed 2 _)).append (by decide)

end Dot

open Dot

/-! ## Walks -/

/-- What is placed and what is drawn shows plain texts. -/
structure Walk.Plain (w : Walk) : Prop where
  placed : ∀ p ∈ w.placed, IsPlain p.id ∧ IsPlain p.label
  edges : ∀ e ∈ w.edges, ∀ s ∈ e.operation, IsPlain s

namespace Walk.Plain

variable {anchor : Option String} {w : Walk}

/-- An id that is proposed under an anchor is plain. -/
theorem under {base : String} (h : ∀ s ∈ anchor, IsPlain s) (hbase : IsPlain base) :
    IsPlain (Walk.under anchor base) := by
  cases anchor with
  | none => exact hbase
  | some s => exact ((h s rfl).append (by decide)).append hbase

/-- A node with plain texts joins those placed. -/
theorem place (hw : w.Plain) {p : Placed} (hid : IsPlain p.id) (hlabel : IsPlain p.label) :
    ∀ q ∈ w.placed ++ [p], IsPlain q.id ∧ IsPlain q.label := by
  intro q hq
  rcases List.mem_append.mp hq with hq | hq
  · exact hw.placed q hq
  · rw [List.mem_singleton.mp hq]
    exact ⟨hid, hlabel⟩

/-- Walking to a leaf with a plain text keeps the walk plain. -/
theorem leaf (hw : w.Plain) (h : ∀ s ∈ anchor, IsPlain s) (l : Leaf) (hl : IsPlain l.text)
    (row : Nat) : (w.leaf anchor l row).2.Plain := by
  cases hnew : w.leaves.lookup l with
  | some id =>
    rw [leaf_of_lookup hnew]
    exact hw
  | none =>
    have hbase : IsPlain l.base := by
      cases l with
      | name s => exact hl
      | constant text => exact IsPlain.append (by decide) hl
    rw [leaf_of_new hnew]
    exact ⟨hw.place (isPlain_claimNode (under h hbase) _) hl, hw.edges⟩

/-- Placing an operator with a plain label keeps the walk plain. -/
theorem operator (hw : w.Plain) (h : ∀ s ∈ anchor, IsPlain s) {label : String}
    (hlabel : IsPlain label) (row : Nat) : (w.operator anchor label row).2.Plain := by
  rw [operator_eq]
  have hbase : IsPlain ("op_" ++ toString w.operators) :=
    IsPlain.append (by decide) (isPlain_toString _)
  exact ⟨hw.place (isPlain_claimNode (under h hbase) _) hlabel, hw.edges⟩

/-- Drawing an edge keeps the walk plain. -/
theorem connect (hw : w.Plain) (source target : String) (kind : EdgeKind) :
    (w.connect source target kind).Plain := by
  refine ⟨hw.placed, fun e he => ?_⟩
  rw [connect_eq] at he
  rcases List.mem_append.mp he with he | he
  · exact hw.edges e he
  · rw [List.mem_singleton.mp he]
    exact fun s hs => absurd hs (by simp)

/-- A walk through a tree with plain names shows plain texts. -/
theorem through (h : ∀ s ∈ anchor, IsPlain s) {e : Expr}
    (he : ∀ s ∈ e.identifiers, Text.IsName s) (row : Nat) (hw : w.Plain) :
    (w.through anchor e row).2.Plain := by
  induction e generalizing row w with
  | number x => exact hw.leaf h (.constant x.plain) (isPlain_plain x) row
  | identifier name =>
    have hname : IsPlain name := isPlain_of_isName (he name (List.mem_singleton_self name))
    exact hw.leaf h (.name name) hname row
  | binary op left right ihl ihr =>
    have hlabel : IsPlain op.label := by cases op <;> decide
    have hl := ihl (fun s hs => he s (List.mem_append_left _ hs)) (row + 1)
      (hw.operator h hlabel row)
    have hr := ihr (fun s hs => he s (List.mem_append_right _ hs)) (row + 1) hl
    rw [through_binary]
    exact (hr.connect ..).connect ..
  | signed sign operand ih =>
    have hlabel : IsPlain sign.label := by cases sign <;> decide
    have hx := ih he (row + 1) (hw.operator h hlabel row)
    rw [through_signed]
    exact hx.connect ..

end Walk.Plain

/-! ## Graphs -/

/-- All texts of a graph are plain but those of the result node. -/
structure Graph.Plain {α : Type} (result : Node α) (g : Graph α) : Prop where
  nodes : ∀ n ∈ g.nodes, n = result ∨ IsPlain n.id ∧ IsPlain n.label
  edges : ∀ e ∈ g.edges, ∀ s ∈ e.operation, IsPlain s

namespace Layer

variable {α : Type} {result : Node α} {c : Canvas α} {l : Layer α}

/-- A layer with plain texts keeps the texts plain. -/
theorem plain_onto (hc : c.graph.Plain result) (hl : l.walk.Plain) :
    (l.onto c).graph.Plain result := by
  refine ⟨fun n hn => ?_, hl.edges⟩
  rcases List.mem_append.mp hn with hn | hn
  · exact hc.nodes n hn
  · obtain ⟨p, hp, hid, hlabel, -⟩ := Layout.exists_placed_of_shows l.shows hn
    rw [hid, hlabel]
    exact .inr (hl.placed p hp)

/-- The names of a layer that is drawn plainly have plain ids. -/
theorem isPlain_of_mem_mentions (hl : l.walk.Plain) : ∀ n ∈ l.mentions, IsPlain n.id := by
  intro n hn
  obtain ⟨p, hp, hid, -⟩ :=
    Layout.exists_placed_of_shows l.shows (l.mentions_sublist.subset hn)
  rw [hid]
  exact (hl.placed p hp).1

/-- A walk starts plainly on a canvas that is plain. -/
theorem plain_start (hc : c.graph.Plain result) (leaves : List (Leaf × String)) :
    (Walk.start c.ids leaves c.edges).Plain :=
  ⟨fun _ hp => absurd hp List.not_mem_nil, hc.edges⟩

/-- Walking through an opened formula on a plain canvas is plain. -/
theorem plain_openedWalk (hc : c.graph.Plain result) {anchor : String} (ha : IsPlain anchor)
    {e : Expr} (he : ∀ s ∈ e.identifiers, Text.IsName s) : (openedWalk anchor e c).Plain := by
  have hanchor : ∀ s ∈ some anchor, IsPlain s := by
    rintro s ⟨⟩
    exact ha
  exact ((plain_start hc []).through hanchor he 1).connect ..

/-- Walking through the main formula on a plain canvas is plain. -/
theorem plain_fullWalk (hc : c.graph.Plain result) (name id : String) {e : Expr}
    (he : ∀ s ∈ e.identifiers, Text.IsName s) : (fullWalk name id e c).Plain := by
  have hanchor : ∀ s ∈ (none : Option String), IsPlain s := fun _ hs => absurd hs (by simp)
  have hwalk := (plain_start hc [(.name name, id)]).through hanchor he 1
  unfold fullWalk
  dsimp only
  split
  · exact hwalk
  · exact hwalk.connect ..

end Layer

namespace Layout

variable {α : Type} [Coordinate α] {b : Book} {result : Node α}

mutual

/-- Opening a formula at a node with a plain id keeps the texts plain, however deep it nests. -/
theorem plain_openAt (m : Measures α) (anchor : Node α) (spacing : α) :
    ∀ (p : Plan) (c : Canvas α), p.Grounded b → IsPlain anchor.id → c.graph.Plain result →
      (openAt m anchor spacing p c).graph.Plain result
  | .closed name reason, c, _, _, hc => by rwa [openAt_closed]
  | .opened name text e inner, c, hp, ha, hc => by
    cases hp with
    | opened htext hparse hnames hinner =>
      rw [openAt_opened]
      have hwalk : (Layer.opened m anchor spacing e c).walk.Plain :=
        Layer.plain_openedWalk hc ha (Expr.isUnsigned_of_parse hparse).2
      exact plain_openAll m _ _ inner _ hinner (Layer.isPlain_of_mem_mentions hwalk)
        (Layer.plain_onto hc hwalk)

/-- Opening formulas at nodes with plain ids keeps the texts plain. -/
theorem plain_openAll (m : Measures α) (as : List (Node α)) (spacing : α) :
    ∀ (ps : List Plan) (c : Canvas α), (∀ p ∈ ps, p.Grounded b) → (∀ a ∈ as, IsPlain a.id) →
      c.graph.Plain result → (openAll m as spacing ps c).graph.Plain result
  | [], c, _, _, hc => by rwa [openAll_nil]
  | p :: ps, c, hps, has, hc => by
    cases as with
    | nil => rwa [openAll_no_anchors]
    | cons a as =>
      rw [openAll_cons]
      rw [List.forall_mem_cons] at hps has
      exact plain_openAll m as spacing ps _ hps.2 has.2
        (plain_openAt m a spacing p c hps.1 has.1 hc)

end

/-- The names of a formula that does not parse keep the texts plain. -/
theorem plain_drawFlat (m : Measures α) (id text : String) {names : List String}
    (hnames : ∀ s ∈ names, IsPlain s) {c : Canvas α} (hc : c.graph.Plain result) :
    (drawFlat m id text names c).graph.Plain result := by
  have hoperation : IsPlain (RawScan.operation text) := by
    unfold RawScan.operation
    split_ifs <;> decide
  have hentries : ∀ entry ∈ names.zipIdx, IsPlain entry.1 :=
    fun entry hentry => hnames _ (List.fst_mem_of_mem_zipIdx hentry)
  rw [drawFlat]
  generalize names.length = count
  generalize names.zipIdx = entries at hentries
  induction entries generalizing c with
  | nil => exact hc
  | cons entry entries ih =>
    obtain ⟨hentry, hrest⟩ := List.forall_mem_cons.mp hentries
    rw [List.foldl_cons]
    refine ih ⟨fun n hn => ?_, fun e he => ?_⟩ hrest
    · rcases List.mem_append.mp hn with hn | hn
      · exact hc.nodes n hn
      · rw [List.mem_singleton.mp hn]
        exact .inr ⟨isPlain_claimNode hentry _, hentry⟩
    · rcases List.mem_append.mp he with he | he
      · exact hc.edges e he
      · rw [List.mem_singleton.mp he]
        rintro s ⟨⟩
        exact hoperation

omit [Coordinate α] in
/-- On the first canvas there is only the result node, so all else is plain. -/
theorem plain_firstCanvas (m : Measures α) (name : String) :
    (firstCanvas m name).graph.Plain (resultNode m name) :=
  ⟨fun _ hn => .inl (List.mem_singleton.mp hn), fun _ he => absurd he List.not_mem_nil⟩

/-- A drawing is what stands on a sound canvas, and all its texts are plain but those of the result
node. -/
theorem exists_canvas_of (b : Book) (m : Measures α) (selected : List String) (name : String) :
    ∃ c : Canvas α, of b m selected name = c.graph ∧ c.Sound ∧
      c.graph.Plain (resultNode m name) := by
  have hplain := plain_firstCanvas m name
  have hsound : (firstCanvas m name).Sound := Ids.tracks_nil.claimNode name
  rw [of]
  cases htext : b.formula? name with
  | none =>
    simp only [Scheme.of, htext]
    refine ⟨⟨{}, [], []⟩, rfl, Ids.tracks_nil, ?_⟩
    exact ⟨fun _ hn => absurd hn List.not_mem_nil, fun _ he => absurd he List.not_mem_nil⟩
  | some text =>
    cases hparse : Expr.parse text with
    | error reason =>
      have hvars : (Analysis.of text).vars = RawScan.vars text := by
        simp only [Analysis.of, hparse]
      simp only [Scheme.of, htext, hparse, hvars]
      exact ⟨_, rfl, sound_drawFlat m text _ hsound List.mem_cons_self,
        plain_drawFlat m _ text (fun _ => isPlain_of_mem_vars) hplain⟩
    | ok e =>
      obtain ⟨parts, hscheme, -, hparts⟩ :=
        scheme_of_parse m.maxExpansionDepth selected htext hparse
      have hwalk : (Layer.full m name (resultNode m name).id e (firstCanvas m name)).walk.Plain :=
        Layer.plain_fullWalk hplain name _ (Expr.isUnsigned_of_parse hparse).2
      rw [hscheme, draw_full]
      exact ⟨_, rfl, sound_drawFull m name e parts hsound List.mem_cons_self,
        plain_openAll m _ _ parts _ hparts (Layer.isPlain_of_mem_mentions hwalk)
          (Layer.plain_onto hplain hwalk)⟩

end Layout

/-! ## The text of a drawing -/

namespace Dot

/-- What is said about a node: that it is there, with its label, the colour and the shape of its
kind, and its place. -/
def nodeReading (n : Node Binary64) : Reading :=
  .node ⟨denoted n.id, []⟩ [(.text "label", denoted n.label),
    (.text "fillcolor", .text (nodeStyle n.kind).1), (.text "pos", .text (position n.x n.y)),
    (.text "shape", .text (nodeStyle n.kind).2)]

/-- What is said about an edge: the nodes it joins, as the texts of its ends are read, with its
operation, if it has one, and the line of its kind. -/
def edgeReading (endOf : String → End) (e : Edge) : Reading :=
  .edge (endOf e.source) (endOf e.target)
    ((e.operation.map fun s => (Ident.text "label", Ident.text s)).toList ++
      [(.text "style", .text (edgeStyle e.kind))])

/-- A quotable value under a bare key without line ends makes an attribute that is read back. -/
theorem Quotable.legible {value : String} (h : Quotable value) {key : String}
    (hkey : isBare key = true ∧ '\n' ∉ key.toList) : (Attribute.mk key value).Legible :=
  ⟨hkey.1, hkey.2, h⟩

/-- The statement written for a node is read as what is said about it. -/
theorem reads_ofNode {n : Node Binary64} (hid : Quotable n.id) (hlabel : Quotable n.label) :
    (ofNode n).Reads (nodeReading n) := by
  have hstyle : IsPlain (nodeStyle n.kind).1 ∧ IsPlain (nodeStyle n.kind).2 := by
    cases n.kind <;> decide
  have hposition := isPlain_position n.x n.y
  have hattributes : ∀ a ∈ [Attribute.mk "label" n.label, ⟨"fillcolor", (nodeStyle n.kind).1⟩,
      ⟨"pos", position n.x n.y⟩, ⟨"shape", (nodeStyle n.kind).2⟩], a.Legible := by
    simp only [List.forall_mem_cons, List.not_mem_nil, false_implies, implies_true, and_true]
    exact ⟨hlabel.legible (by decide), hstyle.1.whole.legible (by decide),
      hposition.whole.legible (by decide), hstyle.2.whole.legible (by decide)⟩
  have hreads := Statement.Reads.node hid hattributes
  simp only [List.map_cons, List.map_nil, Attribute.reading, hstyle.1.denoted_eq,
    hstyle.2.denoted_eq, hposition.denoted_eq] at hreads
  exact hreads

/-- The statement written for an edge is read as what is said about it, with its ends as they are
read. -/
theorem reads_ofEdge {e : Edge} {endOf : String → End} (hs : EndReads e.source (endOf e.source))
    (ht : EndReads e.target (endOf e.target)) (hoperation : ∀ s ∈ e.operation, IsPlain s) :
    (ofEdge e).Reads (edgeReading endOf e) := by
  have hstyle : IsPlain (edgeStyle e.kind) := by cases e.kind <;> decide
  have hlegible : (Attribute.mk "style" (edgeStyle e.kind)).Legible :=
    hstyle.whole.legible (by decide)
  unfold ofEdge edgeReading
  cases hlabel : e.operation with
  | none =>
    have hreads := Statement.Reads.edge hs ht (List.forall_mem_singleton.mpr hlegible)
    simpa [Attribute.reading, hstyle.denoted_eq] using hreads
  | some s =>
    have hplain := hoperation s hlabel
    have hreads := Statement.Reads.edge hs ht (List.forall_mem_cons.mpr
      ⟨hplain.whole.legible (by decide : isBare "label" = true ∧ '\n' ∉ "label".toList),
        List.forall_mem_singleton.mpr hlegible⟩)
    simpa [Attribute.reading, hstyle.denoted_eq, hplain.denoted_eq] using hreads

section

variable (b : Book) (m : Measures Binary64) (selected : List String) {name : String}

/-- A drawing is read as its nodes and edges, as the texts of their ends are read. -/
theorem read?_source_of_endReads (hname : Quotable name) {endOf : String → End}
    (hends : ∀ n ∈ (Layout.of b m selected name).nodes, EndReads n.id (endOf n.id)) :
    let g := Layout.of b m selected name
    read? (source g name) =
      some (g.nodes.map nodeReading ++ g.edges.map (edgeReading endOf)) := by
  intro g
  obtain ⟨c, hc, hsound, hplain⟩ := Layout.exists_canvas_of b m selected name
  rw [← hc] at hplain
  have hwell : g.WellFormed := by
    rw [show g = c.graph from hc]
    exact hsound.wellFormed
  have hends' (id : String) (hid : id ∈ g.nodes.map Node.id) : EndReads id (endOf id) := by
    obtain ⟨n, hn, rfl⟩ := List.mem_map.mp hid
    exact hends n hn
  have hnodes : ∀ n ∈ g.nodes, (ofNode n).Reads (nodeReading n) := by
    intro n hn
    rcases hplain.nodes n hn with rfl | ⟨hid, hlabel⟩
    exacts [reads_ofNode hname hname,
      reads_ofNode hid.whole.toQuotable hlabel.whole.toQuotable]
  have hedges : ∀ e ∈ g.edges, (ofEdge e).Reads (edgeReading endOf e) := by
    intro e he
    obtain ⟨hs, ht⟩ := hwell.ends_mem e he
    exact reads_ofEdge (hends' _ hs) (hends' _ ht) (hplain.edges e he)
  have hcomment : '\n' ∉ ("Expression graph for " ++ name).toList := by
    rw [String.toList_append, List.mem_append, not_or]
    exact ⟨by decide, hname.noLineFeed⟩
  refine read?_digraph hcomment (List.rel_append ?_ ?_)
  · rw [List.forall₂_map_left_iff, List.forall₂_map_right_iff, List.forall₂_same]
    exact hnodes
  · rw [List.forall₂_map_left_iff, List.forall₂_map_right_iff, List.forall₂_same]
    exact hedges

/-- In a drawing every id but that of the result node is plain. -/
theorem id_cases {n : Node Binary64} (hn : n ∈ (Layout.of b m selected name).nodes) :
    n.id = name ∨ IsPlain n.id := by
  obtain ⟨c, hc, -, hplain⟩ := Layout.exists_canvas_of b m selected name
  rw [← hc] at hplain
  rcases hplain.nodes n hn with rfl | h
  exacts [.inl rfl, .inr h.1]

/-- The text of every drawing is read back as the drawing. There is one statement for every node and
every edge, in order, with what is shown of it; different nodes have different identifiers, and the
ends of an edge are the identifiers of the nodes it joins. This holds whatever the formulas are and
whatever is opened; the name drawn must be without colons and line feeds, and its identifier must
end where the name ends. -/
theorem read?_source (hname : Whole name) :
    let g := Layout.of b m selected name
    read? (source g name) =
        some (g.nodes.map nodeReading ++ g.edges.map (edgeReading fun id => ⟨denoted id, []⟩)) ∧
      (g.nodes.map fun n => denoted n.id).Nodup ∧
      ∀ e ∈ g.edges, ∃ s ∈ g.nodes, ∃ t ∈ g.nodes, s.id = e.source ∧ t.id = e.target := by
  intro g
  obtain ⟨c, hc, hsound, -⟩ := Layout.exists_canvas_of b m selected name
  have hwell : g.WellFormed := by
    rw [show g = c.graph from hc]
    exact hsound.wellFormed
  have hid (id : String) (h : id ∈ g.nodes.map Node.id) : id = name ∨ IsPlain id := by
    obtain ⟨n, hn, rfl⟩ := List.mem_map.mp h
    exact id_cases b m selected hn
  refine ⟨?_, ?_, fun e he => ?_⟩
  · refine read?_source_of_endReads b m selected hname.toQuotable fun n hn => .whole ?_
    rcases id_cases b m selected hn with h | h
    exacts [h ▸ hname, h.whole]
  · have hnodup := hwell.nodup_nodes.map_on (f := denoted) fun id h id' h' heq => ?_
    · rwa [List.map_map] at hnodup
    · rcases hid id h, hid id' h' with ⟨rfl | hp, rfl | hp'⟩
      · rfl
      · exact hname.eq_of_denoted_eq hp' (heq.trans hp'.denoted_eq)
      · exact (hname.eq_of_denoted_eq hp (heq.symm.trans hp.denoted_eq)).symm
      · exact Ident.text.inj (hp.denoted_eq.symm.trans (heq.trans hp'.denoted_eq))
  · obtain ⟨hs, ht⟩ := hwell.ends_mem e he
    obtain ⟨s, hs, hsource⟩ := List.mem_map.mp hs
    obtain ⟨t, ht, htarget⟩ := List.mem_map.mp ht
    exact ⟨s, hs, t, ht, hsource, htarget⟩

end

/-- A quote gets a backslash of its own, and a pair of them at the end of the name stays. -/
theorem read?_source_quote :
    let b := Book.ofList [("5\" \\\\", "x + y * x"), ("y", "z -")]
    let g := Layout.of b Measures.standard ["y"] "5\" \\\\"
    Whole "5\" \\\\" ∧
      g.nodes.map (fun n => denoted n.id) =
        [.text "5\" \\\\", .text "op_0", .text "x", .text "op_1", .text "y"] ∧
      read? (source g "5\" \\\\") =
        some (g.nodes.map nodeReading ++ g.edges.map (edgeReading fun id => ⟨denoted id, []⟩)) := by
  intro b g
  have hname : Whole "5\" \\\\" := ⟨by decide, by decide⟩
  exact ⟨hname, by decide +kernel, (read?_source b Measures.standard ["y"] hname).1⟩

/-- With a colon in the name drawn, what stands behind it is read as a place: the edges to the
result node are read as edges to a node that is called like what stands in front. -/
theorem read?_source_of_colon (b : Book) (m : Measures Binary64) (selected : List String)
    {s place : String} (hs : Whole s) (hplace : Whole place) (hne : place ≠ "")
    (hname : Quotable (s ++ ":" ++ place)) :
    let name := s ++ ":" ++ place
    let g := Layout.of b m selected name
    read? (source g name) = some (g.nodes.map nodeReading ++ g.edges.map (edgeReading fun id =>
      if id = name then ⟨denoted s, [denoted place]⟩ else ⟨denoted id, []⟩)) := by
  intro name g
  refine read?_source_of_endReads b m selected hname fun n hn => ?_
  split
  · rename_i hid
    rw [hid]
    exact .place hs hplace hne
  · rename_i hid
    exact .whole ((id_cases b m selected hn).resolve_left hid).whole

/-- The value of this formula goes to a node that no statement declares, and nothing goes to the
result node. -/
theorem read?_source_colon :
    let b := Book.ofList [("a:b", "x + y")]
    let g := Layout.of b Measures.standard [] "a:b"
    g.edges.map (fun e => (e.source, e.target)) =
        [("x", "op_0"), ("y", "op_0"), ("op_0", "a:b")] ∧
      ∃ readings, read? (source g "a:b") = some readings ∧
        Reading.edge ⟨.text "op_0", []⟩ ⟨.text "a", [.text "b"]⟩ [(.text "style", .text "bold")] ∈
          readings ∧
        readings.filterMap Reading.declared? =
          [⟨.text "a:b", []⟩, ⟨.text "op_0", []⟩, ⟨.text "x", []⟩, ⟨.text "y", []⟩] := by
  intro b g
  have hread := read?_source_of_colon b Measures.standard [] (s := "a") (IsPlain.whole (by decide))
    (IsPlain.whole (s := "b") (by decide)) (by decide) ⟨by decide, by decide⟩
  rw [show "a" ++ ":" ++ "b" = "a:b" from by decide] at hread
  refine ⟨by decide +kernel, _, hread, List.mem_append_right _ ?_, ?_⟩
  · decide +kernel
  · decide +kernel

end Dot

end FormulaBook
