import FormulaBook.Proofs.Joints
import FormulaBook.Proofs.WordMaps

/-!
# What the raw scans see of the tokens

The pieces of a text and the operators found in it are read off the raw text, by rules of their own.
They agree with the scanner all the same (`RawScan.agrees_with_scan`). The scanner cuts a text at
every blank and on both sides of a parenthesis, so the tokens of the pieces are those of the text
(`RawScan.flatMap_pieces`). A character makes an operator for the one scan exactly if it does for
the other, but for the percent sign, which the scanner takes for a part of a word, and both take two
stars for one operator (`RawScan.filter_symbolsFrom`). In a text that parses there is no percent
sign, and an operator that is not one of the tree is a sign (`Derives.mem_symbols`).
-/

namespace FormulaBook

open Text Token

namespace Token

/-! ## One character of no word -/

/-- The token of a character that is one on its own; none for a blank. -/
def single (c : Char) (p : Nat) : List Token :=
  if isBlank c then []
  else if c = '(' then [⟨.openParen, .text "(", p⟩]
  else if c = ')' then [⟨.closeParen, .text ")", p⟩]
  else [ofOperator (String.singleton c) p]

/-- A character of no word ends the word that has begun, unless it is the first of two stars. -/
theorem scanFrom_single {c : Char} {cs : List Char} (hc : ¬isWordChar c = true)
    (hstars : ∀ ds, c = '*' → cs = '*' :: ds → False) (word : List Char) (p : Nat) :
    scanFrom word p (c :: cs) = endWord word p ++ (single c p ++ scanFrom [] (p + 1) cs) := by
  rw [scanFrom, if_neg hc]
  · unfold single
    split
    · rfl
    · split
      · rfl
      · split <;> rfl
  · exact hstars

/-! ## Tokens without their positions -/

/-- What a token is, wherever it stands. -/
def content (t : Token) : Kind × Value := (t.kind, t.value)

/-- What a word is read as does not depend on where it stands. -/
theorem map_content_endWord (word : List Char) (p q : Nat) :
    (endWord word p).map content = (endWord word q).map content := by
  unfold endWord
  split
  · rfl
  · unfold ofWord
    split <;> rfl

/-- What a character is read as does not depend on where it stands. -/
theorem map_content_single (c : Char) (p q : Nat) :
    (single c p).map content = (single c q).map content := by
  unfold single
  split
  · rfl
  · split
    · rfl
    · split <;> rfl

/-- What a text is cut into does not depend on where it stands. -/
theorem map_content_scanFrom (word : List Char) (p q : Nat) (cs : List Char) :
    (scanFrom word p cs).map content = (scanFrom word q cs).map content := by
  induction word, p, cs using scanFrom.induct generalizing q with
  | case1 word p => exact map_content_endWord word p q
  | case2 word p cs ih =>
    rw [scanFrom, scanFrom, List.map_append, List.map_append, List.map_cons, List.map_cons,
      map_content_endWord word p q, ih (q + 2)]
    rfl
  | case3 word p c cs hstars hc ih =>
    rw [scanFrom, if_pos hc, scanFrom, if_pos hc]
    · exact ih (q + 1)
    · exact hstars
    · exact hstars
  | case4 word p c cs hstars hc ih =>
    simp only [scanFrom_single hc hstars, List.map_append]
    rw [map_content_endWord word p q, map_content_single c p q, ih (q + 1)]

/-- What a text is cut into, without positions. -/
def contents (cs : List Char) : List (Kind × Value) := (scanFrom [] 0 cs).map content

/-- From any position on, scanning gives the contents of the text. -/
theorem map_content_scanFrom_nil (p : Nat) (cs : List Char) :
    (scanFrom [] p cs).map content = contents cs :=
  map_content_scanFrom [] p 0 cs

/-- A text is cut in front of a character that is of no word and no star. -/
theorem map_content_append {c : Char} (hc : isWordChar c = false) (hstar : c ≠ '*')
    (rest : List Char) (word : List Char) (p : Nat) (cs : List Char) :
    (scanFrom word p (cs ++ c :: rest)).map content =
      (scanFrom word p cs).map content ++ contents (c :: rest) := by
  induction word, p, cs using scanFrom.induct with
  | case1 word p =>
    have hboundary : Boundary (c :: rest) := by
      rintro _ ⟨⟩
      exact hc
    rw [List.nil_append, scanFrom_boundary hboundary, List.map_append, map_content_scanFrom_nil]
    rfl
  | case2 word p cs ih =>
    rw [List.cons_append, List.cons_append, scanFrom, scanFrom, List.map_append, List.map_append,
      List.map_cons, List.map_cons, ih, List.append_assoc, List.cons_append]
  | case3 word p d cs hstars hd ih =>
    have hdstar : d ≠ '*' := by
      rintro rfl
      exact absurd hd (by decide)
    rw [List.cons_append, scanFrom, if_pos hd, scanFrom, if_pos hd]
    · exact ih
    · exact hstars
    · exact fun _ h => absurd h hdstar
  | case4 word p d cs hstars hd ih =>
    have hstars' : ∀ ds, d = '*' → cs ++ c :: rest = '*' :: ds → False := by
      intro ds hdstar hds
      cases cs with
      | nil => exact hstar (List.cons.inj hds).1
      | cons e cs => exact hstars cs hdstar (congrArg (· :: cs) (List.cons.inj hds).1)
    rw [List.cons_append, scanFrom_single hd hstars, scanFrom_single hd hstars']
    simp only [List.map_append, ih, List.append_assoc]

/-! ## Pieces -/

/-- A blank only parts what is around it. -/
theorem contents_append_blank {c : Char} (hc : isBlank c = true) (cs rest : List Char) :
    contents (cs ++ c :: rest) = contents cs ++ contents rest := by
  have hword : isWordChar c = false := by simp [isWordChar, hc]
  have hstar : c ≠ '*' := by
    rintro rfl
    cases hc
  have hrest : contents (c :: rest) = contents rest := by
    rw [contents, scanFrom_blank hc, map_content_scanFrom_nil]
  rw [contents, map_content_append hword hstar, hrest]
  rfl

end Token

namespace RawScan

/-- The text with blanks around its parentheses. -/
def padded (cs : List Char) : List Char :=
  cs.flatMap fun c => if c = '(' ∨ c = ')' then [' ', c, ' '] else [c]

/-- A parenthesis in front gets its blanks. -/
theorem padded_cons_of_paren {c : Char} (hc : c = '(' ∨ c = ')') (cs : List Char) :
    padded (c :: cs) = ' ' :: c :: ' ' :: padded cs := by
  rw [padded, List.flatMap_cons, if_pos hc]
  rfl

/-- A character in front that is no parenthesis gets no blanks. -/
theorem padded_cons {c : Char} (hc : ¬(c = '(' ∨ c = ')')) (cs : List Char) :
    padded (c :: cs) = c :: padded cs := by
  rw [padded, List.flatMap_cons, if_neg hc]
  rfl

/-- No star comes to the front. -/
theorem exists_of_padded_eq_star {cs ds : List Char} (h : padded cs = '*' :: ds) :
    ∃ es, cs = '*' :: es := by
  cases cs with
  | nil => cases h
  | cons c cs =>
    by_cases hc : c = '(' ∨ c = ')'
    · rw [padded_cons_of_paren hc] at h
      cases h
    · rw [padded_cons hc] at h
      exact ⟨cs, congrArg (· :: cs) (List.cons.inj h).1⟩

/-- Blanks around parentheses change nothing. -/
theorem map_content_padded (word : List Char) (p : Nat) (cs : List Char) :
    (scanFrom word p (padded cs)).map content = (scanFrom word p cs).map content := by
  induction word, p, cs using scanFrom.induct with
  | case1 word p => rfl
  | case2 word p cs ih =>
    have hstar : ¬('*' = '(' ∨ '*' = ')') := by decide
    rw [padded_cons hstar, padded_cons hstar, scanFrom, scanFrom, List.map_append, List.map_append,
      List.map_cons, List.map_cons, ih]
  | case3 word p c cs hstars hc ih =>
    have hparen : ¬(c = '(' ∨ c = ')') := by
      rintro (rfl | rfl) <;> exact absurd hc (by decide)
    have hstar : c ≠ '*' := by
      rintro rfl
      exact absurd hc (by decide)
    rw [padded_cons hparen, scanFrom, if_pos hc, scanFrom, if_pos hc]
    · exact ih
    · exact hstars
    · exact fun _ h => absurd h hstar
  | case4 word p c cs hstars hc ih =>
    by_cases hparen : c = '(' ∨ c = ')'
    · -- the blank in front ends the word, and the one behind begins none
      have hsingle : contents [c] = (single c 0).map content := by
        rcases hparen with rfl | rfl <;> rfl
      have hspace : isBlank ' ' = true := by decide
      have hfront :
          contents (' ' :: c :: ' ' :: padded cs) = contents [c] ++ contents (padded cs) :=
        (contents_append_blank hspace [] _).trans (contents_append_blank hspace [c] _)
      rw [map_content_scanFrom_nil, map_content_scanFrom_nil] at ih
      rw [padded_cons_of_paren hparen, scanFrom_single hc hstars, ← List.nil_append (' ' :: _),
        map_content_append (by decide) (by decide), hfront, hsingle, ih]
      simp only [List.map_append, map_content_scanFrom_nil, map_content_single c p 0]
      rfl
    · have hstars' : ∀ ds, c = '*' → padded cs = '*' :: ds → False := by
        intro ds hstar hds
        obtain ⟨es, hes⟩ := exists_of_padded_eq_star hds
        exact hstars es hstar hes
      rw [padded_cons hparen, scanFrom_single hc hstars, scanFrom_single hc hstars']
      simp only [List.map_append, ih]

/-- The words of a text are cut like the text. -/
theorem flatMap_contents_runs (cs : List Char) :
    (runs (!isBlank ·) cs).flatMap contents = contents cs := by
  have hfree {as : List Char} (has : ∀ c ∈ as, isBlank c = false) :
      (runs (!isBlank ·) as).flatMap contents = contents as := by
    by_cases hne : as = []
    · rw [hne]
      rfl
    · rw [runs_of_forall hne fun c hc => by simp [has c hc], List.flatMap_singleton]
  induction cs using cut_induction (p := isBlank) with
  | free as has => exact hfree has
  | cut as c bs has hc ih =>
    rw [runs_append (by simp [hc]), List.flatMap_append, hfree has, ih, contents_append_blank hc]

/-- The pieces of a text are cut like the text. -/
theorem flatMap_pieces (f : String) :
    (pieces f).flatMap (fun piece => (scan piece).map content) = (scan f).map content := by
  have hpieces : pieces f = (runs (!isBlank ·) (padded f.toList)).map String.ofList := rfl
  have hpiece (w : List Char) : (scan (String.ofList w)).map content = contents w := by
    rw [scan, String.toList_ofList]
    rfl
  rw [hpieces, List.flatMap_map]
  simp only [hpiece]
  rw [flatMap_contents_runs]
  exact map_content_padded [] 0 f.toList

/-! ## Operators -/

/-- The operator symbol of a character that is one on its own; a caret is reported as two stars. -/
def symbolOf (c : Char) : List String :=
  if c = '^' then ["**"] else if c ∈ ['+', '-', '*', '/', '%'] then [String.singleton c] else []

/-- A character that does not begin a pair of stars is taken on its own. -/
theorem symbolsFrom_cons {c : Char} {cs : List Char}
    (hstars : ∀ ds, c = '*' → cs = '*' :: ds → False) :
    symbolsFrom (c :: cs) = symbolOf c ++ symbolsFrom cs := by
  rw [symbolOf]
  by_cases hcaret : c = '^'
  · subst hcaret
    rfl
  · rw [if_neg hcaret, symbolsFrom]
    · split <;> rfl
    · exact hstars
    · exact hcaret

/-- A character with a property that no operator sign has is no operator symbol. -/
theorem symbolOf_eq_nil {p : Char → Bool}
    (hsigns : ['^', '+', '-', '*', '/', '%'].all (fun d => !p d) = true) {c : Char}
    (hc : p c = true) : symbolOf c = [] := by
  have hnot : c ∉ ['^', '+', '-', '*', '/', '%'] := fun hmem => by
    simpa [hc] using List.all_eq_true.mp hsigns c hmem
  rw [List.mem_cons, not_or] at hnot
  rw [symbolOf, if_neg hnot.1, if_neg hnot.2]

/-- The only operator symbol that is of a word is the percent sign. -/
theorem filter_symbolOf_of_isWordChar {c : Char} (hc : isWordChar c = true) :
    (symbolOf c).filter (· != "%") = [] := by
  by_cases hpercent : c = '%'
  · subst hpercent
    decide
  · have hword : (isWordChar c && c != '%') = true := by simp [hc, hpercent]
    rw [symbolOf_eq_nil (p := fun d => isWordChar d && d != '%') (by decide) hword]
    rfl

/-- A character of no word has the symbol of its token. -/
theorem filter_symbolOf {c : Char} (hc : isWordChar c = false) (p : Nat) :
    (symbolOf c).filter (· != "%") = (single c p).filterMap symbol? := by
  simp only [isWordChar, isOperatorChar, Bool.not_eq_false', Bool.or_eq_true, beq_iff_eq] at hc
  obtain ((hblank | hc) | rfl) | rfl := hc
  · rw [symbolOf_eq_nil (by decide) hblank, single, if_pos hblank]
    rfl
  · obtain (((rfl | rfl) | rfl) | rfl) | rfl := hc <;> rfl
  · rfl
  · rfl

/-- No word is an operator. -/
theorem filterMap_symbol?_endWord (word : List Char) (p : Nat) :
    (endWord word p).filterMap symbol? = [] := by
  rw [List.filterMap_eq_nil_iff]
  intro t ht
  obtain ⟨cs, q, rfl⟩ := mem_endWord ht
  refine symbol?_of_ne ?_
  unfold ofWord
  split <;> exact nofun

/-- Without the percent signs, the scan for operators yields the symbols of the operator tokens. -/
theorem filter_symbolsFrom (word : List Char) (p : Nat) (cs : List Char) :
    (symbolsFrom cs).filter (· != "%") = (scanFrom word p cs).filterMap symbol? := by
  induction word, p, cs using scanFrom.induct with
  | case1 word p => exact (filterMap_symbol?_endWord word p).symm
  | case2 word p cs ih =>
    rw [scanFrom, List.filterMap_append, filterMap_symbol?_endWord, symbolsFrom,
      List.filter_cons_of_pos (by decide), ih]
    rfl
  | case3 word p c cs hstars hc ih =>
    rw [scanFrom, if_pos hc, symbolsFrom_cons hstars, List.filter_append,
      filter_symbolOf_of_isWordChar hc]
    · exact ih
    · exact hstars
  | case4 word p c cs hstars hc ih =>
    rw [scanFrom_single hc hstars, symbolsFrom_cons hstars, List.filter_append,
      filter_symbolOf (Bool.not_eq_true _ ▸ hc) p, List.filterMap_append, List.filterMap_append,
      filterMap_symbol?_endWord, ih]
    rfl

/-- A text with the percent sign among its symbols has it among its characters. -/
theorem percent_mem {cs : List Char} (h : "%" ∈ symbolsFrom cs) : '%' ∈ cs := by
  induction cs using symbolsFrom.induct with
  | case1 => cases h
  | case2 cs ih =>
    rw [symbolsFrom] at h
    rcases List.mem_cons.mp h with h | h
    · exact absurd h (by decide)
    · exact List.mem_cons_of_mem _ (List.mem_cons_of_mem _ (ih h))
  | case3 cs ih =>
    rw [symbolsFrom] at h
    rcases List.mem_cons.mp h with h | h
    · exact absurd h (by decide)
    · exact List.mem_cons_of_mem _ (ih h)
  | case4 c cs hstars hcaret hc ih =>
    rw [symbolsFrom, if_pos hc] at h
    · rcases List.mem_cons.mp h with h | h
      · have hchars := congrArg String.toList h
        rw [String.toList_singleton] at hchars
        rw [← (List.cons.inj hchars).1]
        exact List.mem_cons_self
      · exact List.mem_cons_of_mem _ (ih h)
    · exact hstars
    · exact hcaret
  | case5 c cs hstars hcaret hc ih =>
    rw [symbolsFrom, if_neg hc] at h
    · exact List.mem_cons_of_mem _ (ih h)
    · exact hstars
    · exact hcaret

end RawScan

/-! ## Formulas that parse -/

/-- Links keep the operators of the tree in front of them. -/
theorem Derives.symbols_subset {tier : Tier} {ts : List Token} {left e : Expr}
    (h : Derives (.links tier left) ts e) : left.symbols ⊆ e.symbols :=
  fun _ hs => h.perm_symbols.mem_iff.mpr (List.mem_append_left _ hs)

/-- Every operator token of a phrase is one of the tree, or it is a sign. -/
theorem Derives.mem_symbols {phrase : Phrase} {ts : List Token} {e : Expr} (h : Derives phrase ts e)
    {t : Token} (ht : t ∈ ts) {s : String} (hs : t.symbol? = some s) :
    s ∈ e.symbols ∨ s = "+" ∨ s = "-" := by
  induction h with
  | chain _ hl ihf ihl =>
    rcases List.mem_append.mp ht with ht | ht
    · exact (ihf ht).imp_left fun hs => hl.symbols_subset hs
    · exact ihl ht
  | done => cases ht
  | @link tier s' op p ts us left right e ho _ hl ihr ihl =>
    rcases List.mem_cons.mp ht with rfl | ht
    · rw [ho.symbol?_eq] at hs
      refine .inl (hl.symbols_subset (List.mem_append_right _ ?_))
      exact List.mem_singleton.mpr (Option.some.inj hs).symm
    · rcases List.mem_append.mp ht with ht | ht
      · exact (ihr ht).imp_left fun hs => hl.symbols_subset
          (List.mem_append_left _ (List.mem_append_right _ hs))
      · exact ihl ht
  | @sign sign p ts e _ ih =>
    rcases List.mem_cons.mp ht with rfl | ht
    · cases sign with
      | plus => exact .inr (.inl (Option.some.inj hs).symm)
      | minus => exact .inr (.inr (Option.some.inj hs).symm)
    · exact ih ht
  | unsigned _ ih => exact ih ht
  | number | name =>
    obtain rfl := List.mem_singleton.mp ht
    cases hs
  | @parens l r ts e hl hr _ ih =>
    have hnone {u : Token} (hu : u.kind = .openParen ∨ u.kind = .closeParen) :
        u.symbol? = none := by
      refine symbol?_of_ne fun hk => ?_
      rw [hk] at hu
      cases hu <;> contradiction
    rcases List.mem_cons.mp ht with rfl | ht
    · rw [hnone (.inl hl)] at hs
      cases hs
    · rcases List.mem_append.mp ht with ht | ht
      · exact ih ht
      · obtain rfl := List.mem_singleton.mp ht
        rw [hnone (.inr hr)] at hs
        cases hs

/-- The operators of a tree are among the operator tokens of its formula. -/
theorem Derives.exists_of_mem_symbols {ts : List Token} {e : Expr} (h : Derives (.chain .sum) ts e)
    {s : String} (hs : s ∈ e.symbols) : ∃ t ∈ ts, t.symbol? = some s := by
  have hjoint : s ∈ joints false ts := h.perm_symbols.mem_iff.mp hs
  rcases mem_joints.mp hjoint with ⟨hfalse, -⟩ | ⟨t, u, hpair, -, hu⟩
  · cases hfalse
  · exact ⟨u, hpair.subset (List.mem_cons_of_mem _ List.mem_cons_self), hu⟩

/-- No formula has a percent sign. -/
theorem Written.percent_not_mem {phrase : Phrase} {cs : List Char} {e : Expr}
    (h : Written phrase cs e) : '%' ∉ cs := by
  induction h with
  | single _ ih | unsigned _ ih => exact ih
  | @snoc tier s op as bs left right _ ho _ ihl ihr =>
    have hop : '%' ∉ s.toList := by cases ho <;> decide
    simp only [List.mem_append, ihl, ihr, hop, or_self, not_false_eq_true]
  | @sign s cs e _ ih =>
    rw [List.mem_append, not_or]
    refine ⟨?_, ih⟩
    cases s <;> decide
  | @number cs d hword hd =>
    intro hmem
    have hnumeral := Decimal.ofLiteral?_isSome_iff.mp (Option.isSome_of_eq_some hd)
    rcases hnumeral.of_mem hmem with h | h | h | h
    · exact absurd h (by decide)
    all_goals cases h
  | name hs => exact fun hmem => absurd (hs.continuesName _ hmem) (by decide)
  | parens _ ih => simpa using ih

namespace RawScan

/-- What is read off a raw text against its tokens: the pieces are cut into the tokens of the text,
and the operators found are those of the operator tokens, besides percent signs. If the text parses,
the operators of its tree are among those found, and the others are signs. -/
theorem agrees_with_scan (f : String) :
    (pieces f).flatMap (fun piece => (scan piece).map content) = (scan f).map content ∧
    (∀ s, s ∈ operators f ∧ s ≠ "%" ↔ ∃ t ∈ scan f, t.symbol? = some s) ∧
    ∀ e, Expr.parse f = .ok e →
      e.operators ⊆ operators f ∧ ∀ s ∈ operators f, s ∉ e.operators → s = "+" ∨ s = "-" := by
  have hfound (s : String) : s ∈ operators f ∧ s ≠ "%" ↔ ∃ t ∈ scan f, t.symbol? = some s := by
    rw [operators, mem_ascending, ← List.mem_filterMap, scan, ← filter_symbolsFrom, List.mem_filter,
      bne_iff_ne]
  refine ⟨flatMap_pieces f, hfound, fun e he => ?_⟩
  have hderives : Derives (.chain .sum) (scan f) e := Expr.derives_of_ofTokens he
  constructor
  · intro s hs
    rw [Expr.operators, mem_ascending] at hs
    exact ((hfound s).mpr (hderives.exists_of_mem_symbols hs)).1
  · intro s hs hnot
    have hpercent : s ≠ "%" := by
      rintro rfl
      rw [operators, mem_ascending] at hs
      refine (Expr.written_of_parse he).percent_not_mem (List.mem_filter.mpr ⟨percent_mem hs, ?_⟩)
      decide
    obtain ⟨t, ht, hsymbol⟩ := (hfound s).mp ⟨hs, hpercent⟩
    rw [Expr.operators, mem_ascending] at hnot
    exact (hderives.mem_symbols ht hsymbol).resolve_left hnot

/-- Two of the operators found are signs. One piece has several tokens. -/
theorem agrees_with_scan_signs :
    let f := "-(2)^+b"
    (pieces f = ["-", "(", "2", ")", "^+b"] ∧
      (pieces f).flatMap (fun piece => (scan piece).map content) = (scan f).map content) ∧
    ∃ e, Expr.parse f = .ok e ∧ e.operators = ["**"] ∧ operators f = ["**", "+", "-"] ∧
      e.operators ⊆ operators f ∧ ∀ s ∈ operators f, s ∉ e.operators → s = "+" ∨ s = "-" := by
  intro f
  let e : Expr := .binary .power (.signed .minus (.number (.ofDecimal false ⟨2, 0⟩)))
    (.signed .plus (.identifier "b"))
  have hparse : Expr.parse f = .ok e := by decide +kernel
  obtain ⟨hpieces, -, hoperators⟩ := agrees_with_scan f
  exact ⟨⟨by decide +kernel, hpieces⟩, e, hparse, by decide +kernel, by decide +kernel,
    hoperators e hparse⟩

end RawScan

end FormulaBook
