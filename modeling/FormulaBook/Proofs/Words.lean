import FormulaBook.Proofs.Characters
import FormulaBook.Proofs.RawScans
import Mathlib.Data.List.Chain

/-!
# Words of a formula

The words of a text are its maximal runs of word characters: what is read as numbers and names. In a
text that parses an operator or a parenthesis stands between any two of them (`Derives.apart`), so
it has the same words without its blanks (`Expr.runs_unspaced_of_parse`). No group stands right
beside a word or another group (`Written.detached`).
-/

namespace FormulaBook

open Text Token

/-- Whether the token is a number or an identifier. -/
def Token.isWord (t : Token) : Bool := t.kind = .number || t.kind = .identifier

/-- One of two neighbouring tokens is neither a number nor an identifier. -/
def Token.Apart (t u : Token) : Prop := ¬(t.isWord = true ∧ u.isWord = true)

/-- Characters behind a text are in runs of their own if they do not begin with a character of a
run. -/
theorem Text.runs_append_of_head? {p : Char → Bool} {ds : List Char}
    (h : ds.head?.any p = false) (cs : List Char) : runs p (cs ++ ds) = runs p cs ++ runs p ds := by
  cases ds with
  | nil => simp [runs]
  | cons d ds => rw [runs_append h, runs_cons_of_neg h]

/-- What a word is read as is a number or an identifier. -/
theorem Token.isWord_ofWord (cs : List Char) (p : Int) : (ofWord cs p).isWord = true := by
  unfold ofWord
  split <;> rfl

/-! ## Phrases -/

/-- No two words of a phrase are neighbours, and links do not begin with a word. -/
theorem Derives.apart {phrase : Phrase} {ts : List Token} {e : Expr} (h : Derives phrase ts e) :
    ts.IsChain Apart ∧ (phrase.left?.isSome = true → ∀ t ∈ ts.head?, t.isWord = false) := by
  have hop (s : String) (p : Int) (us : List Token) :
      ∀ u ∈ us.head?, Apart ⟨.operator, .text s, p⟩ u := by
    rintro u _ ⟨⟨⟩, _⟩
  induction h with
  | @chain tier ts us left e _ _ ihf ihl =>
    refine ⟨List.isChain_append.mpr ⟨ihf.1, ihl.1, fun t _ u hu hboth => ?_⟩, nofun⟩
    rw [ihl.2 rfl u hu] at hboth
    cases hboth.2
  | done => exact ⟨.nil, fun _ _ => nofun⟩
  | @link tier s op p ts us left right e _ _ _ ihr ihl =>
    refine ⟨List.isChain_cons.mpr ⟨hop s p _, List.isChain_append.mpr ⟨ihr.1, ihl.1, ?_⟩⟩, ?_⟩
    · intro t _ u hu hboth
      rw [ihl.2 rfl u hu] at hboth
      cases hboth.2
    · rintro _ t ⟨⟩
      rfl
  | @sign s p ts e _ ih => exact ⟨List.isChain_cons.mpr ⟨hop s.symbol p _, ih.1⟩, nofun⟩
  | unsigned _ ih => exact ⟨ih.1, nofun⟩
  | number | name => exact ⟨.singleton _, nofun⟩
  | @parens l r ts e hl hr _ ih =>
    have hword {t : Token} (ht : t.kind = .openParen ∨ t.kind = .closeParen) :
        t.isWord = false := by
      rcases ht with ht | ht <;> simp [isWord, ht]
    refine ⟨List.isChain_cons.mpr ⟨fun u _ hboth => ?_,
      List.isChain_append.mpr ⟨ih.1, .singleton r, ?_⟩⟩, nofun⟩
    · rw [hword (.inl hl)] at hboth
      cases hboth.1
    · rintro t _ u ⟨⟩ hboth
      rw [hword (.inr hr)] at hboth
      cases hboth.2

/-! ## Texts -/

namespace Token

/-- A word that ends is the first token. -/
theorem head?_endWord {word : List Char} (hne : word ≠ []) (p : Nat) (rest : List Token) :
    (endWord word p ++ rest).head?.any isWord = true := by
  rw [endWord, if_neg (by simpa using hne)]
  exact isWord_ofWord _ _

/-- The first token is a word if a word has begun or the first character that is not blank begins
one. -/
theorem head?_scanFrom (word : List Char) (p : Nat) (cs : List Char)
    (h : word ≠ [] ∨ (cs.filter (!isBlank ·)).head?.any isWordChar = true) :
    (scanFrom word p cs).head?.any isWord = true := by
  induction word, p, cs using scanFrom.induct with
  | case1 word p =>
    rw [scanFrom, ← List.append_nil (endWord word p)]
    exact head?_endWord (h.resolve_right Bool.false_ne_true) p []
  | case2 word p cs ih =>
    rw [scanFrom]
    exact head?_endWord (h.resolve_right Bool.false_ne_true) p _
  | case3 word p c cs hstars hc ih =>
    rw [scanFrom, if_pos hc]
    · exact ih (.inl (List.cons_ne_nil c word))
    · exact hstars
  | case4 word p c cs hstars hc ih =>
    rw [scanFrom, if_neg hc]
    · by_cases hne : word = []
      · subst hne
        replace h := h.resolve_left (not_not_intro rfl)
        by_cases hblank : isBlank c = true
        · rw [List.filter_cons_of_neg (by simp [hblank])] at h
          dsimp only
          rw [if_pos hblank]
          exact ih (.inr h)
        · rw [List.filter_cons_of_pos (by simpa using hblank)] at h
          exact absurd h hc
      · exact head?_endWord hne p _
    · exact hstars

/-- No word goes on over blanks. -/
theorem runs_append_of_apart {word : List Char} {p q : Nat} {cs : List Char}
    (h : (endWord word p ++ scanFrom [] q cs).IsChain Apart) :
    runs isWordChar (word.reverse ++ cs.filter (!isBlank ·)) =
      runs isWordChar word.reverse ++ runs isWordChar (cs.filter (!isBlank ·)) := by
  by_cases hne : word = []
  · rw [hne]
    rfl
  · refine runs_append_of_head? ?_ _
    by_contra hhead
    obtain ⟨t, ht, hword⟩ := (Option.any_eq_true _ _).mp
      (head?_scanFrom [] q cs (.inr (Bool.not_eq_false _ ▸ hhead)))
    have hjoin := (List.isChain_append.mp h).2.2
    rw [endWord, if_neg (by simpa using hne)] at hjoin
    exact hjoin _ rfl t ht ⟨isWord_ofWord _ _, hword⟩

/-- If no two words are neighbours among the tokens, the words of a text, after the one that has
begun, are those of the text without its blanks. -/
theorem runs_filter_of_apart (word : List Char) (p : Nat) (cs : List Char)
    (h : (scanFrom word p cs).IsChain Apart) :
    runs isWordChar (word.reverse ++ cs.filter (!isBlank ·)) =
      runs isWordChar (word.reverse ++ cs) := by
  induction word, p, cs using scanFrom.induct with
  | case1 word p => rfl
  | case2 word p cs ih =>
    rw [scanFrom] at h
    have hrest := (List.isChain_cons.mp (List.isChain_append.mp h).2.1).2
    have hstar : isWordChar '*' = false := by decide
    have ih := ih hrest
    rw [List.reverse_nil, List.nil_append, List.nil_append] at ih
    change runs isWordChar (word.reverse ++ '*' :: '*' :: cs.filter (!isBlank ·)) = _
    rw [runs_append hstar, runs_append hstar, runs_cons_of_neg hstar, runs_cons_of_neg hstar, ih]
  | case3 word p c cs hstars hc ih =>
    rw [scanFrom, if_pos hc] at h
    · rw [List.filter_cons_of_pos (by simp [isBlank_of_isWordChar hc])]
      simpa using ih h
    · exact hstars
  | case4 word p c cs hstars hc ih =>
    rw [Bool.not_eq_true] at hc
    rw [scanFrom, if_neg (by simp [hc])] at h
    · rw [runs_append hc]
      have hrest := (List.isChain_append.mp h).2.1
      by_cases hblank : isBlank c = true
      · dsimp only at h
        rw [if_pos hblank] at h hrest
        have ih := ih hrest
        rw [List.reverse_nil, List.nil_append, List.nil_append] at ih
        rw [List.filter_cons_of_neg (by simp [hblank]), runs_append_of_apart h, ih]
      · rw [if_neg hblank] at hrest
        have hnext : (scanFrom [] (p + 1) cs).IsChain Apart := by
          split at hrest
          · exact (List.isChain_cons.mp hrest).2
          · split at hrest <;> exact (List.isChain_cons.mp hrest).2
        have ih := ih hnext
        rw [List.reverse_nil, List.nil_append, List.nil_append] at ih
        rw [List.filter_cons_of_pos (by simpa using hblank), runs_append hc, ih]
    · exact hstars

end Token

/-- The blanks of a text that parses do not part its words: it has the same words without them. -/
theorem Expr.runs_unspaced_of_parse {f : String} {e : Expr} (h : Expr.parse f = .ok e) :
    runs isWordChar (f.toList.filter (!isBlank ·)) = runs isWordChar f.toList := by
  have hscan := (derives_of_ofTokens h).apart.1
  simpa using runs_filter_of_apart [] 0 f.toList hscan

/-! ## Parentheses -/

/-- Whether a character may stand right behind another: no parenthesis opens behind a word, and
behind one that closes neither a word begins nor a parenthesis opens. -/
def Token.MayFollow (c d : Char) : Prop :=
  (d = '(' → isWordChar c = false) ∧ (c = ')' → isWordChar d = false ∧ d ≠ '(')

/-- No word and no group in a text stands right before a group or, behind a group, goes on. -/
def Token.Detached (cs : List Char) : Prop := cs.IsChain MayFollow

namespace Token.Detached

variable {as bs cs : List Char} {c : Char}

/-- A word is detached. -/
theorem of_word (h : ∀ c ∈ cs, isWordChar c = true) : Detached cs := by
  refine List.isChain_iff_forall_rel_of_append_cons_cons.mpr ?_
  rintro c d as bs rfl
  have hc := h c (by simp)
  have hd := h d (by simp)
  constructor
  · rintro rfl
    cases hd
  · rintro rfl
    cases hc

/-- An operator may stand between any two texts. -/
theorem append_cons (has : Detached as) (hbs : Detached bs) (hc : isOperatorChar c = true) :
    Detached (as ++ c :: bs) := by
  have hword : isWordChar c = false := by simp [isWordChar, hc]
  have hne : c ≠ '(' ∧ c ≠ ')' := by
    constructor
    · rintro rfl
      cases hc
    · rintro rfl
      cases hc
  refine has.append (hbs.cons fun d _ => ⟨fun _ => hword, fun h => absurd h hne.2⟩) ?_
  rintro d _ _ ⟨⟩
  exact ⟨fun h => absurd h hne.1, fun _ => ⟨hword, hne.1⟩⟩

/-- A detached text has detached parts on both sides of each character. -/
theorem of_append_cons (h : Detached (as ++ c :: bs)) : Detached as ∧ Detached bs :=
  ⟨h.left_of_append, h.right_of_append.tail⟩

/-- No word goes on up to a parenthesis that opens. -/
theorem getLast? (h : Detached (as ++ '(' :: bs)) : ∀ c ∈ as.getLast?, isWordChar c = false :=
  fun c hc => ((List.isChain_append.mp h).2.2 c hc '(' rfl).1 rfl

/-- Neither a word nor a group begins right behind a parenthesis that closes. -/
theorem head? (h : Detached (as ++ ')' :: bs)) :
    ∀ c ∈ bs.head?, isWordChar c = false ∧ c ≠ '(' :=
  fun c hc => ((List.isChain_cons.mp h.right_of_append).1 c hc).2 rfl

/-- A detached text in parentheses is detached. -/
theorem parens (h : Detached cs) : Detached ('(' :: (cs ++ [')'])) := by
  have hinner : Detached (cs ++ [')']) := by
    refine h.append (.singleton _) ?_
    rintro c _ _ ⟨⟩
    exact ⟨fun h => absurd h (by decide), fun _ => by decide⟩
  exact hinner.cons fun d _ => ⟨fun _ => by decide, fun h => absurd h (by decide)⟩

end Token.Detached

/-- Detached texts with an operator between them are detached. -/
theorem Tier.Spells.detached {tier : Tier} {s : String} {op : BinaryOp} (ho : Tier.Spells tier s op)
    {as bs : List Char} (has : Detached as) (hbs : Detached bs) :
    Detached (as ++ (s.toList ++ bs)) := by
  cases ho with
  | plus | minus | star | slash | caret => exact has.append_cons hbs (by decide)
  | stars => exact has.append_cons (Detached.append_cons .nil hbs (by decide)) (by decide)

/-- What is written by the grammar has its groups apart from its words and from each other. -/
theorem Written.detached {phrase : Phrase} {cs : List Char} {e : Expr} (h : Written phrase cs e) :
    Detached cs := by
  induction h with
  | single _ ih | unsigned _ ih => exact ih
  | snoc _ ho _ ihl ihr => exact ho.detached ihl ihr
  | @sign s cs e _ ih =>
    cases s
    exacts [Detached.append_cons .nil ih (by decide), Detached.append_cons .nil ih (by decide)]
  | number hword => exact .of_word hword
  | name hs => exact .of_word (isWordChar_of_mem_name hs).2
  | parens _ ih => exact ih.parens

/-- An operator parts the words before it from those behind it. -/
theorem Tier.Spells.runs_append {tier : Tier} {s : String} {op : BinaryOp}
    (ho : Tier.Spells tier s op) (as bs : List Char) :
    runs isWordChar (as ++ (s.toList ++ bs)) = runs isWordChar as ++ runs isWordChar bs := by
  cases ho with
  | plus | minus | star | slash | caret => exact Text.runs_append (by decide) bs as
  | stars =>
    have hstar : isWordChar '*' = false := by decide
    exact (Text.runs_append hstar ('*' :: bs) as).trans (by rw [runs_cons_of_neg hstar])

/-- The names of a tree are words of the text. -/
theorem Written.mem_runs {phrase : Phrase} {cs : List Char} {e : Expr} (h : Written phrase cs e)
    {n : String} (hn : n ∈ e.identifiers) : n.toList ∈ runs isWordChar cs := by
  induction h with
  | single _ ih | unsigned _ ih => exact ih hn
  | @snoc tier s op as bs left right _ ho _ ihl ihr =>
    rw [ho.runs_append, List.mem_append]
    exact (List.mem_append.mp hn).imp ihl ihr
  | @sign s cs e _ ih =>
    have hcut {c : Char} (hc : isWordChar c = false) : n.toList ∈ runs isWordChar (c :: cs) := by
      rw [runs_cons_of_neg hc]
      exact ih hn
    cases s
    exacts [hcut (by decide), hcut (by decide)]
  | number => cases hn
  | name hs =>
    obtain ⟨hne, hword⟩ := isWordChar_of_mem_name hs
    rw [List.mem_singleton.mp hn, runs_of_forall hne hword]
    exact List.mem_singleton_self _
  | parens _ ih =>
    rw [runs_cons_of_neg (by decide), Text.runs_append (by decide)]
    exact List.mem_append_left _ (ih hn)

end FormulaBook
