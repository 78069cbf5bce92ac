import FormulaBook.Proofs.Parsing
import FormulaBook.Proofs.RoundTrip

/-!
# The grammar of formulas over characters

`Written` is the grammar with characters in place of tokens: a phrase, the characters it is written
with, without blanks, and its tree. A chain is built at its right end, since operators fold to the
left. The tokens that the scanner cuts a text into are spelled by the text without its blanks
(`Token.spells_scan`), and a phrase of tokens is written by what spells them (`Derives.written`). So
the text of every formula that parses is written (`Expr.written_of_parse`).
-/

namespace FormulaBook

open Text Token

/-! ## Phrases -/

/-- The characters are a phrase of the given kind, with the given tree. -/
inductive Written : Phrase → List Char → Expr → Prop
  | single {tier cs e} : Written tier.joined cs e → Written (.chain tier) cs e
  | snoc {tier s op as bs left right} : Written (.chain tier) as left → Tier.Spells tier s op →
      Written tier.joined bs right →
      Written (.chain tier) (as ++ (s.toList ++ bs)) (.binary op left right)
  | sign {s : Sign} {cs e} : Written .signed cs e →
      Written .signed (s.symbol.toList ++ cs) (.signed s e)
  | unsigned {cs e} : Written .operand cs e → Written .signed cs e
  | number {cs d} : (∀ c ∈ cs, isWordChar c = true) → Decimal.ofLiteral? cs = some d →
      Written .operand cs (.number (Binary64.ofDecimal false d))
  | name {s} : IsName s → Written .operand s.toList (.identifier s)
  | parens {cs e} : Written (.chain .sum) cs e → Written .operand ('(' :: (cs ++ [')'])) e

/-! ## Tokens and their characters -/

/-- No decimal is read from no characters. -/
theorem ne_nil_of_ofLiteral? {cs : List Char} {d : Decimal}
    (h : Decimal.ofLiteral? cs = some d) : cs ≠ [] := by
  rintro rfl
  exact absurd h (by decide +revert)

/-- The characters may have been read as the token. -/
inductive Token.Spells : Token → List Char → Prop
  | word {cs} (p : Int) : (∀ c ∈ cs, isWordChar c = true) → Spells (ofWord cs p) cs
  | operator (s : String) (p : Int) : Spells (ofOperator s p) s.toList
  | openParen (p : Int) : Spells ⟨.openParen, .text "(", p⟩ ['(']
  | closeParen (p : Int) : Spells ⟨.closeParen, .text ")", p⟩ [')']

namespace Token.Spells

variable {t : Token} {cs : List Char}

/-- A token with a text as its value is spelled with the characters of the text. -/
theorem eq_toList (h : t.Spells cs) {s : String} (hv : t.value = .text s) : cs = s.toList := by
  cases h with
  | word p hcs =>
    unfold ofWord at hv
    split at hv <;> cases hv
    exact String.toList_ofList.symm
  | operator | openParen | closeParen => cases hv; rfl

/-- An opening parenthesis is spelled with one character. -/
theorem of_openParen (h : t.Spells cs) (hk : t.kind = .openParen) : cs = ['('] := by
  cases h with
  | word p hcs => unfold ofWord at hk; split at hk <;> cases hk
  | operator | closeParen => cases hk
  | openParen => rfl

/-- A closing parenthesis is spelled with one character. -/
theorem of_closeParen (h : t.Spells cs) (hk : t.kind = .closeParen) : cs = [')'] := by
  cases h with
  | word p hcs => unfold ofWord at hk; split at hk <;> cases hk
  | operator | openParen => cases hk
  | closeParen => rfl

/-- A number token is spelled as a decimal in word characters, and its value is the double of the
decimal. -/
theorem of_number (h : t.Spells cs) (hk : t.kind = .number) :
    (∀ c ∈ cs, isWordChar c = true) ∧
      ∃ d, Decimal.ofLiteral? cs = some d ∧ t.value = .number (Binary64.ofDecimal false d) := by
  cases h with
  | word p hcs =>
    refine ⟨hcs, ?_⟩
    unfold ofWord at hk ⊢
    split at hk
    · exact ⟨_, ‹_›, rfl⟩
    · cases hk
  | operator | openParen | closeParen => cases hk

end Token.Spells

/-- The characters may have been read as the tokens, one after the other. -/
inductive Token.SpellsAll : List Token → List Char → Prop
  | nil : SpellsAll [] []
  | cons {t ts cs ds} : Spells t cs → SpellsAll ts ds → SpellsAll (t :: ts) (cs ++ ds)

namespace Token.SpellsAll

/-- Spellings of two token sequences, one behind the other, spell both sequences. -/
theorem append {ts us : List Token} {cs ds : List Char} (h : SpellsAll ts cs)
    (h' : SpellsAll us ds) : SpellsAll (ts ++ us) (cs ++ ds) := by
  induction h with
  | nil => exact h'
  | cons ht _ ih => rw [List.append_assoc]; exact ih.cons ht

/-- What spells two token sequences splits into their spellings. -/
theorem of_append {ts us : List Token} {cs : List Char} (h : SpellsAll (ts ++ us) cs) :
    ∃ as bs, cs = as ++ bs ∧ SpellsAll ts as ∧ SpellsAll us bs := by
  induction ts generalizing cs with
  | nil => exact ⟨[], cs, rfl, .nil, h⟩
  | cons t ts ih =>
    cases h with
    | cons ht hts =>
      obtain ⟨as, bs, rfl, has, hbs⟩ := ih hts
      exact ⟨_, bs, (List.append_assoc ..).symm, .cons ht has, hbs⟩

/-- What spells a single token in a sequence spells the token. -/
theorem of_singleton {t : Token} {cs : List Char} (h : SpellsAll [t] cs) : Spells t cs := by
  cases h with
  | cons ht hts => cases hts; rwa [List.append_nil]

end Token.SpellsAll

/-! ## The scanner -/

/-- A character of a word is not blank. -/
theorem Token.isBlank_of_isWordChar {c : Char} (h : isWordChar c = true) : isBlank c = false := by
  simp only [isWordChar, Bool.not_eq_true', Bool.or_eq_false_iff] at h
  exact h.1.1.1

/-- The characters of a word spell the token that the word ends as. -/
theorem Token.spells_endWord {word : List Char} (hw : ∀ c ∈ word, isWordChar c = true) (p : Nat) :
    SpellsAll (endWord word p) word.reverse := by
  unfold endWord
  split
  · rename_i hword
    rw [List.isEmpty_iff.mp hword]
    exact .nil
  · have hlast : Spells (ofWord word.reverse (p - word.length : Nat)) word.reverse :=
      .word _ fun c hc => hw c (List.mem_reverse.mp hc)
    simpa using SpellsAll.cons hlast .nil

/-- What is cut off a text, after the word that has begun, is spelled by the text without blanks. -/
theorem Token.spells_scanFrom (word : List Char) (p : Nat) (cs : List Char)
    (hw : ∀ c ∈ word, isWordChar c = true) :
    SpellsAll (scanFrom word p cs) (word.reverse ++ cs.filter (!isBlank ·)) := by
  induction word, p, cs using scanFrom.induct with
  | case1 word p =>
    rw [List.filter_nil, List.append_nil]
    exact spells_endWord hw p
  | case2 word p cs ih =>
    rw [scanFrom]
    exact (spells_endWord hw p).append (.cons (.operator "**" p) (ih (by simp)))
  | case3 word p c cs hstars hc ih =>
    rw [scanFrom, if_pos hc, List.filter_cons_of_pos (by simp [isBlank_of_isWordChar hc])]
    · have hw' : ∀ d ∈ c :: word, isWordChar d = true := List.forall_mem_cons.mpr ⟨hc, hw⟩
      simpa using ih hw'
    · exact hstars
  | case4 word p c cs hstars hc ih =>
    rw [scanFrom, if_neg hc]
    · refine (spells_endWord hw p).append ?_
      have hrest := ih (by simp)
      rw [List.reverse_nil, List.nil_append] at hrest
      split
      · rwa [List.filter_cons_of_neg (by simp_all)]
      · rw [List.filter_cons_of_pos (by simp_all)]
        split
        · subst_vars; exact .cons (.openParen p) hrest
        · split
          · subst_vars; exact .cons (.closeParen p) hrest
          · exact .cons (by simpa using Spells.operator (String.singleton c) p) hrest
    · exact hstars

/-- The tokens of a text are spelled by the text without its blanks. -/
theorem Token.spells_scan (s : String) : SpellsAll (scan s) (s.toList.filter (!isBlank ·)) :=
  spells_scanFrom [] 0 s.toList (by simp)

/-! ## From tokens to characters -/

/-- What the characters of a phrase are: the phrase written out or, for links, what goes on with the
chain in front of them. -/
def Phrase.IsWritten : Phrase → List Char → Expr → Prop
  | .links tier left, cs, e =>
    ∀ as, Written (.chain tier) as left → Written (.chain tier) (as ++ cs) e
  | phrase, cs, e => Written phrase cs e

/-- A phrase of what a tier joins is written out, since it is no list of links. -/
theorem Tier.isWritten_joined {tier : Tier} {cs : List Char} {e : Expr} :
    tier.joined.IsWritten cs e ↔ Written tier.joined cs e := by
  cases tier <;> exact Iff.rfl

/-- A phrase of tokens is written by the characters that spell them. -/
theorem Derives.written {phrase : Phrase} {ts : List Token} {e : Expr} (h : Derives phrase ts e) :
    ∀ {cs}, SpellsAll ts cs → phrase.IsWritten cs e := by
  induction h with
  | chain _ _ ihf ihl =>
    intro cs hcs
    obtain ⟨as, bs, rfl, has, hbs⟩ := hcs.of_append
    exact ihl hbs as (.single (Tier.isWritten_joined.mp (ihf has)))
  | done =>
    intro cs hcs as has
    cases hcs
    rwa [List.append_nil]
  | link ho _ _ ihr ihl =>
    intro cs hcs as has
    cases hcs with
    | cons ht hrest =>
      obtain ⟨bs, ds, rfl, hbs, hds⟩ := hrest.of_append
      rw [ht.eq_toList rfl]
      simpa using ihl hds _ (has.snoc ho (Tier.isWritten_joined.mp (ihr hbs)))
  | sign _ ih =>
    intro cs hcs
    cases hcs with
    | cons ht hrest =>
      rw [ht.eq_toList rfl]
      exact .sign (ih hrest)
  | unsigned _ ih => exact fun hcs => .unsigned (ih hcs)
  | number =>
    intro cs hcs
    obtain ⟨hw, d, hd, hx⟩ := hcs.of_singleton.of_number rfl
    cases hx
    exact .number hw hd
  | name hs =>
    intro cs hcs
    rw [hcs.of_singleton.eq_toList rfl]
    exact .name hs
  | parens hl hr _ ih =>
    intro cs hcs
    cases hcs with
    | cons ht hrest =>
      obtain ⟨bs, ds, rfl, hbs, hds⟩ := hrest.of_append
      rw [ht.of_openParen hl, hds.of_singleton.of_closeParen hr]
      exact .parens (ih hbs)

/-- The text of a formula that parses, without its blanks, is written by the grammar. -/
theorem Expr.written_of_parse {f : String} {e : Expr} (h : Expr.parse f = .ok e) :
    Written (.chain .sum) (f.toList.filter (!isBlank ·)) e :=
  (derives_of_ofTokens h).written (spells_scan f)

end FormulaBook
