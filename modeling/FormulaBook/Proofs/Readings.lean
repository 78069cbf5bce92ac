import FormulaBook.Proofs.Characters

/-!
# Texts read as phrases

Characters read as a phrase if the scanner cuts them into tokens of the phrase wherever they stand
with no word going on behind them (`Reads`). Readings are put together as texts are written: a word
is an operand, a sign goes in front, and an operator with blanks around it joins a chain to one more
operand (`Reads.snoc`). A text that reads as a sum parses (`Reads.parse`). What is written by the
grammar, without blanks, reads as it is written (`Written.reads`).
-/

namespace FormulaBook

open Text Token

/-- Where no word goes on behind them, the characters are scanned as a phrase of the given kind with
the given tree. -/
def Reads (phrase : Phrase) (cs : List Char) (e : Expr) : Prop :=
  ∀ (p : Nat) (rest : List Char), Boundary rest →
    ∃ ts q, scanFrom [] p (cs ++ rest) = ts ++ scanFrom [] q rest ∧ Derives phrase ts e

namespace Tier.Spells

variable {tier : Tier} {s : String} {op : BinaryOp}

/-- No word goes on with an operator. -/
theorem boundary (ho : Tier.Spells tier s op) (cs : List Char) : Boundary (s.toList ++ cs) := by
  cases ho <;> rintro _ ⟨⟩ <;> decide

/-- An operator in front of the rest, which does not begin with a star. -/
theorem scanFrom_append (ho : Tier.Spells tier s op) (p : Nat) {c : Char} (hc : c ≠ '*')
    (cs : List Char) : ∃ q, scanFrom [] p (s.toList ++ c :: cs) =
      ofOperator s p :: scanFrom [] q (c :: cs) := by
  cases ho with
  | plus | minus | slash | caret => exact ⟨p + 1, rfl⟩
  | stars => exact ⟨p + 2, rfl⟩
  | star =>
    refine ⟨p + 1, ?_⟩
    change scanFrom [] p ('*' :: c :: cs) = _
    rw [scanFrom]
    · rfl
    · exact fun _ _ h => hc (List.cons.inj h).1

end Tier.Spells

namespace Reads

variable {phrase : Phrase} {tier : Tier} {cs ds : List Char} {e left right : Expr}

/-- What reads as one phrase reads as any other that its tokens are. -/
theorem imp {phrase' : Phrase} {e' : Expr} (h : Reads phrase cs e)
    (himp : ∀ ts, Derives phrase ts e → Derives phrase' ts e') : Reads phrase' cs e' := by
  intro p rest hrest
  obtain ⟨ts, q, hts, hd⟩ := h p rest hrest
  exact ⟨ts, q, hts, himp ts hd⟩

/-- A number literal reads as its number. -/
theorem number {d : Decimal} (hne : cs ≠ []) (hword : ∀ c ∈ cs, isWordChar c = true)
    (hd : Decimal.ofLiteral? cs = some d) :
    Reads .operand cs (.number (Binary64.ofDecimal false d)) := by
  intro p rest hrest
  refine ⟨[_], _, scanFrom_word hne hword hrest p, ?_⟩
  rw [ofWord, hd]
  exact .number

/-- A name reads as itself. -/
theorem name {s : String} (hs : IsName s) : Reads .operand s.toList (.identifier s) := by
  intro p rest hrest
  obtain ⟨hne, hword⟩ := isWordChar_of_mem_name hs
  refine ⟨[_], _, scanFrom_word hne hword hrest p, ?_⟩
  rw [ofWord_name hs]
  exact .name hs

/-- A sign goes in front of a signed operand. -/
theorem sign (h : Reads .signed cs e) (s : Sign) :
    Reads .signed (s.symbol.toList ++ cs) (.signed s e) := by
  intro p rest hrest
  obtain ⟨ts, q, hts, hd⟩ := h (p + 1) rest hrest
  refine ⟨ofOperator s.symbol p :: ts, q, ?_, .sign hd⟩
  rw [List.append_assoc, scanFrom_sign, hts, List.cons_append]

/-- An operand alone is a chain of every tier. -/
theorem chain (h : Reads .operand cs e) : Reads (.chain tier) cs e :=
  h.imp fun _ hd => hd.joined.single

/-- A chain goes on with an operator between blanks and one more operand. -/
theorem snoc {op : BinaryOp} (h : Reads (.chain tier) cs left) (ho : tier.Spells op.symbol op)
    (hr : Reads tier.joined ds right) :
    Reads (.chain tier) (cs ++ ' ' :: (op.symbol.toList ++ ' ' :: ds)) (.binary op left right) := by
  intro p rest hrest
  obtain ⟨ts, q, hts, hd⟩ := h p _ (boundary_space (op.symbol.toList ++ ' ' :: (ds ++ rest)))
  obtain ⟨r, hscan⟩ := scanFrom_operator op (q + 1) (ds ++ rest)
  obtain ⟨us, u, hus, hd'⟩ := hr r rest hrest
  refine ⟨ts ++ ofOperator op.symbol (q + 1 : Nat) :: us, u, ?_, hd.snoc ho hd'⟩
  simpa [hus, scanFrom_space, hscan] using hts

/-- A text that reads as a sum parses. -/
theorem parse {s : String} (h : Reads (.chain .sum) s.toList e) : Expr.parse s = .ok e := by
  obtain ⟨ts, q, hts, hd⟩ := h 0 [] nofun
  have hscan : scan s = ts := by
    rw [scan, ← List.append_nil s.toList, hts]
    exact List.append_nil ts
  rw [Expr.parse, hscan]
  exact Expr.ofTokens_of_derives hd

/-- A sum in parentheses. -/
theorem parens (h : Reads (.chain .sum) cs e) : Reads .operand ('(' :: (cs ++ [')'])) e := by
  intro p rest hrest
  obtain ⟨ts, q, hts, hd⟩ := h (p + 1) (')' :: rest) (boundary_closeParen rest)
  refine ⟨_, q + 1, ?_, .parens (l := ⟨.openParen, .text "(", p⟩) (r := ⟨.closeParen, .text ")", q⟩)
    rfl rfl hd⟩
  rw [List.cons_append, List.append_assoc, List.singleton_append, scanFrom_openParen, hts,
    scanFrom_closeParen, List.cons_append, List.append_assoc, List.singleton_append]

/-- A chain goes on with an operator and one more operand, which does not begin with a star. -/
theorem snoc_unspaced {s : String} {op : BinaryOp} (h : Reads (.chain tier) cs left)
    (ho : tier.Spells s op) (hr : Reads tier.joined ds right)
    (hstar : ∃ c rest, ds = c :: rest ∧ c ≠ '*') :
    Reads (.chain tier) (cs ++ (s.toList ++ ds)) (.binary op left right) := by
  obtain ⟨c, ds, rfl, hc⟩ := hstar
  intro p rest hrest
  obtain ⟨ts, q, hts, hd⟩ := h p (s.toList ++ (c :: ds ++ rest)) (ho.boundary _)
  obtain ⟨r, hscan⟩ := ho.scanFrom_append q hc (ds ++ rest)
  obtain ⟨us, u, hus, hd'⟩ := hr r rest hrest
  refine ⟨ts ++ ofOperator s q :: us, u, ?_, hd.snoc ho hd'⟩
  rw [List.append_assoc, List.append_assoc, hts, List.cons_append, hscan, ← List.cons_append, hus,
    List.append_assoc, List.cons_append]

end Reads

namespace Written

variable {phrase : Phrase} {cs : List Char} {e : Expr}

/-- A phrase that is written out has a first character, which is no star. -/
theorem exists_cons (h : Written phrase cs e) : ∃ c rest, cs = c :: rest ∧ c ≠ '*' := by
  have hword {w : List Char} (hne : w ≠ []) (hw : ∀ c ∈ w, isWordChar c = true) :
      ∃ c rest, w = c :: rest ∧ c ≠ '*' := by
    obtain ⟨c, rest, rfl⟩ := List.exists_cons_of_ne_nil hne
    refine ⟨c, rest, rfl, ?_⟩
    rintro rfl
    exact absurd (hw '*' List.mem_cons_self) (by decide)
  induction h with
  | single _ ih | unsigned _ ih => exact ih
  | snoc _ _ _ ih =>
    obtain ⟨c, rest, rfl, hc⟩ := ih
    exact ⟨c, _, rfl, hc⟩
  | @sign s cs =>
    cases s
    exacts [⟨'+', cs, rfl, by decide⟩, ⟨'-', cs, rfl, by decide⟩]
  | number hw hd => exact hword (ne_nil_of_ofLiteral? hd) hw
  | name hs => exact hword (isWordChar_of_mem_name hs).1 (isWordChar_of_mem_name hs).2
  | parens => exact ⟨'(', _, rfl, by decide⟩

/-- What is written by the grammar reads as it is written. -/
theorem reads (h : Written phrase cs e) : Reads phrase cs e := by
  induction h with
  | single _ ih => exact ih.imp fun _ hd => hd.single
  | snoc _ ho hr ihl ihr => exact ihl.snoc_unspaced ho ihr hr.exists_cons
  | @sign s _ _ _ ih => exact ih.sign s
  | unsigned _ ih => exact ih.imp fun _ => .unsigned
  | number hw hd => exact .number (ne_nil_of_ofLiteral? hd) hw hd
  | name hs => exact .name hs
  | parens _ ih => exact ih.parens

/-- A text is written as one sum only. -/
theorem unique {e' : Expr} (h : Written (.chain .sum) cs e) (h' : Written (.chain .sum) cs e') :
    e = e' := by
  rw [← String.toList_ofList (l := cs)] at h h'
  exact Except.ok.inj (h.reads.parse.symm.trans h'.reads.parse)

end Written

end FormulaBook
