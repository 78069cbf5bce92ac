import FormulaBook.Proofs.Grammar
import FormulaBook.Proofs.Literal

/-!
# How a text is cut

Equations of the scanner between words: a word is one token if no word character follows
(`Token.scanFrom_word`), and a parenthesis, an operator or a blank in front of the rest is taken off
at once. The numbers in tokens have no sign (`Token.isUnsigned_of_mem_scan`).
-/

namespace FormulaBook

open Text

/-- A number that is zero, positive or the positive infinity, and has no negative sign. -/
def Binary64.IsUnsigned : Binary64 → Prop
  | .nan => False
  | .infinity negative => negative = false
  | .finite negative _ _ => negative = false

/-- A decimal without a sign is rounded to a double without one. -/
theorem Binary64.isUnsigned_ofDecimal (d : Decimal) : (ofDecimal false d).IsUnsigned := by
  rcases ofDecimal_false_cases d with h | ⟨n, hn, h⟩ <;> rw [h] <;> rfl

namespace Token

/-! ## Word characters -/

/-- The codes of ASCII digits, letters and the underscore are those of word characters. -/
theorem isWordChar_of_toNat {c : Char}
    (h : (48 ≤ c.toNat ∧ c.toNat ≤ 57) ∨ (65 ≤ c.toNat ∧ c.toNat ≤ 90) ∨
      (97 ≤ c.toNat ∧ c.toNat ≤ 122) ∨ c.toNat = 95) : isWordChar c = true := by
  have hne : ∀ d ∈ ['+', '-', '*', '/', '^', '(', ')'], c ≠ d := by
    rintro d hd rfl
    simp only [List.mem_cons, List.not_mem_nil, or_false] at hd
    rcases hd with rfl | rfl | rfl | rfl | rfl | rfl | rfl <;> simp at h
  have hblank : isBlankCode c.toNat = false := by
    simp only [isBlankCode, blankRanges, List.any_cons, List.any_nil, Range.holds,
      Bool.or_false, Bool.or_eq_false_iff, Bool.and_eq_false_iff, decide_eq_false_iff_not]
    omega
  simp only [List.mem_cons, List.not_mem_nil, or_false, forall_eq_or_imp, forall_eq] at hne
  simp [isWordChar, isOperatorChar, isBlank, hblank, hne]

/-- Digits belong to words. -/
theorem isWordChar_of_isDigit {c : Char} (h : c.isDigit = true) : isWordChar c = true := by
  rw [Char.isDigit_iff_toNat] at h
  exact isWordChar_of_toNat (.inl h)

/-- Characters of names are word characters. -/
theorem isWordChar_of_name {c : Char} (h : IsLetter c ∨ IsDigit c) : isWordChar c = true := by
  apply isWordChar_of_toNat
  rcases h with (h | h | rfl) | h
  · exact .inr (.inl h)
  · exact .inr (.inr (.inl h))
  · exact .inr (.inr (.inr rfl))
  · exact .inl h

/-- No word character follows. -/
def Boundary (cs : List Char) : Prop := ∀ c ∈ cs.head?, isWordChar c = false

/-- A star belongs to no word. -/
theorem isWordChar_star : isWordChar '*' = false := by decide

/-- No word goes on with a space. -/
theorem boundary_space (cs : List Char) : Boundary (' ' :: cs) := by
  rintro _ ⟨⟩
  decide

/-- No word goes on with a closing parenthesis. -/
theorem boundary_closeParen (cs : List Char) : Boundary (')' :: cs) := by
  rintro _ ⟨⟩
  decide

/-- Word characters are added to the word that has begun. -/
theorem scanFrom_append {cs : List Char} (hcs : ∀ c ∈ cs, isWordChar c = true) (word : List Char)
    (p : Nat) (rest : List Char) :
    scanFrom word p (cs ++ rest) = scanFrom (cs.reverse ++ word) (p + cs.length) rest := by
  induction cs generalizing word p with
  | nil => rfl
  | cons c cs ih =>
    have hc := hcs c List.mem_cons_self
    have hne : c ≠ '*' := by
      rintro rfl
      rw [isWordChar_star] at hc
      cases hc
    rw [List.cons_append, scanFrom, if_pos hc, ih fun d hd => hcs d (List.mem_cons_of_mem c hd)]
    · simp [Nat.add_comm 1, Nat.add_assoc]
    · exact fun _ h _ => hne h

/-- A word ends before a character that is not of a word. -/
theorem scanFrom_boundary {cs : List Char} (h : Boundary cs) (word : List Char) (p : Nat) :
    scanFrom word p cs = endWord word p ++ scanFrom [] p cs := by
  have hnil : endWord [] p = [] := rfl
  unfold scanFrom
  split
  · rw [hnil, List.append_nil]
  · rw [hnil, List.nil_append]
  · rename_i c cs _
    have hc : isWordChar c = false := h c rfl
    simp only [hc, hnil]
    rfl

/-- A word followed by no word character is one token. -/
theorem scanFrom_word {cs rest : List Char} (hne : cs ≠ []) (hcs : ∀ c ∈ cs, isWordChar c = true)
    (hrest : Boundary rest) (p : Nat) :
    scanFrom [] p (cs ++ rest) = ofWord cs p :: scanFrom [] (p + cs.length) rest := by
  rw [scanFrom_append hcs, scanFrom_boundary hrest, endWord]
  simp [hne]

/-! ## Single characters -/

/-- An opening parenthesis is scanned on its own. -/
theorem scanFrom_openParen (p : Nat) (cs : List Char) :
    scanFrom [] p ('(' :: cs) = ⟨.openParen, .text "(", p⟩ :: scanFrom [] (p + 1) cs := by
  rfl

/-- A closing parenthesis is scanned on its own. -/
theorem scanFrom_closeParen (p : Nat) (cs : List Char) :
    scanFrom [] p (')' :: cs) = ⟨.closeParen, .text ")", p⟩ :: scanFrom [] (p + 1) cs := by
  rfl

/-- A space is skipped. -/
theorem scanFrom_space (p : Nat) (cs : List Char) :
    scanFrom [] p (' ' :: cs) = scanFrom [] (p + 1) cs := by
  rfl

/-- A sign in front of the rest. -/
theorem scanFrom_sign (s : Sign) (p : Nat) (cs : List Char) :
    scanFrom [] p (s.symbol.toList ++ cs) = ofOperator s.symbol p :: scanFrom [] (p + 1) cs := by
  cases s <;> rfl

/-- An operator with a blank after it. -/
theorem scanFrom_operator (op : BinaryOp) (p : Nat) (cs : List Char) :
    ∃ q, scanFrom [] p (op.symbol.toList ++ ' ' :: cs) =
      ofOperator op.symbol p :: scanFrom [] q cs := by
  cases op with
  | add | subtract | multiply | divide => exact ⟨p + 2, rfl⟩
  | power => exact ⟨p + 3, rfl⟩

/-! ## What tokens carry -/

/-- The token that a word ends as is one of a word. -/
theorem mem_endWord {word : List Char} {p : Nat} {t : Token} (h : t ∈ endWord word p) :
    ∃ cs q, t = ofWord cs q := by
  unfold endWord at h
  split at h
  · cases h
  · exact ⟨_, _, List.mem_singleton.mp h⟩

/-- A token is made of a word, or it is no number and carries a text. -/
theorem mem_scanFrom {word cs : List Char} {p : Nat} {t : Token} (h : t ∈ scanFrom word p cs) :
    (∃ cs q, t = ofWord cs q) ∨ (t.kind ≠ .number ∧ ∃ s, t.value = .text s) := by
  induction word, p, cs using scanFrom.induct with
  | case1 word p => exact .inl (mem_endWord h)
  | case2 word p cs ih =>
    rw [scanFrom, List.mem_append, List.mem_cons] at h
    rcases h with h | rfl | h
    · exact .inl (mem_endWord h)
    · exact .inr ⟨by simp [ofOperator], _, rfl⟩
    · exact ih h
  | case3 word p c cs hstars hc ih =>
    rw [scanFrom, if_pos hc] at h
    · exact ih h
    · exact hstars
  | case4 word p c cs hstars hc ih =>
    rw [scanFrom, if_neg hc] at h
    · rcases List.mem_append.mp h with h | h
      · exact .inl (mem_endWord h)
      · split at h
        · exact ih h
        · split at h
          · rcases List.mem_cons.mp h with rfl | h
            exacts [.inr ⟨by simp, _, rfl⟩, ih h]
          · split at h <;> rcases List.mem_cons.mp h with rfl | h
            exacts [.inr ⟨by simp, _, rfl⟩, ih h, .inr ⟨by simp [ofOperator], _, rfl⟩, ih h]
    · exact hstars

/-- An identifier of a formula carries a text. -/
theorem text_of_mem_scan {s : String} {t : Token} (ht : t ∈ scan s) (hk : t.kind = .identifier) :
    ∃ u, t.value = .text u := by
  rcases mem_scanFrom ht with ⟨cs, q, rfl⟩ | ⟨-, h⟩
  · unfold ofWord at hk ⊢
    split at hk
    · cases hk
    · exact ⟨_, rfl⟩
  · exact h

/-- A number token of a formula carries a number, which has no sign. -/
theorem isUnsigned_of_mem_scan {s : String} {t : Token} (ht : t ∈ scan s) (hk : t.kind = .number) :
    ∃ x, t.value = .number x ∧ x.IsUnsigned := by
  rcases mem_scanFrom ht with ⟨cs, q, rfl⟩ | ⟨hother, -⟩
  · unfold ofWord at hk ⊢
    split at hk
    · exact ⟨_, rfl, Binary64.isUnsigned_ofDecimal _⟩
    · cases hk
  · exact absurd hk hother

end Token

end FormulaBook
