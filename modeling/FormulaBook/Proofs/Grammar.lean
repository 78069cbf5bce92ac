import FormulaBook.Expr.Parser
import Mathlib.Data.List.Basic

/-!
# The grammar of formulas

The grammar as a relation between a phrase, a sequence of tokens and the tree that the sequence
stands for, apart from any way of reading:

    sum     := product (('+' | '-') product)*
    product := power (('*' | '/') power)*
    power   := signed (('^' | '**') signed)*
    signed  := ('+' | '-') signed | operand
    operand := number | name | '(' sum ')'

The three rows with a star are one rule, `Derives.chain`, over a `Tier`. A star is the phrase
`links`, which carries the tree in front of it, so that operators fold to the left. The numbers of
the tree are of any type that gives one to whatever a number token carries.
-/

namespace FormulaBook

open Text

/-! ## Names -/

/-- An ASCII letter or the underscore. -/
def Text.IsLetter (c : Char) : Prop := ('A' ≤ c ∧ c ≤ 'Z') ∨ ('a' ≤ c ∧ c ≤ 'z') ∨ c = '_'

/-- An ASCII digit. -/
def Text.IsDigit (c : Char) : Prop := '0' ≤ c ∧ c ≤ '9'

/-- A letter or underscore, and then letters, underscores and digits. -/
def Text.IsName (s : String) : Prop :=
  ∃ c cs, s.toList = c :: cs ∧ IsLetter c ∧ ∀ d ∈ cs, IsLetter d ∨ IsDigit d

/-- The letters are those from `A` to `Z` and from `a` to `z`. -/
theorem Text.isAlpha_iff {c : Char} :
    c.isAlpha = true ↔ ('A' ≤ c ∧ c ≤ 'Z') ∨ ('a' ≤ c ∧ c ≤ 'z') := by
  change (decide (c.val ≥ 'A'.val ∧ c.val ≤ 'Z'.val) ||
    (decide (c.val ≥ 'a'.val) && decide (c.val ≤ 'z'.val))) = true ↔ _
  simp only [Bool.or_eq_true, Bool.and_eq_true, decide_eq_true_eq, ge_iff_le, Char.le_def]

/-- Names start with letters and underscores. -/
theorem Text.startsName_iff {c : Char} : startsName c = true ↔ IsLetter c := by
  rw [startsName, Bool.or_eq_true, isAlpha_iff, beq_iff_eq, IsLetter, or_assoc]

/-- The digits are those from `0` to `9`. -/
theorem Text.isDigit_iff {c : Char} : c.isDigit = true ↔ IsDigit c := by
  simp only [IsDigit, Char.isDigit, Bool.and_eq_true, decide_eq_true_eq, ge_iff_le, Char.le_def]

/-- Names go on with letters, underscores and digits. -/
theorem Text.continuesName_iff {c : Char} :
    continuesName c = true ↔ IsLetter c ∨ IsDigit c := by
  have halnum : c.isAlphanum = (c.isAlpha || c.isDigit) := rfl
  rw [continuesName, halnum, Bool.or_right_comm, Bool.or_eq_true, isDigit_iff, ← startsName_iff,
    startsName]

/-- The check for names is right. -/
theorem Text.isName_iff {s : String} : isName s = true ↔ IsName s := by
  unfold isName IsName
  cases hs : s.toList with
  | nil => simp
  | cons c cs =>
    simp only [Bool.and_eq_true, List.all_eq_true, startsName_iff, continuesName_iff]
    constructor
    · exact fun h => ⟨c, cs, rfl, h⟩
    · rintro ⟨_, _, heq, h⟩
      cases heq
      exact h

/-- All characters of a name may continue one. -/
theorem Text.IsName.continuesName {s : String} (h : IsName s) :
    ∀ c ∈ s.toList, continuesName c = true := by
  obtain ⟨c, cs, hs, hc, hcs⟩ := h
  rw [hs, List.forall_mem_cons]
  exact ⟨continuesName_iff.mpr (.inl hc), fun d hd => continuesName_iff.mpr (hcs d hd)⟩

/-! ## Phrases -/

/-- The tiers of binary operators, the loosest first. -/
inductive Tier where
  | sum
  | product
  | power
deriving DecidableEq

/-- The spellings of the operators of a tier. -/
inductive Tier.Spells : Tier → String → BinaryOp → Prop
  | plus : Spells .sum "+" .add
  | minus : Spells .sum "-" .subtract
  | star : Spells .product "*" .multiply
  | slash : Spells .product "/" .divide
  | caret : Spells .power "^" .power
  | stars : Spells .power "**" .power

/-- The phrases of the grammar. After a tree `left` on its tier, `links` stands for any number of
operators with their right operands. -/
inductive Phrase (ν : Type := Binary64) where
  | chain (tier : Tier)
  | links (tier : Tier) (left : Expr ν)
  | signed
  | operand

variable {ν : Type}

/-- What the operators of a tier join. -/
def Tier.joined : Tier → Phrase ν
  | .sum => .chain .product
  | .product => .chain .power
  | .power => .signed

/-- The token sequence is a phrase of the given kind, with the given tree. -/
inductive Derives [Token.Numeral ν] : Phrase ν → List Token → Expr ν → Prop
  | chain {tier ts us left e} : Derives tier.joined ts left → Derives (.links tier left) us e →
      Derives (.chain tier) (ts ++ us) e
  | done {tier left} : Derives (.links tier left) [] left
  | link {tier s op p ts us left right e} : tier.Spells s op → Derives tier.joined ts right →
      Derives (.links tier (.binary op left right)) us e →
      Derives (.links tier left) (⟨.operator, .text s, p⟩ :: (ts ++ us)) e
  | sign {s : Sign} {p ts e} : Derives .signed ts e →
      Derives .signed (⟨.operator, .text s.symbol, p⟩ :: ts) (.signed s e)
  | unsigned {ts e} : Derives .operand ts e → Derives .signed ts e
  | number {value p} :
    Derives .operand [⟨.number, value, p⟩] (.number (Token.Numeral.ofValue value))
  | name {s p} : IsName s → Derives .operand [⟨.identifier, .text s, p⟩] (.identifier s)
  | parens {l r ts e} : l.kind = .openParen → r.kind = .closeParen → Derives (.chain .sum) ts e →
      Derives .operand (l :: (ts ++ [r])) e

namespace Derives

variable [Token.Numeral ν]

/-- One phrase alone is a chain. -/
theorem single {tier : Tier} {ts : List Token} {e : Expr ν} (h : Derives tier.joined ts e) :
    Derives (.chain tier) ts e := by
  simpa using chain h done

/-- Links after links are links. -/
theorem links_append {tier : Tier} {left mid e : Expr ν} {ts us : List Token}
    (h : Derives (.links tier left) ts mid) (h' : Derives (.links tier mid) us e) :
    Derives (.links tier left) (ts ++ us) e := by
  generalize hp : Phrase.links tier left = phrase at h
  induction h generalizing left with
  | done => cases hp; exact h'
  | link ho hr _ _ ih =>
    cases hp
    simpa using link ho hr (ih h' rfl)
  | chain | sign | unsigned | number | name | parens => cases hp

/-- A chain goes on with one more operator and operand. -/
theorem snoc {tier : Tier} {s : String} {op : BinaryOp} {p : Int} {ts us : List Token}
    {left right : Expr ν} (h : Derives (.chain tier) ts left) (ho : tier.Spells s op)
    (hr : Derives tier.joined us right) :
    Derives (.chain tier) (ts ++ ⟨.operator, .text s, p⟩ :: us) (.binary op left right) := by
  cases h with
  | chain hf hl =>
    have hlast : Derives (.links tier left) (⟨.operator, .text s, p⟩ :: us)
        (.binary op left right) := by
      simpa using link ho hr done
    simpa using chain hf (hl.links_append hlast)

end Derives

end FormulaBook
