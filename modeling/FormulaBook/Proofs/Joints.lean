import FormulaBook.Proofs.RawScans
import Mathlib.Data.List.Infix

/-!
# Operands and joints

The names and operators of a tree can be read off the tokens of its formula without parsing. The
names are those of the identifier tokens, in their order. An operator token is a joint, that is an
operator between two operands and no sign, exactly if an operand ends with the token in front of it
(`Token.joints`): so the parser decides it in every phrase (`Derives.perm_symbols`), whatever the
tiers and parentheses around (`Expr.vars_and_operators`).
-/

namespace FormulaBook

namespace Token

/-- Whether an operand ends with the token: it is a number, an identifier or the parenthesis that
closes a sum. -/
def endsOperand (t : Token) : Bool :=
  match t.kind with
  | .number | .identifier | .closeParen => true
  | .operator | .openParen => false

/-- Numbers, identifiers and closing parentheses end operands. -/
theorem endsOperand_iff {t : Token} :
    t.endsOperand = true ↔ t.kind = .number ∨ t.kind = .identifier ∨ t.kind = .closeParen := by
  unfold endsOperand
  cases t.kind <;> simp

/-- The symbol of an operator token, a caret being read as two stars. -/
def symbol? (t : Token) : Option String := t.operator?.map fun s => if s = "^" then "**" else s

/-- A token of another kind has no symbol. -/
theorem symbol?_of_ne {t : Token} (h : t.kind ≠ .operator) : t.symbol? = none := by
  rw [symbol?, operator?, text?_of_ne h, Option.map_none]

/-- Whether an operand ends where the tokens do; `before` says whether one ends in front of them. -/
def operandEnds (before : Bool) (ts : List Token) : Bool :=
  ts.foldl (fun _ t => t.endsOperand) before

/-- The symbols of the joints among the tokens: of the operators with the end of an operand directly
in front of them. -/
def joints (before : Bool) : List Token → List String
  | [] => []
  | t :: ts => (if before = true then t.symbol?.toList else []) ++ joints t.endsOperand ts

/-- Where the operand ends in front of tokens is found token by token. -/
theorem operandEnds_append (before : Bool) (ts us : List Token) :
    operandEnds before (ts ++ us) = operandEnds (operandEnds before ts) us :=
  List.foldl_append

/-- The joints of two sequences are those of the first, and those of the second behind what the
first ends with. -/
theorem joints_append (before : Bool) (ts us : List Token) :
    joints before (ts ++ us) = joints before ts ++ joints (operandEnds before ts) us := by
  induction ts generalizing before with
  | nil => rfl
  | cons t ts ih =>
    rw [List.cons_append, joints, joints, ih, List.append_assoc]
    rfl

/-- A joint is the first token, with an operand in front of all, or it is directly behind a token
with which an operand ends. -/
theorem mem_joints {s : String} {before : Bool} {ts : List Token} :
    s ∈ joints before ts ↔
      (before = true ∧ ∃ u, [u] <+: ts ∧ u.symbol? = some s) ∨
        ∃ t u, [t, u] <:+: ts ∧ t.endsOperand = true ∧ u.symbol? = some s := by
  induction ts generalizing before with
  | nil => simp [joints]
  | cons t ts ih =>
    have hfirst : s ∈ (if before = true then t.symbol?.toList else []) ↔
        before = true ∧ t.symbol? = some s := by
      cases before <;> simp
    have hpair : (∃ v u, [v, u] <:+: t :: ts ∧ v.endsOperand = true ∧ u.symbol? = some s) ↔
        (t.endsOperand = true ∧ ∃ u, [u] <+: ts ∧ u.symbol? = some s) ∨
          ∃ v u, [v, u] <:+: ts ∧ v.endsOperand = true ∧ u.symbol? = some s := by
      simp only [List.infix_cons_iff, List.cons_prefix_cons, or_and_right, exists_or]
      refine or_congr_left ⟨?_, ?_⟩
      · rintro ⟨v, u, ⟨rfl, hu⟩, hv, hs⟩
        exact ⟨hv, u, hu, hs⟩
      · rintro ⟨ht, u, hu, hs⟩
        exact ⟨t, u, ⟨rfl, hu⟩, ht, hs⟩
    rw [joints, List.mem_append, hfirst, ih, hpair]
    refine or_congr_left (and_congr_right fun _ => ?_)
    simp [List.cons_prefix_cons]

end Token

open Token

/-- An operator token of a tier has the symbol of its operator. -/
theorem Tier.Spells.symbol?_eq {tier : Tier} {s : String} {op : BinaryOp} (h : tier.Spells s op)
    (p : Int) : symbol? ⟨.operator, .text s, p⟩ = some op.symbol := by
  cases h <;> rfl

namespace Derives

variable {phrase : Phrase} {ts : List Token} {e : Expr}

/-- An operand ends with every phrase; the one in front of links ends with it if there are none. -/
theorem operandEnds_eq (h : Derives phrase ts e) :
    operandEnds phrase.left?.isSome ts = true := by
  induction h with
  | @chain tier ts us left e _ _ ihf ihl =>
    rw [Phrase.left?_joined] at ihf
    show operandEnds false (ts ++ us) = true
    rw [operandEnds_append, show operandEnds false ts = true from ihf]
    exact ihl
  | done | number | name => rfl
  | @link tier s op p ts us left right e _ _ _ ihr ihl =>
    rw [Phrase.left?_joined] at ihr
    show operandEnds false (ts ++ us) = true
    rw [operandEnds_append, show operandEnds false ts = true from ihr]
    exact ihl
  | sign _ ih | unsigned _ ih => exact ih
  | @parens l r ts e hl hr _ _ =>
    show operandEnds l.endsOperand (ts ++ [r]) = true
    rw [operandEnds_append]
    show r.endsOperand = true
    rw [endsOperand, hr]

/-- After a phrase with nothing in front of it an operator is a joint. -/
theorem joints_append (h : Derives phrase ts e) (hleft : phrase.left? = none) (us : List Token) :
    joints false (ts ++ us) = joints false ts ++ joints true us := by
  have hends := h.operandEnds_eq
  rw [hleft, Option.isSome_none] at hends
  rw [Token.joints_append, hends]

/-- The operators of a tree are the joints among the tokens, besides those of a tree in front. The
right operand of an operator has nothing in front of it, so its signs are no joints. -/
theorem perm_symbols (h : Derives phrase ts e) :
    e.symbols.Perm
      (phrase.left?.elim [] Expr.symbols ++ joints phrase.left?.isSome ts) := by
  induction h with
  | @chain tier ts us left e hf _ ihf ihl =>
    rw [Phrase.left?_joined] at ihf
    show e.symbols.Perm (joints false (ts ++ us))
    rw [hf.joints_append (Phrase.left?_joined tier)]
    exact ihl.trans (ihf.append_right _)
  | done => simp [Phrase.left?, joints]
  | @link tier s op p ts us left right e ho hr _ ihr ihl =>
    rw [Phrase.left?_joined] at ihr
    have hjoints : joints true (⟨.operator, .text s, p⟩ :: (ts ++ us)) =
        [op.symbol] ++ (joints false ts ++ joints true us) := by
      rw [joints, if_pos rfl, ho.symbol?_eq, ← hr.joints_append (Phrase.left?_joined tier)]
      rfl
    show e.symbols.Perm (left.symbols ++ joints true (⟨.operator, .text s, p⟩ :: (ts ++ us)))
    rw [hjoints]
    refine ihl.trans ?_
    -- a tree has the symbol of its operator last, the tokens have it between the operands
    show (left.symbols ++ right.symbols ++ [op.symbol] ++ joints true us).Perm _
    rw [List.append_assoc, List.append_assoc]
    refine List.Perm.append_left _ ?_
    exact (List.perm_append_comm_assoc _ _ _).trans ((ihr.append_right _).append_left _)
  | sign _ ih | unsigned _ ih => exact ih
  | number | name => exact .refl _
  | @parens l r ts e hl hr hsum ih =>
    have hclose : joints true [r] = [] := by
      rw [joints, if_pos rfl, symbol?_of_ne (by simp [hr])]
      rfl
    have hopen : l.endsOperand = false := by rw [endsOperand, hl]
    show e.symbols.Perm (joints l.endsOperand (ts ++ [r]))
    rw [hopen, hsum.joints_append rfl, hclose, List.append_nil]
    exact ih

end Derives

/-- What a tree is made of shows in the tokens of its formula: the names are those of the identifier
tokens, each at its first occurrence, and the operators are those of the operator tokens directly
behind a number, an identifier or a closing parenthesis, so signs are none of them. -/
theorem Expr.vars_and_operators {f : String} {e : Expr} (h : Expr.parse f = .ok e) :
    e.vars = ((Token.scan f).filterMap Token.identifier?).eraseDups ∧
      ∀ s, s ∈ e.operators ↔ ∃ t u, [t, u] <:+: Token.scan f ∧
        (t.kind = .number ∨ t.kind = .identifier ∨ t.kind = .closeParen) ∧
        u.symbol? = some s := by
  have hderives : Derives (.chain .sum) (Token.scan f) e := derives_of_ofTokens h
  constructor
  · rw [vars, hderives.identifiers_eq]
    rfl
  · intro s
    have hperm : e.symbols.Perm (joints false (Token.scan f)) := hderives.perm_symbols
    rw [operators, Text.mem_ascending, hperm.mem_iff, mem_joints]
    simp only [Bool.false_eq_true, false_and, false_or, endsOperand_iff]

/-- The signs in front of `b` and `c` are no operators, the caret is one. -/
theorem Expr.vars_and_operators_signs :
    let f := "+b ^ (a / +c) * b"
    let e : Expr := .binary .multiply (.binary .power (.signed .plus (.identifier "b"))
      (.binary .divide (.identifier "a") (.signed .plus (.identifier "c")))) (.identifier "b")
    Expr.parse f = .ok e ∧ e.vars = ["b", "a", "c"] ∧ "**" ∈ e.operators ∧ "+" ∉ e.operators := by
  intro f e
  have hparse : Expr.parse f = .ok e := by decide +kernel
  obtain ⟨hvars, hoperators⟩ := vars_and_operators hparse
  refine ⟨hparse, hvars.trans (by decide +kernel), (hoperators "**").mpr ?_, fun hplus => ?_⟩
  · exact ⟨⟨.identifier, .text "b", 1⟩, ⟨.operator, .text "^", 3⟩, by decide +kernel,
      .inr (.inl rfl), rfl⟩
  · obtain ⟨t, u, hpair, hkind, hs⟩ := (hoperators "+").mp hplus
    have hjoint : "+" ∈ joints false (Token.scan f) :=
      mem_joints.mpr (.inr ⟨t, u, hpair, endsOperand_iff.mpr hkind, hs⟩)
    exact absurd hjoint (by decide +kernel)

end FormulaBook
