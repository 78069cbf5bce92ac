import FormulaBook.Expr.Basic
import FormulaBook.Token.Scan

/-!
# Parsing

The grammar of formulas, from the loosest operators to the tightest:

* a sum joins products by `+` and `-`;
* a product joins powers by `*` and `/`;
* a power joins signed operands by `**` (or `^`);
* a signed operand is an operand with any number of signs before it;
* an operand is a number, a name or a sum in parentheses.

All binary operators associate to the left. The parser reads the tokens from left to right in one
pass. Its state holds, for every open parenthesis level, the operators that still wait for their
right operand: at most one on each of the three tiers, since an operator of a tier completes what
waits on its own tier and on the tighter ones.

A formula is refused at the first token after which no formula can go on, and the error says what
was wrong there. What number tokens carry is no matter of the grammar: the numbers of the tree may
have any type they can be given (`Token.Numeral`).
-/

namespace FormulaBook

/-- Why a sequence of tokens is no formula. Positions count tokens. -/
inductive ParseError where
  /-- The token, or the end of the sequence, stands where an operand is due. -/
  | unexpected (found : Option Token) (position : Nat)
  /-- A parenthesis is open and what follows a complete operand neither goes on nor closes it. -/
  | missingCloseParen (position : Nat)
  /-- Tokens are left after a complete formula. -/
  | trailing (rest : List Token) (position : Nat)
  /-- An identifier that stands where an operand is due carries no text. -/
  | nameless
deriving DecidableEq

/-- The message of a parse error. -/
def ParseError.message : ParseError → String
  | .unexpected none _ => "Unexpected end of expression"
  | .unexpected (some t) p => "Unexpected token '" ++ t.text ++ "' at position " ++ toString p
  | .missingCloseParen p => "Missing closing parenthesis at position " ++ toString p
  | .trailing rest _ =>
    "Unexpected tokens after expression: " ++ " ".intercalate (rest.map Token.text)
  | .nameless => "Identifier without a name"

namespace Parser

variable {ν : Type}

/-- A left operand with the operator behind it. -/
abbrev Waiting (ν : Type) := Expr ν × BinaryOp

/-- The expression with the waiting operator applied to it. -/
def attach : Option (Waiting ν) → Expr ν → Expr ν
  | none, e => e
  | some (left, op), e => .binary op left e

/-- What waits for an operand on one parenthesis level: at most one operator on each tier, and the
signs read since, the last one first. -/
structure Level (ν : Type) where
  sum : Option (Waiting ν) := none
  product : Option (Waiting ν) := none
  power : Option (Waiting ν) := none
  signs : List Sign := []
deriving DecidableEq

namespace Level

/-- The operand with its signs, and with the power it completes. -/
def complete (l : Level ν) (e : Expr ν) : Expr ν :=
  attach l.power (l.signs.foldl (fun e s => .signed s e) e)

/-- The level after a completed operand. -/
def settled (l : Level ν) : Level ν := { sum := l.sum, product := l.product }

/-- The product that ends with `e`. -/
def endProduct (l : Level ν) (e : Expr ν) : Expr ν := attach l.product e

/-- The sum that ends with `e`. -/
def endSum (l : Level ν) (e : Expr ν) : Expr ν := attach l.sum (l.endProduct e)

/-- The level after a completed operand `e` and an operator. -/
def operator (l : Level ν) (e : Expr ν) : BinaryOp → Level ν
  | .power => { l with power := some (e, .power) }
  | .multiply => { l with product := some (l.endProduct e, .multiply) }
  | .divide => { l with product := some (l.endProduct e, .divide) }
  | .add => { sum := some (l.endSum e, .add) }
  | .subtract => { sum := some (l.endSum e, .subtract) }

end Level

/-- The state between two tokens: an operand is due, or one has just been completed. The innermost
level is apart from the levels around it. -/
inductive State (ν : Type) where
  | awaiting (level : Level ν) (outer : List (Level ν))
  | completed (e : Expr ν) (level : Level ν) (outer : List (Level ν))
deriving DecidableEq

namespace State

/-- The state before the first token. -/
def start : State ν := .awaiting {} []

/-- The state after an operand on the innermost level. -/
def operand (e : Expr ν) (level : Level ν) (outer : List (Level ν)) : State ν :=
  .completed (level.complete e) level.settled outer

/-- What a token means where an operand is due. -/
inductive Opening (ν : Type) where
  | sign (s : Sign)
  | openParen
  | operand (e : Expr ν)
  | nameless
  | other

variable [Token.Numeral ν]

/-- The meaning of a token where an operand is due. A number token is an operand whatever it
carries, an identifier only if it carries a name. -/
def Opening.of (t : Token) : Opening ν :=
  match t.operator?.bind Sign.ofSymbol? with
  | some s => .sign s
  | none =>
    match t.kind, t.value with
    | .openParen, _ => .openParen
    | .number, value => .operand (.number (Token.Numeral.ofValue value))
    | .identifier, .text name => if Text.isName name then .operand (.identifier name) else .other
    | .identifier, .number _ => .nameless
    | _, _ => .other

/-- The state after one more token; `rest` is the sequence from that token on and `position` its
index. -/
def step (t : Token) (rest : List Token) (position : Nat) :
    State ν → Except ParseError (State ν)
  | .awaiting level outer =>
    match Opening.of t with
    | .sign s => .ok (.awaiting { level with signs := s :: level.signs } outer)
    | .openParen => .ok (.awaiting {} (level :: outer))
    | .operand e => .ok (operand e level outer)
    | .nameless => .error .nameless
    | .other => .error (.unexpected (some t) position)
  | .completed e level outer =>
    match t.operator?.bind BinaryOp.ofSymbol? with
    | some op => .ok (.awaiting (level.operator e op) outer)
    | none =>
      match outer with
      | [] => .error (.trailing rest position)
      | around :: outer =>
        if t.kind = .closeParen then .ok (operand (level.endSum e) around outer)
        else .error (.missingCloseParen position)

/-- The formula of a state at the end of the sequence. -/
def finish (position : Nat) : State ν → Except ParseError (Expr ν)
  | .awaiting _ _ => .error (.unexpected none position)
  | .completed e level [] => .ok (level.endSum e)
  | .completed _ _ (_ :: _) => .error (.missingCloseParen position)

end State

/-- The formula of the tokens from index `position` on, read in the given state. -/
def run [Token.Numeral ν] (s : State ν) (position : Nat) :
    List Token → Except ParseError (Expr ν)
  | [] => s.finish position
  | t :: ts =>
    match s.step t (t :: ts) position with
    | .ok s => run s (position + 1) ts
    | .error e => .error e

end Parser

/-- The tree of a sequence of tokens. -/
def Expr.ofTokens {ν : Type} [Token.Numeral ν] (ts : List Token) : Except ParseError (Expr ν) :=
  Parser.run .start 0 ts

/-- The tree of a formula. Parentheses and signs may nest as deep as they like: a limit that a host
sets to recursion is left out. -/
def Expr.parse (s : String) : Except ParseError Expr := Expr.ofTokens (Token.scan s)

end FormulaBook
