import FormulaBook.Proofs.Grammar

/-!
# The parser follows the grammar

`Expr.ofTokens_eq_ok_iff`: the parser gives a tree to a token sequence exactly if the grammar does,
and it is the same tree; so the grammar gives a sequence at most one tree. The parser reads in one
pass with what waits for an operand kept in its state. For one half, every phrase takes the state to
the one that has its tree as the completed operand (`consumes_of_derives`). For the other, a state
says what the tokens read so far are (`State.Describes`); every step keeps this true
(`State.Describes.step`), and at the end it says that the whole sequence is a sum.
-/

namespace FormulaBook

namespace Token

/-- An operator token where an operator is due is one of its tier. -/
theorem operator?_bind_ofSymbol?_iff {t : Token} {op : BinaryOp} :
    t.operator?.bind BinaryOp.ofSymbol? = some op ↔
      ∃ tier s p, t = ⟨.operator, .text s, p⟩ ∧ Tier.Spells tier s op := by
  constructor
  · intro h
    obtain ⟨s, hs, ho⟩ := Option.bind_eq_some_iff.mp h
    have ht := text?_eq_some_iff.mp hs
    unfold BinaryOp.ofSymbol? at ho
    split at ho <;> cases ho
    exacts [⟨_, _, _, ht, .plus⟩, ⟨_, _, _, ht, .minus⟩, ⟨_, _, _, ht, .star⟩,
      ⟨_, _, _, ht, .slash⟩, ⟨_, _, _, ht, .stars⟩, ⟨_, _, _, ht, .caret⟩]
  · rintro ⟨tier, s, p, rfl, h⟩
    cases h <;> rfl

/-- An operator token where an operand is due is a sign. -/
theorem operator?_bind_sign_iff {t : Token} {s : Sign} :
    t.operator?.bind Sign.ofSymbol? = some s ↔ ∃ p, t = ⟨.operator, .text s.symbol, p⟩ := by
  constructor
  · intro h
    obtain ⟨u, hu, hs⟩ := Option.bind_eq_some_iff.mp h
    have ht := text?_eq_some_iff.mp hu
    unfold Sign.ofSymbol? at hs
    split at hs <;> cases hs <;> exact ⟨_, ht⟩
  · rintro ⟨p, rfl⟩
    cases s <;> rfl

end Token

namespace Parser

variable {ν : Type}

/-! ## Phrases take the parser on -/

namespace Level

/-- The operand that waits on a tier, with its operator. -/
def waiting (l : Level ν) : Tier → Option (Waiting ν)
  | .sum => l.sum
  | .product => l.product
  | .power => l.power

/-- Nothing waits on a tier tighter than the given one, and no sign does. -/
def Free (l : Level ν) : Tier → Prop
  | .sum => l.product = none ∧ l.power = none ∧ l.signs = []
  | .product => l.power = none ∧ l.signs = []
  | .power => l.signs = []

/-- With the completed operand `e'` on level `l'` the chain of the given tier has the tree `e`, and
looser tiers are as on `l`. -/
def Ends (l : Level ν) (e e' : Expr ν) (l' : Level ν) : Tier → Prop
  | .sum => l'.endSum e' = e ∧ l'.power = none ∧ l'.signs = []
  | .product => l'.endProduct e' = e ∧ l'.sum = l.sum ∧ l'.power = none ∧ l'.signs = []
  | .power =>
    e' = e ∧ l'.sum = l.sum ∧ l'.product = l.product ∧ l'.power = none ∧ l'.signs = []

/-- After an operator its left operand waits on its tier, and the chain goes on. -/
theorem Ends.operator {l l' : Level ν} {left e' : Expr ν} {tier : Tier} {s : String} {op : BinaryOp}
    (h : l.Ends left e' l' tier) (ho : tier.Spells s op) :
    (l'.operator e' op).Free tier ∧ (l'.operator e' op).waiting tier = some (left, op) ∧
      ∀ {e e'' l''}, (l'.operator e' op).Ends e e'' l'' tier → l.Ends e e'' l'' tier := by
  cases ho with
  | plus | minus => exact ⟨⟨rfl, rfl, rfl⟩, by rw [← h.1]; rfl, id⟩
  | star | slash =>
    obtain ⟨rfl, hs, hp, hg⟩ := h
    exact ⟨⟨hp, hg⟩, rfl, fun h => ⟨h.1, h.2.1.trans hs, h.2.2⟩⟩
  | caret | stars =>
    obtain ⟨rfl, hs, hm, hp, hg⟩ := h
    exact ⟨hg, rfl, fun h => ⟨h.1, h.2.1.trans hs, h.2.2.1.trans hm, h.2.2.2⟩⟩

end Level

variable [Token.Numeral ν]

/-- Reading the tokens takes the parser from one state to another, whatever follows. -/
def Advances (s : State ν) (ts : List Token) (s' : State ν) : Prop :=
  ∀ p rest, run s p (ts ++ rest) = run s' (p + ts.length) rest

namespace Advances

/-- Reading nothing leaves the parser in its state. -/
theorem nil (s : State ν) : Advances s [] s := fun _ _ => rfl

/-- A token that is accepted whatever follows is a step of the parser. -/
theorem single {s s' : State ν} {t : Token} (h : ∀ rest p, s.step t rest p = .ok s') :
    Advances s [t] s' := fun p rest => by
  rw [List.singleton_append, run, h]
  rfl

/-- Two sequences, one behind the other, lead from the first state to the last. -/
theorem append {s s' s'' : State ν} {ts us : List Token} (h : Advances s ts s')
    (h' : Advances s' us s'') : Advances s (ts ++ us) s'' := fun p rest => by
  rw [List.append_assoc, h, h', List.length_append, Nat.add_assoc]

/-- A token that is accepted whatever follows goes in front of a sequence. -/
theorem cons {s s' s'' : State ν} {t : Token} {ts : List Token}
    (h : ∀ rest p, s.step t rest p = .ok s') (h' : Advances s' ts s'') :
    Advances s (t :: ts) s'' := (single h).append h'

end Advances

/-- What reading a phrase with the given tree does to the state. -/
def Consumes : Phrase ν → List Token → Expr ν → Prop
  | .operand, ts, e | .signed, ts, e =>
    ∀ (l : Level ν) (outer : List (Level ν)), Advances (.awaiting l outer) ts (.operand e l outer)
  | .chain tier, ts, e =>
    ∀ (l : Level ν) (outer : List (Level ν)), l.Free tier → l.waiting tier = none →
      ∃ e' l', l.Ends e e' l' tier ∧ Advances (.awaiting l outer) ts (.completed e' l' outer)
  | .links tier left, ts, e =>
    ∀ (l : Level ν) (e₀ : Expr ν) (l₀ : Level ν) (outer : List (Level ν)), l.Ends left e₀ l₀ tier →
      ∃ e' l', l.Ends e e' l' tier ∧
        Advances (.completed e₀ l₀ outer) ts (.completed e' l' outer)

/-- An operand of a tier is attached to what waits on the tier. -/
theorem Consumes.joined {tier : Tier} {ts : List Token} {e : Expr ν} (h : Consumes tier.joined ts e)
    (l : Level ν) (outer : List (Level ν)) (hl : l.Free tier) :
    ∃ e' l', l.Ends (attach (l.waiting tier) e) e' l' tier ∧
      Advances (.awaiting l outer) ts (.completed e' l' outer) := by
  cases tier with
  | sum =>
    obtain ⟨e', l', ⟨he, hs, hp, hg⟩, ha⟩ := h l outer hl.2 hl.1
    refine ⟨e', l', ⟨?_, hp, hg⟩, ha⟩
    rw [Level.endSum, he, hs]
    rfl
  | product =>
    obtain ⟨e', l', ⟨he, hs, hm, hp, hg⟩, ha⟩ := h l outer hl.2 hl.1
    refine ⟨e', l', ⟨?_, hs, hp, hg⟩, ha⟩
    rw [Level.endProduct, he, hm]
    rfl
  | power =>
    refine ⟨l.complete e, l.settled, ⟨?_, rfl, rfl, rfl, rfl⟩, h l outer⟩
    rw [Level.complete, show l.signs = [] from hl]
    rfl

/-- Every phrase takes the state to the one that has its tree. -/
theorem consumes_of_derives {phrase : Phrase ν} {ts : List Token} {e : Expr ν}
    (h : Derives phrase ts e) : Consumes phrase ts e := by
  induction h with
  | @chain tier ts us left e _ _ ihf ihl =>
    intro l outer hl hw
    obtain ⟨e₀, l₀, he, ha⟩ := ihf.joined l outer hl
    rw [hw] at he
    obtain ⟨e', l', he', ha'⟩ := ihl l e₀ l₀ outer he
    exact ⟨e', l', he', ha.append ha'⟩
  | done => exact fun l e₀ l₀ outer h => ⟨e₀, l₀, h, .nil _⟩
  | @link tier s op p ts us left right e ho _ _ ihr ihl =>
    intro l e₀ l₀ outer h
    obtain ⟨hfree, hw, hends⟩ := h.operator ho
    obtain ⟨e₁, l₁, he₁, ha₁⟩ := ihr.joined (l₀.operator e₀ op) outer hfree
    rw [hw] at he₁
    obtain ⟨e', l', he', ha'⟩ := ihl l e₁ l₁ outer (hends he₁)
    refine ⟨e', l', he', .cons (fun rest p => ?_) (ha₁.append ha')⟩
    simp only [State.step, Token.operator?_bind_ofSymbol?_iff.mpr ⟨tier, s, _, rfl, ho⟩]
  | @sign s p ts e _ ih =>
    intro l outer
    refine .cons (fun rest p => ?_) (ih { l with signs := s :: l.signs } outer)
    simp only [State.step, State.Opening.of, Token.operator?_bind_sign_iff.mpr ⟨_, rfl⟩]
  | unsigned _ ih => exact ih
  | number => exact fun l outer => .single fun rest p => rfl
  | name hn =>
    refine fun l outer => .single fun rest p => ?_
    simp [State.step, State.Opening.of, Token.operator?, Token.text?_of_ne,
      Text.isName_iff.mpr hn]
  | @parens lp rp ts e hlp hrp _ ih =>
    intro l outer
    obtain ⟨e', l', ⟨he, -, -⟩, ha⟩ := ih {} (l :: outer) ⟨rfl, rfl, rfl⟩ rfl
    have hopen : Advances (.awaiting l outer) [lp] (.awaiting {} (l :: outer)) :=
      .single fun rest p => by
        simp [State.step, State.Opening.of, Token.operator?, Token.text?_of_ne, hlp]
    have hclose : Advances (.completed e' l' (l :: outer)) [rp] (.operand e l outer) :=
      .single fun rest p => by simp [State.step, Token.operator?, Token.text?_of_ne, hrp, he]
    exact hopen.append (ha.append hclose)

/-! ## States describe what was read -/

/-- The tokens are an operand of the tier with its operator, or there are none if nothing waits. -/
inductive Waits (tier : Tier) : Option (Waiting ν) → List Token → Prop
  | nothing : Waits tier none []
  | operator {s op p ts left} : Derives (.chain tier) ts left → tier.Spells s op →
      Waits tier (some (left, op)) (ts ++ [⟨.operator, .text s, p⟩])

/-- The tokens are signs, the last one first in the list. -/
inductive Signs : List Sign → List Token → Prop
  | nil : Signs [] []
  | snoc {s : Sign} {p signs ts} : Signs signs ts →
      Signs (s :: signs) (ts ++ [⟨.operator, .text s.symbol, p⟩])

/-- What waits and the operand after it are a chain. -/
theorem Waits.attach {tier : Tier} {w : Option (Waiting ν)} {ts us : List Token} {e : Expr ν}
    (h : Waits tier w ts) (he : Derives tier.joined us e) :
    Derives (.chain tier) (ts ++ us) (attach w e) := by
  cases h with
  | nothing => exact he.single
  | operator hl ho =>
    rw [List.append_assoc]
    exact hl.snoc ho he

/-- Signs and the operand after them are a signed operand. -/
theorem Signs.derives {signs : List Sign} {ts us : List Token} {e : Expr ν} (h : Signs signs ts)
    (he : Derives .signed us e) :
    Derives .signed (ts ++ us) (signs.foldl (fun e s => .signed s e) e) := by
  induction h generalizing us e with
  | nil => exact he
  | snoc _ ih => simpa using ih he.sign

/-- The tokens are what waits on the level, from the loosest tier to the signs. -/
def Level.Describes (l : Level ν) (ts : List Token) : Prop :=
  ∃ a b c d, ts = a ++ (b ++ (c ++ d)) ∧
    Waits .sum l.sum a ∧ Waits .product l.product b ∧ Waits .power l.power c ∧ Signs l.signs d

/-- The tokens are what waits on each of the levels, with an open parenthesis after each. -/
inductive Encloses : List (Level ν) → List Token → Prop
  | nil : Encloses [] []
  | cons {l outer o ts us} : Encloses outer ts → l.Describes us → o.kind = .openParen →
      Encloses (l :: outer) (ts ++ (us ++ [o]))

/-- The tokens are what a parser in this state has read. -/
def State.Describes : State ν → List Token → Prop
  | .awaiting l outer, ts => ∃ us vs, ts = us ++ vs ∧ Encloses outer us ∧ l.Describes vs
  | .completed e l outer, ts =>
    ∃ us a b c, ts = us ++ (a ++ (b ++ c)) ∧ Encloses outer us ∧
      Waits .sum l.sum a ∧ Waits .product l.product b ∧ Derives (.chain .power) c e ∧
      l.power = none ∧ l.signs = []

namespace State.Describes

/-- The state after an operand. -/
theorem operand {l : Level ν} {outer : List (Level ν)} {ts us : List Token} {e : Expr ν}
    (h : (State.awaiting l outer).Describes ts) (he : Derives .operand us e) :
    (State.operand e l outer).Describes (ts ++ us) := by
  obtain ⟨vs, ws, rfl, houter, a, b, c, d, rfl, hs, hm, hp, hg⟩ := h
  refine ⟨vs, a, b, c ++ (d ++ us), by simp, houter, hs, hm, ?_, rfl, rfl⟩
  exact hp.attach (hg.derives he.unsigned)

/-- The product and the sum that end where the state has completed an operand. -/
theorem ends {l : Level ν} {outer : List (Level ν)} {ts : List Token} {e : Expr ν}
    (h : (State.completed e l outer).Describes ts) :
    ∃ us vs, ts = us ++ vs ∧ Encloses outer us ∧ Derives (.chain .sum) vs (l.endSum e) := by
  obtain ⟨us, a, b, c, rfl, houter, hs, hm, he, -, -⟩ := h
  exact ⟨us, a ++ (b ++ c), rfl, houter, hs.attach (hm.attach he)⟩

/-- The state after an operator. -/
theorem operator {l : Level ν} {outer : List (Level ν)} {ts : List Token} {e : Expr ν} {tier : Tier}
    {s : String} {op : BinaryOp} {p : Int} (h : (State.completed e l outer).Describes ts)
    (ho : tier.Spells s op) :
    (State.awaiting (l.operator e op) outer).Describes (ts ++ [⟨.operator, .text s, p⟩]) := by
  obtain ⟨us, a, b, c, rfl, houter, hs, hm, he, hp, hg⟩ := h
  have hnil : Signs l.signs [] := hg ▸ .nil
  have hnone : Waits .power l.power [] := hp ▸ .nothing
  refine ⟨us, a ++ (b ++ (c ++ [⟨.operator, .text s, p⟩])), by simp, houter, ?_⟩
  cases ho with
  | plus =>
    have hw := Waits.operator (p := p) (hs.attach (hm.attach he)) .plus
    exact ⟨_, [], [], [], by simp, hw, .nothing, .nothing, .nil⟩
  | minus =>
    have hw := Waits.operator (p := p) (hs.attach (hm.attach he)) .minus
    exact ⟨_, [], [], [], by simp, hw, .nothing, .nothing, .nil⟩
  | star =>
    have hw := Waits.operator (p := p) (hm.attach he) .star
    exact ⟨a, _, [], [], by simp, hs, hw, hnone, hnil⟩
  | slash =>
    have hw := Waits.operator (p := p) (hm.attach he) .slash
    exact ⟨a, _, [], [], by simp, hs, hw, hnone, hnil⟩
  | caret => exact ⟨a, b, _, [], by simp, hs, hm, .operator (p := p) he .caret, hnil⟩
  | stars => exact ⟨a, b, _, [], by simp, hs, hm, .operator (p := p) he .stars, hnil⟩

/-- A token that is an operand on its own. -/
theorem of_operand {t : Token} {e : Expr ν} (h : Opening.of t = .operand e) :
    Derives .operand [t] e := by
  unfold Opening.of at h
  split at h
  · cases h
  · split at h <;> try cases h
    · rename_i hk
      have ht : t = ⟨.number, t.value, t.position⟩ := by rw [← hk]
      exact ht ▸ .number
    · rename_i s hk hv
      have ht : t = ⟨.identifier, .text s, t.position⟩ := by rw [← hk, ← hv]
      split at h <;> cases h
      rename_i hn
      exact ht ▸ .name (Text.isName_iff.mp hn)

/-- A token that is a sign before an operand. -/
theorem of_sign {t : Token} {s : Sign} (h : (Opening.of t : Opening ν) = .sign s) :
    ∃ p, t = ⟨.operator, .text s.symbol, p⟩ := by
  unfold Opening.of at h
  split at h
  · rename_i hs
    cases h
    exact Token.operator?_bind_sign_iff.mp hs
  · split at h <;> try cases h
    split at h <;> cases h

/-- A token that opens a parenthesis. -/
theorem of_openParen {t : Token} (h : (Opening.of t : Opening ν) = .openParen) :
    t.kind = .openParen := by
  unfold Opening.of at h
  split at h
  · cases h
  · split at h <;> try cases h
    · assumption
    · split at h <;> cases h

/-- A step keeps the state a description of what was read. -/
theorem step {s s' : State ν} {t : Token} {ts rest : List Token} {p : Nat} (h : s.Describes ts)
    (hs : s.step t rest p = .ok s') : s'.Describes (ts ++ [t]) := by
  cases s with
  | awaiting l outer =>
    simp only [State.step] at hs
    split at hs <;> cases hs
    · rename_i s hopen
      obtain ⟨p, rfl⟩ := of_sign hopen
      obtain ⟨us, vs, rfl, houter, a, b, c, d, rfl, hsum, hm, hp, hg⟩ := h
      exact ⟨us, a ++ (b ++ (c ++ (d ++ [⟨.operator, .text s.symbol, p⟩]))), by simp, houter,
        a, b, c, _, rfl, hsum, hm, hp, .snoc hg⟩
    · rename_i hopen
      obtain ⟨us, vs, rfl, houter, hl⟩ := h
      refine ⟨us ++ (vs ++ [t]), [], by simp, .cons houter hl (of_openParen hopen), ?_⟩
      exact ⟨[], [], [], [], rfl, .nothing, .nothing, .nothing, .nil⟩
    · rename_i hopen
      exact h.operand (of_operand hopen)
  | completed e l outer =>
    simp only [State.step] at hs
    split at hs
    · rename_i op hop
      cases hs
      obtain ⟨tier, s, p, rfl, ho⟩ := Token.operator?_bind_ofSymbol?_iff.mp hop
      exact h.operator ho
    · split at hs
      · cases hs
      · split at hs <;> cases hs
        rename_i around outer hclose
        obtain ⟨us, vs, rfl, houter, he⟩ := h.ends
        cases houter with
        | @cons _ _ o ts' us' houter hl ho =>
          have hawait : (State.awaiting around outer).Describes (ts' ++ us') :=
            ⟨ts', us', rfl, houter, hl⟩
          simpa using hawait.operand (.parens ho hclose he)

/-- What a run that succeeds has read is a sum with its tree. -/
theorem run {s : State ν} {ts us : List Token} {p : Nat} {e : Expr ν} (h : s.Describes ts)
    (hr : Parser.run s p us = .ok e) : Derives (.chain .sum) (ts ++ us) e := by
  induction us generalizing s ts p with
  | nil =>
    simp only [Parser.run] at hr
    unfold State.finish at hr
    split at hr <;> cases hr
    obtain ⟨us, vs, rfl, houter, he⟩ := h.ends
    cases houter
    simpa using he
  | cons t us ih =>
    simp only [Parser.run] at hr
    split at hr
    · rename_i s' hs
      simpa using ih (h.step hs) hr
    · cases hr

end State.Describes

/-- At the start nothing has been read. -/
theorem describes_start : (State.start : State ν).Describes [] :=
  ⟨[], [], rfl, .nil, [], [], [], [], rfl, .nothing, .nothing, .nothing, .nil⟩

end Parser

/-! ## The parser and the grammar -/

section

variable {ν : Type} [Token.Numeral ν]

/-- The parser gives every sum its tree. -/
theorem Expr.ofTokens_of_derives {ts : List Token} {e : Expr ν} (h : Derives (.chain .sum) ts e) :
    Expr.ofTokens ts = .ok e := by
  obtain ⟨e', l', ⟨he, -, -⟩, ha⟩ := Parser.consumes_of_derives h {} [] ⟨rfl, rfl, rfl⟩ rfl
  have hrun := ha 0 []
  rw [List.append_nil] at hrun
  rw [Expr.ofTokens, Parser.State.start, hrun, Parser.run, Parser.State.finish, he]

/-- The parser accepts only sums. -/
theorem Expr.derives_of_ofTokens {ts : List Token} {e : Expr ν} (h : Expr.ofTokens ts = .ok e) :
    Derives (.chain .sum) ts e :=
  Parser.describes_start.run h

/-- The parser gives a tree to a token sequence exactly if the grammar does, and the grammar gives
a sequence at most one tree. -/
theorem Expr.ofTokens_eq_ok_iff (ts : List Token) :
    (∀ e : Expr ν, Expr.ofTokens ts = .ok e ↔ Derives (.chain .sum) ts e) ∧
      ∀ e e' : Expr ν, Derives (.chain .sum) ts e → Derives (.chain .sum) ts e' → e = e' := by
  refine ⟨fun e => ⟨derives_of_ofTokens, ofTokens_of_derives⟩, fun e e' h h' => ?_⟩
  have heq := (ofTokens_of_derives h).symm.trans (ofTokens_of_derives h')
  exact Except.ok.inj heq

end

/-- In `-a ^ b` the sign belongs to `a`, and to nothing else. -/
theorem Expr.ofTokens_sign_before_power :
    let ts : List Token := [⟨.operator, .text "-", 0⟩, ⟨.identifier, .text "a", 1⟩,
      ⟨.operator, .text "^", 2⟩, ⟨.identifier, .text "b", 3⟩]
    let e : Expr := .binary .power (.signed .minus (.identifier "a")) (.identifier "b")
    Derives (.chain .sum) ts e ∧ ∀ e', Derives (.chain .sum) ts e' → e' = e := by
  intro ts e
  have hd : Derives (.chain .sum) ts e := ((ofTokens_eq_ok_iff ts).1 e).mp (by decide)
  exact ⟨hd, fun e' hd' => (ofTokens_eq_ok_iff ts).2 e' e hd' hd⟩

end FormulaBook
