import FormulaBook.Proofs.Parsing
import FormulaBook.Proofs.Scanning

/-!
# Trees written as formulas

`Expr.parse_text`: the text of a tree parses, and to the same tree up to infinite numbers, which
are written as the name `Infinity`. The text of an operation has parentheses around it, so it is an
operand of the grammar whatever stands beside it, and the proof is an induction over the tree
(`Expr.scanFrom_text`). What a formula parses to has only names and numbers without a sign, so its
text parses to the same tree unless a number literal in it was too large.
-/

namespace FormulaBook

open Text

namespace Expr

/-- The numbers in a tree from left to right, with all repetitions. -/
def numbers : Expr → List Binary64
  | .number x => [x]
  | .identifier _ => []
  | .binary _ left right => left.numbers ++ right.numbers
  | .signed _ operand => operand.numbers

/-- The tree with every infinite number replaced by the name it is written as. -/
def namingInfinity : Expr → Expr
  | .number (.infinity _) => .identifier "Infinity"
  | .number x => .number x
  | .identifier name => .identifier name
  | .binary op left right => .binary op left.namingInfinity right.namingInfinity
  | .signed sign operand => .signed sign operand.namingInfinity

/-- Only infinite numbers are replaced. -/
theorem namingInfinity_eq_self_iff {e : Expr} :
    e.namingInfinity = e ↔ ∀ x ∈ e.numbers, ∀ negative, x ≠ .infinity negative := by
  induction e with
  | number x => cases x <;> simp [namingInfinity, numbers]
  | identifier name => simp [namingInfinity, numbers]
  | binary op left right ihl ihr =>
    simp only [namingInfinity, numbers, List.mem_append, or_imp, forall_and, ← ihl, ← ihr]
    simp
  | signed sign operand ih => simp [namingInfinity, numbers, ih]

end Expr

/-! ## What a phrase is made of -/

namespace Derives

/-- An operand is an operand of every tier. -/
theorem joined {tier : Tier} {ts : List Token} {e : Expr} (h : Derives .operand ts e) :
    Derives tier.joined ts e := by
  have hsigned : Derives .signed ts e := .unsigned h
  have hpower : Derives (.chain .power) ts e := single hsigned
  cases tier with
  | sum => exact single hpower
  | product => exact hpower
  | power => exact hsigned

/-- A chain of any tier is a sum. -/
theorem sum_of_chain {tier : Tier} {ts : List Token} {e : Expr} (h : Derives (.chain tier) ts e) :
    Derives (.chain .sum) ts e := by
  cases tier with
  | sum => exact h
  | product => exact single h
  | power => exact single (single h)

/-- An operand is a sum. -/
theorem sum_of_operand {ts : List Token} {e : Expr} (h : Derives .operand ts e) :
    Derives (.chain .sum) ts e := single h.joined

end Derives

/-- The number that a number token stands for. -/
def Token.number? (t : Token) : Option Binary64 := (t.value? .number).map Numeral.ofValue

/-- A token stands for an infinity exactly if it is a number token that carries it. -/
theorem Token.number?_eq_infinity_iff {t : Token} {negative : Bool} :
    t.number? = some (.infinity negative) ↔
      t.kind = .number ∧ t.value = .number (.infinity negative) := by
  simp only [number?, Option.map_eq_some_iff, value?_eq_some_iff]
  constructor
  · rintro ⟨v, ⟨hk, rfl⟩, hx⟩
    cases hv : t.value with
    | number x =>
      rw [hv] at hx
      exact ⟨hk, congrArg _ hx⟩
    | text s =>
      rw [hv] at hx
      cases hx
  · rintro ⟨hk, hv⟩
    exact ⟨_, ⟨hk, hv⟩, rfl⟩

/-- The tree in front of links, and for other phrases no tree. -/
def Phrase.left? : Phrase → Option Expr
  | .links _ left => some left
  | .chain _ | .signed | .operand => none

/-- A phrase of what a tier joins has no tree in front. -/
theorem Phrase.left?_joined (tier : Tier) : tier.joined.left? = none := by
  cases tier <;> rfl

namespace Derives

/-- What is collected from the leaves of a tree is what is collected from the tokens, after what is
collected from a tree in front. -/
theorem collect_eq {α : Type} {F : Expr → List α} {g : Token → Option α}
    (hnumber : ∀ v p, F (.number (Token.Numeral.ofValue v)) = (g ⟨.number, v, p⟩).toList)
    (hname : ∀ s p, F (.identifier s) = (g ⟨.identifier, .text s, p⟩).toList)
    (hbinary : ∀ op left right, F (.binary op left right) = F left ++ F right)
    (hsigned : ∀ s e, F (.signed s e) = F e)
    (hother : ∀ t : Token, t.kind ≠ .number → t.kind ≠ .identifier → g t = none)
    {phrase : Phrase} {ts : List Token} {e : Expr} (h : Derives phrase ts e) :
    F e = phrase.left?.elim [] F ++ ts.filterMap g := by
  have hsingle (t : Token) : [t].filterMap g = (g t).toList := by
    cases hg : g t <;> simp [hg]
  induction h with
  | @chain tier ts us left e _ _ ihf ihl =>
    rw [Phrase.left?_joined] at ihf
    rw [ihl, List.filterMap_append]
    exact congrArg (· ++ _) ihf
  | done => exact (List.append_nil _).symm
  | @link tier s op p ts us left right e _ _ _ ihr ihl =>
    rw [Phrase.left?_joined] at ihr
    rw [ihl, List.filterMap_cons_none (hother _ (by simp) (by simp)), List.filterMap_append,
      ← List.append_assoc]
    refine congrArg (· ++ _) ((hbinary op left right).trans ?_)
    exact congrArg (F left ++ ·) ihr
  | sign _ ih => rwa [hsigned, List.filterMap_cons_none (hother _ (by simp) (by simp))]
  | unsigned _ ih => exact ih
  | @number v p => rw [hnumber v p, hsingle]; rfl
  | @name s p => rw [hname s p, hsingle]; rfl
  | parens hl hr _ ih =>
    rw [List.filterMap_cons_none (hother _ (by simp [hl]) (by simp [hl])), List.filterMap_append,
      List.filterMap_cons_none (hother _ (by simp [hr]) (by simp [hr])), List.filterMap_nil,
      List.append_nil]
    exact ih

/-- The numbers of a tree are those of the tokens, after those of a tree in front. -/
theorem numbers_eq {phrase : Phrase} {ts : List Token} {e : Expr} (h : Derives phrase ts e) :
    e.numbers = phrase.left?.elim [] Expr.numbers ++ ts.filterMap Token.number? :=
  collect_eq (fun _ _ => rfl) (fun _ _ => rfl) (fun _ _ _ => rfl) (fun _ _ => rfl)
    (fun t hk _ => by rw [Token.number?, Token.value?_of_ne hk, Option.map_none]) h

/-- The identifiers of a tree are names, if those of a tree in front are. -/
theorem isName_of_mem {phrase : Phrase} {ts : List Token} {e : Expr} (h : Derives phrase ts e)
    (hleft : ∀ left ∈ phrase.left?, ∀ s ∈ left.identifiers, IsName s) :
    ∀ s ∈ e.identifiers, IsName s := by
  induction h with
  | @chain tier ts us left e _ _ ihf ihl =>
    refine ihl fun _ hl => ?_
    cases hl
    exact ihf (by simp [Phrase.left?_joined])
  | done => exact hleft _ rfl
  | @link tier s op p ts us left right e _ _ _ ihr ihl =>
    refine ihl fun _ hl => ?_
    cases hl
    intro s hs
    rcases List.mem_append.mp hs with hs | hs
    · exact hleft left rfl s hs
    · exact ihr (by simp [Phrase.left?_joined]) s hs
  | sign _ ih | unsigned _ ih | parens _ _ _ ih => exact ih nofun
  | number => exact nofun
  | name hn =>
    intro s hs
    rw [Expr.identifiers, List.mem_singleton] at hs
    exact hs ▸ hn

end Derives

/-! ## The text of a tree -/

/-- The symbol of an operator spells it on some tier. -/
theorem BinaryOp.spells_symbol (op : BinaryOp) : ∃ tier, Tier.Spells tier op.symbol op := by
  cases op
  exacts [⟨_, .plus⟩, ⟨_, .minus⟩, ⟨_, .star⟩, ⟨_, .slash⟩, ⟨_, .stars⟩]

/-- A letter is no digit of any script. -/
theorem Text.digit?_of_isLetter {c : Char} (h : IsLetter c) : digit? c = none := by
  have hzeros : ∀ z ∈ zeros, z = 48 ∨ 1632 ≤ z := by decide
  rw [digit?, List.findSome?_eq_none_iff]
  intro z hz
  rw [if_neg]
  intro hc
  rcases h with h | h | rfl
  · have h1 : 65 ≤ c.toNat := h.1
    have h2 : c.toNat ≤ 90 := h.2
    rcases hzeros z hz with rfl | hz <;> omega
  · have h1 : 97 ≤ c.toNat := h.1
    have h2 : c.toNat ≤ 122 := h.2
    rcases hzeros z hz with rfl | hz <;> omega
  · have h1 : '_'.toNat = 95 := rfl
    rcases hzeros z hz with rfl | hz <;> omega

/-- A name is no number literal. -/
theorem Decimal.ofLiteral?_name {s : String} (h : IsName s) : ofLiteral? s.toList = none := by
  obtain ⟨c, cs, hs, hc, -⟩ := h
  have hdigit := digit?_of_isLetter hc
  have hpoint : c ≠ '.' := by
    rintro rfl
    rw [← startsName_iff] at hc
    cases hc
  simp [ofLiteral?, read?, readMantissa?, hs, spanDigits, hdigit, hpoint]

namespace Token

/-- A name is read as an identifier. -/
theorem ofWord_name {s : String} (h : IsName s) (p : Int) :
    ofWord s.toList p = ⟨.identifier, .text s, p⟩ := by
  simp [ofWord, Decimal.ofLiteral?_name h]

/-- A name has a character, and all of them belong to words. -/
theorem isWordChar_of_mem_name {s : String} (h : IsName s) :
    s.toList ≠ [] ∧ ∀ c ∈ s.toList, isWordChar c = true := by
  obtain ⟨c, cs, hs, hc, hcs⟩ := h
  rw [hs]
  refine ⟨List.cons_ne_nil c cs, fun d hd => isWordChar_of_name ?_⟩
  rcases List.mem_cons.mp hd with rfl | hd
  · exact .inl hc
  · exact hcs d hd

/-- What an infinite number is written as is a name. -/
theorem isName_infinity : IsName "Infinity" := isName_iff.mp rfl

/-- A number without a sign is written as one word, which is read as the number or, if that is
infinite, as a name. -/
theorem ofWord_plain {x : Binary64} (hx : x.IsUnsigned) (p : Int) :
    x.plain.toList ≠ [] ∧ (∀ c ∈ x.plain.toList, isWordChar c = true) ∧
      Derives .operand [ofWord x.plain.toList p] (Expr.number x).namingInfinity := by
  cases x with
  | nan => exact hx.elim
  | infinity negative =>
    cases (hx : negative = false)
    obtain ⟨hne, hword⟩ := isWordChar_of_mem_name isName_infinity
    refine ⟨hne, hword, ?_⟩
    have htoken : ofWord (Binary64.infinity false).plain.toList p = _ :=
      ofWord_name isName_infinity p
    rw [htoken]
    exact .name isName_infinity
  | finite negative n h =>
    cases (hx : negative = false)
    obtain ⟨d, hd, hround⟩ := Binary64.ofLiteral?_plain h
    have htoken : ofWord (Binary64.finite false n h).plain.toList p =
        ⟨.number, .number (.finite false n h), p⟩ := by
      simp only [ofWord, hd, hround]
    have htext : (Binary64.finite false n h).plain.toList = (Decimal.shortest n).plain := by
      rw [Binary64.plain, Binary64.signText, String.toList_ofList]
      rfl
    refine ⟨?_, fun c hc => ?_, ?_⟩
    · exact htext ▸ Decimal.plain_ne_nil _
    · rcases Decimal.mem_plain (htext ▸ hc) with hc | rfl
      · exact isWordChar_of_isDigit hc
      · decide
    · rw [htoken]
      exact .number

end Token

/-- A finite number is not written as the infinite one. -/
theorem Binary64.plain_finite_ne_infinity {n : Nat} (h : Representable n) :
    (finite false n h).plain ≠ (infinity false).plain := by
  intro heq
  obtain ⟨d, hd, -⟩ := ofLiteral?_plain h
  rw [heq] at hd
  exact Option.some_ne_none d (hd.symm.trans (Decimal.ofLiteral?_name Token.isName_infinity))

/-- Numbers without a sign that are written alike are equal. -/
theorem Binary64.plain_inj {x y : Binary64} (hx : x.IsUnsigned) (hy : y.IsUnsigned)
    (heq : x.plain = y.plain) : x = y := by
  cases x with
  | nan => exact hx.elim
  | infinity a =>
    cases (hx : a = false)
    cases y with
    | nan => exact hy.elim
    | infinity b => rw [show b = false from hy]
    | finite b n h =>
      cases (hy : b = false)
      exact absurd heq.symm (plain_finite_ne_infinity h)
  | finite a n h =>
    cases (hx : a = false)
    cases y with
    | nan => exact hy.elim
    | infinity b =>
      cases (hy : b = false)
      exact absurd heq (plain_finite_ne_infinity h)
    | finite b k hk =>
      cases (hy : b = false)
      obtain ⟨d, hd, hround⟩ := ofLiteral?_plain h
      obtain ⟨d', hd', hround'⟩ := ofLiteral?_plain hk
      rw [heq] at hd
      obtain rfl := Option.some.inj (hd.symm.trans hd')
      exact hround.symm.trans hround'

namespace Expr

/-- The text of a tree is scanned as an operand of the grammar, if no word goes on after it. -/
theorem scanFrom_text {e : Expr} (hx : ∀ x ∈ e.numbers, x.IsUnsigned)
    (hs : ∀ s ∈ e.identifiers, IsName s) (p : Nat) (rest : List Char)
    (hrest : Token.Boundary rest) :
    ∃ ts q, Token.scanFrom [] p (e.text.toList ++ rest) = ts ++ Token.scanFrom [] q rest ∧
      Derives .operand ts e.namingInfinity := by
  induction e generalizing p rest with
  | number x =>
    obtain ⟨hne, hword, hd⟩ := Token.ofWord_plain (hx x (List.mem_singleton_self x)) p
    exact ⟨[_], _, Token.scanFrom_word hne hword hrest p, hd⟩
  | identifier name =>
    have hname := hs name (List.mem_singleton_self name)
    obtain ⟨hne, hword⟩ := Token.isWordChar_of_mem_name hname
    refine ⟨[_], _, Token.scanFrom_word hne hword hrest p, ?_⟩
    rw [Token.ofWord_name hname]
    exact .name hname
  | binary op left right ihl ihr =>
    simp only [numbers, identifiers, List.mem_append, or_imp, forall_and] at hx hs
    obtain ⟨tier, hop⟩ := op.spells_symbol
    obtain ⟨rest', hrest'⟩ : ∃ cs, cs = right.text.toList ++ ')' :: rest := ⟨_, rfl⟩
    obtain ⟨ls, q, hl, hdl⟩ :=
      ihl hx.1 hs.1 (p + 1) _ (Token.boundary_space (op.symbol.toList ++ ' ' :: rest'))
    obtain ⟨r, hr⟩ := Token.scanFrom_operator op (q + 1) rest'
    obtain ⟨rs, u, hu, hdr⟩ := ihr hx.2 hs.2 r _ (Token.boundary_closeParen rest)
    have htext : (binary op left right).text.toList ++ rest =
        '(' :: (left.text.toList ++ ' ' :: (op.symbol.toList ++ ' ' :: rest')) := by
      simp [text, hrest']
    refine ⟨⟨.openParen, .text "(", p⟩ :: (ls ++ Token.ofOperator op.symbol (q + 1 : Nat) :: rs ++
      [⟨.closeParen, .text ")", u⟩]), u + 1, ?_, ?_⟩
    · rw [htext, Token.scanFrom_openParen, hl, Token.scanFrom_space, hr, hrest', hu,
        Token.scanFrom_closeParen]
      simp
    · exact .parens rfl rfl (hdl.joined.single.snoc hop hdr.joined).sum_of_chain
  | signed sign operand ih =>
    obtain ⟨ts, q, hq, hd⟩ := ih hx hs (p + 1 + 1) _ (Token.boundary_closeParen rest)
    have htext : (signed sign operand).text.toList ++ rest =
        '(' :: (sign.symbol.toList ++ (operand.text.toList ++ ')' :: rest)) := by
      simp [text]
    refine ⟨⟨.openParen, .text "(", p⟩ :: (Token.ofOperator sign.symbol (p + 1 : Nat) :: ts ++
      [⟨.closeParen, .text ")", q⟩]), q + 1, ?_, ?_⟩
    · rw [htext, Token.scanFrom_openParen, Token.scanFrom_sign, hq, Token.scanFrom_closeParen]
      simp
    · have hsigned : Derives .signed (Token.ofOperator sign.symbol (p + 1 : Nat) :: ts) _ :=
        .sign (.unsigned hd)
      have hpower : Derives (.chain .power) _ _ := .single hsigned
      exact .parens rfl rfl hpower.sum_of_chain

/-- The text of a tree parses, to the tree with its infinite numbers named. -/
theorem parse_text_of_isUnsigned {e : Expr} (hx : ∀ x ∈ e.numbers, x.IsUnsigned)
    (hs : ∀ s ∈ e.identifiers, IsName s) : parse e.text = .ok e.namingInfinity := by
  obtain ⟨ts, q, hts, hd⟩ := scanFrom_text hx hs 0 [] nofun
  have hscan : Token.scan e.text = ts := by
    rw [Token.scan, ← List.append_nil e.text.toList, hts]
    exact List.append_nil ts
  rw [parse, hscan]
  exact ofTokens_of_derives hd.sum_of_operand

/-- What a formula parses to has names and numbers without a sign. -/
theorem isUnsigned_of_parse {f : String} {e : Expr} (h : parse f = .ok e) :
    (∀ x ∈ e.numbers, x.IsUnsigned) ∧ ∀ s ∈ e.identifiers, IsName s := by
  have hd := derives_of_ofTokens h
  refine ⟨fun x hx => ?_, hd.isName_of_mem nofun⟩
  rw [hd.numbers_eq] at hx
  obtain ⟨t, ht, hnum⟩ := List.mem_filterMap.mp hx
  obtain ⟨v, hv, rfl⟩ := Option.map_eq_some_iff.mp hnum
  obtain ⟨hk, rfl⟩ := Token.value?_eq_some_iff.mp hv
  obtain ⟨x, hx, hunsigned⟩ := Token.isUnsigned_of_mem_scan ht hk
  rwa [hx]

/-- Every tree with names and numbers without a sign is parsed from its own text, up to infinite
numbers, which are read as the name `Infinity`; so the text of what a formula parses to gives the
same tree exactly if no number in the formula is too large for the format. -/
theorem parse_text :
    (∀ e : Expr, (∀ x ∈ e.numbers, x.IsUnsigned) → (∀ s ∈ e.identifiers, IsName s) →
      parse e.text = .ok e.namingInfinity) ∧
    ∀ f e, parse f = .ok e → (parse e.text = .ok e ↔
      ∀ t ∈ Token.scan f, t.kind = .number →
        ∀ negative, t.value ≠ .number (.infinity negative)) := by
  refine ⟨fun e hx hs => parse_text_of_isUnsigned hx hs, fun f e h => ?_⟩
  obtain ⟨hx, hs⟩ := isUnsigned_of_parse h
  have hnumbers : e.numbers = (Token.scan f).filterMap Token.number? :=
    (derives_of_ofTokens h).numbers_eq
  rw [parse_text_of_isUnsigned hx hs, Except.ok.injEq, namingInfinity_eq_self_iff, hnumbers]
  constructor
  · rintro hall t ht hk negative hv
    have hnum : t.number? = some (.infinity negative) := Token.number?_eq_infinity_iff.mpr ⟨hk, hv⟩
    exact hall _ (List.mem_filterMap.mpr ⟨t, ht, hnum⟩) negative rfl
  · rintro hall _ hmem negative rfl
    obtain ⟨t, ht, hnum⟩ := List.mem_filterMap.mp hmem
    obtain ⟨hk, hv⟩ := Token.number?_eq_infinity_iff.mp hnum
    exact hall t ht hk negative hv

/-- A literal that is too large comes back as a name. -/
theorem parse_text_of_overflow :
    let e : Expr := .binary .power (.number (.infinity false)) (.identifier "Rate")
    parse e.text = .ok (.binary .power (.identifier "Infinity") (.identifier "Rate")) ∧
      parse "1e400 ** Rate" = .ok e ∧ parse e.text ≠ .ok e := by
  intro e
  have hs : ∀ s ∈ e.identifiers, IsName s := by
    intro s hs
    rw [List.mem_singleton.mp hs]
    exact isName_iff.mp (by decide)
  have hp : parse "1e400 ** Rate" = .ok e := by decide
  refine ⟨parse_text.1 e (fun x hx => ?_) hs, hp, fun hback => ?_⟩
  · rw [List.mem_singleton.mp hx]
    rfl
  · have hall := (parse_text.2 _ e hp).mp hback
    exact hall ⟨.number, .number (.infinity false), 0⟩ (by decide) rfl false rfl

end Expr

end FormulaBook
