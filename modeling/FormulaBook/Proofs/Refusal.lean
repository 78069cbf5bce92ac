import FormulaBook.Proofs.Parsing
import FormulaBook.Proofs.Scanning

/-!
# Where a formula is refused

A sequence of tokens is viable if it can be continued to a formula. A sequence that is no formula
is refused at the first token that makes it one that is not viable, or at its end if there is no
such token, and the error says what would have been possible there (`Expr.refused_at_first_fault`):
the formula was complete, a parenthesis could have been closed, or neither. Two facts carry this.
Every state of the parser can be brought to a formula (`Parser.State.exists_run_ok`), so what has
been read is viable; and a token that a state refuses is refused whatever follows it
(`Parser.not_viable_of_step`).
-/

namespace FormulaBook

namespace Expr

variable (ν : Type) [Token.Numeral ν]

/-- The tokens are a formula with numbers of type `ν`. -/
def Parses (ts : List Token) : Prop := ∃ e, ofTokens (ν := ν) ts = .ok e

/-- The tokens are the beginning of a formula with numbers of type `ν`. -/
def Viable (ts : List Token) : Prop := ∃ us, Parses ν (ts ++ us)

end Expr

open FormulaBook.Expr (Parses Viable)

namespace Parser

variable {ν : Type}

namespace State

/-! ## Single steps -/

variable [Token.Numeral ν]

/-- An identifier where an operand is due that carries no text. -/
theorem of_nameless {t : Token} (h : (Opening.of t : Opening ν) = .nameless) :
    t.kind = .identifier ∧ ∃ x, t.value = .number x := by
  unfold Opening.of at h
  split at h
  · cases h
  · split at h <;> try cases h
    · split at h <;> cases h
    · rename_i x hk hv
      exact ⟨hk, x, hv⟩

/-- A token that closes a parenthesis is no operand and opens none. -/
theorem of_closeParen {t : Token} (h : t.kind = .closeParen) :
    (Opening.of t : Opening ν) = .other := by
  have hop : t.operator? = none := Token.text?_of_ne (by simp [h])
  simp [Opening.of, hop, h]

/-- A step that is taken is taken whatever follows. -/
theorem step_ok {s s' : State ν} {t : Token} {rest : List Token} {p : Nat}
    (h : s.step t rest p = .ok s') (rest' : List Token) (p' : Nat) :
    s.step t rest' p' = .ok s' := by
  cases s with
  | awaiting l outer =>
    simp only [step] at h ⊢
    cases hopen : (Opening.of t : Opening ν) <;> rw [hopen] at h <;> first | exact h | cases h
  | completed e l outer =>
    simp only [step] at h ⊢
    cases hop : t.operator?.bind BinaryOp.ofSymbol? with
    | some op =>
      rw [hop] at h
      exact h
    | none =>
      rw [hop] at h
      cases outer with
      | nil => cases h
      | cons around outer =>
        by_cases hclose : t.kind = .closeParen
        · simpa [hclose] using h
        · simp [hclose] at h

/-- After a completed operand a token that closes a parenthesis leads on exactly if one is open. -/
theorem step_completed_closeParen {t : Token} (ht : t.kind = .closeParen) (e : Expr ν) (l : Level ν)
    (outer : List (Level ν)) (rest : List Token) (p : Nat) :
    (completed e l outer).step t rest p =
      match outer with
      | [] => .error (.trailing rest p)
      | around :: outer => .ok (operand (l.endSum e) around outer) := by
  have hop : t.operator? = none := Token.text?_of_ne (by simp [ht])
  cases outer <;> simp [step, hop, ht]

/-! ## What a state refuses -/

/-- The state does not go on with the tokens from index `p` on, or does not end there. -/
def Refuses (s : State ν) (rest : List Token) (p : Nat) (err : ParseError) : Prop :=
  match rest with
  | [] => s.finish p = .error err
  | t :: _ => s.step t rest p = .error err

/-- The error of a state that does not go on with the tokens from index `p` on. -/
def errorBefore (rest : List Token) (p : Nat) : State ν → ParseError
  | .awaiting _ _ => .unexpected rest.head? p
  | .completed _ _ [] => .trailing rest p
  | .completed _ _ (_ :: _) => .missingCloseParen p

/-- What the error says of the state. -/
theorem Refuses.error_eq {s : State ν} {rest : List Token} {p : Nat} {err : ParseError}
    (h : s.Refuses rest p err)
    (hnames : ∀ t ∈ rest, t.kind = .identifier → ∃ u, t.value = .text u) :
    err = s.errorBefore rest p := by
  cases s with
  | awaiting l outer =>
    cases rest with
    | nil => exact (Except.error.inj h).symm
    | cons t rest =>
      simp only [Refuses, step] at h
      cases hopen : (Opening.of t : Opening ν) with
      | sign s | openParen | operand e =>
        rw [hopen] at h
        cases h
      | nameless =>
        obtain ⟨hk, x, hx⟩ := of_nameless hopen
        obtain ⟨u, hu⟩ := hnames t List.mem_cons_self hk
        rw [hx] at hu
        cases hu
      | other =>
        rw [hopen] at h
        exact (Except.error.inj h).symm
  | completed e l outer =>
    cases rest with
    | nil =>
      cases outer with
      | nil => cases h
      | cons around outer => exact (Except.error.inj h).symm
    | cons t rest =>
      simp only [Refuses, step] at h
      cases hop : t.operator?.bind BinaryOp.ofSymbol? with
      | some op =>
        rw [hop] at h
        cases h
      | none =>
        rw [hop] at h
        cases outer with
        | nil => exact (Except.error.inj h).symm
        | cons around outer =>
          by_cases hclose : t.kind = .closeParen
          · simp [hclose] at h
          · simpa [hclose, errorBefore] using h.symm

/-! ## Every state leads to a formula -/

/-- With an operand completed, the open parentheses can be closed. -/
theorem exists_run_completed (e : Expr ν) (l : Level ν) (outer : List (Level ν)) :
    ∃ us, ∀ p, ∃ e', run (completed e l outer) p us = .ok e' := by
  induction outer generalizing e l with
  | nil => exact ⟨[], fun p => ⟨_, rfl⟩⟩
  | cons around outer ih =>
    obtain ⟨us, hus⟩ := ih (around.complete (l.endSum e)) around.settled
    refine ⟨⟨.closeParen, .text ")", 0⟩ :: us, fun p => ?_⟩
    obtain ⟨e', he'⟩ := hus (p + 1)
    refine ⟨e', ?_⟩
    rw [run, step_completed_closeParen rfl]
    exact he'

/-- Every state can be brought to a formula: an operand that is due may be a number. -/
theorem exists_run_ok (s : State ν) : ∃ us, ∀ p, ∃ e, run s p us = .ok e := by
  cases s with
  | awaiting l outer =>
    let zero : Expr ν := .number (Token.Numeral.ofValue (.text "0"))
    obtain ⟨us, hus⟩ := exists_run_completed (l.complete zero) l.settled outer
    exact ⟨⟨.number, .text "0", 0⟩ :: us, fun p => hus (p + 1)⟩
  | completed e l outer => exact exists_run_completed e l outer

end State

/-! ## Runs -/

variable [Token.Numeral ν]

/-- A run that fails has read some of the tokens and is refused in the state it has reached. -/
theorem exists_refuses_of_run {s : State ν} {p : Nat} {ts : List Token} {err : ParseError}
    (h : run s p ts = .error err) :
    ∃ us vs s', ts = us ++ vs ∧ Advances s us s' ∧ s'.Refuses vs (p + us.length) err := by
  induction ts generalizing s p with
  | nil => exact ⟨[], [], s, rfl, .nil s, h⟩
  | cons t ts ih =>
    rw [run] at h
    cases hs : s.step t (t :: ts) p with
    | error err' =>
      rw [hs] at h
      cases h
      exact ⟨[], t :: ts, s, rfl, .nil s, hs⟩
    | ok s' =>
      rw [hs] at h
      obtain ⟨us, vs, s'', rfl, hadv, hrefuses⟩ := ih h
      refine ⟨t :: us, vs, s'', rfl, .cons (State.step_ok hs) hadv, ?_⟩
      rwa [List.length_cons, Nat.add_comm us.length, ← Nat.add_assoc]

variable {ts : List Token} {s : State ν} {t : Token}

/-- From the start, reading the tokens and what follows is going on in the state reached. -/
theorem Advances.ofTokens_append (h : Advances .start ts s) (us : List Token) :
    Expr.ofTokens (ts ++ us) = run s ts.length us := by
  rw [Expr.ofTokens, h, Nat.zero_add]

/-- What has been read is viable. -/
theorem Advances.viable (h : Advances .start ts s) : Viable ν ts := by
  obtain ⟨us, hus⟩ := s.exists_run_ok
  obtain ⟨e, he⟩ := hus ts.length
  exact ⟨us, e, by rw [h.ofTokens_append, he]⟩

/-- What has been read is a formula exactly if an operand is completed and no parenthesis is
open. -/
theorem Advances.parses_iff (h : Advances .start ts s) :
    Parses ν ts ↔ ∃ e l, s = .completed e l [] := by
  have hrun := h.ofTokens_append []
  rw [List.append_nil, run] at hrun
  rw [Parses, hrun]
  cases s with
  | awaiting l outer => simp [State.finish]
  | completed e l outer =>
    cases outer with
    | nil => simp [State.finish]
    | cons around outer => simp [State.finish]

/-- A token that is refused after what has been read leaves nothing that can be continued. -/
theorem not_viable_of_step (h : Advances .start ts s)
    (hs : ∀ rest p s', s.step t rest p ≠ .ok s') : ¬ Viable ν (ts ++ [t]) := by
  rintro ⟨us, e, he⟩
  rw [List.append_assoc, List.singleton_append, h.ofTokens_append, run] at he
  cases hstep : s.step t (t :: us) ts.length with
  | ok s' => exact hs _ _ s' hstep
  | error err =>
    rw [hstep] at he
    cases he

/-- A parenthesis can be closed after what has been read exactly if an operand is completed and a
parenthesis is open. -/
theorem Advances.viable_closeParen_iff (h : Advances .start ts s) (ht : t.kind = .closeParen) :
    Viable ν (ts ++ [t]) ↔ ∃ e l around outer, s = .completed e l (around :: outer) := by
  constructor
  · intro hviable
    by_contra hnone
    refine not_viable_of_step h (fun rest p s' hstep => ?_) hviable
    match s, hstep with
    | .awaiting l outer, hstep => simp [State.step, State.of_closeParen ht] at hstep
    | .completed e l [], hstep =>
      rw [State.step_completed_closeParen ht] at hstep
      cases hstep
    | .completed e l (around :: outer), _ => exact hnone ⟨e, l, around, outer, rfl⟩
  · rintro ⟨e, l, around, outer, rfl⟩
    exact (h.append (.single fun rest p => State.step_completed_closeParen ht ..)).viable

end Parser

/-! ## The place and the kind of an error -/

namespace Expr

/-- The formula of a sequence is refused where the parser has read a viable beginning and does not
go on, whatever the rest is. -/
theorem exists_fault {ν : Type} [Token.Numeral ν] {ts : List Token}
    (hnames : ∀ t ∈ ts, t.kind = .identifier → ∃ u, t.value = .text u) (hfail : ¬ Parses ν ts) :
    ∃ us vs, ∃ s : Parser.State ν, ts = us ++ vs ∧ Parser.Advances .start us s ∧
      (∀ t ∈ vs.head?, ¬ Viable ν (us ++ [t])) ∧
      ofTokens (ν := ν) ts = .error (s.errorBefore vs us.length) := by
  cases hrun : ofTokens (ν := ν) ts with
  | ok e => exact absurd ⟨e, hrun⟩ hfail
  | error err =>
    obtain ⟨us, vs, s, rfl, hadv, hrefuses⟩ := Parser.exists_refuses_of_run hrun
    rw [Nat.zero_add] at hrefuses
    have herr := hrefuses.error_eq fun t ht => hnames t (List.mem_append_right us ht)
    refine ⟨us, vs, s, rfl, hadv, fun t ht => ?_, congrArg Except.error herr⟩
    obtain ⟨rest, rfl⟩ := List.head?_eq_some_iff.mp ht
    refine Parser.not_viable_of_step hadv fun rest' p s' hstep => ?_
    have hok := Parser.State.step_ok hstep (t :: rest) us.length
    cases (show _ = _ from hrefuses).symm.trans hok

/-- A sequence that is no formula is refused at the first place after which it is not viable, or at
its end. If the tokens before that place are a formula, the rest of the tokens is the error; if they
could be followed by a closing parenthesis, that is missing; in all other cases the token at that
place, or the end, is unexpected. No text is refused in any other way. -/
theorem refused_at_first_fault (ν : Type) [Token.Numeral ν] :
    (∀ ts : List Token, (∀ t ∈ ts, t.kind = .identifier → ∃ u, t.value = .text u) → ¬ Parses ν ts →
      ∃ p ≤ ts.length, Viable ν (ts.take p) ∧ (p < ts.length → ¬ Viable ν (ts.take (p + 1))) ∧
        ∀ r : Token, r.kind = .closeParen →
          (ofTokens (ν := ν) ts = .error (.trailing (ts.drop p) p) ↔ Parses ν (ts.take p)) ∧
          (ofTokens (ν := ν) ts = .error (.missingCloseParen p) ↔ Viable ν (ts.take p ++ [r])) ∧
          (ofTokens (ν := ν) ts = .error (.unexpected ts[p]? p) ↔
            ¬ Parses ν (ts.take p) ∧ ¬ Viable ν (ts.take p ++ [r]))) ∧
    ∀ s : String, (∃ e, parse s = .ok e) ∨ (∃ found p, parse s = .error (.unexpected found p)) ∨
      (∃ p, parse s = .error (.missingCloseParen p)) ∨
      ∃ rest p, parse s = .error (.trailing rest p) := by
  constructor
  · intro ts hnames hfail
    obtain ⟨us, vs, s, rfl, hadv, hnot, herr⟩ := exists_fault hnames hfail
    refine ⟨us.length, by simp, ?_, fun hlt => ?_, fun r hr => ?_⟩
    · rw [List.take_left]
      exact hadv.viable
    · cases vs with
      | nil => simp at hlt
      | cons t rest =>
        rw [List.take_length_add_append]
        exact hnot t rfl
    · have hget : (us ++ vs)[us.length]? = vs.head? := by
        rw [List.getElem?_append_right (Nat.le_refl _), Nat.sub_self, List.head?_eq_getElem?]
      rw [List.take_left, List.drop_left, hget, herr, hadv.parses_iff,
        hadv.viable_closeParen_iff hr]
      match s with
      | .awaiting l outer => simp [Parser.State.errorBefore]
      | .completed e l [] => simp [Parser.State.errorBefore]
      | .completed e l (_ :: _) => simp [Parser.State.errorBefore]
  · intro s
    cases hparse : parse s with
    | ok e => exact .inl ⟨e, rfl⟩
    | error err =>
      have hfail : ¬ Parses Binary64 (Token.scan s) := fun ⟨e, he⟩ => by
        rw [← parse, hparse] at he
        cases he
      obtain ⟨us, vs, state, -, -, -, herr⟩ :=
        exists_fault (fun t ht => Token.text_of_mem_scan ht) hfail
      have heq : err = _ := Except.error.inj (hparse.symm.trans herr)
      match state with
      | .awaiting l outer => exact .inr (.inl ⟨_, _, congrArg _ heq⟩)
      | .completed e l [] => exact .inr (.inr (.inr ⟨_, _, congrArg _ heq⟩))
      | .completed e l (_ :: _) => exact .inr (.inr (.inl ⟨_, congrArg _ heq⟩))

/-- What a number token carries may be a text: it is an operand, and what is left behind it is the
fault. -/
example : ofTokens (ν := Token.Value) [⟨.number, .text "5", 0⟩, ⟨.identifier, .text "x", 2⟩] =
    .error (.trailing [⟨.identifier, .text "x", 2⟩] 1) := by decide

/-- In `(a + b c` the first fault is the second name behind the operand `b`. -/
theorem refused_before_second_name :
    let ts := Token.scan "(a + b c"
    ¬ Parses Binary64 ts ∧ ofTokens (ν := Binary64) ts = .error (.missingCloseParen 4) ∧
      Viable Binary64 (ts.take 4) ∧ ¬ Viable Binary64 (ts.take 5) := by
  intro ts
  have herr : ofTokens (ν := Binary64) ts = .error (.missingCloseParen 4) := by decide
  have hfail : ¬ Parses Binary64 ts := by
    rintro ⟨e, he⟩
    rw [herr] at he
    cases he
  obtain ⟨p, -, hviable, hnot, hkinds⟩ :=
    (refused_at_first_fault Binary64).1 ts (fun t ht => Token.text_of_mem_scan ht) hfail
  obtain ⟨htrailing, hmissing, hunexpected⟩ := hkinds ⟨.closeParen, .text ")", 8⟩ rfl
  rw [herr] at htrailing hmissing hunexpected
  -- only the error for a missing parenthesis is the one at hand, and it says where it is
  obtain rfl : p = 4 := by
    by_cases hclose : Viable Binary64 (ts.take p ++ [⟨.closeParen, .text ")", 8⟩])
    · cases hmissing.mpr hclose
      rfl
    · by_cases hparses : Parses Binary64 (ts.take p)
      · cases htrailing.mpr hparses
      · cases hunexpected.mpr ⟨hparses, hclose⟩
  exact ⟨hfail, herr, hviable, hnot (by decide)⟩

end Expr

end FormulaBook
