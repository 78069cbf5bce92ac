import FormulaBook.Number.Literal
import FormulaBook.Number.Notation
import FormulaBook.Proofs.Rounding

/-!
# Numbers written out read back

`Decimal.plain` writes a decimal without an exponent, and a number literal of a formula reads it as
a decimal of the same value (`Decimal.ofLiteral?_plain`). With the shortest decimal of a number this
gives the number itself (`Binary64.ofLiteral?_plain`). Only digits and one point are written
(`Decimal.mem_plain`).
-/

namespace FormulaBook

namespace Text

/-- An ASCII digit has its distance from zero as its value. -/
theorem digit?_of_isDigit {c : Char} (h : c.isDigit = true) : digit? c = some (c.toNat - 48) := by
  rw [Char.isDigit_iff_toNat, show '0'.toNat = 48 from rfl, show '9'.toNat = 57 from rfl] at h
  simp only [digit?, zeros, List.findSome?_cons]
  rw [if_pos (by omega)]

/-- A point is no digit. -/
theorem digit?_point : digit? '.' = none := by decide

/-- Digits are read up to the first character that is none. -/
theorem spanDigits_append (cs rest : List Char) (hcs : ∀ c ∈ cs, c.isDigit = true)
    (hrest : ∀ c ∈ rest.head?, digit? c = none) :
    spanDigits (cs ++ rest) = (cs.map (·.toNat - 48), rest) := by
  induction cs with
  | nil =>
    cases rest with
    | nil => rfl
    | cons c rest => simp [spanDigits, hrest c rfl]
  | cons c cs ih =>
    have hc := digit?_of_isDigit (hcs c List.mem_cons_self)
    simp [spanDigits, hc, ih fun d hd => hcs d (List.mem_cons_of_mem c hd)]

/-- The number of some digits is the one that their characters write. -/
theorem ofDigits_map (n : Nat) (cs : List Char) :
    ofDigits n (cs.map (·.toNat - 48)) = Nat.ofDigitChars 10 cs n := by
  rw [ofDigits, List.foldl_map, Nat.ofDigitChars_eq_foldl]
  rfl

/-- More digits go on with the number of the first ones. -/
theorem ofDigits_append (n : Nat) (ds es : List Nat) :
    ofDigits n (ds ++ es) = ofDigits (ofDigits n ds) es := List.foldl_append ..

end Text

namespace Decimal

open Text

/-- A number is written in ASCII digits. -/
theorem isDigit_of_mem_toDigits {n : Nat} : ∀ c ∈ Nat.toDigits 10 n, c.isDigit = true :=
  fun _ hc => Nat.isDigit_of_mem_toDigits (by decide) (by decide) hc

/-- What `pointed` writes: digits around a point, and as a whole the digits of the number. -/
theorem pointed_cases (n places : Nat) :
    (places = 0 ∧ pointed n places = Nat.toDigits 10 n) ∨
      ∃ whole fraction, pointed n places = whole ++ '.' :: fraction ∧ whole ≠ [] ∧
        fraction.length = places ∧ (∀ c ∈ whole, c.isDigit = true) ∧
        (∀ c ∈ fraction, c.isDigit = true) ∧
        Nat.ofDigitChars 10 (whole ++ fraction) 0 = n := by
  unfold pointed
  dsimp only
  split
  · exact .inl ⟨‹_›, rfl⟩
  · right
    generalize hp : List.replicate (places + 1 - (Nat.toDigits 10 n).length) '0' ++
      Nat.toDigits 10 n = padded
    have hlen : places + 1 ≤ padded.length := by
      rw [← hp, List.length_append, List.length_replicate]
      omega
    have hdigit : ∀ c ∈ padded, c.isDigit = true := by
      intro c hc
      rw [← hp] at hc
      rcases List.mem_append.mp hc with hc | hc
      · rw [List.eq_of_mem_replicate hc]
        rfl
      · exact isDigit_of_mem_toDigits c hc
    refine ⟨_, _, rfl, ?_, ?_, fun c hc => hdigit c (List.mem_of_mem_take hc),
      fun c hc => hdigit c (List.mem_of_mem_drop hc), ?_⟩
    · rw [← List.length_pos_iff, List.length_take]
      omega
    · rw [List.length_drop]
      omega
    · rw [List.take_append_drop, ← hp, Nat.ofDigitChars_append, Nat.ofDigitChars_replicate_zero,
        Nat.mul_zero, Nat.ofDigitChars_ten_toDigits]

/-- Digits with a point are read as the decimal they write. -/
theorem ofLiteral?_pointed (n places : Nat) :
    ofLiteral? (pointed n places) = some ⟨n, -(places : Int)⟩ := by
  unfold ofLiteral? read?
  rcases pointed_cases n places with ⟨rfl, hp⟩ | ⟨whole, fraction, hp, hne, rfl, hw, hf, hn⟩
  · have hspan := spanDigits_append (Nat.toDigits 10 n) [] isDigit_of_mem_toDigits (by simp)
    rw [List.append_nil] at hspan
    have hval : ofDigits 0 ((Nat.toDigits 10 n).map (·.toNat - 48)) = n := by
      rw [ofDigits_map, Nat.ofDigitChars_ten_toDigits]
    simp [hp, readMantissa?, hspan, hval]
  · have hspan := spanDigits_append whole ('.' :: fraction) hw (by simp [digit?_point])
    have hspan' := spanDigits_append fraction [] hf (by simp)
    rw [List.append_nil] at hspan'
    have hval : ofDigits (ofDigits 0 (whole.map (·.toNat - 48))) (fraction.map (·.toNat - 48)) =
        n := by
      rw [← ofDigits_append, ← List.map_append, ofDigits_map, hn]
    simp [hp, readMantissa?, hspan, hspan', hval, hne]

/-- A decimal written out is read as one that rounds alike. -/
theorem ofLiteral?_plain (d : Decimal) :
    ∃ d', ofLiteral? d.plain = some d' ∧
      ∀ negative, Binary64.ofDecimal negative d' = Binary64.ofDecimal negative d := by
  refine ⟨_, ofLiteral?_pointed _ _, fun negative => ?_⟩
  rw [Binary64.ofDecimal_expand]
  congr 2
  omega

/-- Only digits and a point are written. -/
theorem mem_pointed {n places : Nat} {c : Char} (h : c ∈ pointed n places) :
    c.isDigit = true ∨ c = '.' := by
  rcases pointed_cases n places with ⟨-, hp⟩ | ⟨whole, fraction, hp, -, -, hw, hf, -⟩
  · rw [hp] at h
    exact .inl (isDigit_of_mem_toDigits c h)
  · rw [hp] at h
    rcases List.mem_append.mp h with h | h
    · exact .inl (hw c h)
    · rcases List.mem_cons.mp h with rfl | h
      · exact .inr rfl
      · exact .inl (hf c h)

/-- A decimal is written out in digits and points. -/
theorem mem_plain {d : Decimal} {c : Char} (h : c ∈ d.plain) : c.isDigit = true ∨ c = '.' :=
  mem_pointed h

/-- The plain text of a decimal is not empty. -/
theorem plain_ne_nil (d : Decimal) : d.plain ≠ [] := by
  unfold plain
  rcases pointed_cases (d.digits * tenPow d.exponent.toNat) (-d.exponent).toNat with
    ⟨-, hp⟩ | ⟨whole, fraction, hp, hne, -⟩
  · rw [hp]
    exact Nat.toDigits_ne_nil
  · rw [hp]
    simp

end Decimal

namespace Binary64

/-- A finite number without a sign, written out, is read as itself. -/
theorem ofLiteral?_plain {n : Nat} (h : Representable n) :
    ∃ d, Decimal.ofLiteral? (finite false n h).plain.toList = some d ∧
      ofDecimal false d = .finite false n h := by
  obtain ⟨d, hd, hround⟩ := Decimal.ofLiteral?_plain (Decimal.shortest n)
  obtain ⟨h', hread⟩ := Decimal.roundsTo_shortest h
  refine ⟨d, ?_, (hround false).trans hread⟩
  rw [plain, signText, String.toList_ofList]
  exact hd

end Binary64

end FormulaBook
