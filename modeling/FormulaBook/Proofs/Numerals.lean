import FormulaBook.Proofs.RoundTrip
import Mathlib.Data.List.TakeWhile

/-!
# The form of number literals

A number literal of a formula is a run of decimal digits of any script with at most one point in it
and at least one digit, and perhaps the letter e, in either case, with digits behind it
(`Decimal.IsNumeral`). The reader of literals accepts exactly these texts
(`Decimal.ofLiteral?_isSome_iff`), and the number it gives one of them is the one that the text
denotes where numbers may also have signs, blanks around them and names
(`Binary64.ofText?_of_ofLiteral?`).
-/

namespace FormulaBook

namespace Text

/-- Whether a character is a decimal digit of any script. -/
def isDecimal (c : Char) : Bool := (digit? c).isSome

/-- A decimal digit is one of the ten characters from some zero on. -/
theorem isDecimal_iff {c : Char} :
    isDecimal c = true ↔ ∃ z ∈ zeros, z ≤ c.toNat ∧ c.toNat < z + 10 := by
  simp [isDecimal, digit?, List.findSome?_isSome_iff]

/-- A digit is neither blank nor a letter nor an underscore. -/
theorem isBlank_of_isDecimal {c : Char} (h : isDecimal c = true) : isBlank c = false := by
  have hcodes : ∀ z ∈ zeros, ∀ i < 10, isBlankCode (z + i) = false := by decide +kernel
  obtain ⟨z, hz, hle, hlt⟩ := isDecimal_iff.mp h
  have hcode := hcodes z hz (c.toNat - z) (by omega)
  rwa [Nat.add_sub_cancel' hle] at hcode

/-- The digits at the front are read, and the rest is left. -/
theorem spanDigits_eq (cs : List Char) :
    spanDigits cs = ((cs.takeWhile isDecimal).filterMap digit?, cs.dropWhile isDecimal) := by
  induction cs with
  | nil => rfl
  | cons c cs ih =>
    cases hc : digit? c <;> simp [spanDigits, isDecimal, hc, ih]

/-- What a test holds of is taken up to the first character it does not hold of. -/
theorem takeWhile_append_stop {p : Char → Bool} {cs rest : List Char} (hcs : ∀ c ∈ cs, p c = true)
    (hrest : ∀ c ∈ rest.head?, p c = false) :
    (cs ++ rest).takeWhile p = cs ∧ (cs ++ rest).dropWhile p = rest := by
  rw [List.takeWhile_append_of_pos hcs, List.dropWhile_append_of_pos hcs]
  cases rest with
  | nil => simp
  | cons c rest => simp [hrest c rfl]

/-- Digits of any script are read up to the first character that is none. -/
theorem spanDigits_append_stop {cs rest : List Char} (hcs : ∀ c ∈ cs, isDecimal c = true)
    (hrest : ∀ c ∈ rest.head?, isDecimal c = false) :
    spanDigits (cs ++ rest) = (cs.filterMap digit?, rest) := by
  obtain ⟨htake, hdrop⟩ := takeWhile_append_stop hcs hrest
  rw [spanDigits_eq, htake, hdrop]

/-- What was read of a text as digits are digits in front of what was left. -/
theorem exists_of_spanDigits {cs rest : List Char} {ns : List Nat}
    (h : spanDigits cs = (ns, rest)) :
    ∃ ds, cs = ds ++ rest ∧ (∀ c ∈ ds, isDecimal c = true) ∧ ns = ds.filterMap digit? := by
  rw [spanDigits_eq] at h
  cases h
  exact ⟨_, List.takeWhile_append_dropWhile.symm, fun _ hc => List.mem_takeWhile_imp hc, rfl⟩

/-- Only no digits at all have no values. -/
theorem filterMap_digit?_eq_nil {cs : List Char} (hcs : ∀ c ∈ cs, isDecimal c = true) :
    cs.filterMap digit? = [] ↔ cs = [] := by
  cases cs with
  | nil => simp
  | cons c cs =>
    obtain ⟨d, hd⟩ := Option.isSome_iff_exists.mp (hcs c List.mem_cons_self)
    simp [hd]

end Text

open Text

namespace Decimal

/-! ## The form -/

/-- Digits with at most one point among them, at least one digit. -/
inductive IsMantissa : List Char → Prop
  | whole {ds} : ds ≠ [] → (∀ c ∈ ds, isDecimal c = true) → IsMantissa ds
  | pointed {ds fs} : ds ≠ [] → (∀ c ∈ ds, isDecimal c = true) → (∀ c ∈ fs, isDecimal c = true) →
      IsMantissa (ds ++ '.' :: fs)
  | fraction {fs} : fs ≠ [] → (∀ c ∈ fs, isDecimal c = true) → IsMantissa ('.' :: fs)

/-- Nothing, or the letter e with digits behind it. -/
inductive IsExponent : List Char → Prop
  | none : IsExponent []
  | digits {e ds} : e = 'e' ∨ e = 'E' → ds ≠ [] → (∀ c ∈ ds, isDecimal c = true) →
      IsExponent (e :: ds)

/-- The characters are a number literal. -/
def IsNumeral (cs : List Char) : Prop := ∃ m x, cs = m ++ x ∧ IsMantissa m ∧ IsExponent x

/-- A number literal consists of digits, points and the letter e. -/
theorem IsNumeral.of_mem {cs : List Char} (h : IsNumeral cs) {c : Char} (hc : c ∈ cs) :
    isDecimal c = true ∨ c = '.' ∨ c = 'e' ∨ c = 'E' := by
  obtain ⟨m, x, rfl, hm, hx⟩ := h
  rcases List.mem_append.mp hc with hc | hc
  · cases hm with
    | whole _ hds => exact .inl (hds c hc)
    | pointed _ hds hfs =>
      rcases List.mem_append.mp hc with hc | hc
      · exact .inl (hds c hc)
      · exact (List.mem_cons.mp hc).symm.imp (hfs c) .inl
    | fraction _ hfs => exact (List.mem_cons.mp hc).symm.imp (hfs c) .inl
  · cases hx with
    | none => cases hc
    | digits he _ hds =>
      rcases List.mem_cons.mp hc with rfl | hc
      · exact .inr (.inr he)
      · exact .inl (hds c hc)

/-- A number literal begins with a digit or a point. -/
theorem IsNumeral.exists_cons {cs : List Char} (h : IsNumeral cs) :
    ∃ c rest, cs = c :: rest ∧ (isDecimal c = true ∨ c = '.') := by
  obtain ⟨m, x, rfl, hm, -⟩ := h
  cases hm with
  | whole hne hds =>
    obtain ⟨c, ds, rfl⟩ := List.exists_cons_of_ne_nil hne
    exact ⟨c, ds ++ x, rfl, .inl (hds c List.mem_cons_self)⟩
  | pointed hne hds =>
    obtain ⟨c, ds, rfl⟩ := List.exists_cons_of_ne_nil hne
    exact ⟨c, _, rfl, .inl (hds c List.mem_cons_self)⟩
  | fraction => exact ⟨'.', _, rfl, .inr rfl⟩

/-- An exponent begins with neither a point nor a digit. -/
theorem IsExponent.head? {x : List Char} (h : IsExponent x) {c : Char} (hc : c ∈ x.head?) :
    c ≠ '.' ∧ isDecimal c = false := by
  cases h with
  | none => cases hc
  | digits he =>
    cases hc
    rcases he with rfl | rfl <;> exact ⟨by decide, by decide⟩

/-! ## The reader -/

/-- A mantissa is read up to the exponent behind it. -/
theorem readMantissa?_of_isMantissa {m x : List Char} (hm : IsMantissa m) (hx : IsExponent x) :
    ∃ d, readMantissa? (m ++ x) = some (d, x) := by
  cases hm with
  | whole hne hds =>
    have hspan := spanDigits_append_stop hds fun c hc => (hx.head? hc).2
    have hne' := mt (filterMap_digit?_eq_nil hds).mp hne
    unfold readMantissa?
    rw [hspan]
    dsimp only
    split
    · exact absurd rfl (hx.head? (by simp)).1
    · exact ⟨_, by simp [hne']; rfl⟩
  | @pointed ds fs hne hds hfs =>
    have hspan : spanDigits (ds ++ '.' :: (fs ++ x)) = (ds.filterMap digit?, '.' :: (fs ++ x)) :=
      spanDigits_append_stop hds fun c hc => by cases hc; decide
    have hspan' := spanDigits_append_stop hfs fun c hc => (hx.head? hc).2
    have hne' := mt (filterMap_digit?_eq_nil hds).mp hne
    exact ⟨_, by simp [readMantissa?, hspan, hspan', hne']; rfl⟩
  | @fraction fs hne hfs =>
    have hspan := spanDigits_append_stop hfs fun c hc => (hx.head? hc).2
    have hne' := mt (filterMap_digit?_eq_nil hfs).mp hne
    have hpoint : digit? '.' = none := by decide
    exact ⟨_, by simp [readMantissa?, spanDigits, hpoint, hspan, hne']; rfl⟩

/-- What was read as a mantissa is one, in front of what was left. -/
theorem isMantissa_of_readMantissa? {cs x : List Char} {d : Decimal}
    (h : readMantissa? cs = some (d, x)) : ∃ m, cs = m ++ x ∧ IsMantissa m := by
  unfold readMantissa? at h
  cases hspan : spanDigits cs with
  | mk ns rest =>
    obtain ⟨ds, rfl, hds, rfl⟩ := exists_of_spanDigits hspan
    rw [hspan] at h
    dsimp only at h
    split at h
    · rename_i more
      cases hspan' : spanDigits more with
      | mk ks rest =>
        obtain ⟨fs, rfl, hfs, rfl⟩ := exists_of_spanDigits hspan'
        simp only [hspan', Bool.and_eq_true, List.isEmpty_iff, filterMap_digit?_eq_nil hds,
          filterMap_digit?_eq_nil hfs] at h
        split at h
        · cases h
        · rename_i hne
          cases h
          refine ⟨ds ++ '.' :: fs, by simp, ?_⟩
          by_cases hnil : ds = []
          · subst hnil
            exact .fraction (fun hfs => hne ⟨rfl, hfs⟩) hfs
          · exact .pointed hnil hds hfs
    · simp only [List.isEmpty_iff, filterMap_digit?_eq_nil hds] at h
      split at h
      · cases h
      · cases h
        exact ⟨ds, rfl, .whole ‹_› hds⟩

/-- Digits behind the letter e are read if there are any and nothing follows them. -/
theorem readExponent?_isSome_iff {cs : List Char} :
    (readExponent? cs).isSome = true ↔ cs ≠ [] ∧ ∀ c ∈ cs, isDecimal c = true := by
  rw [readExponent?, Option.isSome_map, readDigits?]
  constructor
  · intro h
    cases hspan : spanDigits cs with
    | mk ns rest =>
      obtain ⟨ds, rfl, hds, rfl⟩ := exists_of_spanDigits hspan
      rw [hspan] at h
      split at h
      · cases h
      · rename_i hne heq
        obtain ⟨rfl, rfl⟩ := Prod.mk.inj heq
        rw [List.append_nil]
        exact ⟨fun hnil => hne ((filterMap_digit?_eq_nil hds).mpr hnil), hds⟩
      · cases h
  · rintro ⟨hne, hcs⟩
    have hspan : spanDigits (cs ++ []) = (cs.filterMap digit?, []) :=
      spanDigits_append_stop hcs nofun
    have hne' := mt (filterMap_digit?_eq_nil hcs).mp hne
    rw [List.append_nil] at hspan
    rw [hspan]
    split
    · rename_i heq
      exact absurd (Prod.mk.inj heq).1 hne'
    · rfl
    · rename_i hnot
      exact absurd rfl (hnot _)

/-- The texts that are read as number literals are those of their form. -/
theorem ofLiteral?_isSome_iff {cs : List Char} : (ofLiteral? cs).isSome = true ↔ IsNumeral cs := by
  unfold ofLiteral? read?
  constructor
  · intro h
    cases hm : readMantissa? cs with
    | none =>
      rw [hm] at h
      cases h
    | some r =>
      obtain ⟨d, x⟩ := r
      obtain ⟨m, rfl, hmantissa⟩ := isMantissa_of_readMantissa? hm
      refine ⟨m, x, rfl, hmantissa, ?_⟩
      rw [hm, Option.bind_eq_bind, Option.bind_some] at h
      dsimp only at h
      split at h
      · exact .none
      · split at h
        · rename_i e ds he
          have hsome : (readExponent? ds).isSome = true := by
            cases hn : readExponent? ds with
            | none => simp [hn] at h
            | some n => rfl
          obtain ⟨hne, hds⟩ := readExponent?_isSome_iff.mp hsome
          exact .digits he hne hds
        · cases h
  · rintro ⟨m, x, rfl, hm, hx⟩
    obtain ⟨d, hd⟩ := readMantissa?_of_isMantissa hm hx
    rw [hd, Option.bind_eq_bind, Option.bind_some]
    dsimp only
    cases hx with
    | none => rfl
    | @digits e ds he hne hds =>
      obtain ⟨n, hn⟩ := Option.isSome_iff_exists.mp (readExponent?_isSome_iff.mpr ⟨hne, hds⟩)
      simp [he, hn]

/-- Where a sign may stand in front of the exponent, a number literal is read alike. -/
theorem read?_readSignedExponent? {cs : List Char} {d : Decimal} (h : ofLiteral? cs = some d) :
    read? readSignedExponent? cs = some d := by
  unfold ofLiteral? read? at h
  unfold read?
  cases hm : readMantissa? cs with
  | none =>
    rw [hm] at h
    cases h
  | some r =>
    rw [hm] at h
    simp only [Option.bind_eq_bind, Option.bind_some] at h ⊢
    split at h
    · exact h
    · split at h
      · rename_i ds _ he
        obtain ⟨n, hn, hd⟩ := Option.bind_eq_some_iff.mp h
        have hsigned : readSignedExponent? ds = some n := by
          obtain ⟨-, hds⟩ := readExponent?_isSome_iff.mp (Option.isSome_of_eq_some hn)
          unfold readSignedExponent?
          split
          · exact absurd (hds '+' List.mem_cons_self) (by decide)
          · exact absurd (hds '-' List.mem_cons_self) (by decide)
          · exact hn
        rw [if_pos he, hsigned]
        exact hd
      · cases h

end Decimal

/-! ## The number -/

/-- Characters without underscores are ungrouped as they are. -/
theorem Text.ungrouped?_of_not_mem {cs : List Char} (h : '_' ∉ cs) (afterDigit : Bool) :
    ungrouped? afterDigit cs = some cs := by
  induction cs generalizing afterDigit with
  | nil => rfl
  | cons c cs ih =>
    rw [List.mem_cons, not_or] at h
    rw [ungrouped?, if_neg (Ne.symm h.1), ih h.2]
    rfl

/-- Characters without padding stay as they are. -/
theorem Text.unpadded_of_forall {cs : List Char} (h : ∀ c ∈ cs, isPadding c = false) :
    unpadded cs = cs := by
  have hdrop {ds : List Char} (hds : ∀ c ∈ ds, isPadding c = false) :
      ds.dropWhile isPadding = ds := by
    cases ds with
    | nil => rfl
    | cons d ds => rw [List.dropWhile_cons_of_neg (by simp [hds d List.mem_cons_self])]
  rw [unpadded, hdrop h, hdrop fun c hc => h c (List.mem_reverse.mp hc), List.reverse_reverse]

/-- A character that is no letter stays as it is in lower case. -/
theorem Text.toLower_of_not_isLetter {c : Char} (h : ¬IsLetter c) : c.toLower = c :=
  dif_neg fun hc => h (.inl hc)

namespace Binary64

/-- What a number literal begins with is no letter, so it is none of the names of numbers. -/
theorem ofMagnitude?_of_ofLiteral? {cs : List Char} {d : Decimal}
    (h : Decimal.ofLiteral? cs = some d) (negative : Bool) :
    ofMagnitude? negative cs = some (ofDecimal negative d) := by
  obtain ⟨c, rest, rfl, hc⟩ :=
    (Decimal.ofLiteral?_isSome_iff.mp (Option.isSome_of_eq_some h)).exists_cons
  have hletter : ¬IsLetter c := by
    rcases hc with hc | rfl
    · intro hl
      simp [isDecimal, digit?_of_isLetter hl] at hc
    · rw [← startsName_iff]
      decide
  have hname (e : Char) (s : List Char) (he : IsLetter e) :
      String.ofList ((c :: rest).map Char.toLower) ≠ String.ofList (e :: s) := by
    intro heq
    have hlist := congrArg String.toList heq
    rw [String.toList_ofList, String.toList_ofList, List.map_cons,
      Text.toLower_of_not_isLetter hletter] at hlist
    exact hletter ((List.cons.inj hlist).1 ▸ he)
  unfold ofMagnitude?
  dsimp only
  rw [if_neg, if_neg, Decimal.read?_readSignedExponent? h, Option.map_some]
  · exact hname 'n' _ (startsName_iff.mp rfl)
  · exact not_or.mpr ⟨hname 'i' _ (startsName_iff.mp rfl), hname 'i' _ (startsName_iff.mp rfl)⟩

/-- A number literal denotes the same number where numbers may have signs, blanks around them and
names. -/
theorem ofText?_of_ofLiteral? {cs : List Char} {d : Decimal}
    (h : Decimal.ofLiteral? cs = some d) :
    ofText? (String.ofList cs) = some (ofDecimal false d) := by
  have hnumeral := Decimal.ofLiteral?_isSome_iff.mp (Option.isSome_of_eq_some h)
  have hmem : ∀ c ∈ cs, isPadding c = false ∧ c ≠ '_' ∧ c ≠ '-' ∧ c ≠ '+' := by
    intro c hc
    rcases hnumeral.of_mem hc with hc | rfl | rfl | rfl
    · refine ⟨by simp [isPadding, isBlank_of_isDecimal hc], ?_, ?_, ?_⟩ <;> rintro rfl <;>
        exact absurd hc (by decide)
    all_goals decide
  have hunderscore : '_' ∉ cs := fun hc => (hmem _ hc).2.1 rfl
  unfold ofText?
  rw [String.toList_ofList, Text.unpadded_of_forall fun c hc => (hmem c hc).1,
    Text.ungrouped?_of_not_mem hunderscore]
  simp only [Option.bind_eq_bind, Option.bind_some]
  split
  · exact absurd rfl (hmem _ List.mem_cons_self).2.2.1
  · exact absurd rfl (hmem _ List.mem_cons_self).2.2.2
  · exact ofMagnitude?_of_ofLiteral? h false

end Binary64

end FormulaBook
