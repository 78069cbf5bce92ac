import FormulaBook.Proofs.Expansions

/-!
# Number texts

The text of a number is read back, whichever notation it is in: with an exponent as the decimal that
was written (`Decimal.read?_scientific`), and without one as a decimal of the same value
(`Decimal.read?_natural`). The digits of a shortest decimal do not end in zero
(`Decimal.shortest_reduced`), and a number is whole exactly if its shortest decimal is
(`Decimal.exists_value_shortest_eq`, `Decimal.unitsPerOne_dvd_of_roundsTo`). So the text of a number
in a formula is the decimal of its natural text, written out (`Binary64.exists_writtenAs_plain`),
and the scanner makes it one token with the number in it (`Token.scan_plain`).
-/

namespace FormulaBook

open Text

/-- One is more than no units. -/
theorem unitsPerOne_pos : 0 < unitsPerOne := twoPow_pos 1074

/-- A power of two divides the higher ones. -/
theorem twoPow_dvd_twoPow {m n : Nat} (h : m ≤ n) : twoPow m ∣ twoPow n := pow_dvd_pow 2 h

/-- The letter `e` is no digit. -/
theorem Text.digit?_e : digit? 'e' = none := by decide

namespace Decimal

/-! ## Exponents -/

/-- Digits are read as an exponent. -/
theorem readExponent?_of_isDigit {es : List Char} (hne : es ≠ [])
    (hes : ∀ c ∈ es, c.isDigit = true) :
    readExponent? es = some (Nat.ofDigitChars 10 es 0 : Int) := by
  have hspan := spanDigits_append es [] hes nofun
  rw [List.append_nil] at hspan
  have hdigits : readDigits? es = some (Nat.ofDigitChars 10 es 0) := by
    unfold readDigits?
    rw [hspan, ← ofDigits_map]
    split
    · rename_i heq
      exact absurd (List.map_eq_nil_iff.mp (Prod.mk.inj heq).1) hne
    · rename_i heq
      rw [(Prod.mk.inj heq).1]
    · rename_i hnot
      exact absurd rfl (hnot _)
  rw [readExponent?, hdigits]
  rfl

/-- An exponent behind its sign is read with any number of zeros in front of its digits. -/
theorem readSignedExponent?_sign (e : Int) (zeros : Nat) :
    readSignedExponent? ((if e < 0 then '-' else '+') ::
      (List.replicate zeros '0' ++ Nat.toDigits 10 e.natAbs)) = some e := by
  have hdigit : ∀ c ∈ List.replicate zeros '0' ++ Nat.toDigits 10 e.natAbs, c.isDigit = true := by
    intro c hc
    rcases List.mem_append.mp hc with hc | hc
    · rw [List.eq_of_mem_replicate hc]
      rfl
    · exact isDigit_of_mem_toDigits c hc
  have hread := readExponent?_of_isDigit
    (List.append_ne_nil_of_right_ne_nil _ Nat.toDigits_ne_nil) hdigit
  rw [Nat.ofDigitChars_append, Nat.ofDigitChars_replicate_zero, Nat.mul_zero,
    Nat.ofDigitChars_ten_toDigits] at hread
  split
  · rw [readSignedExponent?, hread]
    exact congrArg some (show -(e.natAbs : Int) = e by omega)
  · rw [readSignedExponent?, hread]
    exact congrArg some (by omega)

/-! ## Natural texts -/

/-- Digits in front of the letter e are read as a whole number. -/
theorem readMantissa?_whole {ds rest : List Char} (hne : ds ≠ [])
    (hds : ∀ c ∈ ds, c.isDigit = true) :
    readMantissa? (ds ++ 'e' :: rest) = some (⟨Nat.ofDigitChars 10 ds 0, 0⟩, 'e' :: rest) := by
  have hspan := spanDigits_append ds ('e' :: rest) hds (by simp [digit?_e])
  simp [readMantissa?, hspan, ofDigits_map, hne]

/-- Digits around a point, in front of the letter e. -/
theorem readMantissa?_pointed {ds fs rest : List Char} (hne : ds ≠ [])
    (hds : ∀ c ∈ ds, c.isDigit = true) (hfs : ∀ c ∈ fs, c.isDigit = true) :
    readMantissa? (ds ++ '.' :: (fs ++ 'e' :: rest)) =
      some (⟨Nat.ofDigitChars 10 (ds ++ fs) 0, -(fs.length : Int)⟩, 'e' :: rest) := by
  have hspan := spanDigits_append ds ('.' :: (fs ++ 'e' :: rest)) hds (by simp [digit?_point])
  have hspan' := spanDigits_append fs ('e' :: rest) hfs (by simp [digit?_e])
  have hvalue : ofDigits (ofDigits 0 (ds.map (·.toNat - 48))) (fs.map (·.toNat - 48)) =
      Nat.ofDigitChars 10 (ds ++ fs) 0 := by
    rw [← ofDigits_append, ← List.map_append, ofDigits_map]
  simp [readMantissa?, hspan, hspan', hvalue, hne]

/-- A mantissa and an exponent behind the letter `e` are read as a decimal. -/
theorem read?_of_readMantissa? {cs es : List Char} {d : Decimal} {e : Int}
    (hmantissa : readMantissa? cs = some (d, 'e' :: es)) (he : readSignedExponent? es = some e) :
    read? readSignedExponent? cs = some ⟨d.digits, d.exponent + e⟩ := by
  simp [read?, hmantissa, he]

/-- A decimal written with an exponent is read as it is. -/
theorem read?_scientific (d : Decimal) : read? readSignedExponent? d.scientific = some d := by
  obtain ⟨n, e⟩ := d
  have hdigit := isDigit_of_mem_toDigits (n := n)
  have hvalue := Nat.ofDigitChars_ten_toDigits (n := n)
  unfold scientific
  dsimp only
  rcases hds : Nat.toDigits 10 n with _ | ⟨first, _ | ⟨second, ds⟩⟩
  · exact absurd hds Nat.toDigits_ne_nil
  · rw [hds] at hdigit hvalue
    rw [read?_of_readMantissa? (readMantissa?_whole (List.cons_ne_nil first []) hdigit)
      (readSignedExponent?_sign _ _), hvalue]
    simp
  · rw [hds] at hdigit hvalue
    have hfirst : ∀ c ∈ [first], c.isDigit = true := fun c hc =>
      hdigit c (List.mem_append_left (second :: ds) hc)
    have hrest : ∀ c ∈ second :: ds, c.isDigit = true := fun c hc => hdigit c (.tail first hc)
    have hmantissa (es : List Char) : readMantissa? (first :: '.' :: (second :: ds ++ 'e' :: es)) =
        some (⟨Nat.ofDigitChars 10 (first :: second :: ds) 0, -((second :: ds).length : Int)⟩,
          'e' :: es) :=
      readMantissa?_pointed (List.cons_ne_nil first []) hfirst hrest
    rw [hvalue] at hmantissa
    refine (read?_of_readMantissa? (hmantissa _) (readSignedExponent?_sign _ _)).trans ?_
    refine congrArg (fun k => some (⟨n, k⟩ : Decimal)) ?_
    simp only [List.length_cons, Nat.add_sub_cancel]
    omega

/-- A decimal is read as one of the same value, whichever notation is natural for it. -/
theorem read?_natural (d : Decimal) :
    ∃ d', read? readSignedExponent? d.natural = some d' ∧ d'.value = d.value := by
  unfold natural
  dsimp only
  split
  · split
    · exact ⟨_, read?_readSignedExponent? (ofLiteral?_pointed _ _), d.value_positional⟩
    · have hwhole : (-d.exponent).toNat = 0 := by omega
      have hzero : d.plain ++ ['.', '0'] =
          pointed (10 * (d.digits * tenPow d.exponent.toNat)) 1 := by
        rw [plain, hwhole, pointed_ten_mul, if_pos rfl]
      refine ⟨_, hzero ▸ read?_readSignedExponent? (ofLiteral?_pointed _ _), ?_⟩
      have hexpand := value_expand (d.digits * tenPow d.exponent.toNat) 1 (-(1 : Nat))
      rw [show tenPow 1 = 10 from rfl, Nat.mul_comm _ 10] at hexpand
      rw [hexpand, ← d.value_positional, hwhole]
      rfl
  · exact ⟨d, read?_scientific d, rfl⟩

/-! ## Shortest decimals -/

/-- Stripping zeros keeps the value. -/
theorem value_strip (steps : Nat) (d : Decimal) : (strip steps d).value = d.value := by
  induction steps generalizing d with
  | zero => rfl
  | succ steps ih =>
    unfold strip
    split
    · rename_i hd
      have hexpand := value_expand (d.digits / 10) 1 d.exponent
      rw [show d.digits / 10 * tenPow 1 = d.digits from Nat.div_mul_cancel
        (Nat.dvd_of_mod_eq_zero hd.2)] at hexpand
      rw [ih]
      exact hexpand.symm
    · rfl

/-- All zeros are moved to the exponent if there are steps for all digits. -/
theorem digits_strip {steps : Nat} {d : Decimal} (h : d.digits < tenPow (steps + 1)) :
    (strip steps d).digits = 0 ∨ (strip steps d).digits % 10 ≠ 0 := by
  induction steps generalizing d with
  | zero =>
    have hlt : d.digits < 10 := h
    rw [strip, Nat.mod_eq_of_lt hlt]
    exact Decidable.em _
  | succ steps ih =>
    unfold strip
    split
    · refine ih (Nat.div_lt_of_lt_mul ?_)
      rwa [tenPow_succ] at h
    · rename_i hd
      exact (Decidable.not_and_iff_or_not.mp hd).imp_left not_not.mp

/-- The digits of a decimal in normal form end in no zero, unless there is nothing else. -/
theorem digits_normal (d : Decimal) : d.normal.digits = 0 ∨ d.normal.digits % 10 ≠ 0 := by
  refine digits_strip ?_
  calc d.digits < twoPow (d.digits.log2 + 1) := lt_twoPow_log2 d.digits
    _ ≤ tenPow (d.digits.log2 + 1) := Nat.pow_le_pow_left (by decide) _

/-- Zero rounds to zero alone. -/
theorem RoundsTo.digits_ne_zero {d : Decimal} {n : Nat} (h : d.RoundsTo n) (hn : n ≠ 0) :
    d.digits ≠ 0 := by
  intro hd
  obtain ⟨h, hround⟩ := h
  rw [Binary64.ofDecimal, if_pos hd, Binary64.zero] at hround
  cases hround
  exact hn rfl

/-- The digits of a shortest decimal do not end in zero. -/
theorem shortest_reduced {n : Nat} (h : Representable n) :
    0 ≤ (shortest n).exponent ∨ (shortest n).digits % 10 ≠ 0 := by
  by_cases hn : n = 0
  · subst hn
    exact .inl (Int.le_refl 0)
  · refine .inr (Or.resolve_left ?_ ((roundsTo_shortest h).digits_ne_zero hn))
    rw [shortest, if_neg hn]
    exact digits_normal _

/-- So the shortest decimal is written out without zeros that end its places. -/
theorem trimmed_plain_shortest {n : Nat} (h : Representable n) :
    trimmed (shortest n).plain = (shortest n).plain := by
  refine trimmed_pointed_of_reduced ?_
  rcases shortest_reduced h with h | h
  · exact .inl (by omega)
  · by_cases hexponent : 0 ≤ (shortest n).exponent
    · exact .inl (by omega)
    · refine .inr ?_
      rwa [show (shortest n).exponent.toNat = 0 by omega, show tenPow 0 = 1 from rfl, Nat.mul_one]

/-! ## Whole numbers -/

/-- A decimal with no negative exponent is a whole number. -/
theorem exists_value_eq_natCast {d : Decimal} (h : 0 ≤ d.exponent) : ∃ k : Nat, d.value = k := by
  refine ⟨d.digits * tenPow d.exponent.toNat, ?_⟩
  rw [← value_natCast, value_expand, Int.zero_add, Int.toNat_of_nonneg h]

section Whole

variable {n q : Nat} {e : Int}

/-- On a grid that is fine enough a whole number is its own neighbour. -/
theorem floorAt_whole (hn : n = q * unitsPerOne) (he : e ≤ 0) :
    floorAt n e = q * tenPow (-e).toNat := by
  have hwhole : e.toNat = 0 := Int.toNat_of_nonpos he
  have hone : tenPow 0 = 1 := rfl
  rw [floorAt, hn, hwhole, hone, Nat.mul_one, Nat.mul_right_comm,
    Nat.mul_div_cancel _ unitsPerOne_pos]

/-- A whole number that doubles have is read back from any grid that is fine enough. -/
theorem ofDecimal_whole (h : Representable n) (hn : n = q * unitsPerOne) (he : e ≤ 0) :
    Binary64.ofDecimal false ⟨q * tenPow (-e).toNat, e⟩ = .finite false n h := by
  have hwhole : e.toNat = 0 := Int.toNat_of_nonpos he
  have hone : tenPow 0 = 1 := rfl
  rw [← Binary64.ofRatio_of_representable (tenPow_pos (-e).toNat) h false, hn,
    Binary64.ofDecimal_eq_ofRatio, Binary64.ofDecimalRatio, hwhole, hone, Nat.mul_one,
    Nat.mul_comm q, Nat.mul_assoc]

/-- A whole number does not lie nearer to the next one on the grid. -/
theorem roundsUp_whole (hn : n = q * unitsPerOne) (he : e ≤ 0) :
    roundsUp n (q * tenPow (-e).toNat) e = false := by
  have hwhole : e.toNat = 0 := Int.toNat_of_nonpos he
  have hone : tenPow 0 = 1 := rfl
  have hbelow : 2 * n * tenPow (-e).toNat <
      (2 * (q * tenPow (-e).toNat) + 1) * unitsPerOne :=
    calc 2 * n * tenPow (-e).toNat = 2 * (q * tenPow (-e).toNat) * unitsPerOne := by
          rw [hn, ← Nat.mul_assoc, Nat.mul_right_comm, Nat.mul_assoc 2]
      _ < (2 * (q * tenPow (-e).toNat) + 1) * unitsPerOne :=
        Nat.mul_lt_mul_of_pos_right (Nat.lt_succ_self _) unitsPerOne_pos
  rw [roundsUp, hwhole, hone, Nat.mul_one]
  simp [Nat.not_lt.mpr hbelow.le, Nat.ne_of_gt hbelow]

/-- A decimal found on a grid has the exponent of the grid. -/
theorem exponent_of_onGrid? {n : Nat} {e : Int} {d : Decimal} (h : onGrid? n e = some d) :
    d.exponent = e := by
  unfold onGrid? at h
  extract_lets low high readsBack at h
  split at h
  · rw [← Option.some.inj h]
    split <;> rfl
  · rw [← Option.some.inj h]
  · rw [← Option.some.inj h]
  · cases h

/-- A whole number is found on every grid that is fine enough. -/
theorem onGrid?_whole (h : Representable n) (hn : n = q * unitsPerOne) (he : e ≤ 0) :
    onGrid? n e = some ⟨q * tenPow (-e).toNat, e⟩ := by
  unfold onGrid?
  extract_lets low high readsBack
  have hlow : low = ⟨q * tenPow (-e).toNat, e⟩ := by rw [← floorAt_whole hn he]
  have hreads : readsBack low = true := by
    simp only [readsBack, hlow, ofDecimal_whole h hn he, beq_self_eq_true]
  have hdown : roundsUp n low.digits e = false := by
    rw [hlow]
    exact roundsUp_whole hn he
  rw [hreads, hdown, hlow]
  cases readsBack high <;> rfl

/-- The decimal of the units of a whole number has this number as its value. -/
theorem value_ofUnits_whole (hn : n = q * unitsPerOne) : (ofUnits n).value = q := by
  have hten : n * Nat.pow 5 1074 = q * tenPow 1074 := by
    rw [hn, unitsPerOne]
    -- a power this large is better left alone
    generalize 1074 = k
    rw [Nat.mul_right_comm, mul_fivePow_mul_twoPow, Nat.mul_comm]
  rw [ofUnits, hten, value_expand, ← value_natCast]
  rfl

end Whole

/-- The shortest decimal of a whole number is a whole number. -/
theorem exists_value_shortest_eq {n : Nat} (h : Representable n) (hn : unitsPerOne ∣ n) :
    ∃ k : Nat, (shortest n).value = k := by
  obtain ⟨q, hq⟩ := hn
  rw [Nat.mul_comm] at hq
  unfold shortest
  split
  · exact exists_value_eq_natCast (Int.le_refl 0)
  · dsimp only
    rw [normal, value_strip]
    cases hf : (List.range 17).findSome? fun k => onGrid? n (magnitude n - 1 - (k : Nat)) with
    | none => exact ⟨q, value_ofUnits_whole hq⟩
    | some d =>
      obtain ⟨k, -, hk⟩ := List.exists_of_findSome?_eq_some hf
      -- a coarse grid has only whole numbers on it, and on a fine one the number itself is found
      rcases Int.le_total (magnitude n - 1 - (k : Nat)) 0 with he | he
      · rw [onGrid?_whole h hq he] at hk
        refine ⟨q, ?_⟩
        rw [← Option.some.inj hk, Option.getD_some, value_expand, ← value_natCast,
          Int.toNat_of_nonneg (Int.neg_nonneg_of_nonpos he), Int.add_right_neg]
      · refine exists_value_eq_natCast ?_
        rwa [Option.getD_some, exponent_of_onGrid? hk]

/-- Only a whole number is the rounding of a whole number. -/
theorem unitsPerOne_dvd_roundUnits (k : Nat) : unitsPerOne ∣ roundUnits (k * unitsPerOne) 1 := by
  simp only [roundUnits, Nat.div_one, Nat.one_mul]
  generalize (k * unitsPerOne).log2 - 52 = s
  rw [unitsPerOne]
  generalize 1074 = ones
  -- what is rounded to is a multiple of the step, or the step divides what is rounded
  rcases Nat.le_total ones s with hs | hs
  · exact (twoPow_dvd_twoPow hs).mul_left _
  · have hstep : twoPow s ∣ k * twoPow ones := (twoPow_dvd_twoPow hs).mul_left k
    rw [roundDiv_of_dvd (twoPow_pos s) hstep, Nat.div_mul_cancel hstep]
    exact Nat.dvd_mul_left ..

/-- A number is whole if its shortest decimal is. -/
theorem unitsPerOne_dvd_of_roundsTo {d : Decimal} {n k : Nat} (h : d.RoundsTo n)
    (hk : d.value = k) : unitsPerOne ∣ n := by
  obtain ⟨h, hround⟩ := h
  rw [← value_natCast] at hk
  rw [ofDecimal_eq_of_value_eq hk, Binary64.ofDecimal_eq_ofRatio, Binary64.ofDecimalRatio] at hround
  change Binary64.ofRatio false (k * 1 * unitsPerOne) 1 = _ at hround
  rw [Nat.mul_one, Binary64.ofRatio] at hround
  split at hround
  · cases hround
    exact unitsPerOne_dvd_roundUnits k
  · cases hround

end Decimal

namespace Binary64

/-- A finite double is written plainly as its shortest decimal. -/
theorem toList_plain_finite {n : Nat} (h : Representable n) :
    (finite false n h).plain.toList = (Decimal.shortest n).plain := by
  rw [plain, signText, String.toList_ofList]
  rfl

/-- A finite double is written as its shortest decimal in the natural way. -/
theorem toList_text_finite {n : Nat} (h : Representable n) :
    (finite false n h).text.toList = (Decimal.shortest n).natural := by
  rw [text, signText, String.toList_ofList]
  rfl

/-- A number is written in a formula as the decimal of its natural text, written out without the
zeros at the end of its places. -/
theorem exists_writtenAs_plain {n : Nat} (h : Representable n) :
    ∃ d, Decimal.read? Decimal.readSignedExponent? (finite false n h).text.toList = some d ∧
      ofDecimal false d = finite false n h ∧
      (finite false n h).plain.toList = Decimal.trimmed d.plain ∧
      d.WrittenAs (finite false n h).plain.toList ∧
      (unitsPerOne ∣ n ↔ ∃ k : Nat, d.value = k) := by
  obtain ⟨d, hread, hvalue⟩ := Decimal.read?_natural (Decimal.shortest n)
  have hshortest := Decimal.roundsTo_shortest h
  have hplain : (finite false n h).plain.toList = Decimal.trimmed d.plain := by
    rw [toList_plain_finite, ← Decimal.trimmed_plain_shortest h, Decimal.trimmed_plain_eq_iff,
      hvalue]
  refine ⟨d, ?_, ?_, hplain, hplain ▸ d.writtenAs_trimmed, ?_⟩
  · rw [toList_text_finite, hread]
  · obtain ⟨h', hround⟩ := hshortest
    rw [Decimal.ofDecimal_eq_of_value_eq hvalue, hround]
  · rw [hvalue]
    exact ⟨Decimal.exists_value_shortest_eq h,
      fun ⟨k, hk⟩ => Decimal.unitsPerOne_dvd_of_roundsTo hshortest hk⟩

/-- Numbers without a sign are equal if and only if they are written alike. -/
theorem plain_eq_iff {x y : Binary64} (hx : x.IsUnsigned) (hy : y.IsUnsigned) :
    x.plain = y.plain ↔ x = y :=
  ⟨plain_inj hx hy, congrArg plain⟩

end Binary64

/-- The text of a number is one token with the number in it. -/
theorem Token.scan_plain {n : Nat} (h : Representable n) :
    scan (Binary64.finite false n h).plain = [⟨.number, .number (.finite false n h), 0⟩] := by
  obtain ⟨hne, hword, -⟩ := ofWord_plain (x := .finite false n h) rfl 0
  obtain ⟨d, hd, hround⟩ := Binary64.ofLiteral?_plain h
  have htoken : ofWord (Binary64.finite false n h).plain.toList 0 =
      ⟨.number, .number (.finite false n h), 0⟩ := by
    simp only [ofWord, hd, hround]
  have hend : Boundary [] := fun c hc => absurd hc (Option.not_mem_none c)
  have hscan := scanFrom_word hne hword hend 0
  rw [List.append_nil] at hscan
  rw [scan, hscan]
  exact congrArg (· :: scanFrom [] _ []) htoken

end FormulaBook
