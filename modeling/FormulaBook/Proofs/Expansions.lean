import FormulaBook.Proofs.Numerals
import Mathlib.Data.List.DropRight
import Mathlib.Tactic.NormNum

/-!
# Decimals without an exponent

A decimal is written out by its digits and a point: zeros come behind the digits or in front of
them, as many as the exponent asks for, and the zeros that end the places are dropped
(`Decimal.trimmed`). What is left has no exponent and denotes the same value, and of a whole number
nothing is dropped (`Decimal.writtenAs_trimmed`). Of all the numbers with some places one of a value
is left (`Decimal.eq_of_reduced`), so decimals written out are told apart by their values alone
(`Decimal.trimmed_plain_eq_iff`).
-/

namespace FormulaBook

namespace Decimal

/-! ## Values -/

/-- The value of a decimal. -/
def value (d : Decimal) : ℚ := d.digits * (10 : ℚ) ^ d.exponent

/-- Powers of ten are powers of ten among the rationals. -/
theorem cast_tenPow (k : Nat) : ((tenPow k : Nat) : ℚ) = 10 ^ k := Nat.cast_pow 10 k

/-- Zeros may be moved from the exponent to the digits. -/
theorem value_expand (n k : Nat) (e : Int) : value ⟨n * tenPow k, e⟩ = value ⟨n, e + k⟩ := by
  simp only [value, Nat.cast_mul, cast_tenPow]
  rw [zpow_add₀ (by norm_num : (10 : ℚ) ≠ 0), zpow_natCast, mul_assoc, mul_comm ((10 : ℚ) ^ e)]

/-- A decimal without places has its digits as its value. -/
theorem value_natCast (k : Nat) : value ⟨k, 0⟩ = k := by simp [value]

/-- A decimal with its positive exponent written out. -/
theorem value_positional (d : Decimal) :
    value ⟨d.digits * tenPow d.exponent.toNat, -((-d.exponent).toNat : Int)⟩ = d.value := by
  rw [value_expand]
  congr 2
  omega

/-- On one grid decimals of one value have the same digits. -/
theorem digits_eq_of_value_eq {n n' : Nat} {e : Int} (h : value ⟨n, e⟩ = value ⟨n', e⟩) :
    n = n' := by
  have hten : (10 : ℚ) ^ e ≠ 0 := zpow_ne_zero _ (by norm_num)
  exact Nat.cast_injective (mul_right_cancel₀ hten h)

/-- Of two decimals of one value, one has zeros behind the digits of the other. -/
theorem exists_expand_of_value_eq {d d' : Decimal} (h : d.value = d'.value)
    (hle : d.exponent ≤ d'.exponent) :
    ∃ k : Nat, d'.exponent = d.exponent + k ∧ d.digits = d'.digits * tenPow k := by
  obtain ⟨k, hk⟩ := Int.le.dest hle
  refine ⟨k, hk.symm, digits_eq_of_value_eq (e := d.exponent) ?_⟩
  rw [value_expand, hk]
  exact h

/-- A decimal is rounded by its value alone. -/
theorem ofDecimal_eq_of_value_eq {d d' : Decimal} (h : d.value = d'.value) (negative : Bool) :
    Binary64.ofDecimal negative d = Binary64.ofDecimal negative d' := by
  have hle {d d' : Decimal} (h : d.value = d'.value) (hle : d.exponent ≤ d'.exponent) :
      Binary64.ofDecimal negative d = Binary64.ofDecimal negative d' := by
    obtain ⟨k, hexponent, hdigits⟩ := exists_expand_of_value_eq h hle
    have hexpand := Binary64.ofDecimal_expand negative d'.digits k d.exponent
    rwa [← hdigits, ← hexponent] at hexpand
  rcases le_total d.exponent d'.exponent with h' | h'
  · exact hle h h'
  · exact (hle h.symm h').symm

/-- A multiple of a power of ten ends in a zero. -/
theorem mul_tenPow_mod {n k : Nat} (hk : k ≠ 0) : n * tenPow k % 10 = 0 := by
  obtain ⟨k, rfl⟩ := Nat.exists_eq_succ_of_ne_zero hk
  rw [tenPow_succ, Nat.mul_left_comm]
  exact Nat.mul_mod_right ..

/-! ## Digits around a point -/

/-- Ten times a number has one more zero behind its digits. -/
theorem toDigits_ten_mul {n : Nat} (h : n ≠ 0) :
    Nat.toDigits 10 (10 * n) = Nat.toDigits 10 n ++ ['0'] := by
  have happend := Nat.toDigits_append_toDigits (b := 10) (d := 0) (by decide)
    (Nat.pos_of_ne_zero h) (by decide)
  rw [Nat.add_zero, Nat.toDigits_zero] at happend
  exact happend.symm

/-- The digits of a number behind zeros, so many that one stands in front of the places. -/
def padded (n places : Nat) : List Char :=
  List.replicate (places + 1 - (Nat.toDigits 10 n).length) '0' ++ Nat.toDigits 10 n

/-- Without places no zero is put in front. -/
theorem padded_zero (n : Nat) : padded n 0 = Nat.toDigits 10 n := by
  have hpos := Nat.length_toDigits_pos (b := 10) (n := n)
  have hnone : 0 + 1 - (Nat.toDigits 10 n).length = 0 := by omega
  rw [padded, hnone]
  rfl

/-- Ten times a number with one more place has one more zero behind its digits. -/
theorem padded_ten_mul (n places : Nat) :
    padded (10 * n) (places + 1) = padded n places ++ ['0'] := by
  by_cases hn : n = 0
  · subst hn
    simp only [padded, Nat.mul_zero, Nat.toDigits_zero, List.length_singleton,
      Nat.add_sub_cancel, ← List.replicate_succ']
  · simp only [padded, toDigits_ten_mul hn, List.length_append, List.length_singleton,
      Nat.add_sub_add_right, List.append_assoc]

/-- One digit at least stands in front of the places. -/
theorem lt_length_padded (n places : Nat) : places < (padded n places).length := by
  rw [padded, List.length_append, List.length_replicate]
  omega

/-- The point stands in front of the places if there are any. -/
theorem pointed_of_ne_zero (n : Nat) {places : Nat} (h : places ≠ 0) :
    pointed n places =
      (padded n places).take ((padded n places).length - places) ++
        '.' :: (padded n places).drop ((padded n places).length - places) := by
  simp only [pointed, if_neg h, padded]

/-- One more zero behind the point. -/
theorem pointed_ten_mul (n places : Nat) :
    pointed (10 * n) (places + 1) =
      pointed n places ++ if places = 0 then ['.', '0'] else ['0'] := by
  have hlength := lt_length_padded n places
  have hsplit : (padded n places ++ ['0']).length - (places + 1) =
      (padded n places).length - places := by
    rw [List.length_append, List.length_singleton, Nat.add_sub_add_right]
  rw [pointed_of_ne_zero _ (Nat.succ_ne_zero places), padded_ten_mul, hsplit,
    List.take_append_of_le_length (Nat.sub_le _ _), List.drop_append_of_le_length (Nat.sub_le _ _)]
  split
  · rename_i hplaces
    subst hplaces
    rw [Nat.sub_zero, List.take_length, List.drop_length, padded_zero, pointed, if_pos rfl]
    rfl
  · rename_i hplaces
    rw [pointed_of_ne_zero n hplaces, List.append_assoc]
    rfl

/-! ## Zeros behind the point -/

/-- A text without the zeros at the end of its places, and without the point if no place is left. -/
def trimmed (cs : List Char) : List Char :=
  if '.' ∈ cs then (cs.rdropWhile (· == '0')).rdropWhile (· == '.') else cs

/-- Digits with a point before the last of them, or without one: a number as it is written without
sign and exponent, and with no zero that ends its places. -/
inductive IsPositional : List Char → Prop
  | whole {ds : List Char} : ds ≠ [] → (∀ c ∈ ds, c.isDigit = true) → IsPositional ds
  | pointed {ds fs : List Char} {last : Char} : ds ≠ [] → (∀ c ∈ ds, c.isDigit = true) →
    (∀ c ∈ fs, c.isDigit = true) → last.isDigit = true → last ≠ '0' →
    IsPositional (ds ++ '.' :: (fs ++ [last]))

/-- No digit is a point. -/
theorem point_not_mem_toDigits (n : Nat) : '.' ∉ Nat.toDigits 10 n :=
  fun h => absurd (isDigit_of_mem_toDigits _ h) (by decide)

/-- A whole number keeps all its zeros. -/
theorem trimmed_pointed_zero (n : Nat) : trimmed (pointed n 0) = Nat.toDigits 10 n :=
  if_neg (point_not_mem_toDigits n)

/-- A zero that ends the places is trimmed away. -/
theorem trimmed_pointed_ten_mul (n places : Nat) :
    trimmed (pointed (10 * n) (places + 1)) = trimmed (pointed n places) := by
  have hpoint {places : Nat} (h : places ≠ 0) : '.' ∈ pointed n places := by
    rw [pointed_of_ne_zero n h]
    simp
  rw [pointed_ten_mul]
  split
  · rename_i hplaces
    subst hplaces
    have hlast : (Nat.toDigits 10 n).rdropWhile (· == '.') = Nat.toDigits 10 n := by
      rw [List.rdropWhile_eq_self_iff]
      intro hne heq
      exact point_not_mem_toDigits n (beq_iff_eq.mp heq ▸ List.getLast_mem hne)
    rw [trimmed_pointed_zero, trimmed, if_pos (by simp)]
    change (List.rdropWhile _ (Nat.toDigits 10 n ++ (['.'] ++ ['0']))).rdropWhile _ = _
    rw [← List.append_assoc, List.rdropWhile_concat_pos _ _ _ rfl,
      List.rdropWhile_concat_neg _ _ _ (by decide), List.rdropWhile_concat_pos _ _ _ rfl, hlast]
  · rename_i hplaces
    rw [trimmed, trimmed, if_pos (List.mem_append_left _ (hpoint hplaces)),
      if_pos (hpoint hplaces), List.rdropWhile_concat_pos _ _ _ rfl]

/-- The last place of a number that is no multiple of ten is not zero. -/
theorem exists_last_place {n places : Nat} (hplaces : places ≠ 0) (hn : n % 10 ≠ 0) :
    ∃ ds fs last, pointed n places = ds ++ '.' :: (fs ++ [last]) ∧ ds ≠ [] ∧
      (∀ c ∈ ds, c.isDigit = true) ∧ (∀ c ∈ fs, c.isDigit = true) ∧ last.isDigit = true ∧
      last ≠ '0' := by
  rcases pointed_cases n places with
    ⟨h, -⟩ | ⟨ds, fraction, hp, hne, hlength, hds, hfraction, hvalue⟩
  · exact absurd h hplaces
  · have hne' : fraction ≠ [] := by
      rintro rfl
      exact hplaces hlength.symm
    obtain ⟨fs, last, rfl⟩ := (List.eq_nil_or_concat' fraction).resolve_left hne'
    refine ⟨ds, fs, last, hp, hne, hds, fun c hc => hfraction c (List.mem_append_left _ hc),
      hfraction last (List.mem_append_right _ List.mem_cons_self), ?_⟩
    rintro rfl
    refine hn ?_
    rw [← hvalue, ← List.append_assoc, Nat.ofDigitChars_append]
    simp [Nat.ofDigitChars_cons]

/-- Nothing is dropped of a number whose places do not end in zero. -/
theorem trimmed_pointed_of_reduced {n places : Nat} (h : places = 0 ∨ n % 10 ≠ 0) :
    trimmed (pointed n places) = pointed n places := by
  by_cases hplaces : places = 0
  · subst hplaces
    exact trimmed_pointed_zero n
  · obtain ⟨ds, fs, last, hp, -, -, -, hdigit, hlast⟩ :=
      exists_last_place hplaces (h.resolve_left hplaces)
    have hpoint : last ≠ '.' := by
      rintro rfl
      exact absurd hdigit (by decide)
    have hconcat : ds ++ '.' :: (fs ++ [last]) = ds ++ '.' :: fs ++ [last] := by simp
    rw [hp, trimmed, if_pos (by simp), hconcat, List.rdropWhile_concat_neg _ _ _ (by simpa),
      List.rdropWhile_concat_neg _ _ _ (by simpa)]

/-- Digits with a point are positional unless a zero ends their places. -/
theorem isPositional_pointed {n places : Nat} (h : places = 0 ∨ n % 10 ≠ 0) :
    IsPositional (pointed n places) := by
  by_cases hplaces : places = 0
  · subst hplaces
    exact .whole Nat.toDigits_ne_nil fun c hc => isDigit_of_mem_toDigits c hc
  · obtain ⟨ds, fs, last, hp, hne, hds, hfs, hdigit, hlast⟩ :=
      exists_last_place hplaces (h.resolve_left hplaces)
    rw [hp]
    exact .pointed hne hds hfs hdigit hlast

/-- A number of one value is written with places that do not end in zero in one way. -/
theorem eq_of_reduced {n n' p p' : Nat} (hn : p = 0 ∨ n % 10 ≠ 0) (hn' : p' = 0 ∨ n' % 10 ≠ 0)
    (h : value ⟨n, -(p : Int)⟩ = value ⟨n', -(p' : Int)⟩) : n = n' ∧ p = p' := by
  -- the one with more places has zeros behind the digits of the other, but none at its end
  have hle {n n' p p' : Nat} (hn : p = 0 ∨ n % 10 ≠ 0)
      (h : value ⟨n, -(p : Int)⟩ = value ⟨n', -(p' : Int)⟩) (hle : p' ≤ p) :
      n = n' ∧ p = p' := by
    obtain ⟨k, hk, hdigits⟩ := exists_expand_of_value_eq h (Int.neg_le_neg (Int.ofNat_le.mpr hle))
    dsimp only at hk hdigits
    rcases Nat.eq_zero_or_pos k with rfl | hpos
    · exact ⟨hdigits.trans (Nat.mul_one n'), by omega⟩
    · have hmod := mul_tenPow_mod (n := n') (Nat.pos_iff_ne_zero.mp hpos)
      rw [← hdigits] at hmod
      have hzero := hn.resolve_right (not_not.mpr hmod)
      omega
  rcases le_total p' p with hp | hp
  · exact hle hn h hp
  · exact (hle hn' h.symm hp).imp Eq.symm Eq.symm

/-- What is left of a number is a number of the same value whose places do not end in zero. -/
theorem exists_trimmed_pointed (n places : Nat) :
    ∃ m p, trimmed (pointed n places) = pointed m p ∧ (p = 0 ∨ m % 10 ≠ 0) ∧
      value ⟨m, -(p : Int)⟩ = value ⟨n, -(places : Int)⟩ := by
  induction places generalizing n with
  | zero => exact ⟨n, 0, trimmed_pointed_of_reduced (.inl rfl), .inl rfl, rfl⟩
  | succ places ih =>
    by_cases hn : n % 10 = 0
    · obtain ⟨n, rfl⟩ := Nat.dvd_of_mod_eq_zero hn
      obtain ⟨m, p, htrimmed, hreduced, hvalue⟩ := ih n
      refine ⟨m, p, (trimmed_pointed_ten_mul n places).trans htrimmed, hreduced, ?_⟩
      have hexpand := value_expand n 1 (-((places + 1 : Nat) : Int))
      rw [show n * tenPow 1 = 10 * n from Nat.mul_comm n 10] at hexpand
      rw [hvalue, hexpand]
      congr 2
      omega
    · exact ⟨n, places + 1, trimmed_pointed_of_reduced (.inr hn), .inr hn, rfl⟩

/-- Trimming the plain text of a decimal leaves digits with a point that no zero ends, and the same
value. -/
theorem exists_trimmed_plain (d : Decimal) :
    ∃ m p, trimmed d.plain = pointed m p ∧ (p = 0 ∨ m % 10 ≠ 0) ∧
      value ⟨m, -(p : Int)⟩ = d.value := by
  obtain ⟨m, p, htrimmed, hreduced, hvalue⟩ :=
    exists_trimmed_pointed (d.digits * tenPow d.exponent.toNat) (-d.exponent).toNat
  exact ⟨m, p, htrimmed, hreduced, hvalue.trans d.value_positional⟩

/-- Decimals written out, without the zeros at the end of their places, are told apart by their
values alone. -/
theorem trimmed_plain_eq_iff {d d' : Decimal} :
    trimmed d.plain = trimmed d'.plain ↔ d.value = d'.value := by
  obtain ⟨m, p, htrimmed, hreduced, hvalue⟩ := exists_trimmed_plain d
  obtain ⟨m', p', htrimmed', hreduced', hvalue'⟩ := exists_trimmed_plain d'
  rw [htrimmed, htrimmed', ← hvalue, ← hvalue']
  constructor
  · intro h
    have hread := ofLiteral?_pointed m p
    rw [h, ofLiteral?_pointed] at hread
    rw [Option.some.inj hread]
  · intro h
    obtain ⟨rfl, rfl⟩ := eq_of_reduced hreduced hreduced' h
    rfl

/-! ## Decimals written out -/

/-- The text writes the decimal out: without sign and exponent, and so that no zero ends its places.
It is read as a decimal of the same value, and a whole number keeps all its zeros. -/
structure WrittenAs (d : Decimal) (cs : List Char) : Prop where
  isPositional : IsPositional cs
  value_eq : ∃ d', ofLiteral? cs = some d' ∧ d'.value = d.value
  eq_toDigits : ∀ k : Nat, d.value = k → cs = Nat.toDigits 10 k

/-- Whatever its digits and its exponent, a decimal is written out by its digits and a point,
without the zeros at the end of the places. -/
theorem writtenAs_trimmed (d : Decimal) : d.WrittenAs (trimmed d.plain) := by
  obtain ⟨m, p, htrimmed, hreduced, hvalue⟩ := exists_trimmed_plain d
  refine ⟨htrimmed ▸ isPositional_pointed hreduced,
    ⟨_, htrimmed ▸ ofLiteral?_pointed m p, hvalue⟩, fun k hk => ?_⟩
  rw [← value_natCast] at hk
  rw [trimmed_plain_eq_iff.mpr hk]
  change trimmed (pointed (k * tenPow 0) 0) = _
  rw [trimmed_pointed_zero]
  exact congrArg (Nat.toDigits 10) (Nat.mul_one k)

/-- Zeros are dropped behind a point only. -/
example :
    trimmed (plain ⟨3400, -1⟩) = "340".toList ∧ trimmed (plain ⟨34, 3⟩) = "34000".toList ∧
      trimmed (plain ⟨340, -7⟩) = "0.000034".toList := by
  decide +kernel

end Decimal

end FormulaBook
