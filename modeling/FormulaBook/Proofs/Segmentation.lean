import FormulaBook.Proofs.Characters
import FormulaBook.Proofs.Numerals
import Mathlib.Data.List.Pairwise
import Mathlib.Data.List.Sort

/-!
# The scanner cuts a text completely and maximally

A lexeme is a token with the stretch of the text that it was read from. The rules of scanning say
which lexemes a text has (`Lexeme.Due`): parentheses and signs each on their own, stars in pairs
with one left over in a run of odd length, and every maximal run of word characters. Lexemes that
are due do not overlap (`Lexeme.Due.eq_of_covers`), and the tokens of the scanner are those of
lexemes that are due, in order, which together cover all characters but the blank ones
(`Lexeme.exists_cut`). So there is one segmentation of a text by the rules (`Lexeme.Segments`), and
the scanner yields it.
-/

namespace FormulaBook

open Text Token

/-! ## Runs -/

/-- The characters between `before` and `after` are a maximal run of those that satisfy `p`. -/
structure Text.IsRun (p : Char → Bool) (before run after : List Char) : Prop where
  ne_nil : run ≠ []
  all : ∀ c ∈ run, p c = true
  left : ∀ c ∈ before.getLast?, p c = false
  right : ∀ c ∈ after.head?, p c = false

/-- Every index in a stretch of a text is that of a character of the stretch. -/
theorem Text.exists_getElem?_of_run {cs before w after : List Char}
    (h : cs = before ++ (w ++ after)) {i : Nat} (hle : before.length ≤ i)
    (hlt : i < before.length + w.length) : ∃ c ∈ w, cs[i]? = some c := by
  have hi : i - before.length < w.length := by omega
  refine ⟨w[i - before.length], List.getElem_mem hi, ?_⟩
  rw [h, List.getElem?_append_right hle, List.getElem?_append_left hi, List.getElem?_eq_getElem]

namespace Text.IsRun

variable {p : Char → Bool} {cs before w after before' w' after' : List Char}

/-- The character in front of a run is not of its kind. -/
theorem not_before (h : IsRun p before w after) (hcs : cs = before ++ (w ++ after))
    (hpos : 0 < before.length) {c : Char} (hc : cs[before.length - 1]? = some c) : p c = false := by
  refine h.left c ?_
  rwa [hcs, List.getElem?_append_left (by omega), ← List.getLast?_eq_getElem?] at hc

/-- The character behind a run is not of its kind. -/
theorem not_after (h : IsRun p before w after) (hcs : cs = before ++ (w ++ after)) {c : Char}
    (hc : cs[before.length + w.length]? = some c) : p c = false := by
  refine h.right c ?_
  rwa [hcs, List.getElem?_append_right (by omega), List.getElem?_append_right (by omega),
    Nat.add_sub_cancel_left, Nat.sub_self, ← List.head?_eq_getElem?] at hc

/-- A run does not go on beyond another one of its kind that it has a character in common with. -/
theorem within (h : IsRun p before w after) (h' : IsRun p before' w' after')
    (hcs : cs = before ++ (w ++ after)) (hcs' : cs = before' ++ (w' ++ after')) {i : Nat}
    (hi : before.length ≤ i ∧ i < before.length + w.length)
    (hi' : before'.length ≤ i ∧ i < before'.length + w'.length) :
    before.length ≤ before'.length ∧
      before'.length + w'.length ≤ before.length + w.length := by
  constructor
  · by_contra hlt
    obtain ⟨c, hc, hget⟩ := exists_getElem?_of_run (i := before.length - 1) hcs' (by omega)
      (by omega)
    exact absurd (h'.all c hc) (by simp [h.not_before hcs (by omega) hget])
  · by_contra hlt
    obtain ⟨c, hc, hget⟩ := exists_getElem?_of_run (i := before.length + w.length) hcs' (by omega)
      (by omega)
    exact absurd (h'.all c hc) (by simp [h.not_after hcs hget])

/-- Two maximal runs of one kind with a character in common are one run. -/
theorem eq_of_overlap (h : IsRun p before w after) (h' : IsRun p before' w' after')
    (hcs : cs = before ++ (w ++ after)) (hcs' : cs = before' ++ (w' ++ after')) {i : Nat}
    (hi : before.length ≤ i ∧ i < before.length + w.length)
    (hi' : before'.length ≤ i ∧ i < before'.length + w'.length) :
    before = before' ∧ w = w' := by
  have hle := h.within h' hcs hcs' hi hi'
  have hge := h'.within h hcs' hcs hi' hi
  obtain ⟨rfl, hrest⟩ := List.append_inj (hcs.symm.trans hcs') (by omega)
  exact ⟨rfl, (List.append_inj hrest (by omega)).1⟩

end Text.IsRun

/-! ## Lexemes -/

/-- A token with the stretch of the text that it was read from: the characters from `start` up to
`stop`, which is not in it. -/
structure Lexeme where
  token : Token
  start : Nat
  stop : Nat

namespace Lexeme

/-- The character with the given index is in the stretch. -/
def Covers (x : Lexeme) (i : Nat) : Prop := x.start ≤ i ∧ i < x.stop

/-- The lexemes stand in the order of the text and do not overlap. -/
def Apart (xs : List Lexeme) : Prop := xs.Pairwise fun x y => x.stop ≤ y.start

/-- The kind of token that a character is on its own. -/
def mark? : Char → Option Token.Kind
  | '(' => some .openParen
  | ')' => some .closeParen
  | '+' | '-' | '/' | '^' => some .operator
  | _ => none

/-- What a word is read as: a number literal as its number, any other word as an identifier. -/
inductive ReadsWord (w : List Char) : Token.Kind → Token.Value → Prop
  | number {x} : Decimal.IsNumeral w → Binary64.ofText? (String.ofList w) = some x →
      ReadsWord w .number (.number x)
  | identifier : ¬Decimal.IsNumeral w → ReadsWord w .identifier (.text (String.ofList w))

/-- A word is read in one way. -/
theorem ReadsWord.unique {w : List Char} {kind kind' : Token.Kind} {value value' : Token.Value}
    (h : ReadsWord w kind value) (h' : ReadsWord w kind' value') :
    kind = kind' ∧ value = value' := by
  cases h with
  | number hw hx =>
    cases h' with
    | number _ hx' =>
      obtain rfl := Option.some.inj (hx.symm.trans hx')
      exact ⟨rfl, rfl⟩
    | identifier hw' => exact absurd hw hw'
  | identifier hw =>
    cases h' with
    | number hw' => exact absurd hw' hw
    | identifier => exact ⟨rfl, rfl⟩

/-- The lexemes of `k` stars from `position` on: pairs, and then one star if there is one left. -/
def stars (position k : Nat) : List Lexeme :=
  (List.range (k / 2)).map (fun i =>
    ⟨ofOperator "**" (position + 2 * i : Nat), position + 2 * i, position + 2 * i + 2⟩) ++
  if k % 2 = 1 then
    [⟨ofOperator "*" (position + k - 1 : Nat), position + k - 1, position + k⟩]
  else []

/-- The lexemes that the rules of scanning ask for in a text. -/
inductive Due (cs : List Char) : Lexeme → Prop
  | mark {before c after kind} : cs = before ++ c :: after → mark? c = some kind →
      Due cs ⟨⟨kind, .text (String.singleton c), before.length⟩, before.length, before.length + 1⟩
  | star {before k after x} : cs = before ++ (List.replicate k '*' ++ after) →
      IsRun (· == '*') before (List.replicate k '*') after → x ∈ stars before.length k → Due cs x
  | word {before w after kind value} : cs = before ++ (w ++ after) →
      IsRun isWordChar before w after → ReadsWord w kind value →
      Due cs ⟨⟨kind, value, before.length⟩, before.length, before.length + w.length⟩

/-- The lexemes segment a text: their stretches lie in it in order, none empty and no two of them
overlapping, the characters in none of them are exactly the blank ones, and the lexemes that the
rules of scanning ask for are among them. -/
structure Segments (cs : List Char) (xs : List Lexeme) : Prop where
  position_eq : ∀ x ∈ xs, x.token.position = x.start
  bounds : ∀ x ∈ xs, x.start < x.stop ∧ x.stop ≤ cs.length
  apart : Apart xs
  covers_iff : ∀ {before c after}, cs = before ++ c :: after →
    ((∃ x ∈ xs, x.Covers before.length) ↔ isBlank c = false)
  due : ∀ x, Due cs x → x ∈ xs

/-- Of lexemes that stand apart no two cover the same character. -/
theorem Apart.eq_of_covers {xs : List Lexeme} (h : Apart xs) {x y : Lexeme} (hx : x ∈ xs)
    (hy : y ∈ xs) {i : Nat} (hxi : x.Covers i) (hyi : y.Covers i) : x = y := by
  by_contra hne
  have hsymm : xs.Pairwise fun x y => x.stop ≤ y.start ∨ y.stop ≤ x.start := h.imp .inl
  have : Std.Symm fun x y : Lexeme => x.stop ≤ y.start ∨ y.stop ≤ x.start := ⟨fun _ _ => Or.symm⟩
  have hdisjoint := hsymm.forall hx hy hne
  unfold Covers at hxi hyi
  omega

/-! ## Stars -/

/-- The first two of several stars are a pair. -/
theorem stars_add_two (p k : Nat) :
    stars p (k + 2) = ⟨ofOperator "**" p, p, p + 2⟩ :: stars (p + 2) k := by
  have hhalf : (k + 2) / 2 = k / 2 + 1 := by omega
  have hodd : (k + 2) % 2 = k % 2 := by omega
  have hnext (i : Nat) : p + 2 * (i + 1) = p + 2 + 2 * i := by omega
  have hlast : p + (k + 2) = p + 2 + k := by omega
  simp only [stars, hhalf, hodd, hlast, List.range_succ_eq_map, List.map_cons, List.map_map,
    Function.comp_def, Nat.succ_eq_add_one, hnext, Nat.mul_zero, Nat.add_zero, List.cons_append]

/-- The lexemes of stars are not empty, lie within the stars and know where they stand. -/
theorem mem_stars {p k : Nat} {x : Lexeme} (h : x ∈ stars p k) :
    x.token.position = x.start ∧ p ≤ x.start ∧ x.start < x.stop ∧ x.stop ≤ p + k := by
  rcases List.mem_append.mp h with h | h
  · obtain ⟨i, hi, rfl⟩ := List.mem_map.mp h
    rw [List.mem_range] at hi
    refine ⟨rfl, ?_, ?_, ?_⟩ <;> dsimp only <;> omega
  · split at h
    · rw [List.mem_singleton.mp h]
      refine ⟨rfl, ?_, ?_, ?_⟩ <;> dsimp only <;> omega
    · cases h

/-- The lexemes of stars stand apart. -/
theorem apart_stars (p k : Nat) : Apart (stars p k) := by
  refine List.pairwise_append.mpr ⟨?_, ?_, ?_⟩
  · rw [List.pairwise_map]
    exact List.pairwise_lt_range.imp fun h => by dsimp only; omega
  · split
    · exact List.pairwise_singleton _ _
    · exact .nil
  · intro x hx y hy
    obtain ⟨i, hi, rfl⟩ := List.mem_map.mp hx
    rw [List.mem_range] at hi
    split at hy
    · rw [List.mem_singleton.mp hy]
      dsimp only
      omega
    · cases hy

/-- Every star is covered. -/
theorem exists_mem_stars {p k i : Nat} (hi : p ≤ i) (hlt : i < p + k) :
    ∃ x ∈ stars p k, x.Covers i := by
  by_cases hpair : (i - p) / 2 < k / 2
  · refine ⟨_, List.mem_append_left _ (List.mem_map_of_mem (List.mem_range.mpr hpair)), ?_⟩
    constructor <;> dsimp only <;> omega
  · have hodd : k % 2 = 1 := by omega
    refine ⟨_, List.mem_append_right _ (by rw [if_pos hodd]; exact List.mem_singleton_self _), ?_⟩
    constructor <;> dsimp only <;> omega

/-! ## Lexemes that are due -/

/-- A character that is a token on its own belongs to no word, is not blank and is no star. -/
theorem isWordChar_of_mark? {c : Char} {kind : Token.Kind} (h : mark? c = some kind) :
    isWordChar c = false ∧ isBlank c = false ∧ c ≠ '*' := by
  unfold mark? at h
  split at h <;> first | decide | cases h

namespace Due

variable {cs : List Char} {x y : Lexeme}

/-- The token of a lexeme that is due has the position where its stretch starts. -/
theorem position_eq (h : Due cs x) : x.token.position = x.start := by
  cases h with
  | mark | word => rfl
  | star _ _ hx => exact (mem_stars hx).1

/-- The stretch of a lexeme is in the text and is not empty. -/
theorem bounds (h : Due cs x) : x.start < x.stop ∧ x.stop ≤ cs.length := by
  cases h with
  | mark hcs => simp [hcs]
  | star hcs _ hx =>
    obtain ⟨-, hstart, hlt, hstop⟩ := mem_stars hx
    simp only [hcs, List.length_append, List.length_replicate]
    omega
  | word hcs hrun =>
    have hpos := List.length_pos_iff.mpr hrun.ne_nil
    simp only [hcs, List.length_append]
    omega

/-- What a lexeme is, read off a character in it. -/
theorem cases_of_covers (h : Due cs x) {i : Nat} (hi : x.Covers i) :
    ∃ c, cs[i]? = some c ∧
      ((∃ kind, mark? c = some kind ∧ x = ⟨⟨kind, .text (String.singleton c), i⟩, i, i + 1⟩) ∨
      (c = '*' ∧ ∃ before k after, cs = before ++ (List.replicate k '*' ++ after) ∧
        IsRun (· == '*') before (List.replicate k '*') after ∧ x ∈ stars before.length k) ∨
      (isWordChar c = true ∧ ∃ before w after kind value, cs = before ++ (w ++ after) ∧
        IsRun isWordChar before w after ∧ ReadsWord w kind value ∧
        x = ⟨⟨kind, value, before.length⟩, before.length, before.length + w.length⟩)) := by
  cases h with
  | @mark before c after kind hcs hkind =>
    obtain rfl : i = before.length := by unfold Covers at hi; dsimp only at hi; omega
    exact ⟨c, by simp [hcs], .inl ⟨kind, hkind, rfl⟩⟩
  | star hcs hrun hx =>
    obtain ⟨-, hstart, -, hstop⟩ := mem_stars hx
    obtain ⟨hle, hlt⟩ := hi
    obtain ⟨c, hc, hget⟩ := exists_getElem?_of_run (i := i) hcs (by omega)
      (by rw [List.length_replicate]; omega)
    exact ⟨c, hget, .inr (.inl ⟨List.eq_of_mem_replicate hc, _, _, _, hcs, hrun, hx⟩)⟩
  | word hcs hrun hreads =>
    obtain ⟨c, hc, hget⟩ := exists_getElem?_of_run hcs hi.1 hi.2
    exact ⟨c, hget, .inr (.inr ⟨hrun.all c hc, _, _, _, _, _, hcs, hrun, hreads, rfl⟩)⟩

/-- What a lexeme covers is no blank character. -/
theorem isBlank_eq_false (h : Due cs x) {i : Nat} (hi : x.Covers i) {c : Char}
    (hc : cs[i]? = some c) : isBlank c = false := by
  obtain ⟨d, hd, hcases⟩ := h.cases_of_covers hi
  obtain rfl := Option.some.inj (hd.symm.trans hc)
  rcases hcases with ⟨kind, hkind, -⟩ | ⟨rfl, -⟩ | ⟨hword, -⟩
  · exact (isWordChar_of_mark? hkind).2.1
  · decide
  · exact isBlank_of_isWordChar hword

/-- Lexemes that are due do not overlap. -/
theorem eq_of_covers (hx : Due cs x) (hy : Due cs y) {i : Nat} (hxi : x.Covers i)
    (hyi : y.Covers i) : x = y := by
  obtain ⟨c, hc, hxc⟩ := hx.cases_of_covers hxi
  obtain ⟨d, hd, hyd⟩ := hy.cases_of_covers hyi
  obtain rfl := Option.some.inj (hc.symm.trans hd)
  rcases hxc with ⟨kind, hkind, rfl⟩ | ⟨rfl, before, k, after, hcs, hrun, hmem⟩ |
    ⟨hword, before, w, after, kind, value, hcs, hrun, hreads, rfl⟩
  · obtain ⟨hnot, -, hstar⟩ := isWordChar_of_mark? hkind
    rcases hyd with ⟨kind', hkind', rfl⟩ | ⟨rfl, -⟩ | ⟨hword, -⟩
    · obtain rfl := Option.some.inj (hkind.symm.trans hkind')
      rfl
    · exact absurd rfl hstar
    · exact absurd hword (by simp [hnot])
  · rcases hyd with ⟨kind', hkind', -⟩ | ⟨-, before', k', after', hcs', hrun', hmem'⟩ | ⟨hword, -⟩
    · cases hkind'
    · have hxs := mem_stars hmem
      have hys := mem_stars hmem'
      unfold Covers at hxi hyi
      obtain ⟨rfl, hk⟩ := hrun.eq_of_overlap hrun' hcs hcs' (i := i)
        (by rw [List.length_replicate]; omega) (by rw [List.length_replicate]; omega)
      obtain rfl : k = k' := by simpa using congrArg List.length hk
      exact (apart_stars _ _).eq_of_covers hmem hmem' hxi hyi
    · exact absurd hword (by decide)
  · rcases hyd with ⟨kind', hkind', -⟩ | ⟨rfl, -⟩ |
      ⟨-, before', w', after', kind', value', hcs', hrun', hreads', rfl⟩
    · exact absurd hword (by simp [(isWordChar_of_mark? hkind').1])
    · exact absurd hword (by decide)
    · obtain ⟨rfl, rfl⟩ := hrun.eq_of_overlap hrun' hcs hcs' hxi hyi
      obtain ⟨rfl, rfl⟩ := hreads.unique hreads'
      rfl

end Due

end Lexeme

/-! ## The scanner -/

namespace Token

/-- A blank is skipped. -/
theorem scanFrom_blank {c : Char} (h : isBlank c = true) (p : Nat) (cs : List Char) :
    scanFrom [] p (c :: cs) = scanFrom [] (p + 1) cs := by
  have hword : ¬isWordChar c = true := fun hw => by simp [isBlank_of_isWordChar hw] at h
  rw [scanFrom, if_neg hword]
  · dsimp only
    rw [if_pos h]
    rfl
  · rintro _ rfl _
    exact absurd h (by decide)

/-- A character that is a token on its own is scanned as this token. -/
theorem scanFrom_mark {c : Char} {kind : Kind} (h : Lexeme.mark? c = some kind) (p : Nat)
    (cs : List Char) :
    scanFrom [] p (c :: cs) = ⟨kind, .text (String.singleton c), p⟩ :: scanFrom [] (p + 1) cs := by
  unfold Lexeme.mark? at h
  split at h <;> cases h <;> rfl

/-- Stars are taken in pairs, up to the first other character. -/
theorem scanFrom_stars {rest : List Char} (hrest : ∀ c ∈ rest.head?, c ≠ '*') :
    ∀ k p, scanFrom [] p (List.replicate k '*' ++ rest) =
      (Lexeme.stars p k).map Lexeme.token ++ scanFrom [] (p + k) rest
  | 0, p => rfl
  | 1, p => by
    rw [List.replicate_one, List.singleton_append, scanFrom]
    · rfl
    · rintro cs - rfl
      exact hrest '*' rfl rfl
  | k + 2, p => by
    rw [List.replicate_succ, List.replicate_succ, List.cons_append, List.cons_append, scanFrom,
      scanFrom_stars hrest k (p + 2), Lexeme.stars_add_two, Nat.add_right_comm, ← Nat.add_assoc]
    rfl

/-- Every word is read as a number or an identifier. -/
theorem exists_readsWord (w : List Char) (p : Int) :
    ∃ kind value, Lexeme.ReadsWord w kind value ∧ ofWord w p = ⟨kind, value, p⟩ := by
  unfold ofWord
  split
  · rename_i d hd
    exact ⟨_, _, .number (Decimal.ofLiteral?_isSome_iff.mp (Option.isSome_of_eq_some hd))
      (Binary64.ofText?_of_ofLiteral? hd), rfl⟩
  · rename_i hnone
    refine ⟨_, _, .identifier fun h => ?_, rfl⟩
    rw [← Decimal.ofLiteral?_isSome_iff, hnone] at h
    cases h

end Token

namespace Lexeme

/-- Neither a word nor a run of stars goes on from the first text into the second. -/
def Parted (before rest : List Char) : Prop :=
  ∀ c ∈ before.getLast?, ∀ d ∈ rest.head?,
    ¬(isWordChar c = true ∧ isWordChar d = true) ∧ ¬(c = '*' ∧ d = '*')

/-- The lexemes are those of what follows `before` in a text: the scanner yields their tokens, they
are due, and they cover all that is not blank. -/
structure Cut (before rest : List Char) (xs : List Lexeme) : Prop where
  map_token : xs.map token = scanFrom [] before.length rest
  apart : Apart xs
  due : ∀ x ∈ xs, Due (before ++ rest) x
  start_le : ∀ x ∈ xs, before.length ≤ x.start
  covers : ∀ i c, before.length ≤ i → (before ++ rest)[i]? = some c → isBlank c = false →
    ∃ x ∈ xs, x.Covers i

/-- The end of a text is cut into no lexemes. -/
theorem cut_nil (before : List Char) : Cut before [] [] where
  map_token := rfl
  apart := List.Pairwise.nil
  due _ hx := absurd hx List.not_mem_nil
  start_le _ hx := absurd hx List.not_mem_nil
  covers i c hi hc := by
    rw [List.append_nil, List.getElem?_eq_none hi] at hc
    cases hc

/-- The lexemes of a piece of the text come in front of those of what follows it. -/
theorem Cut.append {before u rest : List Char} {xs : List Lexeme} (h : Cut (before ++ u) rest xs)
    (ys : List Lexeme)
    (htokens : scanFrom [] before.length (u ++ rest) =
      ys.map token ++ scanFrom [] (before.length + u.length) rest)
    (hapart : Apart ys) (hdue : ∀ y ∈ ys, Due (before ++ (u ++ rest)) y)
    (hwithin : ∀ y ∈ ys, before.length ≤ y.start ∧ y.stop ≤ before.length + u.length)
    (hcovers : ∀ i c, before.length ≤ i → i < before.length + u.length →
      (before ++ (u ++ rest))[i]? = some c → isBlank c = false → ∃ y ∈ ys, y.Covers i) :
    Cut before (u ++ rest) (ys ++ xs) where
  map_token := by
    rw [List.map_append, h.map_token, htokens, List.length_append]
  apart := by
    refine List.pairwise_append.mpr ⟨hapart, h.apart, fun y hy x hx => ?_⟩
    have hstart := h.start_le x hx
    rw [List.length_append] at hstart
    exact (hwithin y hy).2.trans hstart
  due x hx := by
    rcases List.mem_append.mp hx with hx | hx
    · exact hdue x hx
    · rw [← List.append_assoc]
      exact h.due x hx
  start_le x hx := by
    rcases List.mem_append.mp hx with hx | hx
    · exact (hwithin x hx).1
    · have hstart := h.start_le x hx
      rw [List.length_append] at hstart
      omega
  covers i c hi hc hblank := by
    by_cases hlt : i < before.length + u.length
    · obtain ⟨y, hy, hyi⟩ := hcovers i c hi hlt hc hblank
      exact ⟨y, List.mem_append_left _ hy, hyi⟩
    · rw [← List.append_assoc] at hc
      obtain ⟨x, hx, hxi⟩ := h.covers i c (by rw [List.length_append]; omega) hc hblank
      exact ⟨x, List.mem_append_right _ hx, hxi⟩

/-- A blank in front of a cut text adds no lexeme. -/
theorem Cut.blank {before rest : List Char} {c : Char} {xs : List Lexeme}
    (h : Cut (before ++ [c]) rest xs) (hc : isBlank c = true) : Cut before (c :: rest) xs := by
  refine h.append [] (scanFrom_blank hc _ rest) List.Pairwise.nil
    (fun _ hy => absurd hy List.not_mem_nil) (fun _ hy => absurd hy List.not_mem_nil) ?_
  intro i d hi hlt hd hblank
  obtain rfl : i = before.length := by rw [List.length_singleton] at hlt; omega
  simp only [List.singleton_append, List.getElem?_append_right hi, Nat.sub_self,
    List.getElem?_cons_zero, Option.some.injEq] at hd
  rw [← hd, hc] at hblank
  cases hblank

/-- A character in front of a cut text that is a token on its own adds its lexeme. -/
theorem Cut.mark {before rest : List Char} {c : Char} {xs : List Lexeme}
    (h : Cut (before ++ [c]) rest xs) {kind : Token.Kind} (hc : mark? c = some kind) :
    ∃ ys, Cut before (c :: rest) ys := by
  let y : Lexeme :=
    ⟨⟨kind, .text (String.singleton c), before.length⟩, before.length, before.length + 1⟩
  refine ⟨[y] ++ xs, h.append [y] (scanFrom_mark hc _ rest) (List.pairwise_singleton _ _) ?_ ?_ ?_⟩
  · intro x hx
    rw [List.mem_singleton.mp hx]
    exact .mark rfl hc
  · intro x hx
    rw [List.mem_singleton.mp hx]
    exact ⟨Nat.le_refl _, Nat.le_refl _⟩
  · exact fun i d hi hlt _ _ => ⟨y, List.mem_singleton_self y, hi, hlt⟩

/-- A run of stars in front of a cut text adds its lexemes. -/
theorem Cut.star {before rest : List Char} {k : Nat} {xs : List Lexeme}
    (h : Cut (before ++ List.replicate k '*') rest xs)
    (hrun : IsRun (· == '*') before (List.replicate k '*') rest) :
    ∃ ys, Cut before (List.replicate k '*' ++ rest) ys := by
  refine ⟨_, h.append (stars before.length k) ?_ (apart_stars _ _)
    (fun y hy => .star rfl hrun hy) (fun y hy => ?_) ?_⟩
  · rw [scanFrom_stars (fun c hc heq => ?_), List.length_replicate]
    have hnot := hrun.right c hc
    simp [heq] at hnot
  · obtain ⟨-, hstart, -, hstop⟩ := mem_stars hy
    rw [List.length_replicate]
    exact ⟨hstart, hstop⟩
  · intro i c hi hlt _ _
    rw [List.length_replicate] at hlt
    exact exists_mem_stars hi hlt

/-- A word in front of a cut text adds its lexeme. -/
theorem Cut.word {before w rest : List Char} {xs : List Lexeme} (h : Cut (before ++ w) rest xs)
    (hrun : IsRun isWordChar before w rest) : ∃ ys, Cut before (w ++ rest) ys := by
  obtain ⟨kind, value, hreads, htoken⟩ := exists_readsWord w before.length
  let y : Lexeme := ⟨⟨kind, value, before.length⟩, before.length, before.length + w.length⟩
  refine ⟨[y] ++ xs, h.append [y] ?_ (List.pairwise_singleton _ _) ?_ ?_ ?_⟩
  · rw [scanFrom_word hrun.ne_nil hrun.all hrun.right, htoken]
    rfl
  · intro x hx
    rw [List.mem_singleton.mp hx]
    exact .word rfl hrun hreads
  · intro x hx
    rw [List.mem_singleton.mp hx]
    exact ⟨Nat.le_refl _, Nat.le_refl _⟩
  · exact fun i d hi hlt _ _ => ⟨y, List.mem_singleton_self y, hi, hlt⟩

/-- A run behind the place where a text is parted does not begin before it. -/
theorem Parted.left {before u rest : List Char} {p : Char → Bool} (h : Parted before (u ++ rest))
    (hne : u ≠ []) (hu : ∀ c ∈ u, p c = true)
    (hp : (∀ c, p c = true → isWordChar c = true) ∨ ∀ c, p c = true → c = '*') :
    ∀ c ∈ before.getLast?, p c = false := by
  obtain ⟨d, u, rfl⟩ := List.exists_cons_of_ne_nil hne
  intro c hc
  obtain ⟨hword, hstar⟩ := h c hc d rfl
  have hd := hu d List.mem_cons_self
  by_contra hpc
  rw [Bool.not_eq_false] at hpc
  rcases hp with hp | hp
  · exact hword ⟨hp c hpc, hp d hd⟩
  · exact hstar ⟨hp c hpc, hp d hd⟩

/-- A text is parted where it ends with a character that is of no word and no star, or where what
follows begins with none of the kind it ends with. -/
theorem parted_append {before u rest : List Char} (hne : u ≠ [])
    (h : ∀ c ∈ u, ∀ d ∈ rest.head?,
      ¬(isWordChar c = true ∧ isWordChar d = true) ∧ ¬(c = '*' ∧ d = '*')) :
    Parted (before ++ u) rest := by
  intro c hc
  rw [List.getLast?_append_of_ne_nil _ hne] at hc
  exact h c (List.mem_of_getLast? hc)

/-- The characters of a kind at the front of a text, and a rest that begins with none. -/
theorem exists_front {p : Char → Bool} {c : Char} (hc : p c = true) (cs : List Char) :
    ∃ u rest, c :: cs = u ++ rest ∧ u ≠ [] ∧ (∀ d ∈ u, p d = true) ∧
      ∀ d ∈ rest.head?, p d = false := by
  refine ⟨(c :: cs).takeWhile p, (c :: cs).dropWhile p, List.takeWhile_append_dropWhile.symm, ?_,
    fun _ hd => List.mem_takeWhile_imp hd, fun d hd => ?_⟩
  · rw [List.takeWhile_cons_of_pos hc]
    exact List.cons_ne_nil _ _
  · have hnot := List.head?_dropWhile_not p (c :: cs)
    rwa [Option.mem_def.mp hd] at hnot

/-- A character that is neither blank nor a mark nor a star is one of a word. -/
theorem isWordChar_of_mark?_eq_none {c : Char} (hblank : isBlank c = false) (hmark : mark? c = none)
    (hstar : c ≠ '*') : isWordChar c = true := by
  have hne : ∀ d ∈ ['(', ')', '+', '-', '/', '^'], c ≠ d := by
    rintro d hd rfl
    simp only [List.mem_cons, List.not_mem_nil, or_false] at hd
    rcases hd with rfl | rfl | rfl | rfl | rfl | rfl <;> cases hmark
  simp only [List.mem_cons, List.not_mem_nil, or_false, forall_eq_or_imp, forall_eq] at hne
  simp [isWordChar, isOperatorChar, hblank, hstar, hne]

/-- The tokens of what follows a text, if neither a word nor a run of stars goes on there, are those
of lexemes that are due. -/
theorem exists_cut (before rest : List Char) (h : Parted before rest) :
    ∃ xs, Cut before rest xs := by
  induction hn : rest.length using Nat.strong_induction_on generalizing before rest with
  | _ n ih =>
    cases rest with
    | nil => exact ⟨[], cut_nil before⟩
    | cons c cs =>
      -- what follows the first lexeme, or the first blank character, is cut by induction
      have next {u rest} (hne : u ≠ []) (hsplit : c :: cs = u ++ rest)
          (hparted : ∀ d ∈ u, ∀ e ∈ rest.head?,
            ¬(isWordChar d = true ∧ isWordChar e = true) ∧ ¬(d = '*' ∧ e = '*')) :
          ∃ xs, Cut (before ++ u) rest xs := by
        have hpos := List.length_pos_iff.mpr hne
        refine ih rest.length ?_ _ _ (parted_append hne hparted) rfl
        rw [← hn, hsplit, List.length_append]
        omega
      by_cases hblank : isBlank c = true
      · obtain ⟨xs, hxs⟩ := next (u := [c]) (List.cons_ne_nil _ _) rfl fun d hd e _ => by
          rw [List.mem_singleton.mp hd]
          exact ⟨fun hword => by simp [isBlank_of_isWordChar hword.1] at hblank,
            fun hstar => by simp [hstar.1, show isBlank '*' = false from rfl] at hblank⟩
        exact ⟨xs, hxs.blank hblank⟩
      rw [Bool.not_eq_true] at hblank
      cases hmark : mark? c with
      | some kind =>
        obtain ⟨hnot, -, hstar⟩ := isWordChar_of_mark? hmark
        obtain ⟨xs, hxs⟩ := next (u := [c]) (List.cons_ne_nil _ _) rfl fun d hd e _ => by
          rw [List.mem_singleton.mp hd]
          exact ⟨fun hword => by simp [hnot] at hword, fun heq => hstar heq.1⟩
        exact hxs.mark hmark
      | none =>
        by_cases hstar : c = '*'
        · obtain ⟨u, rest, hsplit, hne, hu, hrest⟩ :=
            exists_front (p := (· == '*')) (beq_iff_eq.mpr hstar) cs
          obtain ⟨k, rfl⟩ : ∃ k, u = List.replicate k '*' :=
            ⟨_, List.eq_replicate_iff.mpr ⟨rfl, fun d hd => beq_iff_eq.mp (hu d hd)⟩⟩
          rw [hsplit] at h ⊢
          obtain ⟨xs, hxs⟩ := next hne hsplit fun d hd e he => by
            have he' := hrest e he
            rw [List.eq_of_mem_replicate hd]
            exact ⟨fun hword => absurd hword.1 (by decide), fun heq => by simp [heq.2] at he'⟩
          exact hxs.star ⟨hne, hu, h.left hne hu (.inr fun d hd => beq_iff_eq.mp hd), hrest⟩
        · have hword := isWordChar_of_mark?_eq_none hblank hmark hstar
          obtain ⟨w, rest, hsplit, hne, hw, hrest⟩ := exists_front hword cs
          rw [hsplit] at h ⊢
          obtain ⟨xs, hxs⟩ := next hne hsplit fun d hd e he => by
            have he' := hrest e he
            refine ⟨fun hboth => by simp [he'] at hboth, fun heq => ?_⟩
            rw [heq.1] at hd
            exact absurd (hw _ hd) (by decide)
          exact hxs.word ⟨hne, hw, h.left hne hw (.inl fun d hd => hd), hrest⟩

/-! ## The segmentation -/

/-- The lexemes of a segmentation are those that are due. -/
theorem Segments.mem_iff {cs : List Char} {xs : List Lexeme} (h : Segments cs xs) {x : Lexeme} :
    x ∈ xs ↔ Due cs x := by
  refine ⟨fun hx => ?_, h.due x⟩
  obtain ⟨hlt, hstop⟩ := h.bounds x hx
  have hstart : x.start < cs.length := by omega
  have hcover : x.Covers x.start := ⟨Nat.le_refl _, hlt⟩
  have hsplit : cs = cs.take x.start ++ cs[x.start] :: cs.drop (x.start + 1) := by
    rw [← List.drop_eq_getElem_cons, List.take_append_drop]
  have hlen : (cs.take x.start).length = x.start := by rw [List.length_take]; omega
  have hblank : isBlank cs[x.start] = false :=
    (h.covers_iff hsplit).mp ⟨x, hx, by rwa [hlen]⟩
  obtain ⟨ys, hys⟩ := exists_cut [] cs (fun c hc => absurd hc (by simp))
  obtain ⟨y, hy, hycover⟩ := hys.covers x.start _ (Nat.zero_le _)
    (List.getElem?_eq_getElem hstart) hblank
  have hdue := hys.due y hy
  rwa [h.apart.eq_of_covers hx (h.due y hdue) hcover hycover]

/-- What the scanner yields is a segmentation. -/
theorem Cut.segments {cs : List Char} {xs : List Lexeme} (h : Cut [] cs xs) : Segments cs xs where
  position_eq x hx := (h.due x hx).position_eq
  bounds x hx := (h.due x hx).bounds
  apart := h.apart
  covers_iff {before c after} hcs := by
    have hget : cs[before.length]? = some c := by simp [hcs]
    exact ⟨fun ⟨x, hx, hi⟩ => (h.due x hx).isBlank_eq_false hi hget,
      fun hblank => h.covers _ c (Nat.zero_le _) hget hblank⟩
  due x hx := by
    obtain ⟨hlt, hstop⟩ := hx.bounds
    have hcover : x.Covers x.start := ⟨Nat.le_refl _, hlt⟩
    have hget := List.getElem?_eq_getElem (l := cs) (i := x.start) (by omega)
    obtain ⟨y, hy, hycover⟩ := h.covers x.start _ (Nat.zero_le _) hget
      (hx.isBlank_eq_false hcover hget)
    rwa [hx.eq_of_covers (h.due y hy) hcover hycover]

/-- The stretches of a segmentation begin one after the other. -/
theorem Segments.pairwise_start {cs : List Char} {xs : List Lexeme} (h : Segments cs xs) :
    xs.Pairwise fun x y => x.start < y.start :=
  h.apart.imp_of_mem fun hx _ hle => (h.bounds _ hx).1.trans_le hle

/-- A text has one segmentation by the rules of scanning, and the tokens of the scanner are those of
its lexemes. -/
theorem exists_segments (s : String) :
    ∃ xs, (Segments s.toList xs ∧ ∀ ys, Segments s.toList ys → ys = xs) ∧
      Token.scan s = xs.map token := by
  obtain ⟨xs, hxs⟩ := exists_cut [] s.toList (fun c hc => absurd hc (by simp))
  refine ⟨xs, ⟨hxs.segments, fun ys hys => ?_⟩, hxs.map_token.symm⟩
  have : Std.Irrefl fun x y : Lexeme => x.start < y.start := ⟨fun x => Nat.lt_irrefl x.start⟩
  have : Std.Antisymm fun x y : Lexeme => x.start < y.start :=
    ⟨fun x y hxy hyx => absurd hxy (Nat.lt_asymm hyx)⟩
  exact hys.pairwise_start.eq_of_mem_iff hxs.segments.pairwise_start
    fun x => hys.mem_iff.trans hxs.segments.mem_iff.symm

end Lexeme

end FormulaBook
