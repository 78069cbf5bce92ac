import FormulaBook.Json.Reader
import Mathlib.Data.List.Basic

/-!
# Reading what a JSON text says

A JSON text of a value without numbers and constants is made of structural characters and strings,
with white space between them as one likes (`Json.IsTextOf`). In a string every character may stand
for itself, unless it is a quote, a backslash or a control character, and everything may be escaped:
with a letter where there is one, or with the hexadecimal digits of its code, of two codes beyond
the first 65536 (`Json.SpellsPoints`). All texts of a value are read as that value, with the keys
of its objects merged (`Json.read?_of_isTextOf`), and what the library writes is one of them
(`Json.isTextOf_text`).
-/

namespace FormulaBook.Json

/-! ## Strings -/

/-- The code points of a content. One that is no text has a surrogate among them. -/
inductive Content.HasPoints : Content → List Nat → Prop
  | text (s : String) : HasPoints (.text s) (s.toList.map Char.toNat)
  | broken {points} : (∃ n ∈ points, isSurrogate n = true) → HasPoints (.broken points) points

/-- The letters of escapes, with the characters they stand for. -/
def escapes : List (Char × Char) :=
  [('"', '"'), ('\\', '\\'), ('/', '/'), ('b', '\x08'), ('f', '\x0c'), ('n', '\n'), ('r', '\r'),
    ('t', '\t')]

/-- A character is the hexadecimal digit with the given value, in either case. -/
def IsHexDigit (c : Char) (v : Nat) : Prop :=
  v < 16 ∧ (c = Nat.digitChar v ∨ c = (Nat.digitChar v).toUpper)

/-- The escape of a code by its four hexadecimal digits. -/
inductive SpellsCode : Nat → List Char → Prop
  | digits {a b c d p q r s} : IsHexDigit a p → IsHexDigit b q → IsHexDigit c r → IsHexDigit d s →
      SpellsCode (16 * (16 * (16 * p + q) + r) + s) ['\\', 'u', a, b, c, d]

/-- What may stand between the quotes of a string with the given code points. -/
inductive SpellsPoints : List Nat → List Char → Prop
  | nil : SpellsPoints [] []
  | char {c points cs} : 0x20 ≤ c.toNat → c ≠ '"' → c ≠ '\\' → SpellsPoints points cs →
      SpellsPoints (c.toNat :: points) (c :: cs)
  | escape {c d points cs} : (c, d) ∈ escapes → SpellsPoints points cs →
      SpellsPoints (d.toNat :: points) ('\\' :: c :: cs)
  | code {n u points cs} : SpellsCode n u →
      (isHighSurrogate n = true → ∀ m ∈ points.head?, isLowSurrogate m = false) →
      SpellsPoints points cs → SpellsPoints (n :: points) (u ++ cs)
  | pair {m n u v points cs} : SpellsCode m u → SpellsCode n v → isHighSurrogate m = true →
      isLowSurrogate n = true → SpellsPoints points cs →
      SpellsPoints ((0x10000 + (m - 0xD800) * 0x400 + (n - 0xDC00)) :: points) (u ++ (v ++ cs))

/-- No character is half of a surrogate pair. -/
theorem isSurrogate_toNat (c : Char) : isSurrogate c.toNat = false := by
  have hvalid : c.toNat < 0xD800 ∨ 0xDFFF < c.toNat ∧ c.toNat < 0x110000 := c.valid
  rw [isSurrogate, isHighSurrogate, isLowSurrogate, Bool.eq_false_iff]
  simp only [ne_eq, Bool.or_eq_true, Bool.and_eq_true, decide_eq_true_eq]
  omega

/-- Codes that are joined to the code points of a content make that content. -/
theorem Content.HasPoints.ofCodes {s : Content} {codes points : List Nat} (h : s.HasPoints points)
    (hjoin : joinPairs codes = points) : ofCodes codes = s := by
  rw [Content.ofCodes, hjoin]
  cases h with
  | text s =>
    have hnone : ¬(s.toList.map Char.toNat).any isSurrogate = true := by
      simp [isSurrogate_toNat]
    rw [if_neg hnone]
    simp [Function.comp_def]
  | broken hsurrogate =>
    rw [if_pos (List.any_eq_true.mpr hsurrogate)]

/-- A hexadecimal digit is read as its value. -/
theorem hexDigit?_of_isHexDigit {c : Char} {v : Nat} (h : IsHexDigit c v) :
    hexDigit? c = some v := by
  have hdigits : ∀ v < 16, hexDigit? (Nat.digitChar v) = some v ∧
      hexDigit? (Nat.digitChar v).toUpper = some v := by decide
  obtain ⟨hv, rfl | rfl⟩ := h
  · exact (hdigits v hv).1
  · exact (hdigits v hv).2

/-- A hexadecimal digit is added to the code, which ends with the fourth one. -/
theorem scanFrom_hex {c : Char} {d : Nat} (h : IsHexDigit c d) (codes : List Nat)
    (value count : Nat) (cs : List Char) :
    scanFrom (.hex codes value count) (c :: cs) =
      if count = 3 then scanFrom (.string ((16 * value + d) :: codes)) cs
      else scanFrom (.hex codes (16 * value + d) (count + 1)) cs := by
  rw [scanFrom, hexDigit?_of_isHexDigit h]

/-- The escape of a code is scanned as the code. -/
theorem scanFrom_code {n : Nat} {u : List Char} (h : SpellsCode n u) (codes : List Nat)
    (rest : List Char) :
    scanFrom (.string codes) (u ++ rest) = scanFrom (.string (n :: codes)) rest := by
  cases h with
  | @digits a b c d p q r s ha hb hc hd =>
    show scanFrom (.hex codes 0 0) (a :: b :: c :: d :: rest) = _
    rw [scanFrom_hex ha, if_neg (by decide), scanFrom_hex hb, if_neg (by decide), scanFrom_hex hc,
      if_neg (by decide), scanFrom_hex hd, if_pos rfl, Nat.mul_zero, Nat.zero_add]

/-- An escape by a letter is scanned as the character it stands for. -/
theorem scanFrom_escape {c d : Char} (h : (c, d) ∈ escapes) (codes : List Nat) (rest : List Char) :
    scanFrom (.string codes) ('\\' :: c :: rest) = scanFrom (.string (d.toNat :: codes)) rest := by
  simp only [escapes, List.mem_cons, Prod.mk.injEq, List.not_mem_nil, or_false] at h
  rcases h with ⟨rfl, rfl⟩ | ⟨rfl, rfl⟩ | ⟨rfl, rfl⟩ | ⟨rfl, rfl⟩ | ⟨rfl, rfl⟩ | ⟨rfl, rfl⟩ |
    ⟨rfl, rfl⟩ | ⟨rfl, rfl⟩ <;> rfl

/-- A code that is no first half of a pair stands for itself. -/
theorem joinCode_of_not_high {n : Nat} (h : isHighSurrogate n = false) (points : List Nat) :
    Content.joinCode n points = n :: points := by
  cases points with
  | nil => rfl
  | cons m points => simp [Content.joinCode, h]

/-- No character is the first half of a surrogate pair. -/
theorem isHighSurrogate_toNat (c : Char) : isHighSurrogate c.toNat = false :=
  (Bool.or_eq_false_iff.mp (isSurrogate_toNat c)).1

/-- The codes of a string that is scanned are joined to the code points it spells. -/
theorem exists_codes {points : List Nat} {body : List Char} (h : SpellsPoints points body) :
    ∃ codes, Content.joinPairs codes = points ∧ ∀ read rest,
      scanFrom (.string read) (body ++ rest) = scanFrom (.string (codes.reverse ++ read)) rest := by
  induction h with
  | nil => exact ⟨[], rfl, fun read rest => rfl⟩
  | @char c points cs hle hquote hslash _ ih =>
    obtain ⟨codes, rfl, hscan⟩ := ih
    refine ⟨c.toNat :: codes, joinCode_of_not_high (isHighSurrogate_toNat c) _, fun read rest => ?_⟩
    rw [List.cons_append, scanFrom, if_neg hquote, if_neg hslash, if_neg (by omega), hscan,
      List.reverse_cons, List.append_assoc, List.singleton_append]
  | @escape c d points cs hescape _ ih =>
    obtain ⟨codes, rfl, hscan⟩ := ih
    refine ⟨d.toNat :: codes, joinCode_of_not_high (isHighSurrogate_toNat d) _, fun read rest => ?_⟩
    rw [List.cons_append, List.cons_append, scanFrom_escape hescape, hscan, List.reverse_cons,
      List.append_assoc, List.singleton_append]
  | @code n u points cs hcode hapart _ ih =>
    obtain ⟨codes, rfl, hscan⟩ := ih
    refine ⟨n :: codes, ?_, fun read rest => ?_⟩
    · show Content.joinCode n (Content.joinPairs codes) = _
      cases hpoints : Content.joinPairs codes with
      | nil => rfl
      | cons m points =>
        cases hhigh : isHighSurrogate n with
        | false => exact joinCode_of_not_high hhigh _
        | true =>
          have hlow := hapart hhigh m (by rw [hpoints]; rfl)
          simp [Content.joinCode, hlow]
    · rw [List.append_assoc, scanFrom_code hcode, hscan, List.reverse_cons, List.append_assoc,
        List.singleton_append]
  | @pair m n u v points cs hm hn hhigh hlow _ ih =>
    obtain ⟨codes, rfl, hscan⟩ := ih
    have hnot : isHighSurrogate n = false := by
      rw [isHighSurrogate, Bool.eq_false_iff]
      simp only [isLowSurrogate, Bool.and_eq_true, decide_eq_true_eq] at hlow
      simp only [ne_eq, Bool.and_eq_true, decide_eq_true_eq]
      omega
    refine ⟨m :: n :: codes, ?_, fun read rest => ?_⟩
    · show Content.joinCode m (Content.joinCode n (Content.joinPairs codes)) = _
      rw [joinCode_of_not_high hnot]
      simp [Content.joinCode, hhigh, hlow]
    · rw [List.append_assoc, List.append_assoc, scanFrom_code hm, scanFrom_code hn, hscan]
      simp

/-! ## Texts -/

/-- The structural characters. -/
def marks : List (Char × Token) :=
  [('[', .openArray), (']', .closeArray), ('\x7b', .openObject), ('\x7d', .closeObject),
    (',', .comma), (':', .colon)]

/-- Structural characters and strings, with white space in front, between and behind. -/
inductive Spelled : List Token → List Char → Prop
  | nil : Spelled [] []
  | space {c ts cs} : c ∈ [' ', '\t', '\n', '\r'] → Spelled ts cs → Spelled ts (c :: cs)
  | mark {c t ts cs} : (c, t) ∈ marks → Spelled ts cs → Spelled (t :: ts) (c :: cs)
  | string {s points body ts cs} : s.HasPoints points → SpellsPoints points body → Spelled ts cs →
      Spelled (.string s :: ts) ('"' :: body ++ '"' :: cs)

/-- The scanner finds the tokens that a text spells. -/
theorem scanFrom_spelled {ts : List Token} {cs : List Char} (h : Spelled ts cs) :
    scanFrom .between cs = some ts := by
  induction h with
  | nil => rfl
  | space hc _ ih =>
    simp only [List.mem_cons, List.not_mem_nil, or_false] at hc
    rcases hc with rfl | rfl | rfl | rfl <;> exact ih
  | @mark c t ts cs hc _ ih =>
    have hscan : scanFrom .between (c :: cs) = (scanFrom .between cs).map (t :: ·) := by
      simp only [marks, List.mem_cons, Prod.mk.injEq, List.not_mem_nil, or_false] at hc
      rcases hc with ⟨rfl, rfl⟩ | ⟨rfl, rfl⟩ | ⟨rfl, rfl⟩ | ⟨rfl, rfl⟩ | ⟨rfl, rfl⟩ | ⟨rfl, rfl⟩ <;>
        rfl
    rw [hscan, ih]
    rfl
  | @string s points body ts cs hs hbody _ ih =>
    obtain ⟨codes, hjoin, hscan⟩ := exists_codes hbody
    rw [List.cons_append, scanFrom, if_pos rfl, hscan, scanFrom, if_pos rfl, ih, ofString,
      List.append_nil, List.reverse_reverse, hs.ofCodes hjoin]
    rfl

mutual

/-- The tokens of a value. -/
def tokens : Json → List Token
  | .string s => [.string s]
  | .array [] => [.openArray, .closeArray]
  | .array (j :: js) => .openArray :: tokens j ++ itemTokens js
  | .object [] => [.openObject, .closeObject]
  | .object ((key, j) :: fields) =>
    .openObject :: .string key :: .colon :: tokens j ++ fieldTokens fields
  | j => [.scalar j]

/-- The tokens of the items of an array after the first. -/
def itemTokens : List Json → List Token
  | [] => [.closeArray]
  | j :: js => .comma :: tokens j ++ itemTokens js

/-- The tokens of the fields of an object after the first. -/
def fieldTokens : List (Content × Json) → List Token
  | [] => [.closeObject]
  | (key, j) :: fields => .comma :: .string key :: .colon :: tokens j ++ fieldTokens fields

end

mutual

/-- The value in which every object has a key only once, at its first place with its last value. -/
def merged : Json → Json
  | .array items => .array (mergedItems items)
  | .object fields => .object (mergedFields [] fields)
  | j => j

/-- The items with their keys merged. -/
def mergedItems : List Json → List Json
  | [] => []
  | j :: js => merged j :: mergedItems js

/-- The fields of an object, merged one after the other into those before them. -/
def mergedFields (before : List (Content × Json)) : List (Content × Json) → List (Content × Json)
  | [] => before
  | (key, j) :: fields => mergedFields (Keyed.put key (merged j) before) fields

end

/-- The text is one of the value. -/
def IsTextOf (j : Json) (s : String) : Prop := Spelled (tokens j) s.toList

/-- A token that is accepted is read, and the rest from the state behind it. -/
theorem run?_cons {s s' : State} {t : Token} (h : s.step t = some s') (ts : List Token) :
    run? s (t :: ts) = run? s' ts := by
  rw [run?, h]
  rfl

/-- Whether more tokens can follow does not depend on anything but the state that is reached. -/
theorem run?_cons_congr {s s' : State} {t : Token} (h : s.step t = s'.step t) (ts : List Token) :
    run? s (t :: ts) = run? s' (t :: ts) := by
  rw [run?, run?, h]

/-- At the start of an array a value is read as elsewhere. -/
theorem run?_firstItem (frames : List Frame) (ts : List Token) : ∀ j : Json,
    run? (.firstItem frames) (tokens j ++ ts) = run? (.value (.array [] :: frames)) (tokens j ++ ts)
  | .null | .bool _ | .number _ | .string _ | .array [] | .array (_ :: _) | .object []
  | .object (_ :: _) => run?_cons_congr rfl _

mutual

/-- The tokens of a value are read as that value. -/
theorem run?_tokens : ∀ (j : Json) (frames : List Frame) (ts : List Token),
    run? (.value frames) (tokens j ++ ts) = run? (.after (merged j) frames) ts
  | .null, frames, ts => run?_cons rfl ts
  | .bool _, frames, ts => run?_cons rfl ts
  | .number _, frames, ts => run?_cons rfl ts
  | .string _, frames, ts => run?_cons rfl ts
  | .array [], frames, ts => (run?_cons rfl _).trans (run?_cons rfl ts)
  | .array (j :: js), frames, ts => by
    simp only [tokens, List.cons_append, List.append_assoc]
    rw [run?_cons rfl, run?_firstItem, run?_tokens j, run?_itemTokens js]
    rfl
  | .object [], frames, ts => (run?_cons rfl _).trans (run?_cons rfl ts)
  | .object ((key, j) :: fields), frames, ts => by
    simp only [tokens, List.cons_append, List.append_assoc]
    rw [run?_cons rfl, run?_cons rfl, run?_cons rfl, run?_tokens j, run?_fieldTokens fields]
    rfl

/-- The further items of an array are read behind those it has. -/
theorem run?_itemTokens : ∀ (js : List Json) (j : Json) (before : List Json) (frames : List Frame)
    (ts : List Token),
    run? (.after j (.array before :: frames)) (itemTokens js ++ ts) =
      run? (.after (.array (before ++ j :: mergedItems js)) frames) ts
  | [], j, before, frames, ts => run?_cons rfl ts
  | j' :: js, j, before, frames, ts => by
    simp only [itemTokens, List.cons_append, List.append_assoc]
    rw [run?_cons rfl, run?_tokens j', run?_itemTokens js, List.append_assoc]
    rfl

/-- The further fields of an object are merged into those it has. -/
theorem run?_fieldTokens : ∀ (fields : List (Content × Json)) (j : Json) (key : Content)
    (before : List (Content × Json)) (frames : List Frame) (ts : List Token),
    run? (.after j (.object before key :: frames)) (fieldTokens fields ++ ts) =
      run? (.after (.object (mergedFields (Keyed.put key j before) fields)) frames) ts
  | [], j, key, before, frames, ts => run?_cons rfl ts
  | (key', j') :: fields, j, key, before, frames, ts => by
    simp only [fieldTokens, List.cons_append, List.append_assoc]
    rw [run?_cons rfl, run?_cons rfl, run?_cons rfl, run?_tokens j', run?_fieldTokens fields]
    rfl

end

/-- Every text of a value is read as that value. -/
theorem read?_of_isTextOf {j : Json} {s : String} (h : j.IsTextOf s) : read? s = some j.merged := by
  have hrun := run?_tokens j [] []
  rw [List.append_nil] at hrun
  rw [read?, scan?, scanFrom_spelled h]
  exact hrun

/-! ## What is written -/

/-- The token is written as it is. A content that is no text is not, as it can only be shown, and
words are left aside. -/
def Token.IsWritable : Token → Prop
  | .string s => ∃ u : String, s = .text u
  | .scalar _ => False
  | _ => True

/-- A value that is written as it is: its strings are texts, and it has no number or constant. -/
def IsWritable (j : Json) : Prop := ∀ t ∈ tokens j, t.IsWritable

/-- A text is written as it is. -/
theorem isWritable_string (s : String) : IsWritable (.string (.text s)) := by
  rw [IsWritable, tokens, List.forall_mem_singleton]
  exact ⟨s, rfl⟩

/-- The tokens of writable items are writable. -/
theorem isWritable_itemTokens : ∀ {js : List Json}, (∀ j ∈ js, IsWritable j) →
    ∀ t ∈ itemTokens js, t.IsWritable
  | [], _ => by
    rw [itemTokens, List.forall_mem_singleton]
    trivial
  | j :: js, h => by
    rw [List.forall_mem_cons] at h
    rw [itemTokens, List.forall_mem_append, List.forall_mem_cons]
    exact ⟨⟨trivial, h.1⟩, isWritable_itemTokens h.2⟩

/-- An array of writable items is writable. -/
theorem isWritable_array {js : List Json} (h : ∀ j ∈ js, IsWritable j) :
    IsWritable (.array js) := by
  cases js with
  | nil =>
    rw [IsWritable, tokens, List.forall_mem_cons, List.forall_mem_singleton]
    exact ⟨trivial, trivial⟩
  | cons j js =>
    rw [List.forall_mem_cons] at h
    rw [IsWritable, tokens, List.forall_mem_append, List.forall_mem_cons]
    exact ⟨⟨trivial, h.1⟩, isWritable_itemTokens h.2⟩

/-- The tokens of writable fields under texts are writable. -/
theorem isWritable_fieldTokens : ∀ {fields : List (Content × Json)},
    (∀ f ∈ fields, (∃ key : String, f.1 = .text key) ∧ f.2.IsWritable) →
    ∀ t ∈ fieldTokens fields, t.IsWritable
  | [], _ => by
    rw [fieldTokens, List.forall_mem_singleton]
    trivial
  | (_, j) :: fields, h => by
    rw [List.forall_mem_cons] at h
    obtain ⟨⟨⟨key, rfl⟩, hj⟩, hfields⟩ := h
    simp only [fieldTokens, List.forall_mem_append, List.forall_mem_cons]
    exact ⟨⟨trivial, ⟨key, rfl⟩, trivial, hj⟩,
      isWritable_fieldTokens hfields⟩

/-- An object of writable fields under texts is writable. -/
theorem isWritable_object {fields : List (Content × Json)}
    (h : ∀ f ∈ fields, (∃ key : String, f.1 = .text key) ∧ f.2.IsWritable) :
    IsWritable (.object fields) := by
  cases fields with
  | nil =>
    rw [IsWritable, tokens, List.forall_mem_cons, List.forall_mem_singleton]
    exact ⟨trivial, trivial⟩
  | cons f fields =>
    rw [List.forall_mem_cons] at h
    obtain ⟨⟨⟨key, hkey⟩, hj⟩, hfields⟩ := h
    simp only [IsWritable, tokens, List.forall_mem_append, List.forall_mem_cons]
    exact ⟨⟨trivial, ⟨key, hkey⟩, trivial, hj⟩,
      isWritable_fieldTokens hfields⟩

/-- A control character is escaped by its code. -/
theorem spellsCode_hexDigits {n : Nat} (h : n < 0x20) :
    SpellsCode n ('\\' :: 'u' :: Text.hexDigits 4 n) := by
  have hdigits : ∀ n < 0x20,
      Text.hexDigits 4 n = ['0', '0', Nat.digitChar (n / 16), Nat.digitChar (n % 16)] := by decide
  have hzero : IsHexDigit '0' 0 := ⟨by decide, .inl rfl⟩
  have hcode := SpellsCode.digits hzero hzero (r := n / 16) (s := n % 16) ⟨by omega, .inl rfl⟩
    ⟨by omega, .inl rfl⟩
  rwa [show 16 * (16 * (16 * 0 + 0) + n / 16) + n % 16 = n by omega, ← hdigits n h] at hcode

/-- The escape of a character spells its code point. -/
theorem spellsPoints_escape {points : List Nat} {cs : List Char} (h : SpellsPoints points cs)
    (c : Char) : SpellsPoints (c.toNat :: points) (escape c ++ cs) := by
  have letter {d e : Char} (hc : c = e) (hd : (d, e) ∈ escapes) :
      SpellsPoints (c.toNat :: points) (['\\', d] ++ cs) := hc ▸ .escape hd h
  unfold escape
  split_ifs with hquote hslash hn hr ht hb hf hcontrol
  · exact letter hquote (by decide)
  · exact letter hslash (by decide)
  · exact letter hn (by decide)
  · exact letter hr (by decide)
  · exact letter ht (by decide)
  · exact letter hb (by decide)
  · exact letter hf (by decide)
  · refine .code (spellsCode_hexDigits hcontrol) (fun hhigh => ?_) h
    rw [isHighSurrogate_toNat] at hhigh
    cases hhigh
  · exact .char (by omega) hquote hslash h

/-- The escapes of some characters spell their code points. -/
theorem spellsPoints_flatMap_escape : ∀ cs : List Char,
    SpellsPoints (cs.map Char.toNat) (cs.flatMap escape)
  | [] => .nil
  | c :: cs => by
    rw [List.flatMap_cons]
    exact spellsPoints_escape (spellsPoints_flatMap_escape cs) c

/-- A line end with an indent is white space in front of tokens. -/
theorem spelled_newline {ts : List Token} {cs : List Char} (h : Spelled ts cs) (level : Nat) :
    Spelled ts (newline level ++ cs) := by
  have spaces : ∀ k, Spelled ts (List.replicate k ' ' ++ cs) := fun k => by
    induction k with
    | zero => exact h
    | succ k ih => exact .space (by simp) ih
  exact .space (by simp) (spaces (2 * level))

/-- A writable content in quotes is its token. -/
theorem spelled_quoted {ts : List Token} {cs : List Char} (h : Spelled ts cs) {s : Content}
    (hs : (Token.string s).IsWritable) :
    Spelled (.string s :: ts) (quoted s.display ++ cs) := by
  obtain ⟨u, rfl⟩ := hs
  have hspelled := Spelled.string (.text u) (spellsPoints_flatMap_escape u.toList) h
  rwa [List.cons_append, ← List.singleton_append (l := cs), ← List.append_assoc] at hspelled

/-- A writable key in quotes with its colon is their tokens. -/
theorem spelled_key {ts : List Token} {cs : List Char} (h : Spelled ts cs) {key : Content}
    (hkey : (Token.string key).IsWritable) :
    Spelled (.string key :: .colon :: ts) (quoted key.display ++ ':' :: ' ' :: cs) :=
  spelled_quoted (.mark (by simp [marks]) (.space (by simp) h)) hkey

mutual

/-- What is written spells the tokens of the value. -/
theorem spelled_write : ∀ {j : Json} (_ : j.IsWritable) (level : Nat)
    {ts : List Token} {cs : List Char} (_ : Spelled ts cs),
    Spelled (tokens j ++ ts) (write level j ++ cs)
  | .null, hj, _, _, _, _ | .bool _, hj, _, _, _, _ | .number _, hj, _, _, _, _ =>
    (hj _ (List.mem_singleton_self _)).elim
  | .string s, hj, _, _, _, h => spelled_quoted h (hj _ (List.mem_singleton_self _))
  | .array [], _, _, _, _, h => .mark (by simp [marks]) (.mark (by simp [marks]) h)
  | .array (j :: js), hj, level, ts, cs, h => by
    rw [IsWritable, tokens, List.forall_mem_append, List.forall_mem_cons] at hj
    obtain ⟨⟨-, hj⟩, hjs⟩ := hj
    simp only [tokens, write, List.cons_append, List.append_assoc]
    have hrest := spelled_writeItems hjs level h
    exact .mark (by simp [marks]) (spelled_newline (spelled_write hj (level + 1) hrest) (level + 1))
  | .object [], _, _, _, _, h => .mark (by simp [marks]) (.mark (by simp [marks]) h)
  | .object ((key, j) :: fields), hj, level, ts, cs, h => by
    simp only [IsWritable, tokens, List.forall_mem_append, List.forall_mem_cons] at hj
    obtain ⟨⟨-, hkey, -, hj⟩, hfields⟩ := hj
    simp only [tokens, write, List.cons_append, List.append_assoc]
    have hrest := spelled_writeFields hfields level h
    exact .mark (by simp [marks])
      (spelled_newline (spelled_key (spelled_write hj (level + 1) hrest) hkey) (level + 1))

/-- The further items of an array are written with their tokens. -/
theorem spelled_writeItems : ∀ {js : List Json} (_ : ∀ t ∈ itemTokens js, t.IsWritable)
    (level : Nat) {ts : List Token} {cs : List Char} (_ : Spelled ts cs),
    Spelled (itemTokens js ++ ts) (writeItems (level + 1) js ++ (newline level ++ (']' :: cs)))
  | [], _, level, _, _, h => spelled_newline (.mark (by simp [marks]) h) level
  | j :: js, hjs, level, ts, cs, h => by
    rw [itemTokens, List.forall_mem_append, List.forall_mem_cons] at hjs
    obtain ⟨⟨-, hj⟩, hjs⟩ := hjs
    simp only [itemTokens, writeItems, List.cons_append, List.append_assoc]
    have hrest := spelled_writeItems hjs level h
    exact .mark (by simp [marks]) (spelled_newline (spelled_write hj (level + 1) hrest) (level + 1))

/-- The further fields of an object are written with their tokens. -/
theorem spelled_writeFields : ∀ {fields : List (Content × Json)}
    (_ : ∀ t ∈ fieldTokens fields, t.IsWritable) (level : Nat) {ts : List Token} {cs : List Char}
    (_ : Spelled ts cs),
    Spelled (fieldTokens fields ++ ts)
      (writeFields (level + 1) fields ++ (newline level ++ ('\x7d' :: cs)))
  | [], _, level, _, _, h => spelled_newline (.mark (by simp [marks]) h) level
  | (key, j) :: fields, hfields, level, ts, cs, h => by
    simp only [fieldTokens, List.forall_mem_append, List.forall_mem_cons] at hfields
    obtain ⟨⟨-, hkey, -, hj⟩, hfields⟩ := hfields
    simp only [fieldTokens, writeFields, List.cons_append, List.append_assoc]
    have hrest := spelled_writeFields hfields level h
    exact .mark (by simp [marks])
      (spelled_newline (spelled_key (spelled_write hj (level + 1) hrest) hkey) (level + 1))

end

/-- What the library writes is a text of the value. -/
theorem isTextOf_text {j : Json} (h : j.IsWritable) : j.IsTextOf (text j) := by
  have hspelled := spelled_write h 0 .nil
  rwa [List.append_nil, List.append_nil, ← String.toList_ofList (l := write 0 j)] at hspelled

end FormulaBook.Json
