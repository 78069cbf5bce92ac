import FormulaBook.Proofs.DotReader
import Mathlib.Data.List.Forall2
import Mathlib.Data.List.TakeWhile

/-!
# Digraphs read back

What is written as an identifier is read back as the identifier that was meant (`Dot.denoted`), if
the text is without line feeds and, in quotes, does not end behind a backslash without a pair, or,
as markup, closes its first bracket with its last (`Dot.Quotable`). Wherever a text stands, it is
followed by a character that ends every name and numeral, so the identifiers of a line are read one
after the other (`Dot.leads_quote`). The end of an edge is taken apart at a colon, and what stands
behind is read as a place (`Dot.EndReads`). From there a line is read as its statement
(`Dot.Statement.Reads`) and a digraph as its statements (`Dot.read?_digraph`).
-/

namespace FormulaBook.Dot

open Text Transducer

/-! ## What an identifier says -/

/-- What the characters in quotes say: a quote loses the backslash before it. The first character
may stand behind a backslash. -/
def unescape (escaped : Bool) : List Char → List Char
  | [] => []
  | c :: cs =>
    if escaped = true then
      if c = '"' then c :: unescape false cs else '\\' :: c :: unescape false cs
    else if c = '\\' then unescape true cs
    else c :: unescape false cs

/-- Whether a backslash without a pair stands at the end; `odd` tells whether one stands in
front. -/
def endsEscaped (odd : Bool) : List Char → Bool
  | [] => odd
  | c :: cs => endsEscaped (c = '\\' && !odd) cs

/-- Whether the last character closes the bracket that is open, with `depth` more open inside. -/
def closesLast (depth : Nat) : List Char → Bool
  | [] => false
  | c :: cs =>
    if c = '<' then closesLast (depth + 1) cs
    else if c = '>' then if depth = 0 then cs.isEmpty else closesLast (depth - 1) cs
    else closesLast depth cs

/-- The identifier that is meant by a text. -/
def denoted (s : String) : Ident :=
  if isMarkup s then .markup (String.ofList s.toList.tail.dropLast)
  else .text (String.ofList (unescape false s.toList))

/-- A text whose identifier ends where the text ends. -/
structure Quotable (s : String) : Prop where
  noLineFeed : '\n' ∉ s.toList
  closed : if isMarkup s then closesLast 0 s.toList.tail = true
    else endsEscaped false s.toList = false

/-- Whether a text can be quoted can be decided. -/
instance (s : String) : Decidable (Quotable s) :=
  decidable_of_iff (_ ∧ _) ⟨fun h => ⟨h.1, h.2⟩, fun h => ⟨h.1, h.2⟩⟩

/-- Characters without a backslash say themselves. -/
theorem unescape_of_not_mem {cs : List Char} (h : '\\' ∉ cs) : unescape false cs = cs := by
  induction cs with
  | nil => rfl
  | cons c cs ih =>
    rw [List.mem_cons, not_or] at h
    rw [unescape, if_neg Bool.false_ne_true, if_neg (Ne.symm h.1), ih h.2]

/-! ## Reading identifiers -/

/-- A character that ends every name and numeral, and the symbols it is. -/
structure Delimits (c : Char) (found : List Symbol) : Prop where
  not_continues : continuesName c = false
  ne_point : c ≠ '.'
  begin : Mode.begin? c = some (found, .between)

/-- A space ends names and numerals and is no symbol. -/
theorem delimits_space : Delimits ' ' [] := ⟨by decide, by decide, by decide⟩

/-- A closing bracket ends names and numerals and is a symbol. -/
theorem delimits_closing : Delimits ']' [.mark ']'] := ⟨by decide, by decide, by decide⟩

/-- An equals sign ends names and numerals and is a symbol. -/
theorem delimits_equals : Delimits '=' [.mark '='] := ⟨by decide, by decide, by decide⟩

section

variable {cs read : List Char} {c : Char} {found : List Symbol}

/-- Behind a symbol a character that delimits begins no other one. -/
theorem Delimits.beginAfter? (h : Delimits c found) (s : Symbol) :
    Mode.beginAfter? s c = some (s :: found, .between) := by
  rw [Mode.beginAfter?, h.begin]
  rfl

/-- No digit delimits. -/
theorem Delimits.isDigit_eq_false (h : Delimits c found) : c.isDigit = false := by
  have hc := h.not_continues
  simp only [continuesName, Char.isAlphanum, Bool.or_eq_false_iff] at hc
  exact hc.1.2

/-- A character that starts names begins one. -/
theorem begin?_of_startsName (h : startsName c = true) :
    Mode.begin? c = some ([], .name [c]) := by
  have hne {d : Char} (hd : startsName d = false) : c ≠ d := by
    rintro rfl
    cases h.symm.trans hd
  rw [Mode.begin?, if_neg, if_neg (hne rfl), if_neg (hne rfl), if_neg (hne rfl), if_neg (hne rfl),
    if_pos h]
  rintro (rfl | rfl | rfl | rfl) <;> cases h

/-- A digit begins a numeral. -/
theorem begin?_of_isDigit (h : c.isDigit = true) :
    Mode.begin? c = some ([], .numeral false [c]) := by
  have hdigits : ∀ k < 10, Mode.begin? (Char.ofNat (48 + k)) =
      some ([], .numeral false [Char.ofNat (48 + k)]) := by
    decide
  rw [Char.isDigit_iff_toNat, show '0'.toNat = 48 from rfl, show '9'.toNat = 57 from rfl] at h
  obtain ⟨k, hk⟩ := Nat.exists_eq_add_of_le h.1
  have hc := hdigits k (by omega)
  rwa [← hk, Char.ofNat_toNat] at hc

/-- A name is read up to the character behind it. -/
theorem leads_name {s : String} (hs : isName s = true)
    (hkeyword : keywords.contains (String.ofList (s.toList.map Char.toLower)) = false)
    (hc : Delimits c found) :
    scanner.Leads .between (s.toList ++ [c]) (.ident (.text s) :: found) .between := by
  cases hcs : s.toList with
  | nil => simp [isName, hcs] at hs
  | cons d ds =>
    simp only [isName, hcs, Bool.and_eq_true, List.all_eq_true] at hs
    have hread : (ds.reverse ++ [d]).reverse = s.toList := by simp [hcs]
    have hname : Symbol.ofName (ds.reverse ++ [d]) = .ident (.text s) := by
      rw [Symbol.ofName, hread, if_neg (Bool.eq_false_iff.mp hkeyword), String.ofList_toList]
    refine .silent (begin?_of_startsName hs.1) ?_
    refine (leads_of_collects Mode.name (fun e he _ => if_pos (hs.2 e he)) [d]).trans (.single ?_)
    rw [← hname]
    exact (if_neg (Bool.eq_false_iff.mp hc.not_continues)).trans (hc.beginAfter? _)

/-- Digits are collected in a numeral. -/
theorem leads_digits (h : ∀ c ∈ cs, c.isDigit = true) (pointed : Bool) (read : List Char) :
    scanner.Leads (.numeral pointed read) cs [] (.numeral pointed (cs.reverse ++ read)) :=
  leads_of_collects (Mode.numeral pointed) (fun d hd _ => if_pos (h d hd)) read

/-- A character that delimits ends a numeral with a digit in it. -/
theorem Delimits.ends_numeral (hc : Delimits c found) (pointed : Bool)
    (hread : read.any Char.isDigit = true) :
    scanner.Leads (.numeral pointed read) [c]
      (.ident (.text (String.ofList read.reverse)) :: found) .between := by
  refine .single ?_
  have hnumeral : Symbol.ofNumeral? read = some (.ident (.text (String.ofList read.reverse))) :=
    if_pos hread
  change Mode.next? (.numeral pointed read) c = _
  rw [Mode.next?, if_neg (Bool.eq_false_iff.mp hc.isDigit_eq_false),
    if_neg (fun h => hc.ne_point h.1), hnumeral, Option.bind_some]
  exact hc.beginAfter? _

/-- A numeral is digits, perhaps with a point among them. -/
theorem cases_of_isNumeral (h : isNumeral cs = true) :
    (cs ≠ [] ∧ ∀ d ∈ cs, d.isDigit = true) ∨
      ∃ whole places, cs = whole ++ '.' :: places ∧ (∀ d ∈ whole, d.isDigit = true) ∧
        (∀ d ∈ places, d.isDigit = true) ∧ whole ++ places ≠ [] := by
  have hsplit : cs.takeWhile Char.isDigit ++ cs.dropWhile Char.isDigit = cs :=
    List.takeWhile_append_dropWhile
  have hwhole := List.all_eq_true.mp (List.all_takeWhile (p := Char.isDigit) (l := cs))
  unfold isNumeral at h
  dsimp only at h
  cases hrest : cs.dropWhile Char.isDigit with
  | nil =>
    rw [hrest, List.append_nil] at hsplit
    rw [hsplit] at hwhole
    simp only [hrest, hsplit, Bool.not_eq_true', List.isEmpty_eq_false_iff] at h
    exact .inl ⟨h, hwhole⟩
  | cons p places =>
    simp only [hrest, Bool.and_eq_true, beq_iff_eq, List.all_eq_true, Bool.not_eq_true',
      Bool.and_eq_false_iff, List.isEmpty_eq_false_iff] at h
    obtain ⟨⟨rfl, hplaces⟩, hne⟩ := h
    refine .inr ⟨_, places, (hrest ▸ hsplit).symm, hwhole, hplaces, fun hnil => ?_⟩
    obtain ⟨hnil, hnil'⟩ := List.append_eq_nil_iff.mp hnil
    exact hne.elim (· hnil) (· hnil')

/-- A numeral is read up to the character behind it, from where its first character is read. -/
theorem leads_numeral (h : isNumeral cs = true) (hc : Delimits c found) {m : Mode}
    {read : List Char} (hpoint : m.next? '.' = some ([], .numeral true ('.' :: read)))
    (hdigit : ∀ d, d.isDigit = true → m.next? d = some ([], .numeral false (d :: read))) :
    scanner.Leads m (cs ++ [c])
      (.ident (.text (String.ofList (read.reverse ++ cs))) :: found) .between := by
  rcases cases_of_isNumeral h with ⟨hne, hall⟩ | ⟨whole, places, rfl, hwhole, hplaces, hne⟩
  · obtain ⟨d, ds, rfl⟩ := List.exists_cons_of_ne_nil hne
    rw [List.forall_mem_cons] at hall
    have hread := (leads_digits hall.2 false (d :: read)).trans
      (hc.ends_numeral false (by simp [hall.1]))
    refine .silent (hdigit d hall.1) ?_
    simpa using hread
  · have hrest (r : List Char) (hany : (places.reverse ++ '.' :: r).any Char.isDigit = true) :=
      (leads_digits hplaces true ('.' :: r)).trans (hc.ends_numeral true hany)
    cases whole with
    | nil =>
      obtain ⟨d, ds, rfl⟩ := List.exists_cons_of_ne_nil hne
      have hread := hrest read (by simp [hplaces d List.mem_cons_self])
      refine .silent hpoint ?_
      simpa using hread
    | cons d ds =>
      rw [List.forall_mem_cons] at hwhole
      have hmark : scanner.Leads (.numeral false (ds.reverse ++ d :: read)) ['.'] []
          (.numeral true ('.' :: (ds.reverse ++ d :: read))) := .single rfl
      have hread := (leads_digits hwhole.2 false (d :: read)).trans
        (hmark.trans (hrest _ (by simp [hwhole.1])))
      refine .silent (hdigit d hwhole.1) ?_
      simpa using hread

/-- The quotes put in are read over, and what stands in front of a quote that had a backslash is
lost. -/
theorem leads_escapeQuotes (hcs : '\n' ∉ cs) (odd : Bool) (read : List Char) :
    scanner.Leads (.quoted odd read) (escapeQuotes odd cs) []
      (.quoted (endsEscaped odd cs) ((unescape odd cs).reverse ++ read)) := by
  induction cs generalizing odd read with
  | nil => exact .nil _
  | cons c cs ih =>
    rw [List.mem_cons, not_or] at hcs
    have hnext (o : Bool) (r : List Char) := ih hcs.2 o r
    cases odd with
    | true =>
      -- The character stands behind a backslash, whatever it is, and so no quote is put in.
      have hrest : escapeQuotes true (c :: cs) = c :: escapeQuotes false cs := by
        simp [escapeQuotes]
      rw [hrest, endsEscaped, Bool.not_true, Bool.and_false, unescape, if_pos rfl]
      by_cases hquote : c = '"'
      · rw [if_pos hquote, List.reverse_cons, List.append_assoc]
        exact .silent (by simp [scanner, Mode.next?, hquote]) (hnext false _)
      · rw [if_neg hquote, List.reverse_cons, List.reverse_cons, List.append_assoc,
          List.append_assoc]
        refine .silent ?_ (hnext false _)
        simp [scanner, Mode.next?, hquote, Ne.symm hcs.1]
    | false =>
      rw [escapeQuotes, endsEscaped, Bool.not_false, Bool.and_true, unescape,
        if_neg Bool.false_ne_true]
      by_cases hslash : c = '\\'
      · rw [if_pos hslash, if_pos hslash, decide_eq_true hslash]
        exact .silent (if_pos hslash) (hnext true _)
      · rw [if_neg hslash, if_neg hslash, decide_eq_false hslash, List.reverse_cons,
          List.append_assoc]
        by_cases hquote : c = '"'
        · rw [if_pos ⟨hquote, rfl⟩, hquote]
          exact .silent rfl (.silent rfl (hnext false _))
        · rw [if_neg (fun h => hquote h.1)]
          exact .silent ((if_neg hslash).trans (if_neg hquote)) (hnext false _)

/-- Markup is read up to the bracket that closes it. -/
theorem leads_markup {depth : Nat} (h : closesLast depth cs = true) (read : List Char) :
    scanner.Leads (.markup depth read) cs
      [.ident (.markup (String.ofList (read.reverse ++ cs.dropLast)))] .between := by
  induction cs generalizing depth read with
  | nil => cases h
  | cons c cs ih =>
    -- Before the last character another one is read inside.
    have hinside {depth' : Nat} (hnext : scanner.next? (.markup depth read) c =
        some ([], .markup depth' (c :: read))) (hrest : closesLast depth' cs = true) :
        scanner.Leads (.markup depth read) (c :: cs)
          [.ident (.markup (String.ofList (read.reverse ++ (c :: cs).dropLast)))] .between := by
      have hne : cs ≠ [] := by
        rintro rfl
        cases hrest
      have hread := ih hrest (c :: read)
      rw [List.reverse_cons, List.append_assoc, List.singleton_append,
        ← List.dropLast_cons_of_ne_nil hne] at hread
      exact .silent hnext hread
    rw [closesLast] at h
    by_cases hopening : c = '<'
    · rw [if_pos hopening] at h
      exact hinside (if_pos hopening) h
    · rw [if_neg hopening] at h
      by_cases hclosing : c = '>'
      · rw [if_pos hclosing] at h
        cases depth with
        | zero =>
          obtain rfl := List.isEmpty_iff.mp (show cs.isEmpty = true from h)
          subst hclosing
          rw [List.dropLast_singleton, List.append_nil]
          exact .single rfl
        | succ depth =>
          exact hinside ((if_neg hopening).trans (if_pos hclosing)) h
      · rw [if_neg hclosing] at h
        exact hinside ((if_neg hopening).trans (if_neg hclosing)) h

/-! ## Quoted texts -/

variable {s : String}

/-- Without a line end there is none to take away. -/
theorem withoutLineEnd_of_not_mem (h : '\n' ∉ cs) : withoutLineEnd cs = cs := by
  rw [withoutLineEnd, if_neg]
  exact fun hlast => h (List.mem_of_getLast? hlast)

/-- There is no backslash in a numeral. -/
theorem not_mem_of_isNumeral (h : isNumeral cs = true) : '\\' ∉ cs := by
  intro hmem
  rcases cases_of_isNumeral h with ⟨-, hall⟩ | ⟨whole, places, rfl, hwhole, hplaces, -⟩
  · exact absurd (hall _ hmem) (by decide)
  · rw [List.mem_append, List.mem_cons] at hmem
    rcases hmem with hmem | hmem | hmem
    · exact absurd (hwhole _ hmem) (by decide)
    · cases hmem
    · exact absurd (hplaces _ hmem) (by decide)

/-- There is no backslash in a name. -/
theorem not_mem_of_isName (h : isName s = true) : '\\' ∉ s.toList := by
  intro hmem
  unfold isName at h
  split at h
  · cases h
  · rename_i d ds hs
    rw [Bool.and_eq_true, List.all_eq_true] at h
    rw [hs, List.mem_cons] at hmem
    rcases hmem with rfl | hmem
    · cases h.1
    · exact absurd (h.2 _ hmem) (by decide)

/-- What is an identifier as it stands is a name or a numeral, perhaps with a minus. -/
theorem cases_of_isBare (h : isBare s = true) (hline : '\n' ∉ s.toList) :
    (isName s = true ∧
      keywords.contains (String.ofList (s.toList.map Char.toLower)) = false) ∨
    isNumeral s.toList = true ∨ ∃ cs, s.toList = '-' :: cs ∧ isNumeral cs = true := by
  unfold isBare at h
  dsimp only at h
  rw [withoutLineEnd_of_not_mem hline, String.ofList_toList, Bool.and_eq_true, Bool.or_eq_true,
    Bool.not_eq_true'] at h
  obtain ⟨hname | hnumeral, hkeyword⟩ := h
  · exact .inl ⟨hname, hkeyword⟩
  · right
    split at hnumeral
    · exact .inr ⟨_, ‹_›, hnumeral⟩
    · exact .inl hnumeral

/-- There is no backslash in what is an identifier as it stands. -/
theorem not_mem_of_isBare (h : isBare s = true) (hline : '\n' ∉ s.toList) : '\\' ∉ s.toList := by
  rcases cases_of_isBare h hline with ⟨hname, -⟩ | hnumeral | ⟨cs, hs, hnumeral⟩
  · exact not_mem_of_isName hname
  · exact not_mem_of_isNumeral hnumeral
  · rw [hs, List.mem_cons, not_or]
    exact ⟨by decide, not_mem_of_isNumeral hnumeral⟩

/-- An identifier that is written as it stands is read up to the character behind it. -/
theorem leads_bare (h : isBare s = true) (hline : '\n' ∉ s.toList) (hc : Delimits c found) :
    scanner.Leads .between (s.toList ++ [c]) (.ident (.text s) :: found) .between := by
  rcases cases_of_isBare h hline with ⟨hname, hkeyword⟩ | hnumeral | ⟨cs, hs, hnumeral⟩
  · exact leads_name hname hkeyword hc
  · have hread := leads_numeral (m := .between) hnumeral hc rfl fun d hd => begin?_of_isDigit hd
    rwa [List.reverse_nil, List.nil_append, String.ofList_toList] at hread
  · have hread := leads_numeral (m := .dash) hnumeral hc rfl fun d hd => ?_
    · rw [List.reverse_singleton, List.singleton_append, ← hs, String.ofList_toList] at hread
      rw [hs, List.cons_append]
      exact .silent rfl hread
    · have hne {e : Char} (he : e.isDigit = false) : d ≠ e := by
        rintro rfl
        cases hd.symm.trans he
      rw [Mode.next?, if_neg (hne rfl), Mode.numeral?, if_neg (hne rfl), if_pos hd]
      rfl

/-- An identifier is read up to the character behind it. -/
theorem leads_quote (h : Quotable s) (hc : Delimits c found) :
    scanner.Leads .between ((quote s).toList ++ [c]) (.ident (denoted s) :: found) .between := by
  have hclosed := h.closed
  by_cases hmarkup : isMarkup s = true
  · rw [if_pos hmarkup] at hclosed
    rw [quote, hmarkup, Bool.true_or, if_pos rfl, denoted, if_pos hmarkup]
    have hhead : s.toList.head? = some '<' := by
      rw [isMarkup, Bool.and_eq_true] at hmarkup
      exact beq_iff_eq.mp hmarkup.1
    obtain ⟨rest, hs⟩ := List.head?_eq_some_iff.mp hhead
    rw [hs, List.tail_cons] at hclosed ⊢
    exact .silent rfl ((leads_markup hclosed []).trans (.single hc.begin))
  · rw [if_neg hmarkup] at hclosed
    rw [quote, Bool.eq_false_iff.mpr hmarkup, Bool.false_or, denoted, if_neg hmarkup]
    by_cases hbare : isBare s = true
    · rw [if_pos hbare, unescape_of_not_mem (not_mem_of_isBare hbare h.noLineFeed),
        String.ofList_toList]
      exact leads_bare hbare h.noLineFeed hc
    · rw [if_neg hbare]
      simp only [String.toList_append, String.toList_ofList]
      have hread := leads_escapeQuotes h.noLineFeed false []
      rw [hclosed, List.append_nil] at hread
      have hopen : scanner.Leads .between ['"'] [] (.quoted false []) := .single rfl
      have hclose : scanner.Leads (.quoted false (unescape false s.toList).reverse) ['"']
          [.ident (.text (String.ofList (unescape false s.toList)))] .between := by
        have hmark := Leads.single (M := scanner) (i := '"') (t := .between)
          (s := .quoted false (unescape false s.toList).reverse) rfl
        rwa [List.reverse_reverse] at hmark
      exact ((hopen.trans hread).trans hclose).trans (.single hc.begin)

/-! ## Ends of edges -/

/-- A text that is read back as an end of an edge without parts. -/
structure Whole (s : String) : Prop extends Quotable s where
  noColon : ':' ∉ s.toList

/-- What a text is read as where it is an end of an edge. What stands behind a colon is read as a
place. -/
inductive EndReads : String → End → Prop
  | whole {s : String} : Whole s → EndReads s ⟨denoted s, []⟩
  | place {s place : String} : Whole s → Whole place → place ≠ "" →
    EndReads (s ++ ":" ++ place) ⟨denoted s, [denoted place]⟩

/-- The symbols of an end of an edge. -/
def End.symbols (e : End) : List Symbol :=
  .ident e.node :: e.parts.flatMap fun part => [.mark ':', .ident part]

/-- A text is split at its first colon, and one without a colon is all in front of it. -/
theorem splitColon_of_not_mem (h : ':' ∉ cs) (rest : List Char) :
    splitColon (String.ofList (cs ++ ':' :: rest)) = (String.ofList cs, String.ofList rest) ∧
      splitColon (String.ofList cs) = (String.ofList cs, "") := by
  have hall : ∀ c ∈ cs, (c != ':') = true := fun c hc => bne_iff_ne.mpr fun heq => h (heq ▸ hc)
  constructor
  · rw [splitColon, String.toList_ofList, List.takeWhile_append_of_pos hall,
      List.dropWhile_append_of_pos hall]
    simp
  · rw [splitColon, String.toList_ofList, List.takeWhile_eq_self_iff.mpr hall,
      List.dropWhile_eq_nil_iff.mpr hall]
    rfl

/-- A colon ends names and numerals and is a symbol. -/
theorem delimits_colon : Delimits ':' [.mark ':'] := ⟨by decide, by decide, by decide⟩

/-- An end of an edge is read up to the character behind it. -/
theorem EndReads.leads {e : End} (h : EndReads s e) (hc : Delimits c found) :
    scanner.Leads .between ((quoteEnd s).toList ++ [c]) (e.symbols ++ found) .between := by
  cases h with
  | whole hs =>
    have hsplit := (splitColon_of_not_mem hs.noColon []).2
    rw [String.ofList_toList] at hsplit
    have hread := leads_quote hs.toQuotable hc
    simpa [quoteEnd, hsplit, End.symbols] using hread
  | @place s place hs hplace hne =>
    have hsplit := (splitColon_of_not_mem hs.noColon place.toList).1
    have hsplit' := (splitColon_of_not_mem hplace.noColon []).2
    rw [String.ofList_toList] at hsplit'
    have htext : s ++ ":" ++ place = String.ofList (s.toList ++ ':' :: place.toList) := by
      rw [← String.toList_inj]
      simp
    rw [String.ofList_toList, String.ofList_toList, ← htext] at hsplit
    have hread := (leads_quote hs.toQuotable delimits_colon).trans
      (leads_quote hplace.toQuotable hc)
    simpa [quoteEnd, hsplit, hsplit', hne, End.symbols] using hread

end

/-! ## Statements -/

/-- An attribute that is read back: its name stands as it is, and its value can be quoted. -/
structure Attribute.Legible (a : Attribute) : Prop where
  bare : isBare a.name = true
  noLineFeed : '\n' ∉ a.name.toList
  value : Quotable a.value

/-- What an attribute says. -/
def Attribute.reading (a : Attribute) : Ident × Ident := (.text a.name, denoted a.value)

/-- What a statement is read as. -/
inductive Statement.Reads : Statement → Reading → Prop
  | node {id : String} {attributes : List Attribute} : Quotable id →
    (∀ a ∈ attributes, a.Legible) →
    Reads (.node id attributes) (.node ⟨denoted id, []⟩ (attributes.map Attribute.reading))
  | edge {source target : String} {e e' : End} {attributes : List Attribute} :
    EndReads source e → EndReads target e' → (∀ a ∈ attributes, a.Legible) →
    Reads (.edge source target attributes) (.edge e e' (attributes.map Attribute.reading))

/-- The symbols of some attributes. -/
def attributeSymbols (attributes : List (Ident × Ident)) : List Symbol :=
  attributes.flatMap fun a => [.ident a.1, .mark '=', .ident a.2]

/-- The symbols of a list of attributes. -/
def listSymbols (attributes : List (Ident × Ident)) : List Symbol :=
  .mark '[' :: (attributeSymbols attributes ++ [.mark ']'])

/-- The symbols of a statement that says this. -/
def Reading.symbols : Reading → List Symbol
  | .node subject attributes => subject.symbols ++ listSymbols attributes
  | .edge source target attributes =>
    source.symbols ++ .arrow :: (target.symbols ++ listSymbols attributes)

/-- A legible attribute is scanned as its name, the mark and its value. -/
theorem Attribute.Legible.leads {a : Attribute} (h : a.Legible) {c : Char} {found : List Symbol}
    (hc : Delimits c found) :
    scanner.Leads .between ((a.name ++ "=" ++ quote a.value).toList ++ [c])
      (attributeSymbols [a.reading] ++ found) .between := by
  have hread := (leads_bare h.bare h.noLineFeed delimits_equals).trans (leads_quote h.value hc)
  simpa [attributeSymbols, Attribute.reading] using hread

/-- A list of legible attributes is scanned up to the bracket that closes it. -/
theorem leads_attributes : ∀ {attributes : List Attribute}, (∀ a ∈ attributes, a.Legible) →
    scanner.Leads .between
      (" ".intercalate (attributes.map fun a => a.name ++ "=" ++ quote a.value) ++ "]").toList
      (attributeSymbols (attributes.map Attribute.reading) ++ [.mark ']']) .between
  | [], _ => by decide
  | [a], h => by
    have hread := (h a List.mem_cons_self).leads delimits_closing
    simpa using hread
  | a :: b :: attributes, h => by
    obtain ⟨ha, hrest⟩ := List.forall_mem_cons.mp h
    have hread := (ha.leads delimits_space).trans (leads_attributes hrest)
    simpa [attributeSymbols] using hread

/-- A list of attributes is read as its symbols. -/
theorem leads_attributeList {attributes : List Attribute} (h : ∀ a ∈ attributes, a.Legible) :
    scanner.Leads .between (attributeList attributes).toList
      (listSymbols (attributes.map Attribute.reading)) .between := by
  have hopen : scanner.Leads .between ['['] [.mark '['] .between := .single (by decide)
  have hread := hopen.trans (leads_attributes h)
  simpa [attributeList, listSymbols] using hread

/-- The line of a statement is read as the symbols of what it says. -/
theorem Statement.Reads.leads_line {s : Statement} {r : Reading} (h : s.Reads r) :
    scanner.Leads .between s.line.toList r.symbols .between := by
  have htab : scanner.Leads .between ['\t'] [] .between := .single (by decide)
  have hline : scanner.Leads .between ['\n'] [] .between := .single (by decide)
  cases h with
  | node hid hattributes =>
    have hread := ((htab.trans (leads_quote hid delimits_space)).trans
      (leads_attributeList hattributes)).trans hline
    simpa [Statement.line, Reading.symbols, End.symbols] using hread
  | edge hs ht hattributes =>
    have harrow : scanner.Leads .between ['-', '>', ' '] [.arrow] .between := by decide
    have hends := ((htab.trans (hs.leads delimits_space)).trans harrow).trans
      (ht.leads delimits_space)
    have hread := (hends.trans (leads_attributeList hattributes)).trans hline
    simpa [Statement.line, Reading.symbols] using hread

/-- Attributes are collected in the list that is open. -/
theorem parser_leads_attributes (owner : Owner) (attributes read : List (Ident × Ident)) :
    parser.Leads (.list owner read) (attributeSymbols attributes) []
      (.list owner (read ++ attributes)) := by
  induction attributes generalizing read with
  | nil =>
    rw [List.append_nil]
    exact .nil _
  | cons a attributes ih =>
    have hread : parser.Leads (.list owner read) (attributeSymbols [a]) []
        (.list owner (read ++ [a])) := rfl
    have hrest := hread.trans (ih (read ++ [a]))
    rwa [List.append_assoc] at hrest

/-- The symbols of a list of attributes are parsed as what it says about its owner. -/
theorem parser_leads_listSymbols (owner : Owner) (attributes : List (Ident × Ident)) :
    parser.Leads (.subject owner) (listSymbols attributes) (owner.readings attributes) .body := by
  have hopen : parser.Leads (.subject owner) [.mark '['] [] (.list owner []) := .single rfl
  have hclose : parser.Leads (.list owner attributes) [.mark ']'] (owner.readings attributes)
      .body := .single rfl
  exact (hopen.trans (parser_leads_attributes owner attributes [])).trans hclose

/-- The symbols of an end are parsed as that end, of a statement about a node or of an edge. -/
theorem EndReads.parser_leads {s : String} {e : End} (h : EndReads s e) :
    parser.Leads .body e.symbols [] (.subject (.node e)) ∧
      ∀ source, parser.Leads (.arrow source) e.symbols [] (.subject (.edge source e)) := by
  cases h with
  | whole => exact ⟨rfl, fun _ => rfl⟩
  | place => exact ⟨rfl, fun _ => rfl⟩

/-- The symbols of what a statement says are read as what it says. -/
theorem Statement.Reads.parser_leads {s : Statement} {r : Reading} (h : s.Reads r) :
    parser.Leads .body r.symbols [r] .body := by
  cases h with
  | @node id attributes hid hattributes =>
    exact .silent rfl (parser_leads_listSymbols (.node ⟨denoted id, []⟩) _)
  | @edge source target e e' attributes hs ht hattributes =>
    have harrow : parser.Leads (.subject (.node e)) [.arrow] [] (.arrow e) := .single rfl
    have hends := (hs.parser_leads.1.trans harrow).trans (ht.parser_leads.2 e)
    have hread := hends.trans
      (parser_leads_listSymbols (.edge e e') (attributes.map Attribute.reading))
    simpa [Reading.symbols, Owner.readings] using hread

/-! ## Digraphs -/

/-- A comment is read over, up to the end of its line. -/
theorem leads_comment {comment : List Char} (h : '\n' ∉ comment) :
    scanner.Leads .between ('/' :: '/' :: (comment ++ ['\n'])) [] .between := by
  have hcollect : scanner.Leads .comment comment [] .comment := by
    refine leads_of_collects (fun _ => Mode.comment) (fun c hc _ => ?_) []
    have hne : c ≠ '\n' := fun heq => h (heq ▸ hc)
    exact congrArg (fun m => some ([], m)) (if_neg hne)
  have hline : scanner.Leads .comment ['\n'] [] .between := .single rfl
  exact .silent rfl (.silent rfl (hcollect.trans hline))

/-- The lines of statements are read as what they say. -/
theorem leads_lines {statements : List Statement} {readings : List Reading}
    (h : List.Forall₂ Statement.Reads statements readings) :
    scanner.Leads .between (String.join (statements.map Statement.line)).toList
      (readings.flatMap Reading.symbols) .between ∧
      parser.Leads .body (readings.flatMap Reading.symbols) readings .body := by
  induction h with
  | nil => exact ⟨.nil _, .nil _⟩
  | cons hs _ ih =>
    rw [List.map_cons, String.join_cons, String.toList_append, List.flatMap_cons]
    exact ⟨hs.leads_line.trans ih.1, hs.parser_leads.trans ih.2⟩

/-- The symbols of the settings and defaults of a digraph. -/
def preamble : List Symbol :=
  [.keyword "digraph", .mark '\x7b', .ident (.text "overlap"), .mark '=', .ident (.text "false"),
    .ident (.text "splines"), .mark '=', .ident (.text "true"), .keyword "node", .mark '[',
    .ident (.text "fontsize"), .mark '=', .ident (.text "10"), .ident (.text "style"), .mark '=',
    .ident (.text "filled"), .mark ']']

/-- The first lines of a digraph are scanned as its preamble. -/
theorem leads_preamble : scanner.Leads .between
    ("digraph \x7b\n" ++ "\toverlap=false splines=true\n" ++
      "\tnode [fontsize=10 style=filled]\n").toList preamble .between := by
  simp only [String.toList_append]
  decide +kernel

/-- The preamble says nothing about nodes and edges. -/
theorem parser_leads_preamble : parser.Leads .start preamble [] .body := by decide

/-- A digraph is read as its statements, if the comment stays on its line. -/
theorem read?_digraph {comment : String} {statements : List Statement} {readings : List Reading}
    (hcomment : '\n' ∉ comment.toList) (h : List.Forall₂ Statement.Reads statements readings) :
    read? (digraph comment statements) = some readings := by
  have hspace : '\n' ∉ ' ' :: comment.toList :=
    fun hmem => (List.mem_cons.mp hmem).elim (by decide) hcomment
  have hclose : scanner.Leads .between ['\x7d', '\n'] [.mark '\x7d'] .between := by decide
  have hend : parser.Leads .body [.mark '\x7d'] [] .closed := .single rfl
  obtain ⟨hlines, hstatements⟩ := leads_lines h
  have hscan := (((leads_comment hspace).trans leads_preamble).trans hlines).trans hclose
  have hparse := (parser_leads_preamble.trans hstatements).trans hend
  have htext : (digraph comment statements).toList =
      '/' :: '/' :: (' ' :: comment.toList ++ ['\n']) ++ ("digraph \x7b\n" ++
        "\toverlap=false splines=true\n" ++ "\tnode [fontsize=10 style=filled]\n").toList ++
        (String.join (statements.map Statement.line)).toList ++ ['\x7d', '\n'] := by
    simp [digraph]
  have hsymbols : scanner.run? .between (digraph comment statements).toList =
      some (preamble ++ readings.flatMap Reading.symbols ++ [.mark '\x7d']) := by
    rw [htext, hscan.run?_eq]
    simp [scanner, Mode.finish?]
  rw [read?, hsymbols, Option.bind_some, hparse.run?_eq]
  simp [parser, Stage.finish?]

end FormulaBook.Dot
