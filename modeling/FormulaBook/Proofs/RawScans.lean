import FormulaBook.Formula.RawScan
import FormulaBook.Proofs.Mentions
import FormulaBook.Proofs.Segmentation

/-!
# Names found without parsing

The scan for names that stands in for the parser looks at characters and knows no tokens. A token
never goes on into the next one, and no token can make the scan skip the beginning of the next, so
what the scan finds in a text is what it finds in its words, one after the other
(`RawScan.found_append_of_isRun`). In a name that is not reserved it finds the name
(`RawScan.found_of_isName`), and in a number literal nothing, if the letter of the exponent does not
follow a digit of another script than ASCII (`RawScan.found_of_isNumeral`). So for a text that
parses the scan yields the variables of the tree (`RawScan.vars_of_parse`), and in any other text it
finds the names among the identifiers, but other names too: it looks into words that are neither a
name nor a number.
-/

namespace FormulaBook

open Text Token

/-! ## Lists of names and runs -/

namespace Text

/-- An entry stands in front of a later one that does not occur before it. -/
theorem sublist_eraseDups {l r : List String} {s t : String} (hne : s ≠ t) (ht : t ∈ r)
    (hnot : t ∉ l) : [s, t].Sublist (l ++ s :: r).eraseDups := by
  rw [List.eraseDups_append, List.removeAll]
  have hlast : t ∈ r.filter (fun u => !l.elem u) := List.mem_filter.mpr ⟨ht, by simpa using hnot⟩
  by_cases hs : s ∈ l
  · rw [List.filter_cons_of_neg (by simpa using hs)]
    show ([s] ++ [t]).Sublist _
    exact List.Sublist.append (List.singleton_sublist.mpr (List.mem_eraseDups.mpr hs))
      (List.singleton_sublist.mpr (List.mem_eraseDups.mpr hlast))
  · rw [List.filter_cons_of_pos (by simpa using hs), List.eraseDups_cons]
    refine List.sublist_append_of_sublist_right (List.Sublist.cons_cons s ?_)
    refine List.singleton_sublist.mpr (List.mem_eraseDups.mpr (List.mem_filter.mpr ⟨hlast, ?_⟩))
    simpa using hne.symm

variable {p : Char → Bool}

/-- A character that is in no run may be left away in front. -/
theorem runs_cons_of_neg {c : Char} (hc : p c = false) (cs : List Char) :
    runs p (c :: cs) = runs p cs := by
  rw [runs, if_neg (by simp [hc])]

/-- A run ends in front of a character of another kind. -/
theorem runs_cons_of_head {c : Char} (hc : p c = true) {cs : List Char}
    (hcs : cs.head?.any p = false) : runs p (c :: cs) = [c] :: runs p cs := by
  rw [runs, if_pos hc, hcs]

/-- A run goes on with a character of its kind. -/
theorem exists_runs_cons {c : Char} (hc : p c = true) : ∀ {cs : List Char},
    cs.head?.any p = true →
    ∃ run rest, runs p cs = run :: rest ∧ runs p (c :: cs) = (c :: run) :: rest
  | d :: cs, hd => by
    have hne : runs p (d :: cs) ≠ [] := by
      rw [runs, if_pos (show p d = true from hd)]
      split <;> exact List.cons_ne_nil _ _
    obtain ⟨run, rest, hruns⟩ := List.exists_cons_of_ne_nil hne
    refine ⟨run, rest, hruns, ?_⟩
    rw [runs, if_pos hc, hd, hruns]

/-- No run goes on over a character of another kind. -/
theorem runs_append {c : Char} (hc : p c = false) (rest : List Char) : ∀ cs : List Char,
    runs p (cs ++ c :: rest) = runs p cs ++ runs p rest
  | [] => runs_cons_of_neg hc rest
  | d :: cs => by
    have ih := runs_append hc rest cs
    have hhead : (cs ++ c :: rest).head?.any p = cs.head?.any p := by
      cases cs with
      | nil => exact hc
      | cons e cs => rfl
    rw [List.cons_append]
    cases hd : p d with
    | false => rw [runs_cons_of_neg hd, runs_cons_of_neg hd, ih]
    | true =>
      cases hcs : cs.head?.any p with
      | false =>
        rw [runs_cons_of_head hd hcs, runs_cons_of_head hd (hhead.trans hcs), ih, List.cons_append]
      | true =>
        obtain ⟨run, runs', hruns, hcons⟩ := exists_runs_cons hd hcs
        obtain ⟨run', runs'', hruns', hcons'⟩ := exists_runs_cons hd (hhead.trans hcs)
        rw [ih, hruns, List.cons_append] at hruns'
        obtain ⟨rfl, rfl⟩ := List.cons.inj hruns'
        rw [hcons, hcons', List.cons_append]

/-- A text of nothing but such characters is one run. -/
theorem runs_of_forall : ∀ {cs : List Char}, cs ≠ [] → (∀ c ∈ cs, p c = true) → runs p cs = [cs]
  | [], hne, _ => absurd rfl hne
  | [c], _, h => runs_cons_of_head (h c List.mem_cons_self) rfl
  | c :: d :: cs, _, h => by
    rw [List.forall_mem_cons] at h
    obtain ⟨run, rest, hruns, hcons⟩ := @exists_runs_cons p c h.1 (d :: cs)
      (h.2 d List.mem_cons_self)
    rw [runs_of_forall (List.cons_ne_nil d cs) h.2] at hruns
    obtain ⟨rfl, rfl⟩ := List.cons.inj hruns
    exact hcons

end Text

namespace RawScan

/-- Whether a name never counts as one, whatever its case. -/
def isReserved (s : String) : Bool := reserved.contains (String.ofList (s.toList.map Char.toLower))

/-- The names in some characters, with all repetitions. The characters of a run that has begun are
in `run`, and `before` is the character in front of it. -/
def foundAfter (before : Option Char) (run cs : List Char) : List String :=
  ((runsFrom before run cs).filter Run.isVariable).map (String.ofList ·.text)

/-- The names in a text, with all repetitions. -/
def found (cs : List Char) : List String := foundAfter none [] cs

/-- The variables scanned are the names found, each once. -/
theorem vars_eq (f : String) : vars f = (found f.toList).eraseDups := rfl

/-! ## Runs of name characters -/

/-- A character that is in no word neither continues a name nor is a point. -/
theorem not_continuesName_of_not_isWordChar {c : Char} (h : isWordChar c = false) :
    continuesName c = false ∧ c ≠ '.' := by
  constructor
  · by_contra hc
    rw [Bool.not_eq_false, continuesName_iff] at hc
    rw [isWordChar_of_name hc] at h
    cases h
  · rintro rfl
    cases h

/-- A character that does not continue a name ends the run, and the runs behind it are found anew.
-/
theorem runsFrom_append {c : Char} (hc : continuesName c = false) (rest : List Char) :
    ∀ (cs : List Char) (before : Option Char) (run : List Char),
    runsFrom before run (cs ++ c :: rest) = runsFrom before run cs ++ runsFrom (some c) [] rest
  | [], before, run => by
    rw [List.nil_append, runsFrom.eq_2, if_neg (by simp [hc])]
    rfl
  | d :: cs, before, run => by
    rw [List.cons_append, runsFrom, runsFrom]
    split
    · exact runsFrom_append hc rest cs before (d :: run)
    · rw [runsFrom_append hc rest cs (some d) [], List.append_assoc]

/-- The character in front of a text matters only if it is a point. -/
theorem foundAfter_some {c : Char} (hc : c ≠ '.') (cs : List Char) :
    ∀ run, foundAfter (some c) run cs = foundAfter none run cs := by
  have hvariable (text : List Char) :
      Run.isVariable ⟨some c, text⟩ = Run.isVariable ⟨none, text⟩ := by
    have hbefore : (some c != some '.') = true := bne_iff_ne.mpr (by simpa using hc)
    rw [Run.isVariable, Run.isVariable, hbefore]
    rfl
  have hrun (run : List Char) : ((endRun (some c) run).filter Run.isVariable).map
      (String.ofList ·.text) = ((endRun none run).filter Run.isVariable).map
      (String.ofList ·.text) := by
    unfold endRun
    split
    · rfl
    · rw [List.filter_singleton, List.filter_singleton, hvariable]
      cases Run.isVariable ⟨none, run.reverse⟩ <;> rfl
  induction cs with
  | nil => exact hrun
  | cons d cs ih =>
    intro run
    rw [foundAfter, foundAfter, runsFrom, runsFrom]
    split
    · exact ih (d :: run)
    · rw [List.filter_append, List.filter_append, List.map_append, List.map_append, hrun]

/-- What is found on both sides of a character that is of no word. -/
theorem found_append {c : Char} (hc : isWordChar c = false) (cs rest : List Char) :
    found (cs ++ c :: rest) = found cs ++ found rest := by
  obtain ⟨hname, hpoint⟩ := not_continuesName_of_not_isWordChar hc
  rw [found, foundAfter, runsFrom_append hname, List.filter_append, List.map_append]
  exact congrArg (found cs ++ ·) (foundAfter_some hpoint rest [])

/-- The names of a text are found in a word of it, in front of it and behind it. -/
theorem found_append_of_isRun {before w after : List Char} (h : IsRun isWordChar before w after) :
    found (before ++ (w ++ after)) = found before ++ (found w ++ found after) := by
  have hafter : found (w ++ after) = found w ++ found after := by
    cases after with
    | nil => rw [List.append_nil]; exact (List.append_nil _).symm
    | cons c after =>
      have hc := h.right c rfl
      rw [found_append hc, ← List.nil_append (c :: after), found_append hc]
      rfl
  rcases List.eq_nil_or_concat' before with rfl | ⟨before, c, rfl⟩
  · exact hafter
  · have hc : isWordChar c = false := h.left c (by simp)
    rw [List.append_assoc, List.singleton_append, found_append hc, found_append hc, hafter]
    exact congrArg (· ++ _) (List.append_nil _).symm

/-! ## Words -/

/-- Characters that continue a name all belong to the run. -/
theorem runsFrom_of_forall (before : Option Char) : ∀ {cs : List Char} (run : List Char),
    (∀ c ∈ cs, continuesName c = true) → runsFrom before run cs = endRun before (cs.reverse ++ run)
  | [], run, _ => rfl
  | c :: cs, run, h => by
    rw [List.forall_mem_cons] at h
    rw [runsFrom, if_pos h.1, runsFrom_of_forall before (c :: run) h.2, List.reverse_cons,
      List.append_assoc, List.singleton_append]

/-- A name is found in itself, unless it is reserved. -/
theorem found_of_isName {s : String} (h : IsName s) :
    found s.toList = if isReserved s then [] else [s] := by
  obtain ⟨c, cs, hs, hc, hcs⟩ := h
  have hall : ∀ d ∈ s.toList, continuesName d = true := by
    rw [hs]
    exact List.forall_mem_cons.mpr ⟨continuesName_iff.mpr (.inl hc),
      fun d hd => continuesName_iff.mpr (hcs d hd)⟩
  have hrun : runsFrom none [] s.toList = [⟨none, s.toList⟩] := by
    rw [runsFrom_of_forall none [] hall, List.append_nil, endRun, List.reverse_reverse, if_neg]
    simp [hs]
  have hvariable : Run.isVariable ⟨none, s.toList⟩ = !isReserved s := by
    have hstart : s.toList.head?.any startsName = true := by
      rw [hs]
      exact startsName_iff.mpr hc
    rw [Run.isVariable, hstart]
    rfl
  rw [found, foundAfter, hrun, List.filter_singleton, hvariable]
  cases isReserved s <;> simp

/-- The run that ends is a maximal one of the text, and it knows the character in front of it. -/
theorem exists_of_mem_endRun {before : Option Char} {run cs : List Char} {r : Run}
    (hrun : ∀ c ∈ run, continuesName c = true) (hcs : ∀ c ∈ cs.head?, continuesName c = false)
    (hr : r ∈ endRun before run) :
    ∃ front after, run.reverse ++ cs = front ++ (r.text ++ after) ∧
      IsRun continuesName front r.text after ∧ r.before = front.getLast?.or before := by
  unfold endRun at hr
  split at hr
  · cases hr
  · rename_i hne
    rw [List.isEmpty_iff] at hne
    obtain rfl := List.mem_singleton.mp hr
    exact ⟨[], cs, rfl, ⟨mt List.reverse_eq_nil_iff.mp hne,
      fun c hc => hrun c (List.mem_reverse.mp hc), fun _ hc => absurd hc (by simp), hcs⟩, rfl⟩

/-- A run that is found is maximal, and it knows the character in front of it. -/
theorem exists_of_mem_runsFrom {r : Run} : ∀ (cs : List Char) (before : Option Char)
    (run : List Char), (∀ c ∈ run, continuesName c = true) → r ∈ runsFrom before run cs →
    ∃ front after, run.reverse ++ cs = front ++ (r.text ++ after) ∧
      IsRun continuesName front r.text after ∧ r.before = front.getLast?.or before
  | [], before, run, hrun, hr => exists_of_mem_endRun hrun (fun _ hc => absurd hc (by simp)) hr
  | c :: cs, before, run, hrun, hr => by
    rw [runsFrom] at hr
    split at hr
    · rename_i hc
      obtain ⟨front, after, hsplit, h⟩ := exists_of_mem_runsFrom cs before (c :: run)
        (List.forall_mem_cons.mpr ⟨hc, hrun⟩) hr
      exact ⟨front, after, by simpa using hsplit, h⟩
    · rename_i hc
      rw [Bool.not_eq_true] at hc
      rcases List.mem_append.mp hr with hr | hr
      · exact exists_of_mem_endRun hrun (by simp [hc]) hr
      · obtain ⟨front, after, hsplit, h, hbefore⟩ := exists_of_mem_runsFrom cs (some c) []
          (fun _ hd => absurd hd List.not_mem_nil) hr
        rw [List.reverse_nil, List.nil_append] at hsplit
        have hlast : (run.reverse ++ c :: front).getLast? = front.getLast?.or (some c) := by
          rw [List.getLast?_append, List.getLast?_cons]
          cases front.getLast? <;> rfl
        refine ⟨run.reverse ++ c :: front, after, by simp [hsplit],
          ⟨h.ne_nil, h.all, fun d hd => ?_, h.right⟩, ?_⟩
        · rw [hlast, Option.mem_def, Option.or_eq_some_iff] at hd
          rcases hd with hd | ⟨-, hd⟩
          · exact h.left d hd
          · exact Option.some.inj hd ▸ hc
        · rw [hbefore, hlast]
          cases front.getLast? <;> rfl

/-! ## Number literals -/

/-- The letter of an exponent does not follow a digit of another script than ASCII. -/
def HasPlainExponent (w : List Char) : Prop :=
  ∀ a d e b, w = a ++ d :: e :: b → (e = 'e' ∨ e = 'E') → isDecimal d = true → IsDigit d

/-- A word in which all digits are ASCII has a plain exponent. -/
theorem hasPlainExponent_of_all {w : List Char}
    (h : w.all (fun c => !isDecimal c || c.isDigit) = true) : HasPlainExponent w := by
  rintro a d e b rfl - hdecimal
  have hd := List.all_eq_true.mp h d (by simp)
  rw [hdecimal, Bool.not_true, Bool.false_or] at hd
  exact isDigit_iff.mp hd

/-- What begins a name and stands in a number literal is the letter of an exponent. -/
theorem eq_e_of_mem_numeral {w : List Char} (h : Decimal.IsNumeral w) {c : Char} (hc : c ∈ w)
    (hstart : startsName c = true) : c = 'e' ∨ c = 'E' := by
  rcases h.of_mem hc with hdecimal | rfl | he
  · rw [isDecimal, digit?_of_isLetter (startsName_iff.mp hstart)] at hdecimal
    cases hdecimal
  · cases hstart
  · exact he

/-- Nothing is found in a number literal with a plain exponent: what is in front of the letter of
the exponent is a point or belongs to the same run. -/
theorem found_of_isNumeral {w : List Char} (h : Decimal.IsNumeral w) (hplain : HasPlainExponent w) :
    found w = [] := by
  rw [found, foundAfter, List.map_eq_nil_iff, List.filter_eq_nil_iff]
  intro r hr hvariable
  obtain ⟨front, after, hsplit, hrun, hbefore⟩ := exists_of_mem_runsFrom w none []
    (fun _ hc => absurd hc List.not_mem_nil) hr
  rw [List.reverse_nil, List.nil_append] at hsplit
  simp only [Run.isVariable, Bool.and_eq_true, bne_iff_ne] at hvariable
  obtain ⟨⟨hstart, hpoint⟩, -⟩ := hvariable
  obtain ⟨c, text, htext⟩ := List.exists_cons_of_ne_nil hrun.ne_nil
  rw [htext] at hstart hsplit
  have he := eq_e_of_mem_numeral h (hsplit ▸ by simp) hstart
  rcases List.eq_nil_or_concat' front with rfl | ⟨front, d, rfl⟩
  · -- a number literal does not begin with a letter
    obtain ⟨c', rest, hw, hfirst⟩ := h.exists_cons
    obtain rfl : c = c' := (List.cons.inj (hsplit.symm.trans hw)).1
    rcases he with rfl | rfl <;> exact absurd hfirst (by decide)
  · have hd := hrun.left d (by simp)
    rcases h.of_mem (hsplit ▸ by simp : d ∈ w) with hdecimal | rfl | rfl | rfl
    · have hdigit := hplain front d c (text ++ after) (by simp [hsplit]) he hdecimal
      rw [continuesName_iff.mpr (.inr hdigit)] at hd
      cases hd
    · exact hpoint (by simp [hbefore])
    all_goals cases hd

end RawScan

/-! ## Identifiers -/

/-- The name that an identifier token carries. -/
def Token.identifier? (t : Token) : Option String := t.text? .identifier

/-- The names of a tree are those of the tokens, after those of a tree in front. -/
theorem Derives.identifiers_eq {phrase : Phrase} {ts : List Token} {e : Expr}
    (h : Derives phrase ts e) :
    e.identifiers = phrase.left?.elim [] Expr.identifiers ++ ts.filterMap Token.identifier? :=
  collect_eq (fun _ _ => rfl) (fun _ _ => rfl) (fun _ _ _ => rfl) (fun _ _ => rfl)
    (fun _ _ hk => Token.text?_of_ne hk) h

namespace RawScan

/-- The number literals among some words have plain exponents. -/
def PlainExponents (ws : List (List Char)) : Prop :=
  ∀ w ∈ ws, Decimal.IsNumeral w → HasPlainExponent w

/-- The names that do not count are left out. -/
def unreserved (l : List String) : List String := l.filter (!isReserved ·)

/-- In a word that is a number with a plain exponent or a name, the scan finds what the token of the
word says. -/
theorem found_eq_of_endWord {word : List Char} {p : Nat} (hword : ∀ c ∈ word, isWordChar c = true)
    (hplain : PlainExponents (runs isWordChar word.reverse))
    (hname : ∀ s ∈ (endWord word p).filterMap identifier?, IsName s) :
    found word.reverse = unreserved ((endWord word p).filterMap identifier?) := by
  by_cases hne : word = []
  · subst hne
    rfl
  have hruns : runs isWordChar word.reverse = [word.reverse] :=
    runs_of_forall (mt List.reverse_eq_nil_iff.mp hne) fun c hc => hword c (List.mem_reverse.mp hc)
  rw [hruns] at hplain
  have hend : endWord word p = [ofWord word.reverse ((p - word.length : Nat) : Int)] := by
    rw [endWord, if_neg (by simpa using hne)]
  obtain ⟨kind, value, hreads, htoken⟩ :=
    exists_readsWord word.reverse ((p - word.length : Nat) : Int)
  rw [hend, htoken] at hname ⊢
  cases hreads with
  | number hnumeral =>
    exact found_of_isNumeral hnumeral (hplain _ (List.mem_singleton_self _) hnumeral)
  | identifier =>
    have h := found_of_isName (hname (String.ofList word.reverse) (List.mem_singleton_self _))
    rw [String.toList_ofList] at h
    rw [h]
    show _ = unreserved [String.ofList word.reverse]
    rw [unreserved, List.filter_singleton]
    cases isReserved (String.ofList word.reverse) <;> rfl

/-- If the identifiers among the tokens are names, and the number literals in the text have plain
exponents, the scan finds the identifiers in the text. -/
def FindsIdentifiers (cs : List Char) (ts : List Token) : Prop :=
  PlainExponents (runs isWordChar cs) → (∀ s ∈ ts.filterMap identifier?, IsName s) →
    found cs = unreserved (ts.filterMap identifier?)

/-- A character that is of no word parts what is found, as it parts the tokens. -/
theorem FindsIdentifiers.append {cs : List Char} {ts us : List Token} (h : FindsIdentifiers cs ts)
    {c : Char} (hc : isWordChar c = false) {word : List Char} {p : Nat}
    (hword : ∀ d ∈ word, isWordChar d = true)
    (hus : us.filterMap identifier? = ts.filterMap identifier?) :
    FindsIdentifiers (word.reverse ++ c :: cs) (endWord word p ++ us) := by
  intro hplain hname
  rw [runs_append hc] at hplain
  rw [List.filterMap_append, hus] at hname ⊢
  rw [found_append hc, unreserved, List.filter_append]
  rw [found_eq_of_endWord hword (fun w hw => hplain w (List.mem_append_left _ hw))
    fun s hs => hname s (List.mem_append_left _ hs)]
  rw [h (fun w hw => hplain w (List.mem_append_right _ hw))
    fun s hs => hname s (List.mem_append_right _ hs)]
  rfl

/-- The scan finds the identifiers that the scanner of tokens yields. -/
theorem findsIdentifiers_scanFrom (word : List Char) (p : Nat) (cs : List Char)
    (hword : ∀ c ∈ word, isWordChar c = true) :
    FindsIdentifiers (word.reverse ++ cs) (scanFrom word p cs) := by
  have hnil : ∀ c ∈ ([] : List Char), isWordChar c = true := fun _ hc => absurd hc List.not_mem_nil
  induction word, p, cs using scanFrom.induct with
  | case1 word p =>
    rw [List.append_nil]
    exact found_eq_of_endWord hword
  | case2 word p cs ih =>
    have hstar : FindsIdentifiers ('*' :: cs) (scanFrom [] (p + 2) cs) :=
      (ih hnil).append isWordChar_star hnil (p := 0) rfl
    rw [scanFrom]
    exact hstar.append isWordChar_star hword rfl
  | case3 word p c cs hstars hc ih =>
    rw [scanFrom, if_pos hc]
    · simpa using ih (List.forall_mem_cons.mpr ⟨hc, hword⟩)
    · exact hstars
  | case4 word p c cs hstars hc ih =>
    rw [scanFrom, if_neg hc]
    · refine (ih hnil).append (Bool.not_eq_true _ ▸ hc) hword ?_
      split
      · rfl
      · split
        · rfl
        · split <;> rfl
    · exact hstars

/-- For a text that parses and whose number literals have plain exponents, the scan finds the
variables, without those that are reserved. -/
theorem vars_of_parse {f : String} {e : Expr} (h : Expr.parse f = .ok e)
    (hplain : PlainExponents (runs isWordChar f.toList)) :
    vars f = e.vars.filter (!isReserved ·) := by
  have hd := Expr.derives_of_ofTokens h
  have hidentifiers : e.identifiers = (scan f).filterMap identifier? := hd.identifiers_eq
  have hname := hd.isName_of_mem (fun _ hleft => absurd hleft (by simp [Phrase.left?]))
  rw [hidentifiers] at hname
  have hfound := findsIdentifiers_scanFrom [] 0 f.toList
    (fun _ hc => absurd hc List.not_mem_nil) hplain hname
  have hfound : found f.toList = unreserved e.identifiers := hidentifiers ▸ hfound
  rw [vars_eq, hfound, unreserved, eraseDups_filter]
  rfl

end RawScan

/-! ## Tokens that name variables -/

/-- The token is an identifier that is a name and not reserved. -/
structure Token.NamesVariable (t : Token) (s : String) : Prop where
  kind : t.kind = .identifier
  value : t.value = .text s
  isName : IsName s
  not_reserved : RawScan.isReserved s = false

namespace Lexeme

/-- Stars are operators. -/
theorem kind_of_mem_stars {p k : Nat} {x : Lexeme} (h : x ∈ stars p k) :
    x.token.kind = .operator := by
  rcases List.mem_append.mp h with h | h
  · obtain ⟨i, -, rfl⟩ := List.mem_map.mp h
    rfl
  · split at h
    · rw [List.mem_singleton.mp h]
      rfl
    · cases h

/-- An identifier is a maximal run of word characters that is no number literal. -/
theorem Due.isRun_of_identifier {cs : List Char} {x : Lexeme} (h : Due cs x)
    (hk : x.token.kind = .identifier) {s : String} (hv : x.token.value = .text s) :
    ∃ before after, cs = before ++ (s.toList ++ after) ∧ IsRun isWordChar before s.toList after ∧
      x.token.position = before.length := by
  cases h with
  | @mark before c after kind hcs hkind =>
    unfold mark? at hkind
    dsimp only at hk
    subst hk
    split at hkind <;> cases hkind
  | star _ _ hx =>
    rw [kind_of_mem_stars hx] at hk
    cases hk
  | word hcs hrun hreads =>
    cases hreads with
    | number => cases hk
    | @identifier =>
      obtain rfl := Value.text.inj hv
      rw [String.toList_ofList]
      exact ⟨_, _, hcs, hrun, rfl⟩

end Lexeme

namespace RawScan

variable {f u v : String} {t t' : Token}

/-- Where a token that names a variable stands in the text. -/
theorem exists_isRun (ht : t ∈ scan f) (hu : t.NamesVariable u) :
    ∃ before after, f.toList = before ++ (u.toList ++ after) ∧
      IsRun isWordChar before u.toList after ∧ t.position = before.length := by
  obtain ⟨xs, hxs⟩ := Lexeme.exists_cut [] f.toList (fun _ hc => absurd hc (by simp))
  have hmap : scan f = xs.map Lexeme.token := hxs.map_token.symm
  rw [hmap] at ht
  obtain ⟨x, hx, rfl⟩ := List.mem_map.mp ht
  exact (hxs.due x hx).isRun_of_identifier hu.kind hu.value

/-- A name that counts is found in itself. -/
theorem found_of_namesVariable (hu : t.NamesVariable u) : found u.toList = [u] := by
  rw [found_of_isName hu.isName, hu.not_reserved]
  rfl

/-- A name that counts is found between the names in front of it and those behind it, if it is a
whole word. -/
theorem found_eq_append {before after : List Char} (hu : t.NamesVariable u)
    (hrun : IsRun isWordChar before u.toList after) :
    found (before ++ (u.toList ++ after)) = found before ++ u :: found after := by
  rw [found_append_of_isRun hrun, found_of_namesVariable hu]
  rfl

/-- A token that names a variable is found. -/
theorem mem_vars_of_namesVariable (ht : t ∈ scan f) (hu : t.NamesVariable u) : u ∈ vars f := by
  obtain ⟨before, after, hf, hrun, -⟩ := exists_isRun ht hu
  rw [vars_eq, hf, found_eq_append hu hrun, List.mem_eraseDups]
  exact List.mem_append_right _ List.mem_cons_self

/-- What follows a word of a text still has the later words in it. -/
theorem exists_isRun_after {cs before w after before' w' after' : List Char}
    (h : IsRun isWordChar before w after) (h' : IsRun isWordChar before' w' after')
    (hcs : cs = before ++ (w ++ after)) (hcs' : cs = before' ++ (w' ++ after'))
    (hlt : before.length < before'.length) :
    ∃ mid, after = mid ++ (w' ++ after') ∧ IsRun isWordChar mid w' after' := by
  have hpos := List.length_pos_iff.mpr h'.ne_nil
  have hle : (before ++ w).length ≤ before'.length := by
    rw [List.length_append]
    by_contra hnot
    obtain ⟨rfl, -⟩ := h.eq_of_overlap h' hcs hcs' (i := before'.length) (by omega) (by omega)
    exact Nat.lt_irrefl _ hlt
  rw [← List.append_assoc] at hcs
  obtain ⟨mid, rfl⟩ : before ++ w <+: before' :=
    List.prefix_of_prefix_length_le ⟨after, hcs.symm⟩ ⟨_, hcs'.symm⟩ hle
  have hafter : after = mid ++ (w' ++ after') := by
    rw [hcs, List.append_assoc (before ++ w)] at hcs'
    exact List.append_cancel_left hcs'
  refine ⟨mid, hafter, h'.ne_nil, h'.all, fun c hc => h'.left c ?_, h'.right⟩
  rw [List.getLast?_append, hc]
  rfl

/-- Of two tokens that name variables, the name of the first stands in front, unless the scan finds
the name of the other already in the text before the first. -/
theorem sublist_vars (ht : t ∈ scan f) (ht' : t' ∈ scan f) (hu : t.NamesVariable u)
    (hv : t'.NamesVariable v) (hne : u ≠ v) (hlt : t.position < t'.position)
    (hnot : v ∉ vars (String.ofList (f.toList.take t.position.toNat))) :
    [u, v].Sublist (vars f) := by
  obtain ⟨before, after, hf, hrun, hp⟩ := exists_isRun ht hu
  obtain ⟨before', after', hf', hrun', hp'⟩ := exists_isRun ht' hv
  obtain ⟨mid, rfl, hmid⟩ := exists_isRun_after hrun hrun' hf hf' (by omega)
  have hbefore : f.toList.take t.position.toNat = before := by
    rw [hp, Int.toNat_natCast, hf, List.take_left]
  rw [hbefore, vars_eq, String.toList_ofList, List.mem_eraseDups] at hnot
  rw [vars_eq, hf, found_eq_append hu hrun, found_eq_append hv hmid]
  exact sublist_eraseDups hne (List.mem_append_right _ List.mem_cons_self) hnot

/-- The scan for names against the tokens of a text and its tree. -/
theorem vars_refines (f : String) :
    (∀ t ∈ scan f, ∀ u, t.NamesVariable u → u ∈ vars f) ∧
    (∀ t ∈ scan f, ∀ t' ∈ scan f, ∀ u v, t.NamesVariable u → t'.NamesVariable v → u ≠ v →
      t.position < t'.position → v ∉ vars (String.ofList (f.toList.take t.position.toNat)) →
      [u, v].Sublist (vars f)) ∧
    ∀ e, Expr.parse f = .ok e → PlainExponents (runs isWordChar f.toList) →
      vars f = e.vars.filter (!isReserved ·) :=
  ⟨fun _ ht _ hu => mem_vars_of_namesVariable ht hu,
    fun _ ht _ ht' _ _ hu hv => sublist_vars ht ht' hu hv, fun _ => vars_of_parse⟩

/-- A formula with a number that has an exponent and with a reserved word. -/
theorem vars_refines_exponent :
    ("a" ∈ vars "a*2e5+Not/b" ∧ ["a", "b"].Sublist (vars "a*2e5+Not/b")) ∧
      ∃ e, Expr.parse "a*2e5+Not/b" = .ok e ∧ e.vars = ["a", "Not", "b"] ∧
        vars "a*2e5+Not/b" = e.vars.filter (!isReserved ·) := by
  obtain ⟨hmem, hsublist, hparse⟩ := vars_refines "a*2e5+Not/b"
  have ha : Token.NamesVariable ⟨.identifier, .text "a", 0⟩ "a" :=
    ⟨rfl, rfl, isName_iff.mp (by decide), by decide⟩
  have hb : Token.NamesVariable ⟨.identifier, .text "b", 10⟩ "b" :=
    ⟨rfl, rfl, isName_iff.mp (by decide), by decide⟩
  refine ⟨⟨hmem _ (by decide) _ ha, ?_⟩, ?_⟩
  · exact hsublist _ (by decide) _ (by decide) _ _ ha hb (by decide) (by decide) (by decide)
  · have hascii : ∀ w ∈ runs isWordChar "a*2e5+Not/b".toList,
        w.all (fun c => !isDecimal c || c.isDigit) = true := by decide
    have hplain : PlainExponents (runs isWordChar "a*2e5+Not/b".toList) := fun w hw _ =>
      hasPlainExponent_of_all (hascii w hw)
    have hvars : (Expr.parse "a*2e5+Not/b").toOption.map Expr.vars = some ["a", "Not", "b"] := by
      decide
    cases he : Expr.parse "a*2e5+Not/b" with
    | error reason =>
      rw [he] at hvars
      cases hvars
    | ok e =>
      rw [he] at hvars
      exact ⟨e, rfl, Option.some.inj hvars, hparse e he hplain⟩

/-- The scan does not keep to the order of the tokens: in this text it finds `a` in the first word,
in front of `b`. -/
theorem not_sublist_vars : ¬∀ t ∈ scan "x$a+b+a", ∀ t' ∈ scan "x$a+b+a", ∀ u v,
    t.NamesVariable u → t'.NamesVariable v →
    (∀ t'' ∈ scan "x$a+b+a", t''.NamesVariable v → t.position < t''.position) →
    [u, v].Sublist (vars "x$a+b+a") := by
  intro h
  have ha : Token.NamesVariable ⟨.identifier, .text "a", 6⟩ "a" :=
    ⟨rfl, rfl, isName_iff.mp (by decide), by decide⟩
  have hb : Token.NamesVariable ⟨.identifier, .text "b", 4⟩ "b" :=
    ⟨rfl, rfl, isName_iff.mp (by decide), by decide⟩
  have hfirst : ∀ t ∈ scan "x$a+b+a", t.value = .text "a" → 4 < t.position := by decide
  have hsublist := h _ (by decide) _ (by decide) "b" "a" hb ha fun t ht hv => hfirst t ht hv.value
  exact absurd hsublist (by decide)

end RawScan

end FormulaBook
