import FormulaBook.Proofs.Documents
import Mathlib.Data.List.DropRight

/-!
# Which entries make a document

A sequence of entries makes a document if it is clean (`Document.CleanEntries`): every entry is a
name with a formula, no name is blank, and no two names are the same without the blanks around
them. The document then has these names and formulas, without the blanks. Otherwise the first entry
with a fault, given the entries in front of it, is reported (`Entry.Fault`). Main statement:
`Document.ofEntries_clean_or_faulty`. The entries of a document make that document again.
-/

namespace FormulaBook

open Json (Content)

/-! ## Blanks around contents -/

namespace Text

/-- When both ends have been dropped there is nothing left to drop in front. -/
theorem dropWhile_rdropWhile {α : Type} (p : α → Bool) (l : List α) :
    ((l.dropWhile p).rdropWhile p).dropWhile p = (l.dropWhile p).rdropWhile p := by
  cases hleft : (l.dropWhile p).rdropWhile p with
  | nil => rfl
  | cons c cs =>
    obtain ⟨back, hback⟩ := List.rdropWhile_prefix p (l := l.dropWhile p)
    have hfirst := List.head?_dropWhile_not p l
    rw [← hback, hleft] at hfirst
    exact List.dropWhile_cons_of_neg (Bool.eq_false_iff.mp hfirst)

/-- Dropping from both ends a second time drops nothing. -/
theorem rdropWhile_dropWhile_idem {α : Type} (p : α → Bool) (l : List α) :
    (((l.dropWhile p).rdropWhile p).dropWhile p).rdropWhile p = (l.dropWhile p).rdropWhile p := by
  rw [dropWhile_rdropWhile, List.rdropWhile_idempotent]

/-- Trimming a second time changes nothing. -/
theorem trim_trim (s : String) : trim (trim s) = trim s := by
  rw [trim, trim, String.toList_ofList]
  exact congrArg String.ofList (rdropWhile_dropWhile_idem isBlank s.toList)

/-- Nothing is left of a text of blanks. -/
theorem trim_eq_empty {s : String} (h : ∀ c ∈ s.toList, isBlank c = true) : trim s = "" := by
  rw [trim, trimLeft, trimLeft, List.dropWhile_eq_nil_iff.mpr h]
  rfl

/-- No blank character comes after the ideographic space. -/
theorem le_of_isBlankCode {n : Nat} (h : isBlankCode n = true) : n ≤ 0x3000 := by
  obtain ⟨r, hr, hn⟩ := List.any_eq_true.mp h
  have hlast : ∀ r ∈ blankRanges, r.last ≤ 0x3000 := by decide
  rw [Range.holds, Bool.and_eq_true, decide_eq_true_eq, decide_eq_true_eq] at hn
  exact hn.2.trans (hlast r hr)

end Text

namespace Json

/-- No half of a surrogate pair is blank. -/
theorem isBlankCode_of_isSurrogate {n : Nat} (h : isSurrogate n = true) :
    Text.isBlankCode n = false := by
  rw [Bool.eq_false_iff]
  intro hblank
  have hle := Text.le_of_isBlankCode hblank
  simp only [isSurrogate, isHighSurrogate, isLowSurrogate, Bool.or_eq_true, Bool.and_eq_true,
    decide_eq_true_eq] at h
  omega

namespace Content

/-- Among the code points of the content is one that is not blank, such as half of a surrogate
pair. -/
def HasInk (s : Content) : Prop :=
  ∀ points, s.HasPoints points → ∃ n ∈ points, Text.isBlankCode n = false

/-- Trimming content a second time changes nothing. -/
theorem trim_trim : ∀ s : Content, s.trim.trim = s.trim
  | .text s => congrArg text (Text.trim_trim s)
  | .broken codes => congrArg broken (Text.rdropWhile_dropWhile_idem Text.isBlankCode codes)

/-- Trimming does not change whether content is blank. -/
theorem isBlank_trim (s : Content) : s.trim.isBlank = s.isBlank := by
  rw [isBlank, isBlank, trim_trim]

/-- The content that is not blank is the one with ink. -/
theorem isBlank_eq_false_iff {s : Content} : s.isBlank = false ↔ s.HasInk := by
  refine ⟨fun h points hpoints => ?_, fun h => ?_⟩
  · cases hpoints with
    | text s =>
      by_contra hnone
      simp only [not_exists, not_and, Bool.not_eq_false] at hnone
      have htrim : trim (.text s) = .text "" :=
        congrArg text (Text.trim_eq_empty fun c hc => hnone c.toNat (List.mem_map_of_mem hc))
      exact of_decide_eq_false h htrim
    | broken hhalf =>
      obtain ⟨n, hn, hhalf⟩ := hhalf
      exact ⟨n, hn, isBlankCode_of_isSurrogate hhalf⟩
  · cases s with
    | text s => exact IsVisible.isBlank_eq_false ⟨_, .text s, h _ (.text s)⟩
    | broken codes => exact decide_eq_false nofun

/-- Content keeps its ink when it is trimmed. -/
theorem HasInk.trim {s : Content} (h : s.HasInk) : s.trim.HasInk := by
  rw [← isBlank_eq_false_iff] at h ⊢
  rw [isBlank_trim, h]

end Content

end Json

/-! ## Faults -/

/-- What is reported of an entry at the given row below entries with the given names: that its name
is no text or blank, else that its formula is no text, else that its name is there already. -/
inductive Entry.Fault (names : List Content) (row : Nat) : Entry → DocumentError → Prop
  | badName {name? formula?} : (∀ s, name? = some s → ¬s.HasInk) →
      Fault names row ⟨name?, formula?⟩ (.badName row)
  | badFormula {s : Content} : s.HasInk → Fault names row ⟨some s, none⟩ (.badFormula row s.display)
  | duplicateName {s formula : Content} : s.HasInk → s.trim ∈ names →
      Fault names row ⟨some s, some formula⟩ (.duplicateName row s.trim.display)

namespace Document

/-- The entries are names with formulas that can all go into one document. -/
structure CleanEntries (l : List Entry) (pairs : List (Content × Content)) : Prop where
  eq_map : l = pairs.map entry
  hasInk : ∀ p ∈ pairs, p.1.HasInk
  nodup : (pairs.map fun p => p.1.trim).Nodup

/-- An entry with a fault is refused. -/
theorem check_of_fault {d : Document} {row : Nat} {e : Entry} {reason : DocumentError}
    (h : e.Fault (d.entries.map Prod.fst) row reason) : e.check d row = .error reason := by
  cases h with
  | @badName name? _ hname =>
    cases name? with
    | none => rfl
    | some s =>
      have hblank : s.isBlank = true := by
        rw [← Bool.not_eq_false, Content.isBlank_eq_false_iff]
        exact hname s rfl
      exact if_pos hblank
  | badFormula hink => simp [Entry.check, Content.isBlank_eq_false_iff.mpr hink]
  | @duplicateName s _ hink hmem =>
    have hcontains : d.contains s.trim = true := by simpa [contains] using hmem
    simp [Entry.check, Content.isBlank_eq_false_iff.mpr hink, hcontains]

/-- An entry either goes below entries with the given names or has a fault there. -/
theorem entry_or_fault (names : List Content) (row : Nat) : ∀ e : Entry,
    (∃ p, e = entry p ∧ p.1.HasInk ∧ p.1.trim ∉ names) ∨ ∃ reason, e.Fault names row reason
  | ⟨none, _⟩ => .inr ⟨_, .badName nofun⟩
  | ⟨some s, formula?⟩ => by
    by_cases hink : s.HasInk
    · cases formula? with
      | none => exact .inr ⟨_, .badFormula hink⟩
      | some formula =>
        by_cases hmem : s.trim ∈ names
        · exact .inr ⟨_, .duplicateName hink hmem⟩
        · exact .inl ⟨(s, formula), rfl, hink, hmem⟩
    · exact .inr ⟨_, .badName fun _ hs => Option.some.inj hs ▸ hink⟩

/-! ## Sequences of entries -/

/-- Clean entries make a document with the trimmed names and formulas. -/
theorem CleanEntries.ofEntries {l : List Entry} {pairs : List (Content × Content)}
    (h : CleanEntries l pairs) (row : Nat) :
    ∃ d, ofEntries row l = .ok d ∧ d.entries = pairs.map trimmed := by
  rw [h.eq_map]
  exact addEntries_entry pairs empty row
    (fun p hp => Content.isBlank_eq_false_iff.mpr (h.hasInk p hp)) h.nodup

/-- More entries are added to the document that the first ones have made, from the row behind them
on. -/
theorem addEntries_append {d' : Document} : ∀ {l : List Entry} {d : Document} {row : Nat},
    addEntries d row l = .ok d' → ∀ l' : List Entry,
      addEntries d row (l ++ l') = addEntries d' (row + l.length) l'
  | [], d, row, h, l' => by
    cases h
    rfl
  | e :: l, d, row, h, l' => by
    rw [addEntries] at h
    rw [List.cons_append, addEntries]
    cases hcheck : e.check d row with
    | error reason =>
      rw [hcheck] at h
      cases h
    | ok p =>
      rw [hcheck] at h
      rw [List.length_cons, ← Nat.add_assoc, Nat.add_right_comm]
      exact addEntries_append h l'

/-- The first fault of a sequence of entries, the first of which is at the given row. -/
def FirstFault (row : Nat) (l : List Entry) (reason : DocumentError) : Prop :=
  ∃ before e after pairs, l = before ++ e :: after ∧ CleanEntries before pairs ∧
    e.Fault (pairs.map fun p => p.1.trim) (row + before.length) reason

/-- A first fault is what is reported. -/
theorem FirstFault.ofEntries {row : Nat} {l : List Entry} {reason : DocumentError}
    (h : FirstFault row l reason) : ofEntries row l = .error reason := by
  obtain ⟨before, e, after, pairs, rfl, hclean, hfault⟩ := h
  obtain ⟨d, hd, hentries⟩ := hclean.ofEntries row
  have hnames : d.entries.map Prod.fst = pairs.map fun p => p.1.trim := by
    rw [hentries, List.map_map]
    rfl
  rw [Document.ofEntries, addEntries_append hd, addEntries, check_of_fault (hnames ▸ hfault)]

/-- No entries are clean. -/
theorem cleanEntries_nil : CleanEntries [] [] :=
  ⟨rfl, fun _ hp => absurd hp List.not_mem_nil, List.nodup_nil⟩

/-- One more entry at the end of clean ones. -/
theorem CleanEntries.concat {l : List Entry} {pairs : List (Content × Content)}
    (h : CleanEntries l pairs) {p : Content × Content} (hink : p.1.HasInk)
    (hnew : p.1.trim ∉ pairs.map fun p => p.1.trim) :
    CleanEntries (l ++ [entry p]) (pairs ++ [p]) where
  eq_map := by rw [h.eq_map, List.map_append, List.map_singleton]
  hasInk q hq := (List.mem_append.mp hq).elim (h.hasInk q) fun hq => by
    rwa [List.mem_singleton.mp hq]
  nodup := by
    rw [List.map_append, List.map_singleton, ← List.concat_eq_append]
    exact h.nodup.concat hnew

/-- Entries are clean or have a first fault. The induction is on the last entry: what it may be
depends on all those in front of it. -/
theorem clean_or_firstFault (row : Nat) (l : List Entry) :
    (∃ pairs, CleanEntries l pairs) ∨ ∃ reason, FirstFault row l reason := by
  induction l using List.reverseRecOn with
  | nil => exact .inl ⟨[], cleanEntries_nil⟩
  | append_singleton l e ih =>
    rcases ih with ⟨pairs, hclean⟩ | ⟨reason, before, e', after, pairs, rfl, hclean, hfault⟩
    · rcases entry_or_fault (pairs.map fun p => p.1.trim) (row + l.length) e with
        ⟨p, rfl, hink, hnew⟩ | ⟨reason, hfault⟩
      · exact .inl ⟨pairs ++ [p], hclean.concat hink hnew⟩
      · exact .inr ⟨reason, l, e, [], pairs, rfl, hclean, hfault⟩
    · exact .inr ⟨reason, before, e', after ++ [e], pairs, List.append_assoc _ _ _, hclean, hfault⟩

/-- Entries that make a document are clean. -/
theorem clean_of_ofEntries {row : Nat} {l : List Entry} {d : Document}
    (h : ofEntries row l = .ok d) :
    ∃ pairs, CleanEntries l pairs ∧ d.entries = pairs.map trimmed := by
  rcases clean_or_firstFault row l with ⟨pairs, hclean⟩ | ⟨reason, hfault⟩
  · obtain ⟨d', hd', hentries⟩ := hclean.ofEntries row
    cases h.symm.trans hd'
    exact ⟨pairs, hclean, hentries⟩
  · cases h.symm.trans hfault.ofEntries

/-- What is reported is a first fault. -/
theorem firstFault_of_ofEntries {row : Nat} {l : List Entry} {reason : DocumentError}
    (h : ofEntries row l = .error reason) : FirstFault row l reason := by
  rcases clean_or_firstFault row l with ⟨pairs, hclean⟩ | ⟨reason', hfault⟩
  · obtain ⟨d, hd, -⟩ := hclean.ofEntries row
    cases h.symm.trans hd
  · cases h.symm.trans hfault.ofEntries
    exact hfault

/-! ## Documents as entries -/

/-- Trimming a name and its formula a second time changes nothing. -/
theorem trimmed_trimmed (p : Content × Content) : trimmed (trimmed p) = trimmed p :=
  Prod.ext p.1.trim_trim p.2.trim_trim

/-- Clean entries stay clean without the blanks around names and formulas. -/
theorem CleanEntries.trimmed {l : List Entry} {pairs : List (Content × Content)}
    (h : CleanEntries l pairs) :
    CleanEntries ((pairs.map Document.trimmed).map entry) (pairs.map Document.trimmed) where
  eq_map := rfl
  hasInk := List.forall_mem_map.mpr fun p hp => (h.hasInk p hp).trim
  nodup := by
    have hnames : (pairs.map Document.trimmed).map (fun p => p.1.trim) =
        pairs.map fun p => p.1.trim := by
      rw [List.map_map]
      exact List.map_congr_left fun p _ => p.1.trim_trim
    rw [hnames]
    exact h.nodup

/-- A document is given by its entries. -/
theorem eq_of_entries_eq : ∀ {d d' : Document}, d.entries = d'.entries → d = d'
  | ⟨_, _⟩, ⟨_, _⟩, rfl => rfl

/-- A document is made again from its own entries, from whatever row on they are counted. -/
theorem ofEntries_entries {row : Nat} {l : List Entry} {d : Document} (h : ofEntries row l = .ok d)
    (row' : Nat) : ofEntries row' (d.entries.map entry) = .ok d := by
  obtain ⟨pairs, hclean, hentries⟩ := clean_of_ofEntries h
  obtain ⟨d', hd', hentries'⟩ := hclean.trimmed.ofEntries row'
  have htwice : (pairs.map trimmed).map trimmed = pairs.map trimmed := by
    rw [List.map_map]
    exact List.map_congr_left fun p _ => trimmed_trimmed p
  rw [hentries, hd', eq_of_entries_eq (hentries'.trans (htwice.trans hentries.symm))]

/-! ## Main statement -/

/-- Entries make a document exactly if they are clean, and it has their names and formulas without
the blanks around them; otherwise their first fault is reported. The entries of a document make
that document again. -/
theorem ofEntries_clean_or_faulty (row : Nat) (l : List Entry) :
    (∀ entries, (ofEntries row l).map Document.entries = .ok entries ↔
      ∃ pairs, CleanEntries l pairs ∧ entries = pairs.map trimmed) ∧
    (∀ reason, ofEntries row l = .error reason ↔ FirstFault row l reason) ∧
    ∀ d row', ofEntries row l = .ok d → ofEntries row' (d.entries.map entry) = .ok d := by
  refine ⟨fun entries => ⟨fun h => ?_, ?_⟩,
    fun reason => ⟨firstFault_of_ofEntries, FirstFault.ofEntries⟩,
    fun d row' h => ofEntries_entries h row'⟩
  · cases hl : ofEntries row l with
    | error reason =>
      rw [hl] at h
      cases h
    | ok d =>
      rw [hl] at h
      cases h
      exact clean_of_ofEntries hl
  · rintro ⟨pairs, hclean, rfl⟩
    obtain ⟨d, hd, hentries⟩ := hclean.ofEntries row
    rw [hd, ← hentries]
    rfl

/-- The blanks around names and formulas are dropped, and a name that is there without them is a
duplicate. -/
theorem ofEntries_clean_or_faulty_blanks :
    (∃ d, ofEntries 1 [entry (.text " a", .text "b + 1 ")] = .ok d ∧
      d.entries = [(.text "a", .text "b + 1")] ∧
      ofEntries 2 [entry (.text "a", .text "b + 1")] = .ok d) ∧
    ofEntries 1 [entry (.text " a", .text "b + 1 "), entry (.text "a", .text "2")] =
      .error (.duplicateName 2 "a") := by
  have hink : Content.HasInk (.text " a") :=
    Content.isBlank_eq_false_iff.mp (by decide +kernel)
  have hclean : CleanEntries [entry (.text " a", .text "b + 1 ")] [(.text " a", .text "b + 1 ")] :=
    ⟨rfl, List.forall_mem_singleton.mpr hink, List.nodup_singleton _⟩
  have htrim : [(Content.text "a", Content.text "b + 1")] =
      [(Content.text " a", Content.text "b + 1 ")].map trimmed := by decide +kernel
  obtain ⟨hok, -, hagain⟩ := ofEntries_clean_or_faulty 1 [entry (.text " a", .text "b + 1 ")]
  have hentries := (hok _).mpr ⟨_, hclean, htrim⟩
  refine ⟨?_, ?_⟩
  · cases hd : ofEntries 1 [entry (.text " a", .text "b + 1 ")] with
    | error reason =>
      rw [hd] at hentries
      cases hentries
    | ok d =>
      rw [hd] at hentries
      have hentries : d.entries = [(.text "a", .text "b + 1")] := Except.ok.inj hentries
      have hread := hagain d 2 hd
      rw [hentries] at hread
      exact ⟨d, rfl, hentries, hread⟩
  · have hink' : Content.HasInk (.text "a") := Content.isBlank_eq_false_iff.mp (by decide +kernel)
    refine ((ofEntries_clean_or_faulty 1 _).2.1 _).mpr ⟨_, _, [], _, rfl, hclean, ?_⟩
    exact .duplicateName hink' (by decide +kernel)

end Document

end FormulaBook
