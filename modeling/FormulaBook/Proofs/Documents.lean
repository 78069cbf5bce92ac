import FormulaBook.Document.Reader
import FormulaBook.Proofs.CsvTexts
import FormulaBook.Proofs.JsonTexts
import Mathlib.Data.List.Nodup

/-!
# Reading back what was written to a formula document

Names with formulas can be written to a file as the calculations of an object, as the object itself
or as a table (`Document.Written`). If every name has a character that is not blank and no two of
them are the same without the blanks around them, they are read back from each of the three, in
order, without these blanks (`Document.read_written`). An object whose own key is `calculations`
is not taken for a list of formulas: its strings are refused.
-/

namespace FormulaBook

open Json (Content)

namespace Text

/-- What is dropped from the front is blank, and what is left does not begin with a blank. -/
theorem exists_trimLeft (cs : List Char) : ∃ front, cs = front ++ trimLeft cs ∧
    (∀ c ∈ front, isBlank c = true) ∧ ∀ c ∈ (trimLeft cs).head?, isBlank c = false := by
  refine ⟨cs.takeWhile isBlank, List.takeWhile_append_dropWhile.symm,
    fun _ hc => List.mem_takeWhile_imp hc, fun c hc => ?_⟩
  have hnot := List.head?_dropWhile_not isBlank cs
  rw [trimLeft, Option.mem_def] at hc
  rwa [hc] at hnot

/-- A trimmed text is what is left of the text when blanks are dropped from both ends until there is
none at either. -/
theorem exists_trim (s : String) : ∃ front back,
    s.toList = front ++ ((trim s).toList ++ back) ∧ (∀ c ∈ front ++ back, isBlank c = true) ∧
      (∀ c ∈ (trim s).toList.head?, isBlank c = false) ∧
      ∀ c ∈ (trim s).toList.getLast?, isBlank c = false := by
  obtain ⟨front, hfront, hblank, hhead⟩ := exists_trimLeft s.toList
  obtain ⟨back, hback, hblank', hlast⟩ := exists_trimLeft (trimLeft s.toList).reverse
  have htrim : (trim s).toList = (trimLeft (trimLeft s.toList).reverse).reverse := by
    rw [trim, String.toList_ofList]
  have hmiddle : trimLeft s.toList = (trim s).toList ++ back.reverse := by
    rw [htrim, ← List.reverse_append, ← hback, List.reverse_reverse]
  rw [hmiddle] at hfront hhead
  refine ⟨front, back.reverse, hfront, fun c hc => ?_, fun c hc => ?_, fun c hc => ?_⟩
  · exact (List.mem_append.mp hc).elim (hblank c) fun hc => hblank' c (List.mem_reverse.mp hc)
  · refine hhead c ?_
    rw [List.head?_append, hc]
    rfl
  · rw [htrim, List.getLast?_reverse] at hc
    exact hlast c hc

/-- What is not blank is not dropped. -/
theorem mem_trim {c : Char} (hc : isBlank c = false) {s : String} (h : c ∈ s.toList) :
    c ∈ (trim s).toList := by
  obtain ⟨front, back, hs, hblank, -, -⟩ := exists_trim s
  have hnot : c ∉ front ++ back := fun hmem => by simp [hblank c hmem] at hc
  rw [List.mem_append, not_or] at hnot
  rw [hs, List.mem_append, List.mem_append] at h
  exact (h.resolve_left hnot.1).resolve_right hnot.2

end Text

/-- Something of the content is not blank. -/
def Json.Content.IsVisible (s : Content) : Prop :=
  ∃ points, s.HasPoints points ∧ ∃ n ∈ points, Text.isBlankCode n = false

/-- Visible content is not blank. -/
theorem Json.Content.IsVisible.isBlank_eq_false {s : Content} (h : s.IsVisible) :
    s.isBlank = false := by
  obtain ⟨points, hpoints, n, hn, hvisible⟩ := h
  refine decide_eq_false fun htrim => ?_
  cases hpoints with
  | broken => cases htrim
  | text s =>
    obtain ⟨c, hc, rfl⟩ := List.mem_map.mp hn
    have hmem := Text.mem_trim hvisible hc
    rw [Content.text.inj htrim] at hmem
    cases hmem

namespace Document

/-- A name with its formula, both without the blanks around them. -/
def trimmed (p : Content × Content) : Content × Content := (p.1.trim, p.2.trim)

/-- Names that a document can have, each with its formula. -/
structure Clean (pairs : List (Content × Content)) : Prop where
  visible : ∀ p ∈ pairs, p.1.IsVisible
  nodup : (pairs.map fun p => p.1.trim).Nodup

/-! ## Entries -/

/-- The entry of a name with its formula. -/
def entry (p : Content × Content) : Entry := ⟨some p.1, some p.2⟩

/-- A name that is not blank and not there yet passes the check with its formula, both trimmed. -/
theorem check_entry {d : Document} {p : Content × Content} (hblank : p.1.isBlank = false)
    (hnew : p.1.trim ∉ d.entries.map Prod.fst) (row : Nat) :
    (entry p).check d row = .ok (trimmed p) := by
  have hcontains : d.contains p.1.trim = false := by simpa [contains] using hnew
  simp only [Entry.check, entry, hblank, hcontains]
  rfl

/-- Clean entries are added one after the other, unless a name is there already. -/
theorem addEntries_entry : ∀ (pairs : List (Content × Content)) (d : Document) (row : Nat),
    (∀ p ∈ pairs, p.1.isBlank = false) →
    (d.entries.map Prod.fst ++ pairs.map fun p => p.1.trim).Nodup →
    ∃ d', addEntries d row (pairs.map entry) = .ok d' ∧
      d'.entries = d.entries ++ pairs.map trimmed
  | [], d, row, _, _ => ⟨d, rfl, (List.append_nil _).symm⟩
  | p :: pairs, d, row, hblank, hnodup => by
    rw [List.forall_mem_cons] at hblank
    have hnew : p.1.trim ∉ d.entries.map Prod.fst := fun hmem =>
      List.disjoint_of_nodup_append hnodup hmem List.mem_cons_self
    have hinsert : (d.insert p.1.trim p.2.trim).entries = d.entries ++ [trimmed p] :=
      Keyed.put_of_not_mem hnew
    obtain ⟨d', hadd, hentries⟩ := addEntries_entry pairs (d.insert p.1.trim p.2.trim) (row + 1)
      hblank.2 (by rw [hinsert, List.map_append]; simpa [trimmed] using hnodup)
    refine ⟨d', ?_, ?_⟩
    · rw [List.map_cons, addEntries, check_entry hblank.1 hnew]
      exact hadd
    · rw [hentries, hinsert, List.append_assoc]
      rfl

/-- Clean names with their formulas make a document, and they are its entries once trimmed. -/
theorem ofEntries_entry {pairs : List (Content × Content)} (h : Clean pairs) (row : Nat) :
    ∃ d, ofEntries row (pairs.map entry) = .ok d ∧ d.entries = pairs.map trimmed :=
  addEntries_entry pairs empty row (fun p hp => (h.visible p hp).isBlank_eq_false) h.nodup

/-! ## Objects -/

/-- The calculation of a name with its formula. -/
def recordJson (p : Content × Content) : Json :=
  .object [(.text "name", .string p.1), (.text "formula", .string p.2)]

/-- The object with the names and formulas as its calculations. -/
def recordsJson (pairs : List (Content × Content)) : Json :=
  .object [(.text "calculations", .array (pairs.map recordJson))]

/-- The field of a name with its formula. -/
def fieldJson (p : Content × Content) : Content × Json := (p.1, .string p.2)

/-- The object of the names with their formulas. -/
def flatJson (pairs : List (Content × Content)) : Json := .object (pairs.map fieldJson)

/-- No record repeats a key. -/
theorem mergedItems_recordJson : ∀ pairs : List (Content × Content),
    Json.mergedItems (pairs.map recordJson) = pairs.map recordJson
  | [] => rfl
  | p :: pairs => by
    have hmerged : (recordJson p).merged = recordJson p := by
      simp [recordJson, Json.merged, Json.mergedFields, Keyed.put]
    rw [List.map_cons, Json.mergedItems, hmerged, mergedItems_recordJson pairs]

/-- Records are read as the entries they were written for. -/
theorem entriesOfRecords_recordJson : ∀ pairs : List (Content × Content),
    entriesOfRecords (pairs.map recordJson) = .ok (pairs.map entry)
  | [] => rfl
  | p :: pairs => by
    have hname : Json.field? "name" [(.text "name", .string p.1), (.text "formula", .string p.2)] =
        some (.string p.1) := rfl
    have hformula : Json.field? "formula"
        [(.text "name", .string p.1), (.text "formula", .string p.2)] = some (.string p.2) := rfl
    rw [List.map_cons, recordJson, entriesOfRecords, hname, hformula]
    dsimp only
    rw [entriesOfRecords_recordJson pairs]
    rfl

/-- Calculations in records are read as their entries, from the first row on. -/
theorem ofJson_recordsJson (pairs : List (Content × Content)) :
    ofJson (recordsJson pairs).merged = ofEntries 1 (pairs.map entry) := by
  have hmerged : (recordsJson pairs).merged = recordsJson pairs :=
    congrArg (fun items => Json.object [(.text "calculations", .array items)])
      (mergedItems_recordJson pairs)
  have hfield : Json.field? "calculations"
      [(.text "calculations", .array (pairs.map recordJson))] =
        some (.array (pairs.map recordJson)) := rfl
  rw [hmerged, recordsJson, ofJson, hfield]
  dsimp only
  rw [entriesOfRecords_recordJson]

/-- Fields with keys that are distinct stay as they are. -/
theorem mergedFields_fieldJson : ∀ (pairs : List (Content × Content))
    (before : List (Content × Json)), (before.map Prod.fst ++ pairs.map Prod.fst).Nodup →
    Json.mergedFields before (pairs.map fieldJson) = before ++ pairs.map fieldJson
  | [], before, _ => (List.append_nil before).symm
  | p :: pairs, before, hnodup => by
    have hnew : p.1 ∉ before.map Prod.fst := fun hmem =>
      List.disjoint_of_nodup_append hnodup hmem List.mem_cons_self
    rw [List.map_cons, fieldJson, Json.mergedFields, Keyed.put_of_not_mem hnew,
      mergedFields_fieldJson pairs _ (by simpa using hnodup), List.append_assoc]
    rfl

/-- Distinct names as keys are read as their entries, unless one is the key of calculations. -/
theorem ofJson_flatJson {pairs : List (Content × Content)} (hnodup : (pairs.map Prod.fst).Nodup)
    (hkey : .text "calculations" ∉ pairs.map Prod.fst) :
    ofJson (flatJson pairs).merged = ofEntries 1 (pairs.map entry) := by
  have hmerged : (flatJson pairs).merged = flatJson pairs :=
    congrArg Json.object (mergedFields_fieldJson pairs [] hnodup)
  have hfield : Json.field? "calculations" (pairs.map fieldJson) = none := by
    refine List.lookup_eq_none_iff.mpr fun f hf => ?_
    obtain ⟨p, hp, rfl⟩ := List.mem_map.mp hf
    rw [bne_iff_ne]
    rintro hname
    exact hkey (hname ▸ List.mem_map_of_mem hp)
  rw [hmerged, flatJson, ofJson, hfield]
  dsimp only
  rw [List.map_map]
  rfl

/-- Every key of an object of strings has a string as its value, also if keys are repeated. -/
theorem exists_lookup_mergedFields {key : Content} : ∀ (pairs : List (Content × Content))
    (before : List (Content × Json)), (∀ f ∈ before, ∃ s, f.2 = .string s) →
    key ∈ before.map Prod.fst ∨ key ∈ pairs.map Prod.fst →
    ∃ s, (Json.mergedFields before (pairs.map fieldJson)).lookup key = some (.string s)
  | [], before, hstrings, hkey => by
    obtain ⟨⟨k, j⟩, hf, rfl⟩ := List.mem_map.mp (hkey.resolve_right List.not_mem_nil)
    cases hlookup : before.lookup k with
    | none => simpa using List.lookup_eq_none_iff.mp hlookup _ hf
    | some j' =>
      obtain ⟨l, l', rfl, -⟩ := List.lookup_eq_some_iff.mp hlookup
      obtain ⟨s, rfl⟩ := hstrings (k, j') (by simp)
      exact ⟨s, hlookup⟩
  | p :: pairs, before, hstrings, hkey => by
    refine exists_lookup_mergedFields pairs (Keyed.put p.1 (.string p.2) before) (fun f hf => ?_) ?_
    · rcases Keyed.mem_put hf with rfl | hf
      · exact ⟨p.2, rfl⟩
      · exact hstrings f hf
    · rw [List.map_cons, List.mem_cons, or_left_comm, ← or_assoc] at hkey
      exact hkey.imp_left Keyed.mem_map_fst_put

/-- The calculations of an object are not a string. -/
theorem ofJson_flatJson_of_key {pairs : List (Content × Content)}
    (hkey : .text "calculations" ∈ pairs.map Prod.fst) :
    ofJson (flatJson pairs).merged = .error .calculationsNotList := by
  obtain ⟨s, hfield⟩ := exists_lookup_mergedFields pairs []
    (fun _ hf => absurd hf List.not_mem_nil) (.inr hkey)
  have hfield : Json.field? "calculations" (Json.mergedFields [] (pairs.map fieldJson)) =
      some (.string s) := hfield
  rw [flatJson, Json.merged, ofJson, hfield]

/-! ## Tables -/

/-- Texts as what JSON strings hold. -/
def contents (texts : List (String × String)) : List (Content × Content) :=
  texts.map fun p => (.text p.1, .text p.2)

/-- The names of the columns, and names with their formulas below them. -/
def rowsOf (pairs : List (String × String)) : List (List String) :=
  ["name", "formula"] :: pairs.map fun p => [p.1, p.2]

/-- Without a fault in the table, what was read stands. -/
theorem beforeFault_none (r : Except DocumentError Document) : beforeFault none r = r := by
  cases r <;> rfl

/-- A table of names with formulas is read as their entries, from the second row on. -/
theorem ofTable_rowsOf (pairs : List (String × String)) :
    ofTable ⟨some ["name", "formula"], pairs.map fun p => [p.1, p.2], none⟩ =
      ofEntries 2 ((contents pairs).map entry) := by
  have hname : Csv.lastIndex? ["name", "formula"] "name" = some 0 := by decide
  have hformula : Csv.lastIndex? ["name", "formula"] "formula" = some 1 := by decide
  have hentry (p : String × String) :
      entryOfRecord ⟨some ["name", "formula"], pairs.map fun p => [p.1, p.2], none⟩ [p.1, p.2] =
        entry (.text p.1, .text p.2) := by
    simp [entryOfRecord, Csv.Table.cell?, Csv.Table.header, hname, hformula, entry]
  have hmissing : requiredHeaders.filter (fun h => !(["name", "formula"].contains h)) = [] := by
    decide
  have hheader : ∀ records, Csv.Table.header ⟨some ["name", "formula"], records, none⟩ =
      ["name", "formula"] := fun _ => rfl
  rw [ofTable, hheader, hmissing, contents, List.map_map, List.map_map]
  show beforeFault none (ofEntries 2 (pairs.map _)) = ofEntries 2 (pairs.map _)
  rw [beforeFault_none]
  exact congrArg (ofEntries 2) (List.map_congr_left fun p _ => hentry p)

/-! ## Files -/

/-- How names with formulas may be written to a file, which may be one for tables. -/
inductive Written (pairs : List (Content × Content)) : Bool → String → Prop
  | records {s} : (recordsJson pairs).IsTextOf s → Written pairs false s
  | table {texts s} : pairs = contents texts →
      (∀ p ∈ texts, p.1.length ≤ maxCellLength ∧ p.2.length ≤ maxCellLength) →
      Csv.SpellsRows (rowsOf texts) s.toList → Written pairs true s
  | flat {s} : .text "calculations" ∉ pairs.map Prod.fst → (flatJson pairs).IsTextOf s →
      Written pairs false s

/-- The text written for calculations in records is one of their texts. -/
theorem isTextOf_recordsJson (texts : List (String × String)) :
    (recordsJson (contents texts)).IsTextOf (recordsJson (contents texts)).text := by
  refine Json.isTextOf_text (Json.isWritable_object (List.forall_mem_singleton.mpr ⟨⟨_, rfl⟩, ?_⟩))
  simp only [contents, List.map_map]
  refine Json.isWritable_array (List.forall_mem_map.mpr fun p _ => Json.isWritable_object ?_)
  rw [List.forall_mem_cons, List.forall_mem_singleton]
  exact ⟨⟨⟨_, rfl⟩, Json.isWritable_string p.1⟩, ⟨_, rfl⟩, Json.isWritable_string p.2⟩

/-- The text written for names as keys is one of their texts. -/
theorem isTextOf_flatJson (texts : List (String × String)) :
    (flatJson (contents texts)).IsTextOf (flatJson (contents texts)).text := by
  refine Json.isTextOf_text (Json.isWritable_object ?_)
  simp only [contents, List.map_map]
  exact List.forall_mem_map.mpr fun p _ => ⟨⟨_, rfl⟩, Json.isWritable_string p.2⟩

/-- A file with the bytes of a text is read as the text. -/
theorem read_toUTF8 (path s : String) :
    read path (.bytes s.toUTF8) = ofText (.ofString path) s := by
  have hdecode : String.fromUTF8? s.toUTF8 = some s := dif_pos s.isValidUTF8
  rw [read, hdecode]

/-- Clean names are distinct. -/
theorem Clean.nodup_names {pairs : List (Content × Content)} (h : Clean pairs) :
    (pairs.map Prod.fst).Nodup := by
  have hnodup := h.nodup
  rw [← Function.comp_def, ← List.map_map] at hnodup
  exact hnodup.of_map

/-- The document of a JSON text is that of the value it is a text of. -/
theorem ofText_of_isTextOf {path : Path} (hpath : isTable path = false) {j : Json} {s : String}
    (h : j.IsTextOf s) : ofText path s = ofJson j.merged := by
  rw [ofText, hpath, Json.read?_of_isTextOf h]
  rfl

/-- What is written to a file by any of the three layouts is read back from it, without the blanks
around names and formulas; an object of strings with the key `calculations` is refused. -/
theorem read_written (pairs : List (Content × Content)) (path s : String) :
    (Clean pairs → Written pairs (isTable (.ofString path)) s →
      ∃ d, read path (.bytes s.toUTF8) = .ok d ∧ d.entries = pairs.map trimmed) ∧
    (.text "calculations" ∈ pairs.map Prod.fst → isTable (.ofString path) = false →
      (flatJson pairs).IsTextOf s → read path (.bytes s.toUTF8) = .error .calculationsNotList) := by
  rw [read_toUTF8]
  refine ⟨fun hclean hwritten => ?_, fun hkey hpath htext => ?_⟩
  · generalize htable : isTable (.ofString path) = table at hwritten
    cases hwritten with
    | records htext =>
      rw [ofText_of_isTextOf htable htext, ofJson_recordsJson]
      exact ofEntries_entry hclean 1
    | @table texts _ hpairs hfits hrows =>
      have hcells : ∀ row ∈ rowsOf texts, Csv.fits maxCellLength row = true := by
        rw [rowsOf, List.forall_mem_cons, List.forall_mem_map]
        exact ⟨by decide, fun p hp => by simpa [Csv.fits] using hfits p hp⟩
      rw [ofText, if_pos htable, Csv.Table.ofText_eq hrows hcells, ofTable_rowsOf, ← hpairs]
      exact ofEntries_entry hclean 2
    | flat hkey htext =>
      rw [ofText_of_isTextOf htable htext, ofJson_flatJson hclean.nodup_names hkey]
      exact ofEntries_entry hclean 1
  · rw [ofText_of_isTextOf hpath htext, ofJson_flatJson_of_key hkey]

/-- A name loses the blank in front of it, and an object with the key `calculations` is refused. -/
theorem read_written_blank_name :
    (∃ d, read "book.json" (.bytes (recordsJson (contents [(" a", "\"")])).text.toUTF8) = .ok d ∧
      d.entries = contents [("a", "\"")]) ∧
    read "book.json" (.bytes (flatJson (contents [("calculations", "a")])).text.toUTF8) =
      .error .calculationsNotList := by
  have hpath : isTable (.ofString "book.json") = false := by decide +kernel
  have hvisible : Content.IsVisible (.text " a") := ⟨_, .text _, 'a'.toNat, by decide, by decide⟩
  have hclean : Clean (contents [(" a", "\"")]) :=
    ⟨List.forall_mem_singleton.mpr hvisible, List.nodup_singleton _⟩
  have htrim : (contents [(" a", "\"")]).map trimmed = contents [("a", "\"")] := by decide +kernel
  have hwritten : Written (contents [(" a", "\"")]) (isTable (.ofString "book.json"))
      (recordsJson (contents [(" a", "\"")])).text :=
    hpath ▸ .records (isTextOf_recordsJson _)
  obtain ⟨d, hread, hentries⟩ := (read_written _ "book.json" _).1 hclean hwritten
  refine ⟨⟨d, hread, hentries.trans htrim⟩, ?_⟩
  exact (read_written _ "book.json" _).2 List.mem_cons_self hpath (isTextOf_flatJson _)

end Document

end FormulaBook
