import FormulaBook.Proofs.SumsOfProducts
import Mathlib.Data.List.Find

/-!
# Texts with other words

`mapWords image` puts the image of each word of a text in the place of the word and keeps all else.
What the image is may depend on whether an opening parenthesis follows the word. Texts are cut
between words (`cut_induction`), so a text with other words is taken apart into the pieces with
other words: into terms (`terms_mapWords`), into factors (`factors?_mapWords`) and, where no group
follows a word, at the first group (`group?_mapWords`).
-/

namespace FormulaBook

open Token

namespace Text

/-- Any number of characters that are not `p`, and behind each `p` again: induction over a text. -/
theorem cut_induction {p : Char → Bool} {motive : List Char → Prop}
    (free : ∀ as, (∀ c ∈ as, p c = false) → motive as)
    (cut : ∀ as c bs, (∀ d ∈ as, p d = false) → p c = true → motive bs → motive (as ++ c :: bs))
    (cs : List Char) : motive cs := by
  suffices h : ∀ as, (∀ c ∈ as, p c = false) → motive (as ++ cs) from h [] nofun
  induction cs with
  | nil =>
    intro as has
    rw [List.append_nil]
    exact free as has
  | cons c cs ih =>
    intro as has
    cases hc : p c with
    | true => exact cut as c cs has hc (ih [] nofun)
    | false =>
      rw [List.append_cons]
      refine ih (as ++ [c]) fun d hd => ?_
      rcases List.mem_append.mp hd with hd | hd
      · exact has d hd
      · rw [List.mem_singleton.mp hd, hc]

/-- A word, or a word, a character of another kind and a text: induction over the words of a text.
The words may be empty here. -/
theorem word_induction {motive : List Char → Prop}
    (word : ∀ w, (∀ c ∈ w, isWordChar c = true) → motive w)
    (cut : ∀ w c cs, (∀ d ∈ w, isWordChar d = true) → isWordChar c = false → motive cs →
      motive (w ++ c :: cs))
    (cs : List Char) : motive cs := by
  have hword {w : List Char} (h : ∀ c ∈ w, (!isWordChar c) = false) :
      ∀ c ∈ w, isWordChar c = true := fun c hc => by simpa using h c hc
  induction cs using cut_induction (p := (!isWordChar ·)) with
  | free w hw => exact word w (hword hw)
  | cut w c cs hw hc ih => exact cut w c cs (hword hw) (by simpa using hc) ih

/-- Word characters, at least one. -/
structure IsWord (w : List Char) : Prop where
  ne_nil : w ≠ []
  all : ∀ c ∈ w, isWordChar c = true

/-- A name is a word. -/
theorem IsWord.of_name {s : String} (h : IsName s) : IsWord s.toList :=
  ⟨(isWordChar_of_mem_name h).1, (isWordChar_of_mem_name h).2⟩

/-- No other character is in a word. -/
theorem IsWord.not_mem {w : List Char} (h : IsWord w) {c : Char} (hc : isWordChar c = false) :
    c ∉ w := fun hmem => by
  rw [h.all c hmem] at hc
  cases hc

/-- A word is its only run. -/
theorem IsWord.runs_eq {w : List Char} (h : IsWord w) : runs isWordChar w = [w] :=
  runs_of_forall h.ne_nil h.all

/-- Behind a character that is in no run the runs begin anew. -/
theorem runs_append_of_getLast? {p : Char → Bool} {as : List Char}
    (has : ∀ d ∈ as.getLast?, p d = false) (bs : List Char) :
    runs p (as ++ bs) = runs p as ++ runs p bs := by
  rcases List.eq_nil_or_concat' as with rfl | ⟨as, d, rfl⟩
  · rfl
  · have hd : p d = false := has d (by simp)
    rw [List.append_assoc, List.singleton_append, runs_append hd, runs_append hd]
    simp [runs]

/-- A run goes on over the end of a text. -/
theorem exists_runs_append {p : Char → Bool} {w ds : List Char} (hw : ∀ c ∈ w, p c = true)
    (hds : ds.head?.any p = true) :
    ∃ run rest, run ≠ [] ∧ runs p (w ++ ds) = (w ++ run) :: rest := by
  induction w with
  | nil =>
    obtain ⟨d, ds, rfl⟩ : ∃ d ds', ds = d :: ds' := by
      cases ds with
      | nil => cases hds
      | cons d ds => exact ⟨d, ds, rfl⟩
    cases h : ds.head?.any p with
    | false => exact ⟨[d], runs p ds, List.cons_ne_nil _ _, runs_cons_of_head hds h⟩
    | true =>
      obtain ⟨run, rest, -, hcons⟩ := exists_runs_cons hds h
      exact ⟨d :: run, rest, List.cons_ne_nil _ _, hcons⟩
  | cons c w ih =>
    obtain ⟨hc, hw⟩ := List.forall_mem_cons.mp hw
    obtain ⟨run, rest, hne, hruns⟩ := ih hw
    have hhead : (w ++ ds).head?.any p = true := by
      cases w with
      | nil => exact hds
      | cons d w => exact hw d List.mem_cons_self
    obtain ⟨run', rest', hruns', hcons⟩ := exists_runs_cons hc hhead
    obtain ⟨rfl, rfl⟩ := List.cons.inj (hruns.symm.trans hruns')
    exact ⟨run, rest, hne, hcons⟩

/-! ## Words and their images -/

/-- The image of the characters of a word; nothing for no characters. -/
def wordImage (image : Bool → List Char → List Char) (called : Bool) (w : List Char) :
    List Char :=
  if w.isEmpty then [] else image called w

/-- The images of the words of a text. The characters of a word that has begun are in `word`, the
last one first. -/
def mapWordsFrom (image : Bool → List Char → List Char) (word : List Char) :
    List Char → List Char
  | [] => wordImage image false word.reverse
  | c :: cs =>
    if isWordChar c then mapWordsFrom image (c :: word) cs
    else wordImage image (c == '(') word.reverse ++ c :: mapWordsFrom image [] cs

/-- A text with the image of each word in its place. The image may depend on whether an opening
parenthesis follows the word. -/
def mapWords (image : Bool → List Char → List Char) (cs : List Char) : List Char :=
  mapWordsFrom image [] cs

/-- The images of words are words. -/
def KeepsWords (image : Bool → List Char → List Char) : Prop :=
  ∀ called w, IsWord w → IsWord (image called w)

section

variable {image : Bool → List Char → List Char} {called : Bool} {w as bs cs : List Char} {c : Char}

/-- The characters of a word have its image. -/
theorem wordImage_of_isWord (h : IsWord w) : wordImage image called w = image called w := by
  rw [wordImage, if_neg (by simpa using h.ne_nil)]

/-- Word characters go on with the word that has begun. -/
theorem mapWordsFrom_append (hw : ∀ c ∈ w, isWordChar c = true) (word cs : List Char) :
    mapWordsFrom image word (w ++ cs) = mapWordsFrom image (w.reverse ++ word) cs := by
  induction w generalizing word with
  | nil => rfl
  | cons c w ih =>
    obtain ⟨hc, hw⟩ := List.forall_mem_cons.mp hw
    rw [List.cons_append, mapWordsFrom, if_pos hc, ih hw, List.reverse_cons, List.append_assoc]
    rfl

/-- A text of word characters has their image in its place. -/
theorem mapWords_of_forall (hw : ∀ c ∈ w, isWordChar c = true) :
    mapWords image w = wordImage image false w := by
  have h : mapWordsFrom image [] (w ++ []) = mapWordsFrom image (w.reverse ++ []) [] :=
    mapWordsFrom_append hw [] []
  rw [List.append_nil, List.append_nil] at h
  rw [mapWords, h, mapWordsFrom, List.reverse_reverse]

/-- A word has its image in its place. -/
theorem mapWords_of_isWord (h : IsWord w) : mapWords image w = image false w := by
  rw [mapWords_of_forall h.all, wordImage_of_isWord h]

/-- A word ends in front of a character of another kind. -/
theorem mapWords_word_append (hw : ∀ c ∈ w, isWordChar c = true) (hc : isWordChar c = false)
    (cs : List Char) :
    mapWords image (w ++ c :: cs) = wordImage image (c == '(') w ++ c :: mapWords image cs := by
  rw [mapWords, mapWordsFrom_append hw, mapWordsFrom, if_neg (by simp [hc]), List.append_nil,
    List.reverse_reverse]
  rfl

/-- A character in front that is in no word stays. -/
theorem mapWords_cons (hc : isWordChar c = false) (cs : List Char) :
    mapWords image (c :: cs) = c :: mapWords image cs :=
  mapWords_word_append (w := []) (List.forall_mem_nil _) hc cs

/-- The words on both sides of a character that is of none are mapped on their own, if that is not
a parenthesis that opens right behind a word. -/
theorem mapWords_append_cons (hc : isWordChar c = false)
    (hparen : c = '(' → ∀ d ∈ as.getLast?, isWordChar d = false) (bs : List Char) :
    mapWords image (as ++ c :: bs) = mapWords image as ++ c :: mapWords image bs := by
  induction as using word_induction with
  | word as has =>
    rw [mapWords_word_append has hc, mapWords_of_forall has]
    by_cases h : c = '('
    · rcases List.eq_nil_or_concat' as with rfl | ⟨as, d, rfl⟩
      · rfl
      · have hd : isWordChar d = false := hparen h d (by simp)
        rw [has d (by simp)] at hd
        cases hd
    · rw [beq_false_of_ne h]
  | cut as d cs has hd ih =>
    have hcs (h : c = '(') : ∀ d ∈ cs.getLast?, isWordChar d = false := by
      intro b hb
      refine hparen h b ?_
      rw [List.getLast?_append, List.getLast?_cons]
      simp [Option.mem_def.mp hb]
    rw [List.append_assoc, List.cons_append, mapWords_word_append has hd,
      mapWords_word_append has hd, ih hcs, List.append_assoc, List.cons_append]

/-- A character that is in no word and opens no parenthesis parts a text into two that are mapped
apart. -/
theorem mapWords_append_cons_of_ne (hc : isWordChar c = false) (hne : c ≠ '(')
    (as bs : List Char) :
    mapWords image (as ++ c :: bs) = mapWords image as ++ c :: mapWords image bs :=
  mapWords_append_cons hc (fun h => absurd h hne) bs

/-- No word goes on over the end of a text that ends with another character. -/
theorem mapWords_append_of_getLast? (has : ∀ d ∈ as.getLast?, isWordChar d = false)
    (bs : List Char) : mapWords image (as ++ bs) = mapWords image as ++ mapWords image bs := by
  rcases List.eq_nil_or_concat' as with rfl | ⟨as, d, rfl⟩
  · rfl
  · have hd : isWordChar d = false := has d (by simp)
    induction as using word_induction with
    | word w hw =>
      rw [List.append_assoc, List.singleton_append, mapWords_word_append hw hd,
        mapWords_word_append hw hd, List.append_assoc]
      rfl
    | cut w c cs hw hc ih =>
      rw [List.append_assoc w, List.cons_append, List.append_assoc, List.cons_append,
        mapWords_word_append hw hc, mapWords_word_append hw hc, ih (by simpa using hd),
        List.append_assoc, List.cons_append]

/-- No word goes on over the beginning of a text that begins with another character. -/
theorem mapWords_append_of_head? (hbs : ∀ d ∈ bs.head?, isWordChar d = false ∧ d ≠ '(')
    (as : List Char) : mapWords image (as ++ bs) = mapWords image as ++ mapWords image bs := by
  cases bs with
  | nil =>
    rw [List.append_nil]
    exact (List.append_nil _).symm
  | cons d bs =>
    obtain ⟨hd, hne⟩ := hbs d rfl
    rw [mapWords_append_cons_of_ne hd hne, mapWords_cons hd]

/-- In a text in which no group follows a word, the words on both sides of a character that is of
none are mapped on their own. -/
theorem mapWords_of_detached (h : Detached (as ++ c :: bs)) (hc : isWordChar c = false) :
    mapWords image (as ++ c :: bs) = mapWords image as ++ c :: mapWords image bs :=
  mapWords_append_cons hc (fun hparen => (hparen ▸ h).getLast?) bs

/-- Images that agree on the words of a text map it the same way, if no group follows a word. -/
theorem mapWords_congr {image' : Bool → List Char → List Char} (hcs : Detached cs)
    (h : ∀ w ∈ runs isWordChar cs, image false w = image' false w) :
    mapWords image cs = mapWords image' cs := by
  induction cs using word_induction with
  | word w hw =>
    rw [mapWords_of_forall hw, mapWords_of_forall hw, wordImage, wordImage]
    split
    · rfl
    · rename_i hne
      exact h w (by rw [runs_of_forall (by simpa using hne) hw]; exact List.mem_singleton_self w)
  | cut w c cs hw hc ih =>
    rw [runs_append hc] at h
    rw [mapWords_of_detached hcs hc, mapWords_of_detached hcs hc,
      ih hcs.of_append_cons.2 fun u hu => h u (List.mem_append_right _ hu)]
    congr 1
    rw [mapWords_of_forall hw, mapWords_of_forall hw, wordImage, wordImage]
    split
    · rfl
    · rename_i hne
      refine h w (List.mem_append_left _ ?_)
      rw [runs_of_forall (by simpa using hne) hw]
      exact List.mem_singleton_self w

variable (himage : KeepsWords image)
include himage

/-- The image of word characters consists of such. -/
theorem isWordChar_of_mem_wordImage (hw : ∀ c ∈ w, isWordChar c = true) :
    ∀ c ∈ wordImage image called w, isWordChar c = true := by
  unfold wordImage
  split
  · nofun
  · rename_i hne
    exact (himage called w ⟨by simpa using hne, hw⟩).all

/-- What is between the words is kept. -/
theorem mem_mapWords (hc : isWordChar c = false) : c ∈ mapWords image cs ↔ c ∈ cs := by
  have hfree {w : List Char} (hw : ∀ d ∈ w, isWordChar d = true) : c ∉ w := fun hmem => by
    rw [hw c hmem] at hc
    cases hc
  induction cs using word_induction with
  | word w hw =>
    rw [mapWords_of_forall hw]
    exact iff_of_false (hfree (isWordChar_of_mem_wordImage himage hw)) (hfree hw)
  | cut w d cs hw hd ih =>
    rw [mapWords_word_append hw hd]
    simp only [List.mem_append, List.mem_cons, ih, hfree hw,
      hfree (isWordChar_of_mem_wordImage himage hw)]

/-- Only nothing is mapped to nothing. -/
theorem mapWords_eq_nil_iff : mapWords image cs = [] ↔ cs = [] := by
  induction cs using word_induction with
  | word w hw =>
    rw [mapWords_of_forall hw, wordImage]
    split
    · rename_i h
      simpa using h
    · rename_i h
      have hne : w ≠ [] := by simpa using h
      exact iff_of_false (himage false w ⟨hne, hw⟩).ne_nil hne
  | cut w c cs hw hc ih =>
    rw [mapWords_word_append hw hc]
    simp

/-- A text becomes the image of a word only if it is that word, if no other word of it has that
image. -/
theorem mapWords_eq_iff {z z' : List Char} (hz : IsWord z) (hz' : IsWord z')
    (h : image false z = z') (hcs : ∀ w ∈ runs isWordChar cs, image false w = z' → w = z) :
    mapWords image cs = z' ↔ cs = z := by
  constructor
  · intro heq
    have hword : IsWord cs := by
      refine ⟨fun hnil => hz'.ne_nil ?_, fun c hc => ?_⟩
      · rw [← heq, mapWords_eq_nil_iff himage]
        exact hnil
      · by_contra hout
        rw [Bool.not_eq_true] at hout
        exact hz'.not_mem hout (heq ▸ (mem_mapWords himage hout).mpr hc)
    exact hcs cs (hword.runs_eq ▸ List.mem_singleton_self cs)
      ((mapWords_of_isWord hword).symm.trans heq)
  · rintro rfl
    rw [mapWords_of_isWord hz, h]

end

end Text

/-! ## Blanks -/

namespace Text

/-- If the blanks of a text part no words, they may be left out before the words are replaced. -/
theorem filter_mapWords {image : List Char → List Char} (himage : KeepsWords fun _ => image)
    {cs : List Char} (h : runs isWordChar (cs.filter (!isBlank ·)) = runs isWordChar cs) :
    (mapWords (fun _ => image) cs).filter (!isBlank ·) =
      mapWords (fun _ => image) (cs.filter (!isBlank ·)) := by
  have hword {w : List Char} (hw : ∀ c ∈ w, isWordChar c = true) :
      w.filter (!isBlank ·) = w :=
    List.filter_eq_self.mpr fun c hc => by simp [isBlank_of_isWordChar (hw c hc)]
  have hmapped {called : Bool} {w : List Char} (hw : ∀ c ∈ w, isWordChar c = true) :
      (wordImage (fun _ => image) called w).filter (!isBlank ·) =
        wordImage (fun _ => image) called w :=
    hword (isWordChar_of_mem_wordImage himage hw)
  induction cs using word_induction with
  | word w hw => rw [hword hw, mapWords_of_forall hw, hmapped hw]
  | cut w c cs hw hc ih =>
    rw [List.filter_append, hword hw, runs_append hc] at h
    rw [mapWords_word_append hw hc, List.filter_append, hmapped hw, List.filter_append, hword hw]
    by_cases hblank : isBlank c = true
    · have hskip (ds : List Char) : (c :: ds).filter (!isBlank ·) = ds.filter (!isBlank ·) :=
        List.filter_cons_of_neg (by simp [hblank])
      rw [hskip] at h
      rw [hskip, hskip]
      by_cases hnil : w = []
      · subst hnil
        exact ih h
      · -- no word goes on behind the blank, since the words would not be the same
        have hhead : (cs.filter (!isBlank ·)).head?.any isWordChar = false := by
          by_contra hhead
          obtain ⟨run, rest, hne, hruns⟩ :=
            exists_runs_append hw (Bool.not_eq_false _ ▸ hhead)
          rw [h, runs_of_forall hnil hw] at hruns
          exact hne (List.append_right_eq_self.mp (List.cons.inj hruns).1.symm)
        rw [runs_append_of_head? hhead] at h
        rw [ih (List.append_cancel_left h)]
        cases hds : cs.filter (!isBlank ·) with
        | nil =>
          rw [List.append_nil, mapWords_of_forall hw]
          exact List.append_nil _
        | cons d ds =>
          rw [hds] at hhead
          rw [mapWords_word_append hw hhead, mapWords_cons hhead]
          rfl
    · have hkeep (ds : List Char) : (c :: ds).filter (!isBlank ·) = c :: ds.filter (!isBlank ·) :=
        List.filter_cons_of_pos (by simpa using hblank)
      rw [hkeep, runs_append hc] at h
      rw [hkeep, hkeep, mapWords_word_append hw hc, ih (List.append_cancel_left h)]

end Text

/-! ## Pieces of a text with other words -/

namespace Derivative

open Text

/-- A sign is in no word. -/
theorem IsSign.isWordChar {c : Char} (hc : IsSign c) : isWordChar c = false := by
  rcases hc with rfl | rfl <;> decide

/-- A text without signs, or such a text, a sign and a text: induction over the terms of a text. -/
theorem sign_induction {motive : List Char → Prop}
    (free : ∀ as, hasSign as = false → motive as)
    (cut : ∀ as c bs, hasSign as = false → IsSign c → motive bs → motive (as ++ c :: bs))
    (cs : List Char) : motive cs := by
  have hfree {as : List Char} (has : ∀ c ∈ as, (c == '+' || c == '-') = false) :
      hasSign as = false := List.any_eq_false.mpr fun c hc => by simp [has c hc]
  induction cs using cut_induction (p := fun c => c == '+' || c == '-') with
  | free as has => exact free as (hfree has)
  | cut as c bs has hc ih => exact cut as c bs (hfree has) (by simpa [IsSign] using hc) ih

/-- What is true of a text is true of both sides of each character in it that is of no word. -/
def CutClosed (P : List Char → Prop) : Prop :=
  ∀ as c bs, isWordChar c = false → P (as ++ c :: bs) → P as ∧ P bs

namespace CutClosed

variable {P : List Char → Prop} (hP : CutClosed P) {cs : List Char}
include hP

/-- What is true of a text is true of its terms. -/
theorem termsFrom (h : P cs) {subtracted : Bool} {t : Term}
    (ht : t ∈ termsFrom subtracted [] cs) : P t.text := by
  have hfree {as : List Char} (has : hasSign as = false) (h : P as) {subtracted : Bool}
      (ht : t ∈ Derivative.termsFrom subtracted [] as) : P t.text := by
    by_cases hnil : as = []
    · rw [hnil] at ht
      cases ht
    · rw [termsFrom_of_hasSign hnil has, List.mem_singleton] at ht
      rw [ht]
      exact h
  induction cs using sign_induction generalizing subtracted with
  | free as has => exact hfree has h ht
  | cut as c bs has hc ih =>
    obtain ⟨has', hbs⟩ := hP as c bs hc.isWordChar h
    rw [termsFrom_append_cons hc, List.mem_append] at ht
    rcases ht with ht | ht
    exacts [hfree has has' ht, ih hbs ht]

/-- What is true of a text is true of its parts between characters that are in no word. -/
theorem splitOn {c : Char} (hc : isWordChar c = false) (h : P cs) {part : List Char}
    (hpart : part ∈ cs.splitOn c) : P part := by
  induction cs using cut_induction (p := (· == c)) with
  | free as has =>
    rw [List.splitOn_eq_singleton fun hmem => absurd (has c hmem) (by simp),
      List.mem_singleton] at hpart
    rw [hpart]
    exact h
  | cut as d bs has hd ih =>
    obtain rfl := beq_iff_eq.mp hd
    obtain ⟨has', hbs⟩ := hP as d bs hc h
    rw [List.splitOn_append_cons_self_of_not_mem fun hmem => absurd (has d hmem) (by simp),
      List.mem_cons] at hpart
    rcases hpart with rfl | hpart
    exacts [has', ih hbs hpart]

/-- What is true of a text is true of its two factors. -/
theorem factors? (h : P cs) {a b : List Char} (hf : factors? cs = some (a, b)) : P a ∧ P b := by
  obtain rfl := eq_of_factors? hf
  exact hP a '*' b (by decide) h

/-- What is true of a text is true of its group and of what stands around it. -/
theorem group? (h : P cs) {g : Group} (hg : group? cs = some g) :
    P g.before ∧ P g.inner ∧ P g.after := by
  rw [(encloses_of_group? hg).eq] at h
  obtain ⟨hbefore, hrest⟩ := hP _ _ _ (by decide) h
  exact ⟨hbefore, hP _ _ _ (by decide) hrest⟩

end CutClosed

/-- What is true of all words of a text is true of those on both sides of a cut. -/
theorem cutClosed_forall_runs {P : List Char → Prop} :
    CutClosed fun cs => ∀ w ∈ runs isWordChar cs, P w := by
  intro as c bs hc h
  rw [runs_append hc] at h
  exact ⟨fun w hw => h w (List.mem_append_left _ hw), fun w hw => h w (List.mem_append_right _ hw)⟩

section

variable {image : Bool → List Char → List Char} (himage : KeepsWords image) {cs : List Char}
  {c : Char}
include himage

/-- Mapping words keeps the signs. -/
theorem hasSign_mapWords : hasSign (mapWords image cs) = hasSign cs := by
  have hsign {d : Char} (hd : (d == '+' || d == '-') = true) : isWordChar d = false :=
    IsSign.isWordChar (by simpa [IsSign] using hd)
  rw [Bool.eq_iff_iff, hasSign, hasSign, List.any_eq_true, List.any_eq_true]
  exact exists_congr fun d => and_congr_left fun hd => mem_mapWords himage (hsign hd)

/-- Mapping words maps them in each term. -/
theorem termsFrom_mapWords (subtracted : Bool) :
    termsFrom subtracted [] (mapWords image cs) =
      (termsFrom subtracted [] cs).map fun t => ⟨t.subtracted, mapWords image t.text⟩ := by
  -- a text without signs is one term, unless it is empty
  have hfree {as : List Char} (has : hasSign as = false) (subtracted : Bool) :
      termsFrom subtracted [] (mapWords image as) =
        (termsFrom subtracted [] as).map fun t => ⟨t.subtracted, mapWords image t.text⟩ := by
    by_cases hnil : as = []
    · rw [hnil]
      rfl
    · rw [termsFrom_of_hasSign (mt (mapWords_eq_nil_iff himage).mp hnil)
        ((hasSign_mapWords himage).trans has), termsFrom_of_hasSign hnil has]
      rfl
  induction cs using sign_induction generalizing subtracted with
  | free as has => exact hfree has subtracted
  | cut as c bs has hc ih =>
    have hne : c ≠ '(' := by rcases hc with rfl | rfl <;> decide
    rw [mapWords_append_cons_of_ne hc.isWordChar hne, termsFrom_append_cons hc,
      termsFrom_append_cons hc, List.map_append, hfree has, ih]

/-- The terms of a text with other words. -/
theorem terms_mapWords : terms (mapWords image cs) =
    (terms cs).map fun t => ⟨t.subtracted, mapWords image t.text⟩ :=
  termsFrom_mapWords himage false

/-- Mapping words maps them in each part. -/
theorem splitOn_mapWords (hc : isWordChar c = false) (hne : c ≠ '(') :
    (mapWords image cs).splitOn c = (cs.splitOn c).map (mapWords image) := by
  have hfree {as : List Char} (has : ∀ d ∈ as, (d == c) = false) : c ∉ as := fun hmem =>
    absurd (has c hmem) (by simp)
  induction cs using cut_induction (p := (· == c)) with
  | free as has =>
    rw [List.splitOn_eq_singleton (mt (mem_mapWords himage hc).mp (hfree has)),
      List.splitOn_eq_singleton (hfree has)]
    rfl
  | cut as d bs has hd ih =>
    obtain rfl := beq_iff_eq.mp hd
    rw [mapWords_append_cons_of_ne hc hne,
      List.splitOn_append_cons_self_of_not_mem (mt (mem_mapWords himage hc).mp (hfree has)),
      List.splitOn_append_cons_self_of_not_mem (hfree has), ih]
    rfl

/-- The factors of a text with other words. -/
theorem factors?_mapWords : factors? (mapWords image cs) =
    (factors? cs).map (Prod.map (mapWords image) (mapWords image)) := by
  rw [factors?, factors?, splitOn_mapWords himage (by decide) (by decide)]
  rcases cs.splitOn '*' with _ | ⟨a, _ | ⟨b, _ | ⟨c, l⟩⟩⟩ <;> rfl

omit himage in
/-- A word of a text with other words has `v'` in it if the word in its place has `v`. -/
theorem occurs_mapWords {v v' : List Char} (hv : IsWord v) (hv' : IsWord v') (hcs : Detached cs)
    (h : ∀ w ∈ runs isWordChar cs, v <:+: w ↔ v' <:+: image false w) :
    occurs v' (mapWords image cs) = occurs v cs := by
  have hword {w : List Char} (hw : ∀ d ∈ w, isWordChar d = true)
      (h : ∀ u ∈ runs isWordChar w, v <:+: u ↔ v' <:+: image false u) :
      occurs v' (mapWords image w) = occurs v w := by
    by_cases hnil : w = []
    · have hempty {z : List Char} (hz : IsWord z) : occurs z [] = false := by
        simpa [occurs] using hz.ne_nil
      rw [hnil]
      exact (hempty hv').trans (hempty hv).symm
    · have hw : IsWord w := ⟨hnil, hw⟩
      rw [mapWords_of_isWord hw, Bool.eq_iff_iff, occurs_iff, occurs_iff]
      exact (h w (hw.runs_eq ▸ List.mem_singleton_self w)).symm
  induction cs using word_induction with
  | word w hw => exact hword hw h
  | cut w c cs hw hc ih =>
    rw [runs_append hc] at h
    rw [mapWords_of_detached hcs hc, Bool.eq_iff_iff, occurs_append_cons (hv'.not_mem hc),
      occurs_append_cons (hv.not_mem hc), hword hw fun u hu => h u (List.mem_append_left _ hu),
      ih hcs.of_append_cons.2 fun u hu => h u (List.mem_append_right _ hu)]

end

/-! ## Groups -/

/-- The marker is a word. -/
theorem isWord_marker : IsWord marker := ⟨by decide, List.all_eq_true.mp (by decide)⟩

/-- The group with more characters in front of it. -/
def Group.behind (as : List Char) (g : Group) : Group := { g with before := as ++ g.before }

/-- The group with other words. -/
def Group.mapWords (image : Bool → List Char → List Char) (g : Group) : Group :=
  ⟨Text.mapWords image g.before, Text.mapWords image g.inner, Text.mapWords image g.after⟩

section

variable {as bs cs : List Char} {c : Char}

/-- The characters in front of a text are only passed on. -/
theorem groupFrom?_eq (before cs : List Char) :
    groupFrom? before cs = (group? cs).map (Group.behind before.reverse) := by
  induction cs generalizing before with
  | nil => rfl
  | cons c cs ih =>
    have hnext : groupFrom? (c :: before) cs =
        (groupFrom? [c] cs).map (Group.behind before.reverse) := by
      rw [ih (c :: before), ih [c], Option.map_map]
      congr 1
      funext g
      simp [Group.behind]
    rw [group?]
    unfold groupFrom?
    split
    · split
      · simp [Group.behind]
      · exact hnext
    · exact hnext

/-- Characters without an opening parenthesis come in front of the group. -/
theorem group?_append (has : '(' ∉ as) (cs : List Char) :
    group? (as ++ cs) = (group? cs).map (Group.behind as) := by
  induction as with
  | nil =>
    rw [List.nil_append]
    cases group? cs <;> rfl
  | cons a as ih =>
    rw [List.mem_cons, not_or] at has
    rw [List.cons_append, group?, groupFrom?, if_neg (Ne.symm has.1), groupFrom?_eq, ih has.2,
      Option.map_map]
    rfl

/-- A group that begins a text. -/
theorem group?_openParen (hne : as ≠ []) (has : ')' ∉ as) (bs : List Char) :
    group? ('(' :: (as ++ ')' :: bs)) = some ⟨[], as, bs⟩ := by
  have has : ∀ c ∈ as, (c != ')') = true := fun c hc => bne_iff_ne.mpr fun h => has (h ▸ hc)
  obtain ⟨a, as, rfl⟩ := List.exists_cons_of_ne_nil hne
  rw [group?, groupFrom?, if_pos rfl, List.takeWhile_append_of_pos has,
    List.dropWhile_append_of_pos has]
  simp

/-- There is nothing in a pair of parentheses that is closed at once. -/
theorem group?_emptyParens (bs : List Char) :
    group? ('(' :: ')' :: bs) = (group? (')' :: bs)).map (Group.behind ['(']) :=
  groupFrom?_eq ['('] (')' :: bs)

end

section

variable {image : Bool → List Char → List Char} (himage : KeepsWords image) {as cs : List Char}
  {c : Char}

/-- Characters in front of a group that end with one that is of no word and no parenthesis. -/
theorem Group.mapWords_behind (hc : isWordChar c = false) (hne : c ≠ '(') (as : List Char)
    (g : Group) : (g.behind (as ++ [c])).mapWords image =
      (g.mapWords image).behind (Text.mapWords image as ++ [c]) := by
  rw [Group.mapWords, Group.behind, List.append_assoc, List.singleton_append,
    mapWords_append_cons_of_ne hc hne, List.append_cons]
  rfl

include himage

/-- A parenthesis opens the first group, unless none closes or one does at once. -/
theorem group?_mapWords_openParen
    (ih : group? (Text.mapWords image cs) = (group? cs).map (Group.mapWords image)) :
    group? ('(' :: Text.mapWords image cs) = (group? ('(' :: cs)).map (Group.mapWords image) := by
  have hclose : ')' ∈ Text.mapWords image cs ↔ ')' ∈ cs := mem_mapWords himage (by decide)
  by_cases hmem : ')' ∈ cs
  · obtain ⟨as, bs, rfl, has⟩ := List.eq_append_cons_of_mem hmem
    rw [mapWords_append_cons_of_ne (by decide) (by decide)] at ih ⊢
    by_cases hnil : as = []
    · subst hnil
      change group? (')' :: Text.mapWords image bs) = _ at ih
      change group? ('(' :: ')' :: Text.mapWords image bs) = _
      rw [List.nil_append] at ih ⊢
      rw [group?_emptyParens, group?_emptyParens, ih, Option.map_map, Option.map_map]
      rfl
    · rw [group?_openParen hnil has,
        group?_openParen (mt (mapWords_eq_nil_iff himage).mp hnil)
          (mt (mem_mapWords himage (by decide)).mp has)]
      rfl
  · rw [group?_of_not_mem (t := '(' :: cs) (by simp [hmem]),
      group?_of_not_mem (by simp [hclose, hmem])]
    rfl

/-- The first group of a text with other words, if no group follows a word. -/
theorem group?_mapWords (hcs : Detached cs) :
    group? (Text.mapWords image cs) = (group? cs).map (Group.mapWords image) := by
  induction cs using word_induction with
  | word w hw =>
    have hparen : ')' ∉ w := fun h => absurd (hw _ h) (by decide)
    rw [group?_of_not_mem hparen,
      group?_of_not_mem (mt (mem_mapWords himage (by decide)).mp hparen)]
    rfl
  | cut w c cs hw hc ih =>
    have ih := ih hcs.of_append_cons.2
    rw [mapWords_of_detached hcs hc]
    by_cases hparen : c = '('
    · subst hparen
      have hnil : w = [] := by
        rcases List.eq_nil_or_concat' w with hnil | ⟨w, d, rfl⟩
        · exact hnil
        · exact absurd (hw d (by simp)) (by simp [hcs.getLast? d (by simp)])
      subst hnil
      exact group?_mapWords_openParen himage ih
    · have hfree {u : List Char} (hu : ∀ d ∈ u, isWordChar d = true) : '(' ∉ u ++ [c] := by
        have hword : '(' ∉ u := fun h => absurd (hu _ h) (by decide)
        simp [hword, Ne.symm hparen]
      have hmap : ∀ d ∈ Text.mapWords image w, isWordChar d = true := by
        rw [mapWords_of_forall hw]
        exact isWordChar_of_mem_wordImage himage hw
      rw [List.append_cons, List.append_cons w, group?_append (hfree hmap),
        group?_append (hfree hw), ih, Option.map_map, Option.map_map]
      congr 1
      funext g
      exact (Group.mapWords_behind hc hparen w g).symm

omit himage in
/-- The words of a text in which the marker stands for a group: those around the group, and the
marker. -/
theorem Group.runs_marker {g : Group} (hbefore : ∀ d ∈ g.before.getLast?, isWordChar d = false)
    (hafter : ∀ d ∈ g.after.head?, isWordChar d = false ∧ d ≠ '(') :
    runs isWordChar (g.before ++ (marker ++ g.after)) =
      runs isWordChar g.before ++ (marker :: runs isWordChar g.after) := by
  have hhead : g.after.head?.any isWordChar = false := by
    cases ha : g.after.head? with
    | none => rfl
    | some d => exact (hafter d ha).1
  rw [runs_append_of_getLast? hbefore, runs_append_of_head? hhead, isWord_marker.runs_eq]
  rfl

/-- The coefficient of a group with other words, if the group stands apart from the words around it
and no other word becomes the marker. -/
theorem Group.coefficient?_mapWords {g : Group} (hmarker : image false marker = marker)
    (hbefore : ∀ d ∈ g.before.getLast?, isWordChar d = false)
    (hafter : ∀ d ∈ g.after.head?, isWordChar d = false ∧ d ≠ '(')
    (hwords : ∀ w ∈ runs isWordChar g.before ++ runs isWordChar g.after,
      image false w = marker → w = marker) :
    (g.mapWords image).coefficient? = g.coefficient?.map (Text.mapWords image) := by
  have hmap : Text.mapWords image g.before ++ (marker ++ Text.mapWords image g.after) =
      Text.mapWords image (g.before ++ (marker ++ g.after)) := by
    rw [mapWords_append_of_getLast? hbefore, mapWords_append_of_head? hafter,
      mapWords_of_isWord isWord_marker, hmarker]
  have hremaining : ∀ w ∈ runs isWordChar (g.before ++ (marker ++ g.after)),
      image false w = marker → w = marker := by
    rw [Group.runs_marker hbefore hafter]
    intro w hw
    rcases List.mem_append.mp hw with hw | hw
    · exact hwords w (List.mem_append_left _ hw)
    · rcases List.mem_cons.mp hw with rfl | hw
      · exact fun _ => rfl
      · exact hwords w (List.mem_append_right _ hw)
  have hfind : ((g.before ++ (marker ++ g.after)).splitOn '*').find?
      ((· != marker) ∘ Text.mapWords image) =
      ((g.before ++ (marker ++ g.after)).splitOn '*').find? (· != marker) := by
    refine List.find?_congr fun part hpart => ?_
    have hpart := cutClosed_forall_runs.splitOn (by decide) hremaining hpart
    have hiff := mapWords_eq_iff himage isWord_marker isWord_marker hmarker hpart
    rw [Function.comp_apply, Bool.eq_iff_iff, bne_iff_ne, bne_iff_ne, ne_eq, ne_eq, hiff]
  have hempty (part : List Char) : (Text.mapWords image part).isEmpty = part.isEmpty := by
    rw [Bool.eq_iff_iff, List.isEmpty_iff, List.isEmpty_iff, mapWords_eq_nil_iff himage]
  have hmem : '*' ∈ Text.mapWords image (g.before ++ (marker ++ g.after)) ↔
      '*' ∈ g.before ++ (marker ++ g.after) := mem_mapWords himage (by decide)
  unfold Group.coefficient?
  dsimp only [Group.mapWords]
  rw [List.append_assoc, List.append_assoc, hmap]
  by_cases hstar : '*' ∈ g.before ++ (marker ++ g.after)
  · rw [if_pos hstar, if_pos (hmem.mpr hstar), splitOn_mapWords himage (by decide) (by decide),
      List.find?_map, hfind, Option.filter_map]
    simp only [Function.comp_def, hempty]
  · rw [if_neg hstar, if_neg (mt hmem.mp hstar)]
    rfl

end

end Derivative

end FormulaBook
