import FormulaBook.Proofs.WordMaps
import Mathlib.Logic.Equiv.Basic

/-!
# Derivatives under other names

A formula with other names has the derivative with other names (`Renaming.differentiate_formula`),
if the names differ in the same places as before: the rules look for the variable in every word of
the text, so a renaming has to keep which words have it in them, and they hide a group behind a
marker, so no other name may become the marker (`Renaming.KeepsRole`).
-/

namespace FormulaBook

open Text Token FormulaBook.Derivative

/-- A renaming of names. Different names keep different names. -/
structure Renaming where
  map : String → String
  isName {n : String} : IsName n → IsName (map n)
  injective {m n : String} : IsName m → IsName n → map m = map n → m = n

namespace Renaming

/-- What becomes of a word: a name is renamed, any other word stays. -/
def image (r : Renaming) (w : List Char) : List Char :=
  if Text.isName (String.ofList w) then (r.map (String.ofList w)).toList else w

/-- A formula with its names renamed. -/
def formula (r : Renaming) (f : String) : String :=
  String.ofList (mapWords (fun _ => r.image) f.toList)

/-- What becomes of a word of a derivative. Two words do not come from the formula: the `d` in front
of a parenthesis and the marker. -/
def derivedImage (r : Renaming) (called : Bool) (w : List Char) : List Char :=
  if called ∨ w = marker then w else r.image w

/-- A derivative with the names renamed that come from the formula. -/
def derivative (r : Renaming) (d : String) : String :=
  String.ofList (mapWords r.derivedImage d.toList)

/-- The rules for derivatives by `v` treat the word as its image: it has `v` in it if its image has
the new name of `v`, and it is the marker if its image is. -/
structure KeepsRole (r : Renaming) (v : String) (w : List Char) : Prop where
  occurs : v.toList <:+: w ↔ (r.map v).toList <:+: r.image w
  marker : r.image w = marker ↔ w = marker

variable (r : Renaming) {v : String} {w z : List Char}

/-! ## Words -/

/-- The image of a name is its new name. -/
theorem image_name {n : String} (h : IsName n) : r.image n.toList = (r.map n).toList := by
  rw [image, String.ofList_toList, if_pos (isName_iff.mpr h)]

/-- The image of a word is a word. -/
theorem isWord_image (h : IsWord w) : IsWord (r.image w) := by
  unfold image
  split
  · exact .of_name (r.isName (isName_iff.mp ‹_›))
  · exact h

/-- Renaming the names of a formula keeps words. -/
theorem keepsWords_image : KeepsWords fun _ => r.image := fun _ _ => r.isWord_image

/-- Renaming the names of a derivative keeps words. -/
theorem keepsWords_derivedImage : KeepsWords r.derivedImage := by
  intro called w h
  unfold derivedImage
  split
  exacts [h, r.isWord_image h]

/-- Only a name becomes its new name. -/
theorem eq_of_image_eq_name (hv : IsName v) (h : r.image w = (r.map v).toList) :
    w = v.toList := by
  unfold image at h
  split at h
  · rename_i hw
    have heq := r.injective (isName_iff.mp hw) hv (String.toList_inj.mp h)
    rw [← heq, String.toList_ofList]
  · rename_i hw
    rw [h, String.ofList_toList] at hw
    exact absurd (isName_iff.mpr (r.isName hv)) hw

/-- Only itself becomes a word that is no name. -/
theorem derivedImage_eq_iff (hz : Text.isName (String.ofList z) = false) :
    r.derivedImage false w = z ↔ w = z := by
  have hself : r.image z = z := by rw [image, if_neg (by simp [hz])]
  constructor
  · intro h
    unfold derivedImage image at h
    split at h
    · exact h
    · split at h
      · rename_i hw
        rw [← h, String.ofList_toList, isName_iff.mpr (r.isName (isName_iff.mp hw))] at hz
        cases hz
      · exact h
  · rintro rfl
    unfold derivedImage
    split
    exacts [rfl, hself]

/-- In a derivative as in a formula, a word that keeps its role becomes its image, unless it is
called. -/
theorem KeepsRole.derivedImage_eq {r : Renaming} (h : r.KeepsRole v w) :
    r.derivedImage false w = r.image w := by
  unfold derivedImage
  split
  · rename_i hw
    obtain rfl := hw.resolve_left Bool.false_ne_true
    exact (h.marker.mpr rfl).symm
  · rfl

/-! ## Texts of derivatives -/

/-- The words of a derivative are renamed one by one. -/
theorem derivative_ofList (cs : List Char) :
    r.derivative (String.ofList cs) = String.ofList (mapWords r.derivedImage cs) := by
  rw [derivative, String.toList_ofList]

/-- A word that is no name is the renaming of itself alone. -/
theorem derivative_eq_iff {s t : String} (ht : IsWord t.toList) (hname : Text.isName t = false) :
    r.derivative s = t ↔ s = t := by
  have hiff (w : List Char) : r.derivedImage false w = t.toList ↔ w = t.toList :=
    r.derivedImage_eq_iff (by rw [String.ofList_toList, hname])
  rw [derivative, ← String.toList_inj, String.toList_ofList, ← String.toList_inj]
  exact mapWords_eq_iff r.keepsWords_derivedImage ht ht ((hiff _).mpr rfl) fun w _ => (hiff w).mp

/-- Only a zero is renamed to zero. -/
theorem derivative_eq_zero_iff {s : String} : r.derivative s = "0" ↔ s = "0" :=
  r.derivative_eq_iff ⟨by decide, List.all_eq_true.mp (by decide)⟩ (by decide)

/-- Only a one is renamed to one. -/
theorem derivative_eq_one_iff {s : String} : r.derivative s = "1" ↔ s = "1" :=
  r.derivative_eq_iff ⟨by decide, List.all_eq_true.mp (by decide)⟩ (by decide)

/-- Only the empty text is renamed to nothing. -/
theorem derivative_eq_empty_iff {s : String} : r.derivative s = "" ↔ s = "" := by
  rw [derivative, ← String.toList_inj, String.toList_ofList, ← String.toList_inj]
  exact mapWords_eq_nil_iff r.keepsWords_derivedImage

/-- The texts on both sides of an operator with blanks around it. -/
theorem derivative_operator {x : String} (hx : x ∈ [" + ", " - ", " * "]) (s t : String) :
    r.derivative (s ++ x ++ t) = r.derivative s ++ x ++ r.derivative t := by
  have hcut {o : Char} (ho : isOperatorChar o = true) : mapWords r.derivedImage
      (s.toList ++ ' ' :: o :: ' ' :: t.toList) = mapWords r.derivedImage s.toList ++
        ' ' :: o :: ' ' :: mapWords r.derivedImage t.toList := by
    have hword : isWordChar o = false := by simp [isWordChar, ho]
    rw [mapWords_append_cons_of_ne (by decide) (by decide), mapWords_cons hword,
      mapWords_cons (by decide)]
  rw [← String.toList_inj]
  simp only [derivative, String.toList_append, String.toList_ofList, List.append_assoc]
  simp only [List.mem_cons, List.not_mem_nil, or_false] at hx
  rcases hx with rfl | rfl | rfl
  exacts [hcut (by decide), hcut (by decide), hcut (by decide)]

/-- A minus in front stays. -/
theorem derivative_minus (s : String) : r.derivative ("-" ++ s) = "-" ++ r.derivative s := by
  rw [← String.toList_inj]
  simp only [derivative, String.toList_append, String.toList_ofList]
  exact mapWords_cons (by decide) s.toList

/-! ## Rules -/

/-- Adding a term and renaming can be exchanged. -/
theorem derivative_addTerm (sum d : String) (subtracted : Bool) :
    r.derivative (addTerm sum subtracted d) =
      addTerm (r.derivative sum) subtracted (r.derivative d) := by
  unfold addTerm
  simp only [derivative_eq_zero_iff, ne_eq, derivative_eq_empty_iff]
  split
  · rfl
  · split
    · cases subtracted
      exacts [r.derivative_operator (by simp) sum d, r.derivative_operator (by simp) sum d]
    · split
      exacts [r.derivative_minus d, rfl]

/-- The renamed derivative of a sum is made from those of its terms. -/
theorem derivative_ofTerms {ts ts' : List (Bool × Derivative)}
    (h : ts'.map (fun t => (t.1, t.2.text)) = ts.map fun t => (t.1, r.derivative t.2.text)) :
    (ofTerms ts').text = r.derivative (ofTerms ts).text := by
  have hfold (sum : String) :
      (ts'.map fun t => (t.1, t.2.text)).foldl (fun sum t => addTerm sum t.1 t.2)
        (r.derivative sum) =
      r.derivative (ts.foldl (fun sum t => addTerm sum t.1 t.2.text) sum) := by
    rw [h]
    clear h
    induction ts generalizing sum with
    | nil => rfl
    | cons t ts ih =>
      rw [List.map_cons, List.foldl_cons, ← derivative_addTerm, ih]
      rfl
  have hempty : r.derivative "" = "" := r.derivative_eq_empty_iff.mpr rfl
  have hfold := hfold ""
  rw [List.foldl_map, hempty] at hfold
  simp only [ofTerms, hfold, derivative_eq_empty_iff]
  split
  · exact (r.derivative_eq_zero_iff.mpr rfl).symm
  · rfl

/-- The renamed derivative of a product is made from those of its factors. -/
theorem derivative_ofProduct {a b : String} {da db da' db' : Derivative}
    (ha : da'.text = r.derivative da.text) (hb : db'.text = r.derivative db.text) :
    (ofProduct (r.derivative a) (r.derivative b) da' db').text =
      r.derivative (ofProduct a b da db).text := by
  have hzero : r.derivative "0" = "0" := r.derivative_eq_zero_iff.mpr rfl
  simp only [ofProduct, ha, hb, derivative_eq_zero_iff, derivative_eq_one_iff]
  split
  · exact hzero.symm
  · split
    · split
      exacts [rfl, (r.derivative_operator (by simp) _ _).symm]
    · split
      · split
        exacts [rfl, (r.derivative_operator (by simp) _ _).symm]
      · rw [r.derivative_operator (x := " * ") (by simp), r.derivative_operator (by simp),
          r.derivative_operator (by simp)]

/-- A parenthesis that closes is of no word. -/
theorem mapWords_closed (cs : List Char) :
    mapWords r.derivedImage (cs ++ [')']) = mapWords r.derivedImage cs ++ [')'] :=
  mapWords_append_cons_of_ne (by decide) (by decide) cs []

/-- The `d` in front of a parenthesis stays. -/
theorem mapWords_d (cs : List Char) :
    mapWords r.derivedImage ('d' :: '(' :: cs) = 'd' :: '(' :: mapWords r.derivedImage cs :=
  mapWords_word_append (w := ['d']) (List.forall_mem_singleton.mpr (by decide)) (by decide) cs

/-- The renamed derivative of a group is made from that of its inside. -/
theorem derivative_ofGroup {coefficient? : Option String} {inner inner' : Derivative}
    (h : inner'.text = r.derivative inner.text) :
    (ofGroup (coefficient?.map r.derivative) inner').text =
      r.derivative (ofGroup coefficient? inner).text := by
  have hcut (as bs : List Char) : mapWords r.derivedImage (as ++ [' ', '*', ' ', '('] ++ bs ++
      [')']) = mapWords r.derivedImage as ++ [' ', '*', ' ', '('] ++ mapWords r.derivedImage bs ++
      [')'] := by
    simp only [List.append_assoc, List.cons_append, List.nil_append]
    rw [mapWords_append_cons_of_ne (by decide) (by decide), mapWords_cons (by decide),
      mapWords_cons (by decide), mapWords_cons (by decide), mapWords_closed]
  simp only [ofGroup, h, derivative_eq_zero_iff]
  split
  · exact (r.derivative_eq_zero_iff.mpr rfl).symm
  · cases coefficient? with
    | none => rfl
    | some coefficient =>
      rw [← String.toList_inj]
      simp only [Option.map_some, derivative, String.toList_append, String.toList_ofList]
      exact (hcut coefficient.toList inner.text.toList).symm

/-- An unresolved derivative has its words renamed. -/
theorem derivative_unresolvedText (cs as : List Char) :
    r.derivative (unresolvedText cs as) =
      unresolvedText (mapWords r.derivedImage cs) (mapWords r.derivedImage as) := by
  have hcut : mapWords r.derivedImage
      ('d' :: '(' :: (cs ++ ')' :: '/' :: 'd' :: '(' :: (as ++ [')']))) =
      'd' :: '(' :: (mapWords r.derivedImage cs ++ ')' :: '/' :: 'd' :: '(' ::
        (mapWords r.derivedImage as ++ [')'])) := by
    rw [mapWords_d, mapWords_append_cons_of_ne (by decide) (by decide), mapWords_cons (by decide),
      mapWords_d, mapWords_closed]
  rw [← String.toList_inj]
  simp only [unresolvedText, derivative, String.toList_append, String.toList_ofList,
    List.append_assoc]
  exact hcut

/-! ## Pieces -/

/-- What the rules rely on in a text: groups stand apart from words, and the renaming keeps the role
of each word. -/
def Fits (v : String) (cs : List Char) : Prop :=
  Detached cs ∧ ∀ w ∈ runs isWordChar cs, r.KeepsRole v w

/-- A text that fits has parts that do. -/
theorem cutClosed_fits (v : String) : CutClosed (r.Fits v) := by
  rintro as c bs hc ⟨hd, hw⟩
  obtain ⟨has, hbs⟩ := hd.of_append_cons
  obtain ⟨hwas, hwbs⟩ := cutClosed_forall_runs as c bs hc hw
  exact ⟨⟨has, hwas⟩, hbs, hwbs⟩

section

variable {r} {cs : List Char} (hv : IsName v) (h : r.Fits v cs)
include hv h

/-- In a text that fits, a name occurs where its new name does after the renaming. -/
theorem Fits.occurs : occurs (r.map v).toList (mapWords r.derivedImage cs) =
    Derivative.occurs v.toList cs := by
  refine occurs_mapWords (.of_name hv) (.of_name (r.isName hv)) h.1 fun w hw => ?_
  rw [(h.2 w hw).derivedImage_eq]
  exact (h.2 w hw).occurs

/-- A text that fits is a name if it is the new name after the renaming. -/
theorem Fits.eq_iff (hself : r.derivedImage false v.toList = (r.map v).toList) :
    mapWords r.derivedImage cs = (r.map v).toList ↔ cs = v.toList := by
  refine mapWords_eq_iff r.keepsWords_derivedImage (.of_name hv) (.of_name (r.isName hv)) hself
    fun w hw heq => ?_
  rw [(h.2 w hw).derivedImage_eq] at heq
  exact r.eq_of_image_eq_name hv heq

end

/-- The coefficient of a group in a text that fits is renamed. -/
theorem Fits.coefficient? {r : Renaming} {cs : List Char} (h : r.Fits v cs) {g : Group}
    (hg : group? cs = some g) :
    (g.mapWords r.derivedImage).coefficient?.map String.ofList =
      (g.coefficient?.map String.ofList).map r.derivative := by
  obtain ⟨hbefore, -, hafter⟩ := (r.cutClosed_fits v).group? h hg
  have heq := (encloses_of_group? hg).eq
  have hwords : ∀ w ∈ runs isWordChar g.before ++ runs isWordChar g.after,
      r.derivedImage false w = marker → w = marker := by
    intro w hw hmarker
    have hrole : r.KeepsRole v w := by
      rcases List.mem_append.mp hw with hw | hw
      exacts [hbefore.2 w hw, hafter.2 w hw]
    exact hrole.marker.mp (hrole.derivedImage_eq ▸ hmarker)
  rw [Group.coefficient?_mapWords r.keepsWords_derivedImage (by simp [derivedImage]) ?_ ?_ hwords,
    Option.map_map, Option.map_map]
  · congr 1
    funext cs
    exact (r.derivative_ofList cs).symm
  · exact (heq ▸ h.1).getLast?
  · have hd := heq ▸ h.1
    rw [List.append_cons, ← List.append_assoc] at hd
    exact hd.head?

/-- The derivative of a text with other names. -/
theorem derive_mapWords (hv : IsName v)
    (hself : r.derivedImage false v.toList = (r.map v).toList) {cs : List Char}
    (h : r.Fits v cs) :
    (derive (r.map v).toList (mapWords r.derivedImage cs)).text =
      r.derivative (derive v.toList cs).text := by
  have hkeeps := r.keepsWords_derivedImage
  have hclosed := r.cutClosed_fits v
  generalize hn : cs.length = n
  induction n using Nat.strong_induction_on generalizing cs with
  | _ n ih =>
  subst hn
  cases ho : occurs v.toList cs with
  | false =>
    rw [derive_of_not_occurs ho, derive_of_not_occurs ((h.occurs hv).trans ho)]
    exact (r.derivative_eq_zero_iff.mpr rfl).symm
  | true =>
    have ho' := (h.occurs hv).trans ho
    by_cases hne : cs = v.toList
    · rw [(h.eq_iff hv hself).mpr hne, hne, derive_self, derive_self]
      exact (r.derivative_eq_one_iff.mpr rfl).symm
    have hne' := mt (h.eq_iff hv hself).mp hne
    have hsign : hasSign (mapWords r.derivedImage cs) = hasSign cs := hasSign_mapWords hkeeps
    cases hs : hasSign cs with
    | true =>
      rw [derive_of_hasSign ho hne hs, derive_of_hasSign ho' hne' (hsign.trans hs)]
      refine r.derivative_ofTerms ?_
      rw [terms_mapWords hkeeps, List.map_map, List.map_map, List.map_map]
      refine List.map_congr_left fun t ht => ?_
      exact congrArg (t.subtracted, ·)
        (ih _ (length_lt_of_mem_terms hs ht) (hclosed.termsFrom h ht) rfl)
    | false =>
      have hs' := hsign.trans hs
      have hfactors : factors? (mapWords r.derivedImage cs) = _ := factors?_mapWords hkeeps
      cases hf : factors? cs with
      | some ab =>
        obtain ⟨a, b⟩ := ab
        rw [hf] at hfactors
        obtain ⟨ha, hb⟩ := hclosed.factors? h hf
        obtain ⟨hla, hlb⟩ := length_lt_of_factors? hf
        rw [derive_of_factors? ho hne hs hf, derive_of_factors? ho' hne' hs' hfactors,
          ← derivative_ofList, ← derivative_ofList]
        exact r.derivative_ofProduct (ih _ hla ha rfl) (ih _ hlb hb rfl)
      | none =>
        rw [hf] at hfactors
        have hgroup := group?_mapWords hkeeps h.1
        cases hg : group? cs with
        | some g =>
          rw [hg] at hgroup
          obtain ⟨-, hinner, -⟩ := hclosed.group? h hg
          rw [derive_of_group? ho hne hs hf hg, derive_of_group? ho' hne' hs' hfactors hgroup,
            h.coefficient? hg]
          exact r.derivative_ofGroup (ih _ (length_lt_of_group? hg) hinner rfl)
        | none =>
          rw [hg] at hgroup
          rw [derive_unresolved ho hne hs hf hg, derive_unresolved ho' hne' hs' hfactors hgroup,
            derivative_unresolvedText, mapWords_of_isWord (.of_name hv), hself]

/-! ## Formulas -/

/-- A formula that parses has its groups apart from its words, with or without blanks. -/
theorem fits_of_parse {f : String} {e : Expr} (hf : Expr.parse f = .ok e)
    (h : ∀ w ∈ runs isWordChar f.toList, r.KeepsRole v w) :
    r.Fits v (f.toList.filter (!isBlank ·)) := by
  refine ⟨(Expr.written_of_parse hf).detached, ?_⟩
  rwa [Expr.runs_unspaced_of_parse hf]

/-- The text of a formula with its names renamed, as the rules get it. -/
theorem unspaced_formula {f : String} {e : Expr} (hf : Expr.parse f = .ok e)
    (h : ∀ w ∈ runs isWordChar f.toList, r.KeepsRole v w) :
    (r.formula f).toList.filter (!isBlank ·) =
      mapWords r.derivedImage (f.toList.filter (!isBlank ·)) := by
  obtain ⟨hdetached, hroles⟩ := r.fits_of_parse hf h
  rw [formula, String.toList_ofList,
    filter_mapWords r.keepsWords_image (Expr.runs_unspaced_of_parse hf)]
  exact mapWords_congr hdetached fun w hw => (hroles w hw).derivedImage_eq.symm

/-- Derivatives do not depend on how names are spelled, as long as the same words have the variable
in them and no other word is the marker. -/
theorem differentiate_formula {f v : String} {e : Expr} (hf : Expr.parse f = .ok e)
    (hv : v ∈ e.vars) (h : ∀ w ∈ runs isWordChar f.toList, r.KeepsRole v w) :
    differentiate (r.formula f) (r.map v) = r.derivative (differentiate f v) := by
  rw [Expr.vars, List.mem_eraseDups] at hv
  have hname : IsName v := (Expr.isUnsigned_of_parse hf).2 v hv
  have hfits := r.fits_of_parse hf h
  have hself : r.derivedImage false v.toList = (r.map v).toList := by
    rw [(hfits.2 _ ((Expr.written_of_parse hf).mem_runs hv)).derivedImage_eq, r.image_name hname]
  rw [differentiate, differentiate, of, of, r.unspaced_formula hf h]
  exact r.derive_mapWords hname hself hfits

/-- Two names in the place of each other. -/
def swap {m n : String} (hm : IsName m) (hn : IsName n) : Renaming where
  map := Equiv.swap m n
  isName {s} hs := by
    rw [Equiv.swap_apply_def]
    split
    · exact hn
    · split
      exacts [hm, hs]
  injective _ _ h := (Equiv.swap m n).injective h

/-- Whether a word keeps its role can be decided. -/
instance : Decidable (r.KeepsRole v w) :=
  decidable_of_iff
    ((v.toList <:+: w ↔ (r.map v).toList <:+: r.image w) ∧ (r.image w = marker ↔ w = marker))
    ⟨fun h => ⟨h.1, h.2⟩, fun h => ⟨h.occurs, h.marker⟩⟩

/-- A product, a group with a coefficient and a form that no rule simplifies. -/
theorem differentiate_formula_alpha :
    let r := swap (m := "a") (n := "alpha") (isName_iff.mp rfl) (isName_iff.mp rfl)
    let f := "a*b + 2*(a)*3 + a/b"
    (∃ e, Expr.parse f = .ok e ∧ "a" ∈ e.vars) ∧
      (∀ w ∈ runs isWordChar f.toList, r.KeepsRole "a" w) ∧
      differentiate "alpha*b + 2*(alpha)*3 + alpha/b" "alpha" =
        "b + 2 * (1) + d(alpha/b)/d(alpha)" := by
  intro r f
  have hvars : (Expr.parse f).toOption.map Expr.vars = some ["a", "b"] := by decide +kernel
  have hroles : ∀ w ∈ runs isWordChar f.toList, r.KeepsRole "a" w := by decide +kernel
  have hformula : r.formula f = "alpha*b + 2*(alpha)*3 + alpha/b" := by decide +kernel
  have hderivative : r.derivative (differentiate f "a") =
      "b + 2 * (1) + d(alpha/b)/d(alpha)" := by decide +kernel
  cases hf : Expr.parse f with
  | error reason =>
    rw [hf] at hvars
    cases hvars
  | ok e =>
    rw [hf] at hvars
    have hv : "a" ∈ e.vars := by
      rw [Option.some.inj hvars]
      exact List.mem_cons_self
    have hmap : r.map "a" = "alpha" := by decide +kernel
    have h := differentiate_formula r hf hv hroles
    rw [hformula, hmap, hderivative] at h
    exact ⟨⟨e, rfl, hv⟩, hroles, h⟩

/-- A renaming that puts the variable into another word changes the derivative: that of `a + b` by
`a` is `1`, and with `aa` for `b` it is not. -/
theorem not_differentiate_formula : ¬∀ (r : Renaming) (f v : String) (e : Expr),
    Expr.parse f = .ok e → v ∈ e.vars →
      differentiate (r.formula f) (r.map v) = r.derivative (differentiate f v) := by
  intro h
  have hf : Expr.parse "a + b" = .ok (.binary .add (.identifier "a") (.identifier "b")) := by
    decide +kernel
  have h := h (swap (m := "b") (n := "aa") (isName_iff.mp rfl) (isName_iff.mp rfl)) _ "a" _ hf
    (by decide)
  exact absurd h (by decide +kernel)

end Renaming

end FormulaBook
