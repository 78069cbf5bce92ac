import FormulaBook.Derivative.Pieces
import Mathlib.Data.List.TakeWhile

/-!
# What the pieces of a text are

A text occurs in another as a part of it (`occurs_iff`). Characters that are no signs stand in one
term, which reaches from sign to sign (`exists_mem_termsFrom`); two factors have no star and stand
on the two sides of one (`eq_of_factors?`); and a group stands between two parentheses, the
second of which is the first one that closes (`encloses_of_group?`). What has no group has none in
any part of it (`group?_of_part`).
-/

namespace FormulaBook

namespace Derivative

/-! ## Occurrences -/

/-- Characters occur in others if they stand there without a gap. -/
theorem occurs_iff {v cs : List Char} : occurs v cs = true ↔ v <:+: cs := by
  induction cs with
  | nil => simp [occurs]
  | cons c cs ih =>
    rw [occurs, Bool.or_eq_true, List.isPrefixOf_iff_prefix, ih, List.infix_cons_iff]

/-- Characters occur between any others. -/
theorem occurs_append (v l r : List Char) : occurs v (l ++ (v ++ r)) = true :=
  occurs_iff.mpr ⟨l, r, List.append_assoc ..⟩

/-- Around an occurrence there is what stands before and behind it. -/
theorem exists_append_of_occurs {v cs : List Char} (h : occurs v cs = true) :
    ∃ l r, l ++ (v ++ r) = cs := by
  obtain ⟨l, r, hlr⟩ := occurs_iff.mp h
  exact ⟨l, r, by rw [← hlr, List.append_assoc]⟩

/-- A text without a character stands on one side of each place where that character is. -/
theorem append_eq_append_cons {v l r x y : List Char} {c : Char} (hc : c ∉ v)
    (h : l ++ (v ++ r) = x ++ c :: y) :
    (∃ r', r = r' ++ c :: y ∧ x = l ++ (v ++ r')) ∨
      ∃ l', l = x ++ c :: l' ∧ y = l' ++ (v ++ r) := by
  rcases List.append_eq_append_iff.mp h with ⟨k, rfl, hk⟩ | ⟨k, rfl, hk⟩
  · rcases List.append_eq_append_iff.mp hk with ⟨m, rfl, hm⟩ | ⟨m, rfl, hm⟩
    · exact .inl ⟨m, hm, rfl⟩
    · cases m with
      | nil => exact .inl ⟨[], by simpa using hm.symm, by simp⟩
      | cons d m =>
        obtain ⟨rfl, -⟩ := List.cons.inj hm
        exact absurd (List.mem_append_right k List.mem_cons_self) hc
  · cases k with
    | nil =>
      cases v with
      | nil => exact .inl ⟨[], by simpa using hk.symm, by simp⟩
      | cons d v =>
        obtain ⟨rfl, -⟩ := List.cons.inj hk
        exact absurd List.mem_cons_self hc
    | cons d k =>
      rw [List.cons_append] at hk
      obtain ⟨rfl, rfl⟩ := List.cons.inj hk
      exact .inr ⟨k, rfl, rfl⟩

/-- What does not have a character occurs on one side of that character. -/
theorem occurs_append_cons {v as bs : List Char} {c : Char} (hc : c ∉ v) :
    occurs v (as ++ c :: bs) = true ↔ occurs v as = true ∨ occurs v bs = true := by
  constructor
  · intro h
    obtain ⟨l, r, hlr⟩ := exists_append_of_occurs h
    rcases append_eq_append_cons hc hlr with ⟨r', -, rfl⟩ | ⟨l', -, rfl⟩
    exacts [.inl (occurs_append ..), .inr (occurs_append ..)]
  · rw [occurs_iff, occurs_iff, occurs_iff]
    rintro (h | h)
    · exact h.trans (List.prefix_append as _).isInfix
    · exact h.trans ((List.suffix_cons c bs).trans (List.suffix_append as _)).isInfix

/-! ## Terms -/

/-- A plus or a minus. -/
def IsSign (c : Char) : Prop := c = '+' ∨ c = '-'

/-- Whether a character is a sign can be decided. -/
instance : DecidablePred IsSign := fun c => inferInstanceAs (Decidable (c = '+' ∨ c = '-'))

/-- The text is empty or ends with one of the given characters. -/
def EndsWith (p : Char → Prop) (cs : List Char) : Prop := ∀ c ∈ cs.getLast?, p c

/-- The text is empty or begins with one of the given characters. -/
def BeginsWith (p : Char → Prop) (cs : List Char) : Prop := ∀ c ∈ cs.head?, p c

/-- A part of a text without signs has none. -/
theorem hasSign_of_part {cs t : List Char} (h : cs <:+: t) (hs : hasSign t = false) :
    hasSign cs = false := by
  rw [hasSign, List.any_eq_false] at hs ⊢
  exact fun c hc => hs c (h.subset hc)

/-- Two texts in a row have a sign if one of them does. -/
theorem hasSign_append (cs ds : List Char) : hasSign (cs ++ ds) = (hasSign cs || hasSign ds) :=
  List.any_append

/-- A text has no sign if its first character is none and the rest has none. -/
theorem hasSign_cons {c : Char} {cs : List Char} :
    hasSign (c :: cs) = false ↔ ¬IsSign c ∧ hasSign cs = false := by
  simp [hasSign, IsSign]

/-- A sign ends a term, and the rest is split anew. -/
theorem termsFrom_sign {c : Char} (hc : IsSign c) (subtracted : Bool) (term cs : List Char) :
    ∃ s, termsFrom subtracted term (c :: cs) = endTerm subtracted term ++ termsFrom s [] cs := by
  rcases hc with rfl | rfl
  exacts [⟨false, rfl⟩, ⟨true, rfl⟩]

/-- A character that is no sign goes on with the term. -/
theorem termsFrom_of_not_isSign {c : Char} (hc : ¬IsSign c) (subtracted : Bool)
    (term cs : List Char) :
    termsFrom subtracted term (c :: cs) = termsFrom subtracted (c :: term) cs := by
  rw [termsFrom, if_neg fun h => hc (.inl h), if_neg fun h => hc (.inr h)]

/-- Characters without signs go on with the term. -/
theorem termsFrom_append {cs : List Char} (hs : hasSign cs = false) (subtracted : Bool)
    (term post : List Char) :
    termsFrom subtracted term (cs ++ post) = termsFrom subtracted (cs.reverse ++ term) post := by
  induction cs generalizing term with
  | nil => rfl
  | cons c cs ih =>
    obtain ⟨hc, hcs⟩ := hasSign_cons.mp hs
    rw [List.cons_append, termsFrom_of_not_isSign hc, ih hcs]
    simp

/-- A term that has begun is there when it ends. -/
theorem mem_endTerm {term : List Char} (hne : term ≠ []) (subtracted : Bool) :
    ⟨subtracted, term.reverse⟩ ∈ endTerm subtracted term := by
  simp [endTerm, hne]

/-- A term that has begun goes on to the next sign. -/
theorem exists_mem_termsFrom_of_ne_nil (subtracted : Bool) {term : List Char} (hne : term ≠ [])
    (post : List Char) :
    ∃ r post', post = r ++ post' ∧ hasSign r = false ∧ BeginsWith IsSign post' ∧
      ⟨subtracted, term.reverse ++ r⟩ ∈ termsFrom subtracted term post := by
  induction post generalizing term with
  | nil =>
    refine ⟨[], [], rfl, rfl, fun _ h => (Option.not_mem_none _ h).elim, ?_⟩
    rw [List.append_nil]
    exact mem_endTerm hne subtracted
  | cons c cs ih =>
    by_cases hc : IsSign c
    · obtain ⟨s, hs⟩ := termsFrom_sign hc subtracted term cs
      refine ⟨[], c :: cs, rfl, rfl, fun d hd => Option.some.inj hd ▸ hc, ?_⟩
      rw [hs, List.append_nil]
      exact List.mem_append_left _ (mem_endTerm hne subtracted)
    · obtain ⟨r, post', rfl, hr, hpost, hmem⟩ := ih (List.cons_ne_nil c term)
      refine ⟨c :: r, post', rfl, hasSign_cons.mpr ⟨hc, hr⟩, hpost, ?_⟩
      rw [termsFrom_of_not_isSign hc]
      simpa using hmem

/-- Characters that are no signs stand in one term, which reaches from sign to sign. -/
theorem exists_mem_termsFrom {v : List Char} (hv : v ≠ []) (hs : hasSign v = false)
    (subtracted : Bool) {term : List Char} (hterm : hasSign term.reverse = false)
    (pre post : List Char) :
    ∃ t ∈ termsFrom subtracted term (pre ++ (v ++ post)), ∃ pre' l r post',
      term.reverse ++ pre = pre' ++ l ∧ post = r ++ post' ∧ t.text = l ++ (v ++ r) ∧
        hasSign t.text = false ∧ EndsWith IsSign pre' ∧ BeginsWith IsSign post' := by
  induction pre generalizing subtracted term with
  | nil =>
    have hne : v.reverse ++ term ≠ [] := by simp [hv]
    obtain ⟨r, post', rfl, hr, hpost, hmem⟩ := exists_mem_termsFrom_of_ne_nil subtracted hne post
    rw [List.nil_append, termsFrom_append hs]
    refine ⟨_, hmem, [], term.reverse, r, post', by simp, rfl, by simp, ?_,
      fun _ h => (Option.not_mem_none _ h).elim, hpost⟩
    simp only [List.reverse_append, List.reverse_reverse, hasSign_append, hterm, hs, hr,
      Bool.or_false]
  | cons c pre ih =>
    rw [List.cons_append]
    by_cases hc : IsSign c
    · obtain ⟨s, hcs⟩ := termsFrom_sign hc subtracted term (pre ++ (v ++ post))
      obtain ⟨t, ht, pre', l, r, post', hpre, rfl, htext, hsign, hend, hpost⟩ :=
        ih s (show hasSign [].reverse = false from rfl)
      rw [hcs]
      refine ⟨t, List.mem_append_right _ ht, term.reverse ++ c :: pre', l, r, post', ?_, rfl,
        htext, hsign, ?_, hpost⟩
      · simpa using hpre
      · intro d hd
        cases pre' with
        | nil => simp_all
        | cons a pre' => exact hend d (by simpa using hd)
    · rw [termsFrom_of_not_isSign hc]
      have hterm' : hasSign (c :: term).reverse = false := by
        rw [List.reverse_cons, hasSign_append, hterm, hasSign_cons.mpr ⟨hc, rfl⟩]
        rfl
      obtain ⟨t, ht, pre', l, r, post', hpre, rfl, hrest⟩ := ih subtracted hterm'
      refine ⟨t, ht, pre', l, r, post', ?_, rfl, hrest⟩
      simpa using hpre

/-- A text without signs is its own term. -/
theorem text_eq_of_mem_terms {cs : List Char} (hs : hasSign cs = false) {t : Term}
    (ht : t ∈ terms cs) : t.text = cs := by
  have h := termsFrom_append hs false [] []
  rw [List.append_nil, List.append_nil] at h
  rw [terms, h, termsFrom, endTerm] at ht
  split at ht
  · cases ht
  · rw [List.mem_singleton.mp ht, List.reverse_reverse]

/-! ## Factors -/

/-- The separator is in none of the parts. -/
theorem not_mem_of_mem_splitOn {separator : Char} {cs part : List Char}
    (h : part ∈ cs.splitOn separator) : separator ∉ part := by
  induction cs generalizing part with
  | nil => simp_all
  | cons c cs ih =>
    rw [List.splitOn_cons_eq_if_modifyHead] at h
    split at h
    · rcases List.mem_cons.mp h with rfl | h
      exacts [List.not_mem_nil, ih h]
    · rename_i hc
      cases hsplit : cs.splitOn separator with
      | nil => exact absurd hsplit (List.splitOn_ne_nil separator cs)
      | cons first parts =>
        rw [hsplit, List.modifyHead_cons] at h
        rcases List.mem_cons.mp h with rfl | h
        · have hfirst : separator ∉ first := ih (by simp [hsplit])
          have hne : separator ≠ c := fun h => hc (beq_iff_eq.mpr h.symm)
          simp [hne, hfirst]
        · exact ih (by simp [hsplit, h])

/-- The two factors of a text have no star. -/
theorem not_mem_of_factors? {t a b : List Char} (h : factors? t = some (a, b)) :
    '*' ∉ a ∧ '*' ∉ b := by
  unfold factors? at h
  split at h
  · rename_i x y hxy
    cases h
    have hmem : a ∈ t.splitOn '*' ∧ b ∈ t.splitOn '*' := by simp [hxy]
    exact ⟨not_mem_of_mem_splitOn hmem.1, not_mem_of_mem_splitOn hmem.2⟩
  · cases h

/-- The two factors of a text are parts of it. -/
theorem parts_of_factors? {t a b : List Char} (h : factors? t = some (a, b)) :
    a <:+: t ∧ b <:+: t := by
  rw [eq_of_factors? h]
  exact ⟨⟨[], '*' :: b, rfl⟩, ⟨a ++ ['*'], [], by simp⟩⟩

/-- A text without a star has no factors. -/
theorem factors?_of_not_mem {t : List Char} (h : '*' ∉ t) : factors? t = none := by
  rw [factors?, List.splitOn_eq_singleton h]

/-! ## Groups -/

/-- The group is some characters between an opening parenthesis and the first closing one after
it. -/
structure Group.Encloses (g : Group) (t : List Char) : Prop where
  eq : t = g.before ++ '(' :: (g.inner ++ ')' :: g.after)
  inner_ne_nil : g.inner ≠ []
  not_mem : ')' ∉ g.inner

/-- The inside of a group is a part of the text. -/
theorem Group.Encloses.part {g : Group} {t : List Char} (h : g.Encloses t) : g.inner <:+: t :=
  ⟨g.before ++ ['('], ')' :: g.after, by rw [h.eq]; simp⟩

/-- The group that is found is enclosed in the text. -/
theorem encloses_of_groupFrom? {before cs : List Char} {g : Group}
    (h : groupFrom? before cs = some g) : g.Encloses (before.reverse ++ cs) := by
  induction cs generalizing before with
  | nil => cases h
  | cons c cs ih =>
    have hnext (h : groupFrom? (c :: before) cs = some g) :
        g.Encloses (before.reverse ++ c :: cs) := by simpa using ih h
    unfold groupFrom? at h
    split at h
    · rename_i hc
      subst hc
      split at h
      · rename_i i inner x after hi ha
        cases h
        have hx := List.head_dropWhile_not (· != ')') (l := cs) (by simp [ha])
        have hcs := List.takeWhile_append_dropWhile (p := (· != ')')) (l := cs)
        simp only [ha, List.head_cons, bne_eq_false_iff_eq] at hx
        rw [hi, ha, hx] at hcs
        refine ⟨by rw [← hcs], List.cons_ne_nil _ _, fun hmem => ?_⟩
        exact absurd (List.mem_takeWhile_imp (hi ▸ hmem)) (by simp)
      · exact hnext h
    · exact hnext h

/-- The first group of a text is in it. -/
theorem encloses_of_group? {t : List Char} {g : Group} (h : group? t = some g) : g.Encloses t :=
  encloses_of_groupFrom? h

/-- If a text encloses a group, one is found. -/
theorem groupFrom?_ne_none {g : Group} {cs : List Char} (h : g.Encloses cs)
    (before : List Char) : groupFrom? before cs ≠ none := by
  obtain ⟨rfl, hne, hmem⟩ := h
  have hinner : ∀ c ∈ g.inner, (c != ')') = true := fun c hc =>
    bne_iff_ne.mpr fun h => hmem (h ▸ hc)
  generalize g.before = pre
  induction pre generalizing before with
  | nil =>
    obtain ⟨i, inner, hi⟩ := List.exists_cons_of_ne_nil hne
    rw [List.nil_append, groupFrom?, if_pos rfl, List.takeWhile_append_of_pos hinner,
      List.dropWhile_append_of_pos hinner, hi]
    simp
  | cons c pre ih =>
    rw [List.cons_append]
    unfold groupFrom?
    split
    · split
      · simp
      · exact ih _
    · exact ih _

/-- A part of a text without a group has none either. -/
theorem group?_of_part {cs t : List Char} (h : cs <:+: t) (ht : group? t = none) :
    group? cs = none := by
  obtain ⟨pre, post, rfl⟩ := h
  by_contra hcs
  obtain ⟨g, hg⟩ := Option.ne_none_iff_exists'.mp hcs
  obtain ⟨rfl, hne, hmem⟩ := encloses_of_group? hg
  refine groupFrom?_ne_none (g := ⟨pre ++ g.before, g.inner, g.after ++ post⟩) ⟨?_, hne, hmem⟩ [] ht
  simp

/-- A text without a closing parenthesis has no group. -/
theorem group?_of_not_mem {t : List Char} (h : ')' ∉ t) : group? t = none := by
  by_contra ht
  obtain ⟨g, hg⟩ := Option.ne_none_iff_exists'.mp ht
  rw [(encloses_of_group? hg).eq] at h
  simp at h

end Derivative

end FormulaBook
