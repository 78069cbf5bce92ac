import FormulaBook.Command.Options
import Mathlib.Data.Set.List

/-!
# Options have their values

By the current rules an option that takes a value is never left without one: in the options that
are understood, the name, the depth limit and the names to expand have values where they are given
(`Options.isFilled_of_parse`). This holds of the options a run starts with, and every setting keeps
it, since each word gives values to the options that take them.
-/

namespace FormulaBook.Options

/-- The name, the depth limit and the names to expand have values where they are given. -/
structure IsFilled (o : Options) : Prop where
  request : o.request ≠ .nothing
  maxDepth : o.maxDepth? ≠ none
  expand : none ∉ o.expand

/-- A list without gaps has all its values. -/
theorem exists_map_some {α : Type} {l : List (Option α)} (h : none ∉ l) :
    ∃ r : List α, l = r.map some := by
  have hrange : l ∈ Set.range (List.map some) := by
    rw [Set.range_list_map]
    exact fun x? hx => Option.ne_none_iff_exists.mp fun hnone => h (hnone ▸ hx)
  obtain ⟨r, hr⟩ := hrange
  exact ⟨r, hr.symm⟩

/-! ## Settings -/

/-- Settings of options that take values have values. -/
def Filled (settings : List (Key × Option String)) : Prop :=
  ∀ s ∈ settings, s.1.takesValue = true → s.2 ≠ none

/-- A setting that has a value if it takes one keeps the values. -/
theorem isFilled_set {d d' : Draft} {key : Key} {value? : Option String}
    (h : d.set key value? = .ok d') (hd : d.options.IsFilled)
    (hvalue : key.takesValue = true → value? ≠ none) : d'.options.IsFilled := by
  obtain ⟨hrequest, hdepth, hexpand⟩ := hd
  cases key with
  | help => cases h
  | check | tree | derivatives | layout | json | verbose | debug | formulas | render | format =>
    cases h
    exact ⟨hrequest, hdepth, hexpand⟩
  | name =>
    obtain ⟨name, rfl⟩ := Option.ne_none_iff_exists'.mp (hvalue rfl)
    cases h
    exact ⟨nofun, hdepth, hexpand⟩
  | expand =>
    cases h
    exact ⟨hrequest, hdepth, by simp [hexpand, Ne.symm (hvalue rfl)]⟩
  | maxDepth =>
    obtain ⟨value, rfl⟩ := Option.ne_none_iff_exists'.mp (hvalue rfl)
    simp only [Draft.set] at h
    split at h
    · cases h
      exact ⟨hrequest, nofun, hexpand⟩
    · cases h

/-- Several settings keep the values. -/
theorem isFilled_setAll {d d' : Draft} {settings : List (Key × Option String)}
    (h : d.setAll settings = .ok d') (hd : d.options.IsFilled) (hs : Filled settings) :
    d'.options.IsFilled := by
  induction settings generalizing d with
  | nil =>
    cases h
    exact hd
  | cons s settings ih =>
    obtain ⟨hvalue, hrest⟩ := List.forall_mem_cons.mp hs
    rw [Draft.setAll] at h
    split at h
    · exact ih h (isFilled_set ‹_› hd hvalue) hrest
    · cases h

/-! ## Words -/

/-- An option with nothing attached has no setting yet if it takes a value. -/
theorem filled_bare (key : Key) : Filled (Group.bare key).settings := by
  unfold Group.bare
  split
  · exact nofun
  · exact List.forall_mem_singleton.mpr fun h => absurd h ‹_›

/-- Whatever is attached to an option is its value. -/
theorem filled_withValue (key : Key) (value : List Char) :
    Filled (Group.withValue .current key value).settings := by
  rw [Group.withValue, if_neg (by simp)]
  exact List.forall_mem_singleton.mpr fun _ => nofun

/-- An option that takes no value may stand in front of any group. -/
theorem filled_cons {key : Key} {g : Group} (hkey : ¬key.takesValue = true)
    (hg : Filled g.settings) : Filled (g.cons key).settings :=
  List.forall_mem_cons.mpr ⟨fun h => absurd h hkey, hg⟩

/-- Of several short options only the last may take a value. -/
theorem filled_shortGroup {key : Key} {separated : Bool} {cs : List Char} {g : Group}
    (h : shortGroup .current key separated cs = some g) : Filled g.settings := by
  fun_induction shortGroup .current key separated cs generalizing g with
  | case1 key | case3 key =>
    cases h
    exact filled_withValue key _
  | case2 | case4 | case6 => cases h
  | case5 key separated c cs hkey =>
    cases h
    exact List.forall_mem_singleton.mpr fun h => absurd h hkey
  | case7 key separated c hkey =>
    cases h
    exact filled_cons hkey (filled_bare _)
  | case8 key separated c hkey _ next d ds _ ihseparated ihattached =>
    obtain ⟨g', hg', rfl⟩ := Option.map_eq_some_iff.mp h
    refine filled_cons hkey ?_
    split at hg'
    · exact ihseparated hg'
    · exact ihattached hg'

/-- The settings of a word have their values. -/
theorem filled_group {w : Word} {g : Group} (h : w.group? .current = some g) :
    Filled g.settings := by
  unfold Word.group? at h
  split at h
  · unfold longGroup at h
    split at h <;> cases h
    exact filled_withValue _ _
  · cases h
    exact filled_bare _
  · cases h
    exact filled_bare _
  · exact filled_shortGroup h
  · exact filled_shortGroup h
  · cases h
    exact nofun

/-! ## Arguments -/

/-- A stop is no run. -/
theorem Stop.invocation_ne_run (stop : Stop) {path : Path} {o : Options} :
    stop.invocation ≠ .run path o := by
  intro h
  cases stop <;> cases h

/-- Reading further arguments keeps the values. -/
theorem isFilled_read {d : Draft} {stray : Bool} {ws : List (String × Word)} {path : Path}
    {o : Options} (h : read .current d stray ws = .run path o) (hd : d.options.IsFilled) :
    o.IsFilled := by
  fun_induction read .current d stray ws with
  | case1 d stray =>
    unfold Draft.finish at h
    split at h <;> cases h
    exact hd
  | case2 => cases h
  | case3 d stray s w rest g hg _ _ d' hset ih =>
    exact ih h (isFilled_setAll hset hd (filled_group hg))
  | case4 => exact absurd h (Stop.invocation_ne_run _)
  | case5 d stray s w g hg _ key _ value rest d' hset ih =>
    refine ih h (isFilled_setAll hset hd fun p hp => ?_)
    rcases List.mem_append.mp hp with hp | hp
    · exact filled_group hg p hp
    · rw [List.mem_singleton.mp hp]
      exact fun _ => nofun
  | case6 => exact absurd h (Stop.invocation_ne_run _)
  | case7 => cases h

/-- All options understood have their values. -/
theorem isFilled_of_parse {args : List String} {path : Path} {o : Options}
    (h : parse args .current = .run path o) : o.IsFilled := by
  unfold parse at h
  dsimp only at h
  split at h
  · cases h
  · exact isFilled_read h ⟨nofun, nofun, List.not_mem_nil⟩

end FormulaBook.Options
