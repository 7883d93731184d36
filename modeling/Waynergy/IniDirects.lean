import Waynergy.IniKeeps

/-!
# Where a name leads

Names are never removed or reordered, so that a name leads to the same section and property for good. If these are
not its own, what is merged under the name never gets to it. What becomes of a text on the way is said here too.
-/

namespace Waynergy
open Lib

namespace IniTable
variable {t t' u u' : IniTable} {s s' p p' name value : Bytes} {sec : Nat} {q : IniSetting Bytes}

/-! ### The names of the table -/

/-- The properties of the two have the same names, in the same order. -/
structure Alike (t u : IniTable) : Prop where
  sections : t.sections = u.sections
  keys : t.keys = u.keys

/-- There are the same names, and others behind them. -/
structure Extends (t u : IniTable) : Prop where
  sections : t.sections <+: u.sections
  keys : t.keys <+: u.keys

theorem Extends.refl (t : IniTable) : t.Extends t := ⟨List.prefix_rfl, List.prefix_rfl⟩

theorem Extends.trans {v : IniTable} (h : t.Extends u) (h' : u.Extends v) : t.Extends v :=
  ⟨h.sections.trans h'.sections, h.keys.trans h'.keys⟩

theorem Extends.names (h : t.Extends u) (i : Nat) : t.names i <+: u.names i :=
  (h.keys.filter _).map _

theorem extends_findOrAdd (t : IniTable) (s : Bytes) : t.Extends (t.findOrAdd s).1 := by
  refine ⟨t.sections_prefix_findOrAdd s, ?_⟩
  unfold keys
  rw [properties_findOrAdd]

theorem keys_catProperty (hname : name ≠ []) (ht' : iniCatProperty sec t name value = some t') : t'.keys =
    if (t.names sec).find? (fun other => StartsAs name other) = none then t.keys ++ [(sec, name)] else t.keys := by
  rcases iniCatProperty_some hname ht' with ⟨hnone, rfl⟩ | ⟨before, e, after, text, hfirst, -, rfl⟩
  · rw [if_pos (find?_names hname hnone)]
    unfold keys IniTable.propertyAdd
    rw [List.map_append]
    rfl
  · rw [hfirst.find?_names, if_neg (by simp)]
    exact keys_withText hfirst.eq

theorem extends_say {l : IniLine Bytes} (hl : ∀ q, l = .property q → q.name ≠ []) (ht' : t.say l = some t') :
    t.Extends t' := by
  cases l with
  | header s =>
    cases ht'
    exact t.extends_findOrAdd s
  | property q =>
    refine (t.extends_findOrAdd q.sec).trans ⟨?_, ?_⟩
    · rw [iniCatProperty_sections ht']
    · rw [keys_catProperty (hl q rfl) ht']
      split
      · exact List.prefix_append _ _
      · exact List.prefix_rfl

theorem Alike.findOrAdd (h : t.Alike u) (s : Bytes) :
    (t.findOrAdd s).1.Alike (u.findOrAdd s).1 ∧ (t.findOrAdd s).2 = (u.findOrAdd s).2 := by
  unfold IniTable.findOrAdd findSection sectionAdd
  rw [h.sections]
  split
  · exact ⟨h, rfl⟩
  · exact ⟨⟨rfl, h.keys⟩, rfl⟩

/-- Merging lines with the same names keeps tables alike. -/
theorem Alike.say {l l' : IniLine Bytes} (h : t.Alike u) (hl : ∀ q, l = .property q → q.name ≠ [])
    (hnames : l.map (fun _ => ()) = l'.map fun _ => ()) (ht' : t.say l = some t') (hu' : u.say l' = some u') :
    t'.Alike u' := by
  cases l with
  | header s =>
    cases l' with
    | property q' => cases hnames
    | header s' =>
      cases hnames
      cases ht'
      cases hu'
      exact (h.findOrAdd s).1
  | property q =>
    cases l' with
    | header s' => cases hnames
    | property q' =>
      obtain ⟨sec, name, value⟩ := q
      obtain ⟨sec', name', value'⟩ := q'
      cases hnames
      have hname : name ≠ [] := hl _ rfl
      obtain ⟨halike, hsec⟩ := h.findOrAdd sec
      have ht' : iniCatProperty (t.findOrAdd sec).2 (t.findOrAdd sec).1 name value = some t' := ht'
      have hu' : iniCatProperty (u.findOrAdd sec).2 (u.findOrAdd sec).1 name value' = some u' := hu'
      refine ⟨?_, ?_⟩
      · rw [iniCatProperty_sections ht', iniCatProperty_sections hu', halike.sections]
      · rw [keys_catProperty hname ht', keys_catProperty hname hu']
        unfold names
        rw [halike.keys, hsec]

/-! ### Names that lead elsewhere -/

/-- The name of the section, or that of the property in it, finds a longer one. -/
def Misdirects (t : IniTable) (s p : Bytes) : Prop :=
  ∃ i y, t.findSection s = some i ∧ t.sections[i]? = some y ∧
    (¬ SameLetters s y ∨ ∃ x, (t.names i).find? (fun other => StartsAs p other) = some x ∧ ¬ SameLetters p x)

/-- Both names find themselves. -/
def Directs (t : IniTable) (s p : Bytes) : Prop :=
  ∃ i y x, t.findSection s = some i ∧ t.sections[i]? = some y ∧ SameLetters s y ∧
    (t.names i).find? (fun other => StartsAs p other) = some x ∧ SameLetters p x

theorem Directs.not_misdirects (h : t.Directs s p) : ¬ t.Misdirects s p := by
  obtain ⟨i, y, x, hi, hy, hsy, hx, hpx⟩ := h
  rintro ⟨i', y', hi', hy', hwrong⟩
  cases hi.symm.trans hi'
  cases hy.symm.trans hy'
  rcases hwrong with hwrong | ⟨x', hx', hwrong⟩
  · exact hwrong hsy
  · cases hx.symm.trans hx'
    exact hwrong hpx

theorem Misdirects.extends (h : t.Misdirects s p) (hu : t.Extends u) : u.Misdirects s p := by
  obtain ⟨i, y, hi, hy, hwrong⟩ := h
  refine ⟨i, y, findIdx?_stays hu.sections hi, getElem?_stays hu.sections hy, hwrong.imp_right ?_⟩
  rintro ⟨x, hx, hpx⟩
  exact ⟨x, (hu.names i).find?_eq_some hx, hpx⟩

theorem Directs.extends (h : t.Directs s p) (hu : t.Extends u) : u.Directs s p := by
  obtain ⟨i, y, x, hi, hy, hsy, hx, hpx⟩ := h
  exact ⟨i, y, x, findIdx?_stays hu.sections hi, getElem?_stays hu.sections hy, hsy,
    (hu.names i).find?_eq_some hx, hpx⟩

theorem Alike.misdirects (h : t.Alike u) : t.Misdirects s p ↔ u.Misdirects s p := by
  unfold Misdirects findSection names
  rw [h.sections, h.keys]

theorem misdirects_congr (hs : SameLetters s s') (hp : SameLetters p p') :
    t.Misdirects s p ↔ t.Misdirects s' p' := by
  have hsame (x y z : Bytes) (h : SameLetters x y) : SameLetters x z ↔ SameLetters y z := ⟨h.symm.trans, h.trans⟩
  unfold Misdirects findSection
  simp only [hs.startsAs_iff, hp.startsAs_iff, hsame s s' _ hs, hsame p p' _ hp]

theorem directs_catProperty {i : Nat} {y : Bytes} (hname : name ≠ []) (hi : u.findSection s = some i)
    (hy : u.sections[i]? = some y) (hsy : SameLetters s y)
    (hx : ∀ x, (u.names i).find? (fun other => StartsAs name other) = some x → SameLetters name x)
    (ht' : iniCatProperty i u name value = some t') : t'.Directs s name := by
  have hsections := iniCatProperty_sections ht'
  have hkeys := keys_catProperty hname ht'
  have hnames : ∃ x, (t'.names i).find? (fun other => StartsAs name other) = some x ∧ SameLetters name x := by
    unfold names
    rw [hkeys]
    cases hfind : (u.names i).find? (fun other => StartsAs name other) with
    | none =>
      refine ⟨name, ?_, SameLetters.refl name⟩
      unfold names at hfind
      rw [if_pos rfl, List.filter_append, List.map_append, List.find?_append, hfind, Option.none_or]
      simp [(SameLetters.refl name).startsAs]
    | some x =>
      rw [if_neg (by simp)]
      exact ⟨x, hfind, hx x hfind⟩
  obtain ⟨x, hfind, hsame⟩ := hnames
  refine ⟨i, y, x, ?_, ?_, hsy, hfind, hsame⟩
  · unfold findSection
    rw [hsections]
    exact hi
  · rw [hsections]
    exact hy

/-- What is merged under names that do not lead elsewhere is found under them. -/
theorem directs_say (hsound : t.Sound) (hname : q.name ≠ []) (h : ¬ t.Misdirects q.sec q.name)
    (ht' : t.say (.property q) = some t') : t'.Directs q.sec q.name := by
  have hfind := t.findSection_findOrAdd q.sec
  have ht' : iniCatProperty (t.findOrAdd q.sec).2 (t.findOrAdd q.sec).1 q.name q.value = some t' := ht'
  unfold findOrAdd at hfind ht'
  cases hi : t.findSection q.sec with
  | some i =>
    rw [hi] at ht'
    obtain ⟨hlt, -, -⟩ := List.findIdx?_eq_some_iff_getElem.mp hi
    have hy := List.getElem?_eq_getElem hlt
    refine directs_catProperty hname hi hy ?_ (fun x hx => ?_) ht'
    · exact Decidable.byContradiction fun hwrong => h ⟨i, _, hi, hy, .inl hwrong⟩
    · exact Decidable.byContradiction fun hwrong => h ⟨i, _, hi, hy, .inr ⟨x, hx, hwrong⟩⟩
  | none =>
    rw [hi] at hfind ht'
    refine directs_catProperty hname hfind ?_ (SameLetters.refl q.sec) (fun x hx => ?_) ht'
    · simp [sectionAdd]
    · have hnone : (sectionAdd t q.sec).1.names (sectionAdd t q.sec).2 = [] := names_length hsound
      rw [hnone] at hx
      cases hx

/-! ### What becomes of a text -/

/-- A property that is merged leaves a text as it is, or puts its own in place of none or of another. -/
theorem namedText_say (hsound : t.Sound) (hname : q.name ≠ []) (ht' : t.say (.property q) = some t') (s p : Bytes) :
    t'.namedText s p = t.namedText s p ∨
      (t.namedText s p = none ∧ t'.namedText s p = some (.ofValue q.value)) ∨
      ∃ old new, t.namedText s p = some old ∧ old.set q.value = some new ∧ t'.namedText s p = some new := by
  have ht' : iniCatProperty (t.findOrAdd q.sec).2 (t.findOrAdd q.sec).1 q.name q.value = some t' := ht'
  rw [← @namedText_findOrAdd t q.sec s p hsound]
  rcases iniCatProperty_some hname ht' with ⟨-, rfl⟩ | ⟨before, e, after, new, hfirst, hnew, rfl⟩
  · rw [namedText_propertyAdd]
    cases hold : (t.findOrAdd q.sec).1.namedText s p with
    | some old => exact .inl rfl
    | none =>
      rw [Option.none_or]
      split
      · exact .inr (.inl ⟨rfl, rfl⟩)
      · exact .inl rfl
  · by_cases h : (t.findOrAdd q.sec).1.namedSection s = some e.sec ∧ SameLetters p e.name ∧
        ∀ b ∈ before, b.sec = e.sec → ¬ SameLetters p b.name
    · obtain ⟨hs, hp, hbefore⟩ := h
      exact .inr (.inr ⟨e.text, new, namedText_eq_some hfirst.eq hs hp hbefore, hnew,
        namedText_withText_self hs hp hbefore⟩)
    · exact .inl (namedText_withText_other hfirst.eq h)

/-- Under names that lead elsewhere nothing gets to their own text. -/
theorem Misdirects.namedText_say (h : t.Misdirects q.sec q.name) (hname : q.name ≠ []) (his : q.Is s p)
    (ht' : t.say (.property q) = some t') : t'.namedText s p = t.namedText s p := by
  obtain ⟨i, y, hi, hy, hwrong⟩ := h
  have hfind : t.findOrAdd q.sec = (t, i) := by
    unfold findOrAdd
    rw [hi]
  have ht' : iniCatProperty (t.findOrAdd q.sec).2 (t.findOrAdd q.sec).1 q.name q.value = some t' := ht'
  rw [hfind] at ht'
  dsimp only at ht'
  have hsec : t.namedSection s = some i → SameLetters q.sec y := by
    intro hs
    obtain ⟨hlt, hsame, -⟩ := List.findIdx?_eq_some_iff_getElem.mp hs
    cases (List.getElem?_eq_getElem hlt).symm.trans hy
    exact his.1.symm.trans (of_decide_eq_true hsame)
  rcases iniCatProperty_some hname ht' with ⟨hnone, rfl⟩ | ⟨before, e, after, new, hfirst, -, rfl⟩
  · rw [namedText_propertyAdd, if_neg, Option.or_none]
    rintro ⟨hs, -⟩
    rcases hwrong with hwrong | ⟨x, hx, -⟩
    · exact hwrong (hsec hs)
    · cases (find?_names hname hnone).symm.trans hx
  · refine namedText_withText_other hfirst.eq ?_
    rintro ⟨hs, hp, -⟩
    rcases hwrong with hwrong | ⟨x, hx, hwrong⟩
    · exact hwrong (hsec (hfirst.ofSection ▸ hs))
    · cases hfirst.find?_names.symm.trans hx
      exact hwrong (his.2.symm.trans hp)

/-- A text that was freed is not replaced. -/
theorem freed_say (hsound : t.Sound) (hname : q.name ≠ []) (ht' : t.say (.property q) = some t')
    (h : t.namedText s p = some .freed) : t'.namedText s p = some .freed := by
  rcases namedText_say hsound hname ht' s p with hsame | ⟨hnone, -⟩ | ⟨old, new, hold, hset, -⟩
  · exact hsame.trans h
  · cases hnone.symm.trans h
  · cases hold.symm.trans h
    cases hset

/-! ### Line after line -/

theorem extends_run {ls : List (IniLine Bytes)} (hls : Named ls) (ht' : ls.foldlM say t = some t') :
    t.Extends t' := by
  induction ls generalizing t with
  | nil =>
    cases ht'
    exact .refl _
  | cons l ls ih =>
    obtain ⟨u, hu, ht'⟩ := Option.bind_eq_some_iff.mp ht'
    exact (extends_say hls.head hu).trans (ih hls.tail ht')

theorem Alike.run {ls ls' : List (IniLine Bytes)} (h : t.Alike u) (hls : Named ls)
    (hnames : ls.map (IniLine.map fun _ => ()) = ls'.map (IniLine.map fun _ => ()))
    (ht' : ls.foldlM IniTable.say t = some t') (hu' : ls'.foldlM IniTable.say u = some u') : t'.Alike u' := by
  induction ls generalizing t u ls' with
  | nil =>
    cases List.map_eq_nil_iff.mp hnames.symm
    cases ht'
    cases hu'
    exact h
  | cons l ls ih =>
    obtain ⟨l', rest, rfl, hl, hrest⟩ := List.map_eq_cons_iff.mp hnames.symm
    obtain ⟨t₁, ht₁, ht'⟩ := Option.bind_eq_some_iff.mp ht'
    obtain ⟨u₁, hu₁, hu'⟩ := Option.bind_eq_some_iff.mp hu'
    exact ih (h.say hls.head hl.symm ht₁ hu₁) hls.tail hrest.symm
      ht' hu'

theorem freed_run {ls : List (IniLine Bytes)} (hsound : t.Sound) (hls : Named ls) (ht' : ls.foldlM say t = some t')
    (h : t.namedText s p = some .freed) : t'.namedText s p = some .freed := by
  induction ls generalizing t with
  | nil =>
    cases ht'
    exact h
  | cons l ls ih =>
    obtain ⟨u, hu, ht'⟩ := Option.bind_eq_some_iff.mp ht'
    refine ih (hsound.say hls.head hu) hls.tail ht' ?_
    cases l with
    | header s' =>
      cases hu
      exact (namedText_findOrAdd hsound).trans h
    | property q => exact freed_say hsound (hls q (.head _)) hu h

end IniTable

/-! ### Marked texts -/

/-- A text that can be told from others of its length. -/
def IsMarked (value : Bytes) : Prop := value.head? = some 1

instance (value : Bytes) : Decidable (IsMarked value) := inferInstanceAs (Decidable (_ = _))

def IniText.Marked : IniText → Prop
  | .inline text | .large text => IsMarked text
  | .freed => False

/-- A value that is as long, and marked or not. -/
def mark (marked : Bool) (value : Bytes) : Bytes :=
  List.replicate (if isLong value then 63 else 1) (if marked then 1 else 0)

theorem isLong_mark (marked : Bool) (value : Bytes) : isLong (mark marked value) = isLong value := by
  unfold mark
  cases h : isLong value <;> rfl

theorem isMarked_mark {marked : Bool} {value : Bytes} : IsMarked (mark marked value) ↔ marked = true := by
  unfold IsMarked mark
  cases marked <;> cases isLong value <;> decide

theorem IniText.marked_ofValue {value : Bytes} : (IniText.ofValue value).Marked ↔ IsMarked value := by
  unfold IniText.ofValue
  split <;> exact Iff.rfl

theorem IniText.Marked.of_set {old new : IniText} {value : Bytes} (h : new.Marked)
    (hset : old.set value = some new) : IsMarked value := by
  cases old with
  | inline text =>
    cases hset
    exact IniText.marked_ofValue.mp h
  | large text =>
    have hset : (if isLong value then IniText.large value else .freed) = new := Option.some.inj hset
    split at hset
    · cases hset
      exact h
    · cases hset
      exact h.elim
  | freed => cases hset

/-- A marked text that was not there comes from a marked line, which was said where its names led to it. -/
theorem IniTable.exists_of_marked {ls : List (IniLine Bytes)} {t t' : IniTable} {s p : Bytes} {text : IniText}
    (hsound : t.Sound) (hls : Named ls) (hmarks : ∀ q, .property q ∈ ls → IsMarked q.value → q.Is s p)
    (ht : ∀ text, t.namedText s p = some text → ¬ text.Marked) (ht' : ls.foldlM IniTable.say t = some t')
    (htext : t'.namedText s p = some text) (hmarked : text.Marked) :
    ∃ before q after u, ls = before ++ .property q :: after ∧ IsMarked q.value ∧
      before.foldlM IniTable.say t = some u ∧ ¬ u.Misdirects s p := by
  induction ls generalizing t with
  | nil =>
    cases ht'
    exact absurd hmarked (ht text htext)
  | cons l ls ih =>
    obtain ⟨u, hu, ht'⟩ := Option.bind_eq_some_iff.mp ht'
    have hu' := hsound.say hls.head hu
    by_cases hkeep : ∀ text, u.namedText s p = some text → ¬ text.Marked
    · obtain ⟨before, q, after, v, rfl, hq, hv, hdirects⟩ :=
        ih hu' hls.tail (fun q hq => hmarks q (.tail _ hq)) hkeep ht'
      refine ⟨l :: before, q, after, v, rfl, hq, ?_, hdirects⟩
      rw [List.foldlM_cons, hu]
      exact hv
    · cases l with
      | header s' =>
        cases hu
        rw [namedText_findOrAdd hsound] at hkeep
        exact absurd ht hkeep
      | property q =>
        have hname := hls q (.head _)
        have hq : IsMarked q.value := by
          refine Decidable.byContradiction fun hq => hkeep fun text htext hmarked => ?_
          rcases namedText_say hsound hname hu s p with hsame | ⟨-, hnew⟩ | ⟨old, new, -, hset, hnew⟩
          · exact ht text (hsame ▸ htext) hmarked
          · cases hnew.symm.trans htext
            exact hq (IniText.marked_ofValue.mp hmarked)
          · cases hnew.symm.trans htext
            exact hq (hmarked.of_set hset)
        have his := hmarks q (.head _) hq
        refine ⟨[], q, ls, t, rfl, hq, rfl, fun hwrong => hkeep fun text htext => ?_⟩
        have hwrong : t.Misdirects q.sec q.name := (misdirects_congr his.1 his.2).mp hwrong
        rw [hwrong.namedText_say hname his hu] at htext
        exact ht text htext

end Waynergy
