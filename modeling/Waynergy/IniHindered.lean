import Waynergy.IniOverride

/-!
# Where snippets do not override

Suppose the last snippet with a name marks its value, and nothing else is marked. The name has a marked value in the
end only if that snippet is taken and the name leads to itself there. So it does wherever the name is merged; and
then a text that cannot be replaced shows in the end.
-/

namespace Waynergy
open Lib

/-! ### Marking what is said of some names -/

def IniSetting.marked (P : Bytes → Bytes → Bool) (q : IniSetting Bytes) : IniSetting Bytes :=
  { q with value := mark (P q.sec q.name) q.value }

def IniLine.marked (P : Bytes → Bytes → Bool) : IniLine Bytes → IniLine Bytes
  | header s => header s
  | property q => property (q.marked P)

def Ini.marked (P : Bytes → Bytes → Bool) (ini : Ini) : Ini :=
  ini.withValues fun q => mark (P (ini.setting q).sec q.name) q.value

def IniFile.marked (P : Bytes → Bytes → Bool) (f : IniFile) : IniFile where
  name := f.name
  ini := f.ini.marked P
  named := by
    intro q hq
    obtain ⟨q', hq', rfl⟩ := List.mem_map.mp hq
    exact f.named q' hq'

def nothing : Bytes → Bytes → Bool := fun _ _ => false

section
variable {P : Bytes → Bytes → Bool} {ini : Ini} {f : IniFile} {files : List IniFile} {s p : Bytes}

theorem Ini.shape_marked (P : Bytes → Bytes → Bool) (ini : Ini) : (ini.marked P).shape = ini.shape := by
  unfold shape marked withValues
  dsimp only
  rw [List.map_map]
  congr 1
  exact List.map_congr_left fun q _ => congrArg (Prod.mk _) (isLong_mark _ _)

theorem Ini.lines_marked (P : Bytes → Bytes → Bool) (ini : Ini) :
    (ini.marked P).lines = ini.lines.map (IniLine.marked P) := by
  unfold lines
  rw [List.map_flatMap]
  change ini.sections.zipIdx.flatMap _ = _
  refine List.flatMap_congr fun sec hsec => ?_
  have hget : ini.sections.getD sec.2 [] = sec.1 := by
    have hat := (List.mem_zipIdx_iff_getElem?.mp hsec)
    rw [List.getD_eq_getElem?_getD, hat]
    rfl
  unfold marked
  rw [ofSection_withValues, List.map_cons, List.map_map, List.map_map]
  congr 1
  refine List.map_congr_left fun q hq => ?_
  have hsec : (ini.setting q).sec = sec.1 := by
    change ini.sections.getD q.sec [] = sec.1
    rw [(mem_ofSection.mp hq).2, hget]
  change IniLine.property ⟨sec.1, q.name, mark (P (ini.setting q).sec q.name) q.value⟩ = _
  rw [hsec]
  rfl

theorem Ini.settings_marked (P : Bytes → Bytes → Bool) (ini : Ini) :
    (ini.marked P).settings = ini.settings.map (IniSetting.marked P) := by
  unfold settings
  rw [lines_marked, List.filterMap_map, List.map_filterMap]
  congr 1
  funext l
  cases l <;> rfl

theorem lastValue_eq_some {qs : List (IniSetting Bytes)} {value : Bytes} (h : lastValue qs s p = some value) :
    ∃ q ∈ qs, q.Is s p ∧ q.value = value := by
  obtain ⟨q, hq, hvalue⟩ := Option.map_eq_some_iff.mp h
  obtain ⟨hmem, his⟩ := of_find?_eq_some hq
  exact ⟨q, List.mem_reverse.mp hmem, his, hvalue⟩

/-- A line that is marked is one of the names that are. -/
theorem marked_of_mem_lines {q : IniSetting Bytes} (hq : .property q ∈ (f.marked P).ini.lines)
    (h : IsMarked q.value) : P q.sec q.name = true := by
  change _ ∈ (f.ini.marked P).lines at hq
  rw [Ini.lines_marked] at hq
  obtain ⟨l, -, hl⟩ := List.mem_map.mp hq
  cases l with
  | header s => cases hl
  | property q' =>
    cases hl
    exact isMarked_mark.mp h

/-- All files but one without marks. -/
def markedFiles (P : Bytes → Bytes → Bool) (before : List IniFile) (f : IniFile) (after : List IniFile) :
    List IniFile :=
  before.map (IniFile.marked nothing) ++ f.marked P :: after.map (IniFile.marked nothing)

variable {before after : List IniFile}

theorem shape_markedFiles : (markedFiles P before f after).map IniFile.shape =
    (before ++ f :: after).map IniFile.shape := by
  have hshape (P : Bytes → Bytes → Bool) (f : IniFile) : (f.marked P).shape = f.shape :=
    congrArg (Prod.mk f.name) (Ini.shape_marked P f.ini)
  have hmap (l : List IniFile) : (l.map (IniFile.marked nothing)).map IniFile.shape = l.map IniFile.shape := by
    rw [List.map_map]
    exact List.map_congr_left fun f _ => hshape nothing f
  unfold markedFiles
  rw [List.map_append, List.map_append, List.map_cons, List.map_cons, hmap, hmap, hshape]

/-- A marked line that is taken is from the file with marks. -/
theorem marked_of_mem_takenLines {q : IniSetting Bytes}
    (hq : .property q ∈ takenLines (markedFiles P before f after)) (h : IsMarked q.value) :
    f.taken = true ∧ P q.sec q.name = true := by
  obtain ⟨g, hg, hq⟩ := List.mem_flatMap.mp hq
  obtain ⟨hg, htaken⟩ := List.mem_filter.mp hg
  have hnothing {g : IniFile} {l : List IniFile} (hg : g ∈ l.map (IniFile.marked nothing))
      (hq : .property q ∈ g.ini.lines) : False := by
    obtain ⟨g', -, rfl⟩ := List.mem_map.mp hg
    cases marked_of_mem_lines hq h
  rcases List.mem_append.mp hg with hg | hg
  · exact (hnothing hg hq).elim
  · rcases List.mem_cons.mp hg with rfl | hg
    · exact ⟨htaken, marked_of_mem_lines hq h⟩
    · exact (hnothing hg hq).elim

/-- If the file with marks is the last snippet with the names, their value is marked. -/
theorem lastValue_markedFiles (hends : f.endsInIni = true) (hf : ∃ q ∈ f.ini.settings, q.Is s p)
    (hP : ∀ q : IniSetting Bytes, q.Is s p → P q.sec q.name = true)
    (hafter : ∀ g ∈ after, g.endsInIni = true → ∀ q ∈ g.ini.settings, ¬ q.Is s p) :
    ∃ value, lastValue (snippetSettings (markedFiles P before f after)) s p = some value ∧ IsMarked value := by
  have hends' : (f.marked P).endsInIni = true := hends
  have hsettings : (f.marked P).ini.settings = f.ini.settings.map (IniSetting.marked P) := Ini.settings_marked P f.ini
  unfold snippetSettings markedFiles
  rw [List.filter_append, List.filter_cons_of_pos hends', List.flatMap_append, List.flatMap_cons, lastValue_append,
    lastValue_append]
  have hnone : lastValue (((after.map (IniFile.marked nothing)).filter IniFile.endsInIni).flatMap
      fun f => f.ini.settings) s p = none := by
    rw [lastValue_eq_none]
    intro q hq his
    obtain ⟨g, hg, hq⟩ := List.mem_flatMap.mp hq
    obtain ⟨hg, hgends⟩ := List.mem_filter.mp hg
    obtain ⟨g', hg', rfl⟩ := List.mem_map.mp hg
    change q ∈ (g'.ini.marked nothing).settings at hq
    rw [Ini.settings_marked] at hq
    obtain ⟨q', hq', rfl⟩ := List.mem_map.mp hq
    exact hafter g' hg' hgends q' hq' his
  rw [hnone, Option.none_or, hsettings]
  cases hlast : lastValue (f.ini.settings.map (IniSetting.marked P)) s p with
  | none =>
    obtain ⟨q, hq, his⟩ := hf
    have his' : (q.marked P).Is s p := his
    exact absurd his' (lastValue_eq_none.mp hlast _ (List.mem_map_of_mem hq))
  | some value =>
    obtain ⟨q, hq, his, rfl⟩ := lastValue_eq_some hlast
    obtain ⟨q', hq', rfl⟩ := List.mem_map.mp hq
    exact ⟨_, rfl, isMarked_mark.mpr (hP q' his)⟩

theorem unmarked_table (ini : Ini) {text : IniText} (h : (ini.marked nothing).table.namedText s p = some text) :
    ¬ text.Marked := by
  rw [Ini.namedText_table, Ini.namedValue_eq, Ini.marked, Ini.meant_withValues] at h
  obtain ⟨value, hvalue, rfl⟩ := Option.map_eq_some_iff.mp h
  obtain ⟨q, -, rfl⟩ := Option.map_eq_some_iff.mp hvalue
  rw [IniText.marked_ofValue, isMarked_mark]
  exact Bool.false_ne_true

end

/-! ### Where a name leads to itself -/

section
variable {dst : Ini} {files before after : List IniFile} {f : IniFile} {s p : Bytes}

theorem map_names_eq {ls ls' : List (IniLine Bytes)}
    (h : ls'.map (IniLine.map isLong) = ls.map (IniLine.map isLong)) :
    ls'.map (IniLine.map fun _ => ()) = ls.map (IniLine.map fun _ => ()) := by
  have hmap := congrArg (List.map (IniLine.map fun _ => ())) h
  rw [List.map_map, List.map_map] at hmap
  have hcomp : (IniLine.map fun _ => ()) ∘ IniLine.map isLong = IniLine.map fun _ => () := by
    funext l
    cases l <;> rfl
  rwa [hcomp] at hmap

theorem alike_table {ini ini' : Ini} (h : ini'.shape = ini.shape) : ini.table.Alike ini'.table := by
  refine ⟨?_, ?_⟩
  · rw [Ini.sections_table, Ini.sections_table, Ini.sections_of_shape h]
  · have hfst := congrArg (List.map Prod.fst) (Ini.properties_of_shape h)
    rw [List.map_map, List.map_map] at hfst
    rw [Ini.keys_table, Ini.keys_table]
    exact hfst.symm

/-- A run can be cut anywhere. -/
theorem exists_run {ls ls' : List (IniLine Bytes)} {t t' : IniTable}
    (h : (ls ++ ls').foldlM IniTable.say t = some t') :
    ∃ u, ls.foldlM IniTable.say t = some u ∧ ls'.foldlM IniTable.say u = some t' := by
  rw [List.foldlM_append] at h
  exact Option.bind_eq_some_iff.mp h

theorem OverridesAt.exists_run (h : OverridesAt dst files) :
    ∃ t, (takenLines files).foldlM IniTable.say dst.table = some t ∧
      ∀ s p, t.namedText s p = ((lastValue (snippetSettings files) s p).or (dst.namedValue s p)).map .ofValue := by
  obtain ⟨t, ht, htext⟩ := h
  rw [iniDLoad_eq] at ht
  obtain ⟨t', ht', heq⟩ := Option.map_eq_some_iff.mp ht
  cases heq
  exact ⟨_, ht', htext⟩

/-- The last snippet with the names is taken, and they lead to themselves somewhere. -/
theorem Overrides.exists_directed (hdst : dst.WellFormed) (h : Overrides dst (before ++ f :: after))
    (hends : f.endsInIni = true) (hf : ∃ q ∈ f.ini.settings, q.Is s p)
    (hafter : ∀ g ∈ after, g.endsInIni = true → ∀ q ∈ g.ini.settings, ¬ q.Is s p) :
    f.taken = true ∧ ∃ ls q ls' u, takenLines (before ++ f :: after) = ls ++ .property q :: ls' ∧ q.Is s p ∧
      ls.foldlM IniTable.say dst.table = some u ∧ ¬ u.Misdirects s p := by
  let P (s' p' : Bytes) : Bool := SameLetters s s' ∧ SameLetters p p'
  have hshape : (dst.marked nothing).shape = dst.shape := Ini.shape_marked nothing dst
  have hfiles := @shape_markedFiles P f before after
  obtain ⟨t', ht', htext⟩ := (h _ _ hshape hfiles).exists_run
  obtain ⟨value, hvalue, hmarked⟩ :=
    @lastValue_markedFiles P f s p before after hends hf (fun q his => decide_eq_true his) hafter
  have htext := htext s p
  rw [hvalue, Option.some_or, Option.map_some] at htext
  obtain ⟨ls', q', rest', u', hlines, hq', hu', hdirects⟩ :=
    IniTable.exists_of_marked (hdst.of_shape hshape).sound (named_takenLines _)
      (fun q hq hmark => of_decide_eq_true (marked_of_mem_takenLines hq hmark).2)
      (fun text => unmarked_table dst) ht' htext (IniText.marked_ofValue.mpr hmarked)
  have hmem : .property q' ∈ takenLines (markedFiles P before f after) :=
    hlines ▸ List.mem_append_right _ (.head _)
  obtain ⟨htaken, hP⟩ := marked_of_mem_takenLines hmem hq'
  refine ⟨htaken, ?_⟩
  have hnames := map_names_eq (takenLines_of_shape hfiles)
  rw [hlines, List.map_append, List.map_cons] at hnames
  obtain ⟨ls, rest, hsplit, hls, hrest⟩ := List.map_eq_append_iff.mp hnames.symm
  obtain ⟨l, rest, rfl, hl, -⟩ := List.map_eq_cons_iff.mp hrest
  cases l with
  | header s' => cases hl
  | property q =>
    obtain ⟨t, ht, -⟩ := (h _ _ rfl rfl).exists_run
    rw [hsplit] at ht
    obtain ⟨u, hu, -⟩ := exists_run ht
    have hnamed := named_takenLines (before ++ f :: after)
    rw [hsplit] at hnamed
    have halike := (alike_table hshape).run hnamed.left hls hu hu'
    have his : q.Is s p := by
      have hsame : IniSetting.map (fun _ => ()) q = IniSetting.map (fun _ => ()) q' := IniLine.property.inj hl
      have hsec := congrArg (@IniSetting.sec Unit) hsame
      have hname := congrArg (@IniSetting.name Unit) hsame
      change q.sec = q'.sec at hsec
      change q.name = q'.name at hname
      unfold IniSetting.Is
      rw [hsec, hname]
      exact of_decide_eq_true hP
    exact ⟨ls, q, rest, u, hsplit, his, hu, fun hwrong => hdirects (halike.misdirects.mp hwrong)⟩

/-- So they do wherever they are merged. -/
theorem Overrides.directed (hdst : dst.WellFormed) (h : Overrides dst files) {ls ls' : List (IniLine Bytes)}
    {q : IniSetting Bytes} {u : IniTable} (hlines : takenLines files = ls ++ .property q :: ls')
    (hu : ls.foldlM IniTable.say dst.table = some u) : ¬ u.Misdirects q.sec q.name := by
  intro hwrong
  have hmem : .property q ∈ takenLines files := hlines ▸ List.mem_append_right _ (.head _)
  obtain ⟨f, hf, hq⟩ := List.mem_flatMap.mp hmem
  obtain ⟨hf, htaken⟩ := List.mem_filter.mp hf
  have hsaid : f.endsInIni = true ∧ ∃ q' ∈ f.ini.settings, q'.Is q.sec q.name :=
    ⟨IniFile.endsInIni_of_taken htaken, q, List.mem_filterMap.mpr ⟨_, hq, rfl⟩, SameLetters.refl _,
      SameLetters.refl _⟩
  obtain ⟨before, g, after, rfl, ⟨hends, hg⟩, hafter⟩ :=
    @exists_last _ _ (fun f => f.endsInIni = true ∧ ∃ q' ∈ f.ini.settings, q'.Is q.sec q.name) ⟨f, hf, hsaid⟩
  obtain ⟨-, ls₁, q₁, rest, u₁, hlines₁, his, hu₁, hdirects⟩ :=
    h.exists_directed hdst hends hg fun g' hg' hends' q' hq' his' => hafter g' hg' ⟨hends', q', hq', his'⟩
  have hnamed := named_takenLines (before ++ g :: after)
  rw [hlines] at hlines₁ hnamed
  rcases List.append_eq_append_iff.mp hlines₁ with ⟨ls₂, rfl, hrest⟩ | ⟨ls₂, rfl, hrest⟩
  · -- the names lead elsewhere before they lead to themselves
    obtain ⟨v, hv, hv₁⟩ := exists_run hu₁
    cases hu.symm.trans hv
    rw [hrest] at hnamed
    exact hdirects (hwrong.extends (IniTable.extends_run hnamed.right.left hv₁))
  · cases ls₂ with
    | nil =>
      rw [List.append_nil] at hu
      cases hu.symm.trans hu₁
      exact hdirects hwrong
    | cons l ls₂ =>
      -- they led to themselves before
      cases (List.cons.inj hrest).1
      obtain ⟨v, hv, hu⟩ := exists_run hu
      cases hu₁.symm.trans hv
      obtain ⟨w, hw, hu⟩ := Option.bind_eq_some_iff.mp hu
      have hown := hnamed.left.right
      have hname : q₁.name ≠ [] := hown q₁ (.head _)
      have hcongr (t : IniTable) : t.Misdirects q.sec q.name ↔ t.Misdirects q₁.sec q₁.name :=
        IniTable.misdirects_congr his.1 his.2
      have hfound := IniTable.directs_say (hdst.sound.run hnamed.left.left hu₁) hname
        (fun h => hdirects ((hcongr _).mpr h)) hw
      exact (hfound.extends (IniTable.extends_run hown.tail hu)).not_misdirects ((hcongr _).mp hwrong)

/-! ### What else can go wrong -/

/-- A name that leads to itself is found whole among what was said. -/
theorem foundWhole_of_directed {u : IniTable} {d : IniSaid Bytes} (hkeeps : u.KeepsNames d)
    (h : ¬ u.Misdirects s p) : FoundWhole d.sections s ∧ FoundWhole (d.names s) p := by
  have hsec : FoundWhole d.sections s := by
    intro y hy
    rw [← hkeeps.sections] at hy
    obtain ⟨hstarts, i, hi, rfl, hbefore⟩ := List.find?_eq_some_iff_getElem.mp hy
    refine Decidable.byContradiction fun hwrong => h ⟨i, _, ?_, List.getElem?_eq_getElem hi, .inl hwrong⟩
    exact List.findIdx?_eq_some_iff_getElem.mpr ⟨hi, hstarts, fun j hj => by simpa using hbefore j hj⟩
  refine ⟨hsec, fun x hx => ?_⟩
  rw [← hkeeps.names] at hx
  cases hs : u.namedSection s with
  | none =>
    unfold IniTable.namesIn at hx
    rw [hs] at hx
    cases hx
  | some i =>
    rw [IniTable.namesIn_eq hs] at hx
    obtain ⟨hi, hsame, -⟩ := List.findIdx?_eq_some_iff_getElem.mp hs
    cases hfind : u.findSection s with
    | none =>
      have hnot := List.findIdx?_eq_none_iff.mp hfind _ (List.getElem_mem hi)
      exact absurd (of_decide_eq_true hsame).startsAs (of_decide_eq_false hnot)
    | some j =>
      have hj := IniTable.namedSection_of_foundWhole (fun y hy => hsec y (hkeeps.sections s ▸ hy)) hfind
      cases hs.symm.trans hj
      exact Decidable.byContradiction fun hwrong =>
        h ⟨i, _, hfind, List.getElem?_eq_getElem hi, .inr ⟨x, hx, hwrong⟩⟩

theorem Overrides.mergesWhole (hdst : dst.WellFormed) (h : Overrides dst files) {ls ls' : List (IniLine Bytes)}
    {q : IniSetting Bytes} {u : IniTable} {d : IniSaid Bytes} (hlines : takenLines files = ls ++ .property q :: ls')
    (hu : ls.foldlM IniTable.say dst.table = some u) (hsound : u.Sound) (hkeeps : u.Keeps d) :
    (d.map isLong).MergesWhole (q.map isLong) := by
  have hnamed : IniTable.Named (.property q :: ls') := (hlines ▸ named_takenLines files).right
  obtain ⟨hsec, hname⟩ := foundWhole_of_directed hkeeps.toKeepsNames (h.directed hdst hlines hu)
  obtain ⟨t, ht, htext⟩ := (h _ _ rfl rfl).exists_run
  rw [hlines] at ht
  obtain ⟨v, hv, ht⟩ := exists_run ht
  cases hu.symm.trans hv
  obtain ⟨w, hw, ht⟩ := Option.bind_eq_some_iff.mp ht
  have hlast : lastValue (d.map isLong).settings q.sec q.name = (lastValue d.settings q.sec q.name).map isLong :=
    lastValue_map isLong d.settings q.sec q.name
  have hreplaced (old : Bytes) (hold : lastValue d.settings q.sec q.name = some old) :
      u.properties.length < u.capacity ∧
        ∃ new, (IniText.ofValue old).set q.value = some new ∧ w.namedText q.sec q.name = some new := by
    rcases hkeeps.say_cases hsound (hnamed q (.head _)) hsec hname with
      ⟨hnone, -⟩ | ⟨before, e, after, old', hreplaces, hold', hsay⟩
    · cases hnone.symm.trans hold
    · cases hold.symm.trans hold'
      rw [hsay] at hw
      split at hw
      next hroom =>
        obtain ⟨new, hnew, rfl⟩ := Option.map_eq_some_iff.mp hw
        exact ⟨hroom, new, hnew, IniTable.namedText_withText_self hreplaces.sec hreplaces.name hreplaces.first⟩
      next => cases hw
  refine ⟨hsec, IniSaid.names_map isLong d q.sec ▸ hname, fun hold => ?_, fun hold k => ?_⟩
  · change lastValue (d.map isLong).settings q.sec q.name = some true at hold
    rw [hlast] at hold
    obtain ⟨old, hold, hlong⟩ := Option.map_eq_some_iff.mp hold
    obtain ⟨-, new, hset, hnew⟩ := hreplaced old hold
    refine Decidable.byContradiction fun hshort => ?_
    have hfreed : new = .freed := by
      rw [IniText.ofValue, if_pos hlong] at hset
      exact (Option.some.inj hset).symm.trans (if_neg hshort)
    rw [hfreed] at hnew
    have hw' := hsound.say hnamed.head hw
    have hend := IniTable.freed_run hw' hnamed.tail ht hnew
    rw [htext] at hend
    obtain ⟨value, -, hvalue⟩ := Option.map_eq_some_iff.mp hend
    unfold IniText.ofValue at hvalue
    split at hvalue <;> cases hvalue
  · change lastValue (d.map isLong).settings q.sec q.name ≠ none at hold
    rw [hlast, Ne, Option.map_eq_none_iff] at hold
    obtain ⟨old, hold⟩ := Option.ne_none_iff_exists'.mp hold
    rw [IniSaid.count_map, ← hkeeps.count]
    exact hsound.room_iff.mp (hreplaced old hold).1 k

theorem Overrides.mergesCleanly (hdst : dst.WellFormed) (h : Overrides dst files) (ls ls' : List (IniLine Bytes))
    {u : IniTable} {d : IniSaid Bytes} (hlines : takenLines files = ls ++ ls')
    (hu : ls.foldlM IniTable.say dst.table = some u) (hsound : u.Sound) (hkeeps : u.Keeps d) :
    (d.map isLong).MergesCleanly (ls'.map (IniLine.map isLong)) := by
  induction ls' generalizing ls u d with
  | nil => trivial
  | cons l ls' ih =>
    have hnamed : IniTable.Named (l :: ls') := (hlines ▸ named_takenLines files).right
    have hnext {v : IniTable} (hv : u.say l = some v) (hkeeps' : v.Keeps (d.add l)) :
        ((d.map isLong).add (l.map isLong)).MergesCleanly (ls'.map (IniLine.map isLong)) := by
      rw [← IniSaid.map_add]
      refine ih (ls ++ [l]) (by simp [hlines]) ?_ (hsound.say hnamed.head hv) hkeeps'
      rw [List.foldlM_append, hu]
      change (u.say l).bind some = some v
      rw [hv]
      rfl
    cases l with
    | header s => exact hnext rfl (hkeeps.findOrAdd hsound s)
    | property q =>
      have hwhole := h.mergesWhole hdst hlines hu hsound hkeeps
      obtain ⟨v, hv, hkeeps'⟩ := hkeeps.property hsound (hnamed q (.head _)) hwhole
      exact ⟨hwhole, hnext hv hkeeps'⟩

theorem Overrides.noneLost (hdst : dst.WellFormed) (before after : List IniFile)
    (h : Overrides dst (before ++ after)) : NoneLost after := by
  induction after generalizing before with
  | nil => trivial
  | cons f after ih =>
    refine ⟨fun hends htaken key hkey => ?_, ih (before ++ [f]) (by simpa using h)⟩
    obtain ⟨q, hq, rfl⟩ := List.mem_map.mp hkey
    have hsaid : f.endsInIni = true ∧ ∃ q' ∈ f.ini.settings, q'.Is q.sec q.name :=
      ⟨hends, q, hq, SameLetters.refl _, SameLetters.refl _⟩
    -- the last snippet with the names is taken, so it is another one
    obtain ⟨front, g, rest, hsplit, ⟨hgends, hg⟩, hrest⟩ :=
      @exists_last _ (f :: after) (fun f => f.endsInIni = true ∧ ∃ q' ∈ f.ini.settings, q'.Is q.sec q.name)
        ⟨f, .head _, hsaid⟩
    rw [hsplit, ← List.append_assoc] at h
    obtain ⟨hgtaken, -⟩ := h.exists_directed hdst hgends hg fun g' hg' hends' q' hq' his' =>
      hrest g' hg' ⟨hends', q', hq', his'⟩
    obtain ⟨q', hq', his'⟩ := hg
    have hmem : g ∈ f :: after := hsplit ▸ List.mem_append_right _ (.head _)
    rcases List.mem_cons.mp hmem with rfl | hmem
    · cases htaken.symm.trans hgtaken
    · have hkey : q.key = q'.key := IniSetting.is_iff_key.mp his'
      exact ⟨g, hmem, hgtaken, hkey ▸ List.mem_map_of_mem hq'⟩

/-- Snippets override, whatever the values are, exactly where nothing hinders them. -/
theorem overrides_iff (dst : Ini) (files : List IniFile) (hdst : dst.WellFormed) :
    Overrides dst files ↔ Unhindered dst files := by
  refine ⟨fun h => ⟨?_, h.noneLost hdst [] files⟩, overrides_of_unhindered hdst⟩
  exact h.mergesCleanly hdst [] (takenLines files) rfl rfl hdst.sound hdst.keeps

/-- A key that the INI has, and one that a snippet has. -/
theorem overrides_same_key :
    Overrides ⟨[[]], [⟨0, [97], [49]⟩]⟩
      [⟨ascii ['a', '.', 'i', 'n', 'i'], ⟨[[]], [⟨0, [65], [50]⟩]⟩, by simp⟩] := by
  refine (overrides_iff _ _ ⟨by decide, by decide, by decide⟩).mpr ⟨⟨⟨?_, ?_, ?_, ?_⟩, trivial⟩, ?_, trivial⟩
  · decide
  · decide
  · decide
  · intro _ k
    have hcount : (Ini.said ⟨[[]], [⟨0, [97], [49]⟩]⟩).count = 1 := by decide
    have hpow : 0 < 2 ^ k := Nat.two_pow_pos k
    change (Ini.said ⟨[[]], [⟨0, [97], [49]⟩]⟩).count ≠ 256 * 2 ^ k
    omega
  · intro _ htaken
    cases htaken

/-- Key 5 of the snippet is taken for key 57, which it changes. -/
theorem iniDLoad_shorter_key :
    let dst : Ini :=
      ⟨[[], ascii ['r', 'a', 'w', '-', 'k', 'e', 'y', 'm', 'a', 'p']], [⟨1, ascii ['5', '7'], ascii ['1']⟩]⟩
    let snippet : IniFile :=
      { name := ascii ['a', '.', 'i', 'n', 'i']
        ini := ⟨[[], ascii ['r', 'a', 'w', '-', 'k', 'e', 'y', 'm', 'a', 'p']], [⟨1, ascii ['5'], ascii ['2']⟩]⟩
        named := by simp [ascii] }
    dst.WellFormed ∧ ¬ OverridesAt dst [snippet] := by
  intro dst snippet
  refine ⟨⟨by decide, by decide, by decide⟩, ?_⟩
  rintro ⟨t, ht, htext⟩
  have hwrong : iniDLoad (Ini.table ⟨[[], ascii ['r', 'a', 'w', '-', 'k', 'e', 'y', 'm', 'a', 'p']],
      [⟨1, ascii ['5', '7'], ascii ['1']⟩]⟩) (some [snippet]) =
      some (true, ⟨[[], ascii ['r', 'a', 'w', '-', 'k', 'e', 'y', 'm', 'a', 'p']],
        [⟨1, ascii ['5', '7'], .inline (ascii ['2'])⟩], 256⟩) := by decide
  cases ht.symm.trans hwrong
  have hkey := htext (ascii ['r', 'a', 'w', '-', 'k', 'e', 'y', 'm', 'a', 'p']) (ascii ['5'])
  revert hkey
  decide

end

end Waynergy
