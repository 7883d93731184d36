import Waynergy.IniLoaded

/-!
# Snippets override (`config.c`)

After `ini_d_load` a name should have the value that the last snippet with it gives it, and where no snippet has it
the one it had. It does for whatever values exactly if each name that is merged finds itself, no long text is
replaced by a short one and none in a full table, and no snippet is passed over that has something to say.
-/

namespace Waynergy
open Lib

/-! ### What the snippets say -/

def IniLine.setting? {V : Type} : IniLine V → Option (IniSetting V)
  | header _ => none
  | property q => some q

/-- The settings of an INI, section after section. -/
def Ini.settings (ini : Ini) : List (IniSetting Bytes) := ini.lines.filterMap IniLine.setting?

namespace IniFile

/-- Its name ends in `.ini`. -/
def endsInIni (f : IniFile) : Bool := dotIni <:+ f.name

def keys (f : IniFile) : List (Bytes × Bytes) := f.ini.settings.map IniSetting.key

end IniFile

/-- What all the snippets say, in the order of the listing. -/
def snippetSettings (files : List IniFile) : List (IniSetting Bytes) :=
  (files.filter IniFile.endsInIni).flatMap fun f => f.ini.settings

/-- Merging comes to an end, and a name has the value the snippets gave it last, or else the one it had. -/
def OverridesAt (dst : Ini) (files : List IniFile) : Prop :=
  ∃ t, iniDLoad dst.table (some files) = some (true, t) ∧
    ∀ s p, t.namedText s p = ((lastValue (snippetSettings files) s p).or (dst.namedValue s p)).map .ofValue

/-- The names in an INI, and which values are long. -/
def Ini.shape (ini : Ini) : List Bytes × List ((Nat × Bytes) × Bool) :=
  (ini.sections, ini.properties.map fun q => (q.key, isLong q.value))

def IniFile.shape (f : IniFile) : Bytes × List Bytes × List ((Nat × Bytes) × Bool) := (f.name, f.ini.shape)

/-- It does so whatever the values are, if the same ones are long. -/
def Overrides (dst : Ini) (files : List IniFile) : Prop :=
  ∀ dst' files', dst'.shape = dst.shape → files'.map IniFile.shape = files.map IniFile.shape →
    OverridesAt dst' files'

/-! ### When they override -/

/-- What a snippet says that is passed over, as its name has an `.ini` further in front, is said again in a later one
that is taken. -/
def NoneLost : List IniFile → Prop
  | [] => True
  | f :: after => (f.endsInIni → f.taken = false → ∀ key ∈ f.keys, ∃ f' ∈ after, f'.taken ∧ key ∈ f'.keys) ∧
      NoneLost after

def Unhindered (dst : Ini) (files : List IniFile) : Prop :=
  (dst.said.map isLong).MergesCleanly ((takenLines files).map (IniLine.map isLong)) ∧ NoneLost files

theorem IniFile.endsInIni_of_taken {f : IniFile} (h : f.taken = true) : f.endsInIni = true := by
  unfold taken at h
  split at h
  next => cases h
  next suffix hsuffix =>
    obtain ⟨hmem, hstarts⟩ := of_find?_eq_some hsuffix
    have hlen : suffix.length ≤ 4 := List.drop_eq_nil_iff.mp (of_decide_eq_true h)
    have heq : dotIni = suffix := hstarts.eq_of_length_le hlen
    exact decide_eq_true (heq ▸ (List.mem_tails _ _).mp hmem)

theorem IniFile.named_lines (f : IniFile) : IniTable.Named f.ini.lines := by
  intro q hq
  obtain ⟨sec, -, hq⟩ := List.mem_flatMap.mp hq
  rcases List.mem_cons.mp hq with hq | hq
  · cases hq
  · obtain ⟨q', hq', heq⟩ := List.mem_map.mp hq
    cases heq
    exact f.named q' (List.mem_filter.mp hq').1

theorem named_takenLines (files : List IniFile) : IniTable.Named (takenLines files) := by
  intro q hq
  obtain ⟨f, -, hq⟩ := List.mem_flatMap.mp hq
  exact f.named_lines q hq

theorem settings_foldl (ls : List (IniLine Bytes)) (d : IniSaid Bytes) :
    (ls.foldl IniSaid.add d).settings = d.settings ++ ls.filterMap IniLine.setting? := by
  induction ls generalizing d with
  | nil => exact (List.append_nil _).symm
  | cons l ls ih =>
    rw [List.foldl_cons, ih]
    cases l with
    | header s => rfl
    | property q => exact List.append_assoc _ [q] _

theorem takenLines_settings (files : List IniFile) : (takenLines files).filterMap IniLine.setting? =
    (files.filter IniFile.taken).flatMap fun f => f.ini.settings := by
  unfold takenLines
  rw [List.filterMap_flatMap]
  rfl

/-- If nothing is lost, the snippets that are taken say last what all of them do. -/
theorem lastValue_taken {files : List IniFile} (h : NoneLost files) (s p : Bytes) :
    lastValue ((files.filter IniFile.taken).flatMap fun f => f.ini.settings) s p =
      lastValue (snippetSettings files) s p := by
  unfold snippetSettings
  induction files with
  | nil => rfl
  | cons f files ih =>
    obtain ⟨hf, hfiles⟩ := h
    have ih := ih hfiles
    cases htaken : f.taken with
    | true =>
      rw [List.filter_cons_of_pos htaken, List.filter_cons_of_pos (IniFile.endsInIni_of_taken htaken),
        List.flatMap_cons, List.flatMap_cons, lastValue_append, lastValue_append, ih]
    | false =>
      rw [List.filter_cons_of_neg (by simp [htaken])]
      cases hends : f.endsInIni with
      | false => rw [List.filter_cons_of_neg (by simp [hends]), ih]
      | true =>
        rw [List.filter_cons_of_pos hends, List.flatMap_cons, lastValue_append, ← ih]
        cases hlast : lastValue f.ini.settings s p with
        | none => rw [Option.or_none]
        | some value =>
          have hsaid : ∃ q ∈ f.ini.settings, q.Is s p := by
            refine Decidable.byContradiction fun hnot => ?_
            rw [lastValue_eq_none.mpr fun q hq his => hnot ⟨q, hq, his⟩] at hlast
            cases hlast
          obtain ⟨q, hq, his⟩ := hsaid
          obtain ⟨f', hf', htaken', hkey⟩ := hf hends htaken q.key (List.mem_map_of_mem hq)
          obtain ⟨q', hq', hkey'⟩ := List.mem_map.mp hkey
          have his' : q'.Is s p := IniSetting.is_iff_key.mpr ((IniSetting.is_iff_key.mp his).trans hkey'.symm)
          cases hlast' : lastValue ((files.filter IniFile.taken).flatMap fun f => f.ini.settings) s p with
          | some value' => rfl
          | none =>
            refine absurd his' (lastValue_eq_none.mp hlast' q' ?_)
            exact List.mem_flatMap.mpr ⟨f', List.mem_filter.mpr ⟨hf', htaken'⟩, hq'⟩

theorem overridesAt_of_unhindered {dst : Ini} {files : List IniFile} (hdst : dst.WellFormed)
    (h : Unhindered dst files) : OverridesAt dst files := by
  obtain ⟨t, ht, hkeeps⟩ := hdst.keeps.run hdst.sound (named_takenLines files) h.1
  refine ⟨t, ?_, fun s p => ?_⟩
  · rw [iniDLoad_eq, ht]
    rfl
  · rw [hkeeps.texts, settings_foldl, lastValue_append, takenLines_settings, lastValue_taken h.2, hdst.lastValue]

/-- The configuration that is loaded at the start. -/
theorem Conf.configInitINI_overrides {c : Conf} {ini : Ini} {listing : List (Bytes × Bytes)}
    (hini : ini = .load (c.configReadFile (ascii ['c', 'o', 'n', 'f', 'i', 'g', '.', 'i', 'n', 'i'])))
    (hdir : c.dir (ascii ['c', 'o', 'n', 'f', 'i', 'g', '.', 'i', 'n', 'i', '.', 'd']) = some listing)
    (hsections : (ini.sections.map (List.map toLower)).Nodup)
    (hnames : (ini.properties.map fun q => (q.sec, q.name.map toLower)).Nodup)
    (h : Unhindered ini (listing.map fun f => IniFile.load f.1 (some f.2))) :
    ∃ t, c.configInitINI = some t ∧ ∀ s p, t.namedText s p =
      ((lastValue (snippetSettings (listing.map fun f => IniFile.load f.1 (some f.2))) s p).or
        (ini.namedValue s p)).map .ofValue := by
  have hparsed : ini.Parsed := hini ▸ Ini.parsed_load _
  obtain ⟨t, ht, htext⟩ := overridesAt_of_unhindered (hparsed.wellFormed hsections hnames) h
  refine ⟨t, ?_, htext⟩
  unfold configInitINI
  rw [hdir, ← hini, Option.map_some, ht]
  rfl

/-! ### Other values -/

section
variable {ini ini' : Ini}

theorem Ini.sections_of_shape (h : ini'.shape = ini.shape) : ini'.sections = ini.sections := congrArg Prod.fst h

theorem Ini.properties_of_shape (h : ini'.shape = ini.shape) :
    ini'.properties.map (fun q => (q.key, isLong q.value)) = ini.properties.map fun q => (q.key, isLong q.value) :=
  congrArg Prod.snd h

theorem Ini.said_of_shape (h : ini'.shape = ini.shape) : ini'.said.map isLong = ini.said.map isLong := by
  have hsaid (ini : Ini) : ini.said.map isLong = ⟨ini.sections, (ini.properties.map fun q =>
      (q.key, isLong q.value)).map fun k => ⟨ini.sections.getD k.1.1 [], k.1.2, k.2⟩⟩ := by
    unfold said IniSaid.map
    rw [List.map_map, List.map_map]
    rfl
  rw [hsaid, hsaid, sections_of_shape h, properties_of_shape h]

theorem Ini.lines_of_shape (h : ini'.shape = ini.shape) :
    ini'.lines.map (IniLine.map isLong) = ini.lines.map (IniLine.map isLong) := by
  have hlines (ini : Ini) : ini.lines.map (IniLine.map isLong) = ini.sections.zipIdx.flatMap fun sec =>
      .header sec.1 :: ((ini.properties.map fun q => (q.key, isLong q.value)).filter fun k => k.1.1 = sec.2).map
        fun k => .property ⟨sec.1, k.1.2, k.2⟩ := by
    unfold lines ofSection
    rw [List.map_flatMap]
    congr 1
    funext sec
    rw [List.map_cons, List.map_map, List.filter_map, List.map_map]
    rfl
  rw [hlines, hlines, sections_of_shape h, properties_of_shape h]

theorem Ini.WellFormed.of_shape (h : ini.WellFormed) (hshape : ini'.shape = ini.shape) : ini'.WellFormed := by
  have hkeys : ini'.properties.map IniProperty.key = ini.properties.map IniProperty.key := by
    have hfst := congrArg (List.map Prod.fst) (Ini.properties_of_shape hshape)
    rwa [List.map_map, List.map_map] at hfst
  have hnames : (ini'.properties.map fun q => (q.sec, q.name.map toLower)) =
      ini.properties.map fun q => (q.sec, q.name.map toLower) := by
    have hmap := congrArg (List.map fun k : Nat × Bytes => (k.1, k.2.map toLower)) hkeys
    rwa [List.map_map, List.map_map] at hmap
  refine ⟨Ini.sections_of_shape hshape ▸ h.sections, hnames ▸ h.names, fun q hq => ?_⟩
  obtain ⟨q', hq', hkey⟩ := List.mem_map.mp (hkeys ▸ List.mem_map_of_mem (f := IniProperty.key) hq)
  have hsec : q'.sec = q.sec := congrArg Prod.fst hkey
  rw [Ini.sections_of_shape hshape, ← hsec]
  exact h.inSections q' hq'

theorem IniFile.keys_eq (f : IniFile) : f.keys =
    ((f.ini.lines.map (IniLine.map isLong)).filterMap IniLine.setting?).map IniSetting.key := by
  unfold keys Ini.settings
  rw [List.filterMap_map, List.map_filterMap, List.map_filterMap]
  congr 1
  funext l
  cases l <;> rfl

end

section
variable {files files' : List IniFile}

theorem IniFile.of_shape {f f' : IniFile} (h : f'.shape = f.shape) : f'.name = f.name ∧ f'.ini.shape = f.ini.shape :=
  Prod.mk.inj h

theorem takenLines_of_shape (h : files'.map IniFile.shape = files.map IniFile.shape) :
    (takenLines files').map (IniLine.map isLong) = (takenLines files).map (IniLine.map isLong) := by
  induction files generalizing files' with
  | nil =>
    cases List.map_eq_nil_iff.mp h
    rfl
  | cons f files ih =>
    obtain ⟨f', rest, rfl, hf, hrest⟩ := List.map_eq_cons_iff.mp h
    obtain ⟨hname, hini⟩ := IniFile.of_shape hf
    have hcons (f : IniFile) (files : List IniFile) :
        takenLines (f :: files) = (if f.taken then f.ini.lines else []) ++ takenLines files := by
      unfold takenLines
      rw [List.filter_cons]
      split <;> rfl
    have htaken : f'.taken = f.taken := by
      unfold IniFile.taken
      rw [hname]
    rw [hcons, hcons, List.map_append, List.map_append, ih hrest, htaken]
    split
    · rw [Ini.lines_of_shape hini]
    · rfl

theorem NoneLost.of_shape (h : files'.map IniFile.shape = files.map IniFile.shape) (hlost : NoneLost files) :
    NoneLost files' := by
  induction files generalizing files' with
  | nil =>
    cases List.map_eq_nil_iff.mp h
    trivial
  | cons f files ih =>
    obtain ⟨f', rest, rfl, hf, hrest⟩ := List.map_eq_cons_iff.mp h
    obtain ⟨hone, hothers⟩ := hlost
    refine ⟨fun hends htaken key hkey => ?_, ih hrest hothers⟩
    have hsame {f f' : IniFile} (h : f'.shape = f.shape) :
        f'.endsInIni = f.endsInIni ∧ f'.taken = f.taken ∧ f'.keys = f.keys := by
      obtain ⟨hname, hini⟩ := IniFile.of_shape h
      refine ⟨?_, ?_, ?_⟩
      · unfold IniFile.endsInIni
        rw [hname]
      · unfold IniFile.taken
        rw [hname]
      · rw [IniFile.keys_eq, IniFile.keys_eq, Ini.lines_of_shape hini]
    obtain ⟨hends', htaken', hkeys'⟩ := hsame hf
    obtain ⟨g, hg, hgtaken, hgkey⟩ := hone (hends' ▸ hends) (htaken' ▸ htaken) key (hkeys' ▸ hkey)
    have hmem : g.shape ∈ rest.map IniFile.shape := hrest ▸ List.mem_map_of_mem hg
    obtain ⟨g', hg', hgshape⟩ := List.mem_map.mp hmem
    obtain ⟨-, hgtaken', hgkeys'⟩ := hsame hgshape
    exact ⟨g', hg', hgtaken'.trans hgtaken, hgkeys' ▸ hgkey⟩

theorem overrides_of_unhindered {dst : Ini} (hdst : dst.WellFormed) (h : Unhindered dst files) :
    Overrides dst files := by
  intro dst' files' hshape hfiles
  refine overridesAt_of_unhindered (hdst.of_shape hshape) ⟨?_, h.2.of_shape hfiles⟩
  rw [Ini.said_of_shape hshape, takenLines_of_shape hfiles]
  exact h.1

end

end Waynergy
