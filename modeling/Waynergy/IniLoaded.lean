import Waynergy.IniDirects
import Mathlib.Data.List.Find

/-!
# The table of an INI

What an INI says is what its table keeps, if no two names in it are the same.
-/

namespace Waynergy
open Lib

namespace Ini
variable {ini : Ini} {s p : Bytes}

/-- The properties are in sections that there are, and no two sections, and no two properties of one, have one
name. -/
structure WellFormed (ini : Ini) : Prop where
  sections : (ini.sections.map (List.map toLower)).Nodup
  names : (ini.properties.map fun q => (q.sec, q.name.map toLower)).Nodup
  inSections : ∀ q ∈ ini.properties, q.sec < ini.sections.length

theorem Parsed.wellFormed (h : ini.Parsed) (hsections : (ini.sections.map (List.map toLower)).Nodup)
    (hnames : (ini.properties.map fun q => (q.sec, q.name.map toLower)).Nodup) : ini.WellFormed :=
  ⟨hsections, hnames, h.inSections⟩

/-- A property with the name of its section. -/
def setting (ini : Ini) (q : IniProperty) : IniSetting Bytes := ⟨ini.sections.getD q.sec [], q.name, q.value⟩

def said (ini : Ini) : IniSaid Bytes := ⟨ini.sections, ini.properties.map ini.setting⟩

theorem WellFormed.sec_iff (h : ini.WellFormed) {q : IniProperty} (hq : q ∈ ini.properties) :
    SameLetters s (ini.setting q).sec ↔ ini.namedSection s = some q.sec := by
  have hlt := h.inSections q hq
  have hget : (ini.setting q).sec = ini.sections[q.sec] := by simp [setting, hlt]
  rw [hget]
  constructor
  · intro hsame
    refine List.findIdx?_eq_some_iff_getElem.mpr ⟨hlt, decide_eq_true hsame, fun j hj hother => ?_⟩
    have hmap : (ini.sections[j]).map toLower = (ini.sections[q.sec]).map toLower :=
      (of_decide_eq_true hother).symm.trans hsame
    have hlen : (ini.sections.map (List.map toLower)).length = ini.sections.length := List.length_map _
    refine List.pairwise_iff_getElem.mp h.sections j q.sec (by omega) (by omega) hj ?_
    rw [List.getElem_map, List.getElem_map]
    exact hmap
  · intro hs
    obtain ⟨_, hsame, -⟩ := List.findIdx?_eq_some_iff_getElem.mp hs
    exact of_decide_eq_true hsame

theorem WellFormed.is_iff (h : ini.WellFormed) {q : IniProperty} (hq : q ∈ ini.properties) :
    (ini.setting q).Is s p ↔ ini.namedSection s = some q.sec ∧ SameLetters p q.name :=
  and_congr_left fun _ => h.sec_iff hq

theorem WellFormed.keys (h : ini.WellFormed) : (ini.said.settings.map IniSetting.key).Nodup := by
  unfold said
  rw [List.map_map, List.Nodup, List.pairwise_map]
  refine List.Pairwise.imp_of_mem (fun {a b} ha hb hne hkey => hne ?_) (List.pairwise_map.mp h.names)
  have his : (ini.setting b).Is (ini.setting a).sec a.name := IniSetting.is_iff_key.mpr hkey
  have hself := (h.sec_iff ha).mp (SameLetters.refl _)
  obtain ⟨hsec, hname⟩ := (h.is_iff hb).mp his
  have hmap : a.name.map toLower = b.name.map toLower := hname
  rw [Option.some.inj (hself.symm.trans hsec), hmap]

end Ini

/-- If no names come twice, what is said last of some is all that is said. -/
theorem lastValue_eq_of_nodup {qs : List (IniSetting Bytes)} (h : (qs.map IniSetting.key).Nodup) (s p : Bytes) :
    lastValue qs s p = (qs.find? fun q => q.Is s p).map IniSetting.value := by
  unfold lastValue
  congr 1
  cases hfind : qs.find? fun q => q.Is s p with
  | none =>
    rw [List.find?_eq_none] at hfind ⊢
    exact fun q hq => hfind q (List.mem_reverse.mp hq)
  | some q =>
    obtain ⟨hmem, his⟩ := of_find?_eq_some hfind
    cases hlast : qs.reverse.find? fun q => q.Is s p with
    | none =>
      rw [List.find?_eq_none] at hlast
      exact absurd (decide_eq_true his) (hlast q (List.mem_reverse.mpr hmem))
    | some q' =>
      obtain ⟨hmem', his'⟩ := of_find?_eq_some hlast
      have hkey : q'.key = q.key := (IniSetting.is_iff_key.mp his').symm.trans (IniSetting.is_iff_key.mp his)
      rw [List.inj_on_of_nodup_map h (List.mem_reverse.mp hmem') hmem hkey]

namespace Ini
variable {ini : Ini} {s p : Bytes}

theorem WellFormed.lastValue (h : ini.WellFormed) (s p : Bytes) :
    lastValue ini.said.settings s p = ini.namedValue s p := by
  rw [lastValue_eq_of_nodup h.keys, namedValue_eq]
  unfold said meant
  rw [List.find?_map, Option.map_map]
  have hcongr : ini.properties.find? ((fun q => decide (q.Is s p)) ∘ ini.setting) =
      (ini.namedSection s).bind fun sec => (ini.ofSection sec).find? fun q => SameLetters p q.name := by
    cases hs : ini.namedSection s with
    | none =>
      rw [Option.bind_none, List.find?_eq_none]
      intro q hq his
      cases hs.symm.trans ((h.is_iff hq).mp (of_decide_eq_true his)).1
    | some sec =>
      rw [Option.bind_some, ofSection, List.find?_filter]
      refine List.find?_congr fun q hq => decide_eq_decide.mpr ?_
      rw [h.is_iff hq, hs, Option.some_inj, decide_eq_true_eq, decide_eq_true_eq, eq_comm]
  rw [hcongr]
  rfl

/-! ### Its table -/

theorem table_aux (qs : List IniProperty) (t : IniTable) :
    let t' := qs.foldl (fun t q => t.propertyAdd q.sec q.name q.value) t
    t'.sections = t.sections ∧
      t'.properties = t.properties ++ qs.map (fun q => ⟨q.sec, q.name, .ofValue q.value⟩) ∧
      (t.Sound → (∀ q ∈ qs, q.sec < t.sections.length) → t'.Sound) := by
  induction qs generalizing t with
  | nil => exact ⟨rfl, (List.append_nil _).symm, fun h _ => h⟩
  | cons q qs ih =>
    obtain ⟨hsections, hproperties, hsound⟩ := ih (t.propertyAdd q.sec q.name q.value)
    refine ⟨hsections, ?_, fun h hsec => ?_⟩
    · rw [List.foldl_cons, hproperties]
      exact List.append_assoc _ [_] _
    · exact hsound (h.propertyAdd (hsec q (.head _))) fun q' hq' => hsec q' (.tail _ hq')

theorem sections_table (ini : Ini) : ini.table.sections = ini.sections := (table_aux _ _).1

theorem properties_table (ini : Ini) :
    ini.table.properties = ini.properties.map fun q => ⟨q.sec, q.name, .ofValue q.value⟩ := by
  have h := (table_aux ini.properties ⟨ini.sections, [], 256⟩).2.1
  rwa [List.nil_append] at h

theorem WellFormed.sound (h : ini.WellFormed) : ini.table.Sound := by
  refine (table_aux ini.properties ⟨ini.sections, [], 256⟩).2.2 ⟨?_, ?_, ?_⟩ h.inSections
  · exact fun e he => absurd he List.not_mem_nil
  · exact Nat.zero_le _
  · exact ⟨0, rfl, fun j hj => absurd hj (Nat.not_lt_zero j)⟩

theorem keys_table (ini : Ini) : ini.table.keys = ini.properties.map IniProperty.key := by
  unfold IniTable.keys
  rw [properties_table, List.map_map]
  rfl

theorem namedSection_table (s : Bytes) : ini.table.namedSection s = ini.namedSection s := by
  unfold IniTable.namedSection
  rw [sections_table]
  rfl

theorem namedText_table (s p : Bytes) : ini.table.namedText s p = (ini.namedValue s p).map .ofValue := by
  rw [namedValue_eq]
  unfold IniTable.namedText meant
  rw [namedSection_table, properties_table]
  cases ini.namedSection s with
  | none => rfl
  | some sec =>
    rw [Option.bind_some, Option.bind_some, ofSection, List.find?_filter, List.find?_map, Option.map_map,
      Option.map_map]
    have hcongr : ini.properties.find? ((fun e : IniEntry => decide (e.sec = sec ∧ SameLetters p e.name)) ∘
        fun q => ⟨q.sec, q.name, .ofValue q.value⟩) =
        ini.properties.find? fun q =>
          decide (decide (q.sec = sec) = true ∧ decide (SameLetters p q.name) = true) := by
      refine List.find?_congr fun q _ => decide_eq_decide.mpr ?_
      rw [decide_eq_true_eq, decide_eq_true_eq]
    rw [hcongr]
    rfl

theorem WellFormed.namesIn (h : ini.WellFormed) (s : Bytes) : ini.table.namesIn s = ini.said.names s := by
  unfold IniTable.namesIn IniSaid.names said
  rw [namedSection_table, List.filter_map, List.map_map]
  cases hs : ini.namedSection s with
  | none =>
    refine (List.map_eq_nil_iff.mpr (List.filter_eq_nil_iff.mpr fun q hq hsame => ?_)).symm
    cases hs.symm.trans ((h.sec_iff hq).mp (of_decide_eq_true hsame))
  | some sec =>
    dsimp only
    unfold IniTable.names
    rw [keys_table, List.filter_map, List.map_map]
    refine congrArg (List.map IniProperty.name) (List.filter_congr fun q hq => decide_eq_decide.mpr ?_)
    rw [h.sec_iff hq, hs, Option.some_inj, eq_comm]
    rfl

theorem WellFormed.keeps (h : ini.WellFormed) : ini.table.Keeps ini.said := by
  refine ⟨⟨fun x => ?_, fun s x => ?_⟩, fun s p => ?_, ?_⟩
  · rw [sections_table]
    rfl
  · rw [h.namesIn]
  · rw [namedText_table, h.lastValue]
  · rw [properties_table, List.length_map, IniSaid.count, List.toFinset_card_of_nodup h.keys]
    simp [said]

end Ini
end Waynergy
