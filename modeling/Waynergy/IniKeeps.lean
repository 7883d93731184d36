import Waynergy.IniSaid

/-!
# A table keeps what was said

Each line is merged by finding a section or adding it, and finding a property in it or adding it. If both are found
whole, and the text can be replaced, the table keeps what was said.
-/

namespace Waynergy
open Lib

namespace IniTable
variable {t t' : IniTable} {s s' p p' name value : Bytes} {sec : Nat}

/-! ### Tables that were made by adding -/

/-- The properties are in sections that there are, and the capacity was doubled only when it was too small. -/
structure Sound (t : IniTable) : Prop where
  inSections : ∀ e ∈ t.properties, e.sec < t.sections.length
  fits : t.properties.length ≤ t.capacity
  capacity : ∃ k, t.capacity = 256 * 2 ^ k ∧ ∀ j, j < k → 256 * 2 ^ j < t.properties.length

theorem Sound.room_iff (h : t.Sound) :
    t.properties.length < t.capacity ↔ ∀ k, t.properties.length ≠ 256 * 2 ^ k := by
  obtain ⟨k, hk, hbelow⟩ := h.capacity
  constructor
  · intro hlt j hj
    have hpow : 2 ^ j < 2 ^ k := by omega
    have hjk : j < k := (Nat.pow_lt_pow_iff_right (by decide)).mp hpow
    have hless := hbelow j hjk
    omega
  · intro hne
    have hneq := hne k
    have hle := h.fits
    omega

theorem Sound.propertyAdd (h : t.Sound) (hsec : sec < t.sections.length) : (t.propertyAdd sec name value).Sound := by
  obtain ⟨k, hk, hbelow⟩ := h.capacity
  have hfits := h.fits
  unfold IniTable.propertyAdd
  refine ⟨fun e he => ?_, ?_, ?_⟩
  · rcases List.mem_append.mp he with he | he
    · exact h.inSections e he
    · rw [List.mem_singleton.mp he]
      exact hsec
  · have hpos : 0 < 2 ^ k := Nat.two_pow_pos k
    simp only [List.length_append, List.length_singleton]
    split <;> omega
  · simp only [List.length_append, List.length_singleton]
    split
    · refine ⟨k + 1, by rw [hk, Nat.pow_succ]; omega, fun j hj => ?_⟩
      have hle : 2 ^ j ≤ 2 ^ k := Nat.pow_le_pow_right (by decide) (Nat.le_of_lt_succ hj)
      omega
    · refine ⟨k, hk, fun j hj => ?_⟩
      have hless := hbelow j hj
      omega

theorem Sound.withText {before after : List IniEntry} {e : IniEntry} {text : IniText}
    (heq : t.properties = before ++ e :: after) (h : t.Sound) : (t.withText before e after text).Sound := by
  have hlen : (before ++ { e with text := text } :: after).length = t.properties.length := by
    rw [heq, List.length_append, List.length_append, List.length_cons, List.length_cons]
  refine ⟨fun x hx => ?_, ?_, ?_⟩
  · rcases List.mem_append.mp hx with hx | hx
    · exact h.inSections x (heq ▸ List.mem_append_left _ hx)
    · rcases List.mem_cons.mp hx with rfl | hx
      · exact h.inSections e (heq ▸ List.mem_append_right _ (.head _))
      · exact h.inSections x (heq ▸ List.mem_append_right _ (.tail _ hx))
  · unfold IniTable.withText
    rw [hlen]
    exact h.fits
  · unfold IniTable.withText
    rw [hlen]
    exact h.capacity

/-! ### Finding a section, or adding it -/

theorem findOrAdd_cases (t : IniTable) (s : Bytes) :
    ((∃ y, t.sections.find? (fun other => StartsAs s other) = some y) ∧ (t.findOrAdd s).1 = t) ∨
      (t.sections.find? (fun other => StartsAs s other) = none ∧
        t.findOrAdd s = ({ t with sections := t.sections ++ [s] }, t.sections.length)) := by
  unfold findOrAdd
  cases h : t.findSection s with
  | some i =>
    obtain ⟨hi, hstarts, -⟩ := List.findIdx?_eq_some_iff_getElem.mp h
    refine .inl ⟨Option.isSome_iff_exists.mp ?_, rfl⟩
    exact List.find?_isSome.mpr ⟨_, List.getElem_mem hi, hstarts⟩
  | none =>
    refine .inr ⟨?_, rfl⟩
    unfold findSection at h
    rw [List.findIdx?_eq_none_iff] at h
    rw [List.find?_eq_none]
    exact fun other hother hstarts => Bool.eq_false_iff.mp (h other hother) hstarts

theorem properties_findOrAdd (t : IniTable) (s : Bytes) : (t.findOrAdd s).1.properties = t.properties := by
  rcases t.findOrAdd_cases s with ⟨-, heq⟩ | ⟨-, heq⟩ <;> rw [heq]

theorem capacity_findOrAdd (t : IniTable) (s : Bytes) : (t.findOrAdd s).1.capacity = t.capacity := by
  rcases t.findOrAdd_cases s with ⟨-, heq⟩ | ⟨-, heq⟩ <;> rw [heq]

theorem sections_prefix_findOrAdd (t : IniTable) (s : Bytes) : t.sections <+: (t.findOrAdd s).1.sections := by
  rcases t.findOrAdd_cases s with ⟨-, heq⟩ | ⟨-, heq⟩ <;> rw [heq]
  exact List.prefix_append _ _

theorem Sound.findOrAdd (h : t.Sound) (s : Bytes) : (t.findOrAdd s).1.Sound := by
  have hlen := (t.sections_prefix_findOrAdd s).length_le
  refine ⟨?_, ?_, ?_⟩
  · rw [properties_findOrAdd]
    exact fun e he => Nat.lt_of_lt_of_le (h.inSections e he) hlen
  · rw [properties_findOrAdd, capacity_findOrAdd]
    exact h.fits
  · rw [properties_findOrAdd, capacity_findOrAdd]
    exact h.capacity

/-- A new section is that of a name only if none was. -/
theorem namedSection_findOrAdd (t : IniTable) (s s' : Bytes) :
    (t.findOrAdd s).1.namedSection s' = t.namedSection s' ∨
      (t.namedSection s' = none ∧ (t.findOrAdd s).1.namedSection s' = some t.sections.length) := by
  rcases t.findOrAdd_cases s with ⟨-, heq⟩ | ⟨-, heq⟩
  · rw [heq]
    exact .inl rfl
  · cases h : t.namedSection s' with
    | some i => exact .inl (findIdx?_stays (t.sections_prefix_findOrAdd s) h)
    | none =>
      unfold namedSection at h ⊢
      rw [heq, List.findIdx?_append, h, Option.none_or, List.findIdx?_singleton]
      by_cases hs : SameLetters s' s <;> simp [hs]

/-- The names of the properties in the section that has the whole name. -/
def namesIn (t : IniTable) (s : Bytes) : List Bytes :=
  match t.namedSection s with
  | none => []
  | some sec => t.names sec

theorem namesIn_eq {i : Nat} (h : t.namedSection s = some i) : t.namesIn s = t.names i := by
  unfold namesIn
  rw [h]

theorem names_length (h : t.Sound) : t.names t.sections.length = [] := by
  unfold names keys
  rw [List.map_eq_nil_iff, List.filter_eq_nil_iff]
  intro key hkey hsec
  obtain ⟨e, he, rfl⟩ := List.mem_map.mp hkey
  exact Nat.ne_of_lt (h.inSections e he) (of_decide_eq_true hsec)

theorem namesIn_findOrAdd (h : t.Sound) : (t.findOrAdd s).1.namesIn s' = t.namesIn s' := by
  have hnames (i : Nat) : (t.findOrAdd s).1.names i = t.names i := by
    unfold names keys
    rw [properties_findOrAdd]
  unfold namesIn
  rcases t.namedSection_findOrAdd s s' with hsame | ⟨hnone, hnew⟩
  · rw [hsame]
    simp only [hnames]
  · rw [hnone, hnew]
    exact (hnames _).trans (names_length h)

theorem namedText_findOrAdd (h : t.Sound) : (t.findOrAdd s).1.namedText s' p' = t.namedText s' p' := by
  unfold namedText
  rw [properties_findOrAdd]
  rcases t.namedSection_findOrAdd s s' with hsame | ⟨hnone, hnew⟩
  · rw [hsame]
  · rw [hnone, hnew, Option.bind_some, Option.bind_none, Option.map_eq_none_iff, List.find?_eq_none]
    intro e he hsec
    have hlt := h.inSections e he
    have heq := (of_decide_eq_true hsec).1
    omega

/-! ### Finding a property, or adding it -/

theorem iniCatProperty_cases (hname : name ≠ []) (value : Bytes) :
    (t.findProperty sec name = none ∧ iniCatProperty sec t name value = some (t.propertyAdd sec name value)) ∨
      ∃ before e after, t.FirstAt sec name before e after ∧ iniCatProperty sec t name value =
        if t.properties.length < t.capacity then (e.text.set value).map (t.withText before e after) else none := by
  unfold iniCatProperty
  cases h : t.findProperty sec name with
  | none => exact .inl ⟨rfl, rfl⟩
  | some k =>
    obtain ⟨before, e, after, hfirst, hk⟩ := exists_firstAt hname h
    exact .inr ⟨before, e, after, hfirst, propertyValueSet_eq hfirst hk⟩

/-- A property is added, or put in the place of the one that is found for it. -/
theorem iniCatProperty_some (hname : name ≠ []) (ht' : iniCatProperty sec t name value = some t') :
    (t.findProperty sec name = none ∧ t' = t.propertyAdd sec name value) ∨
      ∃ before e after text, t.FirstAt sec name before e after ∧ e.text.set value = some text ∧
        t' = t.withText before e after text := by
  rcases @iniCatProperty_cases t name sec hname value with ⟨hnone, heq⟩ | ⟨before, e, after, hfirst, heq⟩
  · rw [heq] at ht'
    cases ht'
    exact .inl ⟨hnone, rfl⟩
  · rw [heq] at ht'
    split at ht'
    · obtain ⟨text, hset, rfl⟩ := Option.map_eq_some_iff.mp ht'
      exact .inr ⟨before, e, after, text, hfirst, hset, rfl⟩
    · cases ht'

theorem Sound.catProperty (h : t.Sound) (hname : name ≠ []) (hsec : sec < t.sections.length)
    (ht' : iniCatProperty sec t name value = some t') : t'.Sound := by
  rcases iniCatProperty_some hname ht' with ⟨-, rfl⟩ | ⟨before, e, after, text, hfirst, -, rfl⟩
  · exact h.propertyAdd hsec
  · exact h.withText hfirst.eq

theorem findOrAdd_lt (t : IniTable) (s : Bytes) : (t.findOrAdd s).2 < (t.findOrAdd s).1.sections.length :=
  (List.findIdx?_eq_some_iff_getElem.mp (t.findSection_findOrAdd s)).1

theorem Sound.say {l : IniLine Bytes} (h : t.Sound) (hl : ∀ q, l = .property q → q.name ≠ [])
    (ht' : t.say l = some t') : t'.Sound := by
  cases l with
  | header s =>
    cases ht'
    exact h.findOrAdd s
  | property q => exact (h.findOrAdd q.sec).catProperty (hl q rfl) (t.findOrAdd_lt q.sec) ht'

/-! ### Keeping the names -/

/-- What a name finds in the table is what it finds among what was said. -/
structure KeepsNames {V : Type} (t : IniTable) (d : IniSaid V) : Prop where
  sections : ∀ x, t.sections.find? (fun other => StartsAs x other) =
    d.sections.find? (fun other => StartsAs x other)
  names : ∀ s x, (t.namesIn s).find? (fun other => StartsAs x other) =
    (d.names s).find? (fun other => StartsAs x other)

section
variable {V : Type} {d : IniSaid V} {q : IniSetting V}

theorem KeepsNames.findOrAdd (h : t.KeepsNames d) (hsound : t.Sound) (s : Bytes) :
    (t.findOrAdd s).1.KeepsNames (d.add (.header s)) := by
  refine ⟨fun x => ?_, fun s' x => ?_⟩
  · change _ = (d.sections ++ [s]).find? _
    rcases t.findOrAdd_cases s with ⟨⟨y, hy⟩, heq⟩ | ⟨-, heq⟩
    · rw [h.sections] at hy
      obtain ⟨hmem, hstarts⟩ := of_find?_eq_some hy
      rw [heq, h.sections]
      exact (find?_append_of_le hmem hstarts x).symm
    · rw [heq, List.find?_append, List.find?_append, h.sections]
  · rw [namesIn_findOrAdd hsound]
    exact h.names s' x

theorem foundWhole_findOrAdd (h : FoundWhole t.sections s) : FoundWhole (t.findOrAdd s).1.sections s := by
  intro y hy
  rcases t.findOrAdd_cases s with ⟨-, heq⟩ | ⟨hnone, heq⟩
  · rw [heq] at hy
    exact h y hy
  · rw [heq, List.find?_append, hnone, Option.none_or] at hy
    rw [List.mem_singleton.mp (List.mem_of_find?_eq_some hy)]
    exact SameLetters.refl s

theorem namedSection_of_foundWhole {i : Nat} (h : FoundWhole t.sections s) (hi : t.findSection s = some i) :
    t.namedSection s = some i := by
  obtain ⟨hlt, hstarts, hbefore⟩ := List.findIdx?_eq_some_iff_getElem.mp hi
  have hfind : t.sections.find? (fun other => StartsAs s other) = some t.sections[i] := by
    rw [List.find?_eq_some_iff_getElem]
    exact ⟨hstarts, i, hlt, rfl, fun j hj => by simpa using hbefore j hj⟩
  refine findIdx?_eq_of_first (fun other hother => ?_) hi (List.getElem?_eq_getElem hlt)
    (decide_eq_true (h _ hfind))
  exact decide_eq_true (of_decide_eq_true hother).startsAs

/-- The section that a name which is found whole is merged into. -/
theorem namedSection_findOrAdd_snd (h : FoundWhole t.sections s) :
    (t.findOrAdd s).1.namedSection s = some (t.findOrAdd s).2 :=
  namedSection_of_foundWhole (foundWhole_findOrAdd h) (t.findSection_findOrAdd s)

theorem names_propertyAdd (i : Nat) :
    (t.propertyAdd sec name value).names i = if sec = i then t.names i ++ [name] else t.names i := by
  unfold names keys IniTable.propertyAdd
  rw [List.map_append, List.filter_append, List.map_append]
  by_cases h : sec = i <;> simp [IniEntry.key, h]

theorem keys_withText {before after : List IniEntry} {e : IniEntry} {text : IniText}
    (heq : t.properties = before ++ e :: after) : (t.withText before e after text).keys = t.keys := by
  unfold keys withText
  rw [heq, List.map_append, List.map_append]
  rfl

/-- A property that is added to the section of its name is said. -/
theorem KeepsNames.propertyAdd {u : IniTable} (h : u.KeepsNames (d.add (.header q.sec)))
    (hsec : u.namedSection q.sec = some sec) : (u.propertyAdd sec q.name value).KeepsNames (d.add (.property q)) := by
  refine ⟨h.sections, fun s x => ?_⟩
  have hin : SameLetters s q.sec ↔ u.namedSection s = some sec := (namedSection_eq_some_iff hsec).symm
  have hnames : (u.namesIn s).find? _ = (d.names s).find? _ := h.names s x
  have hnamed : (u.propertyAdd sec q.name value).namedSection s = u.namedSection s := rfl
  rw [IniSaid.names_property]
  by_cases hs : SameLetters s q.sec
  · rw [namesIn_eq (hin.mp hs)] at hnames
    rw [if_pos hs, namesIn_eq (hnamed.trans (hin.mp hs)), names_propertyAdd, if_pos rfl, List.find?_append,
      List.find?_append, hnames]
  · rw [if_neg hs, ← hnames]
    unfold namesIn
    rw [hnamed]
    cases hi : u.namedSection s with
    | none => rfl
    | some i =>
      dsimp only
      rw [names_propertyAdd, if_neg fun hother => hs (hin.mpr (hi.trans (congrArg some hother.symm)))]

/-- If another property is found, its name is not new to any search. -/
theorem KeepsNames.withText {u : IniTable} {before after : List IniEntry} {e : IniEntry} {text : IniText}
    (h : u.KeepsNames (d.add (.header q.sec))) (hsec : u.namedSection q.sec = some sec)
    (hfirst : u.FirstAt sec q.name before e after) :
    (u.withText before e after text).KeepsNames (d.add (.property q)) := by
  refine ⟨h.sections, fun s x => ?_⟩
  have hnames : (u.namesIn s).find? _ = (d.names s).find? _ := h.names s x
  have hsame : (u.withText before e after text).namesIn s = u.namesIn s := by
    have hnames (i : Nat) : (u.withText before e after text).names i = u.names i := by
      unfold IniTable.names
      rw [keys_withText hfirst.eq]
    have hnamed : (u.withText before e after text).namedSection s = u.namedSection s := rfl
    unfold namesIn
    rw [hnamed]
    simp only [hnames]
  rw [hsame, hnames, IniSaid.names_property]
  by_cases hs : SameLetters s q.sec
  · have hfound : (d.names s).find? (fun other => StartsAs q.name other) = some e.name := by
      rw [← hfirst.find?_names, ← namesIn_eq ((namedSection_eq_some_iff hsec).mpr hs)]
      exact (h.names s q.name).symm
    obtain ⟨hmem, hstarts⟩ := of_find?_eq_some hfound
    rw [if_pos hs]
    exact (find?_append_of_le hmem hstarts x).symm
  · rw [if_neg hs]

theorem KeepsNames.catProperty {u : IniTable} (h : u.KeepsNames (d.add (.header q.sec))) (hname : q.name ≠ [])
    (hsec : u.namedSection q.sec = some sec) (ht' : iniCatProperty sec u q.name value = some t') :
    t'.KeepsNames (d.add (.property q)) := by
  rcases iniCatProperty_some hname ht' with ⟨-, rfl⟩ | ⟨before, e, after, text, hfirst, -, rfl⟩
  · exact h.propertyAdd hsec
  · exact h.withText hsec hfirst

theorem KeepsNames.foundWhole_sections (h : t.KeepsNames d) (hs : FoundWhole d.sections s) :
    FoundWhole t.sections s := by
  intro y hy
  rw [h.sections] at hy
  exact hs y hy

theorem KeepsNames.property {q : IniSetting Bytes} {d : IniSaid Bytes} (h : t.KeepsNames d) (hsound : t.Sound)
    (hname : q.name ≠ []) (hs : FoundWhole d.sections q.sec) (ht' : t.say (.property q) = some t') :
    t'.KeepsNames (d.add (.property q)) :=
  (h.findOrAdd hsound q.sec).catProperty hname (namedSection_findOrAdd_snd (h.foundWhole_sections hs)) ht'

end

/-! ### Keeping the values -/

structure Keeps (t : IniTable) (d : IniSaid Bytes) : Prop extends t.KeepsNames d where
  texts : ∀ s p, t.namedText s p = (lastValue d.settings s p).map .ofValue
  count : t.properties.length = d.count

section
variable {d : IniSaid Bytes} {q : IniSetting Bytes}

theorem Keeps.findOrAdd (h : t.Keeps d) (hsound : t.Sound) (s : Bytes) :
    (t.findOrAdd s).1.Keeps (d.add (.header s)) := by
  refine ⟨h.toKeepsNames.findOrAdd hsound s, fun s' p => ?_, ?_⟩
  · rw [namedText_findOrAdd hsound]
    exact h.texts s' p
  · rw [properties_findOrAdd]
    exact h.count

theorem namedText_eq_none (hname : name ≠ []) (hs : t.namedSection s = some sec)
    (hnone : t.findProperty sec name = none) : t.namedText s name = none := by
  rw [findProperty_eq hname, List.findIdx?_eq_none_iff] at hnone
  unfold namedText
  rw [hs, Option.bind_some, Option.map_eq_none_iff, List.find?_eq_none]
  intro e he hboth
  obtain ⟨hsec, hsame⟩ := of_decide_eq_true hboth
  have hnot := hnone e (List.mem_filter.mpr ⟨he, decide_eq_true hsec⟩)
  exact of_decide_eq_false hnot hsame.startsAs

/-- The entry that a property with these names replaces the text of. -/
structure Replaces (u : IniTable) (s p : Bytes) (before : List IniEntry) (e : IniEntry) (after : List IniEntry) :
    Prop where
  eq : u.properties = before ++ e :: after
  sec : u.namedSection s = some e.sec
  name : SameLetters p e.name
  first : ∀ b ∈ before, b.sec = e.sec → ¬ SameLetters p b.name

/-- Where both names are found whole, the property is added if nothing was said of it, and replaced otherwise. -/
theorem Keeps.say_cases (h : t.Keeps d) (hsound : t.Sound) (hname : q.name ≠ [])
    (hs : FoundWhole d.sections q.sec) (hp : FoundWhole (d.names q.sec) q.name) :
    (lastValue d.settings q.sec q.name = none ∧
      t.say (.property q) = some ((t.findOrAdd q.sec).1.propertyAdd (t.findOrAdd q.sec).2 q.name q.value)) ∨
    ∃ before e after old, (t.findOrAdd q.sec).1.Replaces q.sec q.name before e after ∧
      lastValue d.settings q.sec q.name = some old ∧
      t.say (.property q) = if t.properties.length < t.capacity then
        ((IniText.ofValue old).set q.value).map ((t.findOrAdd q.sec).1.withText before e after) else none := by
  have hu := h.findOrAdd hsound q.sec
  have hsec := namedSection_findOrAdd_snd (h.foundWhole_sections hs)
  have hproperties := t.properties_findOrAdd q.sec
  have hcapacity := t.capacity_findOrAdd q.sec
  change (_ ∧ iniCatProperty (t.findOrAdd q.sec).2 (t.findOrAdd q.sec).1 q.name q.value = _) ∨
    ∃ before e after old, _ ∧ _ ∧ iniCatProperty (t.findOrAdd q.sec).2 (t.findOrAdd q.sec).1 q.name q.value = _
  revert hu hsec hproperties hcapacity
  generalize (t.findOrAdd q.sec).1 = u, (t.findOrAdd q.sec).2 = sec
  intro hu hsec hproperties hcapacity
  have htexts := hu.texts q.sec q.name
  rcases @iniCatProperty_cases u q.name sec hname q.value with ⟨hnone, heq⟩ | ⟨before, e, after, hfirst, heq⟩
  · rw [namedText_eq_none hname hsec hnone] at htexts
    exact .inl ⟨Option.map_eq_none_iff.mp htexts.symm, heq⟩
  · have hfound := hu.names q.sec q.name
    rw [namesIn_eq hsec, hfirst.find?_names] at hfound
    have hwhole : SameLetters q.name e.name := hp e.name hfound.symm
    have hreplaces : u.Replaces q.sec q.name before e after :=
      ⟨hfirst.eq, hfirst.ofSection ▸ hsec, hwhole, fun b hb hb' hsame =>
        hfirst.first b hb (hb'.trans hfirst.ofSection) hsame.startsAs⟩
    rw [namedText_eq_some hreplaces.eq hreplaces.sec hreplaces.name hreplaces.first] at htexts
    obtain ⟨old, hold, htext⟩ := Option.map_eq_some_iff.mp htexts.symm
    refine .inr ⟨before, e, after, old, hreplaces, hold, ?_⟩
    rw [heq, hproperties, hcapacity, htext]

theorem set_ofValue {old value : Bytes} (h : isLong old = true → isLong value = true) :
    (IniText.ofValue old).set value = some (.ofValue value) := by
  unfold IniText.ofValue
  by_cases hold : isLong old = true
  · rw [if_pos hold, if_pos (h hold)]
    exact congrArg some (if_pos (h hold))
  · rw [if_neg hold]
    rfl

theorem Keeps.added (h : t.Keeps d) (hsound : t.Sound) (hname : q.name ≠ []) (hs : FoundWhole d.sections q.sec)
    (hnone : lastValue d.settings q.sec q.name = none)
    (hsay : t.say (.property q) = some ((t.findOrAdd q.sec).1.propertyAdd (t.findOrAdd q.sec).2 q.name q.value)) :
    ((t.findOrAdd q.sec).1.propertyAdd (t.findOrAdd q.sec).2 q.name q.value).Keeps (d.add (.property q)) := by
  have hsec := namedSection_findOrAdd_snd (h.foundWhole_sections hs)
  refine ⟨h.toKeepsNames.property hsound hname hs hsay, fun s p => ?_, ?_⟩
  · rw [namedText_propertyAdd, namedText_findOrAdd hsound, h.texts]
    simp only [namedSection_eq_some_iff hsec]
    change Option.or _ (if q.Is s p then _ else _) = (lastValue (d.settings ++ [q]) s p).map _
    rw [lastValue_concat]
    by_cases his : q.Is s p
    · have hkey : lastValue d.settings s p = none := by
        rw [lastValue_eq_none] at hnone ⊢
        intro q' hq' his'
        exact hnone q' hq' ⟨his.1.symm.trans his'.1, his.2.symm.trans his'.2⟩
      rw [if_pos his, if_pos his, hkey]
      rfl
    · rw [if_neg his, if_neg his, Option.or_none]
  · rw [IniSaid.count_property, if_pos hnone, ← h.count]
    unfold IniTable.propertyAdd
    rw [properties_findOrAdd, List.length_append, List.length_singleton]

theorem Keeps.replaced {before after : List IniEntry} {e : IniEntry} {old : Bytes} (h : t.Keeps d)
    (hsound : t.Sound) (hname : q.name ≠ []) (hs : FoundWhole d.sections q.sec)
    (hreplaces : (t.findOrAdd q.sec).1.Replaces q.sec q.name before e after)
    (hold : lastValue d.settings q.sec q.name = some old)
    (hsay : t.say (.property q) = some ((t.findOrAdd q.sec).1.withText before e after (.ofValue q.value))) :
    ((t.findOrAdd q.sec).1.withText before e after (.ofValue q.value)).Keeps (d.add (.property q)) := by
  refine ⟨h.toKeepsNames.property hsound hname hs hsay, fun s p => ?_, ?_⟩
  · change _ = (lastValue (d.settings ++ [q]) s p).map _
    rw [lastValue_concat]
    by_cases his : q.Is s p
    · rw [if_pos his, Option.map_some]
      refine namedText_withText_self ((namedSection_eq_some_iff hreplaces.sec).mpr his.1)
        (his.2.trans hreplaces.name) fun b hb hb' hsame => ?_
      exact hreplaces.first b hb hb' (his.2.symm.trans hsame)
    · rw [if_neg his, namedText_withText_other hreplaces.eq, namedText_findOrAdd hsound, h.texts]
      rintro ⟨hs', hp', -⟩
      exact his ⟨(namedSection_eq_some_iff hreplaces.sec).mp hs', hp'.trans hreplaces.name.symm⟩
  · rw [IniSaid.count_property, hold, if_neg (by simp), ← h.count, ← properties_findOrAdd t q.sec, hreplaces.eq]
    unfold withText
    rw [List.length_append, List.length_append, List.length_cons, List.length_cons]

theorem Keeps.property (h : t.Keeps d) (hsound : t.Sound) (hname : q.name ≠ [])
    (hq : (d.map isLong).MergesWhole (q.map isLong)) :
    ∃ t', t.say (.property q) = some t' ∧ t'.Keeps (d.add (.property q)) := by
  have hlast : lastValue (d.map isLong).settings q.sec q.name = (lastValue d.settings q.sec q.name).map isLong :=
    lastValue_map isLong d.settings q.sec q.name
  have hsecwhole : FoundWhole d.sections q.sec := hq.sec
  have hnamewhole : FoundWhole (d.names q.sec) q.name := IniSaid.names_map isLong d q.sec ▸ hq.name
  rcases h.say_cases hsound hname hsecwhole hnamewhole with
    ⟨hnone, hsay⟩ | ⟨before, e, after, old, hreplaces, hold, hsay⟩
  · exact ⟨_, hsay, h.added hsound hname hsecwhole hnone hsay⟩
  · have hroom : t.properties.length < t.capacity := by
      refine hsound.room_iff.mpr fun k => ?_
      rw [h.count, ← IniSaid.count_map isLong]
      refine hq.room (fun hnone => ?_) k
      have hnone : lastValue (d.map isLong).settings q.sec q.name = none := hnone
      rw [hlast, hold] at hnone
      cases hnone
    have hset : (IniText.ofValue old).set q.value = some (.ofValue q.value) := by
      refine set_ofValue fun hlong => hq.long ?_
      change lastValue (d.map isLong).settings q.sec q.name = some true
      rw [hlast, hold, Option.map_some, hlong]
    rw [if_pos hroom, hset, Option.map_some] at hsay
    exact ⟨_, hsay, h.replaced hsound hname hsecwhole hreplaces hold hsay⟩

end

/-! ### Merging line after line -/

/-- No property has an empty name. -/
def Named (ls : List (IniLine Bytes)) : Prop := ∀ q, .property q ∈ ls → q.name ≠ []

namespace Named
variable {l : IniLine Bytes} {ls ls' : List (IniLine Bytes)}

theorem head (h : Named (l :: ls)) (q : IniSetting Bytes) (hq : l = .property q) : q.name ≠ [] := h q (hq ▸ .head _)

theorem tail (h : Named (l :: ls)) : Named ls := fun q hq => h q (.tail _ hq)

theorem left (h : Named (ls ++ ls')) : Named ls := fun q hq => h q (List.mem_append_left _ hq)

theorem right (h : Named (ls ++ ls')) : Named ls' := fun q hq => h q (List.mem_append_right _ hq)

end Named

theorem Sound.run {ls : List (IniLine Bytes)} (h : t.Sound) (hls : Named ls)
    (ht' : ls.foldlM IniTable.say t = some t') : t'.Sound := by
  induction ls generalizing t with
  | nil =>
    cases ht'
    exact h
  | cons l ls ih =>
    obtain ⟨u, hu, ht'⟩ := Option.bind_eq_some_iff.mp ht'
    exact ih (h.say hls.head hu) hls.tail ht'

theorem Keeps.run {ls : List (IniLine Bytes)} {d : IniSaid Bytes} (h : t.Keeps d) (hsound : t.Sound) (hls : Named ls)
    (hclean : (d.map isLong).MergesCleanly (ls.map (IniLine.map isLong))) :
    ∃ t', ls.foldlM IniTable.say t = some t' ∧ t'.Keeps (ls.foldl IniSaid.add d) := by
  induction ls generalizing t d with
  | nil => exact ⟨t, rfl, h⟩
  | cons l ls ih =>
    rw [List.foldl_cons]
    cases l with
    | header s =>
      exact ih (h.findOrAdd hsound s) (hsound.findOrAdd s) hls.tail (IniSaid.map_add isLong d _ ▸ hclean)
    | property q =>
      obtain ⟨hwhole, hclean⟩ := hclean
      obtain ⟨u, hu, hkeeps⟩ := h.property hsound (hls q (.head _)) hwhole
      have hu' := hsound.say hls.head hu
      obtain ⟨t', ht', hkeeps⟩ := ih hkeeps hu' hls.tail (IniSaid.map_add isLong d _ ▸ hclean)
      refine ⟨t', ?_, hkeeps⟩
      rw [List.foldlM_cons, hu]
      exact ht'

end IniTable
end Waynergy
