import Waynergy.IniLookup

/-!
# The table that INIs are merged into (`ini.h`)

`Ini` says what is in an INI; `IniTable` is the `ini_t` it is in, with the text of each property in its entry or in a
block of its own, and the spare entries behind. A text is replaced by `ini_property_value_set`, which resets the
pointer of a spare entry for that of the property.
-/

namespace Waynergy
open Lib

/-! ### Texts -/

/-- The text of a property is in `value`, or where `value_large` points to; that may have been freed. -/
inductive IniText
  | inline (text : Bytes)
  | large (text : Bytes)
  | freed
deriving DecidableEq

/-- A text that does not fit `value` with its NUL. -/
def isLong (value : Bytes) : Bool := 64 ≤ value.length + 1

namespace IniText

def ofValue (value : Bytes) : IniText := if isLong value then .large value else .inline value

/-- A block is freed, and only another block takes its place in `value_large`. It cannot be freed again. -/
def set : IniText → Bytes → Option IniText
  | .inline _, value => some (ofValue value)
  | .large _, value => some (if isLong value then .large value else .freed)
  | .freed, _ => none

end IniText

/-! ### The table -/

structure IniEntry where
  sec : Nat
  name : Bytes
  text : IniText
deriving DecidableEq

def IniEntry.key (e : IniEntry) : Nat × Bytes := (e.sec, e.name)

structure IniTable where
  sections : List Bytes
  properties : List IniEntry
  capacity : Nat
deriving DecidableEq

namespace IniTable

def findSection (t : IniTable) (name : Bytes) : Option Nat := t.sections.findIdx? fun other => StartsAs name other

def keys (t : IniTable) : List (Nat × Bytes) := t.properties.map IniEntry.key

/-- A spare entry has the global section and no name. -/
def spare (t : IniTable) : List (Nat × Bytes) := List.replicate (t.capacity - t.properties.length) (0, [])

/-- The number of the property among those of the section, for a section that there is. -/
def findProperty (t : IniTable) (sec : Nat) (name : Bytes) : Option Nat :=
  ((t.keys ++ t.spare).filter fun key => key.1 = sec).findIdx? fun key => StartsAs name key.2

def internalPropertyIndex (t : IniTable) (sec prop : Nat) : Option Nat :=
  ((t.properties.zipIdx.filter fun e => e.1.sec = sec)[prop]?).map Prod.snd

def sectionAdd (t : IniTable) (name : Bytes) : IniTable × Nat :=
  ({ t with sections := t.sections ++ [name] }, t.sections.length)

def propertyAdd (t : IniTable) (sec : Nat) (name value : Bytes) : IniTable :=
  { t with
    capacity := if t.capacity ≤ t.properties.length then 2 * t.capacity else t.capacity
    properties := t.properties ++ [⟨sec, name, .ofValue value⟩] }

/-- There is no result if a block is freed twice, or if the entry that is reset is behind the table. -/
def propertyValueSet (t : IniTable) (sec prop : Nat) (value : Bytes) : Option IniTable :=
  match t.internalPropertyIndex sec prop with
  | none => some t
  | some p =>
    match t.properties[p]? with
    | none => some t
    | some e =>
      if t.properties.length < t.capacity then
        (e.text.set value).map fun text => { t with properties := t.properties.set p { e with text := text } }
      else none

end IniTable

/-- `ini_create`, and the properties added in their order. -/
def Ini.table (ini : Ini) : IniTable :=
  ini.properties.foldl (fun t q => t.propertyAdd q.sec q.name q.value) ⟨ini.sections, [], 256⟩

/-! ### Look-ups by whole names -/

namespace IniTable

def namedSection (t : IniTable) (s : Bytes) : Option Nat := t.sections.findIdx? fun other => SameLetters s other

def namedText (t : IniTable) (s p : Bytes) : Option IniText :=
  (t.namedSection s).bind fun sec =>
    (t.properties.find? fun e => e.sec = sec ∧ SameLetters p e.name).map IniEntry.text

/-- The names of the properties of a section. -/
def names (t : IniTable) (sec : Nat) : List Bytes := (t.keys.filter fun key => key.1 = sec).map Prod.snd

variable {t : IniTable} {sec : Nat} {s s' p p' name value : Bytes}

theorem namedSection_eq_some_iff {i : Nat} (h : t.namedSection s = some i) :
    t.namedSection s' = some i ↔ SameLetters s' s := by
  constructor
  · intro h'
    obtain ⟨_, hs, -⟩ := List.findIdx?_eq_some_iff_getElem.mp h
    obtain ⟨_, hs', -⟩ := List.findIdx?_eq_some_iff_getElem.mp h'
    exact (of_decide_eq_true hs').trans (of_decide_eq_true hs).symm
  · intro hsame
    have hiff (other : Bytes) : SameLetters s' other ↔ SameLetters s other :=
      ⟨hsame.symm.trans, hsame.trans⟩
    rw [← h]
    unfold namedSection
    simp only [hiff]

/-! ### What is found and what is set -/

/-- The entry at a place is the first of its section whose name begins with what is looked for. -/
structure FirstAt (t : IniTable) (sec : Nat) (name : Bytes) (before : List IniEntry) (e : IniEntry)
    (after : List IniEntry) : Prop where
  eq : t.properties = before ++ e :: after
  ofSection : e.sec = sec
  startsAs : StartsAs name e.name
  first : ∀ b ∈ before, b.sec = sec → ¬ StartsAs name b.name

theorem findProperty_eq (hname : name ≠ []) : t.findProperty sec name =
    (t.properties.filter fun e => e.sec = sec).findIdx? fun e => StartsAs name e.name := by
  have hspare : ((t.spare.filter fun key => key.1 = sec).findIdx? fun key => StartsAs name key.2) = none := by
    rw [List.findIdx?_eq_none_iff]
    intro key hkey
    obtain ⟨hkey, -⟩ := List.mem_filter.mp hkey
    obtain ⟨-, rfl⟩ := List.mem_replicate.mp hkey
    refine decide_eq_false fun h => hname ?_
    exact List.length_eq_zero_iff.mp (Nat.le_zero.mp (StartsAs.length_le h))
  unfold findProperty
  rw [List.filter_append, List.findIdx?_append, hspare, Option.map_none, Option.or_none]
  unfold keys
  rw [List.filter_map, List.findIdx?_map]
  rfl

theorem find?_names (hname : name ≠ []) (h : t.findProperty sec name = none) :
    (t.names sec).find? (fun other => StartsAs name other) = none := by
  rw [findProperty_eq hname, List.findIdx?_eq_none_iff] at h
  unfold names keys
  rw [List.filter_map, List.map_map, List.find?_map, Option.map_eq_none_iff, List.find?_eq_none]
  exact fun e he hstarts => Bool.eq_false_iff.mp (h e he) hstarts

theorem exists_firstAt {k : Nat} (hname : name ≠ []) (h : t.findProperty sec name = some k) :
    ∃ before e after, t.FirstAt sec name before e after ∧ t.internalPropertyIndex sec k = some before.length := by
  rw [findProperty_eq hname] at h
  obtain ⟨before, e, after, heq, hsec, hstarts, hbefore, hat⟩ := exists_of_findIdx?_filter 0 h
  refine ⟨before, e, after, ⟨heq, of_decide_eq_true hsec, of_decide_eq_true hstarts, fun b hb hb' => ?_⟩, ?_⟩
  · exact of_decide_eq_false (hbefore b hb (decide_eq_true hb'))
  · unfold internalPropertyIndex
    rw [hat, Option.map_some, Nat.zero_add]

theorem FirstAt.find?_names {before after : List IniEntry} {e : IniEntry} (h : t.FirstAt sec name before e after) :
    (t.names sec).find? (fun other => StartsAs name other) = some e.name := by
  unfold names keys
  rw [List.filter_map, List.map_map, List.find?_map, Option.map_eq_some_iff]
  refine ⟨e, ?_, rfl⟩
  rw [List.find?_filter, List.find?_eq_some_iff_append]
  refine ⟨by simp [IniEntry.key, h.ofSection, h.startsAs], before, after, h.eq, fun b hb => ?_⟩
  rw [Bool.not_eq_true', decide_eq_false_iff_not]
  rintro ⟨hsec, hstarts⟩
  exact h.first b hb (of_decide_eq_true hsec) (of_decide_eq_true hstarts)

/-- The table with another text in the entry. -/
def withText (t : IniTable) (before : List IniEntry) (e : IniEntry) (after : List IniEntry) (text : IniText) :
    IniTable :=
  { t with properties := before ++ { e with text := text } :: after }

theorem propertyValueSet_eq {k : Nat} {before after : List IniEntry} {e : IniEntry}
    (h : t.FirstAt sec name before e after) (hk : t.internalPropertyIndex sec k = some before.length) :
    t.propertyValueSet sec k value =
      if t.properties.length < t.capacity then (e.text.set value).map (t.withText before e after) else none := by
  have hget : t.properties[before.length]? = some e := by
    rw [h.eq, List.getElem?_append_right (Nat.le_refl _), Nat.sub_self]
    rfl
  have hset (x : IniEntry) : t.properties.set before.length x = before ++ x :: after := by
    rw [h.eq, List.set_append_right _ _ (Nat.le_refl _), Nat.sub_self]
    rfl
  unfold propertyValueSet
  rw [hk]
  dsimp only
  rw [hget]
  simp only [hset]
  rfl

/-! ### What becomes of a text -/

theorem namedText_propertyAdd : (t.propertyAdd sec name value).namedText s p =
    (t.namedText s p).or
      (if t.namedSection s = some sec ∧ SameLetters p name then some (.ofValue value) else none) := by
  unfold namedText
  change (t.namedSection s).bind _ = _
  cases t.namedSection s with
  | none => rfl
  | some i =>
    rw [Option.bind_some, Option.bind_some, propertyAdd, List.find?_append, Option.map_or, List.find?_singleton]
    congr 1
    by_cases h : sec = i ∧ SameLetters p name
    · obtain ⟨rfl, hp⟩ := h
      simp [hp]
    · have h' : ¬ (some i = some sec ∧ SameLetters p name) := fun h' => h ⟨(Option.some.inj h'.1).symm, h'.2⟩
      rw [if_neg h', if_neg (by simpa using h)]
      rfl

section
variable {before after : List IniEntry} {e : IniEntry} {text : IniText}

theorem namedText_eq_some (heq : t.properties = before ++ e :: after) (hs : t.namedSection s = some e.sec)
    (hp : SameLetters p e.name) (hfirst : ∀ b ∈ before, b.sec = e.sec → ¬ SameLetters p b.name) :
    t.namedText s p = some e.text := by
  unfold namedText
  rw [hs, Option.bind_some, Option.map_eq_some_iff]
  refine ⟨e, List.find?_eq_some_iff_append.mpr ⟨by simpa using hp, before, after, heq, fun b hb => ?_⟩, rfl⟩
  simpa [imp_iff_not_or] using hfirst b hb

theorem namedText_withText_self (hs : t.namedSection s = some e.sec) (hp : SameLetters p e.name)
    (hfirst : ∀ b ∈ before, b.sec = e.sec → ¬ SameLetters p b.name) :
    (t.withText before e after text).namedText s p = some text :=
  namedText_eq_some (t := t.withText before e after text) (e := { e with text := text }) rfl hs hp hfirst

/-- Only the first entry with the name counts. -/
theorem namedText_withText_other (heq : t.properties = before ++ e :: after)
    (h : ¬ (t.namedSection s = some e.sec ∧ SameLetters p e.name ∧
      ∀ b ∈ before, b.sec = e.sec → ¬ SameLetters p b.name)) :
    (t.withText before e after text).namedText s p = t.namedText s p := by
  unfold namedText
  change (t.namedSection s).bind _ = _
  cases hs : t.namedSection s with
  | none => rfl
  | some i =>
    rw [Option.bind_some, Option.bind_some, heq, withText, List.find?_append, List.find?_append]
    cases hbefore : before.find? fun e => e.sec = i ∧ SameLetters p e.name with
    | some b => rfl
    | none =>
      rw [List.find?_eq_none] at hbefore
      have hnot : ¬ (e.sec = i ∧ SameLetters p e.name) := by
        rintro ⟨rfl, hp⟩
        refine h ⟨hs, hp, fun b hb hsec hb' => hbefore b hb ?_⟩
        exact decide_eq_true ⟨hsec, hb'⟩
      rw [Option.none_or, Option.none_or, List.find?_cons_of_neg (by simpa using hnot),
        List.find?_cons_of_neg (by simpa using hnot)]

end

end IniTable
end Waynergy
