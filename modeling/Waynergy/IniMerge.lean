import Waynergy.IniLoad
import Waynergy.IniTable

/-!
# Merging INIs (`config.c`)

`ini_d_load` merges the files of `config.ini.d` into the INI one after another. What it does to the table is what
the lines of the files, said to it in their order, do.
-/

namespace Waynergy
open Lib

/-! ### `ini_cat` -/

/-- The section that the name finds, or a new one. -/
def IniTable.findOrAdd (dst : IniTable) (secName : Bytes) : IniTable × Nat :=
  match dst.findSection secName with
  | some secDst => (dst, secDst)
  | none => dst.sectionAdd secName

def iniCatProperty (secDst : Nat) (dst : IniTable) (propName value : Bytes) : Option IniTable :=
  match dst.findProperty secDst propName with
  | none => some (dst.propertyAdd secDst propName value)
  | some propDst => dst.propertyValueSet secDst propDst value

def iniCatSection (src : Ini) (dst : IniTable) (secName : Bytes) (secSrc : Nat) : Option IniTable :=
  let (dst, secDst) := dst.findOrAdd secName
  (src.ofSection secSrc).foldlM (fun dst q => iniCatProperty secDst dst q.name q.value) dst

def iniCat (dst : IniTable) (src : Ini) : Option IniTable :=
  src.sections.zipIdx.foldlM (fun dst sec => iniCatSection src dst sec.1 sec.2) dst

/-! ### `ini_d_load` -/

/-- A file of the directory, and what is in it: an INI without empty names, as `ini_load` makes them. -/
structure IniFile where
  name : Bytes
  ini : Ini
  named : ∀ q ∈ ini.properties, q.name ≠ []

def IniFile.load (name : Bytes) (txt : Option Bytes) : IniFile := ⟨name, .load txt, (Ini.parsed_load txt).named⟩

/-- From the first place on where the string is. -/
def strstr (s find : Bytes) : Option Bytes := s.tails.find? fun suffix => find <+: suffix

def dotIni : Bytes := ascii ['.', 'i', 'n', 'i']

/-- Nothing comes behind the first `.ini` of the name. -/
def IniFile.taken (f : IniFile) : Bool :=
  match strstr f.name dotIni with
  | none => false
  | some suffix => suffix.drop 4 = []

/-- Without the directory there is nothing to merge. -/
def iniDLoad (dst : IniTable) : Option (List IniFile) → Option (Bool × IniTable)
  | none => some (false, dst)
  | some files =>
    (files.foldlM (fun (dst : IniTable) (f : IniFile) => if f.taken then iniCat dst f.ini else some dst) dst).map
      fun dst => (true, dst)

/-- The configuration is `config.ini`, if it is there, and the snippets in `config.ini.d`. -/
def Conf.configInitINI (c : Conf) : Option IniTable :=
  (iniDLoad (Ini.load (c.configReadFile (ascii ['c', 'o', 'n', 'f', 'i', 'g', '.', 'i', 'n', 'i']))).table
    ((c.dir (ascii ['c', 'o', 'n', 'f', 'i', 'g', '.', 'i', 'n', 'i', '.', 'd'])).map
      (List.map fun f => IniFile.load f.1 (some f.2)))).map Prod.snd

/-! ### Lines -/

structure IniSetting (V : Type) where
  sec : Bytes
  name : Bytes
  value : V

/-- The header of a section, or a property in a section. -/
inductive IniLine (V : Type)
  | header (sec : Bytes)
  | property (q : IniSetting V)

def Ini.lines (ini : Ini) : List (IniLine Bytes) :=
  ini.sections.zipIdx.flatMap fun sec =>
    .header sec.1 :: (ini.ofSection sec.2).map fun q => .property ⟨sec.1, q.name, q.value⟩

/-- What a line does to the table it is merged into. -/
def IniTable.say (t : IniTable) : IniLine Bytes → Option IniTable
  | .header sec => some (t.findOrAdd sec).1
  | .property q => iniCatProperty (t.findOrAdd q.sec).2 (t.findOrAdd q.sec).1 q.name q.value

def takenLines (files : List IniFile) : List (IniLine Bytes) :=
  (files.filter IniFile.taken).flatMap fun f => f.ini.lines

theorem IniTable.findSection_findOrAdd (t : IniTable) (s : Bytes) :
    (t.findOrAdd s).1.findSection s = some (t.findOrAdd s).2 := by
  unfold findOrAdd
  cases h : t.findSection s with
  | some sec => exact h
  | none =>
    unfold findSection at h ⊢
    rw [List.findIdx?_eq_none_iff] at h
    exact List.findIdx?_eq_some_iff_getElem.mpr ⟨by simp [sectionAdd],
      by simpa [sectionAdd] using (SameLetters.refl s).startsAs, fun j hj => by
        have hj : j < t.sections.length := hj
        simpa [sectionAdd, List.getElem_append_left hj] using h _ (List.getElem_mem hj)⟩

theorem iniCatProperty_sections {sec : Nat} {t t' : IniTable} {name value : Bytes}
    (h : iniCatProperty sec t name value = some t') : t'.sections = t.sections := by
  unfold iniCatProperty at h
  split at h
  · cases h
    rfl
  · unfold IniTable.propertyValueSet at h
    split at h
    · cases h
      rfl
    · split at h
      · cases h
        rfl
      · split at h
        · obtain ⟨text, -, rfl⟩ := Option.map_eq_some_iff.mp h
          rfl
        · cases h

theorem IniTable.foldlM_say_eq {s : Bytes} {sec : Nat} (qs : List IniProperty) {t : IniTable}
    (hsec : t.findSection s = some sec) :
    qs.foldlM (fun dst q => iniCatProperty sec dst q.name q.value) t =
      (qs.map fun q => .property ⟨s, q.name, q.value⟩).foldlM IniTable.say t := by
  induction qs generalizing t with
  | nil => rfl
  | cons q qs ih =>
    have hfind : t.findOrAdd s = (t, sec) := by
      unfold findOrAdd
      rw [hsec]
    have hsay : t.say (.property ⟨s, q.name, q.value⟩) = iniCatProperty sec t q.name q.value := by
      change iniCatProperty (t.findOrAdd s).2 (t.findOrAdd s).1 q.name q.value = _
      rw [hfind]
    rw [List.foldlM_cons, List.map_cons, List.foldlM_cons, hsay]
    cases hq : iniCatProperty sec t q.name q.value with
    | none => rfl
    | some t' =>
      refine ih ?_
      unfold findSection
      rw [iniCatProperty_sections hq]
      exact hsec

theorem foldlM_flatMap {α β σ : Type} (f : β → List α) (g : σ → α → Option σ) (l : List β) (s : σ) :
    (l.flatMap f).foldlM g s = l.foldlM (fun s b => (f b).foldlM g s) s := by
  induction l generalizing s with
  | nil => rfl
  | cons b l ih =>
    rw [List.flatMap_cons, List.foldlM_append, List.foldlM_cons]
    exact congrArg _ (funext ih)

theorem iniCat_eq (dst : IniTable) (src : Ini) : iniCat dst src = src.lines.foldlM IniTable.say dst := by
  unfold Ini.lines
  rw [foldlM_flatMap]
  unfold iniCat
  congr 1
  funext t sec
  exact IniTable.foldlM_say_eq _ (t.findSection_findOrAdd sec.1)

theorem iniDLoad_eq (dst : IniTable) (files : List IniFile) :
    iniDLoad dst (some files) = ((takenLines files).foldlM IniTable.say dst).map fun dst => (true, dst) := by
  unfold takenLines
  rw [foldlM_flatMap, List.foldlM_filter]
  simp only [← iniCat_eq]
  rfl

end Waynergy
