import Waynergy.ConfigFile
import Waynergy.Lib.FirstHit

/-!
# A single look-up and the listing of a section (`config.c`)

A look-up finds the first section, and in it the first property, whose name begins with what is looked for. The
listing has the whole names. The two agree if no longer name is in front, and otherwise only where both find nothing
or where two properties happen to have the same value.
-/

namespace Waynergy
open Lib

/-! ### The listing -/

def IniProperty.key (q : IniProperty) : Nat × Bytes := (q.sec, q.name)

namespace Ini
variable (ini : Ini)

/-- What `read_full_section_ini` lists of a section. -/
def listing (sec : Nat) : List (Bytes × Bytes) := (ini.ofSection sec).map fun q => (q.name, q.value)

/-- The first section that has the whole name. -/
def namedSection (s : Bytes) : Option Nat := ini.sections.findIdx? fun other => SameLetters s other

/-- The value of the first property in the listing that has the whole name. -/
def namedValue (s p : Bytes) : Option Bytes :=
  (ini.namedSection s).bind fun sec => ((ini.listing sec).find? fun entry => SameLetters p entry.1).map Prod.snd

/-- The names in the listing of a section. -/
def names (sec : Nat) : List Bytes := (ini.ofSection sec).map IniProperty.name

/-- The two have the same sections, and the same properties but for their values. -/
def SameNames (ini ini' : Ini) : Prop :=
  ini'.sections = ini.sections ∧ ini'.properties.map IniProperty.key = ini.properties.map IniProperty.key

/-- Whatever the values are, a look-up of `s/p` finds the value that the listing of `s` has for `p`. -/
def LooksUp (s p : Bytes) : Prop :=
  ∀ ini', ini.SameNames ini' → ∀ c : Conf, c.ini = some ini' → c.tryReadIni (s ++ 47 :: p) = ini'.namedValue s p

variable {ini}

theorem names_eq (sec : Nat) :
    ini.names sec = ((ini.properties.map IniProperty.key).filter fun key => key.1 = sec).map Prod.snd := by
  rw [List.filter_map, List.map_map]
  rfl

theorem SameNames.names {ini' : Ini} (h : ini.SameNames ini') (sec : Nat) : ini'.names sec = ini.names sec := by
  rw [names_eq, names_eq, h.2]

/-! ### What a look-up finds -/

/-- What stands behind the first slash of `s/p`. -/
def behindSlash (s p : Bytes) : Bytes := ((s ++ 47 :: p).dropWhile (· ≠ 47)).drop 1

theorem upTo_slash (s p : Bytes) : upTo 47 (s ++ 47 :: p) = upTo 47 s := by
  induction s with
  | nil => rfl
  | cons b s ih =>
    unfold upTo at ih ⊢
    rw [List.cons_append, List.takeWhile_cons, List.takeWhile_cons, ih]

theorem behindSlash_of_not_mem {s p : Bytes} (h : 47 ∉ s) : behindSlash s p = p := by
  induction s with
  | nil => rfl
  | cons b s ih =>
    have hb : b ≠ 47 := fun h47 => h (h47 ▸ .head _)
    unfold behindSlash at ih ⊢
    rw [List.cons_append, List.dropWhile_cons_of_pos (by simp [hb])]
    exact ih fun hs => h (.tail _ hs)

theorem length_behindSlash {s p : Bytes} (h : 47 ∈ s) : p.length < (behindSlash s p).length := by
  induction s with
  | nil => cases h
  | cons b s ih =>
    unfold behindSlash at ih ⊢
    rw [List.cons_append]
    by_cases hb : b = 47
    · rw [List.dropWhile_cons_of_neg (by simp [hb]), List.drop_one, List.tail_cons, List.length_append,
        List.length_cons]
      omega
    · rw [List.dropWhile_cons_of_pos (by simp [hb])]
      exact ih ((List.mem_cons.mp h).resolve_left (Ne.symm hb))

variable (ini)

/-- The property that a look-up of `s/p` finds. -/
def found (s p : Bytes) : Option IniProperty :=
  (ini.findSection (upTo 47 s)).bind fun sec => (ini.ofSection sec).find? fun q => StartsAs (behindSlash s p) q.name

/-- The property that `s/p` is the name of. -/
def meant (s p : Bytes) : Option IniProperty :=
  (ini.namedSection s).bind fun sec => (ini.ofSection sec).find? fun q => SameLetters p q.name

variable {ini}

theorem tryReadIni_slash {c : Conf} (hc : c.ini = some ini) (s p : Bytes) :
    c.tryReadIni (s ++ 47 :: p) = (ini.found s p).map IniProperty.value := by
  unfold Conf.tryReadIni found
  rw [hc]
  dsimp only
  rw [if_pos (List.mem_append_right _ (.head _)), upTo_slash]
  cases ini.findSection (upTo 47 s) <;> rfl

theorem namedValue_eq (s p : Bytes) : ini.namedValue s p = (ini.meant s p).map IniProperty.value := by
  unfold namedValue meant listing
  cases ini.namedSection s with
  | none => rfl
  | some sec =>
    rw [Option.bind_some, Option.bind_some, List.find?_map, Option.map_map]
    rfl

theorem found_eq_some {s p : Bytes} {q : IniProperty} : ini.found s p = some q ↔
    ∃ sec, ini.findSection (upTo 47 s) = some sec ∧
      (ini.ofSection sec).find? (fun q => StartsAs (behindSlash s p) q.name) = some q :=
  Option.bind_eq_some_iff

theorem meant_eq_some {s p : Bytes} {q : IniProperty} : ini.meant s p = some q ↔
    ∃ sec, ini.namedSection s = some sec ∧
      (ini.ofSection sec).find? (fun q => SameLetters p q.name) = some q :=
  Option.bind_eq_some_iff

theorem mem_ofSection {q : IniProperty} {sec : Nat} :
    q ∈ ini.ofSection sec ↔ q ∈ ini.properties ∧ q.sec = sec := by
  unfold ofSection
  rw [List.mem_filter, decide_eq_true_eq]

/-- What is meant is of the section with the whole name and has the whole name. -/
def Means (ini : Ini) (s p : Bytes) (q : IniProperty) : Prop :=
  ini.namedSection s = some q.sec ∧ SameLetters p q.name

instance (s p : Bytes) (q : IniProperty) : Decidable (ini.Means s p q) := inferInstanceAs (Decidable (_ ∧ _))

theorem means_of_meant {s p : Bytes} {q : IniProperty} (h : ini.meant s p = some q) : ini.Means s p q := by
  obtain ⟨sec, hsec, hq⟩ := meant_eq_some.mp h
  obtain ⟨hmem, hname⟩ := of_find?_eq_some hq
  exact ⟨(mem_ofSection.mp hmem).2 ▸ hsec, hname⟩

/-! ### Other values -/

/-- The same names, but with other values. -/
def withValues (ini : Ini) (f : IniProperty → Bytes) : Ini :=
  { ini with properties := ini.properties.map fun q => { q with value := f q } }

theorem sameNames_withValues (f : IniProperty → Bytes) : ini.SameNames (ini.withValues f) := by
  refine ⟨rfl, ?_⟩
  unfold withValues
  rw [List.map_map]
  rfl

theorem ofSection_withValues (f : IniProperty → Bytes) (sec : Nat) :
    (ini.withValues f).ofSection sec = (ini.ofSection sec).map fun q => { q with value := f q } := by
  unfold ofSection withValues
  rw [List.filter_map]
  rfl

theorem found_withValues (f : IniProperty → Bytes) (s p : Bytes) :
    ((ini.withValues f).found s p).map IniProperty.value = (ini.found s p).map f := by
  unfold found
  change ((ini.findSection (upTo 47 s)).bind _).map _ = _
  cases ini.findSection (upTo 47 s) with
  | none => rfl
  | some sec =>
    rw [Option.bind_some, Option.bind_some, ofSection_withValues, List.find?_map, Option.map_map]
    rfl

theorem meant_withValues (f : IniProperty → Bytes) (s p : Bytes) :
    ((ini.withValues f).meant s p).map IniProperty.value = (ini.meant s p).map f := by
  unfold meant
  change ((ini.namedSection s).bind _).map _ = _
  cases ini.namedSection s with
  | none => rfl
  | some sec =>
    rw [Option.bind_some, Option.bind_some, ofSection_withValues, List.find?_map, Option.map_map]
    rfl

/-! ### When the two agree -/

/-- The first names that begin with what is looked for are the whole names. -/
def FindsWhole (ini : Ini) (s p : Bytes) : Prop :=
  47 ∉ s ∧ ∃ sec t, ini.findSection s = some sec ∧ ini.sections[sec]? = some t ∧ SameLetters s t ∧
    ∀ t', (ini.names sec).find? (fun other => StartsAs p other) = some t' → SameLetters p t'

/-- No name is found, and none is meant. -/
def FindsNothing (ini : Ini) (s p : Bytes) : Prop :=
  (∀ sec, ini.findSection (upTo 47 s) = some sec → ∀ t ∈ ini.names sec, ¬ StartsAs (behindSlash s p) t) ∧
    ∀ sec, ini.namedSection s = some sec → ∀ t ∈ ini.names sec, ¬ SameLetters p t

theorem findSection_of_sameNames {ini' : Ini} (h : ini.SameNames ini') (s : Bytes) :
    ini'.findSection s = ini.findSection s := by
  unfold findSection
  rw [h.1]

theorem namedSection_of_sameNames {ini' : Ini} (h : ini.SameNames ini') (s : Bytes) :
    ini'.namedSection s = ini.namedSection s := by
  unfold namedSection
  rw [h.1]

theorem FindsWhole.sameNames {ini' : Ini} {s p : Bytes} (h : ini.SameNames ini') (hw : ini.FindsWhole s p) :
    ini'.FindsWhole s p := by
  unfold FindsWhole at hw ⊢
  simpa only [findSection_of_sameNames h, h.1, h.names] using hw

theorem FindsNothing.sameNames {ini' : Ini} {s p : Bytes} (h : ini.SameNames ini') (hn : ini.FindsNothing s p) :
    ini'.FindsNothing s p := by
  unfold FindsNothing at hn ⊢
  simpa only [findSection_of_sameNames h, namedSection_of_sameNames h, h.names] using hn

theorem namedSection_of_findSection {s t : Bytes} {sec : Nat} (hsec : ini.findSection s = some sec)
    (ht : ini.sections[sec]? = some t) (hst : SameLetters s t) : ini.namedSection s = some sec := by
  refine findIdx?_eq_of_first (fun other hother => ?_) hsec ht (decide_eq_true hst)
  exact decide_eq_true (SameLetters.startsAs (of_decide_eq_true hother))

theorem FindsWhole.found {s p : Bytes} (h : ini.FindsWhole s p) : ini.found s p = ini.meant s p := by
  obtain ⟨hs, sec, t, hsec, ht, hst, hfirst⟩ := h
  have hnamed := namedSection_of_findSection hsec ht hst
  unfold Ini.found meant
  rw [upTo_eq hs, hsec, hnamed, behindSlash_of_not_mem hs, Option.bind_some, Option.bind_some]
  refine (find?_eq_of_first (fun q hq => ?_) fun q hq => ?_).symm
  · exact decide_eq_true (SameLetters.startsAs (of_decide_eq_true hq))
  · refine decide_eq_true (hfirst q.name ?_)
    unfold names
    rw [List.find?_map]
    exact congrArg (Option.map IniProperty.name) hq

theorem FindsNothing.found {s p : Bytes} (h : ini.FindsNothing s p) : ini.found s p = ini.meant s p := by
  have hfound : ini.found s p = none := by
    rw [Option.eq_none_iff_forall_ne_some]
    intro q hq
    obtain ⟨sec, hsec, hq⟩ := found_eq_some.mp hq
    obtain ⟨hmem, hstarts⟩ := of_find?_eq_some hq
    exact h.1 sec hsec q.name (List.mem_map_of_mem hmem) hstarts
  have hmeant : ini.meant s p = none := by
    rw [Option.eq_none_iff_forall_ne_some]
    intro q hq
    obtain ⟨sec, hsec, hq⟩ := meant_eq_some.mp hq
    obtain ⟨hmem, hsame⟩ := of_find?_eq_some hq
    exact h.2 sec hsec q.name (List.mem_map_of_mem hmem) hsame
  rw [hfound, hmeant]

theorem findsNothing_of_none {s p : Bytes} (hfound : ini.found s p = none) (hmeant : ini.meant s p = none) :
    ini.FindsNothing s p := by
  constructor
  · intro sec hsec t ht hstarts
    unfold Ini.found at hfound
    rw [hsec, Option.bind_some, List.find?_eq_none] at hfound
    obtain ⟨q, hq, rfl⟩ := List.mem_map.mp ht
    exact hfound q hq (decide_eq_true hstarts)
  · intro sec hsec t ht hsame
    unfold meant at hmeant
    rw [hsec, Option.bind_some, List.find?_eq_none] at hmeant
    obtain ⟨q, hq, rfl⟩ := List.mem_map.mp ht
    exact hmeant q hq (decide_eq_true hsame)

/-- A slash in `s` makes the name that is looked for too long. -/
theorem findsWhole_of_means {s p : Bytes} {q : IniProperty} (hfound : ini.found s p = some q)
    (hmeans : ini.Means s p q) : ini.FindsWhole s p := by
  obtain ⟨sec, hsec, hq⟩ := found_eq_some.mp hfound
  obtain ⟨hnamed, hname⟩ := hmeans
  obtain ⟨hmem, hstarts⟩ := of_find?_eq_some hq
  have hs : 47 ∉ s := by
    intro hs
    have hlong := length_behindSlash (p := p) hs
    have hle := StartsAs.length_le hstarts
    have hlen := SameLetters.length hname
    omega
  rw [upTo_eq hs] at hsec
  rw [behindSlash_of_not_mem hs] at hq
  rw [(mem_ofSection.mp hmem).2] at hnamed
  obtain ⟨hlt, hst, -⟩ := List.findIdx?_eq_some_iff_getElem.mp hnamed
  refine ⟨hs, sec, _, hsec, List.getElem?_eq_getElem hlt, of_decide_eq_true hst, fun t' ht' => ?_⟩
  unfold names at ht'
  rw [List.find?_map] at ht'
  have hq' : ((ini.ofSection sec).find? ((fun other => decide (StartsAs p other)) ∘ IniProperty.name)) = some q := hq
  rw [hq'] at ht'
  cases ht'
  exact hname

/-- Were the values to tell what is meant from what is not, the two would differ in them. -/
theorem LooksUp.names {s p : Bytes} (h : ini.LooksUp s p) : ini.FindsWhole s p ∨ ini.FindsNothing s p := by
  have hmark := h _ (sameNames_withValues fun q => if ini.Means s p q then [1] else [0])
    { ini := some _, file := fun _ => none, dir := fun _ => none } rfl
  rw [tryReadIni_slash rfl, namedValue_eq, found_withValues, meant_withValues] at hmark
  cases hfound : ini.found s p with
  | none =>
    rw [hfound, Option.map_none] at hmark
    exact .inr (findsNothing_of_none hfound (Option.map_eq_none_iff.mp hmark.symm))
  | some q =>
    cases hmeant : ini.meant s p with
    | none => rw [hfound, hmeant] at hmark; cases hmark
    | some q' =>
      rw [hfound, hmeant, Option.map_some, Option.map_some, if_pos (means_of_meant hmeant)] at hmark
      by_cases hq : ini.Means s p q
      · exact .inl (findsWhole_of_means hfound hq)
      · rw [if_neg hq] at hmark
        cases hmark

/-- A look-up agrees with the listing exactly where the first names that begin with the two parts of what is looked
for are those whole names, or nothing is there to be found by either. -/
theorem looksUp_iff (ini : Ini) (s p : Bytes) : ini.LooksUp s p ↔ ini.FindsWhole s p ∨ ini.FindsNothing s p := by
  refine ⟨LooksUp.names, fun h ini' hsame c hc => ?_⟩
  rw [tryReadIni_slash hc, namedValue_eq]
  rcases h with hwhole | hnothing
  · rw [(hwhole.sameNames hsame).found]
  · rw [(hnothing.sameNames hsame).found]

/-- The two properties of `raw-keymap` in the other order. -/
theorem tryReadIni_offset :
    let ini : Ini :=
      { sections := [[], ascii ['r', 'a', 'w', '-', 'k', 'e', 'y', 'm', 'a', 'p']]
        properties := [
          { sec := 1
            name := ascii ['o', 'f', 'f', 's', 'e', 't', '_', 'o', 'n', '_', 'e', 'x', 'p', 'l', 'i', 'c', 'i', 't']
            value := ascii ['n', 'o'] },
          { sec := 1, name := ascii ['o', 'f', 'f', 's', 'e', 't'], value := ascii ['8'] }] }
    let s := ascii ['r', 'a', 'w', '-', 'k', 'e', 'y', 'm', 'a', 'p']
    let p := ascii ['o', 'f', 'f', 's', 'e', 't']
    let c : Conf := { ini := some ini, file := fun _ => none, dir := fun _ => none }
    c.readFullSectionIni s = some (ini.listing 1) ∧ ini.namedSection s = some 1 ∧
      ini.namedValue s p = some (ascii ['8']) ∧ c.tryReadIni (s ++ 47 :: p) = some (ascii ['n', 'o']) := by
  decide

end Ini
end Waynergy
