import Waynergy.ConfigFile

/-!
# Parsing an INI (`ini.h`)

`ini_load` takes comments, headers and properties from the front of the data; what is none of them it skips. A length
that is not positive stands for all of the string, so that an empty name or value is what follows to the end of the
data. There are no empty names then but that of the global section.
-/

namespace Waynergy
open Lib

/-- `*ptr <= ' '`, for a `char` with a sign. -/
def Blank (b : UInt8) : Bool := b.toNat ≤ 32 ∨ 128 ≤ b.toNat

/-- The string for a length: all of it, if there is none. -/
def ofLength (name rest : Bytes) : Bytes := if name = [] then rest else name

namespace Ini

def create : Ini := ⟨[[]], []⟩

def sectionAdd (ini : Ini) (name : Bytes) : Ini := { ini with sections := ini.sections ++ [name] }

def propertyAdd (ini : Ini) (sec : Nat) (name value : Bytes) : Ini :=
  { ini with properties := ini.properties ++ [⟨sec, name, value⟩] }

/-- Behind the equals sign. Blanks are trimmed from the end of the line, and with an empty value so are those in
front of it. -/
def loadValue (ini : Ini) (s : Nat) (name data : Bytes) : Ini × Bytes :=
  let start := data.dropWhile fun b => Blank b ∧ b ≠ 10
  let value := ((start.takeWhile (· ≠ 10)).reverse.dropWhile Blank).reverse
  (ini.propertyAdd s name (ofLength value start), if value = [] then data else start.drop value.length)

/-- One round of the loop, from a byte that is not blank: the INI, the section for what follows, and the data
behind. -/
def loadOne (ini : Ini) (s : Nat) (c : UInt8) (data : Bytes) : Ini × Nat × Bytes :=
  if c = 59 then (ini, s, data.dropWhile (· ≠ 10))
  else if c = 91 then
    match data.dropWhile fun b => b ≠ 93 ∧ b ≠ 10 with
    | 93 :: rest =>
      (ini.sectionAdd (ofLength (data.takeWhile fun b => b ≠ 93 ∧ b ≠ 10) data), ini.sections.length, rest)
    | rest => (ini, s, rest)
  else
    match (c :: data).dropWhile fun b => b ≠ 61 ∧ b ≠ 10 with
    | 61 :: rest =>
      let name := ofLength ((c :: data).takeWhile fun b => b ≠ 61 ∧ b ≠ 10) (c :: data)
      ((ini.loadValue s name rest).1, s, (ini.loadValue s name rest).2)
    | rest => (ini, s, rest)

theorem length_loadValue (ini : Ini) (s : Nat) (name data : Bytes) :
    (ini.loadValue s name data).2.length ≤ data.length := by
  unfold loadValue
  dsimp only
  split
  · exact Nat.le_refl _
  · rw [List.length_drop]
    have hle := List.length_dropWhile_le (fun b => decide (Blank b ∧ b ≠ 10)) data
    omega

theorem length_loadOne (ini : Ini) (s : Nat) {c : UInt8} (hc : c ≠ 10) (data : Bytes) :
    (ini.loadOne s c data).2.2.length ≤ data.length := by
  unfold loadOne
  split
  · exact List.length_dropWhile_le _ _
  split
  · have hle := List.length_dropWhile_le (fun b => decide (b ≠ 93 ∧ b ≠ 10)) data
    split
    next rest heq =>
      rw [heq, List.length_cons] at hle
      exact Nat.le_of_succ_le hle
    next => exact hle
  · by_cases h61 : c = 61
    · subst h61
      rw [List.dropWhile_cons_of_neg (by decide)]
      split
      next rest heq =>
        cases heq
        dsimp only
        exact length_loadValue _ _ _ _
      next hnot => exact absurd rfl (hnot data)
    · rw [List.dropWhile_cons_of_pos (by simp [h61, hc])]
      have hle := List.length_dropWhile_le (fun b => decide (b ≠ 61 ∧ b ≠ 10)) data
      split
      next rest heq =>
        rw [heq, List.length_cons] at hle
        dsimp only
        exact Nat.le_trans (length_loadValue _ _ _ _) (Nat.le_of_succ_le hle)
      next => exact hle

theorem not_blank_of_dropWhile {data rest : Bytes} {c : UInt8} (h : data.dropWhile Blank = c :: rest) :
    Blank c = false := by
  have hne : data.dropWhile Blank ≠ [] := by
    rw [h]
    exact List.cons_ne_nil c rest
  have hhead := List.head_dropWhile_not Blank hne
  simpa [h] using hhead

def loadFrom (ini : Ini) (s : Nat) (data : Bytes) : Ini :=
  match _h : data.dropWhile Blank with
  | [] => ini
  | c :: rest => loadFrom (ini.loadOne s c rest).1 (ini.loadOne s c rest).2.1 (ini.loadOne s c rest).2.2
termination_by data.length
decreasing_by
  have hc : c ≠ 10 := by
    rintro rfl
    cases not_blank_of_dropWhile _h
  have hle := length_loadOne ini s hc rest
  have hdrop := List.length_dropWhile_le Blank data
  rw [_h, List.length_cons] at hdrop
  omega

theorem loadFrom_nil (ini : Ini) (s : Nat) {data : Bytes} (h : data.dropWhile Blank = []) :
    ini.loadFrom s data = ini := by
  rw [loadFrom]
  split
  next => rfl
  next heq => cases h.symm.trans heq

theorem loadFrom_cons (ini : Ini) (s : Nat) {data rest : Bytes} {c : UInt8} (h : data.dropWhile Blank = c :: rest) :
    ini.loadFrom s data =
      (ini.loadOne s c rest).1.loadFrom (ini.loadOne s c rest).2.1 (ini.loadOne s c rest).2.2 := by
  rw [loadFrom]
  split
  next heq => cases h.symm.trans heq
  next heq =>
    obtain ⟨rfl, rfl⟩ := List.cons.inj (heq.symm.trans h)
    rfl

/-- Without data there is nothing in it. -/
def load : Option Bytes → Ini
  | none => create
  | some data => create.loadFrom 0 (cString data)

/-! ### What is parsed -/

/-- The global section is the first one and the only one without a name, each property has a name, and it is in a
section that there is. -/
structure Parsed (ini : Ini) : Prop where
  sections : ∃ others, ini.sections = [] :: others ∧ ∀ name ∈ others, name ≠ []
  named : ∀ q ∈ ini.properties, q.name ≠ []
  inSections : ∀ q ∈ ini.properties, q.sec < ini.sections.length

variable {ini : Ini} {s : Nat} {name value : Bytes}

theorem Parsed.pos (h : ini.Parsed) : 0 < ini.sections.length := by
  obtain ⟨others, hothers, -⟩ := h.sections
  rw [hothers]
  exact Nat.succ_pos _

theorem Parsed.sectionAdd (h : ini.Parsed) (hname : name ≠ []) : (ini.sectionAdd name).Parsed := by
  obtain ⟨others, hothers, hne⟩ := h.sections
  refine ⟨⟨others ++ [name], ?_, fun other hother => ?_⟩, h.named, fun q hq => ?_⟩
  · unfold Ini.sectionAdd
    rw [hothers]
    rfl
  · rcases List.mem_append.mp hother with hother | hother
    · exact hne other hother
    · rwa [List.mem_singleton.mp hother]
  · have hlt := h.inSections q hq
    unfold Ini.sectionAdd
    rw [List.length_append, List.length_singleton]
    exact Nat.lt_succ_of_lt hlt

theorem Parsed.propertyAdd (h : ini.Parsed) (hname : name ≠ []) (hs : s < ini.sections.length) :
    (ini.propertyAdd s name value).Parsed := by
  refine ⟨h.sections, fun q hq => ?_, fun q hq => ?_⟩
  · rcases List.mem_append.mp hq with hq | hq
    · exact h.named q hq
    · rwa [List.mem_singleton.mp hq]
  · rcases List.mem_append.mp hq with hq | hq
    · exact h.inSections q hq
    · rwa [List.mem_singleton.mp hq]

theorem ofLength_ne_nil {rest : Bytes} (h : rest ≠ []) : ofLength name rest ≠ [] := by
  unfold ofLength
  split
  · exact h
  next hname => exact hname

theorem Parsed.loadOne (h : ini.Parsed) (hs : s < ini.sections.length) (c : UInt8) (data : Bytes) :
    (ini.loadOne s c data).1.Parsed ∧ (ini.loadOne s c data).2.1 < (ini.loadOne s c data).1.sections.length := by
  unfold Ini.loadOne
  split
  · exact ⟨h, hs⟩
  split
  · split
    next rest heq =>
      have hdata : data ≠ [] := by
        rintro rfl
        cases heq
      refine ⟨h.sectionAdd (ofLength_ne_nil hdata), ?_⟩
      unfold Ini.sectionAdd
      rw [List.length_append, List.length_singleton]
      exact Nat.lt_succ_self _
    next => exact ⟨h, hs⟩
  · split
    next rest heq => exact ⟨h.propertyAdd (ofLength_ne_nil (List.cons_ne_nil c data)) hs, hs⟩
    next => exact ⟨h, hs⟩

theorem Parsed.loadFrom (h : ini.Parsed) (hs : s < ini.sections.length) (data : Bytes) :
    (ini.loadFrom s data).Parsed := by
  fun_induction Ini.loadFrom ini s data with
  | case1 ini s data hdata => exact h
  | case2 ini s data c rest hdata ih => exact ih (h.loadOne hs c rest).1 (h.loadOne hs c rest).2

theorem parsed_load (data : Option Bytes) : (load data).Parsed := by
  have hcreate : create.Parsed := by
    refine ⟨⟨[], rfl, fun name hname => ?_⟩, fun q hq => ?_, fun q hq => ?_⟩ <;> contradiction
  cases data with
  | none => exact hcreate
  | some data => exact hcreate.loadFrom hcreate.pos _

end Ini
end Waynergy
