import Waynergy.IniMerge
import Mathlib.Data.Finset.Card
import Mathlib.Data.List.Dedup

/-!
# What the INIs say

The lines of the INIs, one after another, give values to names; what was said last holds. A table keeps what was said
as long as each name that is looked up on the way finds no longer one in front, and the text that is replaced can be.
-/

namespace Waynergy
open Lib

/-! ### Settings -/

namespace IniSetting
variable {V W : Type}

def map (f : V → W) (q : IniSetting V) : IniSetting W := ⟨q.sec, q.name, f q.value⟩

/-- The whole names are these. -/
def Is (q : IniSetting V) (s p : Bytes) : Prop := SameLetters s q.sec ∧ SameLetters p q.name

instance (q : IniSetting V) (s p : Bytes) : Decidable (q.Is s p) := inferInstanceAs (Decidable (_ ∧ _))

def key (q : IniSetting V) : Bytes × Bytes := (q.sec.map toLower, q.name.map toLower)

theorem is_iff_key {q : IniSetting V} {s p : Bytes} : q.Is s p ↔ (s.map toLower, p.map toLower) = q.key :=
  Prod.mk.injEq .. ▸ Iff.rfl

end IniSetting

section
variable {V W : Type} {qs : List (IniSetting V)} {q : IniSetting V} {s p : Bytes}

/-- The value that the names were given last. -/
def lastValue (qs : List (IniSetting V)) (s p : Bytes) : Option V :=
  (qs.reverse.find? fun q => q.Is s p).map IniSetting.value

theorem lastValue_append (qs qs' : List (IniSetting V)) (s p : Bytes) :
    lastValue (qs ++ qs') s p = (lastValue qs' s p).or (lastValue qs s p) := by
  unfold lastValue
  rw [List.reverse_append, List.find?_append, Option.map_or]

theorem lastValue_concat (qs : List (IniSetting V)) (q : IniSetting V) (s p : Bytes) :
    lastValue (qs ++ [q]) s p = if q.Is s p then some q.value else lastValue qs s p := by
  rw [lastValue_append]
  by_cases h : q.Is s p <;> simp [lastValue, h]

theorem lastValue_eq_none : lastValue qs s p = none ↔ ∀ q ∈ qs, ¬ q.Is s p := by
  unfold lastValue
  rw [Option.map_eq_none_iff, List.find?_eq_none]
  simp

theorem lastValue_map (f : V → W) (qs : List (IniSetting V)) (s p : Bytes) :
    lastValue (qs.map (IniSetting.map f)) s p = (lastValue qs s p).map f := by
  unfold lastValue
  rw [← List.map_reverse, List.find?_map, Option.map_map, Option.map_map]
  rfl

end

/-! ### What was said -/

structure IniSaid (V : Type) where
  sections : List Bytes
  settings : List (IniSetting V)

namespace IniLine
variable {V W : Type}

def map (f : V → W) : IniLine V → IniLine W
  | header s => header s
  | property q => property (q.map f)

end IniLine

/-- A name finds no longer one in front of it. -/
def FoundWhole (l : List Bytes) (x : Bytes) : Prop :=
  ∀ y, l.find? (fun other => StartsAs x other) = some y → SameLetters x y

instance (l : List Bytes) (x : Bytes) : Decidable (FoundWhole l x) :=
  decidable_of_iff (((l.find? fun other => StartsAs x other).all fun y => SameLetters x y) = true) <| by
    unfold FoundWhole
    cases l.find? (fun other => StartsAs x other) <;> simp

namespace IniSaid
variable {V W : Type}

def map (f : V → W) (d : IniSaid V) : IniSaid W := ⟨d.sections, d.settings.map (IniSetting.map f)⟩

def add (d : IniSaid V) : IniLine V → IniSaid V
  | .header s => { d with sections := d.sections ++ [s] }
  | .property q => ⟨d.sections ++ [q.sec], d.settings ++ [q]⟩

/-- The names that were said in a section. -/
def names (d : IniSaid V) (s : Bytes) : List Bytes :=
  (d.settings.filter fun q => SameLetters s q.sec).map IniSetting.name

/-- How many properties have different names. -/
def count (d : IniSaid V) : Nat := (d.settings.map IniSetting.key).toFinset.card

/-- The next setting is merged as it should: its two names are found whole, a long text is not replaced by a short
one, and nothing is replaced while the table, which starts with 256 entries and doubles, is full. Of the values it
matters whether they are long. -/
structure MergesWhole (d : IniSaid Bool) (q : IniSetting Bool) : Prop where
  sec : FoundWhole d.sections q.sec
  name : FoundWhole (d.names q.sec) q.name
  long : lastValue d.settings q.sec q.name = some true → q.value = true
  room : lastValue d.settings q.sec q.name ≠ none → ∀ k, d.count ≠ 256 * 2 ^ k

def MergesCleanly : IniSaid Bool → List (IniLine Bool) → Prop
  | _, [] => True
  | d, .header s :: ls => (d.add (.header s)).MergesCleanly ls
  | d, .property q :: ls => d.MergesWhole q ∧ (d.add (.property q)).MergesCleanly ls

theorem map_add (f : V → W) (d : IniSaid V) (l : IniLine V) : (d.add l).map f = (d.map f).add (l.map f) := by
  cases l with
  | header s => rfl
  | property q =>
    change IniSaid.mk _ ((d.settings ++ [q]).map _) = IniSaid.mk _ (d.settings.map _ ++ [q.map f])
    rw [List.map_append]
    rfl

theorem names_map (f : V → W) (d : IniSaid V) (s : Bytes) : (d.map f).names s = d.names s := by
  unfold names map
  rw [List.filter_map, List.map_map]
  rfl

theorem count_map (f : V → W) (d : IniSaid V) : (d.map f).count = d.count := by
  unfold count map
  rw [List.map_map]
  rfl

theorem names_property (d : IniSaid V) (q : IniSetting V) (s : Bytes) :
    (d.add (.property q)).names s = if SameLetters s q.sec then d.names s ++ [q.name] else d.names s := by
  unfold names add
  dsimp only
  rw [List.filter_append, List.map_append]
  by_cases h : SameLetters s q.sec <;> simp [h]

theorem mem_keys_iff {d : IniSaid V} {q : IniSetting V} :
    q.key ∈ d.settings.map IniSetting.key ↔ lastValue d.settings q.sec q.name ≠ none := by
  simp only [Ne, lastValue_eq_none, not_forall, not_not, exists_prop, List.mem_map]
  constructor
  · rintro ⟨q', hq', hkey⟩
    exact ⟨q', hq', IniSetting.is_iff_key.mpr hkey.symm⟩
  · rintro ⟨q', hq', his⟩
    exact ⟨q', hq', (IniSetting.is_iff_key.mp his).symm⟩

theorem count_property (d : IniSaid V) (q : IniSetting V) : (d.add (.property q)).count =
    if lastValue d.settings q.sec q.name = none then d.count + 1 else d.count := by
  unfold count add
  dsimp only
  rw [List.map_append, List.map_singleton, List.toFinset_append, Finset.union_comm, List.toFinset_cons,
    List.toFinset_nil, insert_empty_eq, ← Finset.insert_eq]
  split
  next h => exact Finset.card_insert_of_notMem fun hmem => mem_keys_iff.mp (List.mem_toFinset.mp hmem) h
  next h => rw [Finset.insert_eq_of_mem (List.mem_toFinset.mpr (mem_keys_iff.mpr h))]

end IniSaid
end Waynergy
