import Waynergy.Lib.Decimal
import Mathlib.Data.List.Infix

/-!
# C strings

A C string is its bytes in front of the NUL. Strings are compared regardless of the case of their ASCII letters,
and `strtol` in base 0 takes the base from the front of the number, as for an integer constant.
-/

namespace Lib

/-- The bytes in front of a terminator. -/
def upTo (stop : UInt8) (bs : Bytes) : Bytes := bs.takeWhile (· ≠ stop)

theorem upTo_eq {stop : UInt8} {bs : Bytes} (h : stop ∉ bs) : upTo stop bs = bs :=
  List.takeWhile_eq_self_iff.mpr fun _ hb => decide_eq_true fun h0 => h (h0 ▸ hb)

def cString (bs : Bytes) : Bytes := upTo 0 bs

/-! ### Comparing -/

/-- `tolower` -/
def toLower (b : UInt8) : UInt8 := if 65 ≤ b.toNat ∧ b.toNat ≤ 90 then b + 32 else b

/-- `strcasecmp` finds no difference. -/
def SameLetters (s t : Bytes) : Prop := s.map toLower = t.map toLower

instance (s t : Bytes) : Decidable (SameLetters s t) := inferInstanceAs (Decidable (_ = _))

theorem SameLetters.refl (s : Bytes) : SameLetters s s := rfl

theorem SameLetters.symm {s t : Bytes} (h : SameLetters s t) : SameLetters t s := Eq.symm h

theorem SameLetters.trans {s t u : Bytes} (h : SameLetters s t) (h' : SameLetters t u) : SameLetters s u :=
  Eq.trans h h'

/-- `strncasecmp` finds no difference in as many bytes as `s` has. -/
def StartsAs (s t : Bytes) : Prop := SameLetters s (t.take s.length)

instance (s t : Bytes) : Decidable (StartsAs s t) := inferInstanceAs (Decidable (SameLetters _ _))

theorem startsAs_iff {s t : Bytes} : StartsAs s t ↔ s.map toLower <+: t.map toLower := by
  rw [List.prefix_iff_eq_take, List.length_map, ← List.map_take]
  exact Iff.rfl

instance : IsTrans Bytes StartsAs :=
  ⟨fun _ _ _ h h' => startsAs_iff.mpr ((startsAs_iff.mp h).trans (startsAs_iff.mp h'))⟩

theorem SameLetters.length {s t : Bytes} (h : SameLetters s t) : s.length = t.length := by
  have hmap : s.map toLower = t.map toLower := h
  simpa using congrArg List.length hmap

theorem SameLetters.startsAs {s t : Bytes} (h : SameLetters s t) : StartsAs s t := by
  have hmap : s.map toLower = t.map toLower := h
  rw [startsAs_iff, hmap]

theorem StartsAs.length_le {s t : Bytes} (h : StartsAs s t) : s.length ≤ t.length := by
  simpa using (startsAs_iff.mp h).length_le

theorem SameLetters.startsAs_iff {s t u : Bytes} (h : SameLetters s t) : StartsAs s u ↔ StartsAs t u := by
  have hmap : s.map toLower = t.map toLower := h
  rw [Lib.startsAs_iff, Lib.startsAs_iff, hmap]

/-! ### `strtol` in base 0 -/

def digitValue (b : UInt8) : Option Nat :=
  let c := b.toNat
  if 48 ≤ c ∧ c ≤ 57 then some (c - 48)
  else if 97 ≤ c ∧ c ≤ 122 then some (c - 87)
  else if 65 ≤ c ∧ c ≤ 90 then some (c - 55)
  else none

/-- The digits at the front. -/
def digits (base : Nat) : Bytes → List Nat
  | [] => []
  | b :: bs =>
    match digitValue b with
    | some d => if d < base then d :: digits base bs else []
    | none => []

/-- The base, and what is behind its prefix. A 0x in front of no digit is the number 0. -/
def radix : Bytes → Nat × Bytes
  | 48 :: x :: bs => if (x = 120 ∨ x = 88) ∧ digits 16 bs ≠ [] then (16, bs) else (8, 48 :: x :: bs)
  | 48 :: bs => (8, 48 :: bs)
  | bs => (10, bs)

/-- What `strtol` tells: the value, whether the end pointer moved, and whether `errno` is `ERANGE`. -/
structure Strtol where
  value : Int
  moved : Bool
  erange : Bool
deriving DecidableEq

def longMax : Int := 2 ^ 63 - 1

def longMin : Int := -2 ^ 63

/-- A sign, if there is one. -/
def signOf : Bytes → Int × Bytes
  | 45 :: bs => (-1, bs)
  | 43 :: bs => (1, bs)
  | bs => (1, bs)

def strtolBase0 (bs : Bytes) : Strtol :=
  let (sign, bs) := signOf (bs.dropWhile IsSpace)
  let (base, bs) := radix bs
  let ds := digits base bs
  let n := sign * (ds.foldl (fun n d => n * base + d) 0 : Nat)
  ⟨max longMin (min longMax n), ds ≠ [], n < longMin ∨ longMax < n⟩

/-- What `strtoul` tells. -/
structure Strtoul where
  value : Nat
  moved : Bool
  erange : Bool
deriving DecidableEq

def ulongMax : Nat := 2 ^ 64 - 1

/-- `strtoul` in base 0: a number behind a minus sign is negated in the unsigned type. -/
def strtoulBase0 (bs : Bytes) : Strtoul :=
  let (sign, bs) := signOf (bs.dropWhile IsSpace)
  let (base, bs) := radix bs
  let ds := digits base bs
  let n := ds.foldl (fun n d => n * base + d) 0
  ⟨if ulongMax < n then ulongMax else if sign = -1 then (2 ^ 64 - n) % 2 ^ 64 else n, ds ≠ [], ulongMax < n⟩

example : strtolBase0 (ascii ['0', 'x', '1', 'F', 'z']) = ⟨31, true, false⟩ := by decide

example : strtolBase0 (ascii ['o', 'f', 'f', 's', 'e', 't']) = ⟨0, false, false⟩ := by decide

/-! ### Reading what was printed -/

section
variable {rest : Bytes} {b : UInt8} {n : Nat}

theorem digitValue_of_isDigit (h : IsDigit b) : digitValue b = some (b.toNat - 48) := if_pos h

/-- Digits in front of what stops a number are all of it. -/
theorem digits_append {ds : Bytes} (hds : ∀ b ∈ ds, IsDigit b) (hrest : ∀ b ∈ rest.head?, digitValue b = none) :
    digits 10 (ds ++ rest) = ds.map fun b => b.toNat - 48 := by
  induction ds with
  | nil =>
    cases rest with
    | nil => rfl
    | cons b bs =>
      rw [List.nil_append, digits, hrest b rfl]
      rfl
  | cons d ds ih =>
    obtain ⟨hd, hds⟩ := List.forall_mem_cons.mp hds
    have hhigh := hd.2
    have hlt : d.toNat - 48 < 10 := by omega
    rw [List.cons_append, digits, digitValue_of_isDigit hd]
    dsimp only
    rw [if_pos hlt, ih hds, List.map_cons]

theorem dropWhile_space_of_isDigit {bs : Bytes} (h : IsDigit b) : (b :: bs).dropWhile IsSpace = b :: bs := by
  have hno : ¬ IsSpace b := fun hs => by
    unfold IsDigit IsSpace at *
    omega
  exact List.dropWhile_cons_of_neg (by simpa using hno)

theorem signOf_of_isDigit {bs : Bytes} (h : IsDigit b) : signOf (b :: bs) = (1, b :: bs) := by
  obtain ⟨hlow, -⟩ := h
  unfold signOf
  split
  · exact absurd hlow (by simp_all)
  · exact absurd hlow (by simp_all)
  · rfl

/-- `strtol` reads back what `%u` prints. -/
theorem strtolBase0_decimal (hrest : ∀ b ∈ rest.head?, digitValue b = none) (hn : (n : Int) ≤ longMax) :
    strtolBase0 (decimal n ++ rest) = ⟨n, true, false⟩ := by
  have hnum := numeral_decimal n
  have hclamp : max longMin (min longMax (n : Int)) = n := by
    unfold longMin longMax at *
    omega
  have hrange : ¬ ((n : Int) < longMin ∨ longMax < n) := by
    unfold longMin longMax at *
    omega
  by_cases h0 : n = 0
  · subst h0
    -- the base is 8, but there is no other digit
    cases rest with
    | nil => decide
    | cons b bs =>
      have hb : digitValue b = none := hrest b rfl
      have hx : ¬ (b = 120 ∨ b = 88) := by
        rintro (rfl | rfl) <;> cases hb
      have hradix : radix (48 :: b :: bs) = (8, 48 :: b :: bs) := by
        show (if (b = 120 ∨ b = 88) ∧ digits 16 bs ≠ [] then (16, bs) else (8, 48 :: b :: bs)) = _
        rw [if_neg fun h => hx h.1]
      have hdigits : digits 8 (48 :: b :: bs) = [0] := by
        have hzero : digitValue 48 = some 0 := rfl
        rw [digits, hzero]
        dsimp only
        rw [if_pos (by decide), digits, hb]
      show strtolBase0 (48 :: b :: bs) = _
      unfold strtolBase0
      rw [dropWhile_space_of_isDigit (by decide), signOf_of_isDigit (by decide)]
      dsimp only
      rw [hradix]
      dsimp only
      rw [hdigits]
      rfl
  · obtain ⟨d, ds, hd, hdigit⟩ := decimal_cons n
    have hne : d ≠ 48 := fun h => head_decimal n h0 (by rw [hd, h]; rfl)
    have hradix : radix (d :: (ds ++ rest)) = (10, d :: (ds ++ rest)) := by
      unfold radix
      split
      · simp_all
      · simp_all
      · rfl
    have hdigits : digits 10 (d :: (ds ++ rest)) = (d :: ds).map fun b => b.toNat - 48 := by
      rw [← List.cons_append]
      exact digits_append (by rw [← hd]; exact hnum.digits) hrest
    have hvalue : ((d :: ds).map fun b => b.toNat - 48).foldl (fun n d => n * 10 + d) 0 = n := by
      rw [List.foldl_map, ← hd]
      exact hnum.value
    have hmoved : (d :: ds).map (fun b => b.toNat - 48) ≠ [] := List.map_eq_nil_iff.not.mpr (List.cons_ne_nil d ds)
    rw [hd, List.cons_append]
    unfold strtolBase0
    rw [dropWhile_space_of_isDigit hdigit, signOf_of_isDigit hdigit]
    dsimp only
    rw [hradix]
    dsimp only
    rw [hdigits, hvalue, one_mul, hclamp, decide_eq_false hrange, decide_eq_true hmoved]

end

end Lib
