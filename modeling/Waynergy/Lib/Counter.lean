import Waynergy.Lib.Bytes

/-!
# Counters that wrap

A counter of `w` bits shows a number modulo `2 ^ w`. Of two numbers it tells the difference modulo `2 ^ w` only, and
read as a two's complement number this is the difference itself if that is in the range of such numbers, wherever
the counter wrapped between the two.
-/

namespace Lib
variable {w : Nat}

/-- What a counter of `w` bits shows of `n`. -/
def counter (w : Nat) (n : Int) : Nat := (n % 2 ^ w).toNat

theorem counter_eq (w : Nat) (n : Int) : (counter w n : Int) = n % 2 ^ w :=
  Int.toNat_of_nonneg (Int.emod_nonneg n (Int.pow_pos (by decide)).ne')

theorem counter_lt (w : Nat) (n : Int) : counter w n < 2 ^ w := by
  have hlt : n % 2 ^ w < 2 ^ w := Int.emod_lt_of_pos n (Int.pow_pos (by decide))
  rw [← counter_eq] at hlt
  exact_mod_cast hlt

/-- A two's complement number is the balanced remainder. -/
theorem signed_eq_bmod (hw : 0 < w) (n : Nat) : signed w n = Int.bmod n (2 ^ w) := by
  obtain ⟨k, rfl⟩ : ∃ k, w = k + 1 := ⟨w - 1, by omega⟩
  have hhalf : (2 ^ (k + 1) + 1) / 2 = 2 ^ k := by rw [Nat.pow_succ]; omega
  unfold signed Int.bmod
  rw [Nat.add_sub_cancel]
  push_cast
  norm_cast
  rw [hhalf]

/-- How far `now` is behind `last`: the difference of the two words, as a two's complement number. -/
def distance (w now last : Nat) : Int := signed w (now + (2 ^ w - last % 2 ^ w))

/-- Of two numbers, their words tell the balanced remainder of the difference. -/
theorem distance_counter (hw : 0 < w) (m n : Int) :
    distance w (counter w n) (counter w m) = Int.bmod (n - m) (2 ^ w) := by
  have hlt := counter_lt w m
  have hwords : ((counter w n + (2 ^ w - counter w m % 2 ^ w) : Nat) : Int) =
      n % (2 ^ w : Nat) - m % (2 ^ w : Nat) + (2 ^ w : Nat) := by
    rw [Nat.mod_eq_of_lt hlt, Nat.cast_add, Nat.cast_sub hlt.le, counter_eq, counter_eq, Nat.cast_pow, Nat.cast_ofNat]
    omega
  rw [distance, signed_eq_bmod hw, hwords, Int.add_bmod_right, Int.emod_sub_bmod, Int.sub_emod_bmod]

/-- The words tell the difference itself if it is in the range of two's complement numbers. -/
theorem distance_counter_of_lt {m n : Int} (hle : m ≤ n) (hlt : 2 * (n - m) < 2 ^ w) (hw : 0 < w) :
    distance w (counter w n) (counter w m) = n - m := by
  rw [distance_counter hw]
  refine Int.bmod_eq_of_le_mul_two ?_ ?_
  · push_cast
    have : (0 : Int) < 2 ^ w := Int.pow_pos (by decide)
    omega
  · push_cast
    omega

end Lib
