import Waynergy.Lib.Bytes
import Mathlib.Data.List.TakeWhile

/-!
# Decimal numbers

Printing an unsigned number in decimal, and `atoi`: leading white space, an optional sign and the
digits after it; everything that follows is ignored. As in the C library, the number is read as a
`long`, which saturates, and then cut down to an `int`.
-/

namespace Lib

def digit (d : Nat) : UInt8 := UInt8.ofNat (48 + d)

def IsDigit (b : UInt8) : Prop := 48 ≤ b.toNat ∧ b.toNat ≤ 57

instance (b : UInt8) : Decidable (IsDigit b) := inferInstanceAs (Decidable (_ ∧ _))

/-- The digits of `n` in front of `acc`; `fuel` bounds their number. -/
def decimalAux : Nat → Nat → Bytes → Bytes
  | 0, _, acc => acc
  | fuel + 1, n, acc =>
    if n / 10 = 0 then digit (n % 10) :: acc else decimalAux fuel (n / 10) (digit (n % 10) :: acc)

/-- `%u` -/
def decimal (n : Nat) : Bytes := decimalAux (n + 1) n []

/-- The number that a string of digits spells after the digits of `n`. -/
def ofDecimal (n : Nat) (bs : Bytes) : Nat := bs.foldl (fun n b => n * 10 + (b.toNat - 48)) n

def IsSpace (b : UInt8) : Prop := b.toNat = 32 ∨ 9 ≤ b.toNat ∧ b.toNat ≤ 13

instance (b : UInt8) : Decidable (IsSpace b) := inferInstanceAs (Decidable (_ ∨ _))

/-- The value of the digits at the front. -/
def leadingValue (bs : Bytes) : Nat := ofDecimal 0 (bs.takeWhile IsDigit)

/-- `strtol` in base 10. -/
def strtol (bs : Bytes) : Int :=
  match bs.dropWhile IsSpace with
  | 45 :: bs => max (-leadingValue bs) (-2 ^ 63)
  | 43 :: bs => min (leadingValue bs) (2 ^ 63 - 1)
  | bs => min (leadingValue bs) (2 ^ 63 - 1)

def atoi (bs : Bytes) : Int := signed 32 (strtol bs % 2 ^ 32).toNat

theorem atoi_lt (bs : Bytes) : atoi bs < 2 ^ 31 := by
  unfold atoi signed
  split <;> omega

theorem toNat_digit (n : Nat) : (digit (n % 10)).toNat = 48 + n % 10 := by
  rw [digit, UInt8.toNat_ofNat']; omega

theorem isDigit_digit (n : Nat) : IsDigit (digit (n % 10)) := by
  rw [IsDigit, toNat_digit]; omega

theorem isDigit_decimalAux : ∀ (fuel n : Nat) (acc : Bytes), (∀ b ∈ acc, IsDigit b) →
    ∀ b ∈ decimalAux fuel n acc, IsDigit b
  | 0, _, _, h => h
  | fuel + 1, n, acc, h => by
    have hcons : ∀ b ∈ digit (n % 10) :: acc, IsDigit b := by
      intro b hb
      rcases List.mem_cons.mp hb with rfl | hb
      exacts [isDigit_digit n, h b hb]
    rw [decimalAux]
    split
    exacts [hcons, isDigit_decimalAux fuel _ _ hcons]

theorem ofDecimal_decimalAux : ∀ (fuel n : Nat) (acc : Bytes), n < fuel →
    ofDecimal 0 (decimalAux fuel n acc) = ofDecimal n acc
  | 0, _, _, h => absurd h (Nat.not_lt_zero _)
  | fuel + 1, n, acc, h => by
    have hcons : ofDecimal (n / 10) (digit (n % 10) :: acc) = ofDecimal n acc := by
      rw [ofDecimal, List.foldl_cons, toNat_digit, Nat.add_sub_cancel_left]
      congr 1
      omega
    rw [decimalAux]
    split
    · rename_i h0; rw [← hcons, h0]
    · rw [ofDecimal_decimalAux fuel (n / 10) _ (by omega), hcons]

theorem length_decimalAux : ∀ (fuel n : Nat) (acc : Bytes) (k : Nat), n < 10 ^ (k + 1) →
    (decimalAux fuel n acc).length ≤ acc.length + (k + 1)
  | 0, _, _, _, _ => by simp [decimalAux]
  | fuel + 1, n, acc, k, h => by
    rw [decimalAux]
    split
    · simp
    · rename_i h0
      match k with
      | 0 => omega
      | k + 1 =>
        have := length_decimalAux fuel (n / 10) (digit (n % 10) :: acc) k (by
          rw [Nat.pow_succ] at h; exact (Nat.div_lt_iff_lt_mul (by omega)).mpr h)
        simpa [Nat.add_assoc, Nat.add_comm 1] using this

/-- What is in front of the digits does not depend on what is behind them, nor on the fuel. -/
theorem decimalAux_eq (fuel n : Nat) (acc : Bytes) (h : n < fuel) : decimalAux fuel n acc = decimal n ++ acc := by
  induction n using Nat.strong_induction_on generalizing fuel acc with
  | _ n ih =>
    obtain ⟨fuel, rfl⟩ : ∃ k, fuel = k + 1 := ⟨fuel - 1, by omega⟩
    rw [decimal, decimalAux, decimalAux]
    split
    · rfl
    · rw [ih (n / 10) (by omega) fuel _ (by omega), ih (n / 10) (by omega) n _ (by omega), List.append_assoc,
        List.singleton_append]

/-- The last digit, and those in front of it. -/
theorem decimal_eq (n : Nat) :
    decimal n = (if n / 10 = 0 then [] else decimal (n / 10)) ++ [digit (n % 10)] := by
  rw [decimal, decimalAux]
  split
  · rfl
  · exact decimalAux_eq n (n / 10) _ (by omega)

/-- `bs` is `n` in decimal, without leading zeros. -/
structure Numeral (n : Nat) (bs : Bytes) : Prop where
  digits : ∀ b ∈ bs, IsDigit b
  value : ofDecimal 0 bs = n
  ne_nil : bs ≠ []
  leading : bs.head? = some 48 → bs = [48]

theorem head_decimal (n : Nat) : n ≠ 0 → (decimal n).head? ≠ some 48 := by
  induction n using Nat.strong_induction_on with
  | _ n ih =>
    intro hn
    rw [decimal_eq]
    split
    · intro h
      have hdigit : digit (n % 10) = 48 := Option.some.inj h
      have := toNat_digit n
      rw [hdigit] at this
      have h48 : (48 : UInt8).toNat = 48 := rfl
      omega
    · rename_i h0
      have hhead := ih (n / 10) (by omega) h0
      cases hd : decimal (n / 10) with
      | nil =>
        rw [decimal_eq] at hd
        exact absurd (List.append_eq_nil_iff.mp hd).2 (List.cons_ne_nil _ _)
      | cons b bs =>
        rw [hd] at hhead
        exact hhead

theorem numeral_decimal (n : Nat) : Numeral n (decimal n) := by
  refine ⟨isDigit_decimalAux _ _ _ (List.forall_mem_nil _), ofDecimal_decimalAux _ _ _ (Nat.lt_succ_self n), ?_, ?_⟩
  · rw [decimal_eq]
    exact List.append_ne_nil_of_right_ne_nil _ (List.cons_ne_nil _ _)
  · intro h
    by_cases hn : n = 0
    · subst hn
      rfl
    · exact absurd h (head_decimal n hn)

theorem decimal_cons (n : Nat) : ∃ d ds, decimal n = d :: ds ∧ IsDigit d := by
  have hnum := numeral_decimal n
  cases hd : decimal n with
  | nil => exact absurd hd hnum.ne_nil
  | cons d ds =>
    rw [hd] at hnum
    exact ⟨d, ds, rfl, hnum.digits d List.mem_cons_self⟩

/-- A 32-bit number has at most ten digits. -/
theorem length_decimal_le {n : Nat} (h : n < 2 ^ 32) : (decimal n).length ≤ 10 := by
  have := length_decimalAux (n + 1) n [] 9 (by omega)
  simpa [decimal] using this

theorem atoi_decimal {n : Nat} (h : n < 2 ^ 31) : atoi (decimal n) = n := by
  have hdig : ∀ b ∈ decimal n, IsDigit b := isDigit_decimalAux _ _ _ (by simp)
  have hval : leadingValue (decimal n) = n := by
    have hall : (decimal n).takeWhile IsDigit = decimal n :=
      List.takeWhile_eq_self_iff.mpr fun b hb => decide_eq_true (hdig b hb)
    rw [leadingValue, hall, decimal, ofDecimal_decimalAux _ _ _ (Nat.lt_succ_self n)]; rfl
  have hspace : (decimal n).dropWhile IsSpace = decimal n := by
    cases hd : decimal n with
    | nil => rfl
    | cons b bs =>
      have hb := hdig b (by rw [hd]; simp)
      have : ¬ IsSpace b := fun hs => by unfold IsDigit IsSpace at *; omega
      rw [List.dropWhile_cons_of_neg (by simpa using this)]
  have hstrtol : strtol (decimal n) = n := by
    unfold strtol
    rw [hspace]
    split
    · rename_i bs hbs
      have := hdig 45 (by rw [hbs]; simp)
      exact absurd this.1 (by decide)
    · rename_i bs hbs
      have := hdig 43 (by rw [hbs]; simp)
      exact absurd this.1 (by decide)
    · rw [hval]; omega
  have hmod : ((n : Int) % 2 ^ 32).toNat = n := by omega
  rw [atoi, hstrtol, hmod, signed, Nat.mod_eq_of_lt (by omega), if_pos (by omega)]

end Lib
