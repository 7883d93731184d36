import Mathlib.Algebra.Order.Ring.Int
import Mathlib.Data.List.Basic

/-!
# Byte strings

Big-endian numbers, and overwriting a stretch of a byte string in place. The bytes of a fixed array
are a `Buf n`, which carries its length, so an overwrite has to show that it stays inside the array.
-/

namespace Lib

abbrev Bytes := List UInt8

/-- The bytes of an ASCII text. -/
def ascii (text : List Char) : Bytes := text.map fun c => UInt8.ofNat c.toNat

/-! ### Big-endian numbers -/

/-- The number whose base-256 digits are `bs`, most significant first. -/
def beNat (bs : Bytes) : Nat := bs.foldl (fun n b => n * 256 + b.toNat) 0

def be16 (n : Nat) : Bytes := [UInt8.ofNat (n / 256), UInt8.ofNat n]

def be32 (n : Nat) : Bytes :=
  [UInt8.ofNat (n / 16777216), UInt8.ofNat (n / 65536), UInt8.ofNat (n / 256), UInt8.ofNat n]

@[simp] theorem length_be16 (n : Nat) : (be16 n).length = 2 := rfl

@[simp] theorem length_be32 (n : Nat) : (be32 n).length = 4 := rfl

theorem beNat_foldl (bs : Bytes) (n : Nat) :
    bs.foldl (fun n b => n * 256 + b.toNat) n = n * 256 ^ bs.length + beNat bs := by
  induction bs generalizing n with
  | nil => simp [beNat]
  | cons b bs ih =>
    simp only [beNat, List.foldl_cons, List.length_cons]
    rw [ih, ih (0 * 256 + b.toNat), Nat.pow_succ, Nat.add_mul, Nat.mul_assoc, Nat.mul_comm 256,
      Nat.zero_mul, Nat.zero_add]
    omega

theorem beNat_cons (b : UInt8) (bs : Bytes) :
    beNat (b :: bs) = b.toNat * 256 ^ bs.length + beNat bs := by
  rw [beNat, List.foldl_cons, beNat_foldl]; simp

@[simp] theorem beNat_nil : beNat [] = 0 := rfl

theorem beNat_lt (bs : Bytes) : beNat bs < 256 ^ bs.length := by
  induction bs with
  | nil => simp
  | cons b bs ih =>
    rw [beNat_cons, List.length_cons, Nat.pow_succ]
    have hb : b.toNat + 1 ≤ 256 := b.toNat_lt
    have := Nat.mul_le_mul_right (256 ^ bs.length) hb
    rw [Nat.add_mul] at this
    omega

@[simp] theorem beNat_be16 {n : Nat} (h : n < 2 ^ 16) : beNat (be16 n) = n := by
  simp [be16, beNat]; omega

@[simp] theorem beNat_be32 {n : Nat} (h : n < 2 ^ 32) : beNat (be32 n) = n := by
  simp [be32, beNat]; omega

theorem beNat_four (a b c d : UInt8) : beNat [a, b, c, d] =
    a.toNat * 16777216 + b.toNat * 65536 + c.toNat * 256 + d.toNat := by
  simp [beNat]; omega

theorem be32_beNat {bs : Bytes} (h : bs.length = 4) : be32 (beNat bs) = bs := by
  match bs, h with
  | [a, b, c, d], _ =>
    have ha := a.toNat_lt
    have hb := b.toNat_lt
    have hc := c.toNat_lt
    have hd := d.toNat_lt
    rw [beNat_four]
    simp only [be32, List.cons.injEq, and_true]
    refine ⟨?_, ?_, ?_, ?_⟩ <;> (apply UInt8.toNat_inj.mp; simp only [UInt8.toNat_ofNat']; omega)

/-- The two's complement number that the low `w` bits of `n` spell. -/
def signed (w n : Nat) : Int :=
  if n % 2 ^ w < 2 ^ (w - 1) then ((n % 2 ^ w : Nat) : Int) else ((n % 2 ^ w : Nat) : Int) - 2 ^ w

/-! ### Stretches of a byte string -/

/-- The `n` bytes of `bs` from offset `i`. -/
def slice (bs : Bytes) (i n : Nat) : Bytes := (bs.drop i).take n

theorem length_slice {bs : Bytes} {i n : Nat} (h : i + n ≤ bs.length) : (slice bs i n).length = n := by
  simp [slice]; omega

/-- `bs` with the bytes from offset `i` replaced by `v`. -/
def overwrite (bs : Bytes) (i : Nat) (v : Bytes) : Bytes := bs.take i ++ v ++ bs.drop (i + v.length)

theorem length_overwrite {bs v : Bytes} {i : Nat} (h : i + v.length ≤ bs.length) :
    (overwrite bs i v).length = bs.length := by
  simp [overwrite]; omega

theorem take_overwrite {bs v : Bytes} {i : Nat} (h : i ≤ bs.length) :
    (overwrite bs i v).take (i + v.length) = bs.take i ++ v := by
  rw [overwrite, List.take_append_of_le_length (by simp; omega), List.take_of_length_le]
  rw [List.length_append, List.length_take]
  omega

theorem overwrite_zero (bs v : Bytes) : overwrite bs 0 v = v ++ bs.drop v.length := by
  simp [overwrite]

theorem overwrite_nil (bs : Bytes) (i : Nat) : overwrite bs i [] = bs := by
  simp [overwrite]

/-- One stretch, and then the one behind it. -/
theorem overwrite_append {bs v : Bytes} {i : Nat} (w : Bytes) (h : i + v.length ≤ bs.length) :
    overwrite (overwrite bs i v) (i + v.length) w = overwrite bs i (v ++ w) := by
  have htake : (overwrite bs i v).take (i + v.length) = bs.take i ++ v := take_overwrite (by omega)
  have hdrop : (overwrite bs i v).drop (i + v.length + w.length) = bs.drop (i + (v ++ w).length) := by
    have hfront : (bs.take i ++ v).length = i + v.length := by
      rw [List.length_append, List.length_take, Nat.min_eq_left (by omega)]
    rw [overwrite, List.drop_append, hfront, List.drop_of_length_le (by omega), List.nil_append, List.drop_drop,
      List.length_append]
    congr 1
    omega
  rw [overwrite, htake, hdrop, List.append_assoc (bs.take i), overwrite]

/-- One stretch, and then the one in front of it. -/
theorem overwrite_prepend {bs v : Bytes} {i : Nat} (w : Bytes) (h : i + v.length ≤ bs.length) :
    overwrite (overwrite bs (i + v.length) w) i v = overwrite bs i (v ++ w) := by
  have hfront : (bs.take (i + v.length)).length = i + v.length := List.length_take_of_le h
  have htake : (overwrite bs (i + v.length) w).take i = bs.take i := by
    rw [overwrite, List.append_assoc, List.take_append_of_le_length (by omega), List.take_take,
      Nat.min_eq_left (Nat.le_add_right i _)]
  have hdrop : (overwrite bs (i + v.length) w).drop (i + v.length) = w ++ bs.drop (i + (v ++ w).length) := by
    rw [overwrite, List.append_assoc, List.drop_append, hfront, Nat.sub_self, List.drop_zero,
      List.drop_of_length_le (Nat.le_of_eq hfront), List.nil_append, List.length_append, Nat.add_assoc]
  rw [overwrite, htake, hdrop, overwrite]
  simp only [List.append_assoc]

theorem getElem?_overwrite_of_ge {bs v : Bytes} {i j : Nat} (hi : i + v.length ≤ bs.length)
    (hj : i + v.length ≤ j) : (overwrite bs i v)[j]? = bs[j]? := by
  rw [overwrite, List.getElem?_append_right (by simp; omega), List.getElem?_drop]
  congr 1
  simp; omega

/-! ### Fixed arrays -/

/-- The contents of an array of `n` bytes. -/
structure Buf (n : Nat) where
  bytes : Bytes
  size : bytes.length = n

namespace Buf
variable {n : Nat}

/-- An array set to zero. -/
def zero (n : Nat) : Buf n := ⟨List.replicate n 0, by simp⟩

/-- Store `v` at offset `i`; the caller shows that it stays inside the array. -/
def write (b : Buf n) (i : Nat) (v : Bytes) (h : i + v.length ≤ n) : Buf n :=
  ⟨overwrite b.bytes i v, by rw [length_overwrite (by rw [b.size]; exact h), b.size]⟩

@[simp] theorem bytes_write (b : Buf n) (i : Nat) (v : Bytes) (h : i + v.length ≤ n) :
    (b.write i v h).bytes = overwrite b.bytes i v := rfl

theorem take_write (b : Buf n) (i : Nat) (v : Bytes) (h : i + v.length ≤ n) :
    (b.write i v h).bytes.take (i + v.length) = b.bytes.take i ++ v :=
  take_overwrite (by rw [b.size]; omega)

theorem write_nil (b : Buf n) (i : Nat) (h : i + ([] : Bytes).length ≤ n) : b.write i [] h = b := by
  simp only [write, overwrite_nil]

@[simp] theorem bytes_zero : (zero n).bytes = List.replicate n 0 := rfl

end Buf
end Lib
