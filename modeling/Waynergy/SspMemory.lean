import Waynergy.Ssp

/-!
# The readers byte by byte (`ssp.c`)

The readers of `Ssp` return what they read. Here they store it in an object of the caller's, byte after byte as each of
the two builds does, and the offsets of `data` that they look at are kept. `sspNetInt_refines` and `sspMemMove_refines`:
where `len` stays inside the memory, this is what those readers return, on either build.
-/

namespace Waynergy
open Lib

/-- What `meson.build` defines, by the byte order of the host. -/
inductive Build
  | littleEndian
  | bigEndian
deriving DecidableEq

namespace Build

/-- The number in an object of the bytes `bs`. -/
def load : Build → Bytes → Nat
  | littleEndian, bs => beNat bs.reverse
  | bigEndian, bs => beNat bs

/-- Where `sspNetInt` stores the byte `i` of `len`. -/
def place : Build → Nat → Nat → Nat
  | littleEndian, len, i => len - i - 1
  | bigEndian, _, i => i

end Build

/-- A `sspBuf`, by the memory that `data` points to. -/
structure SspMem where
  data : Nat → UInt8
  pos : Nat
  len : Nat
  /-- the offsets that were read -/
  touched : List Nat

/-- What a call returns, and what it leaves of the buffer and of the destination. -/
structure ReadResult where
  ret : Bool
  buf : SspMem
  dest : Option Bytes

namespace SspMem

/-- The `n` bytes from the position on. -/
def bytes (b : SspMem) (n : Nat) : Bytes := (List.range' b.pos n).map b.data

def sspSeek (b : SspMem) (len : Nat) : Bool × SspMem :=
  if sizeAdd b.pos len > b.len then (false, b) else (true, { b with pos := sizeAdd b.pos len })

/-- The loop of `sspNetInt`, at the byte `i` with `n` bytes to go. -/
def netIntLoop (build : Build) (len : Nat) : Nat → Nat → SspMem → Bytes → SspMem × Bytes
  | 0, _, b, res => (b, res)
  | n + 1, i, b, res =>
    netIntLoop build len n (i + 1) { b with pos := sizeAdd b.pos 1, touched := b.touched ++ [b.pos] }
      (res.set (build.place len i) (b.data b.pos))

def sspNetInt (build : Build) (b : SspMem) (len : Nat) : Option Bytes → ReadResult
  | none => ⟨(b.sspSeek len).1, (b.sspSeek len).2, none⟩
  | some res =>
    if sizeAdd b.pos len > b.len then ⟨false, b, some res⟩
    else ⟨true, (netIntLoop build len len 0 b res).1, some (netIntLoop build len len 0 b res).2⟩

def sspMemMove (b : SspMem) (len : Nat) : Option Bytes → ReadResult
  | none => ⟨false, b, none⟩
  | some dest =>
    if sizeAdd b.pos len > b.len then ⟨false, b, some dest⟩
    else ⟨true, { b with pos := sizeAdd b.pos len, touched := b.touched ++ List.range' b.pos len },
      some (overwrite dest 0 (b.bytes len))⟩

/-- The buffer after `n` bytes were read. -/
def advance (b : SspMem) (n : Nat) : SspMem :=
  { b with pos := b.pos + n, touched := b.touched ++ List.range' b.pos n }

/-! ### What the loop stores -/

variable {build : Build} {b : SspMem} {n i len : Nat} {res : Bytes}

theorem bytes_succ (b : SspMem) (n : Nat) :
    b.bytes (n + 1) = b.data b.pos :: { b with pos := b.pos + 1, touched := b.touched ++ [b.pos] }.bytes n := by
  unfold bytes
  rw [List.range'_succ, List.map_cons]

@[simp] theorem length_bytes (b : SspMem) (n : Nat) : (b.bytes n).length = n := by simp [bytes]

theorem advance_succ (b : SspMem) (n : Nat) :
    { b with pos := b.pos + 1, touched := b.touched ++ [b.pos] }.advance n = b.advance (n + 1) := by
  unfold advance
  rw [List.range'_succ, List.append_assoc, Nat.add_right_comm, Nat.add_assoc]
  rfl

theorem netIntLoop_fst (hpos : b.pos + n < 2 ^ 64) : (netIntLoop build len n i b res).1 = b.advance n := by
  induction n generalizing i b res with
  | zero =>
    unfold netIntLoop advance
    rw [List.range'_zero, List.append_nil, Nat.add_zero]
  | succ n ih =>
    have hone : sizeAdd b.pos 1 = b.pos + 1 := sizeAdd_eq (by omega)
    unfold netIntLoop
    rw [hone, ih (by dsimp only; omega), advance_succ]

theorem netIntLoop_big (hpos : b.pos + n < 2 ^ 64) (hi : i + n = len) (hres : res.length = len) :
    (netIntLoop .bigEndian len n i b res).2 = res.take i ++ b.bytes n := by
  induction n generalizing i b res with
  | zero =>
    unfold netIntLoop
    rw [List.take_of_length_le (by omega)]
    exact (List.append_nil _).symm
  | succ n ih =>
    have hone : sizeAdd b.pos 1 = b.pos + 1 := sizeAdd_eq (by omega)
    have hset : (res.set i (b.data b.pos)).take (i + 1) = res.take i ++ [b.data b.pos] := by
      rw [List.take_add_one, List.take_set_of_le (Nat.le_refl i), List.getElem?_set_self (by omega), Option.toList_some]
    unfold netIntLoop
    rw [hone, ih (by dsimp only; omega) (by omega) (by rw [List.length_set, hres]), bytes_succ]
    show (res.set i (b.data b.pos)).take (i + 1) ++ _ = _
    rw [hset, List.append_assoc, List.singleton_append]

theorem netIntLoop_little (hpos : b.pos + n < 2 ^ 64) (hi : i + n = len) (hres : res.length = len) :
    (netIntLoop .littleEndian len n i b res).2 = (b.bytes n).reverse ++ res.drop n := by
  induction n generalizing i b res with
  | zero => rfl
  | succ n ih =>
    have hone : sizeAdd b.pos 1 = b.pos + 1 := sizeAdd_eq (by omega)
    have hplace : Build.littleEndian.place len i = n := show len - i - 1 = n by omega
    have hset : (res.set n (b.data b.pos)).drop n = b.data b.pos :: res.drop (n + 1) := by
      rw [List.drop_eq_getElem_cons (by rw [List.length_set]; omega), List.getElem_set_self,
        List.drop_set_of_lt (Nat.lt_succ_self n)]
    unfold netIntLoop
    rw [hone, hplace, ih (by dsimp only; omega) (by omega) (by rw [List.length_set, hres]), bytes_succ, hset,
      List.reverse_cons, List.append_assoc, List.singleton_append]

/-- Each build stores the bytes such that its host loads the number that they spell. -/
theorem load_netIntLoop (build : Build) (hpos : b.pos + n < 2 ^ 64) (hres : res.length = n) :
    build.load (netIntLoop build n n 0 b res).2 = beNat (b.bytes n) := by
  cases build with
  | littleEndian =>
    rw [netIntLoop_little hpos (Nat.zero_add n) hres, List.drop_of_length_le (by omega), List.append_nil]
    show beNat (b.bytes n).reverse.reverse = _
    rw [List.reverse_reverse]
  | bigEndian =>
    rw [netIntLoop_big hpos (Nat.zero_add n) hres]
    rfl

/-! ### What a call does -/

theorem sspSeek_short (hpos : b.pos + n < 2 ^ 64) (h : b.len < b.pos + n) : b.sspSeek n = (false, b) := by
  unfold sspSeek
  rw [sizeAdd_eq hpos, if_pos h]

theorem sspSeek_fits (hpos : b.pos + n < 2 ^ 64) (h : b.pos + n ≤ b.len) :
    b.sspSeek n = (true, { b with pos := b.pos + n }) := by
  unfold sspSeek
  rw [sizeAdd_eq hpos, if_neg (Nat.not_lt.mpr h)]

theorem sspNetInt_short (hpos : b.pos + n < 2 ^ 64) (h : b.len < b.pos + n) (dest : Option Bytes) :
    b.sspNetInt build n dest = ⟨false, b, dest⟩ := by
  cases dest with
  | none =>
    unfold sspNetInt
    rw [sspSeek_short hpos h]
  | some res =>
    unfold sspNetInt
    dsimp only
    rw [sizeAdd_eq hpos, if_pos h]

theorem sspNetInt_fits (hpos : b.pos + n < 2 ^ 64) (h : b.pos + n ≤ b.len) (res : Bytes) :
    b.sspNetInt build n (some res) = ⟨true, b.advance n, some (netIntLoop build n n 0 b res).2⟩ := by
  unfold sspNetInt
  dsimp only
  rw [sizeAdd_eq hpos, if_neg (Nat.not_lt.mpr h), netIntLoop_fst hpos]

theorem sspMemMove_short (hpos : b.pos + n < 2 ^ 64) (h : b.len < b.pos + n) (dest : Option Bytes) :
    b.sspMemMove n dest = ⟨false, b, dest⟩ := by
  cases dest with
  | none => rfl
  | some dest =>
    unfold sspMemMove
    dsimp only
    rw [sizeAdd_eq hpos, if_pos h]

theorem sspMemMove_fits (hpos : b.pos + n < 2 ^ 64) (h : b.pos + n ≤ b.len) (dest : Bytes) :
    b.sspMemMove n (some dest) = ⟨true, b.advance n, some (overwrite dest 0 (b.bytes n))⟩ := by
  unfold sspMemMove advance
  dsimp only
  rw [sizeAdd_eq hpos, if_neg (Nat.not_lt.mpr h)]

end SspMem

/-! ### The readers of `Ssp` -/

/-- The buffer with nothing read yet. -/
def SspBuf.mem (b : SspBuf) : SspMem := ⟨fun i => b.data.getD i 0, b.pos, b.len, []⟩

theorem SspBuf.bytes_mem {b : SspBuf} {n : Nat} (h : b.pos + n ≤ b.data.length) :
    b.mem.bytes n = slice b.data b.pos n := by
  refine List.ext_getElem (by rw [SspMem.length_bytes, length_slice h]) fun i hi hi' => ?_
  rw [SspMem.length_bytes] at hi
  simp only [SspMem.bytes, slice, SspBuf.mem, List.getElem_map, List.getElem_range', List.getElem_take,
    List.getElem_drop, Nat.one_mul]
  exact List.getElem_eq_getD 0 |>.symm

section
variable {b : SspBuf} {n : Nat} {dest : Bytes}

theorem wp_sspTake_inside (hmem : b.len ≤ b.data.length) (hpos : b.pos + n < 2 ^ 64) {Q : Bytes → SspBuf → Prop}
    {E : ParseFail → SspBuf → Prop} (hfits : b.pos + n ≤ b.len → Q (b.mem.bytes n) { b with pos := b.pos + n })
    (hshort : b.len < b.pos + n → E .short b) : wp (sspTake n) Q E b := by
  unfold sspTake
  simp only [wp_bind, wp_get, wp_ite, sizeAdd_eq hpos]
  split
  · rename_i hlen
    exact hshort hlen
  · rename_i hlen
    have hle : b.pos + n ≤ b.len := Nat.not_lt.mp hlen
    have hin : b.pos + n ≤ b.data.length := Nat.le_trans hle hmem
    rw [if_neg (Nat.not_lt.mpr hin)]
    have hq := hfits hle
    rw [SspBuf.bytes_mem hin] at hq
    exact hq

/-- On either build, what `sspNetInt` leaves in an object of `n` bytes is the number that the reader returns. -/
theorem sspNetInt_refines (build : Build) (hmem : b.len ≤ b.data.length) (hpos : b.pos + n < 2 ^ 64)
    (hdest : dest.length = n) : wp (sspNetInt n)
      (fun v b' => b' = { b with pos := b.pos + n } ∧ ∃ dest', build.load dest' = v ∧
        b.mem.sspNetInt build n (some dest) = ⟨true, b.mem.advance n, some dest'⟩)
      (fun fail b' => fail = .short ∧ b' = b ∧ b.mem.sspNetInt build n (some dest) = ⟨false, b.mem, some dest⟩) b := by
  rw [sspNetInt, wp_bind]
  refine wp_sspTake_inside hmem hpos (fun hle => ?_) fun hlt => ?_
  · exact ⟨rfl, _, SspMem.load_netIntLoop build hpos hdest, SspMem.sspNetInt_fits hpos hle dest⟩
  · exact ⟨rfl, rfl, SspMem.sspNetInt_short hpos hlt (some dest)⟩

/-- What `sspMemMove` leaves in front of the destination are the bytes that the reader returns. -/
theorem sspMemMove_refines (hmem : b.len ≤ b.data.length) (hpos : b.pos + n < 2 ^ 64) : wp (sspMemMove n)
      (fun bs b' => b' = { b with pos := b.pos + n } ∧
        b.mem.sspMemMove n (some dest) = ⟨true, b.mem.advance n, some (overwrite dest 0 bs)⟩)
      (fun fail b' => fail = .short ∧ b' = b ∧ b.mem.sspMemMove n (some dest) = ⟨false, b.mem, some dest⟩) b := by
  refine wp_sspTake_inside hmem hpos (fun hle => ?_) fun hlt => ?_
  · exact ⟨rfl, SspMem.sspMemMove_fits hpos hle dest⟩
  · exact ⟨rfl, rfl, SspMem.sspMemMove_short hpos hlt (some dest)⟩

theorem sspSeek_refines (hpos : b.pos + n < 2 ^ 64) : wp (sspSeek n)
      (fun _ b' => b' = { b with pos := b.pos + n } ∧ b.mem.sspSeek n = (true, { b.mem with pos := b.pos + n }))
      (fun fail b' => fail = .short ∧ b' = b ∧ b.mem.sspSeek n = (false, b.mem)) b := by
  unfold sspSeek
  simp only [wp_bind, wp_get, wp_ite, sizeAdd_eq hpos]
  split
  · rename_i hlen
    exact ⟨rfl, rfl, SspMem.sspSeek_short hpos hlen⟩
  · rename_i hlen
    exact ⟨rfl, SspMem.sspSeek_fits hpos (Nat.not_lt.mp hlen)⟩

end
end Waynergy
