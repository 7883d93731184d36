import Waynergy.SspMemory
import Waynergy.Update

/-!
# The length header on either build (`uSynergy.c`)

`sSendReply` writes the length most significant byte first by shifts, which does not depend on the host. `sNetToNative32`
reads it by shifts too, so that reversing the order for the big-endian build turns a right result into a wrong one.
-/

namespace Waynergy
open Lib

/-- `sNetToNative32` of a build: the little-endian one is the function that the rest of the model uses. -/
def sNetToNative32On : Build → Bytes → Nat
  | .littleEndian, value => sNetToNative32 value
  | .bigEndian, b0 :: b1 :: b2 :: b3 :: _ => b0.toNat ||| b1.toNat <<< 8 ||| b2.toNat <<< 16 ||| b3.toNat <<< 24
  | .bigEndian, _ => 0

/-- `sspNetU32`, into the four bytes of `res`. -/
def SspMem.sspNetU32 (build : Build) (b : SspMem) (res : Bytes) : ReadResult := b.sspNetInt build 4 (some res)

/-- The header `value` is read as the length that it was written for, and as `sspNetU32` reads it. -/
structure Decodes (build : Build) (value : Bytes) : Prop where
  length : ∀ len < 2 ^ 32, be32 len = value → sNetToNative32On build value = len
  agrees : ∀ res : Bytes, res.length = 4 → ∃ buf res',
    (SspBuf.ofBytes value).mem.sspNetU32 build res = ⟨true, buf, some res'⟩ ∧ build.load res' = sNetToNative32On build value

/-- The header of what `sSendReply` sends is that of the length of the body. -/
theorem header_sSendReply (sent : Bool) (s : State) : wp (sSendReply sent)
    (fun _ s' => s'.ctx.replyBuffer.bytes.take 4 = be32 (s.ctx.replyCur - 4)) (fun _ _ => False) s := by
  rw [wp_sSendReply]
  exact (Buf.take_write s.ctx.replyBuffer 0 (be32 (s.ctx.replyCur - 4)) (header_fits _)).trans (List.nil_append _)

/-- On the big-endian build, the header is read from the wrong end. -/
theorem sNetToNative32On_big (b0 b1 b2 b3 : UInt8) :
    sNetToNative32On .bigEndian [b0, b1, b2, b3] = beNat [b3, b2, b1, b0] := by
  have hfour : 4 ≤ [b3, b2, b1, b0].length := Nat.le_refl 4
  exact sNetToNative32_eq hfour

theorem sspNetU32_agrees (build : Build) {value res : Bytes} (hvalue : value.length = 4) (hres : res.length = 4) :
    ∃ buf res', (SspBuf.ofBytes value).mem.sspNetU32 build res = ⟨true, buf, some res'⟩ ∧
      build.load res' = beNat value := by
  have hlen : (SspBuf.ofBytes value).len = 4 := hvalue
  have hpos : (SspBuf.ofBytes value).mem.pos + 4 < 2 ^ 64 := show 0 + 4 < 2 ^ 64 by decide
  have hbytes : (SspBuf.ofBytes value).mem.bytes 4 = value := by
    rw [SspBuf.bytes_mem (Nat.le_of_eq hvalue.symm)]
    exact List.take_of_length_le (Nat.le_of_eq hvalue)
  refine ⟨_, _, SspMem.sspNetInt_fits hpos (Nat.le_of_eq hlen.symm) res, ?_⟩
  rw [SspMem.load_netIntLoop build hpos hres, hbytes]

theorem decodes_iff_beNat (build : Build) {value : Bytes} (hvalue : value.length = 4) :
    Decodes build value ↔ sNetToNative32On build value = beNat value := by
  constructor
  · intro h
    have hlt : beNat value < 2 ^ 32 := by
      have := beNat_lt value
      rwa [hvalue] at this
    exact h.length _ hlt (be32_beNat hvalue)
  · intro h
    refine ⟨fun len hlen hbe => ?_, fun res hres => ?_⟩
    · rw [h, ← hbe, beNat_be32 hlen]
    · obtain ⟨buf, res', hread, hload⟩ := sspNetU32_agrees build hvalue hres
      exact ⟨buf, res', hread, hload.trans h.symm⟩

/-- The little-endian build reads every header as it was written; the big-endian one those that read the same from
either end. -/
theorem header_decodes_iff (build : Build) (b0 b1 b2 b3 : UInt8) :
    Decodes build [b0, b1, b2, b3] ↔ build = .littleEndian ∨ b0 = b3 ∧ b1 = b2 := by
  rw [decodes_iff_beNat build rfl]
  have hfour : 4 ≤ [b0, b1, b2, b3].length := Nat.le_refl 4
  cases build with
  | littleEndian => exact iff_of_true (sNetToNative32_eq hfour) (Or.inl rfl)
  | bigEndian =>
    rw [sNetToNative32On_big]
    constructor
    · intro h
      have hback : be32 (beNat [b3, b2, b1, b0]) = be32 (beNat [b0, b1, b2, b3]) := congrArg be32 h
      rw [be32_beNat rfl, be32_beNat rfl] at hback
      simp only [List.cons.injEq, and_true] at hback
      exact Or.inr ⟨hback.2.2.2, hback.2.2.1⟩
    · rintro (h | ⟨rfl, rfl⟩)
      · cases h
      · rfl

/-- A body of one byte is announced to the big-endian build as one of 2^24. -/
theorem header_not_decoded : ¬ ∀ (build : Build) (value : Bytes), value.length = 4 → Decodes build value := by
  intro h
  have hlen := (h .bigEndian (be32 1) rfl).length 1 (by decide) rfl
  revert hlen
  decide

end Waynergy
