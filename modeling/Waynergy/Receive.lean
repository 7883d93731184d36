import Waynergy.Handlers
import Waynergy.Client

/-!
# The receive loop

What one iteration of the loop that eats packets does. A header is *sane* where `packlen + 4` does not
wrap around to a number of bytes that are there; as long as all headers are, the loop is the one that exact
arithmetic would give.
-/

namespace Waynergy
open Lib
variable {s s' : State} {msgs : Nat → MsgEnv}

/-! ### Handing a message over -/

/-- What handing over `msg` does to the receiving side. -/
structure Handed (msg : SspBuf) (s s' : State) : Prop where
  cfg : s'.ctx.toConfig = s.ctx.toConfig
  buffer : s'.ctx.receiveBuffer = s.ctx.receiveBuffer
  up : s'.ctx.connected = true → s'.ctx.receiveOfs = s.ctx.receiveOfs
  out : ∃ evs, s'.out = s.out ++ (.message msg s.ctx.receiveOfs :: evs ++ [.returned s'.ctx.connected]) ∧
    ∀ ev ∈ evs, ¬ ev.Ghost

theorem handMessage_spec (e : MsgEnv) (msg : SspBuf) (s : State) : wp (handMessage e msg)
    (fun _ s' => Handed msg s s')
    (fun stop s' => MessageStop stop ∧ ∃ evs, s'.out = s.out ++ .message msg s.ctx.receiveOfs :: evs ∧
      ∀ ev ∈ evs, ¬ ev.Ghost) s := by
  unfold handMessage
  simp only [wp_bind, wp_get, wp_emits]
  refine wp_mono (IsTame.sProcessMessage e msg _) (fun _ s₁ h => ?_) fun stop s₁ h => ?_
  · obtain ⟨evs, ho, he, -⟩ := h.out
    refine ⟨h.cfg, h.buffer, fun hc => (h.up hc).2, evs, ?_, he⟩
    show s₁.out ++ _ = _
    rw [ho]; simp
  · obtain ⟨evs, ho, he, -⟩ := h.1.out
    exact ⟨h.2, evs, by rw [ho]; simp, he⟩

/-! ### One iteration -/

theorem packSize_eq {n : Nat} (h : n + 4 < 2 ^ 32) : packSize n = n + 4 := Nat.mod_eq_of_lt h

theorem Context.packlen_lt (c : Context) : c.packlen < 2 ^ 32 := by
  have h4 : 4 ≤ c.receiveBuffer.bytes.length := by rw [c.receiveBuffer.size]; decide
  rw [packlen, sNetToNative32_eq h4]
  have := beNat_lt (c.receiveBuffer.bytes.take 4)
  rwa [List.length_take, Nat.min_eq_left h4] at this

/-- The state after the packet of `packlen` bytes was moved out, in exact arithmetic. -/
def State.consumed (s : State) (packlen : Nat) : State :=
  let ofs := s.ctx.receiveOfs
  { s with
    ctx := { s.ctx with
      receiveBuffer := s.ctx.receiveBuffer.write 0
        (slice s.ctx.receiveBuffer.bytes (packlen + 4) (ofs - (packlen + 4))) (length_slice_le _ _ _)
      receiveOfs := ofs - (packlen + 4) }
    out := s.out ++ [.shift (packlen + 4) (ofs - (packlen + 4)) ofs (ofs - (packlen + 4))] }

theorem wp_consume {Q : Unit → State → Prop} {E : Stop → State → Prop} {packlen : Nat}
    (hle : packlen + 4 ≤ s.ctx.receiveOfs) (hofs : s.ctx.receiveOfs ≤ receiveBufferSize) :
    wp (consume packlen) Q E s ↔ Q () (s.consumed packlen) := by
  have hsize : receiveBufferSize = 65535 := rfl
  have hp : packSize packlen = packlen + 4 := packSize_eq (by omega)
  have hlen : (s.ctx.receiveOfs + (2 ^ 32 - (packlen + 4))) % 2 ^ 32 = s.ctx.receiveOfs - (packlen + 4) := by omega
  unfold consume
  simp only [wp_bind, wp_get, hp, hlen]
  rw [if_neg (by omega)]
  rfl

theorem wp_eatPackets_succ {Q : Option Nat → State → Prop} {E : Stop → State → Prop} (i fuel : Nat) :
    wp (eatPackets msgs i (fuel + 1)) Q E s ↔
      if packSize s.ctx.packlen > s.ctx.receiveOfs then Q (some s.ctx.packlen) s
      else wp (handMessage (msgs i) s.ctx.packet) (fun _ s' =>
        if s'.ctx.connected then
          wp (consume s.ctx.packlen) (fun _ s'' => wp (eatPackets msgs (i + 1) fuel) Q E s'') E s'
        else Q none s') E s := by
  rw [eatPackets]
  simp only [wp_bind, wp_get, wp_ite, wp_pure]

end Waynergy
