import Waynergy.Dispatch
import Waynergy.LoopSafety

/-!
# The front of the receive buffer

Whatever the stream, the bytes that were received and are not taken yet are at the front of the buffer, and the
loop takes the complete frames off it one after another. What it reads as the last header may be of a frame of
which less than four bytes are there; the other bytes of it are then older ones.
-/

namespace Waynergy
open Lib
variable {s s' : State} {w : Bytes} {msgs : Nat → MsgEnv}

/-! ### What is handed over -/

/-- The bodies of the messages handed over. -/
def handed (evs : List Event) : List Bytes := evs.filterMap fun
  | .message msg _ => some (msg.data.take msg.len)
  | _ => none

/-- `m_connected` after each of them. -/
def upAfter (evs : List Event) : List Bool := evs.filterMap fun
  | .returned up => some up
  | _ => none

theorem handed_append (evs evs' : List Event) : handed (evs ++ evs') = handed evs ++ handed evs' :=
  List.filterMap_append

theorem upAfter_append (evs evs' : List Event) : upAfter (evs ++ evs') = upAfter evs ++ upAfter evs' :=
  List.filterMap_append

theorem handed_of_not_ghost {evs : List Event} (h : ∀ ev ∈ evs, ¬ ev.Ghost) : handed evs = [] := by
  refine List.filterMap_eq_nil_iff.mpr fun ev hev => ?_
  have := h ev hev
  cases ev <;> simp_all [Event.Ghost]

theorem upAfter_of_not_ghost {evs : List Event} (h : ∀ ev ∈ evs, ¬ ev.Ghost) : upAfter evs = [] := by
  refine List.filterMap_eq_nil_iff.mpr fun ev hev => ?_
  have := h ev hev
  cases ev <;> simp_all [Event.Ghost]

theorem Handed.trace {msg : SspBuf} (h : Handed msg s s') : ∃ evs, s'.out = s.out ++ evs ∧
    handed evs = [msg.data.take msg.len] ∧ upAfter evs = [s'.ctx.connected] := by
  obtain ⟨evs, ho, he⟩ := h.out
  refine ⟨_, ho, ?_, ?_⟩
  · rw [handed_append]
    show (_ :: handed evs) ++ [] = _
    rw [handed_of_not_ghost he]; rfl
  · rw [upAfter_append]
    show upAfter evs ++ _ = _
    rw [upAfter_of_not_ghost he]; rfl

/-! ### What is in the buffer -/

/-- The bytes that were received and are not taken yet. -/
def Context.buffered (c : Context) : Bytes := c.receiveBuffer.bytes.take c.receiveOfs

/-- The bytes `w` are at the front of the buffer. -/
structure Front (w : Bytes) (s : State) : Prop where
  ofs : s.ctx.receiveOfs = w.length
  fits : w.length ≤ receiveBufferSize
  front : s.ctx.receiveBuffer.bytes.take w.length = w

theorem packlen_eq_frameLen (c : Context) : c.packlen = frameLen c.receiveBuffer.bytes :=
  sNetToNative32_eq (by rw [c.receiveBuffer.size]; decide)

theorem front_buffered (h : s.ctx.receiveOfs ≤ receiveBufferSize) : Front s.ctx.buffered s := by
  have hlen : s.ctx.buffered.length = s.ctx.receiveOfs := by
    rw [Context.buffered, List.length_take, s.ctx.receiveBuffer.size, Nat.min_eq_left h]
  exact ⟨hlen.symm, by rw [hlen]; exact h, by rw [hlen]; rfl⟩

theorem Front.nil (h : s.ctx.receiveOfs = 0) : Front [] s := ⟨h, Nat.zero_le _, rfl⟩

namespace Front
variable (h : Front w s)
include h

theorem buffered_eq : s.ctx.buffered = w := by
  rw [Context.buffered, h.ofs, h.front]

theorem overwrite_eq : overwrite s.ctx.receiveBuffer.bytes 0 w = s.ctx.receiveBuffer.bytes := by
  rw [overwrite_zero]
  nth_rewrite 1 [← h.front]
  exact List.take_append_drop _ _

/-- A header of which all bytes are there is read as it was sent. -/
theorem packlen_eq (h4 : 4 ≤ w.length) : s.ctx.packlen = frameLen w := by
  rw [packlen_eq_frameLen, frameLen, frameLen, ← h.front, List.take_take, Nat.min_eq_left h4]

/-- Without a whole frame the packet goes beyond the end of the buffer, in exact arithmetic. -/
theorem lt_packlen (hw : ¬ Whole w) : w.length < s.ctx.packlen + 4 := by
  rcases Nat.lt_or_ge w.length 4 with h4 | h4
  · omega
  · rw [h.packlen_eq h4]
    unfold Whole at hw
    omega

end Front

section
variable {v : Bytes} (h : Front (frame v ++ w) s)
include h

theorem Front.length_add_le : v.length + 4 + w.length ≤ receiveBufferSize := by
  have := h.fits
  simp only [List.length_append, length_frame] at this
  omega

theorem Front.take_frame : s.ctx.receiveBuffer.bytes.take (4 + v.length) = frame v := by
  have hf := congrArg (List.take (4 + v.length)) h.front
  rwa [List.take_take, Nat.min_eq_left (by simp), List.take_left' (by simp)] at hf

theorem Front.take_header : s.ctx.receiveBuffer.bytes.take 4 = be32 v.length := by
  have hf := congrArg (List.take 4) h.take_frame
  rwa [List.take_take, Nat.min_eq_left (by omega), frame, List.take_left' (length_be32 _)] at hf

theorem Front.body (hlen : s.ctx.packlen = v.length) : s.ctx.packet.data.take s.ctx.packet.len = v := by
  show (s.ctx.receiveBuffer.bytes.drop 4).take s.ctx.packlen = v
  rw [hlen, List.take_drop, h.take_frame, frame, List.drop_left' (length_be32 _)]

theorem Front.carries (hlen : s.ctx.packlen = v.length) : Carries s.ctx.packet v := by
  refine ⟨rfl, hlen, ?_⟩
  have hbody := h.body hlen
  rw [← hbody]
  exact List.take_prefix _ _

/-- Moving a whole packet out leaves what follows it at the front, and old bytes behind. -/
theorem Front.consumed (hb : s'.ctx.receiveBuffer = s.ctx.receiveBuffer)
    (ho : s'.ctx.receiveOfs = s.ctx.receiveOfs) : Front w (s'.consumed v.length) ∧
      (s'.consumed v.length).ctx.receiveBuffer.bytes = overwrite s.ctx.receiveBuffer.bytes 0 w := by
  have hofs : s'.ctx.receiveOfs = v.length + 4 + w.length := by
    rw [ho, h.ofs, List.length_append, length_frame, Nat.add_comm 4]
  have hslice : slice s'.ctx.receiveBuffer.bytes (v.length + 4) w.length = w := by
    have hf := h.front
    rw [← h.ofs, ← ho, hofs] at hf
    rw [slice, hb, List.take_drop, hf]
    exact List.drop_left' (by simp; omega)
  have hbytes : (s'.consumed v.length).ctx.receiveBuffer.bytes = overwrite s.ctx.receiveBuffer.bytes 0 w := by
    show overwrite _ 0 (slice _ _ (s'.ctx.receiveOfs - _)) = _
    rw [hofs, Nat.add_sub_cancel_left, hslice, hb]
  refine ⟨⟨?_, ?_, ?_⟩, hbytes⟩
  · show s'.ctx.receiveOfs - _ = _
    rw [hofs, Nat.add_sub_cancel_left]
  · have := h.length_add_le
    omega
  · rw [hbytes, overwrite_zero, List.take_left]

end

/-! ### The last header -/

/-- The header that the loop stops at when it has taken the complete frames of `w` off the front of a buffer
with the bytes `bytes`. Where only part of it is there, the rest is what the last frame has left. -/
def lastHeader (bytes w : Bytes) : Nat :=
  let r := splitFrames w
  frameLen (overwrite (match r.1.getLast? with | some v => be32 v.length | none => bytes) 0 r.2)

theorem lastHeader_of_not_whole {bytes : Bytes} (hw : ¬ Whole w) :
    lastHeader bytes w = frameLen (overwrite bytes 0 w) := by
  rw [lastHeader, splitFrames_of_not_whole hw]
  rfl

theorem lastHeader_frame_append {v bytes : Bytes} (hv : v.length < 2 ^ 32) :
    lastHeader bytes (frame v ++ w) = lastHeader (be32 v.length) w := by
  by_cases hw : Whole w
  · obtain ⟨u, t, rfl, hu⟩ := hw.eq_frame
    simp only [lastHeader, splitFrames_frame_append hv, splitFrames_frame_append hu, List.getLast?_cons]
    rfl
  · rw [lastHeader_of_not_whole hw, lastHeader, splitFrames_frame_append hv, splitFrames_of_not_whole hw]
    rfl

/-- Of the old bytes, only those of a header matter. -/
theorem lastHeader_congr {b b' : Bytes} (h : b.take 4 = b'.take 4) : lastHeader b w = lastHeader b' w := by
  by_cases hw : Whole w
  · obtain ⟨u, t, rfl, hu⟩ := hw.eq_frame
    rw [lastHeader_frame_append hu, lastHeader_frame_append hu]
  · rw [lastHeader_of_not_whole hw, lastHeader_of_not_whole hw, frameLen, frameLen, overwrite_zero, overwrite_zero,
      List.take_append, List.take_append, ← List.drop_take, ← List.drop_take, h]

theorem lastHeader_overwrite (bytes w : Bytes) : lastHeader (overwrite bytes 0 w) w = lastHeader bytes w := by
  by_cases hw : Whole w
  · obtain ⟨u, t, rfl, hu⟩ := hw.eq_frame
    rw [lastHeader_frame_append hu, lastHeader_frame_append hu]
  · rw [lastHeader_of_not_whole hw, lastHeader_of_not_whole hw, overwrite_zero, overwrite_zero, List.drop_left]

/-- A header of which all bytes are there is the one that was sent. -/
theorem lastHeader_of_four {bytes : Bytes} (h4 : 4 ≤ (splitFrames w).2.length) :
    lastHeader bytes w = frameLen (splitFrames w).2 := by
  rw [lastHeader, frameLen, frameLen, overwrite_zero, List.take_append_of_le_length h4]

/-- The incomplete frame that is left when the bytes `bs` arrive. -/
def Context.rest (c : Context) (bs : Bytes) : Bytes := (splitFrames (c.buffered ++ bs)).2

/-- The header at which the loop stops when the bytes `bs` arrive. -/
def Context.stopHeader (c : Context) (bs : Bytes) : Nat := lastHeader c.receiveBuffer.bytes (c.buffered ++ bs)

/-! ### The loop -/

/-- The complete frames of `w` were handed over, and taken off the front of the buffer. -/
structure Eaten (w : Bytes) (s s' : State) : Prop where
  front : Front (splitFrames w).2 s'
  packlen : s'.ctx.packlen = lastHeader s.ctx.receiveBuffer.bytes w
  up : s.ctx.connected = true → s'.ctx.connected = true
  out : ∃ evs, s'.out = s.out ++ evs ∧ handed evs = (splitFrames w).1 ∧
    upAfter evs = List.replicate (splitFrames w).1.length true

/-- The connection was lost at a frame of `w`, the last one handed over. -/
structure LostAt (w : Bytes) (s s' : State) : Prop where
  down : s'.ctx.connected = false
  out : ∃ evs n, s'.out = s.out ++ evs ∧ n < (splitFrames w).1.length ∧
    handed evs = (splitFrames w).1.take (n + 1) ∧ upAfter evs = List.replicate n true ++ [false]

/-- What was handed over are the first of the complete frames of `w`. -/
def HandsFirst (w : Bytes) (s s' : State) : Prop :=
  ∃ evs, s'.out = s.out ++ evs ∧ handed evs <+: (splitFrames w).1

theorem Eaten.refl (h : Front w s) (hw : ¬ Whole w) : Eaten w s s := by
  refine ⟨?_, ?_, id, [], by simp, ?_, ?_⟩
  · rw [splitFrames_of_not_whole hw]; exact h
  · rw [lastHeader_of_not_whole hw, h.overwrite_eq, packlen_eq_frameLen]
  · rw [splitFrames_of_not_whole hw]; rfl
  · rw [splitFrames_of_not_whole hw]; rfl

/-- The first of the frames was handed over and taken off. -/
structure First (v w : Bytes) (s s' : State) : Prop where
  small : v.length < 2 ^ 32
  header : s.ctx.receiveBuffer.bytes.take 4 = be32 v.length
  bytes : s'.ctx.receiveBuffer.bytes = overwrite s.ctx.receiveBuffer.bytes 0 w
  up : s'.ctx.connected = true
  out : ∃ evs, s'.out = s.out ++ evs ∧ handed evs = [v] ∧ upAfter evs = [true]

namespace First
variable {v : Bytes} {s'' : State} (h : First v w s s')
include h

theorem eaten (h' : Eaten w s' s'') : Eaten (frame v ++ w) s s'' := by
  obtain ⟨evs, ho, hh, hu⟩ := h.out
  obtain ⟨evs', ho', hh', hu'⟩ := h'.out
  have hsplit := splitFrames_frame_append h.small w
  refine ⟨by rw [hsplit]; exact h'.front, ?_, fun _ => h'.up h.up, evs ++ evs', ?_, ?_, ?_⟩
  · rw [h'.packlen, h.bytes, lastHeader_overwrite, lastHeader_frame_append h.small,
      lastHeader_congr (h.header.trans (List.take_of_length_le (Nat.le_refl 4)).symm)]
  · rw [ho', ho, List.append_assoc]
  · rw [handed_append, hh, hh', hsplit]; rfl
  · rw [upAfter_append, hu, hu', hsplit]; rfl

theorem lostAt (h' : LostAt w s' s'') : LostAt (frame v ++ w) s s'' := by
  obtain ⟨evs, ho, hh, hu⟩ := h.out
  obtain ⟨evs', n, ho', hn, hh', hu'⟩ := h'.out
  have hsplit := splitFrames_frame_append h.small w
  refine ⟨h'.down, evs ++ evs', n + 1, by rw [ho', ho, List.append_assoc], ?_, ?_, ?_⟩
  · rw [hsplit]
    exact Nat.succ_lt_succ hn
  · rw [handed_append, hh, hh', hsplit]; rfl
  · rw [upAfter_append, hu, hu']; rfl

theorem handsFirst (h' : HandsFirst w s' s'') : HandsFirst (frame v ++ w) s s'' := by
  obtain ⟨evs, ho, hh, -⟩ := h.out
  obtain ⟨evs', ho', hh'⟩ := h'
  refine ⟨evs ++ evs', by rw [ho', ho, List.append_assoc], ?_⟩
  rw [handed_append, hh, splitFrames_frame_append h.small]
  exact (List.prefix_append_right_inj [v]).mpr hh'

end First

/-- The rule of the loop: it takes the complete frames one after another, and then goes on with what is left,
unless a message loses the connection or stops it. -/
theorem wp_eatPackets_frames {Q : Option Nat → State → Prop} {E : Stop → State → Prop} {i fuel : Nat}
    (h : Front w s)
    (hrest : ∀ i' fuel' s', Eaten w s s' → (w.length < fuel → 0 < fuel') → wp (eatPackets msgs i' fuel') Q E s')
    (hlost : ∀ s', LostAt w s s' → Q none s')
    (hstop : ∀ stop s', Whole w → (w.length < fuel → MessageStop stop) → HandsFirst w s s' → E stop s') :
    wp (eatPackets msgs i fuel) Q E s := by
  induction fuel generalizing w s i with
  | zero =>
    by_cases hw : Whole w
    · exact hstop _ _ hw (fun hlt => absurd hlt (Nat.not_lt_zero _)) ⟨[], by simp, List.nil_prefix⟩
    · exact hrest i 0 s (.refl h hw) fun hlt => absurd hlt (Nat.not_lt_zero _)
  | succ fuel ih =>
    by_cases hw : Whole w
    · obtain ⟨v, w, rfl, hv⟩ := hw.eq_frame
      have hlen : (frame v ++ w).length = v.length + 4 + w.length := by simp; omega
      have hsplit := splitFrames_frame_append hv w
      have hpl : s.ctx.packlen = v.length := by rw [h.packlen_eq (by omega), frameLen_frame_append hv]
      have hle := h.length_add_le
      have hsize : receiveBufferSize = 65535 := rfl
      rw [wp_eatPackets_succ, if_neg (by rw [hpl, packSize_eq (by omega), h.ofs]; omega), hpl]
      refine wp_mono (handMessage_spec (msgs i) s.ctx.packet s) ?_ ?_
      · rintro _ s₁ hd
        obtain ⟨evs, ho, hh, hu⟩ := hd.trace
        rw [h.body hpl] at hh
        cases hup : s₁.ctx.connected <;> rw [hup] at hu
        · exact hlost s₁ ⟨hup, evs, 0, ho, by rw [hsplit]; simp, by rw [hh, hsplit]; rfl, hu⟩
        · have hofs := hd.up hup
          obtain ⟨hfront, hbytes⟩ := h.consumed hd.buffer hofs
          rw [if_pos rfl, wp_consume (by rw [hofs, h.ofs]; omega) (by rw [hofs, h.ofs]; exact h.fits)]
          have hfirst : First v w s (s₁.consumed v.length) := by
            refine ⟨hv, h.take_header, hbytes, hup, evs ++ [.shift (v.length + 4) (s₁.ctx.receiveOfs - (v.length + 4))
              s₁.ctx.receiveOfs (s₁.ctx.receiveOfs - (v.length + 4))], ?_, ?_, ?_⟩
            · show s₁.out ++ _ = _
              rw [ho, List.append_assoc]
            · rw [handed_append, hh]; rfl
            · rw [upAfter_append, hu]; rfl
          refine ih hfront ?_ ?_ ?_
          · exact fun i' fuel' s' he hf => hrest i' fuel' s' (hfirst.eaten he) fun _ => hf (by omega)
          · exact fun s' hl => hlost s' (hfirst.lostAt hl)
          · exact fun stop s' _ hs hp => hstop stop s' hw (fun _ => hs (by omega)) (hfirst.handsFirst hp)
      · rintro stop s₁ ⟨hs, evs, ho, he⟩
        refine hstop stop s₁ hw (fun _ => hs) ⟨_, ho, ?_⟩
        show (_ :: handed evs) <+: _
        rw [handed_of_not_ghost he, hsplit, h.body hpl]
        exact (List.prefix_append_right_inj [v]).mpr List.nil_prefix
    · exact hrest i (fuel + 1) s (.refl h hw) fun _ => Nat.succ_pos _

/-! ### Reading -/

/-- `m_receiveFunc` returns `bs`: between one byte and as many as there is room for. -/
def Delivers (s : State) (bs : Bytes) : Prop := bs ≠ [] ∧ bs.length ≤ receiveBufferSize - s.ctx.receiveOfs

/-- What a read that finds the bytes `bs` leaves: they are behind those that are there. -/
structure Got (bs : Bytes) (s s' : State) : Prop where
  front : Front (s.ctx.buffered ++ bs) s'
  bytes : s'.ctx.receiveBuffer.bytes = overwrite s.ctx.receiveBuffer.bytes 0 (s.ctx.buffered ++ bs)
  up : s'.ctx.connected = s.ctx.connected
  out : s'.out = s.out

theorem received_got {bs : Bytes} (hofs : s.ctx.receiveOfs ≤ receiveBufferSize) (hbs : Delivers s bs) (now : Nat) :
    wp (received bs now) (fun _ s' => Got bs s s') (fun _ _ => False) s := by
  have hfit : s.ctx.receiveOfs + bs.length ≤ receiveBufferSize := by
    have := hbs.2
    omega
  have hlen : s.ctx.receiveOfs + bs.length = (s.ctx.buffered ++ bs).length := by
    rw [List.length_append, ← (front_buffered hofs).ofs]
  have hbuf := Buf.take_write s.ctx.receiveBuffer s.ctx.receiveOfs bs hfit
  have hbytes : (s.ctx.receiveBuffer.write s.ctx.receiveOfs bs hfit).bytes =
      overwrite s.ctx.receiveBuffer.bytes 0 (s.ctx.buffered ++ bs) := by
    rw [overwrite_zero, ← hlen]
    rfl
  rw [hlen] at hbuf
  unfold received
  simp only [wp_bind, wp_get, wp_ite, dif_pos hfit, wp_setCtx, if_neg hbs.1, wp_pure]
  split
  · exact ⟨⟨hlen, hlen ▸ hfit, hbuf⟩, hbytes, rfl, rfl⟩
  · exact ⟨⟨hlen, hlen ▸ hfit, hbuf⟩, hbytes, rfl, rfl⟩

theorem receive_got {bs : Bytes} (hofs : s.ctx.receiveOfs ≤ receiveBufferSize) (hbs : Delivers s bs) (now : Nat) :
    wp (receive bs now) (fun up s' => up = true ∧ Got bs s s') (fun _ _ => False) s := by
  have htake : bs.take ((receiveBufferSize : Int) - s.ctx.receiveOfs).toNat = bs :=
    List.take_of_length_le (by have := hbs.2; omega)
  unfold receive synRecv
  simp only [wp_bind, wp_get, htake, if_neg hbs.1, wp_pure]
  exact wp_mono (received_got hofs hbs now) (fun _ _ hg => ⟨trivial, hg⟩) fun _ _ => id

end Waynergy
