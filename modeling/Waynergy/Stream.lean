import Waynergy.Front

/-!
# Framing does not depend on how the stream is cut

While a server sends frames of at most 65531 bytes, the receive buffer holds the incomplete frame at its
front, and the two bytes from which a header of such a frame starts are zero wherever they are still those of
an earlier frame. So a header of which only part has arrived never announces a packet that is there, or one
that is too large.
-/

namespace Waynergy
open Lib
variable {s s' : State} {w : Bytes}

/-! ### The buffer between two calls and in the loop -/

/-- The largest body that fits the receive buffer. -/
abbrev maxBody : Nat := 65531

/-- Between two calls: the bytes `w` are at the front of the buffer. -/
structure Waits (w : Bytes) (s : State) : Prop where
  up : s.ctx.connected = true
  ofs : s.ctx.receiveOfs = w.length
  fits : w.length ≤ receiveBufferSize
  front : s.ctx.receiveBuffer.bytes.take w.length = w
  one : s.ctx.receiveBuffer.bytes[1]? = some 0

/-- At the head of the loop also the first byte is zero. -/
structure Holds (w : Bytes) (s : State) : Prop extends Waits w s where
  zero : s.ctx.receiveBuffer.bytes[0]? = some 0

theorem Waits.toFront (h : Waits w s) : Front w s := ⟨h.ofs, h.fits, h.front⟩

theorem length_receiveBuffer (s : State) : 4 ≤ s.ctx.receiveBuffer.bytes.length := by
  rw [s.ctx.receiveBuffer.size]; decide

namespace Holds

theorem packlen_lt (h : Holds w s) : s.ctx.packlen < 65536 := by
  rw [packlen_eq_frameLen]
  exact (frameLen_lt_iff (length_receiveBuffer s)).mpr ⟨h.zero, h.one⟩

theorem of_front (h : Front w s) (up : s.ctx.connected = true) (hlt : s.ctx.packlen < 65536) : Holds w s := by
  rw [packlen_eq_frameLen] at hlt
  obtain ⟨zero, one⟩ := (frameLen_lt_iff (length_receiveBuffer s)).mp hlt
  exact { up, ofs := h.ofs, fits := h.fits, front := h.front, one, zero }

end Holds

/-- As long as the frames are small, so is the header that the loop stops at. -/
theorem lastHeader_lt {cap : Nat} {bytes : Bytes} (hcap : cap ≤ maxBody) (hw : Framed cap w)
    (h4 : 4 ≤ bytes.length) (hb : frameLen bytes < 65536) : lastHeader bytes w < 65536 := by
  have hcap' : cap < 65536 := Nat.lt_of_le_of_lt hcap (by decide)
  have hcap32 : cap < 2 ^ 32 := Nat.lt_of_le_of_lt hcap (by decide)
  induction hw generalizing bytes with
  | part hv hp hlt =>
    obtain ⟨hzero, hone⟩ := (frameLen_lt_iff h4).mp hb
    rw [lastHeader_of_not_whole (not_whole_of_part (Nat.lt_of_le_of_lt hv hcap32) hp hlt)]
    refine Framed.frameLen_overwrite_lt hcap' (.part hv hp hlt) h4 fun j hj => .inr ?_
    rcases (by omega : j = 0 ∨ j = 1) with rfl | rfl
    exacts [hzero, hone]
  | @cons v w hv _ ih =>
    have hv' := Nat.lt_of_le_of_lt hv hcap32
    rw [lastHeader_frame_append hv']
    exact ih (Nat.le_refl 4) (by rw [frameLen_be32 hv']; omega)

/-! ### The loop -/

/-- What the loop has done with the bytes `w`: all complete frames were handed over and the incomplete one
is kept, or the connection was lost at one of them. -/
def Ate (w : Bytes) (s : State) (r : Option Nat) (s' : State) : Prop :=
  ∃ evs, s'.out = s.out ++ evs ∧
    ((∃ n, r = some n ∧ n ≤ receiveBufferSize ∧ Holds (splitFrames w).2 s' ∧
        handed evs = (splitFrames w).1 ∧ upAfter evs = List.replicate (splitFrames w).1.length true) ∨
      (r = none ∧ s'.ctx.connected = false ∧ ∃ n, n < (splitFrames w).1.length ∧
        handed evs = (splitFrames w).1.take (n + 1) ∧ upAfter evs = List.replicate n true ++ [false]))

theorem eatPackets_spec {cap : Nat} (hcap : cap ≤ maxBody) (msgs : Nat → MsgEnv) (hw : Framed cap w)
    (h : Holds w s) (i fuel : Nat) : wp (eatPackets msgs i fuel) (Ate w s)
      (fun stop s' => (w.length < fuel → MessageStop stop) ∧
        ∃ evs, s'.out = s.out ++ evs ∧ handed evs <+: (splitFrames w).1) s := by
  refine wp_eatPackets_frames h.toFront ?_ ?_ ?_
  · intro i' fuel' s' he hf
    have hlt : s'.ctx.packlen < 65536 := by
      rw [he.packlen]
      exact lastHeader_lt hcap hw (length_receiveBuffer s) (packlen_eq_frameLen s.ctx ▸ h.packlen_lt)
    have hgt := he.front.lt_packlen (splitFrames_join w).2
    have hofs := he.front.ofs
    obtain ⟨evs, ho, hh, hu⟩ := he.out
    cases fuel' with
    | zero => exact ⟨fun hw => absurd (hf hw) (Nat.lt_irrefl 0), evs, ho, hh ▸ List.prefix_refl _⟩
    | succ fuel' =>
      rw [wp_eatPackets_succ, if_pos (by rw [packSize_eq (by omega)]; omega)]
      exact ⟨evs, ho, .inl ⟨_, rfl, Nat.le_of_lt_succ hlt, .of_front he.front (he.up h.up) hlt, hh, hu⟩⟩
  · intro s' hl
    obtain ⟨evs, n, ho, hn, hh, hu⟩ := hl.out
    exact ⟨evs, ho, .inr ⟨rfl, hl.down, n, hn, hh, hu⟩⟩
  · exact fun stop s' _ hs hp => ⟨hs, hp⟩

/-! ### One call -/

theorem receive_spec {bs : Bytes} {cap : Nat} (hcap : cap ≤ maxBody) (h : Waits w s) (hbs : Delivers s bs)
    (hw : Framed cap (w ++ bs)) (now : Nat) : wp (receive bs now)
      (fun up s' => up = true ∧ Holds (w ++ bs) s' ∧ s'.out = s.out) (fun _ _ => False) s := by
  have hpos : 0 < bs.length := List.length_pos_iff.mpr hbs.1
  refine wp_mono (receive_got (h.ofs ▸ h.fits) hbs now) (fun _ s' hg => ⟨hg.1, ?_, hg.2.out⟩) fun _ _ => id
  have hfront := hg.2.front
  have hbytes := hg.2.bytes
  rw [h.toFront.buffered_eq] at hfront hbytes
  refine .of_front hfront (hg.2.up.trans h.up) ?_
  rw [packlen_eq_frameLen, hbytes]
  refine hw.frameLen_overwrite_lt (Nat.lt_of_le_of_lt hcap (by decide)) (length_receiveBuffer s) fun j hj => ?_
  rcases (by omega : j = 0 ∨ j = 1) with rfl | rfl
  · exact .inl (by rw [List.length_append]; omega)
  · exact .inr h.one

/-- What one call has done when the bytes `w` arrived: as the loop, but that the first byte of the buffer may
be any. -/
theorem sUpdateContext_spec {e : UpdateEnv} {cap : Nat} (hcap : cap ≤ maxBody) (h : Waits w s)
    (hbs : Delivers s e.avail) (hw : Framed cap (w ++ e.avail)) : wp (sUpdateContext e)
      (fun _ s' => ∃ r, Ate (w ++ e.avail) s r s')
      (fun stop s' => ((w ++ e.avail).length < e.fuel → MessageStop stop) ∧
        ∃ evs, s'.out = s.out ++ evs ∧ handed evs <+: (splitFrames (w ++ e.avail)).1) s := by
  unfold sUpdateContext
  rw [wp_bind]
  refine wp_mono (receive_spec hcap h hbs hw e.now) ?_ fun _ _ => False.elim
  rintro _ s₁ ⟨rfl, h₁, ho₁⟩
  rw [if_pos rfl, wp_bind]
  refine wp_mono (eatPackets_spec hcap e.msgs hw h₁ 0 e.fuel) ?_ ?_
  · rintro r s₂ ⟨evs, ho₂, hr⟩
    have hate : Ate (w ++ e.avail) s r s₂ := ⟨evs, by rw [ho₂, ho₁], hr⟩
    rcases hr with ⟨n, rfl, hn, -⟩ | ⟨rfl, -⟩
    · simp only [ditchOversized, if_neg (Nat.not_lt.mpr hn), wp_pure]
      exact ⟨_, hate⟩
    · exact ⟨_, hate⟩
  · rintro stop s₂ ⟨hstop, evs, ho₂, hh⟩
    exact ⟨hstop, evs, by rw [ho₂, ho₁], hh⟩

/-! ### Call after call -/

/-- The bytes that arrived in the calls `steps`. -/
def arrived (steps : List (State × UpdateEnv)) : Bytes := (steps.map fun step => step.2.avail).flatten

/-- Since `s₀` the bytes `got` arrived, and the loop did with them what the frames say: the bodies of all
complete frames were handed over and the incomplete one is at the front of the buffer; or the connection was
lost at one of them, the last one handed over. -/
def Framing (s₀ s : State) (got : Bytes) : Prop :=
  ∃ evs, s.out = s₀.out ++ evs ∧
    (s.ctx.connected = true → handed evs = (splitFrames got).1 ∧
      upAfter evs = List.replicate (splitFrames got).1.length true ∧
      s.ctx.receiveOfs = (splitFrames got).2.length ∧
      s.ctx.receiveBuffer.bytes.take s.ctx.receiveOfs = (splitFrames got).2) ∧
    (s.ctx.connected = false → ∃ n, n < (splitFrames got).1.length ∧
      handed evs = (splitFrames got).1.take (n + 1) ∧ upAfter evs = List.replicate n true ++ [false])

theorem arrived_snoc (steps : List (State × UpdateEnv)) (t : State) (e : UpdateEnv) :
    arrived (steps ++ [(t, e)]) = arrived steps ++ e.avail := by
  simp [arrived]

/-- The state between two calls, while the connection stands. -/
theorem waits_of_run {cap : Nat} {s₀ : State} {steps : List (State × UpdateEnv)} (hcap : cap ≤ maxBody)
    (h₀ : Waits [] s₀) (hrun : Run sUpdateContext s₀ steps s)
    (hcalls : ∀ step ∈ steps, step.1.ctx.connected = true ∧ Delivers step.1 step.2.avail)
    (hs : Framed cap (arrived steps)) :
    Framing s₀ s (arrived steps) ∧ (s.ctx.connected = true → Waits (splitFrames (arrived steps)).2 s) := by
  have hcap' : cap < 2 ^ 32 := Nat.lt_of_le_of_lt hcap (by decide)
  induction hrun with
  | nil =>
    refine ⟨⟨[], by simp, fun _ => ⟨rfl, rfl, h₀.ofs, ?_⟩, fun hdown => ?_⟩, fun _ => h₀⟩
    · rw [h₀.ofs]; rfl
    · rw [h₀.up] at hdown; cases hdown
  | @snoc steps t s e hrun hop ih =>
    rw [arrived_snoc] at hs ⊢
    obtain ⟨hup, hdel⟩ := hcalls (t, e) (by simp)
    obtain ⟨⟨evs, ho, hfr, -⟩, hwait⟩ := ih (fun step hm => hcalls step (by simp [hm]))
      (hs.of_initial (List.prefix_append _ _))
    obtain ⟨hh, hu, -, -⟩ := hfr hup
    obtain ⟨r, evs', ho', hr⟩ := wp_ok (sUpdateContext_spec hcap (hwait hup) hdel (hs.rest hcap')) hop
    have hmore := splitFrames_more hcap' (hs.of_initial (List.prefix_append _ _)) e.avail
    have hout : s.out = s₀.out ++ (evs ++ evs') := by rw [ho', ho, List.append_assoc]
    rw [Framing, hmore]
    rcases hr with ⟨n, -, -, hold, hh', hu'⟩ | ⟨-, hdown, n, hn, hh', hu'⟩
    · refine ⟨⟨_, hout, fun _ => ⟨?_, ?_, hold.ofs, ?_⟩, fun hdown => ?_⟩, fun _ => hold.toWaits⟩
      · rw [handed_append, hh, hh']
      · rw [upAfter_append, hu, hu', List.length_append, List.replicate_add]
      · rw [hold.ofs]; exact hold.front
      · rw [hold.up] at hdown; cases hdown
    · refine ⟨⟨_, hout, fun hup' => ?_, fun _ => ?_⟩, fun hup' => ?_⟩
      · rw [hdown] at hup'; cases hup'
      · refine ⟨(splitFrames (arrived steps)).1.length + n,
          by rw [List.length_append]; exact Nat.add_lt_add_left hn _, ?_, ?_⟩
        · rw [handed_append, hh, hh', Nat.add_assoc, List.take_length_add_append]
        · rw [upAfter_append, hu, hu', List.replicate_add, List.append_assoc]
      · rw [hdown] at hup'; cases hup'

/-- A fresh connection: nothing is received yet, and the buffer is as `uSynergyInit` leaves it. -/
structure Fresh (s : State) : Prop where
  up : s.ctx.connected = true
  ofs : s.ctx.receiveOfs = 0
  buffer : s.ctx.receiveBuffer = .zero _

theorem Fresh.waits (h : Fresh s) : Waits [] s :=
  ⟨h.up, h.ofs, Nat.zero_le _, rfl, by rw [h.buffer]; rfl⟩

/-- Framing does not depend on how the stream is cut. -/
theorem sUpdateContext_framing {s₀ : State} {steps : List (State × UpdateEnv)} (h₀ : Fresh s₀)
    (hrun : Run sUpdateContext s₀ steps s)
    (hcalls : ∀ step ∈ steps, step.1.ctx.connected = true ∧ Delivers step.1 step.2.avail)
    (hs : Framed maxBody (arrived steps)) :
    Framing s₀ s (arrived steps) ∧
      -- a further call ends, or a message stops it; also then what was handed over is as the frames say
      ∀ e, s.ctx.connected = true → Delivers s e.avail → Framed maxBody (arrived steps ++ e.avail) →
        receiveBufferSize < e.fuel → wp (sUpdateContext e) (fun _ _ => True)
          (fun stop s' => MessageStop stop ∧ ∃ evs, s'.out = s₀.out ++ evs ∧
            handed evs <+: (splitFrames (arrived steps ++ e.avail)).1) s := by
  obtain ⟨hfr, hwait⟩ := waits_of_run (Nat.le_refl _) h₀.waits hrun hcalls hs
  refine ⟨hfr, fun e hup hdel hs' hfuel => ?_⟩
  have h := hwait hup
  obtain ⟨evs, ho, hfr, -⟩ := hfr
  refine wp_mono (sUpdateContext_spec (Nat.le_refl _) h hdel (hs'.rest (by decide))) (fun _ _ _ => trivial) ?_
  rintro stop s' ⟨hstop, evs', ho', hh'⟩
  refine ⟨hstop ?_, evs ++ evs', by rw [ho', ho, List.append_assoc], ?_⟩
  · have := hdel.2
    have := h.ofs
    have := h.fits
    rw [List.length_append]
    omega
  · rw [splitFrames_more (by decide) hs, handed_append, (hfr hup).1]
    exact (List.prefix_append_right_inj _).mpr hh'

/-! ### The call that loses the connection -/

def cbye : Bytes := ascii ['C', 'B', 'Y', 'E']

/-- A frame CBYE and two bytes more. -/
def byeEnv : UpdateEnv := ⟨frame cbye ++ [0, 0], [], 0, fun _ => .smooth, 1⟩

theorem fresh_opened (cfg : Config) : Fresh (.opened cfg) := ⟨rfl, rfl, rfl⟩

theorem delivers_byeEnv : Delivers (.opened .sample) byeEnv.avail := ⟨by decide, by decide⟩

theorem framed_byeEnv : Framed maxBody byeEnv.avail :=
  .cons (by decide) (.part (v := []) (by decide) (by decide) (by decide))

theorem arrived_byeEnv (s : State) : arrived [(s, byeEnv)] = byeEnv.avail := List.append_nil _

theorem calls_byeEnv : ∀ step ∈ [(State.opened .sample, byeEnv)],
    step.1.ctx.connected = true ∧ Delivers step.1 step.2.avail := by
  intro step hm
  rw [List.mem_singleton.mp hm]
  exact ⟨rfl, delivers_byeEnv⟩

theorem handMessage_cbye {e : MsgEnv} {msg : SspBuf} (h : Carries msg cbye) (s : State) : wp (handMessage e msg)
    (fun _ s' => s'.ctx.connected = false ∧ s'.ctx.receiveOfs = 0) (fun _ _ => False) s := by
  have hbye : sProcessMessage e msg = sSetDisconnected .none := by
    rw [h.sProcessMessage]; rfl
  unfold handMessage
  rw [hbye]
  exact ⟨rfl, rfl⟩

/-- A call that finds a frame CBYE at the front ends the connection. -/
theorem sUpdateContext_cbye {e : UpdateEnv} {x : Bytes} (h : Front w s) (hdel : Delivers s e.avail)
    (hbytes : w ++ e.avail = frame cbye ++ x) (hfuel : 0 < e.fuel) :
    ∃ s', (sUpdateContext e).run s = .ok () s' ∧ s'.ctx.connected = false ∧ s'.ctx.receiveOfs = 0 := by
  have hlen : cbye.length = 4 := rfl
  have hwp : wp (sUpdateContext e) (fun _ s' => s'.ctx.connected = false ∧ s'.ctx.receiveOfs = 0)
      (fun _ _ => False) s := by
    unfold sUpdateContext
    rw [wp_bind]
    refine wp_mono (receive_got (h.ofs ▸ h.fits) hdel e.now) ?_ fun _ _ => id
    rintro _ s₁ ⟨rfl, hg⟩
    have h₁ := hg.front
    rw [h.buffered_eq, hbytes] at h₁
    have hpl : s₁.ctx.packlen = cbye.length := by
      rw [h₁.packlen_eq (by simp; omega), frameLen_frame_append (by decide)]
    obtain ⟨fuel, hf⟩ := Nat.exists_eq_succ_of_ne_zero hfuel.ne'
    have hle := h₁.ofs
    rw [List.length_append, length_frame] at hle
    rw [if_pos rfl, wp_bind, hf, wp_eatPackets_succ, if_neg (by rw [hpl, packSize_eq (by decide)]; omega)]
    refine wp_mono (handMessage_cbye (h₁.carries hpl) s₁) ?_ fun _ _ => id
    rintro _ s₂ ⟨hdown, hofs⟩
    rw [if_neg (by rw [hdown]; decide)]
    exact ⟨hdown, hofs⟩
  obtain ⟨_, s', hrun, hend⟩ := exists_ok_of_wp hwp
  exact ⟨s', hrun, hend⟩

/-- The first half of a header. -/
def halfHeader : UpdateEnv := ⟨[0, 0], [], 0, fun _ => .smooth, 1⟩

/-- The other half, and the message. -/
def byeRest : UpdateEnv := ⟨[0, 4] ++ cbye ++ [0, 0], [], 0, fun _ => .smooth, 1⟩

/-- The header of the frame is cut. -/
theorem sUpdateContext_framing_cut : ∃ s₁ s₂, (sUpdateContext halfHeader).run (.opened .sample) = .ok () s₁ ∧
    (sUpdateContext byeRest).run s₁ = .ok () s₂ ∧ s₁.ctx.receiveOfs = 2 ∧ s₂.ctx.connected = false ∧
    Framing (.opened .sample) s₂ (halfHeader.avail ++ byeRest.avail) := by
  obtain ⟨s₁, h₁, hup, hofs, hfront, hroom⟩ : ∃ s₁, (sUpdateContext halfHeader).run (.opened .sample) = .ok () s₁ ∧
      s₁.ctx.connected = true ∧ s₁.ctx.receiveOfs = 2 ∧ Front [0, 0] s₁ ∧
      byeRest.avail.length ≤ receiveBufferSize - s₁.ctx.receiveOfs :=
    ⟨_, rfl, rfl, rfl, ⟨rfl, by decide, rfl⟩, by decide⟩
  have hdel : Delivers s₁ byeRest.avail := ⟨by decide, hroom⟩
  obtain ⟨s₂, h₂, hdown, -⟩ := sUpdateContext_cbye (x := [0, 0]) hfront hdel rfl (by decide)
  refine ⟨s₁, s₂, h₁, h₂, hofs, hdown, ?_⟩
  have harrived : arrived [(State.opened .sample, halfHeader), (s₁, byeRest)] = halfHeader.avail ++ byeRest.avail := rfl
  rw [← harrived]
  refine (sUpdateContext_framing (fresh_opened .sample) ((Run.single h₁).snoc h₂) ?_ framed_byeEnv).1
  rintro step hm
  rcases List.mem_cons.mp hm with rfl | hm
  · exact ⟨rfl, by decide, by decide⟩
  · rw [List.mem_singleton.mp hm]
    exact ⟨hup, hdel⟩

/-- The call that loses the connection does not keep the incomplete frame. -/
theorem trailing_frame_not_kept : ¬ ∀ (s₀ s : State) (steps : List (State × UpdateEnv)), Fresh s₀ →
    Run sUpdateContext s₀ steps s → (∀ step ∈ steps, step.1.ctx.connected = true ∧ Delivers step.1 step.2.avail) →
    Framed maxBody (arrived steps) → s.ctx.receiveOfs = (splitFrames (arrived steps)).2.length := by
  intro h
  obtain ⟨s, hrun, -, hofs⟩ :=
    sUpdateContext_cbye (fresh_opened .sample).waits.toFront delivers_byeEnv rfl (by decide)
  have hframed := framed_byeEnv
  rw [← arrived_byeEnv (.opened .sample)] at hframed
  have h := h _ s _ (fresh_opened .sample) (Run.single hrun) calls_byeEnv hframed
  rw [hofs, arrived_byeEnv] at h
  exact absurd h (by decide)

end Waynergy
