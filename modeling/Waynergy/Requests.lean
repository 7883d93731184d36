import Waynergy.MainLoop
import Waynergy.Oversized

/-!
# What a call asks for

`sUpdateContext` asks `m_receiveFunc` for as many bytes as it computes to have room for: behind the bytes that
are in the buffer, or, where it discards, from the start of the buffer on.
-/

namespace Waynergy
open Lib
variable {s s' : State} {w : Bytes} {msgs : Nat → MsgEnv}

/-! ### Requests -/

/-- `DitchAsks packlen n reads s k`: the discard loop, when `n` bytes of the packet have been received, asks
for `k` bytes. -/
inductive DitchAsks (packlen : Nat) : Int → List Bytes → State → Int → Prop
  | here {n : Int} {reads : List Bytes} {s : State} (hn : n % 2 ^ 32 ≠ packlen) :
      DitchAsks packlen n reads s (ditchRequest packlen n)
  | next {n k : Int} {m : Nat} {avail : Bytes} {reads : List Bytes} {s s' : State} (hn : n % 2 ^ 32 ≠ packlen)
      (hread : (ditchRead packlen n avail).run s = .ok (some m) s') (hmax : n + m ≤ intMax)
      (rest : DitchAsks packlen (n + m) reads s' k) : DitchAsks packlen n (avail :: reads) s k

/-- `Asks s e k room`: the call asks for `k` bytes, and there is room for `room` behind the position that it
has them written to. -/
inductive Asks (s : State) (e : UpdateEnv) : Int → Int → Prop
  | read : Asks s e (receiveBufferSize - s.ctx.receiveOfs) (receiveBufferSize - s.ctx.receiveOfs)
  | ditch {s₁ s₂ : State} {packlen : Nat} {k : Int} (hread : (receive e.avail e.now).run s = .ok true s₁)
      (heat : (eatPackets e.msgs 0 e.fuel).run s₁ = .ok (some packlen) s₂) (hover : packlen > receiveBufferSize)
      (h : DitchAsks packlen (s₂.ctx.receiveOfs - 4) e.ditch s₂ k) : Asks s e k receiveBufferSize

/-- The discard loop asks for what is left, if that is an `int`. -/
theorem DitchAsks.bounds {packlen : Nat} {n k : Int} {reads : List Bytes} (h : DitchAsks packlen n reads s k)
    (hp : packlen < 2 ^ 32) (hleft : (packlen - n) % 2 ^ 32 ≤ intMax) : 1 ≤ k ∧ k ≤ receiveBufferSize := by
  have hmax : intMax = 2147483647 := rfl
  have hsize : receiveBufferSize = 65535 := rfl
  induction h with
  | here hn =>
    rw [ditchRequest_eq rfl (by omega)]
    omega
  | @next n k m avail reads s s' hn hread _ _ ih =>
    refine ih ?_
    have hm : (m : Int) ≤ (packlen - n) % 2 ^ 32 := by
      have h : wp (ditchRead packlen n avail) (fun r _ => ∀ m, r = some m → (m : Int) ≤ (packlen - n) % 2 ^ 32)
          (fun _ _ => True) s := by
        rw [wp_ditchRead, ditchRequest_eq rfl (by omega)]
        split
        · exact fun _ h => by cases h
        · split
          · intro m hm
            cases hm
            rw [List.length_take]
            omega
          · trivial
      exact wp_ok h hread m rfl
    omega

/-! ### The bytes that are left -/

theorem consume_ofs (packlen : Nat) (s : State) : wp (consume packlen)
    (fun _ s' => s'.ctx.connected = s.ctx.connected ∧ s'.ctx.receiveOfs ≤ s.ctx.receiveOfs) (fun _ _ => True) s := by
  unfold consume
  simp only [wp_bind, wp_get, wp_ite, wp_throw, wp_emits, wp_setCtx]
  split
  exacts [trivial, ⟨trivial, Nat.sub_le _ _⟩]

theorem handMessage_ofs (e : MsgEnv) (msg : SspBuf) (up : s.ctx.connected = true) : wp (handMessage e msg)
    (fun _ s' => s'.ctx.receiveOfs ≤ s.ctx.receiveOfs ∧
      (s'.ctx.connected = false → isHello msg = false → s'.ctx.receiveOfs = 0)) (fun _ _ => True) s := by
  refine wp_mono (wp_and (handMessage_spec e msg s) (handMessage_life e msg up)) ?_ fun _ _ _ => trivial
  rintro _ s' ⟨hd, hlife⟩
  cases hup : s'.ctx.connected with
  | true => exact ⟨Nat.le_of_eq (hd.up hup), Bool.noConfusion⟩
  | false =>
    cases hlife with
    | stands _ up' _ => rw [hup] at up'; cases up'
    | leaves _ _ up' _ => rw [hup] at up'; cases up'
    | rests down _ _ _ => rw [up] at down; cases down
    | connects down _ _ => rw [up] at down; cases down
    | ends _ _ _ session _ =>
      have hofs : s'.ctx.receiveOfs = (msgEnding msg s.ctx.session).receiveOfs := congrArg Session.receiveOfs session
      rw [hofs, msgEnding]
      cases isHello msg with
      | true => exact ⟨Nat.le_refl _, fun _ h => Bool.noConfusion h⟩
      | false => exact ⟨Nat.zero_le _, fun _ _ => rfl⟩

theorem eatPackets_ofs (i fuel : Nat) (up : s.ctx.connected = true) : wp (eatPackets msgs i fuel)
    (fun _ s' => s'.ctx.receiveOfs ≤ s.ctx.receiveOfs) (fun _ _ => True) s := by
  induction fuel generalizing s i with
  | zero => trivial
  | succ fuel ih =>
    rw [wp_eatPackets_succ]
    split
    · exact Nat.le_refl _
    · refine wp_mono (handMessage_ofs (msgs i) _ up) ?_ fun _ _ => id
      rintro _ s₁ ⟨hle, -⟩
      split
      · rename_i hup₁
        refine wp_mono (consume_ofs _ s₁) ?_ fun _ _ => id
        rintro _ s₂ ⟨hup₂, hle₂⟩
        refine wp_mono (ih (i + 1) (hup₂.trans hup₁)) (fun _ s₃ hle₃ => ?_) fun _ _ => id
        omega
      · exact hle

theorem handMessage_hello {e : MsgEnv} {msg : SspBuf} {body imp : Bytes} (h : Carries msg body)
    (hw : welcomeOf body = some imp) (hsent : e.sent = true) : wp (handMessage e msg)
      (fun _ s' => s'.ctx.connected = s.ctx.connected) (fun _ _ => True) s := by
  unfold handMessage
  simp only [wp_bind, wp_get, wp_emits, h.sProcessMessage, hw]
  refine wp_mono (processHello_spec e imp _ _) ?_ fun _ _ _ => trivial
  rintro _ s' (hp | ⟨hf, -⟩)
  · exact hp.ctx.connected
  · rw [hsent] at hf
    cases hf

theorem Carries.isHello {msg : SspBuf} {body : Bytes} (h : Carries msg body) :
    isHello msg = (welcomeOf body).isSome := by
  rw [Waynergy.isHello, h.sIsWelcome]
  cases welcomeOf body <;> rfl

/-- Where the connection is lost at the first frame, nothing is left, or it was a hello that could not be
answered. -/
theorem handMessage_lost {e : MsgEnv} {msg : SspBuf} {body : Bytes} (h : Carries msg body)
    (up : s.ctx.connected = true) (hhello : (welcomeOf body).isSome = true → e.sent = true) :
    wp (handMessage e msg) (fun _ s' => s'.ctx.connected = false → s'.ctx.receiveOfs = 0) (fun _ _ => True) s := by
  cases hw : welcomeOf body with
  | none =>
    refine wp_mono (handMessage_ofs e msg up) (fun _ s' hs hdown => hs.2 hdown ?_) fun _ _ => id
    rw [h.isHello, hw]
    rfl
  | some imp =>
    refine wp_mono (handMessage_hello h hw (hhello (by rw [hw]; rfl))) (fun _ s' hs hdown => ?_) fun _ _ => id
    rw [hs, up] at hdown
    cases hdown

theorem eatPackets_lost {v : Bytes} {i fuel : Nat} (h : Front (frame v ++ w) s) (hv : v.length < 2 ^ 32)
    (up : s.ctx.connected = true) (hhello : (welcomeOf v).isSome = true → (msgs i).sent = true) :
    wp (eatPackets msgs i fuel) (fun r s' => r = none → s'.ctx.receiveOfs < (frame v ++ w).length)
      (fun _ _ => True) s := by
  have hlen : (frame v ++ w).length = v.length + 4 + w.length := by simp; omega
  cases fuel with
  | zero => trivial
  | succ fuel =>
    have hpl : s.ctx.packlen = v.length := by rw [h.packlen_eq (by omega), frameLen_frame_append hv]
    have hofs := h.ofs
    have hle := h.length_add_le
    rw [wp_eatPackets_succ]
    split
    · exact fun hnone => by cases hnone
    · refine wp_mono (wp_and (handMessage_spec (msgs i) s.ctx.packet s)
        (handMessage_lost (h.carries hpl) up hhello)) ?_ fun _ _ _ => trivial
      rintro _ s₁ ⟨hd, hlost⟩
      split
      · rename_i hup
        have hofs₁ := hd.up hup
        rw [hpl, wp_consume (by omega) (by omega)]
        refine wp_mono (eatPackets_ofs (i + 1) fuel hup) (fun r s₂ hle₂ _ => ?_) fun _ _ => id
        have hcons : (s₁.consumed v.length).ctx.receiveOfs = s₁.ctx.receiveOfs - (v.length + 4) := rfl
        omega
      · rename_i hdown
        intro _
        rw [hlost (eq_false_of_ne_true hdown)]
        omega

/-! ### Where the loop stops -/

/-- A packet whose length wraps around is moved out only if nothing follows it, and then nothing is moved. -/
theorem consume_wrapped {packlen : Nat} (hlt : packlen < 2 ^ 32) (hw : 2 ^ 32 ≤ packlen + 4)
    (hpass : packSize packlen ≤ s.ctx.receiveOfs) (hofs : s.ctx.receiveOfs ≤ receiveBufferSize) :
    wp (consume packlen) (fun _ s' => s'.ctx.receiveBuffer.bytes = s.ctx.receiveBuffer.bytes)
      (fun _ _ => True) s := by
  have hsize : receiveBufferSize = 65535 := rfl
  have hlen : (s.ctx.receiveOfs + (2 ^ 32 - packSize packlen)) % 2 ^ 32 = s.ctx.receiveOfs - packSize packlen := by
    omega
  unfold consume
  simp only [wp_bind, wp_get, wp_ite, wp_throw, wp_emits, wp_setCtx, hlen]
  split
  · trivial
  · have hnone : s.ctx.receiveOfs - packSize packlen = 0 := by omega
    show overwrite _ 0 (slice _ _ (s.ctx.receiveOfs - packSize packlen)) = _
    rw [hnone, slice, List.take_zero, overwrite_nil]

theorem eatPackets_wrapped {i fuel : Nat} (up : s.ctx.connected = true) (hofs : s.ctx.receiveOfs ≤ receiveBufferSize)
    (hw : 2 ^ 32 ≤ s.ctx.packlen + 4) : wp (eatPackets msgs i fuel) (fun r s' =>
      (r = none → s'.ctx.connected = false) ∧
        ∀ p, r = some p → p = s'.ctx.packlen ∧ s'.ctx.receiveOfs < packSize p ∧ 2 ^ 32 ≤ p + 4)
      (fun _ _ => True) s := by
  induction fuel generalizing s i with
  | zero => trivial
  | succ fuel ih =>
    rw [wp_eatPackets_succ]
    split
    · rename_i hstop
      refine ⟨fun h => (by cases h), ?_⟩
      rintro _ ⟨⟩
      exact ⟨rfl, hstop, hw⟩
    · rename_i hpass
      refine wp_mono (handMessage_spec (msgs i) s.ctx.packet s) ?_ fun _ _ _ => trivial
      rintro _ s₁ hd
      split
      · rename_i hup
        have hofs₁ := hd.up hup
        refine wp_mono (wp_and (consume_ofs _ s₁) (consume_wrapped s.ctx.packlen_lt hw (by omega) (by omega))) ?_
          fun _ _ _ => trivial
        rintro _ s₂ ⟨⟨hup₂, hle₂⟩, hbytes⟩
        refine ih (hup₂.trans hup) (by omega) ?_
        rw [packlen_eq_frameLen, hbytes, hd.buffer, ← packlen_eq_frameLen]
        exact hw
      · rename_i hdown
        exact ⟨fun _ => eq_false_of_ne_true hdown, fun _ h => by cases h⟩

/-- How the loop ends on the bytes `w`, of which `header` is the last header: at this header, with the incomplete
frame at the front, or at one that wraps around; or without a connection. -/
def Stops (header : Nat) (w : Bytes) (r : Option Nat) (s : State) : Prop :=
  (r = none → s.ctx.connected = false) ∧ ∀ p, r = some p → p = s.ctx.packlen ∧ s.ctx.receiveOfs < packSize p ∧
    (p = header ∧ Front (splitFrames w).2 s ∨ 2 ^ 32 ≤ p + 4)

theorem eatPackets_stops (h : Front w s) (up : s.ctx.connected = true) (msgs : Nat → MsgEnv) (i fuel : Nat) :
    wp (eatPackets msgs i fuel) (Stops (lastHeader s.ctx.receiveBuffer.bytes w) w) (fun _ _ => True) s := by
  refine wp_eatPackets_frames h ?_ ?_ fun _ _ _ _ _ => trivial
  · intro i' fuel' s₁ he _
    by_cases hstop : packSize s₁.ctx.packlen > s₁.ctx.receiveOfs
    · cases fuel' with
      | zero => trivial
      | succ fuel' =>
        rw [wp_eatPackets_succ, if_pos hstop]
        refine ⟨fun h => (by cases h), ?_⟩
        rintro _ ⟨⟩
        exact ⟨rfl, hstop, .inl ⟨he.packlen, he.front⟩⟩
    · have hgt := he.front.lt_packlen (splitFrames_join w).2
      have hofs := he.front.ofs
      have hfits := he.front.fits
      have hwrap : 2 ^ 32 ≤ s₁.ctx.packlen + 4 := by
        by_contra hlt
        rw [packSize_eq (by omega)] at hstop
        omega
      refine wp_mono (eatPackets_wrapped (he.up up) (by omega) hwrap) ?_ fun _ _ => id
      rintro r s₂ ⟨hnone, hsome⟩
      refine ⟨hnone, fun p hp => ?_⟩
      obtain ⟨hpl, hlt, hge⟩ := hsome p hp
      exact ⟨hpl, hlt, .inr hge⟩
  · exact fun s₁ hl => ⟨fun _ => hl.down, fun _ h => by cases h⟩

/-! ### One call -/

/-- The bytes that the first read of a call takes, of those that are there. -/
def Context.taken (c : Context) (avail : Bytes) : Bytes := avail.take (receiveBufferSize - c.receiveOfs)

/-- What leaves room in the buffer, and what is left to discard an `int`. -/
structure Roomy (s : State) (e : UpdateEnv) : Prop where
  /-- The buffer is not full of a frame that is neither handed over nor discarded. -/
  rest : (s.ctx.rest (s.ctx.taken e.avail)).length < receiveBufferSize ∨
    receiveBufferSize < s.ctx.stopHeader (s.ctx.taken e.avail) ∧ s.ctx.stopHeader (s.ctx.taken e.avail) + 4 < 2 ^ 32
  /-- A full buffer does not begin with a hello that cannot be answered. -/
  hello : (s.ctx.buffered ++ s.ctx.taken e.avail).length = receiveBufferSize →
    ∀ v, (splitFrames (s.ctx.buffered ++ s.ctx.taken e.avail)).1.head? = some v → (welcomeOf v).isSome = true →
      (e.msgs 0).sent = true
  /-- An oversized packet has at most `INT_MAX` bytes to come. -/
  left : packSize (s.ctx.stopHeader (s.ctx.taken e.avail)) ≤ intMax + (s.ctx.rest (s.ctx.taken e.avail)).length

theorem receive_taken (hofs : s.ctx.receiveOfs ≤ receiveBufferSize) (avail : Bytes) (now : Nat) :
    wp (receive avail now) (fun up s' => if up = true then Got (s.ctx.taken avail) s s' else s' = s.timedOut)
      (fun _ _ => False) s := by
  have htake : avail.take (receiveBufferSize - s.ctx.receiveOfs : Int).toNat = s.ctx.taken avail := by
    rw [Context.taken]
    congr 1
    omega
  rw [wp_receive, htake]
  split
  · rfl
  · rename_i hne
    exact received_got hofs ⟨hne, by rw [Context.taken, List.length_take]; omega⟩ now

theorem ditchOversized_ofs (packlen : Nat) (reads : List Bytes) (s : State) : wp (ditchOversized packlen reads)
    (fun _ s' => if packlen > receiveBufferSize then s'.ctx.receiveOfs = 0 else s' = s) (fun _ _ => True) s := by
  unfold ditchOversized
  rw [wp_ite]
  split
  · rw [wp_bind, wp_get, wp_bind]
    exact wp_mono (wp_true _ s) (fun _ _ _ => rfl) fun _ _ => id
  · rfl

/-- Also where the connection is lost, there is room. -/
theorem eatPackets_room (fuel : Nat) (h : Front w s) (up : s.ctx.connected = true)
    (hhello : w.length = receiveBufferSize → ∀ v, (splitFrames w).1.head? = some v →
      (welcomeOf v).isSome = true → (msgs 0).sent = true)
    (hrest : (splitFrames w).2.length < receiveBufferSize ∨
      receiveBufferSize < lastHeader s.ctx.receiveBuffer.bytes w ∧
        lastHeader s.ctx.receiveBuffer.bytes w + 4 < 2 ^ 32) :
    wp (eatPackets msgs 0 fuel) (fun r s' => r = none → s'.ctx.receiveOfs < receiveBufferSize) (fun _ _ => True) s := by
  have hofs := h.ofs
  rcases Nat.lt_or_eq_of_le h.fits with hlt | hfull
  · refine wp_mono (eatPackets_ofs 0 fuel up) (fun r s' hle _ => ?_) fun _ _ => id
    omega
  by_cases hw : Whole w
  · obtain ⟨v, t, rfl, hv⟩ := hw.eq_frame
    have hhead := hhello hfull v (by rw [splitFrames_frame_append hv]; rfl)
    refine wp_mono (eatPackets_lost h hv up hhead) (fun r s' hlt hr => ?_) fun _ _ => id
    rw [← hfull]
    exact hlt hr
  · rw [splitFrames_of_not_whole hw] at hrest
    rw [lastHeader_of_not_whole hw, h.overwrite_eq, ← packlen_eq_frameLen] at hrest
    rcases hrest with hlt | ⟨-, hnowrap⟩
    · exact absurd hfull (Nat.ne_of_lt hlt)
    · cases fuel with
      | zero => trivial
      | succ fuel =>
        have hgt := h.lt_packlen hw
        rw [wp_eatPackets_succ, if_pos (by rw [packSize_eq hnowrap]; omega)]
        exact fun hr => by cases hr

/-- The room that a call leaves, and what it has done with the frames that have arrived. -/
theorem sUpdateContext_room {e : UpdateEnv} (hofs : s.ctx.receiveOfs < receiveBufferSize)
    (up : s.ctx.connected = true) (hr : Roomy s e) : wp (sUpdateContext e)
      (fun _ s' => s'.ctx.receiveOfs < receiveBufferSize ∧ (s'.ctx.connected = true → ¬ Whole s'.ctx.buffered))
      (fun _ _ => True) s := by
  have hsize : receiveBufferSize = 65535 := rfl
  unfold sUpdateContext
  rw [wp_bind]
  refine wp_mono (receive_taken (Nat.le_of_lt hofs) e.avail e.now) ?_ fun _ _ => False.elim
  intro got s₁ hg
  cases got with
  | false =>
    rw [if_neg (by decide)] at hg ⊢
    rw [hg]
    exact ⟨show 0 < receiveBufferSize by decide, fun h => by cases h⟩
  | true =>
    rw [if_pos rfl] at hg ⊢
    have hfits := hg.front.fits
    have hofs₁ := hg.front.ofs
    have hup₁ := hg.up.trans up
    have hstop : lastHeader s₁.ctx.receiveBuffer.bytes (s.ctx.buffered ++ s.ctx.taken e.avail) =
        s.ctx.stopHeader (s.ctx.taken e.avail) := by
      rw [hg.bytes, lastHeader_overwrite]; rfl
    have hlost := eatPackets_room e.fuel hg.front hup₁ hr.hello (by rw [hstop]; exact hr.rest)
    have hstops := eatPackets_stops hg.front hup₁ e.msgs 0 e.fuel
    rw [hstop] at hstops
    rw [wp_bind]
    refine wp_mono (wp_and hstops hlost) ?_ fun _ _ _ => trivial
    rintro r s₂ ⟨⟨hnone, hsome⟩, hlost⟩
    cases r with
    | none =>
      refine ⟨hlost rfl, fun h => ?_⟩
      rw [hnone rfl] at h
      cases h
    | some p =>
      obtain ⟨hpl, hlt, hp⟩ := hsome p rfl
      refine wp_mono (ditchOversized_ofs p e.ditch s₂) ?_ fun _ _ => id
      intro _ s₃ hend
      split at hend
      · have hfront : Front [] s₃ := .nil hend
        exact ⟨by rw [hend]; decide, fun _ => by rw [hfront.buffered_eq]; decide⟩
      · rename_i hsmall
        subst hend
        rcases hp with ⟨hp, hfront⟩ | hwrap
        · refine ⟨?_, fun _ => by rw [hfront.buffered_eq]; exact (splitFrames_join _).2⟩
          rcases hr.rest with hlt | ⟨hbig, -⟩
          · rw [hfront.ofs]; exact hlt
          · omega
        · omega

/-- Every request of a call is for at least one byte, and for no more than there is room for. -/
theorem Asks.sensible {e : UpdateEnv} {n room : Int} (h : Asks s e n room) (hofs : s.ctx.receiveOfs < receiveBufferSize)
    (up : s.ctx.connected = true) (hr : Roomy s e) : 1 ≤ n ∧ n ≤ room := by
  have hmax : intMax = 2147483647 := rfl
  cases h with
  | read => omega
  | @ditch s₁ s₂ p k hread heat hover h =>
    have hg := wp_ok (receive_taken (Nat.le_of_lt hofs) e.avail e.now) hread
    rw [if_pos rfl] at hg
    have hstops := wp_ok (eatPackets_stops hg.front (hg.up.trans up) e.msgs 0 e.fuel) heat
    obtain ⟨hpl, hlt, hp⟩ := hstops.2 p rfl
    have hp32 : p < 2 ^ 32 := hpl ▸ s₂.ctx.packlen_lt
    refine h.bounds hp32 ?_
    have hleft : packSize p ≤ intMax + s₂.ctx.receiveOfs := by
      rcases hp with ⟨hp, hfront⟩ | hwrap
      · rw [hfront.ofs, hp, hg.bytes, lastHeader_overwrite]
        exact hr.left
      · unfold packSize
        omega
    unfold packSize at hleft hlt
    omega

/-! ### Turns of the main loop -/

/-- What the main loop does between two calls. -/
inductive Turn
  | update (e : SynEnv)
  | netDisconnect
  | handle (ev : LocalEvent)

def Turn.exec : Turn → Syn Unit
  | update e => uSynergyUpdate e
  | netDisconnect => do
    let _ ← synNetDisconnect
    pure ()
  | handle ev => ev.handle

theorem mainLoop_turns (e : MainEnv) (s : State) : Performs Turn.exec (fun _ => False) (mainLoop e) s := by
  have of_turn : ∀ (turn : Turn) (s : State), Performs Turn.exec (fun _ => False) turn.exec s :=
    fun turn s => Performs.of_op turn (by rw [bind_pure_unit])
  exact performs_mainLoop (fun e => of_turn (.update e)) (of_turn .netDisconnect) (fun ev => of_turn (.handle ev)) e

theorem run_update {e : SynEnv} (up : s.ctx.connected = true) :
    (Turn.exec (.update e)).run s = (sUpdateContext e.update).run s := by
  rw [Turn.exec, uSynergyUpdate, EStateM.run_bind]
  show (if s.ctx.connected = true then _ else _ : Syn Unit).run s = _
  rw [if_pos up]

/-- The calls of `sUpdateContext` that the turn makes leave room. -/
def Turn.Keeps (s : State) : Turn → Prop
  | update e => s.ctx.connected = true → Roomy s e.update
  | _ => True

theorem Turn.room (turn : Turn) (hofs : s.ctx.receiveOfs < receiveBufferSize) (hr : turn.Keeps s) :
    wp turn.exec (fun _ s' => s'.ctx.receiveOfs < receiveBufferSize) (fun _ _ => True) s := by
  cases turn with
  | update e =>
    show wp (uSynergyUpdate e) _ _ s
    unfold uSynergyUpdate
    rw [wp_bind, wp_get, wp_ite]
    split
    · rename_i up
      exact wp_mono (sUpdateContext_room hofs up (hr up)) (fun _ _ h => h.1) fun _ _ => id
    · have hquiet := Quiet.tryConnect e.connect
      refine wp_mono (hquiet s) (fun _ s' h => ?_) fun _ _ _ => trivial
      have hsame : s'.ctx.receiveOfs = s.ctx.receiveOfs := congrArg Session.receiveOfs h.session
      rw [hsame]
      exact hofs
  | netDisconnect =>
    have hquiet := Within.bind (Quiet.byNet.synNetDisconnect (S := fun _ => True)) fun _ => Within.pure (R := Quiet) ()
    refine wp_mono (hquiet s) (fun _ s' h => ?_) fun _ _ _ => trivial
    have hsame : s'.ctx.receiveOfs = s.ctx.receiveOfs := congrArg Session.receiveOfs h.session
    rw [hsame]
    exact hofs
  | handle ev =>
    refine wp_mono (handle_spec ev s) ?_ fun _ _ => id
    rintro _ s' ⟨⟨b, n, clip, w, h, info, hc⟩, -⟩
    rwa [hc]

/-- As long as every call leaves room, the next one asks for bytes that there is room for, and leaves no
complete frame behind. -/
theorem requests_sensible {cfg : Config} {steps : List (State × Turn)} (hrun : Run Turn.exec (State.init cfg) steps s)
    (hroom : ∀ step ∈ steps, step.2.Keeps step.1) {e : UpdateEnv} (up : s.ctx.connected = true) (hr : Roomy s e) :
    (∀ n room, Asks s e n room → 1 ≤ n ∧ n ≤ room) ∧
      wp (sUpdateContext e) (fun _ s' => s'.ctx.receiveOfs < receiveBufferSize ∧
        (s'.ctx.connected = true → ¬ Whole s'.ctx.buffered)) (fun _ _ => True) s := by
  have hofs : s.ctx.receiveOfs < receiveBufferSize := by
    refine hrun.invariant (P := fun s => s.ctx.receiveOfs < receiveBufferSize) (show 0 < receiveBufferSize by decide) ?_
    intro t turn t' hm ht hturn
    have hwp := turn.room ht (hroom (t, turn) hm)
    exact wp_ok (Q := fun _ s' => s'.ctx.receiveOfs < receiveBufferSize) hwp hturn
  exact ⟨fun n room h => h.sensible hofs up hr, sUpdateContext_room hofs up hr⟩

/-! ### A frame that fills the buffer -/

def connectTurn : Turn := .update ⟨⟨[], [], 0, fun _ => .smooth, 0⟩, ⟨some [.socket 3 true], 0⟩⟩

theorem run_connectTurn : Run Turn.exec (State.init .sample) [(.init .sample, connectTurn)] (.opened .sample) :=
  Run.single rfl

theorem keeps_connectTurn : ∀ step ∈ [(State.init .sample, connectTurn)], step.2.Keeps step.1 := by
  intro step hm
  rw [List.mem_singleton.mp hm]
  exact fun up => by cases up

theorem roomy_bigEnv : Roomy (.opened .sample) bigEnv := by
  have hrest : (State.opened .sample).ctx.rest bigEnv.avail = bigEnv.avail :=
    congrArg Prod.snd (splitFrames_of_not_whole (by decide))
  have hstop : (State.opened .sample).ctx.stopHeader bigEnv.avail = 65536 :=
    (stopHeader_opened .sample bigEnv.avail).trans (by decide)
  have htaken : (State.opened .sample).ctx.taken bigEnv.avail = bigEnv.avail := List.take_of_length_le (by decide)
  refine ⟨?_, ?_, ?_⟩ <;> rw [htaken]
  · exact .inl (by rw [hrest]; decide)
  · intro hlen
    exact absurd hlen (by decide)
  · rw [hstop, hrest]
    decide

theorem requests_sensible_bigEnv : (∀ n room, Asks (.opened .sample) bigEnv n room → 1 ≤ n ∧ n ≤ room) ∧
    wp (sUpdateContext bigEnv) (fun _ s' => s'.ctx.receiveOfs < receiveBufferSize ∧
      (s'.ctx.connected = true → ¬ Whole s'.ctx.buffered)) (fun _ _ => True) (.opened .sample) :=
  requests_sensible run_connectTurn keeps_connectTurn rfl roomy_bigEnv

/-- With a full buffer a call asks for no byte, and reports a timeout whatever there is. -/
theorem sUpdateContext_timedOut (hofs : s.ctx.receiveOfs = receiveBufferSize) (e : UpdateEnv) :
    (sUpdateContext e).run s = .ok () s.timedOut := by
  have hwp : wp (sUpdateContext e) (fun _ s' => s' = s.timedOut) (fun _ _ => False) s := by
    unfold sUpdateContext
    rw [wp_bind, wp_receive, hofs, if_pos (by rw [Int.sub_self]; exact List.take_zero)]
    rfl
  obtain ⟨_, s', hrun, rfl⟩ := exists_ok_of_wp hwp
  exact hrun

/-- A frame of 65532 bytes fills the buffer before it is complete. -/
theorem sUpdateContext_full {e : UpdateEnv} (hlen : e.avail.length = 65535) (hframe : frameLen e.avail = 65532)
    (hditch : e.ditch = []) (hfuel : 65535 < e.fuel) : ∃ s, (sUpdateContext e).run (.opened .sample) = .ok () s ∧
      s.ctx.connected = true ∧ s.ctx.receiveOfs = receiveBufferSize := by
  have hmax : intMax = 2147483647 := rfl
  have hw : ¬ Whole e.avail := by
    unfold Whole
    omega
  have hsplit := splitFrames_of_not_whole hw
  have hrest : (State.opened .sample).ctx.rest e.avail = e.avail := congrArg Prod.snd hsplit
  have hstop : (State.opened .sample).ctx.stopHeader e.avail = 65532 := by
    rw [stopHeader_opened, lastHeader_of_four (by rw [hsplit, hlen]; decide), hsplit]
    exact hframe
  have hcount : (State.opened .sample).ctx.ditchCount e.avail = 0 := by
    rw [Context.ditchCount, hstop]
    rfl
  have hdel : Delivers (.opened .sample) e.avail :=
    ⟨List.ne_nil_of_length_pos (by omega), show e.avail.length ≤ 65535 by omega⟩
  have hreads : Pieces ((State.opened .sample).ctx.ditchCount e.avail) e.ditch := by
    rw [hcount, hditch]
    rfl
  obtain ⟨s, hrun, hup, hfront⟩ := sUpdateContext_part (Nat.zero_le _) rfl hdel (by omega) (by omega) hreads hw
    (show e.avail.length < e.fuel by omega)
  rw [hcount, if_pos rfl] at hfront
  exact ⟨s, hrun, hup, hfront.ofs.trans hlen⟩

/-- A frame of 65532 bytes, but for its last byte. -/
def fillEnv : UpdateEnv := ⟨[0, 0, 255, 252] ++ List.replicate 65531 0, [], 0, fun _ => .smooth, 65536⟩

theorem length_fillEnv : fillEnv.avail.length = 65535 := by
  show ([0, 0, 255, 252] ++ List.replicate 65531 0 : Bytes).length = 65535
  rw [List.length_append, List.length_replicate]
  rfl

theorem frameLen_fillEnv : frameLen fillEnv.avail = 65532 := by
  show beNat [0, 0, 255, 252] = 65532
  decide

/-- A call may ask for no byte at all. -/
theorem requests_not_sensible : ¬ ∀ (cfg : Config) (steps : List (State × Turn)) (s : State) (e : UpdateEnv)
    (n room : Int), Run Turn.exec (State.init cfg) steps s → s.ctx.connected = true → Asks s e n room →
    1 ≤ n ∧ n ≤ room := by
  intro h
  obtain ⟨s, hrun, hup, hofs⟩ := sUpdateContext_full length_fillEnv frameLen_fillEnv rfl (Nat.lt_succ_self 65535)
  have hturn : (Turn.exec (.update ⟨fillEnv, ⟨none, 0⟩⟩)).run (.opened .sample) = .ok () s :=
    (run_update rfl).trans hrun
  have hzero := (h _ _ s fillEnv _ _ (run_connectTurn.snoc hturn) hup .read).1
  rw [hofs] at hzero
  exact absurd hzero (by decide)

end Waynergy
