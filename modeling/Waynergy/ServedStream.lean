import Waynergy.ServedClip
import Waynergy.Stream

/-!
# A stream of messages is served

The receive loop hands over the frames that are complete, so what a call of `sUpdateContext` does is what the desk does
with one message after another, until one of them ends the connection.
-/

namespace Waynergy
open Lib
variable {d d' : Desk} {s s' s'' : State} {msg : SspBuf} {w : Bytes}

/-! ### Inputs one after another -/

namespace Desk

theorem takeAll_append (d : Desk) (xs ys : List Input) : d.takeAll (xs ++ ys) =
    match d.takeAll xs with
    | (none, evs) => (none, evs)
    | (some d', evs) => ((d'.takeAll ys).1, evs ++ (d'.takeAll ys).2) := by
  induction xs generalizing d with
  | nil => rfl
  | cons x xs ih =>
    rw [List.cons_append, takeAll, takeAll]
    rcases d.take x with ⟨_ | d', evs⟩
    · rfl
    · simp only [ih d']
      rcases d'.takeAll xs with ⟨_ | d'', evs'⟩
      · rfl
      · simp only [List.append_assoc]

theorem AdmitsAll.append {d : Desk} {xs ys : List Input} (h : d.AdmitsAll (xs ++ ys)) :
    d.AdmitsAll xs ∧ ∀ d', (d.takeAll xs).1 = some d' → d'.AdmitsAll ys := by
  induction xs generalizing d with
  | nil =>
    refine ⟨trivial, ?_⟩
    rintro d' ⟨⟩
    exact h
  | cons x xs ih =>
    obtain ⟨hx, hxs⟩ := h
    refine ⟨⟨hx, fun d' hd => (ih (hxs d' hd)).1⟩, ?_⟩
    intro d' hd
    rw [takeAll] at hd
    cases htake : d.take x with
    | mk r evs =>
      rw [htake] at hd
      cases r with
      | none => cases hd
      | some d₁ => exact (ih (hxs d₁ (by rw [htake]))).2 d' hd

end Desk

/-! ### What is said -/

/-- The events that are seen outside. -/
def spoken (evs : List Event) : List Event := evs.filter fun
  | .message .. | .returned _ | .shift .. => false
  | _ => true

theorem spoken_append (evs evs' : List Event) : spoken (evs ++ evs') = spoken evs ++ spoken evs' :=
  List.filter_append ..

theorem spoken_of_not_ghost {evs : List Event} (h : ∀ ev ∈ evs, ¬ ev.Ghost) : spoken evs = evs := by
  refine List.filter_eq_self.mpr fun ev hev => ?_
  have hno := h ev hev
  cases ev <;> simp_all [Event.Ghost]

/-- From `s` to `s'` the client said what `r` says; the desk after it is tracked, if there is one. -/
structure Spoke (r : Option Desk × List Event) (s s' : State) : Prop where
  out : ∃ evs, s'.out = s.out ++ evs ∧ spoken evs = r.2
  desk : ∀ d', r.1 = some d' → Tracks d' s'
  lost : r.1 = none → s'.ctx.connected = false

namespace Spoke

theorem refl (h : Tracks d s) : Spoke (some d, []) s s := by
  refine ⟨⟨[], (List.append_nil _).symm, rfl⟩, ?_, ?_⟩
  · rintro d' ⟨⟩
    exact h
  · rintro ⟨⟩

theorem trans {evs : List Event} {r : Option Desk × List Event} (h : Spoke (some d, evs) s s') (h' : Spoke r s' s'') :
    Spoke (r.1, evs ++ r.2) s s'' := by
  obtain ⟨evs₁, ho, hs⟩ := h.out
  obtain ⟨evs₂, ho', hs'⟩ := h'.out
  refine ⟨⟨evs₁ ++ evs₂, ?_, ?_⟩, h'.desk, h'.lost⟩
  · rw [ho', ho, List.append_assoc]
  · rw [spoken_append, hs, hs']

/-- The input that a list of inputs starts with. -/
theorem cons {x : Input} {xs : List Input} (h : Spoke (d.take x) s s')
    (h' : ∀ d', (d.take x).1 = some d' → Spoke (d'.takeAll xs) s' s'') (hnone : (d.take x).1 = none → s'' = s') :
    Spoke (d.takeAll (x :: xs)) s s'' := by
  rw [Desk.takeAll]
  rcases htake : d.take x with ⟨_ | d', evs⟩
  · rw [hnone (by rw [htake])]
    rwa [htake] at h
  · rw [htake] at h
    exact h.trans (h' d' (by rw [htake]))

/-- A list of inputs after another one. -/
theorem append {xs ys : List Input} (h : Spoke (d.takeAll xs) s s') (hd : (d.takeAll xs).1 = some d')
    (h' : Spoke (d'.takeAll ys) s' s'') : Spoke (d.takeAll (xs ++ ys)) s s'' := by
  rw [Desk.takeAll_append]
  rcases htake : d.takeAll xs with ⟨_ | d₁, evs⟩
  · rw [htake] at hd
    cases hd
  · rw [htake] at hd h
    cases hd
    exact h.trans h'

end Spoke

/-! ### A message -/

theorem heard_handMessage {m : ServerMsg} {e : MsgEnv} (h : Tracks d s) (hmsg : Carries msg m.encode)
    (hlen : m.encode.length < 2 ^ 32) (hadmits : d.Admits (.server m)) (he : e.Serves) :
    wp (handMessage e msg) (fun _ s' => Spoke (d.hear m) s s' ∧ Handed msg s s') (fun _ _ => False) s := by
  have hwp : wp (handMessage e msg) (fun _ s' => Spoke (d.hear m) s s') (fun _ _ => False) s := by
    unfold handMessage
    simp only [wp_bind, wp_get, wp_emits]
    refine wp_mono (wp_and (Serves.all m (h.told _) hmsg hlen hadmits he) (IsTame.sProcessMessage e msg _)) ?_
      fun _ _ hf => hf.1
    rintro _ s₁ ⟨hheard, htame⟩
    obtain ⟨evs, ho, hghost, -⟩ := htame.out
    have hevs : evs = (d.hear m).2 := List.append_cancel_left (ho.symm.trans hheard.out)
    refine ⟨⟨_, by rw [hheard.out, List.append_assoc, List.append_assoc], ?_⟩, ?_, hheard.lost⟩
    · rw [spoken_append, spoken_append, ← hevs, spoken_of_not_ghost hghost]
      exact List.append_nil _
    · intro d' hd
      exact (hheard.desk d' hd).told _
  refine wp_mono (wp_and hwp (handMessage_spec e msg s)) (fun _ _ => id) fun _ _ hf => hf.1

/-! ### The loop -/

theorem Tracks.consumed (h : Tracks d s) (packlen : Nat) : Tracks d (s.consumed packlen) := { h with }

/-- Behind a frame that was taken off, the header is again that of a small frame. -/
theorem Holds.consumed {cap : Nat} {v : Bytes} (hcap : cap ≤ maxBody) (h : Holds (frame v ++ w) s)
    (hw : Framed cap w) (hb : s'.ctx.receiveBuffer = s.ctx.receiveBuffer) (ho : s'.ctx.receiveOfs = s.ctx.receiveOfs)
    (hup : s'.ctx.connected = true) : Holds w (s'.consumed v.length) := by
  obtain ⟨hfront, hbytes⟩ := h.toFront.consumed hb ho
  refine .of_front hfront hup ?_
  rw [packlen_eq_frameLen, hbytes]
  refine hw.frameLen_overwrite_lt (Nat.lt_of_le_of_lt hcap (by decide)) (length_receiveBuffer s) fun j hj => .inr ?_
  rcases (by omega : j = 0 ∨ j = 1) with rfl | rfl
  exacts [h.zero, h.one]

/-- The loop serves the complete frames, one after another. -/
theorem spoke_eatPackets {cap : Nat} (hcap : cap ≤ maxBody) {msgs : Nat → MsgEnv} (he : ∀ i, (msgs i).Serves)
    (hw : Framed cap w) (hold : Holds w s) (h : Tracks d s) {ms : List ServerMsg}
    (hms : (splitFrames w).1 = ms.map ServerMsg.encode) (hadmits : d.AdmitsAll (ms.map .server)) (i fuel : Nat) :
    wp (eatPackets msgs i fuel)
      (fun r s' => Spoke (d.takeAll (ms.map .server)) s s' ∧
        (r = none ∧ s'.ctx.connected = false ∨
          ∃ n, r = some n ∧ n ≤ receiveBufferSize ∧ Holds (splitFrames w).2 s'))
      (fun _ _ => fuel ≤ w.length) s := by
  have hcap' : cap < 2 ^ 32 := Nat.lt_of_le_of_lt hcap (by decide)
  induction fuel generalizing w s d ms i with
  | zero => exact Nat.zero_le _
  | succ fuel ih =>
    have hlt := hold.packlen_lt
    have hofs := hold.ofs
    rw [wp_eatPackets_succ]
    by_cases hwhole : Whole w
    · obtain ⟨v, w, rfl, hv⟩ := hwhole.eq_frame
      rw [splitFrames_frame_append hv] at hms
      rcases ms with _ | ⟨m, ms⟩
      · cases hms
      · rw [List.map_cons, List.cons.injEq] at hms
        obtain ⟨rfl, hms⟩ := hms
        rw [List.map_cons] at hadmits
        obtain ⟨hm, hrest⟩ := hadmits
        have hlen : (frame m.encode ++ w).length = 4 + m.encode.length + w.length := by simp
        have hfront := hold.toFront
        have hpl : s.ctx.packlen = m.encode.length := by
          rw [hfront.packlen_eq (by omega), frameLen_frame_append hv]
        rw [if_neg (by rw [hpl, packSize_eq (by omega)]; omega), hpl]
        refine wp_mono (heard_handMessage h (hfront.carries hpl) hv hm (he i)) ?_ fun _ _ => False.elim
        rintro _ s₁ ⟨hspoke, hhanded⟩
        cases hd : (d.hear m).1 with
        | none =>
          have hdown := hspoke.lost hd
          rw [if_neg (by rw [hdown]; decide)]
          refine ⟨.cons hspoke ?_ fun _ => rfl, .inl ⟨rfl, hdown⟩⟩
          intro d' hd'
          rw [show (d.take (.server m)).1 = none from hd] at hd'
          cases hd'
        | some d' =>
          have h₁ := hspoke.desk d' hd
          have hofs₁ := hhanded.up h₁.up
          have hle := hfront.length_add_le
          have hfits : s₁.ctx.receiveOfs = m.encode.length + 4 + w.length := by omega
          rw [if_pos h₁.up, wp_consume (by omega) (by omega)]
          have hold₁ := hold.consumed hcap (hw.of_frame_append hcap' hv) hhanded.buffer hofs₁ h₁.up
          refine wp_mono (ih (hw.of_frame_append hcap' hv) hold₁ (h₁.consumed _) hms (hrest d' hd) (i + 1)) ?_ ?_
          · rintro r s' ⟨hspoke', hr⟩
            rw [splitFrames_frame_append hv]
            refine ⟨.cons hspoke (fun d'' hd'' => ?_) fun hnone => ?_, hr⟩
            · rw [show (d.take (.server m)).1 = some d' from hd] at hd''
              cases hd''
              have hshift : Spoke (some d', []) s₁ (s₁.consumed m.encode.length) :=
                ⟨⟨_, rfl, rfl⟩, by rintro _ ⟨⟩; exact h₁.consumed _, by rintro ⟨⟩⟩
              exact hshift.trans hspoke'
            · rw [show (d.take (.server m)).1 = some d' from hd] at hnone
              cases hnone
          · intro _ _ hle'
            omega
    · rw [splitFrames_of_not_whole hwhole] at hms ⊢
      obtain rfl : ms = [] := List.map_eq_nil_iff.mp hms.symm
      have hgt := hold.toFront.lt_packlen hwhole
      rw [if_pos (by rw [packSize_eq (by omega)]; omega)]
      exact ⟨.refl h, .inr ⟨_, rfl, Nat.le_of_lt_succ hlt, hold⟩⟩

/-! ### A call -/

theorem tracks_receive {bs : Bytes} (h : Tracks d s) (hbs : Delivers s bs) (hofs : s.ctx.receiveOfs ≤ receiveBufferSize)
    (now : Nat) : wp (receive bs now) (fun _ s' => Tracks d s') (fun _ _ => True) s := by
  have htake : bs.take ((receiveBufferSize : Int) - s.ctx.receiveOfs).toNat = bs :=
    List.take_of_length_le (by have := hbs.2; omega)
  unfold receive synRecv
  simp only [wp_bind, wp_get, htake, if_neg hbs.1, wp_pure]
  unfold received
  rw [wp_bind, wp_get]
  split
  · simp only [wp_bind, wp_setCtx, if_neg hbs.1, wp_pure, wp_ite]
    split
    · exact { h with }
    · exact { h with }
  · trivial

/-- A call serves the messages that are complete with the bytes that arrive. -/
theorem spoke_sUpdateContext {cap : Nat} (hcap : cap ≤ maxBody) {e : UpdateEnv} (hwait : Waits w s) (h : Tracks d s)
    (hdel : Delivers s e.avail) (he : ∀ i, (e.msgs i).Serves) (hw : Framed cap (w ++ e.avail)) {ms : List ServerMsg}
    (hms : (splitFrames (w ++ e.avail)).1 = ms.map ServerMsg.encode) (hadmits : d.AdmitsAll (ms.map .server)) :
    wp (sUpdateContext e)
      (fun _ s' => Spoke (d.takeAll (ms.map .server)) s s' ∧
        (s'.ctx.connected = true → Waits (splitFrames (w ++ e.avail)).2 s'))
      (fun _ _ => e.fuel ≤ receiveBufferSize) s := by
  have hofs : s.ctx.receiveOfs ≤ receiveBufferSize := hwait.ofs ▸ hwait.fits
  have hlen : (w ++ e.avail).length ≤ receiveBufferSize := by
    have := hdel.2
    have := hwait.ofs
    rw [List.length_append]
    omega
  unfold sUpdateContext
  rw [wp_bind]
  refine wp_mono (wp_and (receive_spec hcap hwait hdel hw e.now) (tracks_receive h hdel hofs e.now)) ?_
    fun _ _ hf => hf.1.elim
  rintro _ s₁ ⟨⟨rfl, hold, ho⟩, h₁⟩
  have hread : Spoke (some d, []) s s₁ := by
    refine ⟨⟨[], by rw [ho, List.append_nil], rfl⟩, ?_, ?_⟩
    · rintro d' ⟨⟩
      exact h₁
    · rintro ⟨⟩
  rw [if_pos rfl, wp_bind]
  refine wp_mono (spoke_eatPackets hcap he hw hold h₁ hms hadmits 0 e.fuel) ?_ fun _ _ hle => Nat.le_trans hle hlen
  rintro r s₂ ⟨hspoke, ⟨rfl, hdown⟩ | ⟨n, rfl, hn, hold'⟩⟩
  · refine ⟨hread.trans hspoke, fun hup => ?_⟩
    rw [hdown] at hup
    cases hup
  · simp only [ditchOversized, if_neg (Nat.not_lt.mpr hn), wp_pure]
    exact ⟨hread.trans hspoke, fun _ => hold'.toWaits⟩

end Waynergy
