import Waynergy.Lib.Framing
import Waynergy.Context

/-!
# Building and sending replies (`uSynergy.c`)

A reply is built by a chain of `sAdd…` calls joined with `&&`, here `<&&>`, and sent by `sSendReply`.
`Adds v m`: the chain `m` appends `v` to the reply under construction when there is room for it.
-/

namespace Waynergy
open Lib

def sAddBin (val : Bytes) : Syn Bool := do
  let s ← get
  if h : s.ctx.replyCur + val.length > replyBufferSize then pure false
  else do
    setCtx fun c => { c with
      replyBuffer := s.ctx.replyBuffer.write s.ctx.replyCur val (Nat.le_of_not_gt h)
      replyCur := s.ctx.replyCur + val.length }
    pure true

def sAddString (string : Bytes) : Syn Bool := sAddBin string

def sAddUInt8 (value : Nat) : Syn Bool := sAddBin [UInt8.ofNat value]

def sAddUInt16 (value : Nat) : Syn Bool := sAddBin (be16 value)

def sAddUInt32 (value : Nat) : Syn Bool := sAddBin (be32 value)

theorem header_fits (n : Nat) : 0 + (be32 n).length ≤ replyBufferSize := by simp [replyBufferSize]

/-- Send the reply and reset the cursor. `sent` is what `m_sendFunc` returns. -/
def sSendReply (sent : Bool) : Syn Bool := do
  let s ← get
  let replyLen := s.ctx.replyCur
  let replyBuf := s.ctx.replyBuffer.write 0 (be32 (replyLen - 4)) (header_fits _)
  emits [.send (replyBuf.bytes.take replyLen)]
  setCtx fun c => { c with replyBuffer := replyBuf, replyCur := 4 }
  pure sent

/-- `if (!(adds)) { REPLY_ERROR(); } sSendReply(context);` where the result of the send is not looked at.
Returns whether the code goes on after it. -/
def reply (sent : Bool) (adds : Syn Bool) : Syn Bool := do
  if ← adds then
    let _ ← sSendReply sent
    pure true
  else
    replyError
    pure false

/-! ### Weakest preconditions -/

section
variable {Q : Bool → State → Prop} {E : Stop → State → Prop} {s : State}

theorem wp_sAddBin (val : Bytes) : wp (sAddBin val) Q E s ↔
    if h : s.ctx.replyCur + val.length > replyBufferSize then Q false s
    else Q true { s with ctx := { s.ctx with
      replyBuffer := s.ctx.replyBuffer.write s.ctx.replyCur val (Nat.le_of_not_gt h)
      replyCur := s.ctx.replyCur + val.length } } := by
  unfold sAddBin
  simp only [wp_bind, wp_get]
  split <;> rfl

theorem wp_sSendReply (sent : Bool) : wp (sSendReply sent) Q E s ↔
    Q sent { s with
      ctx := { s.ctx with
        replyBuffer := s.ctx.replyBuffer.write 0 (be32 (s.ctx.replyCur - 4)) (header_fits _), replyCur := 4 }
      out := s.out ++ [.send ((overwrite s.ctx.replyBuffer.bytes 0
        (be32 (s.ctx.replyCur - 4))).take s.ctx.replyCur)] } := Iff.rfl

theorem wp_andM (m m' : Syn Bool) :
    wp (m <&&> m') Q E s ↔ wp m (fun b s' => if b then wp m' Q E s' else Q false s') E s := by
  simp only [andM, wp_bind]
  constructor <;> intro h <;> refine wp_mono h (fun b s' h => ?_) fun _ _ => id <;>
    cases b <;> simpa [toBool] using h

theorem wp_reply (sent : Bool) (adds : Syn Bool) : wp (reply sent adds) Q E s ↔
    wp adds (fun b s' => if b then wp (sSendReply sent) (fun _ => Q true) E s'
      else Q false { s' with out := s'.out ++ [.replyError] }) E s := by
  simp only [reply, wp_bind]
  constructor <;> intro h <;> refine wp_mono h (fun b s' h => ?_) fun _ _ => id <;>
    cases b <;> simpa using h

end

/-! ### Frames -/

/-- Nothing but the reply under construction differs. -/
structure SameButReply (s s' : State) : Prop where
  ctx : ∃ (b : Buf replyBufferSize) (n : Nat), s'.ctx = { s.ctx with replyBuffer := b, replyCur := n }
  net : s'.net = s.net

instance : Frame SameButReply where
  refl s := ⟨⟨s.ctx.replyBuffer, s.ctx.replyCur, rfl⟩, rfl⟩
  trans := by
    rintro s s' s'' ⟨⟨b, n, h⟩, hn⟩ ⟨⟨b', n', h'⟩, hn'⟩
    exact ⟨⟨b', n', by rw [h', h]⟩, hn'.trans hn⟩

/-- The trace grew by events that satisfy `ok`, and the reply cursor is at its base again unless a
construction failed. -/
def Grows (ok : Event → Prop) (s s' : State) : Prop :=
  ∃ evs, s'.out = s.out ++ evs ∧ (∀ ev ∈ evs, ok ev) ∧
    (s.ctx.replyCur = 4 → .replyError ∉ evs → s'.ctx.replyCur = 4)

namespace Grows
variable {ok ok' : Event → Prop} {s s' : State}

instance : Frame (Grows ok) where
  refl s := ⟨[], by simp, by simp, fun h _ => h⟩
  trans := by
    rintro s s' s'' ⟨evs, h, hok, hcur⟩ ⟨evs', h', hok', hcur'⟩
    refine ⟨evs ++ evs', by rw [h', h, List.append_assoc], fun ev hev => ?_, fun h0 hev => ?_⟩
    · rcases List.mem_append.mp hev with hev | hev
      exacts [hok ev hev, hok' ev hev]
    · rw [List.mem_append, not_or] at hev
      exact hcur' (hcur h0 hev.1) hev.2

theorem mono (h : Grows ok s s') (hok : ∀ ev, ok ev → ok' ev) : Grows ok' s s' := by
  obtain ⟨evs, ho, he, hc⟩ := h
  exact ⟨evs, ho, fun ev hev => hok ev (he ev hev), hc⟩

theorem emits {evs : List Event} (h : ∀ ev ∈ evs, ok ev) : Grows ok s { s with out := s.out ++ evs } :=
  ⟨evs, rfl, h, fun h _ => h⟩

theorem ctx {c : Context} (h : s.ctx.replyCur = 4 → c.replyCur = 4) : Grows ok s { s with ctx := c } :=
  ⟨[], by simp, by simp, fun h0 _ => h h0⟩

end Grows

/-- A builder touches the reply only, and emits nothing. -/
def Builder (m : Syn Bool) : Prop := ∀ s, wp m (fun _ s' => SameButReply s s' ∧ s'.out = s.out) (fun _ _ => False) s

theorem Builder.sAddBin (val : Bytes) : Builder (sAddBin val) := fun s => by
  rw [wp_sAddBin]
  split
  · exact ⟨Frame.refl s, rfl⟩
  · exact ⟨⟨⟨_, _, rfl⟩, rfl⟩, rfl⟩

theorem Builder.and {m m' : Syn Bool} (h : Builder m) (h' : Builder m') : Builder (m <&&> m') := fun s => by
  rw [wp_andM]
  refine wp_mono (h s) (fun b s₁ ⟨h₁, ho₁⟩ => ?_) fun _ _ => id
  cases b
  · exact ⟨h₁, ho₁⟩
  · exact wp_mono (h' s₁) (fun _ s₂ ⟨h₂, ho₂⟩ => ⟨Frame.trans h₁ h₂, ho₂.trans ho₁⟩) fun _ _ => id

/-- What sending a reply can emit. -/
def Event.IsReply : Event → Prop
  | .send _ | .replyError => True
  | _ => False

/-- Only replies were sent. -/
structure Sends (s s' : State) : Prop where
  same : SameButReply s s'
  out : Grows Event.IsReply s s'

instance : Frame Sends where
  refl s := ⟨Frame.refl s, Frame.refl s⟩
  trans h h' := ⟨Frame.trans h.same h'.same, Frame.trans h.out h'.out⟩

theorem sSendReply_sends (sent : Bool) (s : State) : wp (sSendReply sent)
    (fun b s' => b = sent ∧ Sends s s' ∧ s'.ctx.replyCur = 4) (fun _ _ => False) s := by
  rw [wp_sSendReply]
  refine ⟨rfl, ⟨⟨⟨_, _, rfl⟩, rfl⟩, _, rfl, fun ev hev => ?_, fun _ _ => rfl⟩, rfl⟩
  rw [List.mem_singleton.mp hev]; trivial

theorem reply_sends {m : Syn Bool} (h : Builder m) (sent : Bool) (s : State) :
    wp (reply sent m) (fun _ s' => Sends s s') (fun _ _ => False) s := by
  rw [wp_reply]
  refine wp_mono (h s) (fun b s₁ ⟨h₁, ho₁⟩ => ?_) fun _ _ => id
  cases b
  · exact ⟨⟨h₁.ctx, h₁.net⟩, [.replyError], by simp [ho₁], by simp [Event.IsReply], by simp⟩
  · rw [if_pos rfl]
    refine wp_mono (sSendReply_sends sent s₁) (fun _ s₂ ⟨_, h₂, hcur⟩ => ?_) fun _ _ => id
    obtain ⟨evs, ho, he, _⟩ := h₂.out
    exact ⟨Frame.trans h₁ h₂.same, evs, by rw [ho, ho₁], he, fun _ _ => hcur⟩

/-! ### Replies that fit -/

/-- The state `s` with the reply under construction replaced. -/
def State.withReply (s : State) (b : Buf replyBufferSize) (n : Nat) : State :=
  { s with ctx := { s.ctx with replyBuffer := b, replyCur := n } }

/-- The reply under construction is `v`. -/
structure Replying (v : Bytes) (s : State) : Prop where
  cur : s.ctx.replyCur = 4 + v.length
  bytes : (s.ctx.replyBuffer.bytes.take (4 + v.length)).drop 4 = v

theorem Replying.base {s : State} (h : s.ctx.replyCur = 4) : Replying [] s := ⟨h, by simp⟩

def Adds (v : Bytes) (m : Syn Bool) : Prop :=
  ∀ w s, Replying w s → 4 + (w ++ v).length ≤ replyBufferSize →
    ∃ b n, m.run s = .ok true (s.withReply b n) ∧ Replying (w ++ v) (s.withReply b n)

theorem Adds.sAddBin (v : Bytes) : Adds v (sAddBin v) := by
  intro w s hw hfit
  have hcur : s.ctx.replyCur + v.length = 4 + (w ++ v).length := by rw [hw.cur]; simp [Nat.add_assoc]
  have h : s.ctx.replyCur + v.length ≤ replyBufferSize := hcur ▸ hfit
  refine ⟨s.ctx.replyBuffer.write s.ctx.replyCur v h, s.ctx.replyCur + v.length, ?_, hcur, ?_⟩
  · have hrun : wp (Waynergy.sAddBin v) (fun b s' => b = true ∧ s' = s.withReply
        (s.ctx.replyBuffer.write s.ctx.replyCur v h) (s.ctx.replyCur + v.length)) (fun _ _ => False) s := by
      rw [wp_sAddBin, dif_neg (Nat.not_lt.mpr h)]; exact ⟨rfl, rfl⟩
    obtain ⟨b, s', hr, rfl, rfl⟩ := exists_ok_of_wp hrun
    exact hr
  · show ((s.ctx.replyBuffer.write s.ctx.replyCur v h).bytes.take (4 + (w ++ v).length)).drop 4 = w ++ v
    rw [← hcur, Buf.take_write, hw.cur, List.drop_append_of_le_length, hw.bytes]
    have := s.ctx.replyBuffer.size
    simp only [List.length_take]; omega

theorem Adds.and {v v' : Bytes} {m m' : Syn Bool} (h : Adds v m) (h' : Adds v' m') :
    Adds (v ++ v') (m <&&> m') := by
  intro w s hw hfit
  rw [← List.append_assoc] at hfit ⊢
  obtain ⟨b, n, hr, hw'⟩ := h w s hw (by simp only [List.length_append] at hfit ⊢; omega)
  obtain ⟨b', n', hr', hw''⟩ := h' (w ++ v) _ hw' hfit
  refine ⟨b', n', ?_, hw''⟩
  simp only [andM, EStateM.run_bind, hr]
  exact hr'

/-- What is under construction is sent as one frame, and the cursor is back at its base. -/
theorem Replying.sSendReply_run {v : Bytes} {s : State} (h : Replying v s) (sent : Bool) :
    ∃ b, (sSendReply sent).run s = .ok sent
      { s with ctx := { s.ctx with replyBuffer := b, replyCur := 4 }, out := s.out ++ [.send (frame v)] } := by
  have hframe : (overwrite s.ctx.replyBuffer.bytes 0 (be32 (4 + v.length - 4))).take (4 + v.length) = frame v := by
    have hb := h.bytes
    rw [List.drop_take, Nat.add_sub_cancel_left] at hb
    rw [overwrite_zero, Nat.add_sub_cancel_left, frame, length_be32, List.take_append,
      List.take_of_length_le (by simp), length_be32, Nat.add_sub_cancel_left, hb]
  refine ⟨s.ctx.replyBuffer.write 0 (be32 (s.ctx.replyCur - 4)) (header_fits _), ?_⟩
  have hw : wp (sSendReply sent) (fun r s' => r = sent ∧ s' = { s with
      ctx := { s.ctx with
        replyBuffer := s.ctx.replyBuffer.write 0 (be32 (s.ctx.replyCur - 4)) (header_fits _), replyCur := 4 }
      out := s.out ++ [.send (frame v)] }) (fun _ _ => False) s := by
    rw [wp_sSendReply, h.cur, hframe]
    exact ⟨rfl, rfl⟩
  obtain ⟨r, s', hr, rfl, rfl⟩ := exists_ok_of_wp hw
  exact hr

theorem reply_run {v : Bytes} {m : Syn Bool} (h : Adds v m) (sent : Bool) {s : State}
    (hcur : s.ctx.replyCur = 4) (hfit : 4 + v.length ≤ replyBufferSize) :
    ∃ b, (reply sent m).run s = .ok true
      { s with ctx := { s.ctx with replyBuffer := b }, out := s.out ++ [.send (frame v)] } := by
  obtain ⟨b, n, hr, hv⟩ := h [] s (.base hcur) (by simpa using hfit)
  rw [List.nil_append] at hv
  obtain ⟨b', hsend⟩ := hv.sSendReply_run sent
  refine ⟨b', ?_⟩
  have hw : wp (reply sent m) (fun r s' => r = true ∧ s' =
      { s with ctx := { s.ctx with replyBuffer := b' }, out := s.out ++ [.send (frame v)] })
      (fun _ _ => False) s := by
    rw [wp_reply]
    refine wp_of_ok hr ?_
    rw [if_pos rfl]
    refine wp_of_ok hsend ⟨rfl, ?_⟩
    simp only [State.withReply, hcur]
  obtain ⟨r, s', hr', rfl, rfl⟩ := exists_ok_of_wp hw
  exact hr'

/-- Only replies were sent, and the cursor is at its base again. -/
structure Answers (s s' : State) : Prop extends Sends s s' where
  base : s.ctx.replyCur = 4 → s'.ctx.replyCur = 4

theorem reply_fits {v : Bytes} {m : Syn Bool} (h : Adds v m) (hb : Builder m) (sent : Bool)
    (hfit : 4 + v.length ≤ replyBufferSize) (s : State) :
    wp (reply sent m) (fun _ s' => Answers s s') (fun _ _ => False) s := by
  by_cases hcur : s.ctx.replyCur = 4
  · obtain ⟨b, hrun⟩ := reply_run h sent hcur hfit
    refine wp_mono (wp_run (reply_sends hb sent s)) (fun _ s' ⟨hs, hr⟩ => ⟨hs, fun _ => ?_⟩) fun _ _ h => h.1
    rw [hrun] at hr
    cases hr
    exact hcur
  · exact wp_mono (reply_sends hb sent s) (fun _ _ hs => ⟨hs, fun h0 => absurd h0 hcur⟩) fun _ _ => id

end Waynergy
