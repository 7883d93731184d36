import Waynergy.Message

/-!
# What a message can do

`Plain` is what most messages do at most: reply, tell a callback, and store what is neither the connection
nor the clipboard. `Tame` is what every message does at most to the receiving side. The messages that are
not `Plain` (the hello, COUT, CCLP, DCLP and the farewells) have a lemma of their own that says what they do.
-/

namespace Waynergy
open Lib

/-! ### The trace -/

/-- The events by which the receive loop records what it does. -/
def Event.Ghost : Event → Prop
  | .message .. | .returned _ | .shift .. => True
  | _ => False

/-- The events of a plain message. -/
def Event.Calm : Event → Prop
  | .message .. | .returned _ | .shift .. | .clipboard .. | .connect | .screenActive false => False
  | _ => True

theorem Event.Calm.not_ghost {ev : Event} (h : ev.Calm) : ¬ ev.Ghost := by
  cases ev <;> simp_all [Event.Calm, Event.Ghost]

theorem Event.IsReply.calm {ev : Event} (h : ev.IsReply) : ev.Calm := by
  cases ev <;> simp_all [Event.Calm, Event.IsReply]

/-! ### Replies -/

theorem builder_addDclp (id seq mark : Nat) : Builder (addDclp id seq mark) :=
  (Builder.sAddBin _).and <| (Builder.sAddBin _).and <| (Builder.sAddBin _).and (Builder.sAddBin _)

theorem builder_addDinf (w h : Nat) : Builder (addDinf w h) :=
  (Builder.sAddBin _).and <| (Builder.sAddBin _).and <| (Builder.sAddBin _).and <| (Builder.sAddBin _).and <|
    (Builder.sAddBin _).and <| (Builder.sAddBin _).and <| (Builder.sAddBin _).and (Builder.sAddBin _)

theorem sends_reply {m : Syn Bool} (h : Builder m) (sent : Bool) {S : Stop → Prop} : Within Sends S (reply sent m) :=
  fun s => wp_mono (reply_sends h sent s) (fun _ _ => id) fun _ _ => False.elim

/-- The chunk loop ends: every chunk has a byte. -/
theorem sends_sendChunks (sent : Bool) (id seq len : Nat) (text : Bytes) {fuel pos : Nat} (h : len ≤ pos + fuel) :
    Within Sends (· = .fault .clipSend) (sendChunks sent id seq len text fuel pos) := by
  induction fuel generalizing pos with
  | zero =>
    unfold sendChunks
    rw [if_neg (by omega)]
    exact Within.pure _
  | succ fuel ih =>
    unfold sendChunks
    split
    · rename_i hlt
      refine Within.ite (Within.throw rfl) <| Within.bind (sends_reply ?_ _) fun b =>
        Within.ite (ih ?_) (Within.pure _)
      · exact (builder_addDclp _ _ _).and ((Builder.sAddBin _).and (Builder.sAddBin _))
      · have : 0 < maxChunk := by decide
        split <;> omega
    · exact Within.pure _

theorem sends_uSynergySendClipboard (sent : Bool) (id len : Nat) (text : Bytes) :
    Within Sends (· = .fault .clipSend) (uSynergySendClipboard sent id len text) := by
  refine Within.read fun s => Within.bind (sends_reply ?_ _) fun b => Within.ite
    (Within.bind (sends_sendChunks _ _ _ _ _ (by omega)) fun b => Within.ite
      (Within.bind (sends_reply ?_ _) fun _ => Within.pure ()) (Within.pure ())) (Within.pure ())
  · exact (builder_addDclp _ _ _).and ((Builder.sAddBin _).and (Builder.sAddBin _))
  · exact (builder_addDclp _ _ _).and (Builder.sAddBin _)

theorem replyCnop_sends (e : MsgEnv) (s : State) :
    wp (replyCnop e) (fun _ s' => Sends s s') (fun _ _ => False) s := by
  unfold replyCnop
  simp only [wp_bind, wp_pure]
  exact reply_sends (.sAddBin _) e.sent s

/-! ### Frames -/

/-- What is the same after a plain message. -/
structure PlainCtx (c c' : Context) : Prop where
  cfg : c'.toConfig = c.toConfig
  connected : c'.connected = c.connected
  captured : c.isCaptured = true → c'.isCaptured = true
  buffer : c'.receiveBuffer = c.receiveBuffer
  ofs : c'.receiveOfs = c.receiveOfs
  clip : c'.clip = c.clip
  lastError : c'.lastError = c.lastError

structure Plain (s s' : State) : Prop where
  ctx : PlainCtx s.ctx s'.ctx
  net : s'.net = s.net
  out : Grows Event.Calm s s'

instance : Frame Plain where
  refl s := ⟨⟨rfl, rfl, id, rfl, rfl, rfl, rfl⟩, rfl, Frame.refl s⟩
  trans h h' := ⟨⟨h'.ctx.cfg.trans h.ctx.cfg, h'.ctx.connected.trans h.ctx.connected,
    fun hc => h'.ctx.captured (h.ctx.captured hc), h'.ctx.buffer.trans h.ctx.buffer,
    h'.ctx.ofs.trans h.ctx.ofs, h'.ctx.clip.trans h.ctx.clip, h'.ctx.lastError.trans h.ctx.lastError⟩,
    h'.net.trans h.net, Frame.trans h.out h'.out⟩

/-- What every message leaves alone: the received bytes, as long as the connection stands. -/
structure Tame (s s' : State) : Prop where
  cfg : s'.ctx.toConfig = s.ctx.toConfig
  buffer : s'.ctx.receiveBuffer = s.ctx.receiveBuffer
  up : s'.ctx.connected = true → s.ctx.connected = true ∧ s'.ctx.receiveOfs = s.ctx.receiveOfs
  net : s'.net = s.net
  out : Grows (fun ev => ¬ ev.Ghost) s s'

instance : Frame Tame where
  refl s := ⟨rfl, rfl, fun h => ⟨h, rfl⟩, rfl, Frame.refl s⟩
  trans h h' := ⟨h'.cfg.trans h.cfg, h'.buffer.trans h.buffer,
    fun hc => have ⟨hc', ho'⟩ := h'.up hc; ⟨(h.up hc').1, ho'.trans (h.up hc').2⟩, h'.net.trans h.net,
    Frame.trans h.out h'.out⟩

theorem Plain.tame {s s' : State} (h : Plain s s') : Tame s s' :=
  ⟨h.ctx.cfg, h.ctx.buffer, fun hc => ⟨h.ctx.connected ▸ hc, h.ctx.ofs⟩, h.net,
    h.out.mono fun _ => Event.Calm.not_ghost⟩

theorem Sends.plain {s s' : State} (h : Sends s s') : Plain s s' := by
  obtain ⟨⟨⟨b, n, hc⟩, hn⟩, hout⟩ := h
  exact ⟨by rw [hc]; exact ⟨rfl, rfl, id, rfl, rfl, rfl, rfl⟩, hn, hout.mono fun _ => Event.IsReply.calm⟩

theorem within_parse {α β : Type} {R : State → State → Prop} [Frame R] {S : Stop → Prop} {f : Fault}
    {p : Parse α} {buf : SspBuf} {bad : β} {k : α → SspBuf → Syn β} (hf : S (.fault f))
    (herr : Within R S parseError) (hk : ∀ a buf, Within R S (k a buf)) : Within R S (parse f p buf bad k) := by
  unfold parse
  split
  · exact hk _ _
  · exact Within.bind herr fun _ => Within.pure bad
  · exact Within.throw hf

/-- A procedure all of whose results are plain, and that stops only when a message leaves the memory. -/
abbrev IsPlain {α : Type} (m : Syn α) : Prop := Within Plain (· = .fault .message) m

namespace IsPlain
variable {α β : Type}

theorem emits {evs : List Event} (h : ∀ ev ∈ evs, ev.Calm) : IsPlain (emits evs) :=
  fun _ => ⟨⟨rfl, rfl, id, rfl, rfl, rfl, rfl⟩, rfl, .emits h⟩

theorem setCtx {f : Context → Context} (h : ∀ c, PlainCtx c (f c)) (hcur : ∀ c, (f c).replyCur = c.replyCur) :
    IsPlain (setCtx f) :=
  fun s => ⟨h s.ctx, rfl, .ctx fun h0 => (hcur _).trans h0⟩

theorem reply {m : Syn Bool} (h : Builder m) (sent : Bool) : IsPlain (reply sent m) :=
  fun s => wp_mono (reply_sends h sent s) (fun _ _ => Sends.plain) fun _ _ => False.elim

theorem replyCnop (e : MsgEnv) : IsPlain (replyCnop e) :=
  Within.bind (reply (.sAddBin _) _) fun _ => Within.pure ()

theorem parseError : IsPlain parseError := emits (by simp [Event.Calm])

theorem parse {p : Parse α} {buf : SspBuf} {bad : β} {k : α → SspBuf → Syn β}
    (hk : ∀ a buf, IsPlain (k a buf)) : IsPlain (parse .message p buf bad k) :=
  within_parse rfl parseError hk

theorem notify {e : MsgEnv} {p : Parse α} {callback : Context → α → List Event} {msg : SspBuf}
    (h : ∀ c a, ∀ ev ∈ callback c a, ev.Calm) : IsPlain (notify e p callback msg) :=
  parse fun a _ => Within.read fun s => Within.bind (emits (h s.ctx a)) fun _ => replyCnop e

theorem storeJoystick {j : Nat} {store : Fin numJoysticks → Context → Context}
    (h : ∀ i c, PlainCtx c (store i c)) (hcur : ∀ i c, (store i c).replyCur = c.replyCur) :
    IsPlain (storeJoystick j store) := by
  unfold Waynergy.storeJoystick joyIndex
  split
  · refine Within.bind (Within.pure _) fun i => Within.bind (setCtx (h i) (hcur i)) fun _ =>
      Within.read fun s => emits fun ev hev => ?_
    unfold sSendJoystickCallback at hev
    split at hev <;> simp at hev
    rw [hev]; trivial
  · exact Within.pure ()

theorem updateJoystick {e : MsgEnv} {j : Nat} {store : Fin numJoysticks → Context → Context}
    (h : ∀ i c, PlainCtx c (store i c)) (hcur : ∀ i c, (store i c).replyCur = c.replyCur) :
    IsPlain (updateJoystick e j store) :=
  Within.bind (storeJoystick h hcur) fun _ => replyCnop e

end IsPlain

/-- The messages that are not plain. -/
def Pkt.Special (p : Pkt) : Prop := p ∈ [Pkt.cout, .cclp, .dclp, .cbye, .ebad, .ebsy]

instance (p : Pkt) : Decidable p.Special := inferInstanceAs (Decidable (_ ∈ _))

theorem calm_ite {c : Bool} {ev : Event} (h : ev.Calm) : ∀ ev' ∈ (if c then [ev] else []), ev'.Calm := by
  intro ev' hev
  cases c <;> simp at hev
  rwa [hev]

theorem calm_sSendMouseWheelCallback (c : Context) (x y : Int) :
    ∀ ev ∈ sSendMouseWheelCallback c x y, ev.Calm := by
  intro ev hev
  unfold sSendMouseWheelCallback at hev
  split at hev
  · cases hev
  · split at hev
    · cases hev
    · rw [List.mem_singleton.mp hev]; trivial

namespace IsPlain
variable (e : MsgEnv) (msg : SspBuf)

theorem processQinf : IsPlain (processQinf e) :=
  Within.read fun _ => Within.bind (IsPlain.reply (builder_addDinf _ _) _) fun _ =>
    Within.ite (IsPlain.setCtx (fun _ => ⟨rfl, rfl, id, rfl, rfl, rfl, rfl⟩) fun _ => rfl) (Within.pure ())

theorem processCiak : IsPlain processCiak := by
  unfold Waynergy.processCiak
  exact IsPlain.setCtx (fun _ => ⟨rfl, rfl, id, rfl, rfl, rfl, rfl⟩) fun _ => rfl

theorem processCinn : IsPlain (processCinn e msg) := by
  refine IsPlain.parse fun seq _ => Within.bind ?_ fun _ => Within.read fun _ =>
    Within.bind (IsPlain.emits (calm_ite trivial)) fun _ => IsPlain.replyCnop e
  exact IsPlain.setCtx (fun _ => ⟨rfl, rfl, fun _ => rfl, rfl, rfl, rfl, rfl⟩) fun _ => rfl

theorem processCalv : IsPlain (processCalv e) :=
  Within.bind (IsPlain.reply (.sAddBin _) _) fun _ => Within.ite (IsPlain.replyCnop e) (Within.pure ())

theorem keys {p : Parse KeyData} {down rpt : Bool} : IsPlain (Waynergy.notify e p (keyCallback down rpt) msg) :=
  IsPlain.notify fun c _ => @calm_ite c.callbacks.keyboard (.keyboard _ _ _ down rpt) trivial

theorem processPkt {p : Pkt} (hp : ¬ p.Special) : IsPlain (processPkt e msg p) := by
  cases p with
  | cout | cclp | dclp | cbye | ebad | ebsy => exact absurd (by decide) hp
  | qinf => exact processQinf e
  | ciak => exact processCiak
  | crop => exact Within.pure ()
  | cinn => exact processCinn e msg
  | csec =>
    unfold Waynergy.processPkt processCsec
    exact IsPlain.notify fun c _ => calm_ite (c := c.callbacks.screensaver) trivial
  | dmdn =>
    unfold Waynergy.processPkt processDmdn
    exact IsPlain.notify fun c _ => calm_ite (c := c.callbacks.mouseButtonDown) trivial
  | dmup =>
    unfold Waynergy.processPkt processDmup
    exact IsPlain.notify fun c _ => calm_ite (c := c.callbacks.mouseButtonUp) trivial
  | dmmv =>
    unfold Waynergy.processPkt processDmmv
    exact IsPlain.notify fun c _ => calm_ite (c := c.callbacks.mouseMove) trivial
  | dmrm =>
    unfold Waynergy.processPkt processDmrm
    exact IsPlain.notify fun c _ => calm_ite (c := c.callbacks.mouseMove) trivial
  | dmwm =>
    unfold Waynergy.processPkt processDmwm
    exact IsPlain.notify fun c _ => calm_sSendMouseWheelCallback c _ _
  | dkdn =>
    unfold Waynergy.processPkt processDkdn
    exact keys e msg
  | dkrp =>
    unfold Waynergy.processPkt processDkrp
    exact keys e msg
  | dkup =>
    unfold Waynergy.processPkt processDkup
    exact keys e msg
  | dgbt =>
    unfold Waynergy.processPkt processDgbt
    refine IsPlain.parse fun _ _ => IsPlain.updateJoystick (fun _ _ => ?_) fun _ _ => rfl
    exact ⟨rfl, rfl, id, rfl, rfl, rfl, rfl⟩
  | dgst =>
    unfold Waynergy.processPkt processDgst
    refine IsPlain.parse fun _ _ => IsPlain.updateJoystick (fun _ _ => ?_) fun _ _ => rfl
    exact ⟨rfl, rfl, id, rfl, rfl, rfl, rfl⟩
  | dsop => exact IsPlain.replyCnop e
  | calv => exact processCalv e

end IsPlain

/-! ### The hello -/

theorem findWelcome_error {msg : SspBuf} {imps : List Bytes} {f : Fault} (h : findWelcome msg imps = .error f) :
    f = .message := by
  induction imps with
  | nil => cases h
  | cons imp imps ih =>
    unfold findWelcome at h
    split at h
    · exact ih h
    · split at h
      · exact (Except.error.inj h).symm
      · split at h
        · split at h <;> cases h
        · exact ih h

/-- The events of a hello that is answered: the reply, and the wait if it failed. -/
def Event.IsHello : Event → Prop
  | .send _ | .replyError | .sleep _ => True
  | _ => False

theorem Event.IsHello.calm {ev : Event} (h : ev.IsHello) : ev.Calm := by
  cases ev <;> simp_all [Event.Calm, Event.IsHello]

theorem Event.IsReply.isHello {ev : Event} (h : ev.IsReply) : ev.IsHello := by
  cases ev <;> simp_all [Event.IsReply, Event.IsHello]

/-- The reply to a hello could not be sent. -/
structure Lost (s s' : State) : Prop where
  ctx : ∃ b, s'.ctx = { s.ctx with replyBuffer := b, replyCur := 4, connected := false }
  net : s'.net = s.net
  out : Grows Event.IsHello s s'

theorem Lost.tame {s s' : State} (h : Lost s s') : Tame s s' := by
  obtain ⟨⟨b, hc⟩, hn, hout⟩ := h
  refine ⟨by rw [hc], by rw [hc], ?_, hn, hout.mono fun _ he => he.calm.not_ghost⟩
  rw [hc]; exact (nomatch ·)

theorem processHello_spec (e : MsgEnv) (imp : Bytes) (msg : SspBuf) (s : State) : wp (processHello e imp msg)
    (fun _ s' => Plain s s' ∨ e.sent = false ∧ Lost s s') (fun stop s' => Plain s s' ∧ stop = .fault .message) s := by
  unfold processHello parse
  split
  · simp only [wp_bind, wp_setCtx, wp_get]
    have hb : Builder (sAddString imp <&&> (sAddUInt16 protocolMajor <&&> (sAddUInt16 protocolMinor <&&>
        (sAddUInt32 s.ctx.clientName.length <&&> sAddString s.ctx.clientName)))) :=
      (Builder.sAddBin _).and <| (Builder.sAddBin _).and <| (Builder.sAddBin _).and <|
        (Builder.sAddBin _).and (Builder.sAddBin _)
    refine wp_mono (hb _) (fun b s₁ hs₁ => ?_) fun _ _ => False.elim
    obtain ⟨⟨⟨rb, n, hc⟩, hn⟩, ho⟩ := hs₁
    cases b
    · refine .inl ⟨?_, hn, [.replyError], by simp [ho], by simp [Event.Calm], by simp⟩
      show PlainCtx _ s₁.ctx
      rw [hc]; exact ⟨rfl, rfl, id, rfl, rfl, rfl, rfl⟩
    · simp only [if_true, wp_bind, wp_ite]
      refine wp_mono (sSendReply_sends e.sent s₁) (fun b s₂ hs₂ => ?_) fun _ _ => False.elim
      obtain ⟨hb, ⟨⟨⟨rb', n', hc'⟩, hn'⟩, evs, ho', he, _⟩, hcur⟩ := hs₂
      subst hb
      have hctx : s₂.ctx = { s.ctx with replyBuffer := rb', replyCur := 4 } := by
        rw [← hcur, hc', hc]
      have hout : s₂.out = s.out ++ evs := ho'.trans (congrArg (· ++ evs) ho)
      have hhello : ∀ ev ∈ evs, ev.IsHello := fun ev hev => (he ev hev).isHello
      split
      · refine .inl ⟨?_, hn'.trans hn, evs, hout, fun ev hev => (hhello ev hev).calm, fun _ _ => hcur⟩
        show PlainCtx _ { s₂.ctx with hasReceivedHello := true, implementation := some imp }
        rw [hctx]; exact ⟨rfl, rfl, id, rfl, rfl, rfl, rfl⟩
      · rename_i hsent
        refine .inr ⟨by simpa using hsent, ⟨rb', ?_⟩, hn'.trans hn, evs ++ [.sleep 1000], ?_, ?_, fun _ _ => hcur⟩
        · show { s₂.ctx with connected := false } = _
          rw [hctx]
        · show s₂.out ++ [.sleep 1000] = _
          rw [hout, List.append_assoc]
        · intro ev hev
          rcases List.mem_append.mp hev with hev | hev
          · exact hhello ev hev
          · rw [List.mem_singleton.mp hev]; trivial
  · exact .inl (IsPlain.parseError s)
  · exact ⟨Frame.refl s, rfl⟩

/-! ### The change of resolution -/

/-- After building on the state `s₀`, `m` sends the reply, changes the context by `f`, and does no more. -/
def SendsBuilt (f : Context → Context) (m : Syn Unit) : Prop :=
  ∀ s₀ s, SameButReply s₀ s → s.out = s₀.out →
    wp m (fun _ s' => ∃ t, Sends s₀ t ∧ s' = { t with ctx := f t.ctx }) (fun _ _ => False) s

theorem SendsBuilt.send (sent : Bool) (f : Context → Context) :
    SendsBuilt f (do let _ ← sSendReply sent; setCtx f) := by
  intro s₀ s hsame hout
  rw [wp_bind]
  refine wp_mono (sSendReply_sends sent s) (fun _ s' ⟨_, h, hcur⟩ => ?_) fun _ _ => id
  obtain ⟨evs, ho, he, -⟩ := h.out
  exact ⟨s', ⟨Frame.trans hsame h.same, evs, by rw [ho, hout], he, fun _ _ => hcur⟩, rfl⟩

theorem SendsBuilt.add {f : Context → Context} {m : Syn Bool} {k : Syn Unit} (hk : SendsBuilt f k) (h : Builder m) :
    SendsBuilt f (do let _ ← m; k) := by
  intro s₀ s hsame hout
  rw [wp_bind]
  exact wp_mono (h s) (fun _ s' ⟨hs', ho'⟩ => hk s₀ s' (Frame.trans hsame hs') (ho'.trans hout)) fun _ _ => False.elim

theorem uSynergyUpdateRes_spec (sent : Bool) (width height : Int) (s : State) :
    wp (uSynergyUpdateRes sent width height)
      (fun _ s' => ∃ t, Sends { s with ctx := { s.ctx with
          clientWidth := (width % 65536).toNat, clientHeight := (height % 65536).toNat } } t ∧
        s' = { t with ctx := { t.ctx with infoCurrent := t.ctx.infoCurrent && !t.ctx.connected } })
      (fun _ _ => False) s := by
  unfold uSynergyUpdateRes
  rw [wp_bind, wp_setCtx, wp_bind, wp_get, wp_ite]
  split
  · rename_i hup
    have hb : ∀ v, Builder (sAddBin v) := Builder.sAddBin
    have hsend := SendsBuilt.send sent fun c => { c with infoCurrent := false }
    refine wp_mono (((((((((hsend.add (hb _)).add (hb _)).add (hb _)).add (hb _)).add (hb _)).add (hb _)).add
      (hb _)).add (hb _)) _ _ (Frame.refl _) rfl) (fun _ s' => ?_) fun _ _ => id
    rintro ⟨t, hsends, rfl⟩
    have hup' : t.ctx.connected = true := by
      obtain ⟨⟨b, n, hc⟩, -⟩ := hsends.same
      rw [hc]; exact hup
    exact ⟨t, hsends, by rw [hup', Bool.not_true, Bool.and_false]⟩
  · rename_i hdown
    have hdown' : s.ctx.connected = false := eq_false_of_ne_true hdown
    refine ⟨_, Frame.refl _, ?_⟩
    simp only [hdown', Bool.not_false, Bool.and_true]

/-! ### Tame messages -/

/-- The ways in which the processing of a message can stop. -/
def MessageStop : Stop → Prop
  | .fault .message | .fault .clipIndex | .fault .lengthBuffer | .fault .clipSend | .fault .clipCopy
  | .fault .clipParse | .abort => True
  | _ => False

/-- A procedure all of whose results are tame. -/
abbrev IsTame {α : Type} (m : Syn α) : Prop := Within Tame MessageStop m

namespace IsTame
variable {α : Type} (e : MsgEnv) (msg : SspBuf) (i : Fin 2)

theorem of_plain {m : Syn α} (h : IsPlain m) : IsTame m :=
  h.mono (fun _ _ => Plain.tame) fun _ he => he ▸ trivial

theorem parseError : IsTame parseError := of_plain IsPlain.parseError

theorem sSetDisconnected (err : SynError) : IsTame (sSetDisconnected err) :=
  fun _ => ⟨rfl, rfl, (nomatch ·), rfl, .ctx fun _ => rfl⟩

end IsTame

/-! ### COUT -/

def ClipSlot.released (c : ClipSlot) : ClipSlot := { c with grabbed := false }

theorem sendGrabbed_spec (e : MsgEnv) (i : Fin 2) (s : State) : wp (sendGrabbed e i)
    (fun _ s' => ∃ t, Sends s t ∧ s' = t.setSlot i (t.ctx.clip i).released)
    (fun stop s' => Sends s s' ∧ stop = .fault .clipSend) s := by
  unfold sendGrabbed
  simp only [wp_bind, wp_get, wp_ite, wp_setClip, wp_pure]
  split
  · exact wp_mono (sends_uSynergySendClipboard _ _ _ _ s) (fun _ t h => ⟨t, h, rfl⟩) fun _ _ => id
  · rename_i hg
    refine ⟨s, Frame.refl s, ?_⟩
    have hc : (s.ctx.clip i).released = s.ctx.clip i := by
      rw [ClipSlot.released, ← eq_false_of_ne_true hg]
    rw [State.setSlot, hc, Function.update_eq_self]

/-- What leaving the screen does. -/
structure Left (s s' : State) : Prop where
  ctx : ∃ b n, s'.ctx = { s.ctx with
    replyBuffer := b, replyCur := n, isCaptured := false, clip := fun i => (s.ctx.clip i).released }
  net : s'.net = s.net
  out : ∃ pre post, s'.out = s.out ++ (pre ++ screenActiveCallback s.ctx false ++ post) ∧
    (∀ ev ∈ pre ++ post, ev.IsReply) ∧ (s.ctx.replyCur = 4 → .replyError ∉ pre ++ post → s'.ctx.replyCur = 4)

theorem released_twice (clip : Fin 2 → ClipSlot) :
    Function.update (Function.update clip 0 (clip 0).released) 1 (clip 1).released =
      fun i => (clip i).released := by
  funext i
  match i with
  | 0 => rfl
  | 1 => rfl

theorem sendGrabbed_ctx {i : Fin 2} {s t s' : State} (h : Sends s t)
    (hs' : s' = t.setSlot i (t.ctx.clip i).released) :
    ∃ b n, s'.ctx = { s.ctx with
      replyBuffer := b, replyCur := n, clip := Function.update s.ctx.clip i (s.ctx.clip i).released } := by
  obtain ⟨⟨⟨b, n, hc⟩, _⟩, _⟩ := h
  refine ⟨b, n, ?_⟩
  rw [hs', State.setSlot, hc]

theorem processCout_spec (e : MsgEnv) (s : State) :
    wp (processCout e) (fun _ s' => Left s s') (fun stop s' => Tame s s' ∧ stop = .fault .clipSend) s := by
  unfold processCout
  simp only [wp_bind, wp_setCtx, wp_get, wp_emits]
  have h₀ : Tame s { s with ctx := { s.ctx with isCaptured := false } } :=
    ⟨rfl, rfl, fun h => ⟨h, rfl⟩, rfl, .ctx id⟩
  refine wp_mono (sendGrabbed_spec e 0 _) ?_ fun _ _ h => ⟨Frame.trans h₀ h.1.plain.tame, h.2⟩
  rintro _ s₁ ⟨t₀, h₀', hs₁⟩
  obtain ⟨b₁, n₁, hc₁⟩ := sendGrabbed_ctx h₀' hs₁
  have hn₁ : s₁.net = s.net := by rw [hs₁]; exact h₀'.same.net
  obtain ⟨evs₀, ho₀, he₀, hcur₀⟩ := h₀'.out
  have h₁ : Tame s s₁ := by
    rw [hs₁]
    exact Frame.trans h₀ (Frame.trans h₀'.plain.tame ⟨rfl, rfl, fun h => ⟨h, rfl⟩, rfl, .ctx id⟩)
  refine wp_mono (sendGrabbed_spec e 1 _) ?_ fun _ _ h => ⟨Frame.trans h₁ h.1.plain.tame, h.2⟩
  rintro _ s₂ ⟨t₁, h₁', hs₂⟩
  obtain ⟨b₂, n₂, hc₂⟩ := sendGrabbed_ctx h₁' hs₂
  obtain ⟨evs₁, ho₁, he₁, hcur₁⟩ := h₁'.out
  have hn₂ : s₂.net = s.net := by rw [hs₂]; exact h₁'.same.net.trans hn₁
  refine wp_mono (replyCnop_sends e _) ?_ fun _ _ => False.elim
  rintro _ s₃ ⟨⟨⟨b, n, hc⟩, hn⟩, evs, ho, he, hcur⟩
  have hcb : s₂.ctx.callbacks = s.ctx.callbacks := by rw [hc₂, hc₁]
  refine ⟨⟨b, n, ?_⟩, hn.trans hn₂, evs₀ ++ evs₁, evs, ?_, ?_, fun hbase hev => ?_⟩
  · rw [hc]
    simp only [hc₂, hc₁, ← released_twice]
    rfl
  · have hs : screenActiveCallback s₂.ctx false = screenActiveCallback s.ctx false := by
      simp only [screenActiveCallback, hcb]
    have ho₂ : s₂.out = s.out ++ (evs₀ ++ evs₁) := by
      rw [hs₂]
      show t₁.out = _
      rw [ho₁, hs₁]
      show t₀.out ++ evs₁ = _
      rw [ho₀, List.append_assoc]
    rw [ho]
    show s₂.out ++ screenActiveCallback s₂.ctx false ++ evs = _
    rw [hs, ho₂]
    simp only [List.append_assoc]
  · simp only [List.mem_append]
    rintro ev ((hev | hev) | hev)
    exacts [he₀ ev hev, he₁ ev hev, he ev hev]
  · simp only [List.mem_append, not_or] at hev
    have h₁cur : s₁.ctx.replyCur = 4 := by rw [hs₁]; exact hcur₀ hbase hev.1.1
    have h₂cur : s₂.ctx.replyCur = 4 := by rw [hs₂]; exact hcur₁ h₁cur hev.1.2
    exact hcur h₂cur hev.2

theorem Left.tame {s s' : State} (h : Left s s') : Tame s s' := by
  obtain ⟨⟨b, n, hc⟩, hn, pre, post, ho, he, hcur⟩ := h
  refine ⟨by rw [hc], by rw [hc], by rw [hc]; exact fun h => ⟨h, rfl⟩, hn, _, ho, fun ev hev => ?_, fun h0 hev => ?_⟩
  · simp only [List.mem_append] at hev he
    rcases hev with (hev | hev) | hev
    · exact (he ev (.inl hev)).calm.not_ghost
    · unfold screenActiveCallback at hev
      split at hev <;> simp at hev
      rw [hev]; exact id
    · exact (he ev (.inr hev)).calm.not_ghost
  · exact hcur h0 fun hm => hev (by simp only [List.mem_append] at hm ⊢; tauto)

/-! ### The clipboard messages -/

/-- The events of a message about the clipboard. -/
def Event.IsClip : Event → Prop
  | .send _ | .replyError | .parseError | .clipboard .. => True
  | _ => False

theorem Event.IsClip.not_ghost {ev : Event} (h : ev.IsClip) : ¬ ev.Ghost := by
  cases ev <;> simp_all [Event.IsClip, Event.Ghost]

/-- Nothing but the reply under construction and the clipboard differs. -/
structure ClipOnly (s s' : State) : Prop where
  ctx : ∃ b n clip, s'.ctx = { s.ctx with replyBuffer := b, replyCur := n, clip := clip }
  net : s'.net = s.net
  out : Grows Event.IsClip s s'

instance : Frame ClipOnly where
  refl s := ⟨⟨s.ctx.replyBuffer, s.ctx.replyCur, s.ctx.clip, rfl⟩, rfl, Frame.refl s⟩
  trans := by
    rintro s s' s'' ⟨⟨b, n, clip, h⟩, hn, ho⟩ ⟨⟨b', n', clip', h'⟩, hn', ho'⟩
    exact ⟨⟨b', n', clip', by rw [h', h]⟩, hn'.trans hn, Frame.trans ho ho'⟩

namespace ClipOnly
variable (e : MsgEnv) (msg : SspBuf) (i : Fin 2) {S : Stop → Prop}

theorem tame {s s' : State} (h : ClipOnly s s') : Tame s s' := by
  obtain ⟨⟨b, n, clip, hc⟩, hn, hout⟩ := h
  exact ⟨by rw [hc], by rw [hc], by rw [hc]; exact fun h => ⟨h, rfl⟩, hn, hout.mono fun _ => Event.IsClip.not_ghost⟩

theorem emits {evs : List Event} (h : ∀ ev ∈ evs, ev.IsClip) : Within ClipOnly S (emits evs) :=
  fun s => ⟨⟨s.ctx.replyBuffer, s.ctx.replyCur, s.ctx.clip, rfl⟩, rfl, .emits h⟩

theorem parseError : Within ClipOnly S parseError := emits (by simp [Event.IsClip])

theorem of_sends {s s' : State} (h : Sends s s') : ClipOnly s s' := by
  obtain ⟨⟨⟨b, n, hc⟩, hn⟩, hout⟩ := h
  exact ⟨⟨b, n, s.ctx.clip, hc⟩, hn, hout.mono fun ev he => by cases ev <;> simp_all [Event.IsReply, Event.IsClip]⟩

theorem replyCnop : Within ClipOnly S (replyCnop e) :=
  fun s => wp_mono (replyCnop_sends e s) (fun _ _ => of_sends) fun _ _ => False.elim

theorem of_setSlot (s : State) (c : ClipSlot) : ClipOnly s (s.setSlot i c) :=
  ⟨⟨s.ctx.replyBuffer, s.ctx.replyCur, _, rfl⟩, rfl, .ctx id⟩

theorem setClip (f : ClipSlot → ClipSlot) : Within ClipOnly S (setClip i f) := fun s => of_setSlot i s _

theorem growClip (ha : S .abort) (h : Heap) (len : Nat) : Within ClipOnly S (growClip h i len) := by
  refine Within.read fun s => ?_
  split
  exacts [setClip i _, Within.throw ha]

theorem copyOut (hm : S (.fault .message)) (len : Nat) : Within ClipOnly S (copyOut msg len) := by
  unfold Waynergy.copyOut
  split
  exacts [Within.pure _, Within.pure _, Within.throw hm]

theorem clipIndex (hi : S (.fault .clipIndex)) (id : Nat) : Within ClipOnly S (clipIndex id) := by
  unfold Waynergy.clipIndex
  split
  exacts [Within.pure _, Within.throw hi]

theorem processCclp (hm : S (.fault .message)) (hi : S (.fault .clipIndex)) :
    Within ClipOnly S (processCclp e msg) :=
  within_parse hm parseError fun id _ => Within.bind (clipIndex hi id) fun i =>
    Within.bind (setClip i _) fun _ => replyCnop e

theorem dclpStart (hl : S (.fault .lengthBuffer)) (hm : S (.fault .message)) (ha : S .abort) (len : Nat) :
    Within ClipOnly S (dclpStart e i len msg) := by
  refine Within.bind (setClip i _) fun _ => Within.ite (Within.throw hl) ?_
  refine Within.bind (copyOut msg hm len) fun copied => Within.bind (setClip i _) fun _ => Within.read fun s => ?_
  split
  · exact Within.bind (growClip i ha _ _) fun _ => replyCnop e
  · exact replyCnop e

theorem storeChunk (hm : S (.fault .message)) (hc : S (.fault .clipCopy)) (len : Nat) :
    Within ClipOnly S (storeChunk i len msg) := by
  refine Within.read fun s => Within.ite (Within.pure ()) (Within.bind (copyOut msg hm len) fun copied => ?_)
  cases copied with
  | none => exact Within.pure ()
  | some bs => exact Within.ite (Within.throw hc) (setClip i _)

theorem dclpChunk (hm : S (.fault .message)) (hc : S (.fault .clipCopy)) (len : Nat) :
    Within ClipOnly S (dclpChunk e i len msg) :=
  Within.read fun _ => Within.ite (Within.pure ()) <| Within.bind (storeChunk msg i hm hc len) fun _ =>
    Within.bind (setClip i _) fun _ => replyCnop e

theorem dclpFormats (hp : S (.fault .clipParse)) (id : Nat) (callback : Bool) (n : Nat) (buf : SspBuf) :
    Within ClipOnly S (dclpFormats id callback n buf) := by
  induction n generalizing buf with
  | zero => exact Within.pure true
  | succ n ih =>
    refine within_parse hp parseError fun a buf => ?_
    have rest : Within ClipOnly S
        (parse .clipParse (sspSeek a.2) buf false fun _ buf => Waynergy.dclpFormats id callback n buf) :=
      within_parse hp parseError fun _ buf => ih buf
    exact Within.ite (Within.ite (Within.bind parseError fun _ => Within.pure false)
      (Within.ite (Within.throw hp) (Within.bind (emits (by simp [Event.IsClip])) fun _ => rest))) rest

theorem dclpEnd (hp : S (.fault .clipParse)) : Within ClipOnly S (dclpEnd e i) :=
  Within.read fun _ => within_parse hp parseError fun _ _ => Within.bind (dclpFormats hp _ _ _ _) fun _ =>
    Within.ite (Within.bind (setClip i _) fun _ => replyCnop e) (Within.pure ())

theorem processDclp : Within ClipOnly MessageStop (processDclp e msg) := by
  refine within_parse trivial parseError fun h msg => Within.ite ?_ (Within.ite ?_ (Within.ite ?_ (replyCnop e)))
  · exact Within.bind (clipIndex trivial _) fun i => dclpStart e msg i trivial trivial trivial h.len
  · exact Within.bind (clipIndex trivial _) fun i => Within.read fun _ =>
      Within.ite (dclpChunk e msg i trivial trivial h.len) (replyCnop e)
  · exact Within.bind (clipIndex trivial _) fun i => Within.read fun _ =>
      Within.ite (dclpEnd e i trivial) (replyCnop e)

end ClipOnly

/-! ### Every message -/

namespace IsTame
variable (e : MsgEnv) (msg : SspBuf)

theorem processHello (imp : Bytes) : IsTame (processHello e imp msg) := fun s =>
  wp_mono (processHello_spec e imp msg s) (fun _ _ h => h.elim Plain.tame fun h => h.2.tame)
    fun _ _ h => ⟨h.1.tame, h.2 ▸ trivial⟩

theorem processPkt (p : Pkt) : IsTame (processPkt e msg p) := by
  by_cases hp : p.Special
  · cases p with
    | cout => exact fun s => wp_mono (processCout_spec e s) (fun _ _ => Left.tame) fun _ _ h => ⟨h.1, h.2 ▸ trivial⟩
    | cclp => exact (ClipOnly.processCclp e msg trivial trivial).mono (fun _ _ => ClipOnly.tame) fun _ => id
    | dclp => exact (ClipOnly.processDclp e msg).mono (fun _ _ => ClipOnly.tame) fun _ => id
    | cbye | ebad | ebsy => exact sSetDisconnected _
    | _ => exact absurd hp (by decide)
  · exact of_plain (IsPlain.processPkt e msg hp)

theorem sProcessMessage : IsTame (sProcessMessage e msg) := by
  unfold Waynergy.sProcessMessage
  split
  · rename_i f hf
    exact Within.throw (findWelcome_error hf ▸ trivial)
  · exact processHello e _ _
  · refine within_parse trivial parseError fun pktId msg => ?_
    split
    exacts [processPkt e msg _, Within.pure ()]

end IsTame
end Waynergy
