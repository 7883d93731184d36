import Waynergy.ClipSend

/-!
# The frames that are sent

`Outgoing name v`: the body `v` is one message of the client called `name`. Every builder of a reply makes such a
body, and one that fits, so with the cursor at its base nothing else is sent, and the cursor is at its base again.
`Speaks` says this of the states before and after, and every operation is shown to be `Speaking`.
-/

namespace Waynergy
open Lib

/-- The longest name that a HelloBack has room for. -/
def maxName : Nat := replyBufferSize - (4 + 7 + 2 + 2 + 4)

def helloBody (imp name : Bytes) : Bytes :=
  imp ++ (be16 protocolMajor ++ (be16 protocolMinor ++ (be32 name.length ++ name)))

/-- The messages to the server, by their layout. -/
inductive Outgoing (name : Bytes) : Bytes → Prop
  | helloBack {imp : Bytes} (himp : imp ∈ sImplementations) (hname : name.length ≤ maxName) :
      Outgoing name (helloBody imp name)
  | dinf (width height : Nat) :
      Outgoing name (ascii ['D', 'I', 'N', 'F'] ++ (be16 0 ++ (be16 0 ++ (be16 width ++ (be16 height ++
        (be16 0 ++ (be16 0 ++ be16 0)))))))
  | calv : Outgoing name (ascii ['C', 'A', 'L', 'V'])
  | cnop : Outgoing name (ascii ['C', 'N', 'O', 'P'])
  | cclp (i : Fin 2) (seq : Nat) :
      Outgoing name (ascii ['C', 'C', 'L', 'P'] ++ ([UInt8.ofNat i] ++ be32 seq))
  | dclpStart (i : Fin 2) (seq : Nat) {len : Nat} (hlen : len < 2 ^ 32) :
      Outgoing name (dclpBody i seq synDataStart (decimal len))
  | dclpChunk (i : Fin 2) (seq : Nat) {text : Bytes} (htext : text.length ≤ maxChunk) :
      Outgoing name (dclpBody i seq synDataChunk text)
  | dclpEnd (i : Fin 2) (seq : Nat) : Outgoing name (dclpBody i seq synDataEnd [])

namespace Outgoing
variable {name v : Bytes}

theorem length_imp {imp : Bytes} (h : imp ∈ sImplementations) : imp.length = 7 := by
  simp only [sImplementations, List.mem_cons, List.not_mem_nil, or_false] at h
  rcases h with rfl | rfl <;> rfl

/-- A message has an id, and fits. -/
theorem length (h : Outgoing name v) : 4 ≤ v.length ∧ 4 + v.length ≤ replyBufferSize := by
  have hsize : replyBufferSize = 1024 := rfl
  have hmax : maxName = 1005 := rfl
  have hchunk : maxChunk = 995 := rfl
  cases h with
  | helloBack himp hname =>
    simp only [helloBody, List.length_append, length_imp himp, length_be16, length_be32]
    omega
  | dinf width height =>
    show 4 ≤ 18 ∧ 4 + 18 ≤ replyBufferSize
    omega
  | calv | cnop =>
    show 4 ≤ 4 ∧ 4 + 4 ≤ replyBufferSize
    omega
  | cclp i seq =>
    show 4 ≤ 9 ∧ 4 + 9 ≤ replyBufferSize
    omega
  | dclpStart i seq hlen =>
    have := length_decimal_le hlen
    rw [length_dclpBody]
    omega
  | dclpChunk i seq htext =>
    rw [length_dclpBody]
    omega
  | dclpEnd i seq =>
    rw [length_dclpBody, List.length_nil]
    omega

end Outgoing

/-- A frame that is sent is one message. -/
def Event.Speech (name : Bytes) : Event → Prop
  | .send f => ∃ v, f = frame v ∧ Outgoing name v
  | _ => True

/-- Nothing is sent, and no construction fails. -/
def Event.Mute : Event → Prop
  | .send _ | .replyError => False
  | _ => True

theorem Event.Mute.speech {ev : Event} {name : Bytes} (h : ev.Mute) : ev.Speech name := by
  cases ev with
  | send => exact h.elim
  | _ => trivial

/-- Nothing is sent, and the cursor stays at its base. -/
structure Mutes (s s' : State) : Prop where
  name : s'.ctx.clientName = s.ctx.clientName
  cur : s.ctx.replyCur = 4 → s'.ctx.replyCur = 4
  out : ∃ evs, s'.out = s.out ++ evs ∧ ∀ ev ∈ evs, ev.Mute

instance : Frame Mutes where
  refl s := ⟨rfl, id, [], by simp, by simp⟩
  trans := by
    rintro s s' s'' ⟨hname, hcur, evs, ho, hevs⟩ ⟨hname', hcur', evs', ho', hevs'⟩
    refine ⟨hname'.trans hname, hcur' ∘ hcur, evs ++ evs', by rw [ho', ho, List.append_assoc], fun ev hm => ?_⟩
    rcases List.mem_append.mp hm with hm | hm
    exacts [hevs ev hm, hevs' ev hm]

abbrev Muted {α : Type} (m : Syn α) : Prop := Within Mutes (fun _ => True) m

namespace Muted
variable {α β : Type} (i : Fin 2) (msg : SspBuf)

theorem emits {evs : List Event} (h : ∀ ev ∈ evs, ev.Mute) : Muted (emits evs) := fun _ => ⟨rfl, id, evs, rfl, h⟩

theorem modify {f : State → State} (hname : ∀ s, (f s).ctx.clientName = s.ctx.clientName)
    (hcur : ∀ s, s.ctx.replyCur = 4 → (f s).ctx.replyCur = 4) (hout : ∀ s, (f s).out = s.out) : Muted (modify f) := by
  intro s
  exact ⟨hname s, hcur s, [], by rw [hout, List.append_nil], by simp⟩

theorem setCtx {f : Context → Context} (hname : ∀ c, (f c).clientName = c.clientName)
    (hcur : ∀ c, c.replyCur = 4 → (f c).replyCur = 4) : Muted (setCtx f) :=
  modify (fun s => hname s.ctx) (fun s => hcur s.ctx) fun _ => rfl

theorem setClip (f : ClipSlot → ClipSlot) : Muted (setClip i f) := setCtx (fun _ => rfl) fun _ => id

theorem sSetDisconnected (err : SynError) : Muted (sSetDisconnected err) := setCtx (fun _ => rfl) fun _ _ => rfl

theorem parseError : Muted parseError := emits (by simp [Event.Mute])

theorem parse {f : Fault} {p : Parse α} {buf : SspBuf} {bad : β} {k : α → SspBuf → Syn β}
    (hk : ∀ a buf, Muted (k a buf)) : Muted (parse f p buf bad k) :=
  within_parse trivial parseError hk

/-! ### The clipboard -/

theorem growClip (h : Heap) (len : Nat) : Muted (growClip h i len) := by
  refine Within.read fun _ => ?_
  split
  exacts [setClip i _, Within.throw trivial]

theorem copyOut (len : Nat) : Muted (copyOut msg len) := by
  unfold Waynergy.copyOut
  split
  exacts [Within.pure _, Within.pure _, Within.throw trivial]

theorem clipIndex (id : Nat) : Muted (clipIndex id) := by
  unfold Waynergy.clipIndex
  split
  exacts [Within.pure _, Within.throw trivial]

theorem storeChunk (len : Nat) : Muted (storeChunk i len msg) := by
  refine Within.read fun _ => Within.ite (Within.pure ()) (Within.bind (copyOut msg len) fun copied => ?_)
  cases copied with
  | none => exact Within.pure ()
  | some bs => exact Within.ite (Within.throw trivial) (setClip i _)

theorem dclpFormats (id : Nat) (callback : Bool) (n : Nat) (buf : SspBuf) :
    Muted (dclpFormats id callback n buf) := by
  induction n generalizing buf with
  | zero => exact Within.pure true
  | succ n ih =>
    refine parse fun a buf => ?_
    have rest : Muted
        (Waynergy.parse .clipParse (sspSeek a.2) buf false fun _ buf => Waynergy.dclpFormats id callback n buf) :=
      parse fun _ buf => ih buf
    exact Within.ite (Within.ite (Within.bind parseError fun _ => Within.pure false)
      (Within.ite (Within.throw trivial) (Within.bind (emits (by simp [Event.Mute])) fun _ => rest))) rest

theorem containsLoop (data : Bytes) (formats : Nat) (buf : SspBuf) : Muted (containsLoop data formats buf) := by
  induction formats generalizing buf with
  | zero => exact Within.pure false
  | succ formats ih =>
    unfold Waynergy.containsLoop
    split
    · exact Within.ite (Within.ite (Within.throw trivial) (Within.ite (Within.pure true) (ih _))) (ih _)
    · exact Within.pure false
    · exact Within.throw trivial

theorem uSynergyClipBufContains (data : Bytes) : Muted (uSynergyClipBufContains i data) := by
  refine Within.read fun s => ?_
  dsimp only
  split
  · exact Within.pure false
  · refine Within.ite (Within.pure false) ?_
    split
    · exact containsLoop data _ _
    · exact Within.pure false
    · exact Within.throw trivial

/-! ### Receiving -/

theorem consume (packlen : Nat) : Muted (consume packlen) :=
  Within.read fun _ => Within.ite (Within.throw trivial) (Within.bind (emits (by simp [Event.Mute])) fun _ =>
    setCtx (fun _ => rfl) fun _ => id)

theorem byRead : KeptByRead Mutes where
  failed _ := ⟨rfl, id, [], by simp, by simp⟩
  down _ := ⟨rfl, fun _ => rfl, [], by simp, by simp⟩
  stored _ _ _ := ⟨rfl, id, [], by simp, by simp⟩
  timed _ _ := ⟨rfl, id, [], by simp, by simp⟩
  slept _ _ := ⟨rfl, id, _, rfl, by simp [Event.Mute]⟩

theorem receive (avail : Bytes) (now : Nat) : Muted (receive avail now) := byRead.receive trivial avail now

theorem ditchRead (packlen : Nat) (n : Int) (avail : Bytes) : Muted (ditchRead packlen n avail) :=
  byRead.ditchRead trivial packlen n avail

/-! ### Connecting -/

theorem byNet : KeptByNet Mutes where
  closed _ := ⟨rfl, id, [], by simp, by simp⟩
  opened _ _ := ⟨rfl, id, [], by simp, by simp⟩
  timed _ _ := ⟨rfl, id, [], by simp, by simp⟩
  tried _ := ⟨rfl, id, _, rfl, by simp [Event.Mute]⟩

theorem synNetDisconnect : Muted synNetDisconnect := byNet.synNetDisconnect

theorem tryConnect (c : ConnectEnv) : Muted (tryConnect c) :=
  byNet.tryConnect trivial (fun _ => ⟨rfl, id, [], by simp, by simp⟩)
    (fun _ => ⟨rfl, id, _, rfl, by simp [Event.Mute]⟩) c

end Muted

/-! ### Replying -/

theorem mute_ite {c : Bool} {ev : Event} (h : ev.Mute) : ∀ ev' ∈ (if c then [ev] else []), ev'.Mute := by
  intro ev' hev
  split at hev
  · rwa [List.mem_singleton.mp hev]
  · cases hev

theorem builder_dclpBody (id seq mark n : Nat) (text : Bytes) :
    Builder (addDclp id seq mark <&&> (sAddUInt32 n <&&> sAddBin text)) :=
  (builder_addDclp _ _ _).and ((Builder.sAddBin _).and (Builder.sAddBin _))

theorem adds_addDinf (width height : Nat) : Adds (ascii ['D', 'I', 'N', 'F'] ++ (be16 0 ++ (be16 0 ++ (be16 width ++
    (be16 height ++ (be16 0 ++ (be16 0 ++ be16 0))))))) (addDinf width height) :=
  (Adds.sAddBin _).and <| (Adds.sAddBin _).and <| (Adds.sAddBin _).and <| (Adds.sAddBin _).and <|
    (Adds.sAddBin _).and <| (Adds.sAddBin _).and <| (Adds.sAddBin _).and (Adds.sAddBin _)

/-- The builders of `uSynergyUpdateRes`, and what follows them. -/
def sendDinf (sent : Bool) (width height : Nat) : Syn Unit := do
  let _ ← sAddString (ascii ['D', 'I', 'N', 'F'])
  let _ ← sAddUInt16 0
  let _ ← sAddUInt16 0
  let _ ← sAddUInt16 width
  let _ ← sAddUInt16 height
  let _ ← sAddUInt16 0
  let _ ← sAddUInt16 0
  let _ ← sAddUInt16 0
  let _ ← sSendReply sent
  setCtx fun c => { c with infoCurrent := false }

/-- Kept by what sends nothing, and by a reply that is one message other than a HelloBack. -/
structure KeptByReply (R : State → State → Prop) : Prop where
  muted : ∀ s s', Mutes s s' → R s s'
  reply : ∀ {m : Syn Bool} {v : Bytes}, Builder m → Adds v m → (∀ name, Outgoing name v) → ∀ sent : Bool,
    Within R (fun _ => True) (reply sent m)

namespace KeptByReply
variable {α β : Type} {R : State → State → Prop} (hR : KeptByReply R)
include hR

theorem of_muted {m : Syn α} (hm : Muted m) : Within R (fun _ => True) m := hm.mono hR.muted fun _ => id

theorem emits {evs : List Event} (h : ∀ ev ∈ evs, ev.Mute) : Within R (fun _ => True) (emits evs) :=
  hR.of_muted (Muted.emits h)

theorem setCtx {f : Context → Context} (hname : ∀ c, (f c).clientName = c.clientName)
    (hcur : ∀ c, c.replyCur = 4 → (f c).replyCur = 4) : Within R (fun _ => True) (setCtx f) :=
  hR.of_muted (Muted.setCtx hname hcur)

theorem setClip (i : Fin 2) (f : ClipSlot → ClipSlot) : Within R (fun _ => True) (setClip i f) :=
  hR.of_muted (Muted.setClip i f)

variable [Frame R]

theorem parse {f : Fault} {p : Parse α} {buf : SspBuf} {bad : β} {k : α → SspBuf → Syn β}
    (hk : ∀ a buf, Within R (fun _ => True) (k a buf)) : Within R (fun _ => True) (parse f p buf bad k) :=
  within_parse trivial (hR.of_muted Muted.parseError) hk

variable (e : MsgEnv) (msg : SspBuf) (i : Fin 2)

theorem replyCnop : Within R (fun _ => True) (replyCnop e) :=
  Within.bind (hR.reply (.sAddBin _) (.sAddBin _) (fun _ => .cnop) _) fun _ => Within.pure ()

/-! ### The clipboard -/

theorem sendChunks (sent : Bool) (seq len : Nat) (text : Bytes) (fuel pos : Nat) :
    Within R (fun _ => True) (sendChunks sent i seq len text fuel pos) := by
  induction fuel generalizing pos with
  | zero => exact Within.ite (Within.throw trivial) (Within.pure _)
  | succ fuel ih =>
    unfold Waynergy.sendChunks
    refine Within.ite ?_ (Within.pure _)
    dsimp only
    generalize hn : (if len - pos > maxChunk then maxChunk else len - pos) = n
    by_cases hin : intMax < pos ∨ text.length < pos + n
    · rw [if_pos hin]
      exact Within.throw trivial
    · rw [if_neg hin]
      have hle : n ≤ maxChunk := by split at hn <;> omega
      have hslice : (slice text pos n).length = n := length_slice (by omega)
      have hadds := adds_dclpBody i seq synDataChunk (slice text pos n)
      rw [hslice] at hadds
      have hv : ∀ name, Outgoing name (dclpBody i seq synDataChunk (slice text pos n)) := fun _ =>
        .dclpChunk i seq (hslice.trans_le hle)
      exact Within.bind (hR.reply (builder_dclpBody _ _ _ _ _) hadds hv sent) fun ok =>
        Within.ite (ih (pos + n)) (Within.pure _)

theorem uSynergySendClipboard (sent : Bool) {len : Nat} (hlen : len < 2 ^ 32) (text : Bytes) :
    Within R (fun _ => True) (uSynergySendClipboard sent i len text) :=
  Within.read fun _ => Within.bind (hR.reply (builder_dclpBody _ _ _ _ _) (adds_dclpBody i _ _ _)
    (fun _ => .dclpStart i _ hlen) sent) fun _ =>
    Within.ite (Within.bind (hR.sendChunks i sent _ len text len 0) fun _ =>
      Within.ite (Within.bind (hR.reply ((builder_addDclp _ _ _).and (.sAddBin _)) (adds_dclpEnd i _)
        (fun _ => .dclpEnd i _) sent) fun _ => Within.pure ())
        (Within.pure ())) (Within.pure ())

theorem processCclp : Within R (fun _ => True) (processCclp e msg) :=
  hR.parse fun id _ => Within.bind (hR.of_muted (Muted.clipIndex id)) fun i =>
    Within.bind (hR.setClip i _) fun _ => hR.replyCnop e

theorem dclpStart (len : Nat) : Within R (fun _ => True) (dclpStart e i len msg) := by
  refine Within.bind (hR.setClip i _) fun _ => Within.ite (Within.throw trivial) ?_
  refine Within.bind (hR.of_muted (Muted.copyOut msg len)) fun copied => Within.bind (hR.setClip i _) fun _ =>
    Within.read fun _ => ?_
  split
  · exact Within.bind (hR.of_muted (Muted.growClip i _ _)) fun _ => hR.replyCnop e
  · exact hR.replyCnop e

theorem dclpChunk (len : Nat) : Within R (fun _ => True) (dclpChunk e i len msg) :=
  Within.read fun _ => Within.ite (Within.pure ()) <| Within.bind (hR.of_muted (Muted.storeChunk i msg len)) fun _ =>
    Within.bind (hR.setClip i _) fun _ => hR.replyCnop e

theorem dclpEnd : Within R (fun _ => True) (dclpEnd e i) :=
  Within.read fun _ => hR.parse fun _ _ => Within.bind (hR.of_muted (Muted.dclpFormats _ _ _ _)) fun _ =>
    Within.ite (Within.bind (hR.setClip i _) fun _ => hR.replyCnop e) (Within.pure ())

theorem processDclp : Within R (fun _ => True) (processDclp e msg) := by
  refine hR.parse fun h msg => Within.ite ?_ (Within.ite ?_ (Within.ite ?_ (hR.replyCnop e)))
  · exact Within.bind (hR.of_muted (Muted.clipIndex _)) fun i => hR.dclpStart e msg i h.len
  · exact Within.bind (hR.of_muted (Muted.clipIndex _)) fun i => Within.read fun _ =>
      Within.ite (hR.dclpChunk e msg i h.len) (hR.replyCnop e)
  · exact Within.bind (hR.of_muted (Muted.clipIndex _)) fun i => Within.read fun _ =>
      Within.ite (hR.dclpEnd e i) (hR.replyCnop e)

/-! ### Messages -/

theorem notify {p : Parse α} {callback : Context → α → List Event}
    (h : ∀ c a, ∀ ev ∈ callback c a, ev.Mute) : Within R (fun _ => True) (notify e p callback msg) :=
  hR.parse fun a _ => Within.read fun s => Within.bind (hR.emits (h s.ctx a)) fun _ => hR.replyCnop e

theorem keys {p : Parse KeyData} {down rpt : Bool} :
    Within R (fun _ => True) (Waynergy.notify e p (keyCallback down rpt) msg) :=
  hR.notify e msg fun c _ => @mute_ite c.callbacks.keyboard (.keyboard _ _ _ down rpt) trivial

theorem updateJoystick {j : Nat} {store : Fin numJoysticks → Context → Context}
    (hname : ∀ i c, (store i c).clientName = c.clientName) (hcur : ∀ i c, (store i c).replyCur = c.replyCur) :
    Within R (fun _ => True) (updateJoystick e j store) := by
  refine Within.bind ?_ fun _ => hR.replyCnop e
  unfold storeJoystick joyIndex
  split
  · exact Within.bind (Within.pure _) fun i => Within.bind
      (hR.setCtx (hname i) fun c h => (hcur i c).trans h) fun _ => Within.read fun s =>
        hR.emits (@mute_ite s.ctx.callbacks.joystick (.joystick i _ _) trivial)
  · exact Within.pure ()

theorem sendGrabbed : Within R (fun _ => True) (sendGrabbed e i) :=
  Within.read fun s => Within.ite (Within.bind
    (hR.uSynergySendClipboard i _ (Nat.mod_lt _ (by decide)) _) fun _ => hR.setClip i _) (Within.pure ())

theorem processCout : Within R (fun _ => True) (processCout e) :=
  Within.bind (hR.setCtx (fun _ => rfl) fun _ => id) fun _ => Within.bind (hR.sendGrabbed e 0) fun _ =>
    Within.bind (hR.sendGrabbed e 1) fun _ => Within.read fun _ =>
      Within.bind (hR.emits (mute_ite trivial)) fun _ => hR.replyCnop e

theorem processPkt (p : Pkt) : Within R (fun _ => True) (processPkt e msg p) := by
  cases p with
  | qinf =>
    refine Within.read fun _ => Within.bind ?_ fun _ =>
      Within.ite (hR.setCtx (fun _ => rfl) fun _ => id) (Within.pure ())
    exact hR.reply (builder_addDinf _ _) (adds_addDinf _ _) (fun _ => .dinf _ _) _
  | ciak =>
    unfold Waynergy.processPkt processCiak
    exact hR.setCtx (fun _ => rfl) fun _ => id
  | crop => exact Within.pure ()
  | cinn =>
    exact hR.parse fun seq _ => Within.bind (hR.setCtx (fun _ => rfl) fun _ => id) fun _ => Within.read fun _ =>
      Within.bind (hR.emits (mute_ite trivial)) fun _ => hR.replyCnop e
  | cout => exact hR.processCout e
  | csec =>
    unfold Waynergy.processPkt processCsec
    exact hR.notify e msg fun c _ => mute_ite (c := c.callbacks.screensaver) trivial
  | dmdn =>
    unfold Waynergy.processPkt processDmdn
    exact hR.notify e msg fun c _ => mute_ite (c := c.callbacks.mouseButtonDown) trivial
  | dmup =>
    unfold Waynergy.processPkt processDmup
    exact hR.notify e msg fun c _ => mute_ite (c := c.callbacks.mouseButtonUp) trivial
  | dmmv =>
    unfold Waynergy.processPkt processDmmv
    exact hR.notify e msg fun c _ => mute_ite (c := c.callbacks.mouseMove) trivial
  | dmrm =>
    unfold Waynergy.processPkt processDmrm
    exact hR.notify e msg fun c _ => mute_ite (c := c.callbacks.mouseMove) trivial
  | dmwm =>
    unfold Waynergy.processPkt processDmwm
    refine hR.notify e msg fun c a ev hev => ?_
    unfold sSendMouseWheelCallback at hev
    split at hev
    · cases hev
    · split at hev
      · cases hev
      · rw [List.mem_singleton.mp hev]
        trivial
  | dkdn =>
    unfold Waynergy.processPkt processDkdn
    exact hR.keys e msg
  | dkrp =>
    unfold Waynergy.processPkt processDkrp
    exact hR.keys e msg
  | dkup =>
    unfold Waynergy.processPkt processDkup
    exact hR.keys e msg
  | dgbt => exact hR.parse fun _ _ => hR.updateJoystick e (fun _ _ => rfl) fun _ _ => rfl
  | dgst => exact hR.parse fun _ _ => hR.updateJoystick e (fun _ _ => rfl) fun _ _ => rfl
  | dsop => exact hR.replyCnop e
  | calv =>
    exact Within.bind (hR.reply (.sAddBin _) (.sAddBin _) (fun _ => .calv) _) fun _ =>
      Within.ite (hR.replyCnop e) (Within.pure ())
  | cclp => exact hR.processCclp e msg
  | dclp => exact hR.processDclp e msg
  | cbye | ebad | ebsy => exact hR.of_muted (Muted.sSetDisconnected _)

/-! ### Local updates -/

theorem uSynergyUpdateClipBuf (h : Heap) (sent : Bool) (data : Bytes) :
    Within R (fun _ => True) (uSynergyUpdateClipBuf h sent i data) := by
  refine Within.bind (hR.of_muted (Muted.uSynergyClipBufContains i data)) fun found => Within.ite (Within.pure ()) ?_
  have hadds : ∀ seq, Adds (ascii ['C', 'C', 'L', 'P'] ++ ([UInt8.ofNat i] ++ be32 seq))
      (sAddString (ascii ['C', 'C', 'L', 'P']) <&&> (sAddUInt8 i <&&> sAddUInt32 seq)) := fun _ =>
    (Adds.sAddBin _).and ((Adds.sAddBin _).and (Adds.sAddBin _))
  have hbuilder : ∀ seq, Builder (sAddString (ascii ['C', 'C', 'L', 'P']) <&&>
      (sAddUInt8 i <&&> sAddUInt32 seq)) := fun _ =>
    (Builder.sAddBin _).and ((Builder.sAddBin _).and (Builder.sAddBin _))
  have hstore : ∀ s : State, Within R (fun _ => True) (
      if (s.ctx.clip i).cap < (encodeText data).length then throw (.fault .clipEncode)
      else do
        Waynergy.setClip i fun c => { c with buf := some (overwrite c.mem 0 (encodeText data)) }
        let _ ← Waynergy.reply sent (sAddString (ascii ['C', 'C', 'L', 'P']) <&&> (sAddUInt8 i <&&>
          sAddUInt32 s.ctx.sequenceNumber))
        pure ()) := fun s => Within.ite (Within.throw trivial) <| Within.bind (hR.setClip i _) fun _ =>
    Within.bind (hR.reply (hbuilder _) (hadds _) (fun _ => .cclp i _) sent) fun _ => Within.pure ()
  refine Within.bind (hR.setClip i _) fun _ => Within.read fun s => ?_
  split
  · exact Within.bind (hR.setClip i _) fun _ => Within.bind (hR.of_muted (Muted.growClip i h _)) fun _ =>
      Within.read hstore
  · exact Within.read hstore

end KeptByReply

/-! ### The frames -/

/-- With the cursor at its base, messages were sent and it is there again, unless a construction failed, which
none does where the name fits. -/
structure Speaks (s s' : State) : Prop where
  name : s'.ctx.clientName = s.ctx.clientName
  out : ∃ evs, s'.out = s.out ++ evs ∧ (s.ctx.replyCur = 4 →
    (s.ctx.clientName.length ≤ maxName → .replyError ∉ evs) ∧
    (.replyError ∉ evs → s'.ctx.replyCur = 4 ∧ ∀ ev ∈ evs, ev.Speech s.ctx.clientName))

instance : Frame Speaks where
  refl s := ⟨rfl, [], by simp, fun h => ⟨fun _ => by simp, fun _ => ⟨h, by simp⟩⟩⟩
  trans := by
    rintro s s' s'' ⟨hname, evs, ho, hevs⟩ ⟨hname', evs', ho', hevs'⟩
    refine ⟨hname'.trans hname, evs ++ evs', by rw [ho', ho, List.append_assoc], fun hcur => ?_⟩
    rw [hname] at hevs'
    obtain ⟨hfits, hspeech⟩ := hevs hcur
    rw [List.mem_append, not_or]
    refine ⟨fun hle => ⟨hfits hle, (hevs' (hspeech (hfits hle)).1).1 hle⟩, ?_⟩
    rintro ⟨hno, hno'⟩
    obtain ⟨hcur', hev⟩ := hspeech hno
    obtain ⟨hcur'', hev'⟩ := (hevs' hcur').2 hno'
    refine ⟨hcur'', fun ev hm => ?_⟩
    rcases List.mem_append.mp hm with hm | hm
    exacts [hev ev hm, hev' ev hm]

abbrev Speaking {α : Type} (m : Syn α) : Prop := Within Speaks (fun _ => True) m

theorem Mutes.speaks {s s' : State} (h : Mutes s s') : Speaks s s' := by
  obtain ⟨hname, hcur, evs, ho, hevs⟩ := h
  refine ⟨hname, evs, ho, fun h4 => ⟨fun _ hm => hevs _ hm, fun _ => ⟨hcur h4, fun ev hev => (hevs ev hev).speech⟩⟩⟩

namespace Speaking
variable {α : Type}

/-- Without the cursor at its base, nothing is claimed of what is sent. -/
theorem of_sends {s s' : State} (h : Sends s s') (hcur : s.ctx.replyCur ≠ 4) : Speaks s s' := by
  obtain ⟨⟨⟨b, n, hc⟩, -⟩, evs, ho, -, -⟩ := h
  exact ⟨by rw [hc], evs, ho, fun h => absurd h hcur⟩

theorem reply {m : Syn Bool} {v : Bytes} (hb : Builder m) (h : Adds v m) (hv : ∀ name, Outgoing name v) (sent : Bool) :
    Speaking (reply sent m) := by
  intro s
  by_cases hcur : s.ctx.replyCur = 4
  · obtain ⟨b, hrun⟩ := reply_run h sent hcur (hv []).length.2
    refine wp_of_ok hrun ⟨rfl, [.send (frame v)], rfl, fun _ => ⟨fun _ => by simp, fun _ => ⟨hcur, ?_⟩⟩⟩
    intro ev hev
    rw [List.mem_singleton.mp hev]
    exact ⟨v, rfl, hv _⟩
  · exact wp_mono (reply_sends hb sent s) (fun _ _ h => of_sends h hcur) fun _ _ => False.elim

theorem kept : KeptByReply Speaks := ⟨fun _ _ => Mutes.speaks, Speaking.reply⟩

variable (e : MsgEnv) (msg : SspBuf)

/-! ### Messages -/

/-- If a builder succeeds, its `n` bytes are in the buffer. -/
def Fills (n : Nat) (m : Syn Bool) : Prop :=
  ∀ s, wp m (fun b s' => b = true → s'.ctx.replyCur = s.ctx.replyCur + n ∧ s'.ctx.replyCur ≤ replyBufferSize)
    (fun _ _ => True) s

theorem Fills.sAddBin (v : Bytes) : Fills v.length (sAddBin v) := by
  intro s
  rw [wp_sAddBin]
  split
  · intro hfalse
    cases hfalse
  · rename_i hfit
    exact fun _ => ⟨rfl, Nat.le_of_not_lt hfit⟩

theorem Fills.and {n n' : Nat} {m m' : Syn Bool} (h : Fills n m) (h' : Fills n' m') : Fills (n + n') (m <&&> m') := by
  intro s
  rw [wp_andM]
  refine wp_mono (h s) (fun b s₁ h₁ => ?_) fun _ _ => id
  cases b with
  | false =>
    intro hfalse
    cases hfalse
  | true =>
    refine wp_mono (h' s₁) (fun b s₂ h₂ hb => ?_) fun _ _ => id
    have hcur := (h₁ rfl).1
    obtain ⟨hcur', hle⟩ := h₂ hb
    exact ⟨by omega, hle⟩

/-- The builder of a HelloBack. -/
def addHelloBack (imp name : Bytes) : Syn Bool :=
  sAddString imp <&&> (sAddUInt16 protocolMajor <&&> (sAddUInt16 protocolMinor <&&>
    (sAddUInt32 name.length <&&> sAddString name)))

theorem adds_addHelloBack (imp name : Bytes) : Adds (helloBody imp name) (addHelloBack imp name) :=
  (Adds.sAddBin _).and ((Adds.sAddBin _).and ((Adds.sAddBin _).and ((Adds.sAddBin _).and (Adds.sAddBin _))))

theorem builder_addHelloBack (imp name : Bytes) : Builder (addHelloBack imp name) :=
  (Builder.sAddBin _).and <| (Builder.sAddBin _).and <| (Builder.sAddBin _).and <|
    (Builder.sAddBin _).and (Builder.sAddBin _)

theorem fills_addHelloBack (imp name : Bytes) :
    Fills (imp.length + (2 + (2 + (4 + name.length)))) (addHelloBack imp name) :=
  (Fills.sAddBin _).and <| (Fills.sAddBin _).and <| (Fills.sAddBin _).and <| (Fills.sAddBin _).and (Fills.sAddBin _)

/-- What a hello of the implementation `imp` can cause: a HelloBack, or none if the name is too long. -/
def Answer (imp name : Bytes) : Event → Prop
  | .send f => f = frame (helloBody imp name) ∧ name.length ≤ maxName
  | .replyError => maxName < name.length
  | _ => True

/-- The HelloBack fits exactly if the name does. -/
theorem processHello_answers {imp : Bytes} (himp : imp ∈ sImplementations) (s : State) :
    wp (Waynergy.processHello e imp msg)
      (fun _ s' => s'.ctx.clientName = s.ctx.clientName ∧ ∃ evs, s'.out = s.out ++ evs ∧
        (∀ ev ∈ evs, Answer imp s.ctx.clientName ev) ∧
        (s.ctx.replyCur = 4 → .replyError ∉ evs → s'.ctx.replyCur = 4))
      (fun _ s' => s' = s) s := by
  have hmax : maxName = 1005 := rfl
  have hsize : replyBufferSize = 1024 := rfl
  unfold Waynergy.processHello
  rw [wp_parse]
  unfold wp
  split
  · rename_i a rest heq
    show wp _ _ _ s
    rw [wp_bind, wp_setCtx, wp_bind, wp_get, wp_bind]
    show wp (addHelloBack imp s.ctx.clientName) _ _ { s with ctx := { s.ctx with replyCur := 4 } }
    by_cases hname : s.ctx.clientName.length ≤ maxName
    · have hhello : Outgoing s.ctx.clientName (helloBody imp s.ctx.clientName) := .helloBack himp hname
      obtain ⟨b, n, hr, hv⟩ := adds_addHelloBack imp s.ctx.clientName []
        { s with ctx := { s.ctx with replyCur := 4 } } (.base rfl) hhello.length.2
      obtain ⟨b', hsend⟩ := hv.sSendReply_run e.sent
      refine wp_of_ok hr ?_
      rw [if_pos rfl, wp_bind]
      refine wp_of_ok hsend ?_
      rw [wp_ite]
      split
      · refine ⟨rfl, [.send _], rfl, fun ev hev => ?_, fun _ _ => rfl⟩
        rw [List.mem_singleton.mp hev]
        exact ⟨rfl, hname⟩
      · refine ⟨rfl, [.send _, .sleep 1000], List.append_assoc .., fun ev hev => ?_, fun _ _ => rfl⟩
        rcases List.mem_cons.mp hev with rfl | hev
        · exact ⟨rfl, hname⟩
        · rw [List.mem_singleton.mp hev]
          trivial
    · refine wp_mono (wp_and (builder_addHelloBack imp _ _) (fills_addHelloBack imp _ _)) ?_ fun _ _ h => h.1.elim
      rintro ok s₁ ⟨⟨⟨⟨b, n, hc⟩, -⟩, ho⟩, hfills⟩
      cases ok with
      | true =>
        obtain ⟨hcur, hle⟩ := hfills rfl
        have hlen := Outgoing.length_imp himp
        have hcur : s₁.ctx.replyCur = 4 + (imp.length + (2 + (2 + (4 + s.ctx.clientName.length)))) := hcur
        omega
      | false =>
        refine ⟨?_, [.replyError], ?_, fun ev hev => ?_, fun _ h => absurd (List.mem_singleton_self _) h⟩
        · show s₁.ctx.clientName = s.ctx.clientName
          rw [hc]
        · show s₁.out ++ [.replyError] = s.out ++ [.replyError]
          rw [ho]
        · rw [List.mem_singleton.mp hev]
          exact Nat.lt_of_not_le hname
  · rename_i fail rest heq
    cases fail with
    | short =>
      refine ⟨rfl, [.parseError], rfl, fun ev hev => ?_, fun h _ => h⟩
      rw [List.mem_singleton.mp hev]
      trivial
    | outside => rfl

theorem processHello {imp : Bytes} (himp : imp ∈ sImplementations) : Speaking (processHello e imp msg) := by
  intro s
  refine wp_mono (processHello_answers e msg himp s) ?_ ?_
  · rintro _ s' ⟨hname, evs, ho, hevs, hcur⟩
    refine ⟨hname, evs, ho, fun h4 => ⟨fun hle hm => absurd hle (Nat.not_le.mpr (hevs _ hm)), fun hno => ?_⟩⟩
    refine ⟨hcur h4 hno, fun ev hev => ?_⟩
    have hans := hevs ev hev
    cases ev with
    | send f => exact ⟨_, hans.1, .helloBack himp hans.2⟩
    | _ => trivial
  · rintro _ _ rfl
    exact ⟨Frame.refl _, trivial⟩

theorem findWelcome_mem {msg : SspBuf} {imps : List Bytes} {imp : Bytes} {rest : SspBuf}
    (h : findWelcome msg imps = .ok (some (imp, rest))) : imp ∈ imps := by
  induction imps with
  | nil => cases h
  | cons imp' imps ih =>
    unfold findWelcome at h
    split at h
    · exact List.mem_cons_of_mem _ (ih h)
    · split at h
      · cases h
      · split at h
        · split at h <;> (cases h; exact List.mem_cons_self ..)
        · exact List.mem_cons_of_mem _ (ih h)

theorem sProcessMessage : Speaking (sProcessMessage e msg) := by
  unfold Waynergy.sProcessMessage
  split
  · exact Within.throw trivial
  · rename_i imp rest hw
    exact processHello e rest (findWelcome_mem hw)
  · refine kept.parse fun pktId msg => ?_
    split
    exacts [kept.processPkt e msg _, Within.pure ()]

theorem handMessage : Speaking (handMessage e msg) :=
  Within.read fun _ => Within.bind (kept.emits (by simp [Event.Mute])) fun _ => Within.bind (sProcessMessage e msg) fun _ =>
    Within.read fun _ => kept.emits (by simp [Event.Mute])

/-! ### Local updates -/

/-- With the message `w` under construction, `m` speaks. -/
def Continues (w : Bytes) (m : Syn Unit) : Prop :=
  ∀ s b n, s.ctx.replyCur = 4 → Replying w (s.withReply b n) →
    wp m (fun _ s' => Speaks s s') (fun _ s' => Speaks s s' ∧ True) (s.withReply b n)

theorem Continues.add {m : Syn Bool} {k : Syn Unit} {v w : Bytes} (h : Adds v m)
    (hfit : 4 + (w ++ v).length ≤ replyBufferSize) (hk : Continues (w ++ v) k) : Continues w (m >>= fun _ => k) := by
  intro s b n hcur hw
  obtain ⟨b', n', hr, hv⟩ := h w _ hw hfit
  rw [wp_bind]
  exact wp_of_ok hr (hk s b' n' hcur hv)

theorem Continues.send {w : Bytes} {f : Context → Context} (hw : ∀ name, Outgoing name w)
    (hname : ∀ c, (f c).clientName = c.clientName) (hcur : ∀ c, (f c).replyCur = c.replyCur) (sent : Bool) :
    Continues w (sSendReply sent >>= fun _ => Waynergy.setCtx f) := by
  intro s b n _ h
  obtain ⟨b', hsend⟩ := h.sSendReply_run sent
  rw [wp_bind]
  refine wp_of_ok hsend ⟨hname _, [.send (frame w)], rfl, fun _ => ⟨fun _ => by simp, fun _ => ⟨hcur _, ?_⟩⟩⟩
  intro ev hev
  rw [List.mem_singleton.mp hev]
  exact ⟨w, rfl, hw _⟩

theorem continues_sendDinf (sent : Bool) (width height : Nat) : Continues [] (sendDinf sent width height) := by
  have hfit : ∀ n, n ≤ 18 → 4 + n ≤ replyBufferSize := fun n hn => by
    have : replyBufferSize = 1024 := rfl
    omega
  have hdinf : ∀ name, Outgoing name ([] ++ ascii ['D', 'I', 'N', 'F'] ++ be16 0 ++ be16 0 ++ be16 width ++
      be16 height ++ be16 0 ++ be16 0 ++ be16 0) := fun _ => .dinf width height
  exact .add (.sAddBin _) (hfit 4 (by decide)) <| .add (.sAddBin _) (hfit 6 (by decide)) <|
    .add (.sAddBin _) (hfit 8 (by decide)) <| .add (.sAddBin _) (hfit 10 (by decide)) <|
    .add (.sAddBin _) (hfit 12 (by decide)) <| .add (.sAddBin _) (hfit 14 (by decide)) <|
    .add (.sAddBin _) (hfit 16 (by decide)) <| .add (.sAddBin _) (hfit 18 (by decide)) <|
    Continues.send (f := fun c => { c with infoCurrent := false }) hdinf (fun _ => rfl) (fun _ => rfl) sent

theorem uSynergyUpdateRes (sent : Bool) (width height : Int) : Speaking (uSynergyUpdateRes sent width height) := by
  intro s
  by_cases hcur : s.ctx.replyCur = 4
  · unfold Waynergy.uSynergyUpdateRes
    rw [wp_bind, wp_setCtx, wp_bind, wp_get, wp_ite]
    have hsize : Speaks s { s with ctx := { s.ctx with
        clientWidth := (width % 65536).toNat, clientHeight := (height % 65536).toNat } } :=
      ⟨rfl, [], by simp, fun _ => ⟨fun _ => by simp, fun _ => ⟨hcur, by simp⟩⟩⟩
    split
    · exact wp_mono (continues_sendDinf sent (width % 65536).toNat (height % 65536).toNat
        { s with ctx := { s.ctx with clientWidth := (width % 65536).toNat, clientHeight := (height % 65536).toNat } }
        s.ctx.replyBuffer s.ctx.replyCur hcur (.base hcur)) (fun _ _ h => Frame.trans hsize h)
        fun _ _ h => ⟨Frame.trans hsize h.1, trivial⟩
    · exact hsize
  · refine wp_mono (uSynergyUpdateRes_spec sent width height s) ?_ fun _ _ => False.elim
    rintro _ _ ⟨t, hsends, rfl⟩
    have hspeaks := of_sends hsends hcur
    exact ⟨hspeaks.name, hspeaks.out.imp fun evs h => ⟨h.1, fun h0 => absurd h0 hcur⟩⟩

end Speaking

/-! ### Every operation -/

theorem speaking_whenConnected {m : Syn Unit} (h : Speaking m) : Speaking (whenConnected m) :=
  Within.read fun _ => Within.ite h (Within.pure ())

theorem Op.speaking (op : Op) : Speaking op.exec := by
  cases op with
  | connect e => exact Within.read fun _ => Within.ite (Within.pure ()) (Speaking.kept.of_muted (Muted.tryConnect e))
  | receive avail now =>
    exact speaking_whenConnected (Within.bind (Speaking.kept.of_muted (Muted.receive avail now)) fun _ => Within.pure ())
  | message e mem len => exact speaking_whenConnected (Speaking.handMessage e _)
  | consume packlen => exact speaking_whenConnected (Speaking.kept.of_muted (Muted.consume packlen))
  | ditch packlen n avail =>
    have hditch := Speaking.kept.of_muted (Muted.ditchRead packlen n avail)
    exact speaking_whenConnected (Within.bind hditch fun _ => Within.pure ())
  | resetReceive =>
    show Speaking Waynergy.resetReceive
    exact Speaking.kept.setCtx (fun _ => rfl) fun _ => id
  | netDisconnect => exact Within.bind (Speaking.kept.of_muted Muted.synNetDisconnect) fun _ => Within.pure ()
  | updateClipBuf h sent i data => exact Speaking.kept.uSynergyUpdateClipBuf i h sent data
  | updateRes sent width height => exact Speaking.uSynergyUpdateRes sent width height

/-- Every frame is one message in a frame of its own length, and none is built wrongly where the name fits. -/
structure WellSent (name : Bytes) (out : List Event) : Prop where
  built : name.length ≤ maxName → .replyError ∉ out
  sent : .replyError ∉ out → ∀ f, .send f ∈ out → 8 ≤ f.length ∧ f.length ≤ replyBufferSize ∧
    f.take 4 = be32 (f.length - 4) ∧ Outgoing name (f.drop 4)

theorem Speaks.wellSent {s s' : State} (h : Speaks s s') (hcur : s.ctx.replyCur = 4) (hout : s.out = []) :
    WellSent s.ctx.clientName s'.out := by
  obtain ⟨-, evs, ho, hevs⟩ := h
  obtain ⟨hbuilt, hspeech⟩ := hevs hcur
  rw [hout, List.nil_append] at ho
  rw [ho]
  refine ⟨hbuilt, fun hno f hf => ?_⟩
  obtain ⟨v, rfl, hv⟩ := (hspeech hno).2 _ hf
  obtain ⟨hmin, hmax⟩ := hv.length
  rw [length_frame, Nat.add_sub_cancel_left]
  refine ⟨by omega, hmax, List.take_left' (length_be32 _), ?_⟩
  rwa [frame, List.drop_left' (length_be32 _)]

variable {cfg : Config} {steps : List (State × Op)} {s : State}

theorem speaks_of_run (hrun : Run Op.exec (State.init cfg) steps s) : Speaks (State.init cfg) s :=
  hrun.invariant (P := fun s => Speaks (State.init cfg) s) (Frame.refl _) fun _ op _ _ h hop =>
    Frame.trans h (op.speaking.ok hop)

/-- Whatever operations are performed, each frame that is sent is one message in its layout; and no construction
fails but that of a HelloBack with a name that is too long. -/
theorem frames_well_formed (hrun : Run Op.exec (State.init cfg) steps s) :
    WellSent cfg.clientName s.out ∧
      ∀ (op : Op) stop s', op.exec.run s = .error stop s' → WellSent cfg.clientName s'.out := by
  have hspeaks := speaks_of_run hrun
  refine ⟨hspeaks.wellSent rfl rfl, fun op stop s' hstop => ?_⟩
  exact Speaks.wellSent (Frame.trans hspeaks (op.speaking.error hstop).1) rfl rfl

/-- The size of the screen is announced in one frame. -/
theorem frames_well_formed_dinf : ∃ s, (Op.updateRes true 800 600).exec.run (.opened .sample) = .ok () s ∧
    WellSent (ascii ['w']) s.out := by
  obtain ⟨s, hop⟩ : ∃ s, (Op.updateRes true 800 600).exec.run (.opened .sample) = .ok () s := ⟨_, rfl⟩
  exact ⟨s, hop, (frames_well_formed ((Run.single (run_connect_init .sample)).snoc hop)).1⟩

end Waynergy
