import Waynergy.Malformed
import Waynergy.Protocol

/-!
# The code serves the protocol

`Tracks d s`: in the state `s` the context holds what the desk `d` says. A message, a change of the outputs and a local
copy lead from a context that tracks a desk to one that tracks the desk after it, and emit what the protocol says.
-/

namespace Waynergy
open Lib
variable {d : Desk} {s s' : State} {msg : SspBuf} {i : Fin 2}

/-! ### Numbers -/

theorem beNat_word (x : UInt16) : beNat (word x) = x.toNat := beNat_be16 x.toNat_lt

theorem signed_int16 (x : Int16) : signed 16 (beNat (int16 x)) = x.toInt := by
  have hx : x.toUInt16.toNat < 2 ^ 16 := x.toUInt16.toNat_lt
  rw [int16, beNat_be16 hx, signed, Nat.mod_eq_of_lt hx]
  show _ = x.toBitVec.toInt
  rw [BitVec.toInt_eq_toNat_cond]
  have : x.toUInt16.toNat = x.toBitVec.toNat := rfl
  split <;> split <;> omega

theorem signed_int8 (x : Int8) : signed 8 (beNat (int8 x)) = x.toInt := by
  have hx : x.toUInt8.toNat < 2 ^ 8 := x.toUInt8.toNat_lt
  have hb : beNat (int8 x) = x.toUInt8.toNat := by rw [int8, beNat_cons]; simp
  rw [hb, signed, Nat.mod_eq_of_lt hx]
  show _ = x.toBitVec.toInt
  rw [BitVec.toInt_eq_toNat_cond]
  have : x.toUInt8.toNat = x.toBitVec.toNat := rfl
  split <;> split <;> omega

/-! ### What the context holds -/

/-- A slot whose stream is open: of `n` bytes `got` have arrived. -/
structure ClipSlot.Receives (n : Nat) (got : Bytes) (c : ClipSlot) : Prop where
  stream : c.inStream = true
  free : c.grabbed = false
  buf : c.buf ≠ none
  expect : c.posExpect = n
  small : n < 2 ^ 31
  pos : c.pos = got.length
  bytes : c.mem.take got.length = got

/-- A slot with a local clipboard. -/
structure ClipSlot.Owes (text : Bytes) (c : ClipSlot) : Prop where
  grabbed : c.grabbed = true
  idle : c.inStream = false
  pos : c.pos = text.length
  small : text.length ≤ intMax
  bytes : c.mem.take text.length = text

structure SlotTracks (incoming : Option (Nat × Bytes)) (owed : Option Bytes) (seen : Bytes) (longest : Nat)
    (c : ClipSlot) : Prop where
  sized : c.Sized
  idle : incoming = none → c.inStream = false
  stream : ∀ n got, incoming = some (n, got) → c.Receives n got
  free : owed = none → c.grabbed = false
  copy : ∀ text, owed = some text → c.Owes text
  seen : incoming = none → seen <+: c.mem
  longest : c.len = longest

theorem SlotTracks.released {incoming : Option (Nat × Bytes)} {owed : Option Bytes} {seen : Bytes} {longest : Nat}
    {c : ClipSlot} (h : SlotTracks incoming owed seen longest c) :
    SlotTracks incoming none seen longest c.released := by
  refine ⟨⟨h.sized.len, h.sized.cap, h.sized.expect, h.sized.pos⟩, h.idle, ?_, fun _ => rfl, ?_, h.seen, h.longest⟩
  · intro n got hin
    exact { h.stream n got hin with free := rfl }
  · intro text howed
    cases howed

structure Tracks (d : Desk) (s : State) : Prop where
  config : s.ctx.toConfig = d.toConfig
  name : d.clientName.length ≤ maxName
  up : s.ctx.connected = true
  socket : s.net.fd ≠ -1
  cur : s.ctx.replyCur = 4
  resChanged : s.ctx.resChanged = false
  info : s.ctx.infoCurrent = d.infoCurrent
  captured : s.ctx.isCaptured = d.captured
  sequence : s.ctx.sequenceNumber = d.sequence
  buttons : s.ctx.joystickButtons = d.buttons
  sticks : s.ctx.joystickSticks = d.sticks
  clip : ∀ i, SlotTracks (d.incoming i) (d.owed i) (d.seen i) (d.longest i) (s.ctx.clip i)

/-- Nothing is said. -/
theorem State.out_append_nil (s : State) : s.out = s.out ++ [] := (List.append_nil _).symm

/-- An input had the outcome `r`: it said what `r` says, and the desk after it is tracked, if there is one. -/
structure Heard (r : Option Desk × List Event) (s s' : State) : Prop where
  out : s'.out = s.out ++ r.2
  desk : ∀ d', r.1 = some d' → Tracks d' s'
  lost : r.1 = none → s'.ctx.connected = false

theorem Heard.of_tracks {evs : List Event} (h : Tracks d s') (ho : s'.out = s.out ++ evs) :
    Heard (some d, evs) s s' := by
  refine ⟨ho, ?_, ?_⟩
  · rintro d' hd
    cases hd
    exact h
  · rintro hd
    cases hd

namespace Tracks
variable (h : Tracks d s)
include h

theorem told (evs : List Event) : Tracks d { s with out := s.out ++ evs } := { h with }

theorem sent (b : Buf replyBufferSize) (vs : List Bytes) : Tracks d (s.sent b vs) := { h with }

theorem callbacks : s.ctx.callbacks = d.callbacks := congrArg Config.callbacks h.config

/-- One slot is replaced. -/
theorem slot {inc : Option (Nat × Bytes)} {owed : Option Bytes} {seen : Bytes} {longest : Nat} {c : ClipSlot}
    (hc : SlotTracks inc owed seen longest c) :
    Tracks { d with
      incoming := Function.update d.incoming i inc
      owed := Function.update d.owed i owed
      seen := Function.update d.seen i seen
      longest := Function.update d.longest i longest } (s.setSlot i c) := by
  refine { h with clip := fun j => ?_ }
  dsimp only
  by_cases hj : j = i
  · subst hj
    simp only [Function.update_self, State.setSlot_self]
    exact hc
  · simp only [Function.update_of_ne hj, State.setSlot_other _ _ _ hj]
    exact h.clip j

theorem slot_started {inc : Option (Nat × Bytes)} {owed : Option Bytes} {c : ClipSlot}
    (hc : SlotTracks inc owed (d.seen i) (d.longest i) c) : Tracks { d with
      incoming := Function.update d.incoming i inc, owed := Function.update d.owed i owed } (s.setSlot i c) := by
  have h' := h.slot (i := i) hc
  rwa [Function.update_eq_self, Function.update_eq_self] at h'

theorem slot_incoming {inc : Option (Nat × Bytes)} {c : ClipSlot}
    (hc : SlotTracks inc (d.owed i) (d.seen i) (d.longest i) c) :
    Tracks { d with incoming := Function.update d.incoming i inc } (s.setSlot i c) := by
  have h' := h.slot_started hc
  rwa [Function.update_eq_self] at h'

theorem slot_seen {seen : Bytes} {c : ClipSlot} (hc : SlotTracks none (d.owed i) seen (d.longest i) c) :
    Tracks { d with incoming := Function.update d.incoming i none, seen := Function.update d.seen i seen }
      (s.setSlot i c) := by
  have h' := h.slot (i := i) hc
  rwa [Function.update_eq_self, Function.update_eq_self] at h'

theorem slot_owed {owed : Option Bytes} {c : ClipSlot}
    (hc : SlotTracks (d.incoming i) owed (d.seen i) (d.longest i) c) :
    Tracks { d with owed := Function.update d.owed i owed } (s.setSlot i c) := by
  have h' := h.slot_started hc
  rwa [Function.update_eq_self] at h'

end Tracks

/-! ### Answers -/

section
variable {t : State} {evs : List Event}

theorem heard_reply {v : Bytes} {m : Syn Bool} (hm : Adds v m) (hfit : v.length ≤ 1020) (sent : Bool) (h : Tracks d t)
    (ho : t.out = s.out ++ evs) : wp (reply sent m)
      (fun ok s' => ok = true ∧ Tracks d s' ∧ s'.out = s.out ++ (evs ++ [sendBody v])) (fun _ _ => False) t := by
  refine wp_mono (reply_sent hm sent h.cur hfit) ?_ fun _ _ => id
  rintro _ _ ⟨rfl, b, rfl⟩
  refine ⟨rfl, h.sent b _, ?_⟩
  show t.out ++ [sendBody v] = _
  rw [ho, List.append_assoc]

theorem heard_cnop (e : MsgEnv) (h : Tracks d t) (ho : t.out = s.out ++ evs) :
    wp (replyCnop e) (fun _ s' => Heard (some d, evs ++ [cnop]) s s') (fun _ _ => False) t := by
  unfold replyCnop
  rw [wp_bind]
  refine wp_mono (heard_reply (.sAddBin _) (by decide) e.sent h ho) ?_ fun _ _ => id
  rintro _ s' ⟨-, h', ho'⟩
  exact .of_tracks h' ho'

end

/-! ### Packets -/

theorem ofId_code (p : Pkt) : Pkt.ofId p.code = some p := by cases p <;> decide

theorem length_code (p : Pkt) : p.code.length = 4 := by cases p <;> rfl

theorem pktOf_code (p : Pkt) (bs : Bytes) : pktOf (p.code ++ bs) = some p := by
  rw [pktOf, List.take_left' (length_code p), ofId_code]

theorem slice_code (p : Pkt) (bs : Bytes) (n : Nat) : slice (p.code ++ bs) 4 n = bs.take n := by
  rw [slice, List.drop_left' (length_code p)]

section
variable {α : Type} {n : Nat} {r : Parse α} {f : Bytes → α} {p : Pkt} {v : Bytes}

/-- A packet that is read with `r`, and what is made of it. -/
theorem wp_parse_code (hr : Takes n r f) (hn : n < 2 ^ 32) (hmsg : Carries msg (p.code ++ v)) (hlen : n ≤ v.length)
    {k : α → SspBuf → Syn Unit} {Q : Unit → State → Prop} {E : Stop → State → Prop}
    (h : wp (k (f (v.take n)) (msg.at (4 + n))) Q E s) : wp (parse .message r (msg.at 4) () k) Q E s := by
  have hbody : (p.code ++ v).length = 4 + v.length := by rw [List.length_append, length_code]
  rw [hr.parse hmsg (by omega) (by omega), if_pos (by omega), slice_code]
  exact h

/-- What is passed on to a callback is said before the answer. -/
theorem heard_notify (hr : Takes n r f) (hn : n < 2 ^ 32) (hmsg : Carries msg (p.code ++ v)) (hlen : n ≤ v.length)
    (h : Tracks d s) (e : MsgEnv) (callback : Context → α → List Event) : wp (notify e r callback (msg.at 4))
      (fun _ s' => Heard (some d, callback s.ctx (f (v.take n)) ++ [cnop]) s s') (fun _ _ => False) s := by
  refine wp_parse_code hr hn hmsg hlen ?_
  rw [wp_bind, wp_get, wp_bind, wp_emits]
  exact heard_cnop e (h.told _) rfl

/-- A packet is read with `r`, and the handler goes on with what is made of it. -/
theorem wp_packet (hmsg : Carries msg (p.code ++ v)) (e : MsgEnv) {Q : Unit → State → Prop} {E : Stop → State → Prop}
    (h : wp (processPkt e (msg.at 4) p) Q E s) : wp (sProcessMessage e msg) Q E s := by
  rw [hmsg.processPkt (pktOf_code p v)]
  exact h

end

/-! ### Each message -/

/-- The sends succeed, and the allocations of a clipboard. -/
structure MsgEnv.Serves (e : MsgEnv) : Prop where
  sent : e.sent = true
  grants : ∀ n < 2 ^ 31, e.Grants n

/-- The message `m` is served where the desk admits it. -/
def Serves (m : ServerMsg) : Prop := ∀ {d : Desk} {s : State} {msg : SspBuf} {e : MsgEnv}, Tracks d s →
  Carries msg m.encode → m.encode.length < 2 ^ 32 → d.Admits (.server m) → e.Serves →
    wp (sProcessMessage e msg) (fun _ s' => Heard (d.hear m) s s') (fun _ _ => False) s

namespace Serves

theorem queryInfo : Serves .queryInfo := by
  rintro d s msg e h hmsg - - -
  refine wp_packet (p := .qinf) (v := []) hmsg e ?_
  have hw : s.ctx.clientWidth = d.clientWidth := congrArg Config.clientWidth h.config
  have hh : s.ctx.clientHeight = d.clientHeight := congrArg Config.clientHeight h.config
  show wp (processQinf e) _ _ s
  unfold processQinf
  rw [wp_bind, wp_get, wp_bind, hw, hh]
  refine wp_mono (heard_reply (adds_addDinf _ _) (Nat.le_of_ble_eq_true rfl) e.sent h s.out_append_nil) ?_
    fun _ _ => id
  rintro _ s' ⟨rfl, h', ho⟩
  rw [if_pos rfl, wp_setCtx]
  exact .of_tracks { h' with info := rfl } ho

theorem infoAck : Serves .infoAck := by
  rintro d s msg e h hmsg - - -
  refine wp_packet (p := .ciak) (v := []) hmsg e ?_
  exact .of_tracks { h with info := rfl } (List.append_nil _).symm

theorem resetOptions : Serves .resetOptions := by
  rintro d s msg e h hmsg - - -
  refine wp_packet (p := .crop) (v := []) hmsg e ?_
  exact .of_tracks h (List.append_nil _).symm

theorem enter (x y : Int16) (seq : UInt32) (mask : UInt16) : Serves (.enter x y seq mask) := by
  rintro d s msg e h hmsg - - -
  refine wp_packet (p := .cinn) hmsg e ?_
  have hr := (Takes.sspSeek 2).bind fun _ => (Takes.sspSeek 2).bind fun _ => Takes.sspNetInt 4
  have hseq : beNat (be32 seq.toNat) = seq.toNat := beNat_be32 seq.toNat_lt
  refine wp_parse_code hr (by decide) hmsg (Nat.le_of_ble_eq_true rfl) ?_
  rw [wp_bind, wp_setCtx, wp_bind, wp_get, wp_bind, wp_emits]
  have h' : Tracks { d with sequence := seq.toNat, captured := true }
      { s with ctx := { s.ctx with sequenceNumber := beNat (be32 seq.toNat), isCaptured := true } } :=
    { h with captured := rfl, sequence := hseq }
  rw [Desk.hear, ← h.callbacks]
  exact heard_cnop (s := s) e (h'.told _) rfl

theorem screensaver (on : Int8) : Serves (.screensaver on) := by
  rintro d s msg e h hmsg - - -
  refine wp_packet (p := .csec) hmsg e ?_
  have hon := signed_int8 on
  have := heard_notify Takes.sspChar (by decide) hmsg (Nat.le_refl 1) h e
    fun c active => sSendScreensaverCallback c (active ≠ 0)
  rw [Desk.hear, ← h.callbacks, ← hon]
  exact this

theorem mouseDown (button : Int8) : Serves (.mouseDown button) := by
  rintro d s msg e h hmsg - - -
  refine wp_packet (p := .dmdn) hmsg e ?_
  rw [Desk.hear, ← h.callbacks, ← signed_int8 button]
  exact heard_notify Takes.sspChar (by decide) hmsg (Nat.le_refl 1) h e sSendMouseButtonDownCallback

theorem mouseUp (button : Int8) : Serves (.mouseUp button) := by
  rintro d s msg e h hmsg - - -
  refine wp_packet (p := .dmup) hmsg e ?_
  rw [Desk.hear, ← h.callbacks, ← signed_int8 button]
  exact heard_notify Takes.sspChar (by decide) hmsg (Nat.le_refl 1) h e sSendMouseButtonUpCallback

/-- Two coordinates are read as they were written. -/
theorem takes_coordinates_int16 (x y : Int16) : ∃ f, Takes 4 coordinates f ∧
    f ((int16 x ++ int16 y).take 4) = (x.toInt, y.toInt) := by
  refine ⟨_, Takes.sspNet16.bind fun _ => Takes.sspNet16.map _, ?_⟩
  rw [← signed_int16 x, ← signed_int16 y]
  rfl

theorem mouseMove (x y : Int16) : Serves (.mouseMove x y) := by
  rintro d s msg e h hmsg - - -
  refine wp_packet (p := .dmmv) hmsg e ?_
  obtain ⟨f, hr, hf⟩ := takes_coordinates_int16 x y
  have hwp := heard_notify hr (by decide) hmsg (Nat.le_refl 4) h e fun c p => sSendMouseMoveCallback c false p.1 p.2
  rw [hf] at hwp
  rw [Desk.hear, ← h.callbacks]
  exact hwp

theorem mouseRelMove (x y : Int16) : Serves (.mouseRelMove x y) := by
  rintro d s msg e h hmsg - - -
  refine wp_packet (p := .dmrm) hmsg e ?_
  obtain ⟨f, hr, hf⟩ := takes_coordinates_int16 x y
  have hwp := heard_notify hr (by decide) hmsg (Nat.le_refl 4) h e fun c p => sSendMouseMoveCallback c true p.1 p.2
  rw [hf] at hwp
  rw [Desk.hear, ← h.callbacks]
  exact hwp

theorem mouseWheel (x y : Int16) : Serves (.mouseWheel x y) := by
  rintro d s msg e h hmsg - - -
  refine wp_packet (p := .dmwm) hmsg e ?_
  obtain ⟨f, hr, hf⟩ := takes_coordinates_int16 x y
  have hwp := heard_notify hr (by decide) hmsg (Nat.le_refl 4) h e fun c p => sSendMouseWheelCallback c p.1 p.2
  have hwheel : sSendMouseWheelCallback s.ctx x.toInt y.toInt =
      tell (d.callbacks.mouseWheel && d.infoCurrent) (.mouseWheel x.toInt y.toInt) := by
    rw [sSendMouseWheelCallback, h.callbacks, h.resChanged, h.info]
    cases d.callbacks.mouseWheel <;> cases d.infoCurrent <;> rfl
  rw [hf, hwheel] at hwp
  exact hwp

/-! ### Keys -/

theorem tellKey_eq {s : State} {d : Desk} (h : Tracks d s) (down rpt : Bool) (id modifiers key : UInt16) :
    keyCallback down rpt s.ctx ⟨beNat (word id), beNat (word modifiers), beNat (word key)⟩ =
      d.tellKey down rpt id modifiers key := by
  have hraw : s.ctx.useRawKeyCodes = d.useRawKeyCodes := congrArg Config.useRawKeyCodes h.config
  rw [keyCallback, sSendKeyboardCallback, beNat_word, beNat_word, beNat_word, h.callbacks, hraw]
  rfl

theorem takes_keys : Takes 6 keyData fun bs =>
    ⟨beNat (bs.take 2), beNat ((bs.drop 2).take 2), beNat ((bs.drop 2).drop 2)⟩ :=
  (Takes.sspNetInt 2).bind fun _ => (Takes.sspNetInt 2).bind fun _ => (Takes.sspNetInt 2).map _

theorem keyDown (id modifiers key : UInt16) : Serves (.keyDown id modifiers key) := by
  rintro d s msg e h hmsg - - -
  refine wp_packet (p := .dkdn) hmsg e ?_
  rw [Desk.hear, ← tellKey_eq h]
  exact heard_notify takes_keys (by decide) hmsg (Nat.le_refl 6) h e (keyCallback true false)

theorem keyUp (id modifiers key : UInt16) : Serves (.keyUp id modifiers key) := by
  rintro d s msg e h hmsg - - -
  refine wp_packet (p := .dkup) hmsg e ?_
  rw [Desk.hear, ← tellKey_eq h]
  exact heard_notify takes_keys (by decide) hmsg (Nat.le_refl 6) h e (keyCallback false false)

theorem keyRepeat (id modifiers count key : UInt16) : Serves (.keyRepeat id modifiers count key) := by
  rintro d s msg e h hmsg - - -
  refine wp_packet (p := .dkrp) hmsg e ?_
  have hr := (Takes.sspNetInt 2).bind fun id => (Takes.sspNetInt 2).bind fun modifiers =>
    (Takes.sspNetInt 2).bind fun _ => (Takes.sspNetInt 2).map fun key => (⟨id, modifiers, key⟩ : KeyData)
  rw [Desk.hear, ← tellKey_eq h]
  exact heard_notify (r := repeatData) hr (by decide) hmsg (Nat.le_refl 8) h e (keyCallback true true)

/-! ### Joysticks -/

/-- The data of a joystick is stored with `store`, which the desk follows with `d'`, and told. -/
theorem heard_joystick {d : Desk} {s : State} (e : MsgEnv) (joyNum : UInt8) (d' : Fin numJoysticks → Desk)
    (store : Fin numJoysticks → Context → Context) (h : Tracks d s)
    (hstore : ∀ i, Tracks (d' i) { s with ctx := store i s.ctx }) :
    wp (updateJoystick e joyNum.toNat store) (fun _ s' => Heard
      (if hj : joyNum.toNat < numJoysticks then
        (some (d' ⟨joyNum.toNat, hj⟩), (d' ⟨joyNum.toNat, hj⟩).tellJoystick ⟨joyNum.toNat, hj⟩ ++ [cnop])
      else (some d, [cnop])) s s') (fun _ _ => False) s := by
  unfold updateJoystick storeJoystick joyIndex
  rw [wp_bind, wp_ite]
  by_cases hj : joyNum.toNat < numJoysticks
  · have h' := hstore ⟨joyNum.toNat, hj⟩
    have htold : sSendJoystickCallback (store ⟨joyNum.toNat, hj⟩ s.ctx) ⟨joyNum.toNat, hj⟩ =
        (d' ⟨joyNum.toNat, hj⟩).tellJoystick ⟨joyNum.toNat, hj⟩ := by
      rw [sSendJoystickCallback, h'.callbacks, h'.buttons, h'.sticks]
      rfl
    simp only [if_pos hj, dif_pos hj, wp_bind, wp_pure, wp_setCtx, wp_get, wp_emits, htold]
    exact heard_cnop (s := s) e (h'.told _) rfl
  · rw [if_neg hj, dif_neg hj, wp_pure]
    exact heard_cnop e h s.out_append_nil

theorem joystickButtons (joyNum : UInt8) (state : UInt16) : Serves (.joystickButtons joyNum state) := by
  rintro d s msg e h hmsg - - -
  refine wp_packet (p := .dgbt) hmsg e ?_
  have hr := (Takes.sspNetInt 1).bind fun j => (Takes.sspNetInt 2).map fun state => ((j, state) : Nat × Nat)
  refine wp_parse_code hr (by decide) hmsg (Nat.le_refl 3) ?_
  have hj : beNat [joyNum] = joyNum.toNat := by rw [beNat_cons]; simp
  have hstate := beNat_word state
  have hwp := heard_joystick e joyNum
    (fun i => { d with buttons := Function.update d.buttons i (beNat (word state)) })
    (fun i c => { c with joystickButtons := Function.update c.joystickButtons i (beNat (word state)) }) h
    fun i => { h with buttons := by rw [h.buttons] }
  rw [← hj] at hwp
  rw [Desk.hear, ← hstate, ← hj]
  exact hwp

theorem joystickSticks (joyNum : UInt8) (a b c d : Int8) : Serves (.joystickSticks joyNum a b c d) := by
  rintro desk s msg e h hmsg - - -
  refine wp_packet (p := .dgst) hmsg e ?_
  have hr := (Takes.sspNetInt 1).bind fun j => (Takes.sspTake 4).map fun state => ((j, state) : Nat × Bytes)
  refine wp_parse_code hr (by decide) hmsg (Nat.le_refl 5) ?_
  have hj : beNat [joyNum] = joyNum.toNat := by rw [beNat_cons]; simp
  have haxis : ∀ x : Int8, signed 8 x.toUInt8.toNat = x.toInt := fun x => by
    rw [← signed_int8 x, int8, beNat_cons]
    simp
  have haxes : [a.toUInt8, b.toUInt8, c.toUInt8, d.toUInt8].map (fun b => signed 8 b.toNat) =
      [a.toInt, b.toInt, c.toInt, d.toInt] := by
    simp only [List.map_cons, List.map_nil, haxis]
  have hwp := heard_joystick e joyNum
    (fun i => { desk with sticks := Function.update desk.sticks i [a.toInt, b.toInt, c.toInt, d.toInt] })
    (fun i ctx => { ctx with
      joystickSticks := Function.update ctx.joystickSticks i
        ([a.toUInt8, b.toUInt8, c.toUInt8, d.toUInt8].map fun b => signed 8 b.toNat) }) h
    fun i => { h with sticks := by rw [h.sticks, haxes] }
  rw [← hj] at hwp
  rw [Desk.hear, ← hj]
  exact hwp

/-! ### The connection -/

theorem setOptions (options : Bytes) : Serves (.setOptions options) := by
  rintro d s msg e h hmsg - - -
  refine wp_packet (p := .dsop) hmsg e ?_
  exact heard_cnop e h s.out_append_nil

theorem keepAlive : Serves .keepAlive := by
  rintro d s msg e h hmsg - - -
  refine wp_packet (p := .calv) (v := []) hmsg e ?_
  show wp (processCalv e) _ _ s
  unfold processCalv
  rw [wp_bind]
  refine wp_mono (heard_reply (.sAddBin _) (by decide) e.sent h s.out_append_nil) ?_ fun _ _ => id
  rintro _ s₁ ⟨rfl, h₁, ho₁⟩
  rw [if_pos rfl]
  exact heard_cnop e h₁ ho₁

/-- A message that ends the connection. -/
theorem heard_disconnect {s : State} (err : SynError) :
    wp (sSetDisconnected err) (fun _ s' => Heard (none, []) s s') (fun _ _ => False) s := by
  rw [wp_sSetDisconnected]
  refine ⟨(List.append_nil _).symm, ?_, fun _ => rfl⟩
  rintro d' hd
  cases hd

theorem close : Serves .close := by
  rintro d s msg e h hmsg - - -
  exact wp_packet (p := .cbye) (v := []) hmsg e (heard_disconnect .none)

theorem incompatible : Serves .incompatible := by
  rintro d s msg e h hmsg - - -
  exact wp_packet (p := .ebad) (v := []) hmsg e (heard_disconnect .ebad)

theorem busy : Serves .busy := by
  rintro d s msg e h hmsg - - -
  exact wp_packet (p := .ebsy) (v := []) hmsg e (heard_disconnect .ebsy)

theorem welcomeOf_hello (imp : Implementation) (bs : Bytes) : welcomeOf (imp.name ++ bs) = some imp.name := by
  cases imp <;> rfl

theorem hello (imp : Implementation) (major minor : UInt16) : Serves (.hello imp major minor) := by
  rintro d s msg e h hmsg - - he
  have hlen : imp.name.length = 7 := by cases imp <;> rfl
  have hbody : (ServerMsg.hello imp major minor).encode.length = 11 := by
    rw [ServerMsg.encode, List.length_append, hlen]
    rfl
  have hname : s.ctx.clientName = d.clientName := congrArg Config.clientName h.config
  have hr : Takes 4 (do let _ ← sspNetU16; sspNetU16 : Parse Nat) fun bs => beNat (bs.drop 2) :=
    (Takes.sspNetInt 2).bind fun _ => Takes.sspNetInt 2
  have hadds := (Adds.sAddBin imp.name).and ((Adds.sAddBin (be16 protocolMajor)).and ((Adds.sAddBin
    (be16 protocolMinor)).and ((Adds.sAddBin (be32 d.clientName.length)).and (Adds.sAddBin d.clientName))))
  have hfit : 4 + ([] ++ helloBody imp.name d.clientName).length ≤ replyBufferSize := by
    have hn := h.name
    have hmax : maxName = 1005 := rfl
    have hsize : replyBufferSize = 1024 := rfl
    simp only [List.nil_append, helloBody, List.length_append, hlen, length_be16, length_be32]
    omega
  rw [hmsg.sProcessMessage, ServerMsg.encode, welcomeOf_hello]
  show wp (parse .message _ (msg.at imp.name.length) () _) _ _ s
  rw [hr.parse hmsg (by omega) (by omega), if_pos (by omega), wp_bind, wp_setCtx, wp_bind, wp_get, wp_bind]
  dsimp only
  rw [hname]
  obtain ⟨b, n, hrun, hv⟩ := hadds [] { s with ctx := { s.ctx with replyCur := 4 } } (.base rfl) hfit
  obtain ⟨b', hsend⟩ := hv.sSendReply_run e.sent
  refine wp_of_ok hrun ?_
  rw [if_pos rfl, wp_bind]
  refine wp_of_ok hsend ?_
  rw [he.sent, if_pos rfl, wp_setCtx]
  exact .of_tracks { h with cur := rfl } rfl

/-! ### The clipboards -/

theorem grabClipboard (i : Fin 2) (seq : UInt32) : Serves (.grabClipboard i seq) := by
  rintro d s msg e h hmsg - - -
  refine wp_packet (p := .cclp) hmsg e ?_
  have hr := (Takes.sspNetInt 1).bind fun id => (Takes.sspNetInt 4).map fun _ => id
  refine wp_parse_code hr (by decide) hmsg (Nat.le_refl 5) ?_
  have hid : beNat [UInt8.ofNat i] = i := by
    have := i.isLt
    rw [beNat_cons, beNat_nil, UInt8.toNat_ofNat']
    simp
    omega
  show wp (clipIndex (beNat [UInt8.ofNat i]) >>= _) _ _ s
  rw [hid, wp_bind, wp_clipIndex, dif_pos i.isLt, wp_bind, wp_setClip]
  exact heard_cnop e (h.slot_owed (h.clip i).released) s.out_append_nil

end Serves
end Waynergy
