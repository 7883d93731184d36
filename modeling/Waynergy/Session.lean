import Waynergy.ClipHandlers
import Waynergy.Rules

/-!
# What an operation does to the connection

`Session` is the part of the context that belongs to one connection. `Life` says what can become of the
connection, of this part, and of the received bytes: the connection stands, the screen is left, the connection
ends, there is none, or there is one again. `life_spec` shows it for every operation.
-/

namespace Waynergy
open Lib
variable {s s' s'' : State}

/-! ### The per-connection state -/

structure Session where
  receiveOfs : Nat
  hasReceivedHello : Bool
  isCaptured : Bool
  sequenceNumber : Nat
  replyCur : Nat
  infoCurrent : Bool
  inStream : Fin 2 → Bool

def Context.session (c : Context) : Session :=
  ⟨c.receiveOfs, c.hasReceivedHello, c.isCaptured, c.sequenceNumber, c.replyCur, c.infoCurrent,
    fun i => (c.clip i).inStream⟩

namespace Session

def initial : Session := ⟨0, false, false, 0, 4, false, fun _ => false⟩

/-- What `sSetDisconnected` leaves. -/
def reset (x : Session) : Session := { initial with infoCurrent := x.infoCurrent, inStream := x.inStream }

theorem reset_eq_initial {x : Session} : x.reset = initial ↔ x.infoCurrent = false ∧ ∀ i, x.inStream i = false := by
  unfold reset initial
  simp only [mk.injEq, true_and, funext_iff]

end Session

/-! ### Ends of a connection -/

/-- The packet that a message is. -/
def msgPkt (msg : SspBuf) : Option Pkt :=
  match sIsWelcome msg with
  | .ok none => match (sspMemMove 4).run msg with
    | .ok pktId _ => Pkt.ofId pktId
    | .error .. => none
  | _ => none

/-- The message is taken as a hello. -/
def isHello (msg : SspBuf) : Bool :=
  match sIsWelcome msg with
  | .ok (some _) => true
  | _ => false

/-- What a message that ends the connection leaves: a hello that cannot be answered only has built a reply,
and a farewell is a reset. -/
def msgEnding (msg : SspBuf) (x : Session) : Session := if isHello msg then { x with replyCur := 4 } else x.reset

/-- Rule for a message, but for its stops: it is a hello, a packet, something unknown, or too short for an id. -/
theorem wp_sProcessMessage {e : MsgEnv} {msg : SspBuf} {Q : Unit → State → Prop}
    (hello : ∀ imp rest, sIsWelcome msg = .ok (some (imp, rest)) →
      wp (processHello e imp rest) Q (fun _ _ => True) s)
    (pkt : ∀ p rest, isHello msg = false → msgPkt msg = some p → wp (processPkt e rest p) Q (fun _ _ => True) s)
    (unknown : isHello msg = false → msgPkt msg = none → Q () s)
    (short : isHello msg = false → msgPkt msg = none → Q () { s with out := s.out ++ [.parseError] }) :
    wp (sProcessMessage e msg) Q (fun _ _ => True) s := by
  unfold isHello msgPkt at pkt unknown short
  unfold sProcessMessage
  cases hw : sIsWelcome msg with
  | error f => trivial
  | ok found =>
    rw [hw] at pkt unknown short
    cases found with
    | some found => exact hello found.1 found.2 hw
    | none =>
      simp only [parse]
      cases hid : (sspMemMove 4).run msg with
      | ok pktId rest =>
        simp only [hid] at pkt unknown
        dsimp only
        cases hp : Pkt.ofId pktId with
        | some p => exact pkt p rest trivial hp
        | none => exact unknown trivial hp
      | error fail rest =>
        simp only [hid] at short
        cases fail with
        | short => exact short trivial trivial
        | outside => trivial

namespace Op

def pkt : Op → Option Pkt
  | .message _ mem len => msgPkt ⟨mem, 0, len⟩
  | _ => none

/-- What an operation that ends the connection leaves of the session. -/
def ending : Op → Session → Session
  | .message _ mem len, x => msgEnding ⟨mem, 0, len⟩ x
  | .netDisconnect, x => x
  | _, x => x.reset

end Op

variable {pkt : Option Pkt} {last : Session}

/-- The events that reach the keys. -/
def Event.IsKey : Event → Prop
  | .keyboard .. | .screenActive _ => True
  | _ => False

/-- The received bytes are as before, and nothing reaches the keys. -/
structure Passive (s s' : State) : Prop where
  buffer : s'.ctx.receiveBuffer = s.ctx.receiveBuffer
  out : Grows (fun ev => ¬ ev.IsKey) s s'

instance : Frame Passive where
  refl s := ⟨rfl, Frame.refl s⟩
  trans h h' := ⟨h'.buffer.trans h.buffer, Frame.trans h.out h'.out⟩

/-- Also the session is as before. -/
structure Quiet (s s' : State) : Prop extends Passive s s' where
  session : s'.ctx.session = s.ctx.session

instance : Frame Quiet where
  refl s := ⟨Frame.refl s, rfl⟩
  trans h h' := ⟨Frame.trans h.toPassive h'.toPassive, h'.session.trans h.session⟩

/-- What becomes of the connection. A message is the packet `pkt`, and an end leaves the session `last`. -/
inductive Life (pkt : Option Pkt) (last : Session) (s s' : State) : Prop
  | stands (up : s.ctx.connected = true) (up' : s'.ctx.connected = true)
      (captured : s.ctx.isCaptured = true → s'.ctx.isCaptured = true)
  | leaves (hpkt : pkt = some .cout) (up : s.ctx.connected = true) (up' : s'.ctx.connected = true)
      (out : ∃ pre post, s'.out = s.out ++ (pre ++ screenActiveCallback s.ctx false ++ post) ∧
        ∀ ev ∈ pre ++ post, ¬ ev.IsKey)
  | ends (hpkt : pkt ≠ some .cout) (up : s.ctx.connected = true) (down : s'.ctx.connected = false)
      (session : s'.ctx.session = last) (rest : Passive s s')
  | rests (down : s.ctx.connected = false) (down' : s'.ctx.connected = false)
      (session : s.ctx.session = .initial → s'.ctx.session = .initial) (rest : Passive s s')
  | connects (down : s.ctx.connected = false) (up : s'.ctx.connected = true) (quiet : Quiet s s')

namespace Life

theorem refl (s : State) : Life pkt last s s := by
  cases h : s.ctx.connected
  · exact .rests h h id (Frame.refl s)
  · exact .stands h h id

theorem of_same (up : s.ctx.connected = true) (hc : s'.ctx.connected = s.ctx.connected)
    (hi : s'.ctx.isCaptured = s.ctx.isCaptured) : Life pkt last s s' :=
  .stands up (hc.trans up) fun h => hi.trans h

theorem around {ev ev' : Event} (h : Life pkt last { s with out := s.out ++ [ev] } s') (hev : ¬ ev.IsKey)
    (hev' : ¬ ev'.IsKey) : Life pkt last s { s' with out := s'.out ++ [ev'] } := by
  have before : Passive s { s with out := s.out ++ [ev] } := ⟨rfl, .emits (by simpa using hev)⟩
  have after : Passive s' { s' with out := s'.out ++ [ev'] } := ⟨rfl, .emits (by simpa using hev')⟩
  cases h with
  | stands up up' captured => exact .stands up up' captured
  | leaves hpkt up up' out =>
    obtain ⟨pre, post, ho, hkey⟩ := out
    refine .leaves hpkt up up' ⟨ev :: pre, post ++ [ev'], ?_, ?_⟩
    · show s'.out ++ _ = _
      rw [ho]
      simp only [List.append_assoc, List.cons_append, List.nil_append]
    · simp only [List.cons_append, List.mem_cons, List.mem_append, List.not_mem_nil, or_false] at hkey ⊢
      rintro x (rfl | hx | hx | rfl)
      exacts [hev, hkey x (.inl hx), hkey x (.inr hx), hev']
  | ends hpkt up down session rest =>
    exact .ends hpkt up down session (Frame.trans before (Frame.trans rest after))
  | rests down down' session rest =>
    exact .rests down down' session (Frame.trans before (Frame.trans rest after))
  | connects down up quiet =>
    exact .connects down up ⟨Frame.trans before (Frame.trans quiet.toPassive after), quiet.session⟩

end Life

/-! ### Messages -/

theorem Plain.life (up : s.ctx.connected = true) (h : Plain s s') : Life pkt last s s' :=
  .stands up (h.ctx.connected.trans up) h.ctx.captured

theorem ClipOnly.life (up : s.ctx.connected = true) (h : ClipOnly s s') : Life pkt last s s' := by
  obtain ⟨⟨b, n, clip, hc⟩, -, -⟩ := h
  exact .of_same up (by rw [hc]) (by rw [hc])

theorem Lost.life (up : s.ctx.connected = true) (h : Lost s s') :
    Life none { s.ctx.session with replyCur := 4 } s s' := by
  obtain ⟨⟨b, hc⟩, -, hout⟩ := h
  refine .ends (by simp) up (by rw [hc]) (by rw [hc]; rfl) ⟨by rw [hc], hout.mono fun ev hev => ?_⟩
  cases ev <;> simp_all [Event.IsHello, Event.IsKey]

theorem Left.life (up : s.ctx.connected = true) (h : Left s s') : Life (some .cout) last s s' := by
  obtain ⟨⟨b, n, hc⟩, -, pre, post, ho, he, -⟩ := h
  refine .leaves rfl up (by rw [hc]; exact up) ⟨pre, post, ho, fun ev hev => ?_⟩
  have := he ev hev
  cases ev <;> simp_all [Event.IsReply, Event.IsKey]

theorem life_disconnect (hpkt : pkt ≠ some .cout) (up : s.ctx.connected = true) (err : SynError) :
    Life pkt s.ctx.session.reset s { s with ctx := s.ctx.disconnect err } :=
  .ends hpkt up rfl rfl ⟨rfl, .ctx fun _ => rfl⟩

theorem processPkt_life (e : MsgEnv) (msg : SspBuf) (p : Pkt) (up : s.ctx.connected = true) :
    wp (processPkt e msg p) (fun _ s' => Life (some p) s.ctx.session.reset s s') (fun _ _ => True) s := by
  have stop : ∀ {P : Stop → State → Prop} (stop : Stop) (s' : State), P stop s' → True := fun _ _ _ => trivial
  by_cases hp : p.Special
  · cases p with
    | cout => exact wp_mono (processCout_spec e s) (fun _ _ h => h.life up) stop
    | cclp =>
      have hclip := ClipOnly.processCclp (S := MessageStop) e msg trivial trivial
      exact wp_mono (hclip s) (fun _ _ h => h.life up) stop
    | dclp => exact wp_mono (ClipOnly.processDclp e msg s) (fun _ _ h => h.life up) stop
    | cbye | ebad | ebsy => exact life_disconnect (by simp) up _
    | _ => exact absurd hp (by decide)
  · exact wp_mono (IsPlain.processPkt e msg hp s) (fun _ _ h => h.life up) stop

theorem sProcessMessage_life (e : MsgEnv) (msg : SspBuf) (up : s.ctx.connected = true) :
    wp (sProcessMessage e msg) (fun _ s' => Life (msgPkt msg) (msgEnding msg s.ctx.session) s s')
      (fun _ _ => True) s := by
  refine wp_sProcessMessage (fun imp rest hw => ?_) (fun p rest hello hpkt => ?_) (fun _ _ => .refl s)
    fun _ _ => .of_same up rfl rfl
  · unfold msgPkt msgEnding isHello
    rw [hw]
    refine wp_mono (processHello_spec e imp rest s) (fun _ s' h => ?_) fun _ _ _ => trivial
    exact h.elim (Plain.life up) fun h => h.2.life up
  · unfold msgEnding
    rw [hpkt, hello]
    exact processPkt_life e rest p up

theorem handMessage_life (e : MsgEnv) (msg : SspBuf) (up : s.ctx.connected = true) :
    wp (handMessage e msg) (fun _ s' => Life (msgPkt msg) (msgEnding msg s.ctx.session) s s')
      (fun _ _ => True) s := by
  unfold handMessage
  simp only [wp_bind, wp_get, wp_emits]
  exact wp_mono (sProcessMessage_life e msg up) (fun _ s' h => h.around id id) fun _ _ => id

/-! ### Receiving -/

theorem wp_synRecv {Q : Option Bytes → State → Prop} {E : Stop → State → Prop} (avail : Bytes) (n : Int) :
    wp (synRecv avail n) Q E s ↔
      if avail.take n.toNat = [] then Q none { s with ctx := { s.ctx with lastError := .timeout } }
      else Q (some (avail.take n.toNat)) s := by
  unfold synRecv
  split <;> rfl

/-- The state after a read that failed. -/
def State.timedOut (s : State) : State :=
  { s with ctx := s.ctx.disconnect .timeout, out := s.out ++ [.sleep 1000] }

theorem wp_receive {Q : Bool → State → Prop} {E : Stop → State → Prop} (avail : Bytes) (now : Nat) :
    wp (receive avail now) Q E s ↔
      if avail.take (receiveBufferSize - s.ctx.receiveOfs : Int).toNat = [] then Q false s.timedOut
      else wp (received (avail.take (receiveBufferSize - s.ctx.receiveOfs : Int).toNat) now) (fun _ => Q true) E s := by
  unfold receive
  rw [wp_bind, wp_get, wp_bind, wp_synRecv]
  split
  · rfl
  · show wp (received _ now >>= fun _ => pure true) _ _ _ ↔ _
    rw [wp_bind]
    rfl

theorem received_some {bs : Bytes} (hbs : bs ≠ []) (now : Nat) : wp (received bs now)
    (fun _ s' => ∃ b t, s' = { s with ctx := { s.ctx with
      receiveBuffer := b, receiveOfs := s.ctx.receiveOfs + bs.length, lastMessageTime := t } })
    (fun _ _ => True) s := by
  unfold received
  simp only [wp_bind, wp_get, if_neg hbs]
  split
  · simp only [wp_bind, wp_setCtx, wp_pure, wp_ite]
    split <;> exact ⟨_, _, rfl⟩
  · trivial

/-- The number of bytes that a read of the discard loop asks for. -/
def ditchRequest (packlen : Nat) (numReceived : Int) : Int :=
  if signed 32 ((packlen - numReceived) % 2 ^ 32).toNat < receiveBufferSize then
    signed 32 ((packlen - numReceived) % 2 ^ 32).toNat
  else receiveBufferSize

theorem wp_ditchRead {Q : Option Nat → State → Prop} {E : Stop → State → Prop} (packlen : Nat) (n : Int)
    (avail : Bytes) : wp (ditchRead packlen n avail) Q E s ↔
      if avail.take (ditchRequest packlen n).toNat = [] then Q none s.timedOut
      else if h : 0 + (avail.take (ditchRequest packlen n).toNat).length ≤ receiveBufferSize then
        Q (some (avail.take (ditchRequest packlen n).toNat).length) { s with ctx := { s.ctx with
          receiveBuffer := s.ctx.receiveBuffer.write 0 (avail.take (ditchRequest packlen n).toNat) h } }
      else E (.fault .receiveBuffer) s := by
  unfold ditchRead
  show wp (synRecv avail (ditchRequest packlen n) >>= _) _ _ _ ↔ _
  rw [wp_bind, wp_synRecv]
  split
  · rfl
  · dsimp only
    rw [wp_bind, wp_get]
    split <;> rfl

theorem life_timedOut (up : s.ctx.connected = true) : Life none s.ctx.session.reset s s.timedOut :=
  .ends (by simp) up rfl rfl ⟨rfl, _, rfl, by simp [Event.IsKey], fun _ _ => rfl⟩

theorem receive_life (avail : Bytes) (now : Nat) (up : s.ctx.connected = true) :
    wp (receive avail now) (fun _ s' => Life none s.ctx.session.reset s s') (fun _ _ => True) s := by
  rw [wp_receive]
  split
  · exact life_timedOut up
  · rename_i hbs
    refine wp_mono (received_some hbs now) ?_ fun _ _ => id
    rintro _ _ ⟨b, t, rfl⟩
    exact .of_same up rfl rfl

theorem ditchRead_life (packlen : Nat) (n : Int) (avail : Bytes) (up : s.ctx.connected = true) :
    wp (ditchRead packlen n avail) (fun _ s' => Life none s.ctx.session.reset s s') (fun _ _ => True) s := by
  rw [wp_ditchRead]
  split
  · exact life_timedOut up
  · split
    · exact .of_same up rfl rfl
    · trivial

theorem consume_life (packlen : Nat) (up : s.ctx.connected = true) :
    wp (consume packlen) (fun _ s' => Life pkt last s s') (fun _ _ => True) s := by
  unfold consume
  simp only [wp_bind, wp_get, wp_ite, wp_throw, wp_emits, wp_setCtx]
  split
  · trivial
  · exact .of_same up rfl rfl

/-! ### Connecting and disconnecting -/

namespace Quiet

theorem byNet : KeptByNet Quiet where
  closed _ := ⟨⟨rfl, [], by simp, by simp, fun h _ => h⟩, rfl⟩
  opened _ _ := ⟨⟨rfl, [], by simp, by simp, fun h _ => h⟩, rfl⟩
  timed _ _ := ⟨⟨rfl, .ctx id⟩, rfl⟩
  tried _ := ⟨⟨rfl, .emits (by simp [Event.IsKey])⟩, rfl⟩

theorem tryConnect (e : ConnectEnv) : Within Quiet (fun _ => True) (tryConnect e) :=
  byNet.tryConnect trivial (fun _ => ⟨⟨rfl, .ctx id⟩, rfl⟩)
    (fun _ => ⟨⟨rfl, .emits (by simp [Event.IsKey])⟩, rfl⟩) e

theorem life (h : Quiet s s') (down : s.ctx.connected = false) : Life pkt last s s' := by
  cases h' : s'.ctx.connected
  · exact .rests down h' (fun hi => h.session.trans hi) h.toPassive
  · exact .connects down h' h

end Quiet

theorem synNetDisconnect_life : wp synNetDisconnect
    (fun _ s' => Life none s.ctx.session s s') (fun _ _ => True) s := by
  unfold synNetDisconnect
  simp only [wp_bind, wp_get, wp_ite, wp_modify, wp_pure]
  have quiet : Passive s { s with net := { s.net with fd := -1 }, ctx := { s.ctx with connected := false } } :=
    ⟨rfl, [], by simp, by simp, fun h _ => h⟩
  split
  · exact .refl s
  · cases h : s.ctx.connected
    · exact .rests h rfl id quiet
    · exact .ends (by simp) h rfl rfl quiet

/-! ### Local updates -/

theorem updateClipBuf_life (h : Heap) (sent : Bool) (i : Fin 2) (data : Bytes) :
    wp (uSynergyUpdateClipBuf h sent i data) (fun _ s' => Life pkt last s s') (fun _ _ => True) s := by
  refine wp_mono (updateClipBuf_spec h sent i data s) ?_ fun _ _ _ => trivial
  rintro _ s' (⟨-, rfl⟩ | ⟨-, buf, -, -, hsends, hbase⟩)
  · exact .refl s'
  · have hclip := Frame.trans (ClipOnly.of_setSlot i s _) (ClipOnly.of_sends hsends)
    cases hup : s.ctx.connected
    · obtain ⟨⟨⟨b, n, hc⟩, -⟩, -⟩ := hsends
      refine .rests hup (by rw [hc]; exact hup) (fun hinit => ?_) ⟨by rw [hc]; rfl, hclip.out.mono fun ev hev => ?_⟩
      · have hn : n = 4 := by
          have := hbase (congrArg Session.replyCur hinit)
          rwa [hc] at this
        have hslot : ∀ j,
            ((s.setSlot i ((s.ctx.clip i).updated (buf.getD []) data)).ctx.clip j).inStream = false := by
          intro j
          by_cases hj : j = i
          · rw [hj, State.setSlot_self]; rfl
          · rw [State.setSlot_other _ _ _ hj]
            exact congrFun (congrArg Session.inStream hinit) j
        rw [hc, hn]
        show ({ s.ctx.session with
          replyCur := 4
          inStream := fun j => ((s.setSlot i ((s.ctx.clip i).updated (buf.getD []) data)).ctx.clip j).inStream } :
            Session) = _
        rw [funext hslot, hinit]
        rfl
      · cases ev <;> simp_all [Event.IsClip, Event.IsKey]
    · exact hclip.life hup

theorem updateRes_life (sent : Bool) (width height : Int) :
    wp (uSynergyUpdateRes sent width height) (fun _ s' => Life pkt last s s') (fun _ _ => True) s := by
  cases hup : s.ctx.connected
  · unfold uSynergyUpdateRes
    rw [wp_bind, wp_setCtx, wp_bind, wp_get, wp_ite, if_neg (by rw [hup]; decide)]
    exact .rests hup hup id ⟨rfl, .ctx id⟩
  · refine wp_mono (uSynergyUpdateRes_spec sent width height s) ?_ fun _ _ _ => trivial
    rintro _ _ ⟨t, hsends, rfl⟩
    obtain ⟨⟨⟨b, n, hc⟩, -⟩, -⟩ := hsends
    have hconn : t.ctx.connected = s.ctx.connected := by rw [hc]
    have hcapt : t.ctx.isCaptured = s.ctx.isCaptured := by rw [hc]
    exact .of_same hup hconn hcapt

/-- A local event changes nothing but the reply under construction, the clipboard, and what is said of the screen. -/
structure LocalOnly (s s' : State) : Prop where
  ctx : ∃ b n clip width height info, s'.ctx = { s.ctx with
    replyBuffer := b, replyCur := n, clip := clip, clientWidth := width, clientHeight := height, infoCurrent := info }
  net : s'.net = s.net

instance : Frame LocalOnly where
  refl _ := ⟨⟨_, _, _, _, _, _, rfl⟩, rfl⟩
  trans := by
    rintro s s' s'' ⟨⟨b, n, clip, width, height, info, h⟩, hn⟩ ⟨⟨b', n', clip', width', height', info', h'⟩, hn'⟩
    exact ⟨⟨b', n', clip', width', height', info', by rw [h', h]⟩, hn'.trans hn⟩

theorem handle_spec (ev : LocalEvent) (s : State) :
    wp ev.handle (fun _ s' => LocalOnly s s') (fun _ _ => True) s := by
  cases ev with
  | clipBuf h sent i data =>
    refine wp_mono (updateClipBuf_spec h sent i data s) ?_ fun _ _ _ => trivial
    rintro _ s' (⟨-, rfl⟩ | ⟨-, buf, -, -, hsends, -⟩)
    · exact Frame.refl s'
    · obtain ⟨⟨⟨b, n, hc⟩, hn⟩, -⟩ := hsends
      exact ⟨⟨b, n, _, _, _, _, hc⟩, hn⟩
  | res sent width height =>
    refine wp_mono (uSynergyUpdateRes_spec sent width height s) ?_ fun _ _ => False.elim
    rintro _ _ ⟨t, ⟨⟨⟨b, n, hc⟩, hn⟩, -⟩, rfl⟩
    refine ⟨⟨b, n, t.ctx.clip, t.ctx.clientWidth, t.ctx.clientHeight, t.ctx.infoCurrent && !t.ctx.connected, ?_⟩, hn⟩
    rw [hc]

theorem handleAll_spec (evs : List LocalEvent) (s : State) :
    wp (handleAll evs) (fun _ s' => LocalOnly s s') (fun _ _ => True) s := by
  induction evs generalizing s with
  | nil => exact (Frame.refl s : LocalOnly s s)
  | cons ev evs ih =>
    unfold handleAll
    rw [wp_bind]
    exact wp_mono (handle_spec ev s) (fun _ s₁ h₁ => wp_mono (ih s₁) (fun _ _ => Frame.trans h₁) fun _ _ => id)
      fun _ _ => id

/-! ### Every operation -/

theorem whenConnected_life {m : Syn Unit} (h : s.ctx.connected = true →
    wp m (fun _ s' => Life pkt last s s') (fun _ _ => True) s) :
    wp (whenConnected m) (fun _ s' => Life pkt last s s') (fun _ _ => True) s := by
  rw [wp_whenConnected]
  split
  · rename_i hup
    exact h hup
  · exact .refl s

/-- Every operation does to the connection what `Life` allows. -/
theorem life_spec (op : Op) (s : State) :
    wp op.exec (fun _ s' => Life op.pkt (op.ending s.ctx.session) s s') (fun _ _ => True) s := by
  cases op with
  | connect e =>
    rw [wp_connect]
    split
    · exact .refl s
    · rename_i hdown
      exact wp_mono (Quiet.tryConnect e s) (fun _ _ h => h.life (eq_false_of_ne_true hdown)) fun _ _ _ => trivial
  | receive avail now =>
    exact whenConnected_life fun hup => (wp_bind _ _).2 <|
      wp_mono (receive_life avail now hup) (fun _ _ h => h) fun _ _ => id
  | message e mem len => exact whenConnected_life (handMessage_life e _)
  | consume packlen => exact whenConnected_life (consume_life packlen)
  | ditch packlen n avail =>
    exact whenConnected_life fun hup => (wp_bind _ _).2 <|
      wp_mono (ditchRead_life packlen n avail hup) (fun _ _ h => h) fun _ _ => id
  | resetReceive =>
    cases hup : s.ctx.connected
    · refine .rests hup hup (fun hinit => ?_) ⟨rfl, .ctx id⟩
      show ({ s.ctx.session with receiveOfs := 0 } : Session) = _
      rw [hinit]; rfl
    · exact .of_same hup rfl rfl
  | netDisconnect => exact (wp_bind _ _).2 (wp_mono synNetDisconnect_life (fun _ _ h => h) fun _ _ => id)
  | updateClipBuf h sent i data => exact updateClipBuf_life h sent i data
  | updateRes sent width height => exact updateRes_life sent width height

end Waynergy
