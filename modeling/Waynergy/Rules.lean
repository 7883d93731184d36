import Waynergy.Client

/-!
# What reading and connecting keep

A relation between the states before and after that is kept by the few updates of which `net.c` and the reading
part of `sUpdateContext` are made is kept by all of it.
-/

namespace Waynergy
open Lib
variable {R : State → State → Prop} {S : Stop → Prop} {s : State}

/-! ### Operations -/

theorem wp_whenConnected {m : Syn Unit} {Q : Unit → State → Prop} {E : Stop → State → Prop} :
    wp (whenConnected m) Q E s ↔ if s.ctx.connected then wp m Q E s else Q () s := by
  unfold whenConnected
  rw [wp_bind, wp_get, wp_ite, wp_pure]

theorem wp_connect {e : ConnectEnv} {Q : Unit → State → Prop} {E : Stop → State → Prop} :
    wp (Op.connect e).exec Q E s ↔ if s.ctx.connected then Q () s else wp (tryConnect e) Q E s := by
  unfold Op.exec
  rw [wp_bind, wp_get, wp_ite, wp_pure]

/-! ### Reading -/

/-- Kept by what reading does to the state. -/
structure KeptByRead (R : State → State → Prop) : Prop where
  failed : ∀ s, R s { s with ctx := { s.ctx with lastError := .timeout } }
  down : ∀ s, R s { s with ctx := s.ctx.disconnect .timeout }
  stored : ∀ (s : State) b n, R s { s with ctx := { s.ctx with receiveBuffer := b, receiveOfs := n } }
  timed : ∀ (s : State) now, R s { s with ctx := { s.ctx with lastMessageTime := now } }
  slept : ∀ (s : State) ms, R s { s with out := s.out ++ [.sleep ms] }

namespace KeptByRead
variable [Frame R] (h : KeptByRead R)
include h

theorem synRecv (avail : Bytes) (n : Int) : Within R S (synRecv avail n) :=
  Within.ite (Within.bind h.failed fun _ => Within.pure _) (Within.pure _)

theorem receiveFailed : Within R S receiveFailed := Within.bind h.down fun _ s => h.slept s 1000

theorem received (hfault : S (.fault .receiveBuffer)) (bs : Bytes) (now : Nat) : Within R S (received bs now) := by
  refine Within.read fun s => ?_
  split
  · have hrest : Within R S (if s.ctx.hasReceivedHello then
        if bs = [] then
          if elapsed now s.ctx.lastMessageTime > idleTimeout then sSetDisconnected .timeout else pure ()
        else setCtx fun c => { c with lastMessageTime := now }
        else pure ()) :=
      Within.ite (Within.ite (Within.ite h.down (Within.pure ())) fun s => h.timed s now) (Within.pure ())
    exact Within.bind (fun s => h.stored s _ _) fun _ =>
      Within.ite (Within.bind (fun s => h.slept s 500) fun _ => hrest) hrest
  · exact Within.throw hfault

theorem receive (hfault : S (.fault .receiveBuffer)) (avail : Bytes) (now : Nat) : Within R S (receive avail now) := by
  refine Within.read fun s => Within.bind (h.synRecv avail _) fun got => ?_
  cases got with
  | none => exact Within.bind h.receiveFailed fun _ => Within.pure _
  | some bs => exact Within.bind (h.received hfault bs now) fun _ => Within.pure _

theorem ditchRead (hfault : S (.fault .receiveBuffer)) (packlen : Nat) (n : Int) (avail : Bytes) :
    Within R S (ditchRead packlen n avail) := by
  refine Within.bind (h.synRecv avail _) fun got => ?_
  cases got with
  | none => exact Within.bind h.receiveFailed fun _ => Within.pure _
  | some bs =>
    refine Within.read fun s => ?_
    split
    · exact Within.bind (fun s => h.stored s _ s.ctx.receiveOfs) fun _ => Within.pure _
    · exact Within.throw hfault

end KeptByRead

/-! ### The loop that eats packets -/

/-- Kept by the messages, and by what the loop does to the state and the discarding after it. -/
structure KeptByLoop (R : State → State → Prop) : Prop where
  message : ∀ e msg, Within R (fun _ => True) (sProcessMessage e msg)
  told : ∀ (s : State) evs, R s { s with out := s.out ++ evs }
  moved : ∀ (s : State) b n, R s { s with ctx := { s.ctx with receiveBuffer := b, receiveOfs := n } }
  ditched : ∀ packlen n avail, Within R (fun _ => True) (ditchRead packlen n avail)

namespace KeptByLoop
variable [Frame R] (h : KeptByLoop R)
include h

theorem handMessage (e : MsgEnv) (msg : SspBuf) : Within R (fun _ => True) (handMessage e msg) :=
  Within.read fun _ => Within.bind (fun s => h.told s _) fun _ => Within.bind (h.message e msg) fun _ =>
    Within.read fun _ s => h.told s _

theorem consume (packlen : Nat) : Within R (fun _ => True) (consume packlen) :=
  Within.read fun _ => Within.ite (Within.throw trivial) (Within.bind (fun s => h.told s _) fun _ s => h.moved s _ _)

theorem eatPackets (msgs : Nat → MsgEnv) (i fuel : Nat) : Within R (fun _ => True) (eatPackets msgs i fuel) := by
  induction fuel generalizing i with
  | zero => exact Within.throw trivial
  | succ fuel ih =>
    refine Within.read fun s => Within.ite (Within.pure _) (Within.bind (h.handMessage _ _) fun _ => ?_)
    exact Within.read fun _ => Within.ite (Within.bind (h.consume _) fun _ => ih _) (Within.pure _)

theorem ditchTail (packlen : Nat) (n : Int) (reads : List Bytes) :
    Within R (fun _ => True) (ditchTail packlen n reads) := by
  induction reads generalizing n with
  | nil =>
    unfold Waynergy.ditchTail
    exact Within.ite (Within.pure _) (Within.throw trivial)
  | cons avail reads ih =>
    unfold Waynergy.ditchTail
    refine Within.ite (Within.pure _) (Within.bind (h.ditched packlen n avail) fun got => ?_)
    cases got with
    | none => exact Within.pure _
    | some m => exact Within.ite (Within.throw trivial) (ih _)

/-- All of `sUpdateContext` but its first read. -/
theorem afterReceive (e : UpdateEnv) : Within R (fun _ => True) (do
    match ← Waynergy.eatPackets e.msgs 0 e.fuel with
    | some packlen => ditchOversized packlen e.ditch
    | none => pure ()) := by
  refine Within.bind (h.eatPackets _ _ _) fun r => ?_
  cases r with
  | none => exact Within.pure _
  | some packlen =>
    exact Within.ite (Within.read fun _ => Within.bind (h.ditchTail _ _ _) fun _ s =>
      h.moved s s.ctx.receiveBuffer 0) (Within.pure _)

end KeptByLoop

/-! ### Connecting -/

/-- Kept by what connecting and disconnecting do to the state. -/
structure KeptByNet (R : State → State → Prop) : Prop where
  closed : ∀ s, R s { s with net := { s.net with fd := -1 }, ctx := { s.ctx with connected := false } }
  opened : ∀ (s : State) fd, R s { s with net := { s.net with fd := fd } }
  timed : ∀ (s : State) now, R s { s with ctx := { s.ctx with lastMessageTime := now } }
  tried : ∀ s, R s { s with out := s.out ++ [.connect] }

namespace KeptByNet
variable [Frame R] (h : KeptByNet R)
include h

theorem synNetDisconnect : Within R S synNetDisconnect :=
  Within.read fun _ => Within.ite (Within.pure _) (Within.bind h.closed fun _ => Within.pure _)

theorem synConnectSetup (a : Attempt) : Within R S (synConnectSetup a) := by
  cases a <;> exact Within.bind (fun s => h.opened s _) fun _ => Within.pure _

theorem connectLoop (now : Nat) (hs : List Attempt) : Within R S (connectLoop now hs) := by
  induction hs with
  | nil => exact Within.pure _
  | cons a hs ih =>
    exact Within.bind (h.synConnectSetup a) fun b => Within.ite
      (Within.bind (fun s => h.timed s now) fun _ => Within.pure _) (Within.bind h.synNetDisconnect fun _ => ih)

theorem synConnect (e : ConnectEnv) : Within R S (synConnect e) := by
  refine Within.bind h.tried fun _ => ?_
  split
  · exact Within.pure _
  · exact Within.bind h.synNetDisconnect fun _ => h.connectLoop _ _

/-- A connection attempt also marks the connection, or waits. -/
theorem tryConnect (hexit : S .exit) (hup : ∀ s, R s { s with ctx := { s.ctx with connected := true } })
    (hslept : ∀ s : State, R s { s with out := s.out ++ [.sleep 1000] }) (e : ConnectEnv) :
    Within R S (tryConnect e) :=
  Within.read fun _ => Within.ite (Within.throw hexit) (Within.bind (h.synConnect e) fun _ => Within.ite hup hslept)

end KeptByNet
end Waynergy
