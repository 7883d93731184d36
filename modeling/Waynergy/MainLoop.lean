import Waynergy.Session

/-!
# The main loop performs operations

Every iteration of the main loop, whatever it receives and however `poll` and the sends turn out, is a run of
operations of the client: what holds after every run of operations holds after every iteration. A message is
handed over, a packet moved out, and a tail ditched only while there is a connection.
-/

namespace Waynergy
open Lib
variable {s s' : State}

/-- The stops of the loops themselves: a loop that still runs when its fuel is spent, and the overflow of the
count of bytes that were ditched. -/
def LoopStop (stop : Stop) : Prop := stop = .spinning ∨ stop = .fault .overflow

/-- The program performs operations of the client. -/
abbrev IsMade {α : Type} (m : Syn α) (s : State) : Prop := Performs Op.exec LoopStop m s

namespace IsMade

theorem of_unit (op : Op) : IsMade op.exec s := Performs.of_op op (by rw [bind_pure_unit])

theorem of_connected {α : Type} {m : Syn α} (op : Op) (hup : s.ctx.connected = true)
    (hop : op.exec = whenConnected (do let _ ← m; pure ())) : IsMade m s := by
  refine Performs.of_op op ?_
  rw [hop, whenConnected, EStateM.run_bind]
  show (if s.ctx.connected = true then _ else _ : Syn Unit).run s = _
  rw [if_pos hup]

end IsMade

/-! ### What keeps the connection -/

theorem receive_up (avail : Bytes) (now : Nat) (hup : s.ctx.connected = true) :
    wp (receive avail now) (fun up s' => up = true → s'.ctx.connected = true) (fun _ _ => True) s := by
  rw [wp_receive]
  split
  · exact (nomatch ·)
  · rename_i hbs
    refine wp_mono (received_some hbs now) ?_ fun _ _ => id
    rintro _ _ ⟨b, t, rfl⟩ -
    exact hup

theorem consume_up (packlen : Nat) (hup : s.ctx.connected = true) :
    wp (consume packlen) (fun _ s' => s'.ctx.connected = true) (fun _ _ => True) s := by
  unfold consume
  simp only [wp_bind, wp_get, wp_ite, wp_throw, wp_emits, wp_setCtx]
  split
  exacts [trivial, hup]

theorem ditchRead_up (packlen : Nat) (n : Int) (avail : Bytes) (hup : s.ctx.connected = true) :
    wp (ditchRead packlen n avail) (fun r s' => r ≠ none → s'.ctx.connected = true) (fun _ _ => True) s := by
  rw [wp_ditchRead]
  split
  · exact fun h => absurd rfl h
  · split
    exacts [fun _ => hup, trivial]

/-! ### The receive loop -/

theorem eatPackets_made (msgs : Nat → MsgEnv) (i fuel : Nat) (hup : s.ctx.connected = true) :
    IsMade (eatPackets msgs i fuel) s := by
  induction fuel generalizing s i with
  | zero => exact Performs.throw (.inl rfl)
  | succ fuel ih =>
    refine Performs.read (Performs.ite (fun _ => Performs.pure _) fun _ => ?_)
    have hhand : IsMade (handMessage (msgs i) s.ctx.packet) s :=
      IsMade.of_connected (.message (msgs i) _ _) hup (by rw [bind_pure_unit]; rfl)
    refine Performs.bind hhand fun _ s₁ _ => ?_
    refine Performs.read (Performs.ite (fun hup₁ => ?_) fun _ => Performs.pure _)
    refine Performs.bind (IsMade.of_connected (.consume _) hup₁ (by rw [bind_pure_unit]; rfl)) fun _ s₂ h₂ => ?_
    exact ih (i + 1) (wp_ok (Q := fun _ s' => s'.ctx.connected = true) (consume_up _ hup₁) h₂)

theorem ditchTail_made (packlen : Nat) (n : Int) (reads : List Bytes) (hup : s.ctx.connected = true) :
    IsMade (ditchTail packlen n reads) s := by
  induction reads generalizing s n with
  | nil =>
    unfold ditchTail
    exact Performs.ite (fun _ => Performs.pure _) fun _ => Performs.throw (.inl rfl)
  | cons avail reads ih =>
    unfold ditchTail
    refine Performs.ite (fun _ => Performs.pure _) fun _ => ?_
    refine Performs.bind (IsMade.of_connected (.ditch packlen n avail) hup rfl) fun r s₁ h₁ => ?_
    have hup₁ := wp_ok (ditchRead_up packlen n avail hup) h₁
    cases r with
    | none => exact Performs.pure _
    | some m => exact Performs.ite (fun _ => Performs.throw (.inr rfl)) fun _ => ih _ (hup₁ (by simp))

theorem ditchOversized_made (packlen : Nat) (reads : List Bytes) (hup : s.ctx.connected = true) :
    IsMade (ditchOversized packlen reads) s :=
  Performs.ite
    (fun _ => Performs.read (Performs.bind (ditchTail_made _ _ _ hup) fun _ _ _ => IsMade.of_unit .resetReceive))
    fun _ => Performs.pure _

/-- The loop that gives up its connection does not give a length. -/
theorem eatPackets_up (msgs : Nat → MsgEnv) (i fuel : Nat) (hup : s.ctx.connected = true) :
    wp (eatPackets msgs i fuel) (fun r s' => r ≠ none → s'.ctx.connected = true) (fun _ _ => True) s := by
  induction fuel generalizing s i with
  | zero => trivial
  | succ fuel ih =>
    rw [eatPackets]
    simp only [wp_bind, wp_get, wp_ite, wp_pure]
    split
    · exact fun _ => hup
    · refine wp_mono (handMessage_life (msgs i) _ hup) (fun _ s₁ _ => ?_) fun _ _ _ => trivial
      split
      · rename_i hup₁
        exact wp_mono (consume_up _ hup₁) (fun _ s₂ hup₂ => ih (i + 1) hup₂) fun _ _ => id
      · exact fun h => absurd rfl h

theorem sUpdateContext_made (e : UpdateEnv) (hup : s.ctx.connected = true) : IsMade (sUpdateContext e) s := by
  refine Performs.bind (IsMade.of_connected (.receive e.avail e.now) hup rfl) fun up s₁ h₁ => ?_
  refine Performs.ite (fun hok => ?_) fun _ => Performs.pure _
  have hup₁ := wp_ok (receive_up e.avail e.now hup) h₁ hok
  refine Performs.bind (eatPackets_made _ _ _ hup₁) fun r s₂ h₂ => ?_
  have hup₂ := wp_ok (eatPackets_up e.msgs 0 e.fuel hup₁) h₂
  cases r with
  | none => exact Performs.pure _
  | some packlen => exact ditchOversized_made _ _ (hup₂ (by simp))

/-! ### Polling -/

theorem uSynergyUpdate_made (e : SynEnv) : IsMade (uSynergyUpdate e) s := by
  refine Performs.read (Performs.ite (fun hup => sUpdateContext_made _ hup) fun hdown => ?_)
  refine Performs.of_op (.connect e.connect) ?_
  rw [bind_pure_unit, Op.exec, EStateM.run_bind]
  show (if s.ctx.connected = true then _ else _ : Syn Unit).run s = _
  rw [if_neg hdown]

section
variable {O : Type} {exec : O → Syn Unit} {own : Stop → Prop}

theorem performs_handleAll (hhandle : ∀ (ev : LocalEvent) s, Performs exec own ev.handle s) (evs : List LocalEvent) :
    Performs exec own (handleAll evs) s := by
  induction evs generalizing s with
  | nil => exact Performs.pure _
  | cons ev evs ih => exact Performs.bind (hhandle ev s) fun _ _ _ => ih

/-- What follows the update in a round. -/
theorem performs_round (hdisconnect : ∀ s, Performs exec own (do let _ ← synNetDisconnect; pure ()) s)
    (hhandle : ∀ (ev : LocalEvent) s, Performs exec own ev.handle s) (r : Round) {m : Syn Unit}
    (hm : ∀ s, Performs exec own m s) : Performs exec own (do
      let s ← get
      if elapsed r.now s.ctx.lastMessageTime > idleTimeout then
        let _ ← synNetDisconnect
        pure ()
      else do
        if s.ctx.connected then handleAll r.events else pure ()
        m) s :=
  Performs.read (Performs.ite (fun _ => hdisconnect s) fun _ =>
    Performs.ite (fun _ => Performs.bind (performs_handleAll hhandle _) fun _ _ _ => hm _) fun _ => hm _)

theorem performs_netPoll (hupdate : ∀ e s, Performs exec own (uSynergyUpdate e) s)
    (hdisconnect : ∀ s, Performs exec own (do let _ ← synNetDisconnect; pure ()) s)
    (hhandle : ∀ (ev : LocalEvent) s, Performs exec own ev.handle s) (timedOut : Bool) (rounds : List Round) :
    Performs exec own (netPoll timedOut rounds) s := by
  induction rounds generalizing s with
  | nil => exact Performs.ite (fun _ => hdisconnect s) fun _ => Performs.pure _
  | cons r rounds ih =>
    have hrest : ∀ {s : State}, Performs exec own _ s := performs_round hdisconnect hhandle r fun _ => ih
    unfold netPoll
    exact Performs.ite (fun _ => Performs.bind (hupdate _ _) fun _ _ _ => hrest) fun _ => hrest

theorem performs_mainLoop (hupdate : ∀ e s, Performs exec own (uSynergyUpdate e) s)
    (hdisconnect : ∀ s, Performs exec own (do let _ ← synNetDisconnect; pure ()) s)
    (hhandle : ∀ (ev : LocalEvent) s, Performs exec own ev.handle s) (e : MainEnv) :
    Performs exec own (mainLoop e) s :=
  Performs.read (Performs.ite (fun _ => performs_netPoll hupdate hdisconnect hhandle _ _) fun _ => hupdate _ _)

end

theorem handle_made (ev : LocalEvent) (s : State) : IsMade ev.handle s := by
  cases ev with
  | clipBuf h sent i data => exact IsMade.of_unit (.updateClipBuf h sent i data)
  | res sent width height => exact IsMade.of_unit (.updateRes sent width height)

theorem disconnect_made (s : State) : IsMade (do let _ ← synNetDisconnect; pure ()) s := IsMade.of_unit .netDisconnect

theorem netPoll_made (timedOut : Bool) (rounds : List Round) : IsMade (netPoll timedOut rounds) s :=
  performs_netPoll (fun e _ => uSynergyUpdate_made e) disconnect_made handle_made timedOut rounds

theorem mainLoop_performs (e : MainEnv) (s : State) : Performs Op.exec LoopStop (mainLoop e) s :=
  performs_mainLoop (fun e _ => uSynergyUpdate_made e) disconnect_made handle_made e

theorem Reachable.mainLoop {e : MainEnv} (h : Reachable s) (hrun : (Waynergy.mainLoop e).run s = .ok () s') :
    Reachable s' := by
  obtain ⟨cfg, steps, hs⟩ := h
  obtain ⟨steps', hs'⟩ := wp_ok (mainLoop_performs e s) hrun
  exact ⟨cfg, _, hs.append hs'⟩

end Waynergy
