import Waynergy.Session
import Waynergy.Stream

/-!
# When one connection leaves nothing to the next

`sSetDisconnected` resets the session but for `m_infoCurrent` and `m_clipInStream`; `synNetDisconnect` and a
hello that cannot be answered reset nothing. If every connection ends where that leaves the initial session,
and with a receive buffer whose second byte is zero, every connection starts in the initial session, and its
bytes are framed as if there had been none before.
-/

namespace Waynergy
open Lib
variable {s s' : State} {op : Op} {cfg : Config} {steps : List (State × Op)}

/-! ### Clean ends -/

/-- No connection has left anything. -/
structure Clean (s : State) : Prop where
  session : s.ctx.session = .initial
  one : s.ctx.receiveBuffer.bytes[1]? = some 0

/-- The operation lost the connection. -/
def Ends (s s' : State) : Prop := s.ctx.connected = true ∧ s'.ctx.connected = false

/-- The operation set `m_connected`. -/
def Connects (s s' : State) : Prop := s.ctx.connected = false ∧ s'.ctx.connected = true

/-- The server has not been told the screen since, and no clipboard stream is open. -/
def NoneOpen (c : Context) : Prop := c.infoCurrent = false ∧ ∀ i, (c.clip i).inStream = false

/-- An end by `op` in the context `c` leaves nothing: what it does not reset is as in the initial session. -/
def Op.LeavesNothing (c : Context) : Op → Prop
  | .netDisconnect => c.session = .initial
  | .message _ mem len =>
    if isHello ⟨mem, 0, len⟩ then { c.session with replyCur := 4 } = Session.initial else NoneOpen c
  | _ => NoneOpen c

def Op.EndsClean (op : Op) (s : State) : Prop :=
  op.LeavesNothing s.ctx ∧ s.ctx.receiveBuffer.bytes[1]? = some 0

theorem ending_eq_initial {c : Context} : op.ending c.session = .initial ↔ op.LeavesNothing c := by
  cases op with
  | message e mem len =>
    show msgEnding _ _ = _ ↔ if _ then _ else _
    unfold msgEnding
    split
    · exact Iff.rfl
    · exact Session.reset_eq_initial
  | netDisconnect => exact Iff.rfl
  | _ => exact Session.reset_eq_initial

/-- What an end leaves is decided by the state it starts from. -/
theorem clean_iff_endsClean (hop : op.exec.run s = .ok () s') (h : Ends s s') : Clean s' ↔ op.EndsClean s := by
  obtain ⟨hup, hdown⟩ := h
  have ends : s'.ctx.session = op.ending s.ctx.session ∧ s'.ctx.receiveBuffer = s.ctx.receiveBuffer := by
    cases wp_ok (life_spec op s) hop with
    | ends _ _ _ session rest => exact ⟨session, rest.buffer⟩
    | stands _ up' | leaves _ _ up' | connects _ up' => rw [hdown] at up'; cases up'
    | rests down => rw [hup] at down; cases down
  constructor
  · rintro ⟨hsession, hone⟩
    rw [ends.1] at hsession
    rw [ends.2] at hone
    exact ⟨ending_eq_initial.mp hsession, hone⟩
  · rintro ⟨hclean, hone⟩
    exact ⟨ends.1.trans (ending_eq_initial.mpr hclean), by rw [ends.2]; exact hone⟩

/-! ### Runs -/

/-- Every end of a connection in the run is clean. -/
def EndsAllClean (steps : List (State × Op)) : Prop :=
  ∀ t op t', (t, op) ∈ steps → op.exec.run t = .ok () t' → Ends t t' → op.EndsClean t

theorem clean_step (hop : op.exec.run s = .ok () s') (hends : Ends s s' → op.EndsClean s)
    (h : s.ctx.connected = false → Clean s) (down : s'.ctx.connected = false) : Clean s' := by
  cases hup : s.ctx.connected
  · have hclean := h hup
    cases wp_ok (life_spec op s) hop with
    | rests _ _ session rest => exact ⟨session hclean.session, by rw [rest.buffer]; exact hclean.one⟩
    | stands up | leaves _ up | ends _ up => rw [hup] at up; cases up
    | connects _ up => rw [down] at up; cases up
  · exact (clean_iff_endsClean hop ⟨hup, down⟩).mpr (hends ⟨hup, down⟩)

theorem clean_of_run (hrun : Run Op.exec (State.init cfg) steps s) (hends : EndsAllClean steps)
    (down : s.ctx.connected = false) : Clean s := by
  refine hrun.invariant (P := fun s => s.ctx.connected = false → Clean s) ?_ ?_ down
  · exact fun _ => ⟨rfl, rfl⟩
  · exact fun t op t' hm h hop => clean_step hop (hends t op t' hm hop) h

theorem Clean.connects (h : Clean s) (hop : op.exec.run s = .ok () s') (hc : Connects s s') : Clean s' := by
  obtain ⟨hdown, hup⟩ := hc
  cases wp_ok (life_spec op s) hop with
  | connects _ _ quiet => exact ⟨quiet.session.trans h.session, by rw [quiet.buffer]; exact h.one⟩
  | stands up | leaves _ up | ends _ up => rw [hdown] at up; cases up
  | rests _ down => rw [hup] at down; cases down

theorem Clean.waits (h : Clean s) (up : s.ctx.connected = true) : Waits [] s :=
  ⟨up, congrArg Session.receiveOfs h.session, Nat.zero_le _, rfl, h.one⟩

/-- The session is the initial one, and the bytes that arrive from now on are framed by themselves. -/
def StartsAnew (s : State) : Prop :=
  s.ctx.session = .initial ∧ ∀ calls s', Run sUpdateContext s calls s' →
    (∀ call ∈ calls, call.1.ctx.connected = true ∧ Delivers call.1 call.2.avail) →
    Framed maxBody (arrived calls) → Framing s s' (arrived calls)

/-- An end of a connection leaves nothing exactly if it is a clean one, and in a run with clean ends every
connection starts anew. -/
theorem sessions_isolated (hrun : Run Op.exec (State.init cfg) steps s) :
    (∀ t op t', (t, op) ∈ steps → op.exec.run t = .ok () t' → Ends t t' → (Clean t' ↔ op.EndsClean t)) ∧
    (EndsAllClean steps →
      ∀ t op t', (t, op) ∈ steps → op.exec.run t = .ok () t' → Connects t t' → StartsAnew t') := by
  refine ⟨fun t op t' _ hop h => clean_iff_endsClean hop h, fun hends t op t' hm hop hc => ?_⟩
  obtain ⟨pre, post, rfl, hpre⟩ := hrun.before_step hm
  have hbefore : EndsAllClean pre := fun a op b hmem => hends a op b (by simp [hmem])
  have hclean := (clean_of_run hpre hbefore hc.1).connects hop hc
  exact ⟨hclean.session, fun calls s' hcalls hdel hframed =>
    (waits_of_run (Nat.le_refl _) (hclean.waits hc.2) hcalls hdel hframed).1⟩

/-! ### A second connection -/

theorem run_netDisconnect (hfd : s.net.fd ≠ -1) : Op.netDisconnect.exec.run s =
    .ok () { s with net := { s.net with fd := -1 }, ctx := { s.ctx with connected := false } } := by
  have hwp : wp Op.netDisconnect.exec (fun _ s' => s' =
      { s with net := { s.net with fd := -1 }, ctx := { s.ctx with connected := false } }) (fun _ _ => False) s := by
    simp only [Op.exec, synNetDisconnect, wp_bind, wp_get, wp_ite, if_neg hfd, wp_modify, wp_pure]
  obtain ⟨_, s', hrun, rfl⟩ := exists_ok_of_wp hwp
  exact hrun

/-- Connecting to the first address, when the last error is not fatal. -/
theorem run_connect (fd now : Nat) (down : s.ctx.connected = false)
    (hfatal : ¬ (s.ctx.lastError.code > 0 ∧ s.ctx.errorIsFatal s.ctx.lastError)) :
    (Op.connect ⟨some [.socket fd true], now⟩).exec.run s = .ok ()
      { ctx := { s.ctx with lastMessageTime := now, connected := true }, net := ⟨fd⟩, out := s.out ++ [.connect] } := by
  have hwp : wp (Op.connect ⟨some [.socket fd true], now⟩).exec (fun _ s' => s' =
      { ctx := { s.ctx with lastMessageTime := now, connected := true }, net := ⟨fd⟩, out := s.out ++ [.connect] })
      (fun _ _ => False) s := by
    by_cases hfd : s.net.fd = -1 <;>
      simp only [Op.exec, tryConnect, synConnect, connectLoop, synConnectSetup, synNetDisconnect, wp_bind, wp_get,
        wp_ite, wp_emits, wp_modify, wp_setCtx, wp_pure, down, hfd, if_neg hfatal, if_true, Bool.false_eq_true,
        if_false]
  obtain ⟨_, s', hrun, rfl⟩ := exists_ok_of_wp hwp
  exact hrun

def cinnBody : Bytes := ascii ['C', 'I', 'N', 'N'] ++ [0, 0, 0, 0, 0, 0, 0, 1, 0, 0]

def barrierOp : Op :=
  .message .smooth (ascii ['B', 'a', 'r', 'r', 'i', 'e', 'r', '\x00', '\x01', '\x00', '\x06']) 11

def cinnOp : Op := .message .smooth cinnBody 14

def cbyeOp : Op := .message .smooth cbye 4

theorem Ends.stays {t t' : State} (h : Ends t t') (hop : op.exec.run t = .ok () t') (hop' : op.exec.run t = .ok () s)
    (up : s.ctx.connected = true) : False := by
  rw [hop'] at hop
  cases hop
  rw [h.2] at up
  cases up

/-- The server has greeted, entered the screen and said farewell before the second connection. -/
theorem sessions_isolated_farewell : ∃ s₁ s₂ s₃ s₄, barrierOp.exec.run (.opened .sample) = .ok () s₁ ∧
    cinnOp.exec.run s₁ = .ok () s₂ ∧ s₂.ctx.hasReceivedHello = true ∧ s₂.ctx.isCaptured = true ∧
    cbyeOp.exec.run s₂ = .ok () s₃ ∧ (Op.connect ⟨some [.socket 3 true], 0⟩).exec.run s₃ = .ok () s₄ ∧
    StartsAnew s₄ := by
  obtain ⟨s₁, s₂, s₃, h₁, up₁, h₂, up₂, hgreeted, hcapt, hopen, hone, h₃, down, hfatal⟩ :
      ∃ s₁ s₂ s₃, barrierOp.exec.run (.opened .sample) = .ok () s₁ ∧ s₁.ctx.connected = true ∧
        cinnOp.exec.run s₁ = .ok () s₂ ∧ s₂.ctx.connected = true ∧ s₂.ctx.hasReceivedHello = true ∧
        s₂.ctx.isCaptured = true ∧ NoneOpen s₂.ctx ∧ s₂.ctx.receiveBuffer.bytes[1]? = some 0 ∧
        cbyeOp.exec.run s₂ = .ok () s₃ ∧ s₃.ctx.connected = false ∧
        ¬ (s₃.ctx.lastError.code > 0 ∧ s₃.ctx.errorIsFatal s₃.ctx.lastError) :=
    ⟨_, _, _, rfl, rfl, rfl, rfl, rfl, rfl, ⟨rfl, fun _ => rfl⟩, rfl, rfl, rfl, by decide⟩
  have h₄ := run_connect 3 0 down hfatal
  have hrun := ((((Run.single (run_connect_init .sample)).snoc h₁).snoc h₂).snoc h₃).snoc h₄
  refine ⟨s₁, s₂, s₃, _, h₁, h₂, hgreeted, hcapt, h₃, h₄, (sessions_isolated hrun).2 ?_ _ _ _
    (List.mem_append_right _ (List.mem_singleton_self _)) h₄ ⟨down, rfl⟩⟩
  intro t op t' hm hop hend
  simp only [List.cons_append, List.nil_append, List.mem_cons, Prod.mk.injEq, List.not_mem_nil, or_false] at hm
  rcases hm with ⟨rfl, rfl⟩ | ⟨rfl, rfl⟩ | ⟨rfl, rfl⟩ | ⟨rfl, rfl⟩ | ⟨rfl, rfl⟩
  · exact absurd hend.1 (by decide)
  · exact (hend.stays hop h₁ up₁).elim
  · exact (hend.stays hop h₂ up₂).elim
  · exact ⟨hopen, hone⟩
  · exact (hend.stays hop h₄ rfl).elim

/-- Three bytes are received before the connection times out, and are still there in the next one. -/
theorem session_survives : ¬ ∀ cfg steps s, Run Op.exec (State.init cfg) steps s →
    ∀ t op t', (t, op) ∈ steps → op.exec.run t = .ok () t' → Connects t t' → t'.ctx.session = .initial := by
  intro h
  obtain ⟨s₁, h₁, hofs, hfd, hfatal⟩ : ∃ s₁, (Op.receive [0, 0, 0] 0).exec.run (.opened .sample) = .ok () s₁ ∧
      s₁.ctx.receiveOfs = 3 ∧ s₁.net.fd ≠ -1 ∧
      ¬ (s₁.ctx.lastError.code > 0 ∧ s₁.ctx.errorIsFatal s₁.ctx.lastError) := ⟨_, rfl, rfl, by decide, by decide⟩
  have h₂ := run_netDisconnect hfd
  have h₃ := run_connect (s := { s₁ with net := { s₁.net with fd := -1 }, ctx := { s₁.ctx with connected := false } })
    3 0 rfl hfatal
  have hsession := h _ _ _ ((((Run.single (run_connect_init .sample)).snoc h₁).snoc h₂).snoc h₃) _ _ _
    (List.mem_append_right _ (List.mem_singleton_self _)) h₃ ⟨rfl, rfl⟩
  have : s₁.ctx.receiveOfs = 0 := congrArg Session.receiveOfs hsession
  rw [hofs] at this
  cases this

end Waynergy
