import Waynergy.Lib.Run
import Waynergy.Session

/-!
# The descriptor that is polled (`netPoll`, `net.c`)

`netPoll` copies the descriptor of the connection into `netPollFd` before its loop. A call of `uSynergyUpdate` in
the loop connects again if the connection was lost, and then the copy is that of a closed socket, unless the new
socket gets the same number.
-/

namespace Waynergy
open Lib
variable {s s' : State}

/-! ### The loop -/

/-- What follows once the socket is read. It returns false if `netPoll` returns. -/
def pollRest (r : Round) : Syn Bool := do
  let s ← get
  if elapsed r.now s.ctx.lastMessageTime > idleTimeout then
    let _ ← synNetDisconnect
    pure false
  else do
    if s.ctx.connected then handleAll r.events else pure ()
    pure true

/-- What follows a `poll` that returned with something to do. -/
def pollBody (r : Round) : Syn Bool := do
  if r.readable then uSynergyUpdate r.env else pure ()
  pollRest r

theorem pollBody_eq (r : Round) :
    pollBody r = (if r.readable then uSynergyUpdate r.env else pure ()) >>= fun _ => pollRest r := by
  unfold pollBody
  split <;> rfl

theorem pollRest_bind (r : Round) (k : Syn Unit) : (do if ← pollRest r then k else pure () : Syn Unit) = (do
    let s ← get
    if elapsed r.now s.ctx.lastMessageTime > idleTimeout then
      let _ ← synNetDisconnect
      pure ()
    else do
      if s.ctx.connected then handleAll r.events else pure ()
      k) := by
  unfold pollRest
  rw [bind_assoc]
  refine bind_congr fun s => ?_
  split
  · rw [bind_assoc]
    rfl
  · split
    · rw [bind_assoc]
      rfl
    · rfl

theorem netPoll_cons (timedOut : Bool) (r : Round) (rounds : List Round) :
    netPoll timedOut (r :: rounds) = (do if ← pollBody r then netPoll timedOut rounds else pure ()) := by
  unfold pollBody
  rw [netPoll]
  split
  · rw [bind_assoc]
    exact bind_congr fun _ => (pollRest_bind r _).symm
  · exact (pollRest_bind r _).symm

/-- `poll` is about to be called, and `netPollFd[POLLFD_SYN].fd` is `fd`. -/
structure Polling where
  syn : State
  fd : Int

/-- The copy is made before the first call. -/
def netPollStart (s : State) : Polling := ⟨s, s.net.fd⟩

/-- From one call of `poll` to the next. It stops with `none` if `netPoll` returns. -/
def pollAgain (r : Round) : Proc (Option Stop) Polling Unit := fun p =>
  match (pollBody r).run p.syn with
  | .ok true s => .ok () { p with syn := s }
  | .ok false s => .error none { p with syn := s }
  | .error stop s => .error (some stop) { p with syn := s }

/-- What is polled for the connection is the connection. -/
def Polling.Live (p : Polling) : Prop := p.fd = p.syn.net.fd

theorem pollAgain_ok {r : Round} {p p' : Polling} : (pollAgain r).run p = .ok () p' ↔
    (pollBody r).run p.syn = .ok true p'.syn ∧ p'.fd = p.fd := by
  show pollAgain r p = _ ↔ _
  unfold pollAgain
  cases hrun : (pollBody r).run p.syn with
  | error stop s => simp
  | ok again s =>
    cases again with
    | false => simp
    | true =>
      obtain ⟨s', fd'⟩ := p'
      simp [eq_comm]

/-- A run of rounds after each of which `poll` is called again is the front part of a call of `netPoll`. -/
theorem netPoll_of_run {steps : List (Polling × Round)} {p : Polling} (h : Run pollAgain (netPollStart s) steps p)
    (timedOut : Bool) (rounds : List Round) :
    (netPoll timedOut (steps.map Prod.snd ++ rounds)).run s = (netPoll timedOut rounds).run p.syn := by
  induction h generalizing rounds with
  | nil => rfl
  | @snoc steps p p' r _ hop ih =>
    rw [List.map_append, List.append_assoc, ih]
    show (netPoll timedOut (r :: rounds)).run p.syn = _
    rw [netPoll_cons, EStateM.run_bind, (pollAgain_ok.mp hop).1]
    rfl

/-! ### The descriptor of the connection -/

/-- The connection has the same descriptor. -/
def SameNet (s s' : State) : Prop := s'.net = s.net

instance : Frame SameNet := ⟨fun _ => rfl, fun h h' => h'.trans h⟩

/-- A return leaves the descriptor as it was. -/
abbrev KeepsNet {α : Type} (m : Syn α) : Prop := Within SameNet (fun _ => True) m

namespace KeepsNet

theorem byRead : KeptByRead SameNet where
  failed _ := rfl
  down _ := rfl
  stored _ _ _ := rfl
  timed _ _ := rfl
  slept _ _ := rfl

theorem byLoop : KeptByLoop SameNet where
  message e msg := (IsTame.sProcessMessage e msg).mono (fun _ _ => Tame.net) fun _ _ => trivial
  told _ _ := rfl
  moved _ _ _ := rfl
  ditched := byRead.ditchRead trivial

theorem sUpdateContext (e : UpdateEnv) : KeepsNet (sUpdateContext e) :=
  Within.bind (byRead.receive trivial e.avail e.now) fun _ => Within.ite (byLoop.afterReceive e) (Within.pure _)

end KeepsNet

/-- The descriptor after an attempt to connect to `hosts`: the first that could be set up. -/
def reconnectFd : List Attempt → Int
  | [] => -1
  | .socket fd true :: _ => fd
  | _ :: hosts => reconnectFd hosts

theorem wp_synNetDisconnect {Q : Bool → State → Prop} {E : Stop → State → Prop}
    (h : ∀ b s', s'.net.fd = -1 → Q b s') : wp synNetDisconnect Q E s := by
  unfold synNetDisconnect
  rw [wp_bind, wp_get, wp_ite]
  split
  · rename_i hfd
    exact h _ _ hfd
  · exact h _ _ rfl

theorem connectLoop_fd (now : Nat) (hosts : List Attempt) (hfd : s.net.fd = -1) :
    wp (connectLoop now hosts) (fun _ s' => s'.net.fd = reconnectFd hosts) (fun _ _ => True) s := by
  induction hosts generalizing s with
  | nil => exact hfd
  | cons a hosts ih =>
    have hnext : ∀ t, wp (do let _ ← synNetDisconnect; connectLoop now hosts)
        (fun _ s' => s'.net.fd = reconnectFd hosts) (fun _ _ => True) t := by
      intro t
      rw [wp_bind]
      exact wp_synNetDisconnect fun _ _ h => ih h
    unfold connectLoop
    rw [wp_bind]
    cases a with
    | noSocket => exact hnext _
    | socket fd ok =>
      cases ok with
      | true => exact (rfl : _ = _)
      | false => exact hnext _

/-- The descriptor after an update: that of the new connection, if the client was not connected and the host has
addresses. -/
def Round.fdAfter (r : Round) (s : State) : Int :=
  if r.readable && !s.ctx.connected then (r.env.connect.attempts.map reconnectFd).getD s.net.fd else s.net.fd

theorem uSynergyUpdate_fd (r : Round) (s : State) :
    wp (if r.readable then uSynergyUpdate r.env else pure ()) (fun _ s' => s'.net.fd = r.fdAfter s) (fun _ _ => True)
      s := by
  unfold Round.fdAfter
  rw [wp_ite]
  split
  · rename_i hread
    unfold uSynergyUpdate
    rw [wp_bind, wp_get, wp_ite, hread, Bool.true_and]
    split
    · rename_i hup
      rw [hup, if_neg (by decide)]
      exact wp_mono (KeepsNet.sUpdateContext _ s) (fun _ _ h => congrArg SynNet.fd h) fun _ _ _ => trivial
    · rename_i hdown
      rw [eq_false_of_ne_true hdown, Bool.not_false, if_pos rfl]
      unfold tryConnect synConnect
      rw [wp_bind, wp_get, wp_ite]
      split
      · trivial
      · rw [wp_bind, wp_bind, wp_emits]
        cases r.env.connect.attempts with
        | none => exact (rfl : _ = _)
        | some hosts =>
          rw [wp_bind]
          refine wp_synNetDisconnect fun _ s₁ h₁ => ?_
          refine wp_mono (connectLoop_fd _ hosts h₁) (fun ok s₂ h₂ => ?_) fun _ _ => id
          rw [wp_ite]
          split <;> exact h₂
  · rename_i hread
    rw [eq_false_of_ne_true hread, Bool.false_and, if_neg (by decide)]
    exact (rfl : _ = _)

/-- From one call of `poll` to the next the copy stays, and the descriptor changes if there is a new connection. -/
theorem pollAgain_fd {r : Round} {p p' : Polling} (h : (pollAgain r).run p = .ok () p') :
    p'.fd = p.fd ∧ p'.syn.net.fd = r.fdAfter p.syn := by
  obtain ⟨hrun, hfd⟩ := pollAgain_ok.mp h
  refine ⟨hfd, ?_⟩
  have hbody : wp (pollBody r) (fun again s' => again = true → s'.net.fd = r.fdAfter p.syn) (fun _ _ => True)
      p.syn := by
    rw [pollBody_eq, wp_bind]
    refine wp_mono (uSynergyUpdate_fd r p.syn) (fun _ s₁ h₁ => ?_) fun _ _ => id
    unfold pollRest
    rw [wp_bind, wp_get, wp_ite]
    split
    · rw [wp_bind]
      exact wp_synNetDisconnect fun _ _ _ => (nomatch ·)
    · rw [wp_ite]
      split
      · rw [wp_bind]
        exact wp_mono (handleAll_spec r.events _) (fun _ s₂ h₂ _ => (congrArg SynNet.fd h₂.net).trans h₁) fun _ _ => id
      · exact fun _ => h₁
  exact wp_ok hbody hrun rfl

/-- Not connected, the client does not connect again with another descriptor. -/
def Round.Keeps (r : Round) (s : State) : Prop :=
  r.readable = true → s.ctx.connected = false → ∀ hosts, r.env.connect.attempts = some hosts →
    reconnectFd hosts = s.net.fd

theorem Round.keeps_iff {r : Round} : r.Keeps s ↔ r.fdAfter s = s.net.fd := by
  unfold Round.Keeps Round.fdAfter
  cases r.readable with
  | false => exact iff_of_true (fun h => absurd h Bool.false_ne_true) rfl
  | true =>
    cases s.ctx.connected with
    | true => exact iff_of_true (fun _ h => absurd h.symm Bool.false_ne_true) rfl
    | false =>
      cases r.env.connect.attempts with
      | none => exact iff_of_true (fun _ _ _ => (nomatch ·)) rfl
      | some hosts => exact ⟨fun h => h rfl rfl hosts rfl, fun h _ _ _ heq => Option.some.inj heq ▸ h⟩

/-- The connection is what is polled in every call of `poll` exactly if no round connects again with another
descriptor. -/
theorem polls_live_iff {steps : List (Polling × Round)} {p : Polling}
    (hrun : Run pollAgain (netPollStart s) steps p) :
    (∀ t r, (t, r) ∈ steps → t.Live) ∧ p.Live ↔ ∀ t r, (t, r) ∈ steps → r.Keeps t.syn := by
  induction hrun with
  | nil => exact iff_of_true ⟨fun _ _ => (nomatch ·), rfl⟩ fun _ _ => (nomatch ·)
  | @snoc steps t t' r _ hop ih =>
    obtain ⟨hcopy, hfd⟩ := pollAgain_fd hop
    have hstep : t.Live → (t'.Live ↔ r.Keeps t.syn) := by
      intro hlive
      rw [Round.keeps_iff, Polling.Live, hcopy, hfd, hlive]
      exact eq_comm
    constructor
    · rintro ⟨hsteps, hlast⟩
      have hlive : t.Live := hsteps t r (List.mem_append_right _ (.head _))
      have hkeeps := ih.mp ⟨fun u q hm => hsteps u q (List.mem_append_left _ hm), hlive⟩
      intro u q hm
      rcases List.mem_append.mp hm with hm | hm
      · exact hkeeps u q hm
      · cases List.mem_singleton.mp hm
        exact (hstep hlive).mp hlast
    · intro hkeeps
      have hbefore := ih.mpr fun u q hm => hkeeps u q (List.mem_append_left _ hm)
      refine ⟨fun u q hm => ?_, (hstep hbefore.2).mpr (hkeeps t r (List.mem_append_right _ (.head _)))⟩
      rcases List.mem_append.mp hm with hm | hm
      · exact hbefore.1 u q hm
      · cases List.mem_singleton.mp hm
        exact hbefore.2

/-! ### A server that goes away -/

/-- A round in which the end of the stream is read, or else the server does not accept a connection. -/
def Round.gone : Round := ⟨true, ⟨⟨[], [], 0, fun _ => .smooth, 0⟩, ⟨some [.socket 3 false], 0⟩⟩, 0, []⟩

/-- A round in which the server accepts a connection again, which gets the descriptor 3. -/
def Round.back : Round := ⟨true, ⟨⟨[], [], 0, fun _ => .smooth, 0⟩, ⟨some [.socket 3 true], 0⟩⟩, 0, []⟩

/-- The end of the stream is read, and then the client connects again. -/
theorem polls_live_iff_back : ∃ p q, (pollAgain .gone).run (netPollStart (.opened .sample)) = .ok () p ∧
    (pollAgain .back).run p = .ok () q ∧ p.syn.ctx.connected = false ∧ q.syn.ctx.connected = true ∧ q.Live := by
  obtain ⟨p, q, hgone, hback, hdown, hup, hfd⟩ : ∃ p q,
      (pollAgain .gone).run (netPollStart (.opened .sample)) = .ok () p ∧ (pollAgain .back).run p = .ok () q ∧
        p.syn.ctx.connected = false ∧ q.syn.ctx.connected = true ∧ p.syn.net.fd = 3 :=
    ⟨_, _, rfl, rfl, rfl, rfl, rfl⟩
  refine ⟨p, q, hgone, hback, hdown, hup, ((polls_live_iff ((Run.single hgone).snoc hback)).mpr ?_).2⟩
  intro t r hm
  rcases List.mem_cons.mp hm with ⟨rfl, rfl⟩ | hm
  · exact fun _ hno => Bool.noConfusion hno
  · cases List.mem_singleton.mp hm
    rintro - - hosts heq
    cases heq
    exact hfd.symm

/-- The socket is closed and not replaced, and what is polled has its old number. -/
theorem closed_is_polled : ∃ steps p, Run pollAgain (netPollStart (.opened .sample)) steps p ∧ p.fd = 3 ∧
    p.syn.net.fd = -1 ∧ ¬ p.Live := by
  obtain ⟨p₁, h₁⟩ : ∃ p₁, (pollAgain .gone).run (netPollStart (.opened .sample)) = .ok () p₁ := ⟨_, rfl⟩
  obtain ⟨p₂, h₂, hfd₂, hnet⟩ : ∃ p₂, (pollAgain .gone).run p₁ = .ok () p₂ ∧ p₂.fd = 3 ∧ p₂.syn.net.fd = -1 := by
    cases h₁
    exact ⟨_, rfl, rfl, rfl⟩
  refine ⟨_, p₂, (Run.single h₁).snoc h₂, hfd₂, hnet, ?_⟩
  rw [Polling.Live, hfd₂, hnet]
  decide

end Waynergy
