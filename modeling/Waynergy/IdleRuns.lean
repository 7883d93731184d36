import Waynergy.Clock

/-!
# The idle timeout in a run of `netPoll`

The time that `netPoll` compares the clock with is that of the last round in which the client heard of its server:
bytes arrived after the hello, or a new connection was made. `Watch` is `netPoll` next to a clock that does not wrap.
As `poll` returns every ten seconds, the checks of a run are so close to each other that every one of them is right,
however long the client has been running.
-/

namespace Waynergy
open Lib
variable {s s' : State}

/-! ### What keeps the time -/

def SameTime (s s' : State) : Prop := s'.ctx.lastMessageTime = s.ctx.lastMessageTime

instance : Frame SameTime := ⟨fun _ => rfl, fun h h' => h'.trans h⟩

abbrev KeepsTime {α : Type} (m : Syn α) : Prop := Within SameTime (fun _ => True) m

theorem SameButReply.sameTime (h : SameButReply s s') : SameTime s s' := by
  obtain ⟨⟨b, n, hc⟩, -⟩ := h
  rw [SameTime, hc]

theorem ClipOnly.sameTime (h : ClipOnly s s') : SameTime s s' := by
  obtain ⟨⟨b, n, clip, hc⟩, -⟩ := h
  rw [SameTime, hc]

theorem LocalOnly.sameTime (h : LocalOnly s s') : SameTime s s' := by
  obtain ⟨⟨b, n, clip, width, height, info, hc⟩, -⟩ := h
  rw [SameTime, hc]

namespace KeepsTime
variable {α β : Type}

theorem emits (evs : List Event) : KeepsTime (emits evs) := fun _ => rfl

theorem setCtx {f : Context → Context} (h : ∀ c, (f c).lastMessageTime = c.lastMessageTime) :
    KeepsTime (setCtx f) := fun s => h s.ctx

theorem of_builder {m : Syn Bool} (h : Builder m) : KeepsTime m :=
  fun s => wp_mono (h s) (fun _ _ hs => hs.1.sameTime) fun _ _ => False.elim

theorem of_sends {m : Syn α} {S : Stop → Prop} (h : Within Sends S m) : KeepsTime m :=
  h.mono (fun _ _ hs => hs.same.sameTime) fun _ _ => trivial

theorem of_clipOnly {m : Syn α} {S : Stop → Prop} (h : Within ClipOnly S m) : KeepsTime m :=
  h.mono (fun _ _ => ClipOnly.sameTime) fun _ _ => trivial

theorem reply {m : Syn Bool} (h : Builder m) (sent : Bool) : KeepsTime (reply sent m) :=
  of_sends (sends_reply h sent (S := fun _ => True))

theorem replyCnop (e : MsgEnv) : KeepsTime (replyCnop e) := Within.bind (reply (.sAddBin _) _) fun _ => Within.pure ()

theorem parse {f : Fault} {p : Parse α} {buf : SspBuf} {bad : β} {k : α → SspBuf → Syn β}
    (hk : ∀ a buf, KeepsTime (k a buf)) : KeepsTime (parse f p buf bad k) :=
  within_parse trivial (emits _) hk

theorem notify {e : MsgEnv} {p : Parse α} {callback : Context → α → List Event} {msg : SspBuf} :
    KeepsTime (notify e p callback msg) :=
  parse fun _ _ => Within.read fun _ => Within.bind (emits _) fun _ => replyCnop e

theorem updateJoystick {e : MsgEnv} {j : Nat} {store : Fin numJoysticks → Context → Context}
    (h : ∀ i c, (store i c).lastMessageTime = c.lastMessageTime) : KeepsTime (updateJoystick e j store) := by
  refine Within.bind ?_ fun _ => replyCnop e
  unfold storeJoystick joyIndex
  split
  · exact Within.bind (Within.pure _) fun i => Within.bind (setCtx (h i)) fun _ => Within.read fun _ => emits _
  · exact Within.pure ()

variable (e : MsgEnv) (msg : SspBuf)

theorem sSendReply (sent : Bool) : KeepsTime (sSendReply sent) :=
  fun s => wp_mono (sSendReply_sends sent s) (fun _ _ hs => hs.2.1.same.sameTime) fun _ _ => False.elim

theorem processHello (imp : Bytes) : KeepsTime (processHello e imp msg) := by
  refine parse fun _ _ => Within.bind (setCtx fun _ => rfl) fun _ => Within.read fun _ => Within.bind (of_builder ?_)
    fun _ => Within.ite (Within.bind (sSendReply _) fun _ => Within.ite (setCtx fun _ => rfl)
      (Within.bind (setCtx fun _ => rfl) fun _ => emits _)) (emits _)
  exact (Builder.sAddBin _).and <| (Builder.sAddBin _).and <| (Builder.sAddBin _).and <|
    (Builder.sAddBin _).and (Builder.sAddBin _)

theorem sendGrabbed (i : Fin 2) : KeepsTime (sendGrabbed e i) :=
  Within.read fun _ => Within.ite
    (Within.bind (of_sends (sends_uSynergySendClipboard _ _ _ _)) fun _ => setCtx fun _ => rfl) (Within.pure ())

theorem processCout : KeepsTime (processCout e) :=
  Within.bind (setCtx fun _ => rfl) fun _ => Within.bind (sendGrabbed e 0) fun _ =>
    Within.bind (sendGrabbed e 1) fun _ => Within.read fun _ => Within.bind (emits _) fun _ => replyCnop e

theorem processPkt (p : Pkt) : KeepsTime (processPkt e msg p) := by
  cases p with
  | qinf =>
    exact Within.read fun _ => Within.bind (reply (builder_addDinf _ _) _) fun _ =>
      Within.ite (setCtx fun _ => rfl) (Within.pure ())
  | ciak =>
    unfold Waynergy.processPkt processCiak
    exact setCtx fun _ => rfl
  | crop => exact Within.pure ()
  | cinn =>
    exact parse fun _ _ => Within.bind (setCtx fun _ => rfl) fun _ => Within.read fun _ =>
      Within.bind (emits _) fun _ => replyCnop e
  | cout => exact processCout e
  | csec =>
    unfold Waynergy.processPkt processCsec
    exact notify
  | dmdn =>
    unfold Waynergy.processPkt processDmdn
    exact notify
  | dmup =>
    unfold Waynergy.processPkt processDmup
    exact notify
  | dmmv =>
    unfold Waynergy.processPkt processDmmv
    exact notify
  | dmrm =>
    unfold Waynergy.processPkt processDmrm
    exact notify
  | dmwm =>
    unfold Waynergy.processPkt processDmwm
    exact notify
  | dkdn =>
    unfold Waynergy.processPkt processDkdn
    exact notify
  | dkrp =>
    unfold Waynergy.processPkt processDkrp
    exact notify
  | dkup =>
    unfold Waynergy.processPkt processDkup
    exact notify
  | dgbt | dgst => exact parse fun _ _ => updateJoystick fun _ _ => rfl
  | dsop => exact replyCnop e
  | calv => exact Within.bind (reply (.sAddBin _) _) fun _ => Within.ite (replyCnop e) (Within.pure ())
  | cclp => exact of_clipOnly (ClipOnly.processCclp e msg (S := fun _ => True) trivial trivial)
  | dclp => exact of_clipOnly (ClipOnly.processDclp e msg)
  | cbye | ebad | ebsy => exact setCtx fun _ => rfl

theorem sProcessMessage : KeepsTime (sProcessMessage e msg) := by
  unfold Waynergy.sProcessMessage
  split
  · exact Within.throw trivial
  · exact processHello e _ _
  · refine parse fun pktId msg => ?_
    split
    exacts [processPkt e msg _, Within.pure ()]

end KeepsTime
theorem ditchRead_time (packlen : Nat) (n : Int) (avail : Bytes) : KeepsTime (ditchRead packlen n avail) := by
  intro s
  rw [wp_ditchRead]
  split
  · exact (rfl : _ = _)
  · split
    exacts [(rfl : _ = _), ⟨rfl, trivial⟩]

theorem sameTime_loop : KeptByLoop SameTime where
  message := KeepsTime.sProcessMessage
  told _ _ := rfl
  moved _ _ _ := rfl
  ditched := ditchRead_time

/-! ### What sets it -/

/-- There are bytes to receive, and they count. -/
def State.hears (s : State) (avail : Bytes) : Bool :=
  s.ctx.hasReceivedHello && !(avail.take (receiveBufferSize - s.ctx.receiveOfs : Int).toNat).isEmpty

theorem receive_time (avail : Bytes) (now : Nat) : wp (receive avail now)
    (fun _ s' => s'.ctx.lastMessageTime = if s.hears avail then now else s.ctx.lastMessageTime)
    (fun _ _ => True) s := by
  rw [wp_receive]
  unfold State.hears
  generalize avail.take (receiveBufferSize - s.ctx.receiveOfs : Int).toNat = bs
  cases bs with
  | nil =>
    rw [if_pos rfl, List.isEmpty_nil, Bool.not_true, Bool.and_false, if_neg (by decide)]
    rfl
  | cons b bs =>
    rw [if_neg (List.cons_ne_nil b bs), List.isEmpty_cons, Bool.not_false, Bool.and_true]
    unfold received
    rw [wp_bind, wp_get]
    split
    · rw [wp_bind, wp_setCtx, if_neg (List.cons_ne_nil b bs)]
      cases hhello : s.ctx.hasReceivedHello with
      | true => simp only [if_true, if_neg (List.cons_ne_nil b bs), wp_setCtx]
      | false => exact (rfl : _ = _)
    · trivial

def Attempt.opens : Attempt → Bool
  | .noSocket => false
  | .socket _ ok => ok

theorem synNetDisconnect_time : KeepsTime synNetDisconnect :=
  Within.read fun _ => Within.ite (Within.pure _) (Within.bind (fun _ => rfl) fun _ => Within.pure _)

theorem connectLoop_time (now : Nat) (hosts : List Attempt) : wp (connectLoop now hosts)
    (fun ok s' => ok = hosts.any Attempt.opens ∧
      s'.ctx.lastMessageTime = if hosts.any Attempt.opens then now else s.ctx.lastMessageTime)
    (fun _ _ => True) s := by
  induction hosts generalizing s with
  | nil => exact ⟨rfl, rfl⟩
  | cons a hosts ih =>
    have hnext : ∀ t, SameTime s t → wp (do let _ ← synNetDisconnect; connectLoop now hosts)
        (fun ok s' => ok = hosts.any Attempt.opens ∧
          s'.ctx.lastMessageTime = if hosts.any Attempt.opens then now else s.ctx.lastMessageTime)
        (fun _ _ => True) t := by
      intro t ht
      rw [wp_bind]
      refine wp_mono (synNetDisconnect_time t) (fun _ t' ht' => ?_) fun _ _ _ => trivial
      rw [← ht, ← ht']
      exact ih
    unfold connectLoop
    rw [wp_bind]
    cases a with
    | noSocket => exact hnext _ rfl
    | socket fd ok =>
      cases ok with
      | true => exact ⟨rfl, rfl⟩
      | false => exact hnext _ rfl

def ConnectEnv.opens (e : ConnectEnv) : Bool := (e.attempts.getD []).any Attempt.opens

theorem synConnect_time (e : ConnectEnv) : wp (synConnect e)
    (fun ok s' => ok = e.opens ∧ s'.ctx.lastMessageTime = if e.opens then e.now else s.ctx.lastMessageTime)
    (fun _ _ => True) s := by
  unfold synConnect ConnectEnv.opens
  rw [wp_bind, wp_emits]
  cases e.attempts with
  | none => exact ⟨rfl, rfl⟩
  | some hosts =>
    rw [wp_bind]
    refine wp_mono (synNetDisconnect_time _) (fun _ t ht => ?_) fun _ _ _ => trivial
    rw [Option.getD_some, ← show t.ctx.lastMessageTime = s.ctx.lastMessageTime from ht]
    exact connectLoop_time e.now hosts

/-- The client hears of its server in a round that starts from `s`. -/
def Round.heard (r : Round) (s : State) : Bool :=
  r.readable && if s.ctx.connected then s.hears r.env.update.avail else r.env.connect.opens

theorem Round.read_time (r : Round) (s : State) : wp (if r.readable then uSynergyUpdate r.env else pure ())
    (fun _ s' => s'.ctx.lastMessageTime = if r.heard s then
      (if s.ctx.connected then r.env.update.now else r.env.connect.now) else s.ctx.lastMessageTime)
    (fun _ _ => True) s := by
  unfold Round.heard
  rw [wp_ite]
  split
  · rename_i hread
    unfold uSynergyUpdate
    rw [wp_bind, wp_get, wp_ite, hread, Bool.true_and]
    split
    · unfold sUpdateContext
      rw [wp_bind]
      refine wp_mono (receive_time r.env.update.avail r.env.update.now) (fun ok s₁ h₁ => ?_) fun _ _ => id
      rw [wp_ite]
      split
      · exact wp_mono (sameTime_loop.afterReceive r.env.update s₁) (fun _ _ h => h.trans h₁) fun _ _ _ => trivial
      · exact h₁
    · unfold tryConnect
      rw [wp_bind, wp_get, wp_ite]
      split
      · trivial
      · rw [wp_bind]
        refine wp_mono (synConnect_time r.env.connect) (fun ok s₁ h₁ => ?_) fun _ _ => id
        rw [wp_ite]
        split <;> exact h₁.2
  · rename_i hread
    rw [eq_false_of_ne_true hread, Bool.false_and, if_neg (by decide)]
    exact (rfl : _ = _)

/-! ### A clock that does not wrap -/

/-- A round in which the clock is read while the socket is read, and again for the check. -/
structure TimedRound extends Round where
  read : Reading
  check : Reading
  read_le : read ≤ check
  update_now : env.update.now = synGetTime read.toTimespec
  connect_now : env.connect.now = synGetTime read.toTimespec
  check_now : now = synGetTime check.toTimespec

/-- `netPoll` next to a clock that does not wrap. -/
structure Watch where
  polling : Polling
  /-- the last reading -/
  clock : Reading
  /-- the reading when the client last heard of its server -/
  heard : Reading

/-- The reading when the client last heard of its server, once the socket is read in the round. -/
def Watch.heardBy (w : Watch) (r : TimedRound) : Reading := if r.heard w.polling.syn then r.read else w.heard

/-- From one call of `poll` to the next. -/
def watch (r : TimedRound) : Proc (Option Stop) Watch Unit := do
  let w ← get
  zoom Watch.polling (fun p w => { w with polling := p }) (pollAgain r.toRound)
  modify fun w' => { w' with clock := r.check, heard := w.heardBy r }

theorem wp_watch {r : TimedRound} {Q : Unit → Watch → Prop} {E : Option Stop → Watch → Prop} {w : Watch} :
    wp (watch r) Q E w ↔ wp (pollAgain r.toRound) (fun _ p => Q () ⟨p, r.check, w.heardBy r⟩)
      (fun e p => E e { w with polling := p }) w.polling := by
  unfold watch
  rw [wp_bind, wp_get, wp_bind, wp_zoom]
  rfl

/-- The clock did not go back since `t`, and it was read again before long: `poll` returns after ten seconds. -/
structure TimedRound.Follows (r : TimedRound) (t : Reading) : Prop where
  le : t ≤ r.read
  soon : r.check.millis - t.millis < 2 ^ 31 - 10000

/-- The last message is as old as the clock that does not wrap says, and not too old. -/
structure Watch.Told (w : Watch) : Prop where
  last : w.polling.syn.ctx.lastMessageTime = synGetTime w.heard.toTimespec
  le : w.heard ≤ w.clock
  recent : w.clock.millis - w.heard.millis ≤ 10000

/-- If `poll` is called again, the check did not find the last message too old. -/
theorem pollRest_again (r : Round) (s : State) : wp (pollRest r)
    (fun again s' => again = true → SameTime s s' ∧ elapsed r.now s.ctx.lastMessageTime ≤ idleTimeout)
    (fun _ _ => True) s := by
  unfold pollRest
  rw [wp_bind, wp_get, wp_ite]
  split
  · rw [wp_bind]
    exact wp_mono (synNetDisconnect_time s) (fun _ _ _ => (nomatch ·)) fun _ _ _ => trivial
  · rename_i hlate
    have hnot := Int.not_lt.mp hlate
    rw [wp_ite]
    split
    · rw [wp_bind]
      exact wp_mono (handleAll_spec r.events s) (fun _ _ h _ => ⟨h.sameTime, hnot⟩) fun _ _ => id
    · exact fun _ => ⟨rfl, hnot⟩

section
variable {w w' : Watch} {r : TimedRound} (h : w.Told) (hr : r.Follows w.clock)
include h hr

/-- What the check of a round finds, once the socket is read. -/
theorem Watch.Told.read (hread : (if r.readable then uSynergyUpdate r.env else pure () : Syn Unit).run w.polling.syn =
    .ok () s') : s'.ctx.lastMessageTime = synGetTime (w.heardBy r).toTimespec ∧ w.heardBy r ≤ r.check ∧
      r.check.millis - (w.heardBy r).millis < 2 ^ 31 := by
  have htime := wp_ok (r.toRound.read_time w.polling.syn) hread
  have hle := Reading.millis_le hr.le
  have hsoon := hr.soon
  have hrecent := h.recent
  unfold Watch.heardBy
  cases hheard : r.heard w.polling.syn with
  | true =>
    rw [hheard, if_pos rfl, r.update_now, r.connect_now, ite_self] at htime
    refine ⟨htime, r.read_le, ?_⟩
    show r.check.millis - r.read.millis < 2 ^ 31
    omega
  | false =>
    rw [hheard, if_neg (by decide), h.last] at htime
    refine ⟨htime, h.le.trans (hr.le.trans r.read_le), ?_⟩
    show r.check.millis - w.heard.millis < 2 ^ 31
    omega

theorem Watch.Told.step (hstep : (watch r).run w = .ok () w') : w'.Told := by
  have hbody : wp (pollBody r.toRound)
      (fun again s' => again = true → Watch.Told ⟨⟨s', w.polling.fd⟩, r.check, w.heardBy r⟩) (fun _ _ => True)
      w.polling.syn := by
    rw [pollBody_eq, wp_bind]
    refine wp_mono (wp_run (wp_true _ _)) (fun _ s₁ ⟨_, hread⟩ => ?_) fun _ _ _ => trivial
    obtain ⟨hlast, hle, hlt⟩ := h.read hr hread
    refine wp_mono (pollRest_again r.toRound s₁) (fun again s₂ hagain htrue => ?_) fun _ _ => id
    obtain ⟨hsame, hcheck⟩ := hagain htrue
    rw [hlast, r.check_now, elapsed_synGetTime hle hlt] at hcheck
    exact ⟨hsame.trans hlast, hle, hcheck⟩
  refine wp_ok (Q := fun _ w' => w'.Told) (E := fun _ _ => True) (wp_watch.mpr ?_) hstep
  refine wp_mono (wp_run (wp_true (pollAgain r.toRound) w.polling)) ?_ fun _ _ _ => trivial
  rintro _ ⟨s', fd⟩ ⟨-, hpoll⟩
  obtain ⟨hrun, rfl⟩ := pollAgain_ok.mp hpoll
  exact wp_ok hbody hrun rfl

end

variable {w₀ w : Watch} {steps : List (Watch × TimedRound)}

theorem told_of_run (h : w₀.Told) (hrun : Run watch w₀ steps w)
    (hclock : ∀ v r, (v, r) ∈ steps → r.Follows v.clock) : w.Told :=
  hrun.invariant h fun v r _ hm hv hstep => hv.step (hclock v r hm) hstep

/-- Without the clock, it is a run of rounds of `netPoll`. -/
theorem polling_of_run (hrun : Run watch w₀ steps w) :
    Run pollAgain w₀.polling (steps.map fun q => (q.1.polling, q.2.toRound)) w.polling := by
  induction hrun with
  | nil => exact .nil
  | @snoc steps w w' r _ hop ih =>
    rw [List.map_append]
    refine ih.snoc ?_
    refine wp_ok (Q := fun _ w' => (pollAgain r.toRound).run w.polling = .ok () w'.polling) (E := fun _ _ => True)
      (wp_watch.mpr ?_) hop
    exact wp_mono (wp_run (wp_true _ _)) (fun _ _ h => h.2) fun _ _ _ => trivial

/-- A run starts when `tryConnect` has made a connection. -/
theorem told_of_connect {e : ConnectEnv} {t : Reading} (hnow : e.now = synGetTime t.toTimespec)
    (hrun : (synConnect e).run s = .ok true s') :
    Watch.Told ⟨netPollStart { s' with ctx := { s'.ctx with connected := true } }, t, t⟩ := by
  obtain ⟨hopens, htime⟩ := wp_ok (synConnect_time e) hrun
  rw [← hopens, if_pos rfl, hnow] at htime
  refine ⟨htime, le_rfl, ?_⟩
  show t.millis - t.millis ≤ 10000
  omega

/-- After every run of rounds, the next round disconnects for the timeout exactly if the client did not hear of its
server for more than ten seconds. -/
theorem netPoll_idle_of_run {s₀ : State} {t u : Reading} (h : Watch.Told ⟨netPollStart s₀, t, u⟩)
    (hrun : Run watch ⟨netPollStart s₀, t, u⟩ steps w) (hclock : ∀ v r, (v, r) ∈ steps → r.Follows v.clock)
    {r : TimedRound} (hr : r.Follows w.clock)
    (hread : (if r.readable then uSynergyUpdate r.env else pure () : Syn Unit).run w.polling.syn = .ok () s')
    (timedOut : Bool) (rounds : List Round) :
    (netPoll timedOut (steps.map (·.2.toRound) ++ r.toRound :: rounds)).run s₀ =
      (if r.check.millis - (w.heardBy r).millis > 10000 then do
        let _ ← synNetDisconnect
        pure ()
      else do
        if s'.ctx.connected then handleAll r.events else pure ()
        netPoll timedOut rounds : Syn Unit).run s' := by
  have hbefore := netPoll_of_run (polling_of_run hrun) timedOut (r.toRound :: rounds)
  rw [List.map_map] at hbefore
  obtain ⟨hlast, hle, hlt⟩ := (told_of_run h hrun hclock).read hr hread
  rw [← netPoll_late hle hlt hread hlast r.check_now]
  exact hbefore

/-- The reading after some milliseconds. -/
def Reading.ofMillis (n : Nat) : Reading where
  sec := (n / 1000 : Nat)
  nsec := (n % 1000 * 1000000 : Nat)
  nsec_nonneg := Int.natCast_nonneg _
  nsec_lt := by omega

/-- A round in which the socket is not readable, after some milliseconds. -/
def TimedRound.silent (n : Nat) : TimedRound where
  readable := false
  env := ⟨⟨[], [], synGetTime (Reading.ofMillis n).toTimespec, fun _ => .smooth, 0⟩,
    ⟨none, synGetTime (Reading.ofMillis n).toTimespec⟩⟩
  now := synGetTime (Reading.ofMillis n).toTimespec
  events := []
  read := .ofMillis n
  check := .ofMillis n
  read_le := le_rfl
  update_now := rfl
  connect_now := rfl
  check_now := rfl

/-- Nothing is heard for nine seconds, and then for one second and a millisecond more. -/
theorem netPoll_idle_of_run_silent : (netPoll false [(TimedRound.silent 9000).toRound,
    (TimedRound.silent 10001).toRound]).run (.opened .sample) =
      (do let _ ← synNetDisconnect; pure () : Syn Unit).run (.opened .sample) := by
  let w₀ : Watch := ⟨netPollStart (.opened .sample), .ofMillis 0, .ofMillis 0⟩
  have hconnect : (synConnect ⟨some [.socket 3 true], 0⟩).run (.init .sample) =
      .ok true { State.init .sample with net := ⟨3⟩, out := [.connect] } := rfl
  have htold : w₀.Told := told_of_connect rfl hconnect
  have hrest : (pollRest (TimedRound.silent 9000).toRound).run (.opened .sample) = .ok true (.opened .sample) := by
    unfold pollRest
    rw [run_bind_ok (EStateM.run_get _), if_neg (by decide)]
    rfl
  have hpoll : (pollAgain (TimedRound.silent 9000).toRound).run w₀.polling = .ok () w₀.polling :=
    pollAgain_ok.mpr ⟨hrest, rfl⟩
  have hwatch : wp (watch (.silent 9000)) (fun _ w => w = ⟨w₀.polling, .ofMillis 9000, .ofMillis 0⟩)
      (fun _ _ => False) w₀ := wp_watch.mpr (wp_of_ok hpoll rfl)
  obtain ⟨_, w₁, hstep, rfl⟩ := exists_ok_of_wp hwatch
  have hfirst : (TimedRound.silent 9000).Follows w₀.clock := ⟨by decide, by decide⟩
  have hnext : (TimedRound.silent 10001).Follows (.ofMillis 9000) := ⟨by decide, by decide⟩
  have hclock : ∀ v r, (v, r) ∈ [(w₀, TimedRound.silent 9000)] → r.Follows v.clock := by
    intro v r hm
    cases List.mem_singleton.mp hm
    exact hfirst
  exact netPoll_idle_of_run htold (Run.single hstep) hclock hnext rfl false []

end Waynergy
