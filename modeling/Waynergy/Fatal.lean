import Waynergy.Isolation

/-!
# Errors that are fatal (`uSynergyUpdate`)

What an operation does to the last error: it is written where a connection is lost, by all ways but those of
`netPoll`, and read where there is none. With a connection it is never a fatal one, so a loss that is not written
is never taken as fatal.
-/

namespace Waynergy
open Lib
variable {s s' : State} {op : Op} {cfg : Config}

/-- The last error is fatal for `uSynergyUpdate`, which does not look at the code 0. -/
def Context.GaveUp (c : Context) : Prop := c.lastError.code > 0 ∧ c.errorIsFatal c.lastError = true

instance (c : Context) : Decidable c.GaveUp := inferInstanceAs (Decidable (_ ∧ _))

/-- The error that a farewell stands for. -/
def Pkt.farewell : Pkt → Option SynError
  | .cbye => some .none
  | .ebad => some .ebad
  | .ebsy => some .ebsy
  | _ => none

/-- Why an operation loses the connection, if it does. A hello that cannot be answered has no reason of its own. -/
def Op.reason : Op → Option SynError
  | .message _ mem len => (msgPkt ⟨mem, 0, len⟩).bind Pkt.farewell
  | .receive .. | .ditch .. | .netDisconnect => some .timeout
  | _ => none

/-- The last error after the loss. -/
def Op.written : Op → SynError → SynError
  | .netDisconnect, last => last
  | op, last => op.reason.getD last

/-! ### The last error -/

/-- The last error, and what is fatal, are as before. -/
structure SameError (s s' : State) : Prop where
  lastError : s'.ctx.lastError = s.ctx.lastError
  fatal : s'.ctx.errorIsFatal = s.ctx.errorIsFatal

instance : Frame SameError where
  refl _ := ⟨rfl, rfl⟩
  trans h h' := ⟨h'.lastError.trans h.lastError, h'.fatal.trans h.fatal⟩

/-- What becomes of the connection and of the last error; `last` is the error that a loss writes. -/
inductive Fate (last : SynError) (s s' : State) : Prop
  | stays (connected : s'.ctx.connected = s.ctx.connected) (same : SameError s s')
  | loses (up : s.ctx.connected = true) (down : s'.ctx.connected = false) (err : s'.ctx.lastError = last)
      (fatal : s'.ctx.errorIsFatal = s.ctx.errorIsFatal)
  | connects (down : s.ctx.connected = false) (hold : ¬ s.ctx.GaveUp) (same : SameError s s')

variable {last : SynError}

theorem Fate.refl (s : State) : Fate last s s := .stays rfl (Frame.refl s)

theorem Plain.fate (h : Plain s s') : Fate last s s' :=
  .stays h.ctx.connected ⟨h.ctx.lastError, congrArg Config.errorIsFatal h.ctx.cfg⟩

theorem ClipOnly.fate (h : ClipOnly s s') : Fate last s s' := by
  obtain ⟨⟨b, n, clip, hc⟩, -, -⟩ := h
  exact .stays (by rw [hc]) ⟨by rw [hc], by rw [hc]⟩

theorem Left.fate (h : Left s s') : Fate last s s' := by
  obtain ⟨⟨b, n, hc⟩, -, -⟩ := h
  exact .stays (by rw [hc]) ⟨by rw [hc], by rw [hc]⟩

theorem Lost.fate (up : s.ctx.connected = true) (h : Lost s s') : Fate s.ctx.lastError s s' := by
  obtain ⟨⟨b, hc⟩, -, -⟩ := h
  exact .loses up (by rw [hc]) (by rw [hc]) (by rw [hc])

theorem fate_disconnect (up : s.ctx.connected = true) (err : SynError) :
    Fate err s { s with ctx := s.ctx.disconnect err } := .loses up rfl rfl rfl

/-! ### Messages -/

theorem processPkt_fate (e : MsgEnv) (msg : SspBuf) (p : Pkt) (up : s.ctx.connected = true) :
    wp (processPkt e msg p) (fun _ s' => Fate (p.farewell.getD s.ctx.lastError) s s') (fun _ _ => True) s := by
  by_cases hp : p.Special
  · cases p with
    | cout => exact wp_mono (processCout_spec e s) (fun _ _ h => h.fate) fun _ _ _ => trivial
    | cclp =>
      have hclip := ClipOnly.processCclp (S := MessageStop) e msg trivial trivial
      exact wp_mono (hclip s) (fun _ _ h => h.fate) fun _ _ _ => trivial
    | dclp => exact wp_mono (ClipOnly.processDclp e msg s) (fun _ _ h => h.fate) fun _ _ _ => trivial
    | cbye | ebad | ebsy => exact fate_disconnect up _
    | _ => exact absurd hp (by decide)
  · exact wp_mono (IsPlain.processPkt e msg hp s) (fun _ _ h => h.fate) fun _ _ _ => trivial

theorem sProcessMessage_fate (e : MsgEnv) (msg : SspBuf) (up : s.ctx.connected = true) :
    wp (sProcessMessage e msg)
      (fun _ s' => Fate (((msgPkt msg).bind Pkt.farewell).getD s.ctx.lastError) s s') (fun _ _ => True) s := by
  refine wp_sProcessMessage (fun imp rest hw => ?_) (fun p rest _ hpkt => ?_) (fun _ _ => .refl s)
    fun _ _ => .stays rfl ⟨rfl, rfl⟩
  · unfold msgPkt
    rw [hw]
    refine wp_mono (processHello_spec e imp rest s) (fun _ s' h => ?_) fun _ _ _ => trivial
    exact h.elim Plain.fate fun h => h.2.fate up
  · rw [hpkt]
    exact processPkt_fate e rest p up

/-! ### Receiving -/

theorem fate_timedOut (up : s.ctx.connected = true) : Fate .timeout s s.timedOut := .loses up rfl rfl rfl

theorem receive_fate (avail : Bytes) (now : Nat) (up : s.ctx.connected = true) :
    wp (receive avail now) (fun _ s' => Fate .timeout s s') (fun _ _ => True) s := by
  rw [wp_receive]
  split
  · exact fate_timedOut up
  · rename_i hbs
    refine wp_mono (received_some hbs now) ?_ fun _ _ => id
    rintro _ _ ⟨b, t, rfl⟩
    exact .stays rfl ⟨rfl, rfl⟩

theorem ditchRead_fate (packlen : Nat) (n : Int) (avail : Bytes) (up : s.ctx.connected = true) :
    wp (ditchRead packlen n avail) (fun _ s' => Fate .timeout s s') (fun _ _ => True) s := by
  rw [wp_ditchRead]
  split
  · exact fate_timedOut up
  · split
    · exact .stays rfl ⟨rfl, rfl⟩
    · trivial

/-! ### Connecting -/

theorem SameError.byNet : KeptByNet SameError where
  closed _ := ⟨rfl, rfl⟩
  opened _ _ := ⟨rfl, rfl⟩
  timed _ _ := ⟨rfl, rfl⟩
  tried _ := ⟨rfl, rfl⟩

theorem tryConnect_fate (e : ConnectEnv) (down : s.ctx.connected = false) :
    wp (tryConnect e) (fun _ s' => Fate last s s') (fun _ _ => True) s := by
  unfold tryConnect
  rw [wp_bind, wp_get, wp_ite]
  split
  · trivial
  · rename_i hold
    rw [wp_bind]
    refine wp_mono (SameError.byNet.synConnect (S := fun _ => True) e s) (fun ok s₁ h => ?_) fun _ _ _ => trivial
    cases ok <;> exact .connects down hold ⟨h.lastError, h.fatal⟩

theorem synNetDisconnect_fate : wp synNetDisconnect (fun _ s' => Fate s.ctx.lastError s s') (fun _ _ => True) s := by
  unfold synNetDisconnect
  simp only [wp_bind, wp_get, wp_ite, wp_modify, wp_pure]
  split
  · exact .refl s
  · cases hup : s.ctx.connected
    · exact .stays hup.symm ⟨rfl, rfl⟩
    · exact .loses hup rfl rfl rfl

/-! ### Local updates -/

theorem updateClipBuf_fate (h : Heap) (sent : Bool) (i : Fin 2) (data : Bytes) :
    wp (uSynergyUpdateClipBuf h sent i data) (fun _ s' => Fate last s s') (fun _ _ => True) s := by
  refine wp_mono (updateClipBuf_spec h sent i data s) ?_ fun _ _ _ => trivial
  rintro _ s' (⟨-, rfl⟩ | ⟨-, buf, -, -, hsends, -⟩)
  · exact .refl s'
  · exact (Frame.trans (ClipOnly.of_setSlot i s _) (ClipOnly.of_sends hsends)).fate

theorem updateRes_fate (sent : Bool) (width height : Int) :
    wp (uSynergyUpdateRes sent width height) (fun _ s' => Fate last s s') (fun _ _ => True) s := by
  refine wp_mono (uSynergyUpdateRes_spec sent width height s) ?_ fun _ _ => False.elim
  rintro _ _ ⟨t, hsends, rfl⟩
  obtain ⟨⟨⟨b, n, hc⟩, -⟩, -⟩ := hsends
  refine .stays ?_ ⟨?_, ?_⟩
  · show t.ctx.connected = _
    rw [hc]
  · show t.ctx.lastError = _
    rw [hc]
  · show t.ctx.errorIsFatal = _
    rw [hc]

/-! ### Every operation -/

theorem whenConnected_fate {m : Syn Unit} (h : s.ctx.connected = true →
    wp m (fun _ s' => Fate last s s') (fun _ _ => True) s) :
    wp (whenConnected m) (fun _ s' => Fate last s s') (fun _ _ => True) s := by
  rw [wp_whenConnected]
  split
  · rename_i hup
    exact h hup
  · exact .refl s

theorem fate_spec (op : Op) (s : State) :
    wp op.exec (fun _ s' => Fate (op.written s.ctx.lastError) s s') (fun _ _ => True) s := by
  cases op with
  | connect e =>
    rw [wp_connect]
    split
    · exact .refl s
    · rename_i hdown
      exact tryConnect_fate e (eq_false_of_ne_true hdown)
  | receive avail now =>
    exact whenConnected_fate fun hup => (wp_bind _ _).2 <|
      wp_mono (receive_fate avail now hup) (fun _ _ h => h) fun _ _ => id
  | message e mem len =>
    refine whenConnected_fate fun hup => ?_
    unfold handMessage
    simp only [wp_bind, wp_get, wp_emits]
    refine wp_mono (sProcessMessage_fate e _ hup) (fun _ s' h => ?_) fun _ _ => id
    cases h with
    | stays connected same => exact .stays connected ⟨same.lastError, same.fatal⟩
    | loses up down err fatal => exact .loses up down err fatal
    | connects down => exact absurd hup (by rw [down]; decide)
  | consume packlen =>
    refine whenConnected_fate fun _ => ?_
    unfold consume
    simp only [wp_bind, wp_get, wp_ite, wp_throw, wp_emits, wp_setCtx]
    split
    · trivial
    · exact .stays rfl ⟨rfl, rfl⟩
  | ditch packlen n avail =>
    exact whenConnected_fate fun hup => (wp_bind _ _).2 <|
      wp_mono (ditchRead_fate packlen n avail hup) (fun _ _ h => h) fun _ _ => id
  | resetReceive => exact .stays rfl ⟨rfl, rfl⟩
  | netDisconnect => exact (wp_bind _ _).2 (wp_mono synNetDisconnect_fate (fun _ _ h => h) fun _ _ => id)
  | updateClipBuf h sent i data => exact updateClipBuf_fate h sent i data
  | updateRes sent width height => exact updateRes_fate sent width height

variable {steps : List (State × Op)}

theorem fatal_of_run (hrun : Run Op.exec (State.init cfg) steps s) : s.ctx.errorIsFatal = cfg.errorIsFatal := by
  refine hrun.invariant (P := fun s => s.ctx.errorIsFatal = cfg.errorIsFatal) rfl fun t op t' _ h hop => ?_
  cases wp_ok (fate_spec op t) hop with
  | stays _ same | connects _ _ same => exact same.fatal.trans h
  | loses _ _ _ fatal => exact fatal.trans h

theorem SameError.gaveUp_iff (h : SameError s s') : s'.ctx.GaveUp ↔ s.ctx.GaveUp := by
  unfold Context.GaveUp
  rw [h.lastError, h.fatal]

theorem not_gaveUp_of_run (hrun : Run Op.exec (State.init cfg) steps s) (up : s.ctx.connected = true) :
    ¬ s.ctx.GaveUp := by
  refine hrun.invariant (P := fun s => s.ctx.connected = true → ¬ s.ctx.GaveUp) ?_ ?_ up
  · exact (nomatch ·)
  · intro t op t' _ h hop up'
    cases wp_ok (fate_spec op t) hop with
    | stays connected same => rw [same.gaveUp_iff]; exact h (connected ▸ up')
    | loses _ down => rw [down] at up'; cases up'
    | connects _ hold same => rwa [same.gaveUp_iff]

/-! ### Without a connection -/

/-- There is no connection, the last error is as before, and none was attempted. -/
structure Rests (s s' : State) : Prop extends SameError s s' where
  down : s'.ctx.connected = false
  out : ∃ evs, s'.out = s.out ++ evs ∧ .connect ∉ evs

theorem Rests.refl (down : s.ctx.connected = false) : Rests s s := ⟨⟨rfl, rfl⟩, down, [], by simp, by simp⟩

theorem Rests.trans {s'' : State} (h : Rests s s') (h' : Rests s' s'') : Rests s s'' := by
  obtain ⟨evs, ho, hno⟩ := h.out
  obtain ⟨evs', ho', hno'⟩ := h'.out
  refine ⟨Frame.trans h.toSameError h'.toSameError, h'.down, evs ++ evs', by rw [ho', ho, List.append_assoc], ?_⟩
  rw [List.mem_append, not_or]
  exact ⟨hno, hno'⟩

theorem no_connect {ok : Event → Prop} (h : Grows ok s s') (hok : ¬ ok .connect) :
    ∃ evs, s'.out = s.out ++ evs ∧ .connect ∉ evs := by
  obtain ⟨evs, ho, he, -⟩ := h
  exact ⟨evs, ho, fun hm => hok (he _ hm)⟩

/-- Without a connection, nothing but a connection attempt does anything to it. -/
theorem rests_spec (down : s.ctx.connected = false) (hop : ∀ e, op ≠ .connect e) :
    wp op.exec (fun _ s' => Rests s s') (fun _ _ => True) s := by
  have hidle : ∀ m, wp (whenConnected m) (fun _ s' => Rests s s') (fun _ _ => True) s := by
    intro m
    rw [wp_whenConnected, if_neg (by rw [down]; decide)]
    exact .refl down
  cases op with
  | connect e => exact absurd rfl (hop e)
  | receive | message | consume | ditch => exact hidle _
  | resetReceive => exact ⟨⟨rfl, rfl⟩, down, [], (List.append_nil _).symm, by simp⟩
  | netDisconnect =>
    unfold Op.exec synNetDisconnect
    simp only [wp_bind, wp_get, wp_ite, wp_modify, wp_pure]
    split
    · exact .refl down
    · exact ⟨⟨rfl, rfl⟩, rfl, [], (List.append_nil _).symm, by simp⟩
  | updateClipBuf h sent i data =>
    refine wp_mono (updateClipBuf_spec h sent i data s) ?_ fun _ _ _ => trivial
    rintro _ s' (⟨-, rfl⟩ | ⟨-, buf, -, -, hsends, -⟩)
    · exact .refl down
    · have hclip := Frame.trans (ClipOnly.of_setSlot i s _) (ClipOnly.of_sends hsends)
      obtain ⟨evs, ho, hno⟩ := no_connect hclip.out id
      obtain ⟨⟨b, n, clip, hc⟩, -, -⟩ := hclip
      exact ⟨⟨by rw [hc], by rw [hc]⟩, by rw [hc]; exact down, evs, ho, hno⟩
  | updateRes sent width height =>
    refine wp_mono (uSynergyUpdateRes_spec sent width height s) ?_ fun _ _ => False.elim
    rintro _ _ ⟨t, hsends, rfl⟩
    obtain ⟨evs, ho, hno⟩ := no_connect hsends.out id
    obtain ⟨⟨⟨b, n, hc⟩, -⟩, -⟩ := hsends
    refine ⟨⟨?_, ?_⟩, ?_, evs, ho, hno⟩
    · show t.ctx.lastError = _
      rw [hc]
    · show t.ctx.errorIsFatal = _
      rw [hc]
    · show t.ctx.connected = _
      rw [hc]
      exact down

/-- Nothing more happens but that an update exits. -/
def GivesUp (s : State) : Prop :=
  ∀ steps u, Run Op.exec s steps u → u.ctx.connected = false ∧ (∃ evs, u.out = s.out ++ evs ∧ .connect ∉ evs) ∧
    ∀ e, (uSynergyUpdate e).run u = .error .exit u

/-- As long as there was no attempt to connect again, an update makes one. -/
def TriesAgain (s : State) : Prop :=
  ∀ steps u, Run Op.exec s steps u → (∀ t op, (t, op) ∈ steps → ∀ e, op ≠ .connect e) →
    ∀ e, wp (uSynergyUpdate e) (fun _ u' => ∃ evs, u'.out = u.out ++ .connect :: evs) (fun _ _ => False) u

/-- What has to follow a loss for the reason `e`. -/
def Obeys (fatal : SynError → Bool) (e : SynError) (s : State) : Prop :=
  (fatal e = true → GivesUp s) ∧ (fatal e = false → TriesAgain s)

theorem tryConnect_gaveUp (h : s.ctx.GaveUp) (e : ConnectEnv) : (tryConnect e).run s = .error .exit s := by
  have hwp : wp (tryConnect e) (fun _ _ => False) (fun stop s' => stop = .exit ∧ s' = s) s := by
    have h' : s.ctx.lastError.code > 0 ∧ s.ctx.errorIsFatal s.ctx.lastError = true := h
    unfold tryConnect
    rw [wp_bind, wp_get, wp_ite, if_pos h']
    exact ⟨rfl, rfl⟩
  unfold wp at hwp
  split at hwp
  · exact hwp.elim
  · rename_i heq
    rw [heq, hwp.1, hwp.2]

theorem run_uSynergyUpdate (down : s.ctx.connected = false) (e : SynEnv) :
    (uSynergyUpdate e).run s = (tryConnect e.connect).run s := by
  unfold uSynergyUpdate
  rw [EStateM.run_bind]
  show (if s.ctx.connected then sUpdateContext e.update else tryConnect e.connect).run s = _
  rw [down]
  rfl

theorem givesUp_of_gaveUp (down : s.ctx.connected = false) (h : s.ctx.GaveUp) : GivesUp s := by
  intro steps u hrun
  have hrests : Rests s u := by
    refine hrun.invariant (P := fun u => Rests s u) (.refl down) fun t op t' _ ht hop => ?_
    have hgave := ht.gaveUp_iff.mpr h
    refine ht.trans (wp_ok (Q := fun _ t' => Rests t t') (rests_spec ht.down fun e he => ?_) hop)
    -- an attempt would exit
    rw [he] at hop
    have hwp : wp (Op.connect e).exec (fun _ _ => False) (fun _ _ => True) t := by
      unfold Op.exec
      rw [wp_bind, wp_get, if_neg (by rw [ht.down]; decide), wp, tryConnect_gaveUp hgave]
      trivial
    exact wp_ok hwp hop
  refine ⟨hrests.down, hrests.out, fun e => ?_⟩
  rw [run_uSynergyUpdate hrests.down]
  exact tryConnect_gaveUp (hrests.gaveUp_iff.mpr h) _

theorem synConnect_connects (e : ConnectEnv) : wp (synConnect e)
    (fun _ s' => ∃ evs, s'.out = s.out ++ .connect :: evs) (fun _ _ => False) s := by
  unfold synConnect
  rw [wp_bind, wp_emits]
  have grown : ∀ {s₁}, Quiet { s with out := s.out ++ [.connect] } s₁ → ∃ evs, s₁.out = s.out ++ .connect :: evs := by
    intro s₁ h
    obtain ⟨evs, ho, -⟩ := h.out
    exact ⟨evs, by rw [ho]; simp⟩
  cases e.attempts with
  | none => exact ⟨[], rfl⟩
  | some hostinfo =>
    have hquiet : Within Quiet (fun _ : Stop => False)
        (synNetDisconnect >>= fun _ => connectLoop e.now hostinfo) :=
      Within.bind Quiet.byNet.synNetDisconnect fun _ => Quiet.byNet.connectLoop _ _
    exact wp_mono (hquiet _) (fun _ _ h => grown h) fun _ _ h => h.2

theorem triesAgain_of_not_gaveUp (down : s.ctx.connected = false) (h : ¬ s.ctx.GaveUp) : TriesAgain s := by
  intro steps u hrun hnone e
  have hrests : Rests s u :=
    hrun.invariant (P := fun u => Rests s u) (.refl down) fun t op t' hm ht hop =>
      ht.trans (wp_ok (Q := fun _ t' => Rests t t') (rests_spec ht.down (hnone t op hm)) hop)
  rw [wp, run_uSynergyUpdate hrests.down]
  show wp (tryConnect e.connect) (fun _ u' => ∃ evs, u'.out = u.out ++ .connect :: evs) (fun _ _ => False) u
  have hold : ¬ (u.ctx.lastError.code > 0 ∧ u.ctx.errorIsFatal u.ctx.lastError = true) := fun hg =>
    h (hrests.gaveUp_iff.mp hg)
  unfold tryConnect
  rw [wp_bind, wp_get, if_neg hold, wp_bind]
  refine wp_mono (synConnect_connects e.connect) ?_ fun _ _ => id
  rintro ok u₁ ⟨evs, ho⟩
  cases ok with
  | true => exact ⟨evs, ho⟩
  | false =>
    refine ⟨evs ++ [.sleep 1000], ?_⟩
    show u₁.out ++ _ = _
    rw [ho, List.append_assoc]
    rfl

/-- The next update does what the last error says. -/
theorem obeys_iff {fatal : SynError → Bool} {e : SynError} (down : s.ctx.connected = false) :
    Obeys fatal e s ↔ (fatal e = true ↔ s.ctx.GaveUp) := by
  have hupdate : SynEnv := ⟨⟨[], [], 0, fun _ => .smooth, 0⟩, ⟨none, 0⟩⟩
  have hnot : GivesUp s → ¬ TriesAgain s := by
    intro hgives htries
    have hexit := (hgives [] s .nil).2.2 hupdate
    have htry := htries [] s .nil (by simp) hupdate
    rwa [wp, hexit] at htry
  constructor
  · rintro ⟨hfatal, hother⟩
    constructor
    · intro he
      by_contra hg
      exact hnot (hfatal he) (triesAgain_of_not_gaveUp down hg)
    · intro hg
      by_contra he
      exact hnot (givesUp_of_gaveUp down hg) (hother (eq_false_of_ne_true he))
  · intro h
    refine ⟨fun he => givesUp_of_gaveUp down (h.mp he), fun he => triesAgain_of_not_gaveUp down fun hg => ?_⟩
    rw [h.mpr hg] at he
    cases he

/-- A loss is not heeded if it is written as an error of code 0, or not written. -/
def Op.Unheeded (op : Op) (e : SynError) : Prop := e = .none ∨ op = .netDisconnect

theorem Op.written_of_reason {e : SynError} (h : op.reason = some e) (hop : op ≠ .netDisconnect) {last : SynError} :
    op.written last = e := by
  cases op with
  | netDisconnect => exact absurd rfl hop
  | _ => simp only [Op.written, h, Option.getD_some]

theorem Op.code_of_reason {e : SynError} (h : op.reason = some e) : e = .none ∨ e.code > 0 := by
  have hfarewell : ∀ p : Pkt, ∀ e, p.farewell = some e → e = .none ∨ e.code > 0 := by
    intro p e he
    cases p <;> cases he <;> decide
  cases op with
  | message e mem len =>
    obtain ⟨p, -, hp⟩ := Option.bind_eq_some_iff.mp h
    exact hfarewell p _ hp
  | receive | ditch | netDisconnect =>
    cases h
    decide
  | _ => cases h

/-- In every run, a loss is followed by what is configured for it, unless it is configured as fatal and is a CBYE
or a timeout of `netPoll`. -/
theorem fatal_obeyed_iff (hrun : Run Op.exec (State.init cfg) steps s) {t t' : State} {e : SynError}
    (hm : (t, op) ∈ steps) (hop : op.exec.run t = .ok () t') (hends : Ends t t') (hreason : op.reason = some e) :
    Obeys cfg.errorIsFatal e t' ↔ ¬ (cfg.errorIsFatal e = true ∧ op.Unheeded e) := by
  obtain ⟨pre, post, -, hpre⟩ := hrun.before_step hm
  obtain ⟨hup, hdown⟩ := hends
  have hfatal := fatal_of_run (hpre.snoc hop)
  have hhold := not_gaveUp_of_run hpre hup
  have hlast : t'.ctx.lastError = op.written t.ctx.lastError := by
    cases wp_ok (fate_spec op t) hop with
    | loses _ _ err => exact err
    | stays connected => rw [connected, hup] at hdown; cases hdown
    | connects down => rw [hup] at down; cases down
  rw [obeys_iff hdown]
  have hgave : t'.ctx.GaveUp ↔ (op.written t.ctx.lastError).code > 0 ∧
      cfg.errorIsFatal (op.written t.ctx.lastError) = true := by
    rw [Context.GaveUp, hlast, hfatal]
  rw [hgave]
  by_cases hnet : op = .netDisconnect
  · subst hnet
    have hnot : ¬ (t.ctx.lastError.code > 0 ∧ cfg.errorIsFatal t.ctx.lastError = true) := by
      rw [← fatal_of_run hpre]
      exact hhold
    rw [show Op.written .netDisconnect t.ctx.lastError = t.ctx.lastError from rfl, iff_false_right hnot,
      Op.Unheeded, and_iff_left (.inr rfl)]
  · rw [Op.written_of_reason hreason hnet, Op.Unheeded, or_iff_left hnet]
    have hcode := Op.code_of_reason hreason
    constructor
    · rintro h ⟨hf, rfl⟩
      exact absurd (h.mp hf).1 (by decide)
    · intro h
      refine ⟨fun hf => ⟨hcode.resolve_left fun he => h ⟨hf, he⟩, hf⟩, And.right⟩

/-- A client for which every error is fatal. -/
def Config.strict : Config := mainConfig (ascii ['w']) 0 0 true true fun _ => true

theorem run_farewell {p : Pkt} {e : SynError} (h : (p, e) ∈ [(Pkt.cbye, SynError.none), (.ebad, .ebad)]) :
    ∃ t', (Op.message .smooth p.code 4).exec.run (.opened .strict) = .ok () t' ∧ Ends (.opened .strict) t' ∧
      t'.ctx.lastError = e ∧ t'.ctx.errorIsFatal = fun _ => true := by
  simp only [List.mem_cons, Prod.mk.injEq, List.not_mem_nil, or_false] at h
  rcases h with ⟨rfl, rfl⟩ | ⟨rfl, rfl⟩ <;> exact ⟨_, rfl, ⟨rfl, rfl⟩, rfl, rfl⟩

/-- An EBAD is heeded. -/
theorem fatal_obeyed_ebad : ∃ t', (Op.message .smooth Pkt.ebad.code 4).exec.run (.opened .strict) = .ok () t' ∧
    GivesUp t' := by
  obtain ⟨t', hop, hends, -⟩ := run_farewell (p := .ebad) (e := .ebad) (by simp)
  have hobeys := (fatal_obeyed_iff ((Run.single (run_connect_init .strict)).snoc hop) (by simp) hop hends rfl).mpr
    (by rintro ⟨-, h | h⟩ <;> cases h)
  exact ⟨t', hop, hobeys.1 rfl⟩

/-- A CBYE is not, though it is configured as fatal. -/
theorem cbye_unheeded : ¬ ∀ cfg steps s, Run Op.exec (State.init cfg) steps s → ∀ t op t' e, (t, op) ∈ steps →
    op.exec.run t = .ok () t' → Ends t t' → op.reason = some e → Obeys cfg.errorIsFatal e t' := by
  intro h
  obtain ⟨t', hop, hends, hlast, -⟩ := run_farewell (p := .cbye) (e := .none) (by simp)
  have hobeys := h _ _ _ ((Run.single (run_connect_init .strict)).snoc hop) _ _ t' .none (by simp) hop hends rfl
  have hgave := ((obeys_iff hends.2).mp hobeys).mp rfl
  rw [Context.GaveUp, hlast] at hgave
  exact absurd hgave.1 (by decide)

end Waynergy
