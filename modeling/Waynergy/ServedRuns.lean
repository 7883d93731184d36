import Waynergy.MainLoop
import Waynergy.ServedStream

/-!
# The main loop serves the protocol

While the connection stands, the main loop does nothing but read, handle local events, and hang up when the server was
silent for too long. However the reads cut the stream and the local events fall between them, it does what its desk
does: with each frame that is complete it serves the message in it, and with each local event that.
-/

namespace Waynergy
open Lib
variable {d d' : Desk} {s s' s₀ : State} {w : Bytes}

/-! ### What happens at a connected client -/

inductive Happening
  | arrive (e : UpdateEnv)
  | event (ev : LocalEvent)
  | hangUp

namespace Happening

def exec : Happening → Syn Unit
  | arrive e => sUpdateContext e
  | event ev => ev.handle
  | hangUp => do
    let _ ← synNetDisconnect
    pure ()

/-- The bytes that are read: of those that are there, as many as there is room for. -/
def bytes (t : State) : Happening → Bytes
  | arrive e => e.avail.take (receiveBufferSize - t.ctx.receiveOfs)
  | event _ => []
  | hangUp => []

end Happening

/-- Nothing that serving the messages needs fails. -/
def UpdateEnv.Serves (e : UpdateEnv) : Prop := ∀ i, (e.msgs i).Serves

def LocalEvent.Serves : LocalEvent → Prop
  | clipBuf h .. => ∀ n < 2 ^ 31, h.ok n = true
  | res .. => True

def Happening.Serves : Happening → Prop
  | arrive e => e.Serves
  | event ev => ev.Serves
  | hangUp => True

/-- The bytes that were read in `steps`. -/
def bytesOf (steps : List (State × Happening)) : Bytes := (steps.map fun step => step.2.bytes step.1).flatten

/-- The bodies of the frames that the bytes `more` complete behind the bytes `got`. -/
def completed (got more : Bytes) : List Bytes := (splitFrames ((splitFrames got).2 ++ more)).1

/-- What the client hears in one step behind the bytes `got`. -/
inductive HearsStep (got : Bytes) (t : State) : Happening → List Input → Prop
  | arrive {e : UpdateEnv} {ms : List ServerMsg} (hbytes : (Happening.arrive e).bytes t ≠ [])
      (hms : completed got ((Happening.arrive e).bytes t) = ms.map ServerMsg.encode) :
      HearsStep got t (.arrive e) (ms.map .server)
  | lost {e : UpdateEnv} (hbytes : (Happening.arrive e).bytes t = []) : HearsStep got t (.arrive e) [.lost]
  | event (ev : LocalEvent) : HearsStep got t (.event ev) [ev.input]
  | hangUp : HearsStep got t .hangUp [.silence]

/-- What the client hears in `steps`. -/
inductive Hears : List (State × Happening) → List Input → Prop
  | nil : Hears [] []
  | snoc {steps : List (State × Happening)} {xs ys : List Input} {t : State} {x : Happening} (h : Hears steps xs)
      (hstep : HearsStep (bytesOf steps) t x ys) : Hears (steps ++ [(t, x)]) (xs ++ ys)

theorem bytesOf_snoc (steps : List (State × Happening)) (t : State) (x : Happening) :
    bytesOf (steps ++ [(t, x)]) = bytesOf steps ++ x.bytes t := by
  simp [bytesOf]

/-! ### Each of them -/

theorem Spoke.of_silent (h : Tracks d s') (ho : s'.out = s.out) : Spoke (some d, []) s s' := by
  refine ⟨⟨[], by rw [ho, List.append_nil], rfl⟩, ?_, ?_⟩
  · rintro d' ⟨⟩
    exact h
  · rintro ⟨⟩

theorem Spoke.of_lost {evs : List Event} (ho : s'.out = s.out ++ evs) (hspoken : spoken evs = evs)
    (hdown : s'.ctx.connected = false) : Spoke (none, evs) s s' := by
  refine ⟨⟨evs, ho, hspoken⟩, ?_, fun _ => hdown⟩
  rintro d' ⟨⟩

/-- One input is a list of inputs. -/
theorem Spoke.single {x : Input} (h : Spoke (d.take x) s s') : Spoke (d.takeAll [x]) s s' := by
  refine .cons h ?_ fun _ => rfl
  intro d' hd
  exact .of_silent (h.desk d' hd) rfl

theorem receive_take (avail : Bytes) (now : Nat) (s : State) : (receive avail now).run s =
    (receive (avail.take (receiveBufferSize - s.ctx.receiveOfs)) now).run s := by
  have hroom : ((receiveBufferSize : Int) - s.ctx.receiveOfs).toNat = receiveBufferSize - s.ctx.receiveOfs :=
    Int.toNat_sub ..
  unfold receive synRecv
  simp only [EStateM.run_bind, EStateM.run_get, hroom, List.take_take, Nat.min_self]

/-- A call sees of the bytes only those that it reads. -/
theorem sUpdateContext_take (e : UpdateEnv) (s : State) : (sUpdateContext e).run s =
    (sUpdateContext { e with avail := (Happening.arrive e).bytes s }).run s := by
  unfold sUpdateContext
  rw [EStateM.run_bind, EStateM.run_bind, receive_take]
  rfl

theorem waits_event {ev : LocalEvent} (h : Waits w s) :
    wp ev.handle (fun _ s' => Waits w s') (fun _ _ => True) s := by
  refine wp_mono (handle_spec ev s) ?_ fun _ _ => id
  rintro _ s' ⟨⟨b, n, clip, width, height, info, hctx⟩, -⟩
  refine ⟨?_, ?_, h.fits, ?_, ?_⟩
  all_goals rw [hctx]
  exacts [h.up, h.ofs, h.front, h.one]

theorem spoke_event {ev : LocalEvent} (h : Tracks d s) (hserves : ev.Serves) (hadmits : d.Admits ev.input) :
    wp ev.handle (fun _ s' => Spoke (d.take ev.input) s s') (fun _ _ => False) s := by
  cases ev with
  | clipBuf hp sent i data =>
    refine wp_mono (heard_copy (i := i) h hserves sent hadmits) ?_ fun _ _ => id
    rintro _ s' hheard
    refine ⟨⟨_, hheard.out, ?_⟩, hheard.desk, hheard.lost⟩
    rw [LocalEvent.input, Desk.take]
    split <;> rfl
  | res sent width height =>
    refine wp_mono (heard_resize h sent width height) ?_ fun _ _ => id
    rintro _ s' hheard
    exact ⟨⟨_, hheard.out, rfl⟩, hheard.desk, hheard.lost⟩

theorem spoke_hangUp (h : Tracks d s) :
    wp Happening.hangUp.exec (fun _ s' => Spoke (d.take .silence) s s') (fun _ _ => False) s := by
  show wp (synNetDisconnect >>= fun _ => pure ()) _ _ s
  unfold synNetDisconnect
  simp only [wp_bind, wp_get, wp_ite, if_neg h.socket, wp_modify, wp_pure]
  exact .of_lost (List.append_nil _).symm rfl rfl

theorem spoke_lost {e : UpdateEnv} (hbytes : e.avail = []) :
    wp (sUpdateContext e) (fun _ s' => Spoke (d.take .lost) s s') (fun _ _ => False) s := by
  unfold sUpdateContext receive synRecv receiveFailed
  simp only [wp_bind, wp_get, hbytes, List.take_nil, if_true, wp_setCtx, wp_pure, wp_sSetDisconnected, wp_emits,
    Bool.false_eq_true, if_false]
  exact .of_lost rfl rfl rfl

/-! ### Runs of them -/

/-- A step serves what is heard in it. -/
theorem spoke_step {x : Happening} {ys : List Input} (hwait : Waits (splitFrames w).2 s) (h : Tracks d s)
    (hstep : HearsStep w s x ys) (hserves : x.Serves) (hframed : Framed maxBody (w ++ x.bytes s))
    (hadmits : d.AdmitsAll ys) : wp x.exec
      (fun _ s' => Spoke (d.takeAll ys) s s' ∧
        (s'.ctx.connected = true → Waits (splitFrames (w ++ x.bytes s)).2 s'))
      (fun _ _ => ∃ e, x = .arrive e ∧ e.fuel ≤ receiveBufferSize) s := by
  have hcap : maxBody < 2 ^ 32 := by decide
  have hnone : ∀ {s' : State}, s'.ctx.connected = false → s'.ctx.connected = true → Waits (splitFrames w).2 s' := by
    rintro s' hdown hup
    rw [hdown] at hup
    cases hup
  cases hstep with
  | @arrive e ms hbytes hms =>
    have hdel : Delivers s ((Happening.arrive e).bytes s) := ⟨hbytes, List.length_take_le _ _⟩
    have hcall := spoke_sUpdateContext (e := { e with avail := (Happening.arrive e).bytes s }) (Nat.le_refl _) hwait h
      hdel hserves (hframed.rest hcap) hms hadmits
    rw [splitFrames_more hcap (hframed.of_initial (List.prefix_append _ _))]
    show wp (sUpdateContext e) _ _ s
    rw [wp, sUpdateContext_take]
    exact wp_mono hcall (fun _ _ => id) fun _ _ hfuel => ⟨e, rfl, hfuel⟩
  | @lost e hbytes =>
    have hcall := spoke_lost (d := d) (s := s) (e := { e with avail := (Happening.arrive e).bytes s }) hbytes
    rw [hbytes, List.append_nil]
    show wp (sUpdateContext e) _ _ s
    rw [wp, sUpdateContext_take]
    refine wp_mono hcall ?_ fun _ _ => False.elim
    rintro _ s' hspoke
    exact ⟨hspoke.single, hnone (hspoke.lost rfl)⟩
  | event ev =>
    refine wp_mono (wp_and (spoke_event h hserves hadmits.1) (waits_event hwait)) ?_ fun _ _ hf => hf.1.elim
    rintro _ s' ⟨hspoke, hwait'⟩
    refine ⟨hspoke.single, fun _ => ?_⟩
    rw [Happening.bytes, List.append_nil]
    exact hwait'
  | hangUp =>
    refine wp_mono (spoke_hangUp h) ?_ fun _ _ => False.elim
    rintro _ s' hspoke
    refine ⟨hspoke.single, ?_⟩
    rw [Happening.bytes, List.append_nil]
    exact hnone (hspoke.lost rfl)

variable {steps : List (State × Happening)} {xs : List Input}

theorem spoke_of_run (h₀ : Tracks d s₀) (hwait : Waits [] s₀) (hrun : Run Happening.exec s₀ steps s)
    (hsteps : ∀ step ∈ steps, step.1.ctx.connected = true ∧ step.2.Serves) (hframed : Framed maxBody (bytesOf steps))
    (hhears : Hears steps xs) (hadmits : d.AdmitsAll xs) : Spoke (d.takeAll xs) s₀ s ∧
      (s.ctx.connected = true → Waits (splitFrames (bytesOf steps)).2 s) := by
  induction hhears generalizing s with
  | nil =>
    generalize hnil : ([] : List (State × Happening)) = steps at hrun
    cases hrun with
    | nil => exact ⟨.refl h₀, fun _ => hwait⟩
    | snoc _ _ => simp at hnil
  | @snoc steps xs ys t x hh hstep ih =>
    obtain ⟨hrun', hop⟩ := hrun.last
    obtain ⟨hup, hserves⟩ := hsteps (t, x) (by simp)
    obtain ⟨hadmits', hlast⟩ := hadmits.append
    rw [bytesOf_snoc] at hframed ⊢
    obtain ⟨hspoke, hwaits⟩ := ih hrun' (fun step hm => hsteps step (by simp [hm]))
      (hframed.of_initial (List.prefix_append _ _)) hadmits'
    cases hd : (d.takeAll xs).1 with
    | none =>
      rw [hspoke.lost hd] at hup
      cases hup
    | some d' =>
      obtain ⟨hspoke', hwaits'⟩ := wp_ok
        (spoke_step (hwaits hup) (hspoke.desk d' hd) hstep hserves hframed (hlast d' hd)) hop
      exact ⟨hspoke.append hd hspoke', hwaits'⟩

/-- A connected client serves the protocol, however its stream is cut and wherever the local events fall: what it has
said is what its desk says to the messages that are complete and to the local events, in their order. Whatever happens
next returns, if the loop over the frames can go on for as long as there are bytes. -/
theorem session_serves (h₀ : Tracks d s₀) (hwait : Waits [] s₀) (hrun : Run Happening.exec s₀ steps s)
    (hsteps : ∀ step ∈ steps, step.1.ctx.connected = true ∧ step.2.Serves) (hframed : Framed maxBody (bytesOf steps))
    (hhears : Hears steps xs) (hadmits : d.AdmitsAll xs) : Spoke (d.takeAll xs) s₀ s ∧
      ∀ (x : Happening) (ys : List Input), s.ctx.connected = true → x.Serves →
        (∀ e, x = .arrive e → receiveBufferSize < e.fuel) → Framed maxBody (bytesOf steps ++ x.bytes s) →
        HearsStep (bytesOf steps) s x ys → d.AdmitsAll (xs ++ ys) → ∃ s', x.exec.run s = .ok () s' := by
  obtain ⟨hspoke, hwaits⟩ := spoke_of_run h₀ hwait hrun hsteps hframed hhears hadmits
  refine ⟨hspoke, ?_⟩
  rintro x ys hup hserves hfuel hmore hstep hadmits'
  cases hd : (d.takeAll xs).1 with
  | none =>
    rw [hspoke.lost hd] at hup
    cases hup
  | some d' =>
    have hnext := spoke_step (hwaits hup) (hspoke.desk d' hd) hstep hserves hmore (hadmits'.append.2 d' hd)
    refine (exists_ok_of_wp (wp_mono hnext (fun _ _ => id) ?_)).elim fun _ ⟨s', hok, _⟩ => ⟨s', hok⟩
    rintro _ _ ⟨e, rfl, hle⟩
    exact absurd (hfuel e rfl) (Nat.not_lt.mpr hle)

/-! ### The greeting -/

theorem tracks_opened {cfg : Config} (hname : cfg.clientName.length ≤ maxName) :
    Tracks (.initial cfg) (.opened cfg) := by
  have hsocket : ((3 : Nat) : Int) ≠ -1 := by decide
  refine ⟨rfl, hname, rfl, hsocket, rfl, rfl, rfl, rfl, rfl, rfl, rfl, fun i => ?_⟩
  refine ⟨ClipSlot.sized_zero, fun _ => rfl, ?_, fun _ => rfl, ?_, fun _ => List.nil_prefix, rfl⟩
  · rintro n got ⟨⟩
  · rintro text ⟨⟩

theorem serves_smooth : MsgEnv.smooth.Serves := ⟨rfl, fun _ _ => rfl⟩

/-- A server says hello and asks for the screen. -/
def greeting : List ServerMsg := [.hello .barrier 1 6, .queryInfo]

/-- The greeting arrives in one read, with the first two bytes of what comes next. -/
def greetEnv : UpdateEnv where
  avail := frame (ServerMsg.hello .barrier 1 6).encode ++ (frame ServerMsg.queryInfo.encode ++ [0, 0])
  ditch := []
  now := 0
  msgs _ := .smooth
  fuel := 65537

/-- The rest of a message that the pointer leaves the screen. -/
def leaveEnv : UpdateEnv := { greetEnv with avail := [0, 4] ++ ServerMsg.leave.encode }

def copyHi (i : Fin 2) : LocalEvent := .clipBuf MsgEnv.smooth.heap true i (ascii ['h', 'i'])

theorem bytes_arrive {e : UpdateEnv} (hroom : s.ctx.receiveOfs + e.avail.length ≤ receiveBufferSize) :
    (Happening.arrive e).bytes s = e.avail :=
  List.take_of_length_le (by omega)

theorem bytes_greetEnv (h : s.ctx.receiveOfs = 0) : (Happening.arrive greetEnv).bytes s = greetEnv.avail :=
  bytes_arrive (by rw [h]; decide)

theorem framed_greetEnv : Framed maxBody greetEnv.avail :=
  .cons (by decide) (.cons (by decide) (.part (v := []) (by decide) (by decide) (by decide)))

theorem hears_greetEnv (h : s.ctx.receiveOfs = 0) :
    HearsStep [] s (.arrive greetEnv) (greeting.map .server) := by
  refine .arrive ?_ ?_
  · rw [bytes_greetEnv h]
    decide
  · rw [bytes_greetEnv h]
    decide

theorem admits_greeting (d : Desk) : d.AdmitsAll (greeting.map .server) :=
  ⟨trivial, fun _ _ => ⟨trivial, fun _ _ => trivial⟩⟩

theorem runs_greeting (hfresh : Fresh s) (h : Tracks d s) : ∃ s', (Happening.arrive greetEnv).exec.run s = .ok () s' ∧
    Waits [0, 0] s' ∧ Spoke (d.takeAll (greeting.map .server)) s s' := by
  have hbytes := bytes_greetEnv hfresh.ofs
  have hstep := spoke_step (w := []) hfresh.waits h (hears_greetEnv hfresh.ofs) (fun _ => serves_smooth)
    (by rw [hbytes]; exact framed_greetEnv) (admits_greeting d)
  obtain ⟨_, s', hrun, hspoke, hwaits⟩ := exists_ok_of_wp (wp_mono hstep (fun _ _ => id) (by
    rintro _ _ ⟨_, ⟨⟩, hfuel⟩
    exact absurd hfuel (by decide)))
  refine ⟨s', hrun, ?_, hspoke⟩
  rw [hbytes] at hwaits
  exact hwaits (hspoke.desk _ rfl).up

theorem chunksOf_short {text : Bytes} (hne : text ≠ []) (hle : text.length ≤ maxChunk) : chunksOf text = [text] := by
  rw [chunksOf, if_neg hne, List.take_of_length_le hle, List.drop_eq_nil_of_le hle, chunksOf, if_pos rfl]

/-- A text is copied after the greeting. -/
theorem runs_copyHi (hwait : Waits [0, 0] s) (h : Tracks d s) (hadmits : d.Admits (copyHi 0).input) :
    ∃ s', (Happening.event (copyHi 0)).exec.run s = .ok () s' ∧ Waits [0, 0] s' ∧ Spoke (d.take (copyHi 0).input) s s' := by
  have hserves : (copyHi 0).Serves := fun _ _ => rfl
  obtain ⟨_, s', hrun, hspoke, hwait'⟩ := exists_ok_of_wp (wp_mono (wp_and (spoke_event h hserves hadmits)
    (waits_event hwait)) (fun _ _ => id) fun _ _ hf => hf.1)
  exact ⟨s', hrun, hwait', hspoke⟩

theorem hears_leaveEnv (hwait : Waits [0, 0] s) :
    HearsStep greetEnv.avail s (.arrive leaveEnv) ([.leave].map .server) := by
  have hbytes : (Happening.arrive leaveEnv).bytes s = leaveEnv.avail := by
    refine bytes_arrive ?_
    rw [hwait.ofs]
    decide
  refine .arrive ?_ ?_
  · rw [hbytes]
    decide
  · rw [hbytes]
    decide

/-- What is heard: the greeting, a copy of `hi`, and that the pointer leaves the screen. -/
def greetingAndCopy (i : Fin 2) : List Input := greeting.map .server ++ [(copyHi i).input] ++ [.leave].map .server

theorem admits_greetingAndCopy : (Desk.initial .sample).AdmitsAll (greetingAndCopy 0) := by
  refine ⟨trivial, ?_⟩
  rintro _ ⟨⟩
  refine ⟨trivial, ?_⟩
  rintro _ ⟨⟩
  refine ⟨⟨by decide, by decide⟩, ?_⟩
  intro d _
  exact ⟨trivial, fun _ _ => trivial⟩

/-- The greeting is answered, the copy is announced, and it is sent when the pointer leaves. -/
theorem said_greetingAndCopy : ((Desk.initial .sample).takeAll (greetingAndCopy 0)).2 =
    [sendBody (helloBody Implementation.barrier.name (ascii ['w'])), sendBody (dinfBody 0 0), sendBody (cclpBody 0 0)] ++
      transferEvents 0 0 14 [encodeText (ascii ['h', 'i'])] ++ [.screenActive false, cnop] := by
  have hchunks : chunksOf (encodeText (ascii ['h', 'i'])) = [encodeText (ascii ['h', 'i'])] :=
    chunksOf_short (by decide) (by decide)
  have hsettle : ((Desk.initial .sample).keep 0 (ascii ['h', 'i'])).settle 0 =
      transferEvents 0 0 14 [encodeText (ascii ['h', 'i'])] := by
    rw [← hchunks]
    rfl
  show [_] ++ ([_] ++ ([_] ++ ((([0, 1] : List (Fin 2)).flatMap ((Desk.initial .sample).keep 0 (ascii ['h', 'i'])).settle ++
    [.screenActive false] ++ [cnop]) ++ []))) = _
  rw [List.flatMap_cons, hsettle]
  rfl

theorem session_serves_greeting : ∃ s₁ s₂ s₃ evs, Run Happening.exec (.opened .sample)
      [(.opened .sample, .arrive greetEnv), (s₁, .event (copyHi 0)), (s₂, .arrive leaveEnv)] s₃ ∧
    s₃.out = [.connect] ++ evs ∧ spoken evs =
      [sendBody (helloBody Implementation.barrier.name (ascii ['w'])), sendBody (dinfBody 0 0), sendBody (cclpBody 0 0)] ++
        transferEvents 0 0 14 [encodeText (ascii ['h', 'i'])] ++ [.screenActive false, cnop] := by
  have h₀ : Tracks (.initial .sample) (.opened .sample) := tracks_opened (by decide)
  have hfresh := fresh_opened .sample
  obtain ⟨s₁, hop₁, hwait₁, hspoke₁⟩ := runs_greeting hfresh h₀
  have hcopy : (Desk.initial .sample).Admits (copyHi 0).input := ⟨by decide, by decide⟩
  obtain ⟨s₂, hop₂, hwait₂, hspoke₂⟩ := runs_copyHi hwait₁ (hspoke₁.desk _ rfl) hcopy
  have hbytes : (Happening.arrive leaveEnv).bytes s₂ = leaveEnv.avail := by
    refine bytes_arrive ?_
    rw [hwait₂.ofs]
    decide
  have hbytes₀ := bytes_greetEnv hfresh.ofs
  have hframed : Framed maxBody (greetEnv.avail ++ leaveEnv.avail) := by
    have hparts : greetEnv.avail ++ leaveEnv.avail = frame (ServerMsg.hello .barrier 1 6).encode ++
        (frame ServerMsg.queryInfo.encode ++ (frame ServerMsg.leave.encode ++ [])) := rfl
    rw [hparts]
    exact .cons (by decide) (.cons (by decide) (.cons (by decide) .nil))
  have hserves : ∀ {e : UpdateEnv}, e.msgs = (fun _ => .smooth) → e.Serves := fun he i => by
    rw [he]
    exact serves_smooth
  have hrest : (splitFrames greetEnv.avail).2 = [0, 0] := by decide
  have hlast := spoke_step (hrest.symm ▸ hwait₂) (hspoke₂.desk _ rfl) (hears_leaveEnv hwait₂) (hserves rfl)
    (by rw [hbytes]; exact hframed) ⟨trivial, fun _ _ => trivial⟩
  obtain ⟨_, s₃, hop₃, -⟩ := exists_ok_of_wp (wp_mono hlast (fun _ _ => id) (by
    rintro _ _ ⟨_, ⟨⟩, hfuel⟩
    exact absurd hfuel (by decide)))
  have hrun := ((Run.single hop₁).snoc hop₂).snoc hop₃
  have hgot : bytesOf [(State.opened .sample, .arrive greetEnv), (s₁, .event (copyHi 0)), (s₂, .arrive leaveEnv)] =
      greetEnv.avail ++ leaveEnv.avail := by
    simp only [bytesOf, List.map_cons, List.map_nil, List.flatten_cons, List.flatten_nil, hbytes₀, hbytes,
      List.append_nil]
    rfl
  have hhears : Hears [(State.opened .sample, .arrive greetEnv), (s₁, .event (copyHi 0)), (s₂, .arrive leaveEnv)]
      (greetingAndCopy 0) := by
    have hfirst : Hears ([] ++ [(State.opened .sample, .arrive greetEnv)]) ([] ++ greeting.map .server) :=
      .snoc .nil (hears_greetEnv hfresh.ofs)
    have hboth : Hears [(State.opened .sample, .arrive greetEnv), (s₁, .event (copyHi 0))] (_ ++ [(copyHi 0).input]) :=
      hfirst.snoc (.event (copyHi 0))
    refine hboth.snoc ?_
    have hgot₂ : bytesOf [(State.opened .sample, .arrive greetEnv), (s₁, .event (copyHi 0))] = greetEnv.avail := by
      simp only [bytesOf, List.map_cons, List.map_nil, List.flatten_cons, List.flatten_nil, hbytes₀, List.append_nil]
      exact List.append_nil _
    rw [hgot₂]
    exact hears_leaveEnv hwait₂
  have hsteps : ∀ step ∈ [(State.opened .sample, Happening.arrive greetEnv), (s₁, .event (copyHi 0)), (s₂, .arrive leaveEnv)],
      step.1.ctx.connected = true ∧ step.2.Serves := by
    simp only [List.forall_mem_cons]
    exact ⟨⟨rfl, hserves rfl⟩, ⟨hwait₁.up, fun _ _ => rfl⟩, ⟨hwait₂.up, hserves rfl⟩, List.forall_mem_nil _⟩
  obtain ⟨⟨evs, ho, hspoken⟩, -, -⟩ := (session_serves h₀ hfresh.waits hrun hsteps (hgot ▸ hframed) hhears
    admits_greetingAndCopy).1
  exact ⟨s₁, s₂, s₃, evs, hrun, ho, hspoken.trans said_greetingAndCopy⟩

/-! ### The main loop -/

/-- What an iteration of the main loop has to do, one after another. -/
inductive Duty
  | read (e : UpdateEnv)
  | check (now : Nat)
  | event (ev : LocalEvent)
  | giveUp (timedOut : Bool)

/-- What is done for it at a client that is connected. -/
def Duty.due (t : State) : Duty → Option Happening
  | read e => some (.arrive e)
  | check now => if elapsed now t.ctx.lastMessageTime > idleTimeout then some .hangUp else none
  | event ev => some (.event ev)
  | giveUp timedOut => if timedOut then some .hangUp else none

def Round.duties (r : Round) : List Duty :=
  (if r.readable then [.read r.env.update] else []) ++ .check r.now :: r.events.map .event

def MainEnv.duties (e : MainEnv) : List Duty := e.rounds.flatMap Round.duties ++ [.giveUp e.timedOut]

/-- From `s`, what is due is done until the client is not connected, or has hung up: these are `steps`, and they lead to
the last state. -/
inductive Attends : List Duty → State → List (State × Happening) → State → Prop
  | done (s : State) : Attends [] s [] s
  | lost {duties : List Duty} {s : State} (hdown : s.ctx.connected = false) : Attends duties s [] s
  | skip {duty : Duty} {duties : List Duty} {s s' : State} {steps : List (State × Happening)}
      (hup : s.ctx.connected = true) (hdue : duty.due s = none) (h : Attends duties s steps s') :
      Attends (duty :: duties) s steps s'
  | hangUp {duty : Duty} {duties : List Duty} {s s' : State} (hup : s.ctx.connected = true)
      (hdue : duty.due s = some .hangUp) (hop : Happening.hangUp.exec.run s = .ok () s') :
      Attends (duty :: duties) s [(s, .hangUp)] s'
  | step {duty : Duty} {duties : List Duty} {x : Happening} {s s₁ s' : State} {steps : List (State × Happening)}
      (hup : s.ctx.connected = true) (hdue : duty.due s = some x) (hx : x ≠ .hangUp)
      (hop : x.exec.run s = .ok () s₁) (h : Attends duties s₁ steps s') :
      Attends (duty :: duties) s ((s, x) :: steps) s'

/-- The connection is lost, or was given up. -/
def Parted (steps : List (State × Happening)) (s : State) : Prop :=
  s.ctx.connected = false ∨ ∃ t, (t, .hangUp) ∈ steps

/-- What is due is done until the client and the server part; only then the program does something else. -/
def Lasts (duties : List Duty) (s s' : State) : Prop := ∃ steps s₁ ops, Attends duties s steps s₁ ∧
  Run Op.exec s₁ ops s' ∧ (Parted steps s₁ ∨ s₁ = s')

/-- They are steps of a client that is connected. -/
theorem Attends.run {duties : List Duty} {steps : List (State × Happening)} (h : Attends duties s steps s') :
    Run Happening.exec s steps s' ∧ ∀ step ∈ steps, step.1.ctx.connected = true := by
  induction h with
  | done | lost => exact ⟨.nil, List.forall_mem_nil _⟩
  | skip _ _ _ ih => exact ih
  | hangUp hup _ hop => exact ⟨Run.single hop, List.forall_mem_singleton.mpr hup⟩
  | step hup _ _ hop _ ih => exact ⟨(Run.single hop).append ih.1, List.forall_mem_cons.mpr ⟨hup, ih.2⟩⟩

theorem Attends.append {ds ds' : List Duty} {steps steps' : List (State × Happening)} {s₁ : State}
    (h : Attends ds s steps s₁) (hnot : ¬ Parted steps s₁) (h' : Attends ds' s₁ steps' s') :
    Attends (ds ++ ds') s (steps ++ steps') s' := by
  induction h with
  | done => exact h'
  | lost hdown => exact absurd (.inl hdown) hnot
  | skip hup hdue _ ih => exact .skip hup hdue (ih hnot h')
  | hangUp => exact absurd (.inr ⟨_, .head _⟩) hnot
  | step hup hdue hx hop _ ih =>
    refine .step hup hdue hx hop (ih (fun hp => hnot (hp.imp_right ?_)) h')
    rintro ⟨t, hm⟩
    exact ⟨t, .tail _ hm⟩

/-- Nothing is due any more when they have parted. -/
theorem Attends.parted {ds : List Duty} {steps : List (State × Happening)} (h : Attends ds s steps s')
    (hparted : Parted steps s') (ds' : List Duty) : Attends (ds ++ ds') s steps s' := by
  induction h with
  | done =>
    rcases hparted with hdown | ⟨t, hm⟩
    · exact .lost hdown
    · cases hm
  | lost hdown => exact .lost hdown
  | skip hup hdue _ ih => exact .skip hup hdue (ih hparted)
  | hangUp hup hdue hop => exact .hangUp hup hdue hop
  | step hup hdue hx hop _ ih =>
    refine .step hup hdue hx hop (ih (hparted.imp_right ?_))
    rintro ⟨t, hm⟩
    rcases List.mem_cons.mp hm with heq | hm
    · exact absurd (Prod.mk.inj heq).2.symm hx
    · exact ⟨t, hm⟩

namespace Lasts
variable {duty : Duty} {ds ds' : List Duty}

theorem refl (s : State) : Lasts [] s s := ⟨[], s, [], .done s, .nil, .inr rfl⟩

/-- Until they part the duties are done, and then there is a run of operations. -/
theorem trans {s'' : State} (h : Lasts ds s s') (h' : s'.ctx.connected = true → Lasts ds' s' s'')
    (hgoes : ∃ ops, Run Op.exec s' ops s'') : Lasts (ds ++ ds') s s'' := by
  obtain ⟨steps, s₁, ops, hattends, hops, hend⟩ := h
  by_cases hparted : Parted steps s₁
  · obtain ⟨ops', hops'⟩ := hgoes
    exact ⟨steps, s₁, _, hattends.parted hparted ds', hops.append hops', .inl hparted⟩
  · obtain rfl := hend.resolve_left hparted
    obtain ⟨steps', s₂, ops', hattends', hops', hend'⟩ := h' (by
      rw [← Bool.not_eq_false]
      exact fun hdown => hparted (.inl hdown))
    refine ⟨_, s₂, ops', hattends.append hparted hattends', hops', hend'.imp_left ?_⟩
    rintro (hdown | ⟨t, hm⟩)
    exacts [.inl hdown, .inr ⟨t, List.mem_append_right _ hm⟩]

theorem skip (hup : s.ctx.connected = true) (hdue : duty.due s = none) (h : Lasts ds s s') :
    Lasts (duty :: ds) s s' := by
  obtain ⟨steps, s₁, ops, hattends, hrest⟩ := h
  exact ⟨steps, s₁, ops, .skip hup hdue hattends, hrest⟩

theorem step {x : Happening} (hup : s.ctx.connected = true) (hdue : duty.due s = some x) (hx : x ≠ .hangUp) :
    wp x.exec (fun _ s' => Lasts [duty] s s') (fun _ _ => True) s := by
  refine wp_mono (wp_run (wp_true x.exec s)) ?_ fun _ _ _ => trivial
  rintro _ s' ⟨-, hop⟩
  exact ⟨_, s', [], .step hup hdue hx hop (.done s'), .nil, .inr rfl⟩

theorem hangUp (hup : s.ctx.connected = true) (hdue : duty.due s = some .hangUp) :
    wp (do let _ ← synNetDisconnect; pure ()) (fun _ s' => Lasts (duty :: ds) s s') (fun _ _ => True) s := by
  refine wp_mono (wp_run (wp_true Happening.hangUp.exec s)) ?_ fun _ _ _ => trivial
  rintro _ s' ⟨-, hop⟩
  exact ⟨_, s', [], .hangUp hup hdue hop, .nil, .inr rfl⟩

/-- One program after another. -/
theorem bind {α β : Type} {m : Syn α} {k : α → Syn β} (h : wp m (fun _ s' => Lasts ds s s') (fun _ _ => True) s)
    (hk : ∀ a s', s'.ctx.connected = true → wp (k a) (fun _ s'' => Lasts ds' s' s'') (fun _ _ => True) s')
    (hmade : ∀ a s', IsMade (k a) s') :
    wp (m >>= k) (fun _ s' => Lasts (ds ++ ds') s s') (fun _ _ => True) s := by
  rw [wp_bind]
  refine wp_mono h ?_ fun _ _ => id
  intro a s' hlasts
  cases hup : s'.ctx.connected with
  | false =>
    refine wp_mono (hmade a s') ?_ fun _ _ _ => trivial
    intro _ s'' hgoes
    exact hlasts.trans (fun hup' => absurd (hup.symm.trans hup') Bool.false_ne_true) hgoes
  | true =>
    refine wp_mono (wp_and (hk a s' hup) (hmade a s')) ?_ fun _ _ _ => trivial
    rintro _ s'' ⟨h', hgoes⟩
    exact hlasts.trans (fun _ => h') hgoes

theorem handleAll (evs : List LocalEvent) (hup : s.ctx.connected = true) :
    wp (handleAll evs) (fun _ s' => Lasts (evs.map .event) s s') (fun _ _ => True) s := by
  induction evs generalizing s with
  | nil => exact refl s
  | cons ev evs ih =>
    exact bind (step (x := .event ev) hup rfl (by rintro ⟨⟩)) (fun _ _ hup' => ih hup') fun _ _ =>
      performs_handleAll handle_made evs

theorem netPoll (timedOut : Bool) (rounds : List Round) (hup : s.ctx.connected = true) :
    wp (netPoll timedOut rounds) (fun _ s' => Lasts (rounds.flatMap Round.duties ++ [.giveUp timedOut]) s s')
      (fun _ _ => True) s := by
  induction rounds generalizing s with
  | nil =>
    unfold Waynergy.netPoll
    cases timedOut with
    | false => exact skip hup rfl (refl s)
    | true => exact hangUp hup rfl
  | cons r rounds ih =>
    have hrest : ∀ {t : State}, t.ctx.connected = true → wp (do
        let s ← get
        if elapsed r.now s.ctx.lastMessageTime > idleTimeout then
          let _ ← synNetDisconnect
          pure ()
        else do
          if s.ctx.connected then Waynergy.handleAll r.events else pure ()
          Waynergy.netPoll timedOut rounds)
        (fun _ s' => Lasts (.check r.now :: (r.events.map .event ++
          (rounds.flatMap Round.duties ++ [.giveUp timedOut]))) t s') (fun _ _ => True) t := by
      intro t hup
      rw [wp_bind, wp_get, wp_ite]
      split
      · rename_i hidle
        exact hangUp hup (if_pos hidle)
      · rename_i hfresh
        dsimp only
        refine wp_mono (bind (handleAll r.events hup) (fun _ s₂ hup₂ => ih hup₂) fun _ _ => netPoll_made _ _) ?_
          fun _ _ => id
        exact fun _ s' h => skip hup (if_neg hfresh) h
    unfold Waynergy.netPoll
    cases hread : r.readable with
    | false =>
      have hduties : (r :: rounds).flatMap Round.duties ++ [.giveUp timedOut] = .check r.now ::
          (r.events.map .event ++ (rounds.flatMap Round.duties ++ [.giveUp timedOut])) := by
        simp [Round.duties, hread]
      rw [hduties]
      exact hrest hup
    | true =>
      have hduties : (r :: rounds).flatMap Round.duties ++ [.giveUp timedOut] = [.read r.env.update] ++ .check r.now ::
          (r.events.map .event ++ (rounds.flatMap Round.duties ++ [.giveUp timedOut])) := by
        simp [Round.duties, hread]
      have hupdate : wp (uSynergyUpdate r.env) (fun _ s' => Lasts [.read r.env.update] s s') (fun _ _ => True) s := by
        unfold uSynergyUpdate
        rw [wp_bind, wp_get, if_pos hup]
        exact step (x := .arrive r.env.update) hup rfl (by rintro ⟨⟩)
      rw [hduties, if_pos rfl]
      refine bind hupdate (fun _ s₁ hup₁ => hrest hup₁) fun _ s₁ => ?_
      exact performs_round disconnect_made handle_made r fun _ => netPoll_made timedOut rounds

end Lasts

/-- From a connection on, and until the client and the server part, every run of the main loop does what is due in its
iterations, one after another, and nothing else. -/
theorem mainLoop_session {iters : List (State × MainEnv)} (hrun : Run mainLoop s₀ iters s) :
    Lasts (iters.flatMap fun it => it.2.duties) s₀ s := by
  induction hrun with
  | nil => exact .refl s₀
  | @snoc iters t s e _ hop ih =>
    rw [List.flatMap_append, List.flatMap_singleton]
    refine ih.trans (fun hup' => ?_) (wp_ok (mainLoop_performs e t) hop)
    have hiter : wp (mainLoop e) (fun _ s' => Lasts e.duties t s') (fun _ _ => True) t := by
      unfold mainLoop
      rw [wp_bind, wp_get, if_pos hup']
      exact Lasts.netPoll e.timedOut e.rounds hup'
    exact wp_ok (Q := fun _ s' => Lasts e.duties t s') hiter hop

/-- One iteration, in which the greeting is read and a text is copied. -/
def greetMain (i : Fin 2) : MainEnv :=
  ⟨⟨greetEnv, ⟨none, 0⟩⟩, false, [⟨true, ⟨greetEnv, ⟨none, 0⟩⟩, 0, [copyHi i]⟩]⟩

theorem mainLoop_runs_greeting {s₁ s₂ : State} (hup : s.ctx.connected = true)
    (hop₁ : (Happening.arrive greetEnv).exec.run s = .ok () s₁) (hup₁ : s₁.ctx.connected = true)
    (hop₂ : (Happening.event (copyHi 0)).exec.run s₁ = .ok () s₂) : ∃ s', (mainLoop (greetMain 0)).run s = .ok () s' := by
  have hupdate : (uSynergyUpdate ⟨greetEnv, ⟨none, 0⟩⟩).run s = .ok () s₁ := by
    unfold uSynergyUpdate
    rw [EStateM.run_bind, EStateM.run_get]
    dsimp only
    rw [if_pos hup]
    exact hop₁
  have hevents : (handleAll [copyHi 0]).run s₁ = .ok () s₂ := by
    have hcopy : (copyHi 0).handle.run s₁ = .ok () s₂ := hop₂
    rw [handleAll, EStateM.run_bind, hcopy]
    rfl
  have hmain : wp (mainLoop (greetMain 0)) (fun _ _ => True) (fun _ _ => False) s := by
    unfold mainLoop greetMain
    rw [wp_bind, wp_get, if_pos hup]
    unfold netPoll
    dsimp only
    rw [if_pos rfl, wp_bind]
    refine wp_of_ok hupdate ?_
    rw [wp_bind, wp_get, wp_ite]
    split
    · unfold synNetDisconnect
      simp only [wp_bind, wp_get, wp_ite, wp_modify, wp_pure, ite_self]
    · rw [wp_bind]
      exact wp_of_ok hevents trivial
  obtain ⟨_, s, hok, -⟩ := exists_ok_of_wp hmain
  exact ⟨s, hok⟩

theorem mainLoop_session_greeting : ∃ s, (mainLoop (greetMain 0)).run (.opened .sample) = .ok () s ∧
    Lasts [.read greetEnv, .check 0, .event (copyHi 0), .giveUp false] (.opened .sample) s := by
  have h₀ : Tracks (.initial .sample) (.opened .sample) := tracks_opened (by decide)
  obtain ⟨s₁, hop₁, hwait₁, hspoke₁⟩ := runs_greeting (fresh_opened .sample) h₀
  obtain ⟨s₂, hop₂, -⟩ := runs_copyHi hwait₁ (hspoke₁.desk _ rfl) ⟨by decide, by decide⟩
  obtain ⟨s, hrun⟩ := mainLoop_runs_greeting h₀.up hop₁ hwait₁.up hop₂
  exact ⟨s, hrun, mainLoop_session (Run.single hrun)⟩

end Waynergy
