import Waynergy.Frames
import Waynergy.Malformed
import Waynergy.Session

/-!
# The hello comes first

Before the hello of the server has arrived, a connection is there already, and messages and local updates are served.
`Op.Unanswered` is what does not make the client send anything but a HelloBack then: messages that have no reply,
that are truncated or refused, and a clipboard that is the one that was received.
-/

namespace Waynergy
open Lib
variable {s s' : State}

/-- The message is a hello with its version numbers. -/
def Op.greets : Op → Bool
  | .message _ mem len => isHello ⟨mem, 0, len⟩ && decide (11 ≤ len)
  | _ => false

/-- Whether a hello was received on the connection that there is. -/
def greeted (steps : List (State × Op)) : Bool :=
  steps.foldl (fun seen step => step.1.ctx.connected && (seen || step.2.greets)) false

/-- Nothing was sent but HelloBacks. -/
structure Greets (s s' : State) : Prop where
  name : s'.ctx.clientName = s.ctx.clientName
  out : ∃ evs, s'.out = s.out ++ evs ∧
    ∀ f, .send f ∈ evs → ∃ imp ∈ sImplementations, f = frame (helloBody imp s.ctx.clientName)

instance : Frame Greets where
  refl s := ⟨rfl, [], by simp, by simp⟩
  trans := by
    rintro s s' s'' ⟨hname, evs, ho, hevs⟩ ⟨hname', evs', ho', hevs'⟩
    refine ⟨hname'.trans hname, evs ++ evs', by rw [ho', ho, List.append_assoc], fun f hf => ?_⟩
    rcases List.mem_append.mp hf with hf | hf
    · exact hevs f hf
    · rw [← hname]
      exact hevs' f hf

theorem Mutes.greets (h : Mutes s s') : Greets s s' := by
  obtain ⟨hname, -, evs, ho, hevs⟩ := h
  exact ⟨hname, evs, ho, fun f hf => (hevs _ hf).elim⟩

theorem greets_of_muted {α : Type} {m : Syn α} (h : Muted m) (s : State) :
    wp m (fun _ s' => Greets s s') (fun _ _ => True) s :=
  wp_mono (h s) (fun _ _ h => h.greets) fun _ _ _ => trivial

/-! ### What has no reply -/

/-- The packets that have no reply. -/
def Pkt.silent : List Pkt := [.ciak, .crop, .cbye, .ebad, .ebsy]

/-- A message that is not taken: it is truncated, its chunk goes beyond the announced length, or the clipboard that
it completes is not well formed. -/
def Context.Refuses (c : Context) (body : Bytes) : Prop :=
  body.length < layoutOf body ∨ pktOf body = some .dclp ∧ ∃ i : Fin 2, (dclpOf body).id = i ∧
    (c.clip i).inStream = true ∧
    ((dclpOf body).mark = synDataChunk ∧ (c.clip i).posExpect < sizeAdd (c.clip i).pos (dclpOf body).len ∨
      (dclpOf body).mark = synDataEnd ∧ (readClipboard (c.clip i).contents).2 = false)

/-- The operation sends nothing, but for the HelloBack of a hello. -/
def Op.Unanswered : Op → State → Prop
  | .message _ mem len, t => (∀ p ∈ msgPkt ⟨mem, 0, len⟩, p ∈ Pkt.silent) ∨
      ∃ body, Carries ⟨mem, 0, len⟩ body ∧ t.ctx.Refuses body
  | .updateClipBuf _ _ i data, t => (uSynergyClipBufContains i data).run t = .ok true t
  | .updateRes .., _ => False
  | _, _ => True

theorem processPkt_muted (e : MsgEnv) (msg : SspBuf) {p : Pkt} (hp : p ∈ Pkt.silent) :
    Muted (processPkt e msg p) := by
  simp only [Pkt.silent, List.mem_cons, List.not_mem_nil, or_false] at hp
  rcases hp with rfl | rfl | rfl | rfl | rfl
  · unfold processPkt processCiak
    exact Muted.setCtx (fun _ => rfl) fun _ => id
  · exact Within.pure ()
  · exact Muted.sSetDisconnected _
  · exact Muted.sSetDisconnected _
  · exact Muted.sSetDisconnected _

theorem processHello_greets (e : MsgEnv) (msg : SspBuf) {imp : Bytes} (himp : imp ∈ sImplementations) (s : State) :
    wp (processHello e imp msg) (fun _ s' => Greets s s') (fun _ _ => True) s := by
  refine wp_mono (Speaking.processHello_answers e msg himp s) ?_ fun _ _ _ => trivial
  rintro _ s' ⟨hname, evs, ho, hevs, -⟩
  exact ⟨hname, evs, ho, fun f hf => ⟨imp, himp, (hevs _ hf).1⟩⟩

/-- A hello is answered with a HelloBack, and a message without a reply with nothing. -/
theorem sProcessMessage_silent (e : MsgEnv) (msg : SspBuf) (h : ∀ p ∈ msgPkt msg, p ∈ Pkt.silent) (s : State) :
    wp (sProcessMessage e msg) (fun _ s' => Greets s s') (fun _ _ => True) s := by
  refine wp_sProcessMessage (fun imp rest hw => ?_) (fun p rest _ hpkt => ?_) (fun _ _ => Frame.refl s) fun _ _ => ?_
  · exact processHello_greets e rest (Speaking.findWelcome_mem hw) s
  · exact greets_of_muted (processPkt_muted e rest (h p hpkt)) s
  · exact greets_of_muted Muted.parseError s

theorem send_not_mem_formatEvents {callback : Bool} {id : Nat} {r : List (Nat × Bytes) × Bool} (f : Bytes) :
    .send f ∉ formatEvents callback id r := by
  unfold formatEvents clipEvents
  intro hf
  rcases List.mem_append.mp hf with hf | hf <;> split at hf
  · obtain ⟨entry, -, h⟩ := List.mem_map.mp hf
    cases h
  · cases hf
  · cases hf
  · cases List.mem_singleton.mp hf

/-- A clipboard stream that is refused changes nothing, and only what is complete of it is passed on. -/
theorem sProcessMessage_refused (e : MsgEnv) {msg : SspBuf} {body : Bytes} (h : Carries msg body)
    (hrefuses : s.ctx.Refuses body) (hsized : ∀ i, (s.ctx.clip i).Sized) :
    wp (sProcessMessage e msg) (fun _ s' => Greets s s') (fun _ _ => True) s := by
  rcases Nat.lt_or_ge body.length (layoutOf body) with hshort | hlong
  · refine wp_of_ok (truncated_run e h hshort s) ⟨rfl, [.parseError], rfl, ?_⟩
    intro f hf
    cases List.mem_singleton.mp hf
  · obtain ⟨hpkt, i, hid, hstream, hmark⟩ := hrefuses.resolve_left (Nat.not_lt.mpr hlong)
    have h14 : 14 ≤ body.length := by
      rw [layoutOf, welcomeOf_of_pktOf hpkt, hpkt] at hlong
      exact hlong
    rw [h.processPkt hpkt, processPkt, processDclp, wp_parse, h.wp_dclpHeader, if_pos h14]
    simp only [wp_ite, wp_bind, wp_clipIndex, hid, dif_pos i.isLt, wp_get, Fin.eta, hstream, if_true]
    rcases hmark with ⟨hmark, hlarge⟩ | ⟨hmark, hbad⟩
    · rw [hmark, if_neg (by decide), if_pos rfl]
      refine wp_mono (dclpChunk_spec e i _ _ s) ?_ fun _ _ _ => trivial
      rintro _ s' (⟨-, rfl⟩ | ⟨hfits, -⟩)
      · exact Frame.refl _
      · exact absurd hlarge (Nat.not_lt.mpr hfits)
    · rw [hmark, if_neg (by decide), if_neg (by decide), if_pos rfl]
      have hexpect := (hsized i).expect hstream
      refine wp_mono (dclpEnd_spec e i s hexpect (Nat.lt_of_le_of_lt hexpect (hsized i).cap)) ?_ fun _ _ _ => trivial
      intro _ s' hs'
      rw [if_neg (by rw [hbad]; decide)] at hs'
      subst hs'
      exact ⟨rfl, _, rfl, fun f hf => absurd hf (send_not_mem_formatEvents f)⟩

/-! ### Every operation -/

theorem updateClipBuf_found {h : Heap} {sent : Bool} {i : Fin 2} {data : Bytes}
    (hfound : (uSynergyClipBufContains i data).run s = .ok true s) :
    (uSynergyUpdateClipBuf h sent i data).run s = .ok () s := by
  unfold uSynergyUpdateClipBuf
  rw [EStateM.run_bind, hfound]
  rfl

theorem greets_spec {op : Op} (hsized : ∀ i, (s.ctx.clip i).Sized) (hop : op.Unanswered s) :
    wp op.exec (fun _ s' => Greets s s') (fun _ _ => True) s := by
  have hwhen : ∀ {m : Syn Unit}, Muted m → wp (whenConnected m) (fun _ s' => Greets s s') (fun _ _ => True) s :=
    fun hm => greets_of_muted (Within.read fun _ => Within.ite hm (Within.pure ())) s
  cases op with
  | connect e => exact greets_of_muted (Within.read fun _ => Within.ite (Within.pure ()) (Muted.tryConnect e)) s
  | receive avail now => exact hwhen (Within.bind (Muted.receive avail now) fun _ => Within.pure ())
  | message e mem len =>
    unfold Op.exec whenConnected handMessage
    rw [wp_bind, wp_get, wp_ite]
    split
    · rw [wp_bind, wp_get, wp_bind, wp_emits, wp_bind]
      have htold : Greets s { s with out := s.out ++ [.message ⟨mem, 0, len⟩ s.ctx.receiveOfs] } :=
        ⟨rfl, _, rfl, fun f hf => by cases List.mem_singleton.mp hf⟩
      have hmsg : wp (sProcessMessage e ⟨mem, 0, len⟩) (fun _ s' => Greets s s') (fun _ _ => True)
          { s with out := s.out ++ [.message ⟨mem, 0, len⟩ s.ctx.receiveOfs] } := by
        rcases hop with hsilent | ⟨body, hcarries, hrefuses⟩
        · exact wp_mono (sProcessMessage_silent e _ hsilent _) (fun _ _ => Frame.trans htold) fun _ _ => id
        · exact wp_mono (sProcessMessage_refused e hcarries hrefuses hsized) (fun _ _ => Frame.trans htold)
            fun _ _ => id
      refine wp_mono hmsg (fun _ s' h => ?_) fun _ _ => id
      rw [wp_bind, wp_get, wp_emits]
      exact Frame.trans h ⟨rfl, _, rfl, fun f hf => by cases List.mem_singleton.mp hf⟩
    · exact Frame.refl s
  | consume packlen => exact hwhen (Muted.consume packlen)
  | ditch packlen n avail => exact hwhen (Within.bind (Muted.ditchRead packlen n avail) fun _ => Within.pure ())
  | resetReceive =>
    have hreset : Muted Waynergy.resetReceive := Muted.setCtx (fun _ => rfl) fun _ => id
    exact greets_of_muted hreset s
  | netDisconnect => exact greets_of_muted (Within.bind Muted.synNetDisconnect fun _ => Within.pure ()) s
  | updateClipBuf h sent i data => exact wp_of_ok (updateClipBuf_found hop) (Frame.refl s)
  | updateRes sent width height => exact hop.elim

/-! ### Runs -/

variable {cfg : Config} {steps : List (State × Op)}

/-- Every operation on a connection that has seen no hello yet is one that is not answered. -/
def Restrained (steps : List (State × Op)) : Prop := ∀ pre t op post, steps = pre ++ (t, op) :: post →
  t.ctx.connected = true → greeted pre = false → op.Unanswered t

/-- The hello comes first: nothing but a HelloBack is sent on a connection that has seen no hello, up to and with the
operation that receives it. -/
def HelloFirst (steps : List (State × Op)) : Prop := ∀ pre t op post t', steps = pre ++ (t, op) :: post →
  op.exec.run t = .ok () t' → t.ctx.connected = true → greeted pre = false → Greets t t'

/-- In a run whose operations are not answered before the hello, the hello comes first. -/
theorem hello_first (hrun : Run Op.exec (State.init cfg) steps s) (hrestrained : Restrained steps) :
    HelloFirst steps := by
  rintro pre t op post t' rfl hop hup hseen
  have hsized : ∀ i, (t.ctx.clip i).Sized := sized_of_run hrun.initial
  exact wp_ok (Q := fun _ t' => Greets t t') (greets_spec hsized (hrestrained pre t op post rfl hup hseen)) hop

/-- The hello of a server. -/
def helloOp : Op := .message .smooth (ascii ['S', 'y', 'n', 'e', 'r', 'g', 'y', '\x00', '\x01', '\x00', '\x06']) 11

/-- A hello that arrives first is answered. -/
theorem hello_first_opened : ∃ t', helloOp.exec.run (.opened .sample) = .ok () t' ∧ Greets (.opened .sample) t' := by
  obtain ⟨t', hop⟩ : ∃ t', helloOp.exec.run (.opened .sample) = .ok () t' := ⟨_, rfl⟩
  have hrun := (Run.single (run_connect_init .sample)).snoc hop
  refine ⟨t', hop, hello_first hrun ?_ [_] _ _ [] t' rfl hop rfl rfl⟩
  rintro pre t op post hsteps hup hseen
  rcases pre with _ | ⟨step, _ | ⟨step', pre⟩⟩
  · obtain ⟨⟨rfl, rfl⟩, -⟩ := by simpa using hsteps
    cases hup
  · obtain ⟨-, ⟨rfl, rfl⟩, -⟩ := by simpa using hsteps
    exact .inl fun p hp => by cases hp
  · simp at hsteps

/-- An output that changes before the hello is announced at once. -/
theorem hello_not_first : ¬ ∀ cfg steps s, Run Op.exec (State.init cfg) steps s → HelloFirst steps := by
  intro h
  obtain ⟨t', hop, f, hout, hf⟩ : ∃ t', (Op.updateRes true 800 600).exec.run (.opened .sample) = .ok () t' ∧
      ∃ f, t'.out = [.connect] ++ [.send f] ∧ (f.drop 4).take 4 = ascii ['D', 'I', 'N', 'F'] :=
    ⟨_, rfl, _, rfl, by decide⟩
  have hrun := (Run.single (run_connect_init .sample)).snoc hop
  obtain ⟨-, evs, ho, hevs⟩ := h _ _ _ hrun [_] _ _ [] t' rfl hop rfl rfl
  obtain rfl : [.send f] = evs := List.append_cancel_left (hout.symm.trans ho)
  obtain ⟨imp, himp, rfl⟩ := hevs f (List.mem_singleton_self _)
  simp only [sImplementations, List.mem_cons, List.not_mem_nil, or_false] at himp
  rcases himp with rfl | rfl <;> exact absurd hf (by decide)

end Waynergy
