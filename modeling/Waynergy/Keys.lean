import Waynergy.Input
import Waynergy.Isolation
import Waynergy.ClipBounds

/-!
# Keys when control leaves (`main.c`)

The client and the keys together: the callbacks of `main.c` pass the key events on to `wlKey`, and release all
keys when the screen is left. They do not touch the context, so they are called after an operation instead of
during it. A capture ends with a COUT or with the connection; only a COUT reaches the callback that releases
the keys.
-/

namespace Waynergy
open Lib

/-! ### The callbacks -/

def synKeyCb (h : Heap) (key id : Nat) (down rpt : Bool) : Keys Unit :=
  if !rpt then wlKey h key id down else pure ()

/-- The commands that are run at a change of the screen do not touch the keys. -/
def synActiveCb (h : Heap) (active : Bool) : Keys Unit := if !active then wlKeyReleaseAll h else pure ()

def callback (h : Heap) : Event → Keys Unit
  | .keyboard key id _ down rpt => synKeyCb h key id down rpt
  | .screenActive active => synActiveCb h active
  | _ => pure ()

def callbacks (h : Heap) : List Event → Keys Unit
  | [] => pure ()
  | ev :: evs => do
    callback h ev
    callbacks h evs

/-- The state of the client and of the keys. -/
structure Program where
  syn : State
  input : WlInput

namespace Program

def init (cfg : Config) (keys : KeyConfig) : Program := ⟨.init cfg, .init keys⟩

/-- An operation, and the callbacks that it makes. -/
def exec (step : Op × Heap) : Proc Stop Program Unit := do
  let p ← get
  zoom syn (fun s p => { p with syn := s }) step.1.exec
  let p' ← get
  zoom input (fun s p => { p with input := s }) (callbacks step.2 (p'.syn.out.drop p.syn.out.length))

end Program

variable {s s' : State} {input : WlInput} {h : Heap} {p p' : Program} {op : Op}

/-! ### What the callbacks do -/

theorem callback_balanced (ev : Event) (hs : input.Balanced) : wp (callback h ev)
    (fun _ input' => input'.Balanced) (fun stop _ => stop ≠ .spinning) input := by
  cases ev with
  | keyboard key id modifiers down rpt =>
    unfold callback synKeyCb
    rw [wp_ite]
    split
    exacts [wlKey_balanced h key id down hs, hs]
  | screenActive active =>
    unfold callback synActiveCb
    rw [wp_ite]
    split
    · exact wp_mono (wlKeyReleaseAll_spec h hs) (fun _ _ h => h.1) fun _ _ => False.elim
    · exact hs
  | _ => exact hs

theorem callbacks_balanced (evs : List Event) (hs : input.Balanced) : wp (callbacks h evs)
    (fun _ input' => input'.Balanced) (fun stop _ => stop ≠ .spinning) input := by
  induction evs generalizing input with
  | nil => exact hs
  | cons ev evs ih =>
    unfold callbacks
    rw [wp_bind]
    exact wp_mono (callback_balanced ev hs) (fun _ _ h => ih h) fun _ _ => id

theorem callback_passive {ev : Event} (hev : ¬ ev.IsKey) : callback h ev = pure () := by
  cases ev with
  | keyboard | screenActive => exact absurd trivial hev
  | _ => rfl

theorem wp_callbacks_passive {Q : Unit → WlInput → Prop} {E : Stop → WlInput → Prop} {evs : List Event}
    (hevs : ∀ ev ∈ evs, ¬ ev.IsKey) (rest : List Event) :
    wp (callbacks h (evs ++ rest)) Q E input ↔ wp (callbacks h rest) Q E input := by
  induction evs with
  | nil => exact Iff.rfl
  | cons ev evs ih =>
    rw [List.cons_append, callbacks, callback_passive (hevs ev (by simp)), pure_bind]
    exact ih fun ev hev => hevs ev (by simp [hev])

theorem callbacks_leave {pre post : List Event} (hs : input.Balanced) (hkey : ∀ ev ∈ pre ++ post, ¬ ev.IsKey) :
    wp (callbacks h (pre ++ [.screenActive false] ++ post)) (fun _ input' => input'.Released)
      (fun _ _ => False) input := by
  rw [List.append_assoc, wp_callbacks_passive fun ev hev => hkey ev (by simp [hev])]
  show wp (wlKeyReleaseAll h >>= fun _ => callbacks h post) _ _ _
  rw [wp_bind]
  refine wp_mono (wlKeyReleaseAll_spec h hs) (fun _ input' h' => ?_) fun _ _ => id
  rw [← List.append_nil post, wp_callbacks_passive fun ev hev => hkey ev (by simp [hev])]
  exact h'.2.2

/-! ### Captures -/

/-- The client is connected, and a CINN was processed since the screen was left. -/
def Captured (s : State) : Prop := s.ctx.connected = true ∧ s.ctx.isCaptured = true

def EndsCapture (s s' : State) : Prop := Captured s ∧ ¬ Captured s'

/-- A capture ends with a COUT, which tells that the screen is left, or with nothing that reaches the keys. -/
theorem capture_ends (hop : op.exec.run s = .ok () s') (hends : EndsCapture s s')
    (hcb : s.ctx.callbacks.screenActive = true) :
    (op.pkt = some .cout ∧ ∃ pre post, s'.out = s.out ++ (pre ++ [.screenActive false] ++ post) ∧
      ∀ ev ∈ pre ++ post, ¬ ev.IsKey) ∨
    (op.pkt ≠ some .cout ∧ ∃ evs, s'.out = s.out ++ evs ∧ ∀ ev ∈ evs, ¬ ev.IsKey) := by
  obtain ⟨⟨hup, hcaptured⟩, hnot⟩ := hends
  cases wp_ok (life_spec op s) hop with
  | stands _ up' captured => exact absurd ⟨up', captured hcaptured⟩ hnot
  | leaves hpkt _ _ out =>
    have hleave : screenActiveCallback s.ctx false = [.screenActive false] := if_pos hcb
    rw [hleave] at out
    exact .inl ⟨hpkt, out⟩
  | ends hpkt _ _ _ rest =>
    obtain ⟨evs, ho, hkey, -⟩ := rest.out
    exact .inr ⟨hpkt, evs, ho, hkey⟩
  | rests down | connects down => rw [hup] at down; cases down

/-- What the callbacks of an operation that ends a capture do to the keys. -/
theorem callbacks_capture_ends (hs : input.Balanced) (hop : op.exec.run s = .ok () s') (hends : EndsCapture s s')
    (hcb : s.ctx.callbacks.screenActive = true) : wp (callbacks h (s'.out.drop s.out.length))
      (fun _ input' => input'.Released ↔ op.pkt = some .cout ∨ input.Unpressed) (fun _ _ => False) input := by
  rcases capture_ends hop hends hcb with ⟨hpkt, pre, post, ho, hkey⟩ | ⟨hpkt, evs, ho, hkey⟩
  · rw [ho, List.drop_left]
    exact wp_mono (callbacks_leave hs hkey) (fun _ _ h => iff_of_true h (.inl hpkt)) fun _ _ => id
  · rw [ho, List.drop_left, ← List.append_nil evs, wp_callbacks_passive hkey]
    show input.Released ↔ _
    rw [hs.released_iff]
    exact ⟨.inr, fun h => h.resolve_left hpkt⟩

/-! ### Runs -/

namespace Program

theorem wp_exec {Q : Unit → Program → Prop} {E : Stop → Program → Prop} : wp (exec (op, h)) Q E p ↔
    wp op.exec (fun _ s' => wp (callbacks h (s'.out.drop p.syn.out.length)) (fun _ input' => Q () ⟨s', input'⟩)
      (fun e input' => E e ⟨s', input'⟩) p.input) (fun e s' => E e ⟨s', p.input⟩) p.syn := by
  unfold exec
  simp only [wp_bind, wp_get, wp_zoom]

/-- The client does its operation, whatever becomes of the keys. -/
theorem run_syn {step : Op × Heap} (hrun : (exec step).run p = .ok () p') :
    step.1.exec.run p.syn = .ok () p'.syn := by
  have hwp : wp (exec step) (fun _ p' => step.1.exec.run p.syn = .ok () p'.syn) (fun _ _ => True) p := by
    rw [wp_exec]
    refine wp_mono (wp_run (Q := fun _ _ => True) (E := fun _ _ => True) ?_) ?_ fun _ _ _ => trivial
    · unfold wp
      split <;> trivial
    · rintro _ s' ⟨-, hs'⟩
      unfold wp
      split
      exacts [hs', trivial]
  exact wp_ok (Q := fun _ p' => step.1.exec.run p.syn = .ok () p'.syn) hwp hrun

variable {cfg : Config} {keys : KeyConfig} {steps : List (Program × (Op × Heap))}

theorem run_client (hrun : Run exec (init cfg keys) steps p) :
    ∃ steps', Run Op.exec (State.init cfg) steps' p.syn := by
  induction hrun with
  | nil => exact ⟨[], .nil⟩
  | snoc _ hop ih =>
    obtain ⟨steps', hs⟩ := ih
    exact ⟨_, hs.snoc (run_syn hop)⟩

theorem balanced_of_run (hrun : Run exec (init cfg keys) steps p) : p.input.Balanced := by
  refine hrun.invariant (P := fun p => p.input.Balanced) (WlInput.balanced_init keys) ?_
  rintro p ⟨op, h⟩ p' - hb hop
  have hwp : wp (exec (op, h)) (fun _ p' => p'.input.Balanced) (fun _ _ => True) p := by
    rw [wp_exec]
    unfold wp
    split
    · exact wp_mono (callbacks_balanced _ hb) (fun _ _ h => h) fun _ _ _ => trivial
    · trivial
  exact wp_ok hwp hop

theorem run_exec {input' : WlInput} (hop : op.exec.run p.syn = .ok () s')
    (hcalls : (callbacks h (s'.out.drop p.syn.out.length)).run p.input = .ok () input') :
    (exec (op, h)).run p = .ok () ⟨s', input'⟩ := by
  have hwp : wp (exec (op, h)) (fun _ p' => p' = ⟨s', input'⟩) (fun _ _ => False) p :=
    wp_exec.mpr (wp_of_ok hop (wp_of_ok hcalls rfl))
  obtain ⟨_, p', hrun, rfl⟩ := exists_ok_of_wp hwp
  exact hrun

end Program

/-- In every run of the client with the callbacks of `main`, an operation that ends a capture leaves every key
released exactly if it is a COUT, or no key was pressed before it; and the callbacks of such an operation come to
their end. -/
theorem keys_released_iff {clientName : Bytes} {clientWidth clientHeight : Nat} {useRawKeyCodes useClipboard : Bool}
    {errorIsFatal : SynError → Bool} {keys : KeyConfig} {steps : List (Program × (Op × Heap))}
    (hrun : Run Program.exec (.init (mainConfig clientName clientWidth clientHeight useRawKeyCodes useClipboard
      errorIsFatal) keys) steps p) :
    (∀ t op h t', (t, (op, h)) ∈ steps → (Program.exec (op, h)).run t = .ok () t' → EndsCapture t.syn t'.syn →
      (t'.input.Released ↔ op.pkt = some .cout ∨ t.input.Unpressed)) ∧
    ∀ (op : Op) (h : Heap) s', op.exec.run p.syn = .ok () s' → EndsCapture p.syn s' →
      ∃ input', (Program.exec (op, h)).run p = .ok () ⟨s', input'⟩ := by
  -- what a step does that ends a capture, after a run that leads to `t`
  have ends : ∀ {t : Program} {steps}, Run Program.exec (.init (mainConfig clientName clientWidth clientHeight
      useRawKeyCodes useClipboard errorIsFatal) keys) steps t → ∀ (op : Op) (h : Heap) s',
      op.exec.run t.syn = .ok () s' → EndsCapture t.syn s' → ∃ input',
        (Program.exec (op, h)).run t = .ok () ⟨s', input'⟩ ∧
          (input'.Released ↔ op.pkt = some .cout ∨ t.input.Unpressed) := by
    intro t steps hrun op h s' hop hends
    obtain ⟨steps', hclient⟩ := Program.run_client hrun
    have hcb : t.syn.ctx.callbacks.screenActive = true := by rw [callbacks_of_run hclient]; rfl
    obtain ⟨_, input', hcalls, hreleased⟩ := exists_ok_of_wp
      (callbacks_capture_ends (h := h) (Program.balanced_of_run hrun) hop hends hcb)
    exact ⟨input', Program.run_exec hop hcalls, hreleased⟩
  refine ⟨fun t op h t' hm hstep hends => ?_, fun op h s' hop hends => ?_⟩
  · obtain ⟨pre, post, -, hpre⟩ := hrun.before_step hm
    obtain ⟨input', hstep', hreleased⟩ := ends hpre op h t'.syn (Program.run_syn hstep) hends
    rw [hstep] at hstep'
    have : t'.input = input' := congrArg Program.input (EStateM.Result.ok.inj hstep').2
    rw [this]
    exact hreleased
  · obtain ⟨input', hstep, -⟩ := ends hrun op h s' hop hends
    exact ⟨input', hstep⟩

/-! ### A key that stays pressed -/

/-- The key 2 goes down. -/
def dkdnBody : Bytes := ascii ['D', 'K', 'D', 'N'] ++ [0, 2, 0, 0, 0, 2]

theorem program_connect : (Program.exec (.connect ⟨some [.socket 3 true], 0⟩, allowAll)).run
    (.init .sample .sample) = .ok () ⟨.opened .sample, .init .sample⟩ :=
  Program.run_exec (run_connect_init .sample) rfl

theorem program_netDisconnect (hfd : p.syn.net.fd ≠ -1) : ∃ s', s'.ctx.connected = false ∧
    (Program.exec (.netDisconnect, h)).run p = .ok () ⟨s', p.input⟩ := by
  refine ⟨_, ?_, Program.run_exec (run_netDisconnect hfd) ?_⟩
  · rfl
  · show (callbacks h (p.syn.out.drop p.syn.out.length)).run p.input = _
    rw [List.drop_length]
    rfl

/-- A CINN, then the key 2 goes down; a COUT would leave the screen. -/
theorem program_pressed : ∃ p p', (Program.exec (.message .smooth cinnBody 14, allowAll)).run
    ⟨.opened .sample, .init .sample⟩ = .ok () p ∧
      (Program.exec (.message .smooth dkdnBody 10, allowAll)).run p = .ok () p' ∧
      Captured p'.syn ∧ p'.syn.net.fd ≠ -1 ∧ ¬ p'.input.Unpressed ∧
      ∃ s', (Op.message .smooth (ascii ['C', 'O', 'U', 'T']) 4).exec.run p'.syn = .ok () s' ∧
        s'.ctx.isCaptured = false := by
  obtain ⟨s, s', s'', hop, hcalls, hop', hup, hcap, hfd, hcalls', hleave, hleft⟩ : ∃ s s' s'',
      (Op.message .smooth cinnBody 14).exec.run (.opened .sample) = .ok () s ∧
      (callbacks allowAll (s.out.drop 1)).run (.init .sample) = .ok () (.init .sample) ∧
      (Op.message .smooth dkdnBody 10).exec.run s = .ok () s' ∧
      s'.ctx.connected = true ∧ s'.ctx.isCaptured = true ∧ s'.net.fd ≠ -1 ∧
      (callbacks allowAll (s'.out.drop s.out.length)).run (.init .sample) =
        .ok () ⟨.sample, [0, 0, 1], [(2, true)], [(2, true)]⟩ ∧
      (Op.message .smooth (ascii ['C', 'O', 'U', 'T']) 4).exec.run s' = .ok () s'' ∧ s''.ctx.isCaptured = false :=
    ⟨_, _, _, rfl, rfl, rfl, rfl, rfl, by decide, rfl, rfl, rfl⟩
  have hpressed : ¬ (⟨.sample, [0, 0, 1], [(2, true)], [(2, true)]⟩ : WlInput).Unpressed := fun h =>
    absurd (h 1 (by simp)) (by decide)
  exact ⟨_, _, Program.run_exec hop hcalls, Program.run_exec hop' hcalls', ⟨hup, hcap⟩, hfd, hpressed, s'', hleave, hleft⟩

/-- The screen is left while the key is pressed. -/
theorem keys_released_iff_leave : ∃ p, ¬ p.input.Unpressed ∧ ∃ p',
    (Program.exec (.message .smooth (ascii ['C', 'O', 'U', 'T']) 4, allowAll)).run p = .ok () p' ∧
      EndsCapture p.syn p'.syn ∧ p'.input.Released := by
  obtain ⟨p, p', hcinn, hdkdn, hcap, -, hpressed, s', hop, hdown⟩ := program_pressed
  have hends : EndsCapture p'.syn s' := ⟨hcap, fun h => by rw [h.2] at hdown; cases hdown⟩
  have hrun := ((Run.single program_connect).snoc hcinn).snoc hdkdn
  obtain ⟨input', hstep⟩ := (keys_released_iff hrun).2 _ allowAll s' hop hends
  exact ⟨p', hpressed, _, hstep, hends, ((keys_released_iff (hrun.snoc hstep)).1 _ _ _ _
    (List.mem_append_right _ (List.mem_singleton_self _)) hstep hends).mpr (.inl rfl)⟩

/-- A key is pressed when the connection is lost, and is not released. -/
theorem key_stays_pressed : ¬ ∀ clientName clientWidth clientHeight useRawKeyCodes useClipboard errorIsFatal keys
    steps p, Run Program.exec
      (.init (mainConfig clientName clientWidth clientHeight useRawKeyCodes useClipboard errorIsFatal) keys) steps p →
    ∀ t step t', (t, step) ∈ steps → (Program.exec step).run t = .ok () t' → EndsCapture t.syn t'.syn →
      t'.input.Released := by
  intro h
  obtain ⟨p, p', hcinn, hdkdn, hcap, hfd, hpressed, -⟩ := program_pressed
  obtain ⟨s', hdown, hstep⟩ := program_netDisconnect (h := allowAll) hfd
  have hends : EndsCapture p'.syn s' := ⟨hcap, fun h => by rw [h.1] at hdown; cases hdown⟩
  have hrun := (((Run.single program_connect).snoc hcinn).snoc hdkdn).snoc hstep
  have hreleased := h _ _ _ _ _ _ _ _ _ hrun _ _ _ (List.mem_append_right _ (List.mem_singleton_self _)) hstep hends
  exact hpressed hreleased.1

end Waynergy
