import Waynergy.HeldKeys
import Waynergy.Frames

/-!
# A run between the server and the backend

After every run the calls are those that `follow` makes of what has happened, the other side of the backend has what they
ask for, and what has happened in between is what the client told. The presses and releases that were handed over agree
with the counts of the keys.
-/

namespace Waynergy
open Lib
variable {R : Type} {h : Heap} {keys : KeyConfig} {buttonMap : Fin wlInputButtonCount → Int} {held : Multiset Int}
  {screen : Screen} {c : InputBackend} {outside : Nat → CallEnv} {b : Backend R}

/-! ### The tables -/

theorem wlMouseButton_clicks (inputs : Inputs) (button : Int) (state : Bool) : wp (wlMouseButton button state)
    (fun _ inputs' => inputs' = { inputs with
      buttons := inputs.buttons ++ (buttonCode inputs.buttonMap button).map (·, state) }) (fun _ _ => True) inputs := by
  unfold wlMouseButton buttonCode
  rw [wp_ite]
  split
  · rename_i hge
    rw [if_neg (by omega), dif_neg (by omega)]
    simp
  · split
    · rename_i hin
      rw [if_neg (by omega), dif_pos hin.2]
      rfl
    · trivial

/-- What the tables do with something is what `follow` says. -/
theorem toInputs_follows (buttonMap : Fin wlInputButtonCount → Int) (h : Heap) {inputs : Inputs}
    (hs : HeldBy keys held inputs.input) (x : Cause) :
    wp (x.toInputs h) (fun _ inputs' =>
      Presses keys inputs.input (keysOf keys held x) ((follow keys buttonMap).next held x) inputs'.input ∧
        inputs'.buttonMap = inputs.buttonMap ∧ inputs'.buttons = inputs.buttons ++ clicksOf inputs.buttonMap x)
      (fun _ _ => True) inputs := by
  have hstill : Presses keys inputs.input [] held inputs.input ∧ inputs.buttonMap = inputs.buttonMap ∧
      inputs.buttons = inputs.buttons ++ [] := ⟨.none hs, rfl, (List.append_nil _).symm⟩
  have hclick : ∀ button state, wp (wlMouseButton button state) (fun _ inputs' =>
      Presses keys inputs.input [] held inputs'.input ∧ inputs'.buttonMap = inputs.buttonMap ∧
        inputs'.buttons = inputs.buttons ++ (buttonCode inputs.buttonMap button).map (·, state))
      (fun _ _ => True) inputs := by
    intro button state
    refine wp_mono (wlMouseButton_clicks inputs button state) ?_ fun _ _ => id
    rintro _ _ rfl
    exact ⟨.none hs, rfl, rfl⟩
  have hkeys : ∀ {m : Keys Unit} {ks held'}, wp m (fun _ s' => Presses keys inputs.input ks held' s')
      (fun _ _ => True) inputs.input → wp (onKeys m) (fun _ inputs' =>
        Presses keys inputs.input ks held' inputs'.input ∧ inputs'.buttonMap = inputs.buttonMap ∧
          inputs'.buttons = inputs.buttons ++ []) (fun _ _ => True) inputs := by
    intro m ks held' hm
    exact wp_onKeys.mpr (wp_mono hm (fun _ _ hp => ⟨hp, rfl, (List.append_nil _).symm⟩) fun _ _ _ => trivial)
  cases x with
  | told ev =>
    cases ev with
    | mouseButtonDown button => exact hclick button true
    | mouseButtonUp button => exact hclick button false
    | keyboard key id modifiers down rpt =>
      cases rpt with
      | true => exact hstill
      | false => exact hkeys (wlKey_presses h hs key id down)
    | screenActive active =>
      cases active with
      | true => exact hstill
      | false => exact hkeys (wlKeyReleaseAll_presses h hs)
    | _ => exact hstill
  | idleKey keyRaw key => exact hkeys (onIdleKey_presses h hs keyRaw key)
  | _ => exact hstill

/-! ### The calls -/

/-- The codes of the button map, for uinput to declare. -/
def buttonCodes (buttonMap : Fin wlInputButtonCount → Int) : List Int :=
  (List.finRange wlInputButtonCount).map buttonMap

theorem keys_direct (x : Cause) : ∀ call ∈ x.direct, call.key? = none := by
  intro call hcall
  unfold Cause.direct at hcall
  split at hcall
  all_goals
    simp only [List.mem_singleton, List.not_mem_nil] at hcall
    try subst hcall
    try rfl

theorem keys_follow (held : Multiset Int) (x : Cause) :
    ((follow keys buttonMap).answer held x).filterMap InputCall.key? = keysOf keys held x := by
  have hdirect : x.direct.filterMap InputCall.key? = [] :=
    List.filterMap_eq_nil_iff.mpr (keys_direct x)
  have hkeys : ∀ ks : List (Int × Bool), (ks.map fun key => InputCall.key key.1 key.2).filterMap InputCall.key? = ks := by
    intro ks
    rw [List.filterMap_map]
    exact List.filterMap_some
  have hclicks : ∀ bs : List (Int × Bool),
      (bs.map fun button => InputCall.mouseButton button.1 button.2).filterMap InputCall.key? = [] := by
    intro bs
    rw [List.filterMap_map]
    exact List.filterMap_eq_nil_iff.mpr fun _ _ => rfl
  unfold follow
  rw [List.filterMap_append, List.filterMap_append, hdirect, hkeys, hclicks, List.append_nil, List.nil_append]

namespace Station

/-- The other side has what the calls asked for, and each call was answered from outside. -/
structure Served (b : Backend R) (outside : Nat → CallEnv) (screen : Screen) (s : Station R) : Prop where
  made : b.Served screen s.calls s.display
  answered : ∀ step ∈ s.calls, ∃ n, step.1 = outside n

theorem callAll_served (hb : b.Complete) {calls : List InputCall} {s : Station R} (hs : s.Served b outside screen) :
    wp (callAll b outside calls) (fun _ s' => (s'.syn = s.syn ∧ s'.inputs = s.inputs ∧ s'.happened = s.happened) ∧
      s'.calls.map Prod.snd = s.calls.map Prod.snd ++ calls ∧ s'.Served b outside screen) (fun _ _ => True) s := by
  induction calls generalizing s with
  | nil => exact ⟨⟨rfl, rfl, rfl⟩, (List.append_nil _).symm, hs⟩
  | cons call calls ih =>
    unfold callAll
    rw [wp_bind, wp_get]
    dsimp only
    rw [wp_bind, wp_zoomStop]
    refine wp_mono (hs.made.exec hb _) ?_ fun _ _ _ => trivial
    intro _ d hd
    rw [wp_bind, wp_modify]
    refine wp_mono (ih ⟨hd, ?_⟩) ?_ fun _ _ => id
    · intro step hm
      rcases List.mem_append.mp hm with hm | hm
      · exact hs.answered step hm
      · rw [List.mem_singleton.mp hm]
        exact ⟨_, rfl⟩
    · rintro _ s' ⟨hsame, hmade, hserved⟩
      refine ⟨hsame, ?_, hserved⟩
      rw [hmade, List.map_append, List.append_assoc]
      rfl

/-! ### What stays true -/

/-- The calls are those that `follow` makes of what has happened, the other side has what they asked for, and the
counts are those of the keys that are held. -/
structure Sound (keys : KeyConfig) (buttonMap : Fin wlInputButtonCount → Int) (screen : Screen)
    (outside : Nat → CallEnv) (s : Station c.Request) : Prop where
  held : HeldBy keys ((follow keys buttonMap).after 0 s.happened) s.inputs.input
  map : s.inputs.buttonMap = buttonMap
  calls : s.calls.map Prod.snd = (follow keys buttonMap).output 0 s.happened
  keys : (s.calls.map Prod.snd).filterMap InputCall.key? = s.inputs.input.sent
  range : ∀ k ∈ s.inputs.input.sent, 0 ≤ k.1 ∧ k.1 < 2 ^ 31
  served : s.Served (c.backend (buttonCodes buttonMap)) outside screen

theorem happen_sound {s : Station c.Request} (hs : s.Sound keys buttonMap screen outside) (x : Cause) :
    wp (happen (c.backend (buttonCodes buttonMap)) outside h x)
      (fun _ s' => s'.Sound keys buttonMap screen outside ∧ s'.syn = s.syn ∧ s'.happened = s.happened ++ [x])
      (fun _ _ => True) s := by
  unfold happen
  rw [wp_bind, wp_get, wp_bind, wp_zoomStop]
  refine wp_mono (toInputs_follows buttonMap h hs.held x) ?_ fun _ _ _ => trivial
  rintro _ inputs ⟨hpress, hmap, hclicks⟩
  rw [wp_bind, wp_get, wp_bind]
  have hnew : x.direct ++ newCalls s { s with inputs := inputs } =
      (follow keys buttonMap).answer ((follow keys buttonMap).after 0 s.happened) x := by
    unfold newCalls
    rw [hpress.sent, hclicks, List.drop_left, List.drop_left, hs.map, ← List.append_assoc]
    rfl
  rw [hnew]
  refine wp_mono (callAll_served (s := { s with inputs := inputs }) InputBackend.complete
    ⟨hs.served.made, hs.served.answered⟩) ?_ fun _ _ => id
  rintro _ s' ⟨⟨hsyn, hinputs, hhappened⟩, hcalls, hserved⟩
  rw [wp_modify]
  refine ⟨⟨?_, ?_, ?_, ?_, ?_, ⟨hserved.made, hserved.answered⟩⟩, hsyn, congrArg (· ++ [x]) hhappened⟩
  · show HeldBy keys ((follow keys buttonMap).after 0 (s'.happened ++ [x])) s'.inputs.input
    rw [hhappened, hinputs, Transducer.after_append]
    exact hpress.holds
  · exact (congrArg Inputs.buttonMap hinputs).trans (hmap.trans hs.map)
  · show s'.calls.map Prod.snd = (follow keys buttonMap).output 0 (s'.happened ++ [x])
    rw [hcalls, hs.calls, hhappened, Transducer.output_append]
    exact congrArg (_ ++ ·) (List.append_nil _).symm
  · show (s'.calls.map Prod.snd).filterMap InputCall.key? = s'.inputs.input.sent
    rw [hcalls, List.filterMap_append, hs.keys, keys_follow, hinputs]
    exact hpress.sent.symm
  · show ∀ k ∈ s'.inputs.input.sent, 0 ≤ k.1 ∧ k.1 < 2 ^ 31
    rw [hinputs, hpress.sent]
    intro k hk
    rcases List.mem_append.mp hk with hk | hk
    exacts [hs.range k hk, hpress.range k hk]

theorem happenAll_sound {s : Station c.Request}
    (hs : s.Sound keys buttonMap screen outside) (xs : List Cause) :
    wp (happenAll (c.backend (buttonCodes buttonMap)) outside h xs)
      (fun _ s' => s'.Sound keys buttonMap screen outside ∧ s'.syn = s.syn ∧ s'.happened = s.happened ++ xs)
      (fun _ _ => True) s := by
  induction xs generalizing s with
  | nil => exact ⟨hs, rfl, (List.append_nil _).symm⟩
  | cons x xs ih =>
    unfold happenAll
    rw [wp_bind]
    refine wp_mono (happen_sound hs x) ?_ fun _ _ => id
    rintro _ s₁ ⟨hs₁, hsyn, hhappened⟩
    refine wp_mono (ih hs₁) ?_ fun _ _ => id
    rintro _ s₂ ⟨hs₂, hsyn', hhappened'⟩
    refine ⟨hs₂, hsyn'.trans hsyn, ?_⟩
    rw [hhappened', hhappened, List.append_assoc]
    rfl

/-- What has happened in between is what the client told. -/
def Told (s : Station R) : Prop := s.happened.filterMap Cause.event? = s.syn.out

theorem onClient_sound {s : Station c.Request}
    (hs : s.Sound keys buttonMap screen outside) (htold : s.Told) {m : Syn Unit} (hm : Speaking m) :
    wp (onClient (c.backend (buttonCodes buttonMap)) outside h m)
      (fun _ s' => s'.Sound keys buttonMap screen outside ∧ s'.Told) (fun _ _ => True) s := by
  unfold onClient
  rw [wp_bind, wp_get, wp_bind, wp_zoomStop]
  refine wp_mono (hm s.syn) ?_ fun _ _ _ => trivial
  rintro _ t ⟨-, evs, hout, -⟩
  rw [wp_bind, wp_get]
  have hs' : Sound keys buttonMap screen outside { s with syn := t } := ⟨hs.held, hs.map, hs.calls, hs.keys, hs.range,
    ⟨hs.served.made, hs.served.answered⟩⟩
  refine wp_mono (happenAll_sound hs' _) ?_ fun _ _ => id
  rintro _ s' ⟨hsound, hsyn, hhappened⟩
  refine ⟨hsound, ?_⟩
  have hevents : (evs.map Cause.told).filterMap Cause.event? = evs := by
    rw [List.filterMap_map]
    exact List.filterMap_some
  rw [Told, hhappened, hsyn]
  show (s.happened ++ (t.out.drop s.syn.out.length).map Cause.told).filterMap Cause.event? = t.out
  rw [hout, List.drop_left, List.filterMap_append, htold, hevents]

theorem exec_sound {s : Station c.Request} (hs : s.Sound keys buttonMap screen outside) (htold : s.Told)
    (step : StationOp × Heap) : wp (exec (c.backend (buttonCodes buttonMap)) outside step)
      (fun _ s' => s'.Sound keys buttonMap screen outside ∧ s'.Told) (fun _ _ => True) s := by
  have hlocal : ∀ x, x.event? = none → ∀ {s : Station c.Request}, s.Sound keys buttonMap screen outside → s.Told →
      wp (happen (c.backend (buttonCodes buttonMap)) outside step.2 x)
        (fun _ s' => s'.Sound keys buttonMap screen outside ∧ s'.Told) (fun _ _ => True) s := by
    intro x hx s hs htold
    refine wp_mono (happen_sound hs x) ?_ fun _ _ => id
    rintro _ s' ⟨hs', hsyn, hhappened⟩
    refine ⟨hs', ?_⟩
    rw [Told, hhappened, hsyn, List.filterMap_append, htold]
    simp [hx]
  obtain ⟨op, h⟩ := step
  cases op with
  | client op => exact onClient_sound hs htold op.speaking
  | outputs sent width height =>
    unfold exec
    dsimp only
    rw [wp_bind]
    refine wp_mono (onClient_sound hs htold (Speaking.uSynergyUpdateRes sent _ _)) ?_ fun _ _ => id
    rintro _ s₁ ⟨hs₁, htold₁⟩
    exact hlocal _ rfl hs₁ htold₁
  | idleMouse => exact hlocal _ rfl hs htold
  | idleKey keyRaw key => exact hlocal _ rfl hs htold

theorem sound_of_run {cfg : Config} {steps : List (Station c.Request × (StationOp × Heap))} {s : Station c.Request}
    (hrun : Run (exec (c.backend (buttonCodes buttonMap)) outside) (start cfg keys buttonMap screen) steps s) :
    s.Sound keys buttonMap screen outside ∧ s.Told := by
  refine hrun.invariant (P := fun s => s.Sound keys buttonMap screen outside ∧ s.Told) ⟨?_, rfl⟩ ?_
  · exact ⟨⟨rfl, WlInput.balanced_init keys, WlInput.legal_nil, fun key => by
      simp [start, Inputs.init, WlInput.count, WlInput.init]⟩, rfl, rfl, rfl, by simp [start, Inputs.init, WlInput.init],
        Backend.served_nil _, by simp [start]⟩
  · rintro s step s' - ⟨hs, htold⟩ hop
    exact wp_ok (Q := fun _ s' => s'.Sound keys buttonMap screen outside ∧ s'.Told) (exec_sound hs htold step) hop

/-! ### What is handed over -/

variable {cfg : Config} {steps : List (Station c.Request × (StationOp × Heap))} {s : Station c.Request}

/-- After every run the other side has the requests of the calls that follow what has happened, and the client has told
its part of that. -/
theorem calls_follow
    (hrun : Run (exec (c.backend (buttonCodes buttonMap)) outside) (start cfg keys buttonMap screen) steps s) :
    s.happened.filterMap Cause.event? = s.syn.out ∧
      s.calls.map Prod.snd = (follow keys buttonMap).output 0 s.happened ∧
      s.display = ⟨(c.backend (buttonCodes buttonMap)).transducer.after screen s.calls, [],
        (c.backend (buttonCodes buttonMap)).transducer.output screen s.calls⟩ := by
  obtain ⟨hs, htold⟩ := sound_of_run hrun
  obtain ⟨hqueued, hsent, hscreen⟩ := hs.served.made
  refine ⟨htold, hs.calls, ?_⟩
  rw [← hqueued, ← hsent, ← hscreen]

/-- The seat is kept awake by a key, and then by the mouse. -/
theorem calls_follow_idle : ∃ (s : Station UinputRequest) (steps : _), Run (exec (uinputBackend (buttonCodes fun i =>
      0x110 + i)) fun _ => .smooth) (start .sample .sample (fun i => 0x110 + i) ⟨800, 600⟩) steps s ∧
    s.display.sent = [.record .keyboard ⟨1, 22, 1⟩, .record .keyboard ⟨0, 0, 0⟩, .record .keyboard ⟨1, 22, 0⟩,
      .record .keyboard ⟨0, 0, 0⟩, .record .mouse ⟨2, 0, 0⟩, .record .mouse ⟨2, 1, 0⟩, .record .mouse ⟨0, 0, 0⟩] := by
  obtain ⟨s₁, s₂, hkey, hmouse, hcalls⟩ : ∃ s₁ s₂ : Station UinputRequest,
      (exec (uinputBackend (buttonCodes fun i => 0x110 + i)) (fun _ => .smooth) (.idleKey 30 0, allowAll)).run
        (start .sample .sample (fun i => 0x110 + i) ⟨800, 600⟩) = .ok () s₁ ∧
      (exec (uinputBackend (buttonCodes fun i => 0x110 + i)) (fun _ => .smooth) (.idleMouse, allowAll)).run s₁ =
        .ok () s₂ ∧ s₂.calls = [(.smooth, .key 30 true), (.smooth, .key 30 false), (.smooth, .mouseRelMotion 0 0)] :=
    ⟨_, _, rfl, rfl, rfl⟩
  have hrun := (Run.single hkey).snoc hmouse
  obtain ⟨-, -, hdisplay⟩ := calls_follow (c := .uinput) hrun
  rw [hcalls] at hdisplay
  exact ⟨s₂, _, hrun, congrArg Display.sent hdisplay⟩

/-! ### The keys that are handed over -/

/-- No key is held, and none is struck. -/
theorem follow_still {xs : List Cause}
    (hxs : ∀ x ∈ xs, ∀ key id mods down rpt, x ≠ .told (.keyboard key id mods down rpt)) :
    (follow keys buttonMap).after 0 xs = 0 := by
  induction xs with
  | nil => rfl
  | cons x xs ih =>
    obtain ⟨hx, hxs⟩ := List.forall_mem_cons.mp hxs
    have hnext : (follow keys buttonMap).next 0 x = 0 := by
      unfold follow
      dsimp only
      split
      · exact absurd rfl (hx _ _ _ _ _)
      · rfl
      · rfl
    rw [Transducer.after_cons, hnext]
    exact ih hxs

/-- Where the records can be written, the other side is told the keys that were sent, but for those that are dropped. -/
theorem keys_told (hwritten : c = .uinput → ∀ n i, (outside n).written i = true)
    (hs : s.Sound keys buttonMap screen outside) : s.display.sent.filterMap c.key? =
      (s.inputs.input.sent.filter fun k => c.passes k.1).map fun k => (c.number k.1, k.2) := by
  rw [hs.served.made.sent, InputBackend.keys_output, hs.keys]
  intro hc step hm i
  obtain ⟨n, hn⟩ := hs.served.answered step hm
  rw [hn]
  exact hwritten hc n i

/-- A key is told as often as it was sent. -/
theorem count_told {sent : List (Int × Bool)} (hsent : ∀ k ∈ sent, 0 ≤ k.1 ∧ k.1 < 2 ^ 31) {key : Int}
    (hkey : 0 ≤ key ∧ key < 2 ^ 31) (hpasses : c.passes key = true) (down : Bool) :
    ((sent.filter fun k => c.passes k.1).map fun k => (c.number k.1, k.2)).count (c.number key, down) =
      sent.count (key, down) := by
  induction sent with
  | nil => rfl
  | cons k sent ih =>
    obtain ⟨hk, hsent⟩ := List.forall_mem_cons.mp hsent
    have hother : k.1 ≠ key → k ≠ (key, down) := fun hne heq => hne (congrArg Prod.fst heq)
    cases hpass : c.passes k.1 with
    | false =>
      have hne : k.1 ≠ key := by
        rintro rfl
        rw [hpass] at hpasses
        cases hpasses
      rw [List.filter_cons_of_neg (by simp [hpass]), ih hsent, List.count_cons_of_ne (hother hne)]
    | true =>
      rw [List.filter_cons_of_pos (by exact hpass), List.map_cons, List.count_cons, List.count_cons, ih hsent]
      by_cases heq : k.1 = key
      · simp [← heq, Prod.ext_iff]
      · have hnumber : c.number k.1 ≠ c.number key := fun h => heq (InputBackend.number_inj hk hkey hpass hpasses h)
        simp [hother heq, hnumber]

/-- In every part of what was handed over the presses of a key come first, and there are as many more of them as it is
counted; and since the screen was left, there are no more of them until a key is told again. -/
theorem keys_handed_over (hwritten : c = .uinput → ∀ n i, (outside n).written i = true)
    (hrun : Run (exec (c.backend (buttonCodes buttonMap)) outside) (start cfg keys buttonMap screen) steps s)
    {key : Int} (hkey : 0 ≤ key ∧ key < 2 ^ 31) (hpasses : c.passes key = true) :
    (∀ pre, pre <+: s.display.sent → c.times pre key false ≤ c.times pre key true) ∧
    (c.times s.display.sent key true : Int) = c.times s.display.sent key false + s.inputs.input.count key ∧
    ∀ pre post, s.happened = pre ++ .told (.screenActive false) :: post →
      (∀ x ∈ post, ∀ key id mods down rpt, x ≠ .told (.keyboard key id mods down rpt)) →
      c.times s.display.sent key true = c.times s.display.sent key false := by
  obtain ⟨hs, -⟩ := sound_of_run hrun
  have hcount : ∀ down, c.times s.display.sent key down = s.inputs.input.sent.count (key, down) := by
    intro down
    rw [InputBackend.times, keys_told hwritten hs, count_told hs.range hkey hpasses]
  have hheld := hs.held.balanced.sent key
  refine ⟨?_, ?_, ?_⟩
  · intro pre hpre
    have hkeys := hpre.filterMap c.key?
    rw [keys_told hwritten hs] at hkeys
    obtain ⟨passed, hpassed, heq⟩ := List.prefix_map_iff.mp hkeys
    obtain ⟨sent, hsent, rfl⟩ := List.prefix_filter_iff.mp hpassed
    have hrange : ∀ k ∈ sent, 0 ≤ k.1 ∧ k.1 < 2 ^ 31 := fun k hk => hs.range k (hsent.subset hk)
    rw [InputBackend.times, InputBackend.times, heq, count_told hrange hkey hpasses, count_told hrange hkey hpasses]
    exact hs.held.legal sent hsent key
  · rw [hcount, hcount]
    exact hheld
  · intro pre post hleft hpost
    have hzero : s.inputs.input.count key = 0 := by
      rw [← hs.held.counts, hleft, Transducer.after_append, Transducer.after_cons]
      have hnext : ∀ held, (follow keys buttonMap).next held (.told (.screenActive false)) = 0 := fun _ => rfl
      rw [hnext, follow_still hpost]
      rfl
    rw [hcount, hcount]
    omega

/-! ### A key that is pressed when the screen is left -/

theorem run_onClient {b : Backend R} {m : Syn Unit} {s s' : Station R} {t : State} (hm : m.run s.syn = .ok () t)
    (hcalls : (happenAll b outside h ((t.out.drop s.syn.out.length).map .told)).run { s with syn := t } = .ok () s') :
    (onClient b outside h m).run s = .ok () s' := by
  have hwp : wp (onClient b outside h m) (fun _ s'' => s'' = s') (fun _ _ => False) s := by
    unfold onClient
    rw [wp_bind, wp_get, wp_bind, wp_zoomStop]
    exact wp_of_ok hm (wp_of_ok hcalls rfl)
  obtain ⟨_, _, hrun, rfl⟩ := exists_ok_of_wp hwp
  exact hrun

theorem run_leave : ∃ t₁ t₂ m₁ m₂, (Op.message .smooth dkdnBody 10).exec.run (.opened .sample) = .ok () t₁ ∧
    t₁.out.drop 1 = [.message m₁ 0, .keyboard 2 2 0 true false, .send [0, 0, 0, 4, 67, 78, 79, 80], .returned true] ∧
    (Op.message .smooth (ascii ['C', 'O', 'U', 'T']) 4).exec.run t₁ = .ok () t₂ ∧ t₂.out.drop t₁.out.length =
      [.message m₂ 0, .screenActive false, .send [0, 0, 0, 4, 67, 78, 79, 80], .returned true] :=
  ⟨_, _, _, _, rfl, rfl, rfl, rfl⟩

/-- The key 2 was told to be pressed. -/
def pressed (t : State) (m : SspBuf) : Station KdeRequest where
  syn := t
  inputs := ⟨⟨.sample, [0, 0, 1], [(2, true)], [(2, true)]⟩, fun i => i, []⟩
  display := ⟨⟨800, 600⟩, [], [.keyboardKey (2 ^ 32 - 6) 1]⟩
  happened := [.told .connect, .told (.message m 0), .told (.keyboard 2 2 0 true false),
    .told (.send [0, 0, 0, 4, 67, 78, 79, 80]), .told (.returned true)]
  calls := [(.smooth, .key 2 true)]

/-- And then the screen was left. -/
def released (t : State) (m m' : SspBuf) : Station KdeRequest where
  syn := t
  inputs := ⟨⟨.sample, [0, 0, 0], [(2, true), (2, false)], [(2, true), (2, false)]⟩, fun i => i, []⟩
  display := ⟨⟨800, 600⟩, [], [.keyboardKey (2 ^ 32 - 6) 1, .keyboardKey (2 ^ 32 - 6) 0]⟩
  happened := ((pressed t m).happened ++ [.told (.message m' 0)]) ++ .told (.screenActive false) ::
    [.told (.send [0, 0, 0, 4, 67, 78, 79, 80]), .told (.returned true)]
  calls := [(.smooth, .key 2 true), (.smooth, .key 2 false)]

/-- The key 2 is pressed, and not released before the screen is left. -/
theorem keys_handed_over_left : ∃ (s : Station KdeRequest) (steps : _),
    Run (exec kdeBackend fun _ => .smooth) (start .sample .sample (fun i => i) ⟨800, 600⟩) steps s ∧
    s.display.sent = [.keyboardKey (2 ^ 32 - 6) 1, .keyboardKey (2 ^ 32 - 6) 0] ∧
    InputBackend.kde.times s.display.sent 2 true = InputBackend.kde.times s.display.sent 2 false := by
  obtain ⟨t₁, t₂, m₁, m₂, hpress, hout, hleave, hout'⟩ := run_leave
  have hopen : (exec kdeBackend (fun _ => .smooth) (.client (.connect ⟨some [.socket 3 true], 0⟩), allowAll)).run
      (start .sample .sample (fun i => i) ⟨800, 600⟩) =
        .ok () ⟨.opened .sample, .init .sample fun i => i, ⟨⟨800, 600⟩, [], []⟩, [.told .connect], []⟩ :=
    run_onClient (run_connect_init .sample) rfl
  have hdown : (exec kdeBackend (fun _ => .smooth) (.client (.message .smooth dkdnBody 10), allowAll)).run
      ⟨.opened .sample, .init .sample fun i => i, ⟨⟨800, 600⟩, [], []⟩, [.told .connect], []⟩ =
        .ok () (pressed t₁ m₁) := by
    refine run_onClient hpress ?_
    show (happenAll kdeBackend (fun _ => .smooth) allowAll ((t₁.out.drop 1).map .told)).run _ = _
    rw [hout]
    rfl
  have hup : (exec kdeBackend (fun _ => .smooth) (.client (.message .smooth (ascii ['C', 'O', 'U', 'T']) 4),
      allowAll)).run (pressed t₁ m₁) = .ok () (released t₂ m₁ m₂) := by
    refine run_onClient hleave ?_
    show (happenAll kdeBackend (fun _ => .smooth) allowAll ((t₂.out.drop t₁.out.length).map .told)).run _ = _
    rw [hout']
    rfl
  have hrun := ((Run.single hopen).snoc hdown).snoc hup
  obtain ⟨-, -, hleft⟩ := keys_handed_over (c := .kde) (by simp) hrun (show 0 ≤ (2 : Int) ∧ (2 : Int) < 2 ^ 31 by decide) rfl
  exact ⟨_, _, hrun, rfl, hleft _ _ rfl (by simp)⟩

end Station
end Waynergy
