import Waynergy.Receive

/-!
# Where the receive loop is safe

The bound check of the loop is made on `packlen + 4` as a `uint32_t`. The loop ends and stays inside the bytes
that were received exactly if no header that it reads wraps around.
-/

namespace Waynergy
open Lib
variable {msgs : Nat → MsgEnv} {s t : State}

/-- The trace grew by events that satisfy `ok`. -/
def Emits (ok : Event → Prop) (s s' : State) : Prop := ∃ evs, s'.out = s.out ++ evs ∧ ∀ ev ∈ evs, ok ev

theorem Emits.refl {ok : Event → Prop} (s : State) : Emits ok s s := ⟨[], by simp, by simp⟩

theorem Emits.trans {ok : Event → Prop} {s s' s'' : State} (h : Emits ok s s') (h' : Emits ok s' s'') :
    Emits ok s s'' := by
  obtain ⟨evs, ho, he⟩ := h
  obtain ⟨evs', ho', he'⟩ := h'
  refine ⟨evs ++ evs', by rw [ho', ho, List.append_assoc], fun ev hev => ?_⟩
  rcases List.mem_append.mp hev with hev | hev
  exacts [he ev hev, he' ev hev]

/-- A message handed over lies inside the `ofs` bytes that were received; what is moved to the front does, and
at least four bytes are removed. -/
def Event.InBounds : Event → Prop
  | .message msg ofs => 4 + msg.len ≤ ofs
  | .shift src len ofs ofs' => src + len ≤ ofs ∧ ofs' + 4 ≤ ofs
  | _ => True

theorem Event.inBounds_of_not_ghost {ev : Event} (h : ¬ ev.Ghost) : ev.InBounds := by
  cases ev <;> simp_all [Event.Ghost, Event.InBounds]

/-- From `s` the loop ends, and everything it hands over and moves lies inside the received bytes. -/
def LoopSafe (msgs : Nat → MsgEnv) (i : Nat) (s : State) : Prop :=
  ∃ fuel, wp (eatPackets msgs i fuel) (fun _ s' => Emits Event.InBounds s s')
    (fun stop s' => stop ≠ .spinning ∧ stop ≠ .fault .receiveBuffer ∧ Emits Event.InBounds s s') s

/-- The header wraps around, to at most the number of received bytes. -/
def Context.Wraps (c : Context) : Prop := 2 ^ 32 ≤ c.packlen + 4 ∧ c.packlen + 4 - 2 ^ 32 ≤ c.receiveOfs

instance (c : Context) : Decidable c.Wraps := inferInstanceAs (Decidable (_ ∧ _))

/-- `Reads msgs i s j t`: taking one whole packet after another, in exact arithmetic, while the connection
stands, leads from `s` to the state `t`, where the header of the `j`-th message is read. -/
inductive Reads (msgs : Nat → MsgEnv) : Nat → State → Nat → State → Prop
  | here (i : Nat) (s : State) : Reads msgs i s i s
  | next {i j : Nat} {s s' t : State} (whole : s.ctx.packlen + 4 ≤ s.ctx.receiveOfs)
      (hand : (handMessage (msgs i) s.ctx.packet).run s = .ok () s') (up : s'.ctx.connected = true)
      (rest : Reads msgs (i + 1) (s'.consumed s.ctx.packlen) j t) : Reads msgs i s j t

theorem Context.wraps_or (c : Context) :
    packSize c.packlen > c.receiveOfs ∨ c.packlen + 4 ≤ c.receiveOfs ∨ c.Wraps := by
  have := c.packlen_lt
  unfold Wraps packSize
  omega

theorem Context.Wraps.passes {c : Context} (h : c.Wraps) : ¬ packSize c.packlen > c.receiveOfs := by
  have := c.packlen_lt
  unfold Wraps at h
  unfold packSize
  omega

theorem emits_handed {e : MsgEnv} (hle : s.ctx.packlen + 4 ≤ s.ctx.receiveOfs)  :
    wp (handMessage e s.ctx.packet) (fun _ s' => Emits Event.InBounds s s' ∧ Handed s.ctx.packet s s')
      (fun stop s' => stop ≠ .spinning ∧ stop ≠ .fault .receiveBuffer ∧ Emits Event.InBounds s s') s := by
  have hmsg : (Event.message s.ctx.packet s.ctx.receiveOfs).InBounds := by
    show 4 + s.ctx.packlen ≤ s.ctx.receiveOfs
    omega
  refine wp_mono (handMessage_spec e s.ctx.packet s) (fun _ s₁ h => ⟨?_, h⟩) fun stop s₁ ⟨hs, evs, ho, he⟩ => ?_
  · obtain ⟨evs, ho, he⟩ := h.out
    refine ⟨_, ho, fun ev hev => ?_⟩
    simp only [List.cons_append, List.mem_cons, List.mem_append, List.not_mem_nil, or_false] at hev
    rcases hev with rfl | hev | rfl
    exacts [hmsg, Event.inBounds_of_not_ghost (he ev hev), trivial]
  · refine ⟨?_, ?_, _, ho, fun ev hev => ?_⟩
    · rintro rfl; exact hs
    · rintro rfl; exact hs
    · rcases List.mem_cons.mp hev with rfl | hev
      exacts [hmsg, Event.inBounds_of_not_ghost (he ev hev)]

/-- Without a header that wraps around, every iteration takes at least four bytes away. -/
theorem loop_safe {fuel i : Nat} (hofs : s.ctx.receiveOfs ≤ receiveBufferSize) (hfuel : s.ctx.receiveOfs < fuel)
    (h : ∀ j t, Reads msgs i s j t → ¬ t.ctx.Wraps) :
    wp (eatPackets msgs i fuel) (fun _ s' => Emits Event.InBounds s s')
      (fun stop s' => stop ≠ .spinning ∧ stop ≠ .fault .receiveBuffer ∧ Emits Event.InBounds s s') s := by
  induction fuel generalizing i s with
  | zero => omega
  | succ fuel ih =>
    rw [wp_eatPackets_succ]
    split
    · exact Emits.refl s
    · rename_i hpass
      have hle : s.ctx.packlen + 4 ≤ s.ctx.receiveOfs := by
        rcases s.ctx.wraps_or with hp | hle | hw
        exacts [absurd hp hpass, hle, absurd hw (h i s (.here i s))]
      refine wp_mono (wp_run (emits_handed (e := msgs i) hle)) ?_ fun _ _ h => h.1
      rintro _ s₁ ⟨⟨hem, hd⟩, hrun⟩
      split
      · rename_i hup
        have hofs₁ := hd.up hup
        rw [wp_consume (by rw [hofs₁]; exact hle) (by rw [hofs₁]; exact hofs)]
        have hshift : Emits Event.InBounds s₁ (s₁.consumed s.ctx.packlen) := by
          refine ⟨_, rfl, fun ev hev => ?_⟩
          rw [List.mem_singleton.mp hev]
          show _ + _ ≤ _ ∧ _ + _ ≤ _
          omega
        have hofs' : (s₁.consumed s.ctx.packlen).ctx.receiveOfs = s.ctx.receiveOfs - (s.ctx.packlen + 4) := by
          rw [← hofs₁]; rfl
        refine wp_mono (ih (by omega) (by omega) fun j t ht => h j t (.next hle hrun hup ht)) ?_ ?_
        · exact fun _ _ h => (hem.trans hshift).trans h
        · exact fun _ _ h => ⟨h.1, h.2.1, (hem.trans hshift).trans h.2.2⟩
      · exact hem

/-! ### A header that wraps around -/

/-- The trace goes on. -/
def Extends (s s' : State) : Prop := s.out <+: s'.out

instance : Frame Extends where
  refl s := List.prefix_refl s.out
  trans h h' := List.IsPrefix.trans h h'

theorem extends_handMessage (e : MsgEnv) (msg : SspBuf) : Within Extends (fun _ => True) (handMessage e msg) := by
  refine fun s => wp_mono (handMessage_spec e msg s) (fun _ s' h => ?_) fun _ s' ⟨_, evs, ho, _⟩ => ⟨?_, trivial⟩
  · obtain ⟨evs, ho, _⟩ := h.out
    exact ⟨_, ho.symm⟩
  · exact ⟨_, ho.symm⟩

theorem extends_consume (packlen : Nat) : Within Extends (fun _ => True) (consume packlen) :=
  Within.read fun _ => Within.ite (Within.throw trivial) <|
    Within.bind (fun _ => List.prefix_append _ _) fun _ _ => List.prefix_refl _

theorem extends_eatPackets (i fuel : Nat) : Within Extends (fun _ => True) (eatPackets msgs i fuel) := by
  induction fuel generalizing i with
  | zero => exact Within.throw trivial
  | succ fuel ih =>
    exact Within.read fun s => Within.ite (Within.pure _) <| Within.bind (extends_handMessage _ _) fun _ =>
      Within.read fun s' => Within.ite (Within.bind (extends_consume _) fun _ => ih _) (Within.pure _)

/-- What is out of bounds stays in the trace. -/
theorem not_emits_inBounds {s₁ s' : State} {ev : Event} {evs : List Event} (ho : s₁.out = s.out ++ ev :: evs)
    (hev : ¬ ev.InBounds) (hs' : s₁.out <+: s'.out) : ¬ Emits Event.InBounds s s' := by
  rintro ⟨evs', ho', he⟩
  obtain ⟨more, hmore⟩ := hs'
  rw [ho', ho, List.append_assoc] at hmore
  exact hev (he ev (by rw [← List.append_cancel_left hmore]; simp))

/-- A header that wraps around is handed over with more bytes than there are. -/
theorem not_safe_of_wraps {i fuel : Nat} (hw : s.ctx.Wraps) (hofs : s.ctx.receiveOfs ≤ receiveBufferSize) :
    ¬ wp (eatPackets msgs i fuel) (fun _ s' => Emits Event.InBounds s s')
      (fun stop s' => stop ≠ .spinning ∧ stop ≠ .fault .receiveBuffer ∧ Emits Event.InBounds s s') s := by
  intro h
  have hsize : receiveBufferSize = 65535 := rfl
  have hbad : ¬ (Event.message s.ctx.packet s.ctx.receiveOfs).InBounds := by
    have := hw.1
    show ¬ 4 + s.ctx.packlen ≤ s.ctx.receiveOfs
    omega
  cases fuel with
  | zero => exact h.1 rfl
  | succ fuel =>
    rw [wp_eatPackets_succ, if_neg hw.passes] at h
    refine not_wp_false (wp_mono (wp_and h (handMessage_spec (msgs i) s.ctx.packet s)) ?_ ?_)
    · rintro _ s₁ ⟨h₁, hd⟩
      obtain ⟨evs, ho, -⟩ := hd.out
      split at h₁
      · rw [← wp_bind] at h₁
        have hrest := Within.bind (extends_consume s.ctx.packlen) fun _ =>
          @extends_eatPackets msgs (i + 1) fuel
        exact not_wp_false (wp_mono (wp_and h₁ (hrest s₁)) (fun _ _ hs => not_emits_inBounds ho hbad hs.2 hs.1)
          fun _ _ hs => not_emits_inBounds ho hbad hs.2.1 hs.1.2.2)
      · exact not_emits_inBounds ho hbad (List.prefix_refl _) h₁
    · rintro stop s₁ ⟨h₁, -, evs, ho, -⟩
      exact not_emits_inBounds ho hbad (List.prefix_refl _) h₁.2.2

theorem Emits.of_consumed {s₁ s' : State} {packlen : Nat} (h : Emits Event.InBounds s s')
    (hs : s.out <+: s₁.out) (hs' : (s₁.consumed packlen).out <+: s'.out) :
    Emits Event.InBounds (s₁.consumed packlen) s' := by
  obtain ⟨evs, ho, he⟩ := h
  obtain ⟨a, ha⟩ := hs
  obtain ⟨b, hb⟩ := hs'
  refine ⟨b, hb.symm, fun ev hev => he ev ?_⟩
  have hout : (s₁.consumed packlen).out = s₁.out ++ [.shift (packlen + 4) (s₁.ctx.receiveOfs - (packlen + 4))
      s₁.ctx.receiveOfs (s₁.ctx.receiveOfs - (packlen + 4))] := rfl
  rw [ho, hout, ← ha, List.append_assoc, List.append_assoc] at hb
  rw [← List.append_cancel_left hb]
  simp [hev]

theorem not_safe_of_reads {i j fuel : Nat} (hr : Reads msgs i s j t) (hw : t.ctx.Wraps)
    (hofs : s.ctx.receiveOfs ≤ receiveBufferSize) :
    ¬ wp (eatPackets msgs i fuel) (fun _ s' => Emits Event.InBounds s s')
      (fun stop s' => stop ≠ .spinning ∧ stop ≠ .fault .receiveBuffer ∧ Emits Event.InBounds s s') s := by
  induction hr generalizing fuel with
  | here i s => exact not_safe_of_wraps hw hofs
  | @next i j s s₁ t whole hand up rest ih =>
    intro h
    cases fuel with
    | zero => exact h.1 rfl
    | succ fuel =>
      have hsize : receiveBufferSize = 65535 := rfl
      have hpass : ¬ packSize s.ctx.packlen > s.ctx.receiveOfs := by
        rw [packSize_eq (by omega)]; omega
      have hd := wp_ok (handMessage_spec (msgs i) s.ctx.packet s) hand
      have hofs₁ := hd.up up
      rw [wp_eatPackets_succ, if_neg hpass] at h
      have h := wp_ok h hand
      rw [if_pos up, wp_consume (by rw [hofs₁]; exact whole) (by rw [hofs₁]; exact hofs)] at h
      have hs : s.out <+: s₁.out := (extends_handMessage _ _).ok hand
      have hle : (s₁.consumed s.ctx.packlen).ctx.receiveOfs ≤ receiveBufferSize :=
        Nat.le_trans (Nat.sub_le _ _) (hofs₁ ▸ hofs)
      refine ih hw hle (wp_mono (wp_and h (extends_eatPackets (i + 1) fuel _)) ?_ ?_)
      · rintro _ s' ⟨hem, hex⟩
        exact hem.of_consumed hs hex
      · rintro stop s' ⟨⟨h1, h2, hem⟩, hex, -⟩
        exact ⟨h1, h2, hem.of_consumed hs hex⟩

theorem loopSafe_iff (hofs : s.ctx.receiveOfs ≤ receiveBufferSize) (i : Nat) :
    LoopSafe msgs i s ↔ ∀ j t, Reads msgs i s j t → ¬ t.ctx.Wraps := by
  constructor
  · rintro ⟨fuel, h⟩ j t hr hw
    exact not_safe_of_reads hr hw hofs h
  · exact fun h => ⟨s.ctx.receiveOfs + 1, loop_safe hofs (Nat.lt_succ_self _) h⟩

/-! ### Reachable buffers -/

/-- The states in which the loop starts: a state that the client can reach, after a read of any bytes. -/
def LoopEntry (s : State) : Prop :=
  ∃ t avail now, Reachable t ∧ t.ctx.connected = true ∧ (receive avail now).run t = .ok true s

theorem received_ofs (bs : Bytes) (now : Nat) (s : State) : wp (received bs now)
    (fun _ s' => s'.ctx.receiveOfs ≤ receiveBufferSize) (fun _ _ => True) s := by
  unfold received
  simp only [wp_bind, wp_get]
  split
  · rename_i hfit
    simp only [wp_bind, wp_setCtx, wp_ite, wp_emits, wp_pure, wp_sSetDisconnected]
    split_ifs <;> first | exact hfit | exact Nat.zero_le _
  · trivial

theorem receive_ofs (avail : Bytes) (now : Nat) (s : State) : wp (receive avail now)
    (fun up s' => up = true → s'.ctx.receiveOfs ≤ receiveBufferSize) (fun _ _ => True) s := by
  unfold receive synRecv
  simp only [wp_bind, wp_get, wp_ite]
  split
  · simp only [wp_setCtx, wp_pure, wp_bind]
    exact wp_mono (Q := fun _ _ => True) (E := fun _ _ => True) (by simp [receiveFailed])
      (fun _ _ _ h => Bool.noConfusion h) fun _ _ => id
  · simp only [wp_pure, wp_bind]
    exact wp_mono (received_ofs _ _ _) (fun _ _ h _ => h) fun _ _ => id

theorem LoopEntry.ofs_le (h : LoopEntry s) : s.ctx.receiveOfs ≤ receiveBufferSize := by
  obtain ⟨t, avail, now, -, -, hrun⟩ := h
  exact wp_ok (receive_ofs avail now t) hrun rfl

/-- From every state in which the loop can start, it ends and stays inside the received bytes exactly if no
header that it reads wraps around. -/
theorem eatPackets_safe_iff (h : LoopEntry s) (msgs : Nat → MsgEnv) :
    LoopSafe msgs 0 s ↔ ∀ j t, Reads msgs 0 s j t → ¬ t.ctx.Wraps :=
  loopSafe_iff h.ofs_le 0

/-- A server sends the header FF FF FF FF. -/
def wrapEntry : State :=
  match (receive [255, 255, 255, 255] 0).run (State.opened .sample) with
  | .ok _ s | .error _ s => s

theorem loopEntry_wrapEntry : LoopEntry wrapEntry :=
  ⟨.opened .sample, [255, 255, 255, 255], 0, reachable_opened _, rfl, rfl⟩

theorem wraps_wrapEntry : wrapEntry.ctx.Wraps := by decide

theorem eatPackets_safe_iff_wrapEntry :
    LoopSafe (fun _ => .smooth) 0 wrapEntry ↔ ∀ j t, Reads (fun _ => .smooth) 0 wrapEntry j t → ¬ t.ctx.Wraps :=
  eatPackets_safe_iff loopEntry_wrapEntry _

/-- The loop does not stay inside the received bytes for every header. -/
theorem eatPackets_not_safe : ¬ ∀ s msgs, LoopEntry s → LoopSafe msgs 0 s := fun h =>
  (loopSafe_iff loopEntry_wrapEntry.ofs_le 0).mp (h wrapEntry (fun _ => .smooth) loopEntry_wrapEntry) 0 wrapEntry
    (.here 0 wrapEntry) wraps_wrapEntry

end Waynergy
