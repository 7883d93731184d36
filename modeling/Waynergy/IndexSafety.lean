import Waynergy.Dispatch
import Waynergy.Handlers
import Waynergy.Client

/-!
# Where the indices of a message are in range

DGBT and DGST test the joystick number. CCLP and DCLP do not test the clipboard index, and the start message
of a DCLP computes the size of its buffer in 32 bits.
-/

namespace Waynergy
open Lib
variable {s s' : State} {msg : SspBuf} {body : Bytes}

/-- The stops at an index out of range. -/
def IndexFault : Stop → Prop
  | .fault .clipIndex | .fault .joyIndex | .fault .lengthBuffer => True
  | _ => False

/-- The clipboard and the joysticks are as before. -/
structure Untouched (s s' : State) : Prop where
  clip : s'.ctx.clip = s.ctx.clip
  sticks : s'.ctx.joystickSticks = s.ctx.joystickSticks
  buttons : s'.ctx.joystickButtons = s.ctx.joystickButtons

instance : Frame Untouched where
  refl _ := ⟨rfl, rfl, rfl⟩
  trans h h' := ⟨h'.clip.trans h.clip, h'.sticks.trans h.sticks, h'.buttons.trans h.buttons⟩

theorem Sends.untouched (h : Sends s s') : Untouched s s' := by
  obtain ⟨⟨⟨b, n, hc⟩, -⟩, -⟩ := h
  exact ⟨by rw [hc], by rw [hc], by rw [hc]⟩

/-- The clipboard index or the joystick number of a message is out of range. -/
def BadIndex (body : Bytes) : Prop :=
  match pktOf body with
  | some .cclp | some .dclp => 2 ≤ byteAt body 4
  | some .dgbt | some .dgst => numJoysticks ≤ byteAt body 4
  | _ => False

/-- Every index that the message uses is in range, and an index out of range changes nothing. -/
def IndexSafe (e : MsgEnv) (s : State) (body : Bytes) : Prop :=
  ∀ msg, Carries msg body → wp (sProcessMessage e msg) (fun _ s' => BadIndex body → Untouched s s')
    (fun stop s' => ¬ IndexFault stop ∧ (BadIndex body → Untouched s s')) s

/-- A CCLP or a DCLP message of known mark that is not too short has a clipboard index below 2, and a start
message a length below 2^32 - 1. -/
def IndicesFine (body : Bytes) : Prop :=
  match pktOf body with
  | some .cclp => 9 ≤ body.length → byteAt body 4 < 2
  | some .dclp => 14 ≤ body.length →
    ((dclpOf body).mark ∈ [synDataStart, synDataChunk, synDataEnd] → (dclpOf body).id < 2) ∧
    ((dclpOf body).mark = synDataStart → (dclpOf body).len + 1 < 2 ^ 32)
  | _ => True

theorem untouched_parseError : Untouched s { s with out := s.out ++ [.parseError] } := ⟨rfl, rfl, rfl⟩

/-! ### Joysticks -/

theorem wp_joystick {α : Type} (h : Carries msg body) (q : Parse α) {k : Nat × α → SspBuf → Syn Unit}
    {Q : Unit → State → Prop} {E : Stop → State → Prop} {s : State}
    (hshort : Q () { s with out := s.out ++ [.parseError] }) (hout : E (.fault .message) s)
    (hk : ∀ a b, wp (k (byteAt body 4, a) b) Q E s) :
    wp (parse .message (do let j ← sspUChar; let x ← q; pure (j, x)) (msg.at 4) () k) Q E s := by
  rw [wp_parse]
  simp only [sspUChar, wp_bind, wp_pure, h.wp_sspNetInt (p := 4) (n := 1) (by decide)]
  split
  · unfold wp
    split
    · exact hk _ _
    · rename_i fail _ _
      cases fail with
      | short => exact hshort
      | outside => exact hout
  · exact hshort

/-- A joystick number out of range only gets its reply. -/
theorem updateJoystick_bad (e : MsgEnv) {j : Nat} (hj : numJoysticks ≤ j)
    (store : Fin numJoysticks → Context → Context) (s : State) :
    wp (updateJoystick e j store) (fun _ s' => Untouched s s') (fun _ _ => False) s := by
  unfold updateJoystick storeJoystick
  rw [if_neg (Nat.not_lt.mpr hj)]
  exact wp_mono (replyCnop_sends e s) (fun _ _ => Sends.untouched) fun _ _ => id

theorem updateJoystick_safe (e : MsgEnv) (j : Nat) {store : Fin numJoysticks → Context → Context}
    (hplain : ∀ i c, PlainCtx c (store i c)) (hcur : ∀ i c, (store i c).replyCur = c.replyCur) (s : State) :
    wp (updateJoystick e j store) (fun _ s' => numJoysticks ≤ j → Untouched s s')
      (fun stop s' => ¬ IndexFault stop ∧ (numJoysticks ≤ j → Untouched s s')) s := by
  by_cases hj : numJoysticks ≤ j
  · exact wp_mono (updateJoystick_bad e hj store s) (fun _ _ h _ => h) fun _ _ => False.elim
  · refine wp_mono (IsPlain.updateJoystick hplain hcur s) (fun _ _ _ hb => absurd hb hj) fun _ _ h => ?_
    exact ⟨by rw [h.2]; exact id, fun hb => absurd hb hj⟩

/-! ### The clipboard messages -/

theorem processCclp_safe (e : MsgEnv) (h : Carries msg body) (s : State) : wp (processCclp e (msg.at 4))
    (fun _ s' => 2 ≤ byteAt body 4 → Untouched s s')
    (fun stop s' => ¬ IndexFault stop ∧ (2 ≤ byteAt body 4 → Untouched s s')) s ↔
      (9 ≤ body.length → byteAt body 4 < 2) := by
  unfold processCclp
  rw [wp_parse, h.wp_cclpHeader]
  split
  · rename_i h9
    rw [wp_bind, wp_clipIndex]
    split
    · rename_i hid
      refine iff_of_true ?_ fun _ => hid
      rw [wp_bind, wp_setClip]
      exact wp_mono (replyCnop_sends e _) (fun _ _ _ hbad => absurd hid (Nat.not_lt.mpr hbad)) fun _ _ => False.elim
    · rename_i hid
      exact iff_of_false (fun hw => hw.1 trivial) fun hfine => hid (hfine h9)
  · rename_i h9
    exact iff_of_true (fun _ => untouched_parseError) fun h => absurd h h9

/-- A start message stays inside `expected_len` unless its length is 2^32 - 1. -/
theorem dclpStart_safe (e : MsgEnv) (i : Fin 2) (len : Nat) (s : State) : wp (dclpStart e i len msg)
    (fun _ _ => True) (fun stop _ => ¬ IndexFault stop) s ↔ len + 1 < 2 ^ 32 := by
  unfold dclpStart
  rw [wp_bind, wp_setClip, wp_ite]
  split
  · rename_i hle
    exact iff_of_false (fun h => h trivial) (by omega)
  · rename_i hlt
    refine iff_of_true ?_ (by omega)
    refine wp_mono (Within.bind (S := fun stop => ¬ IndexFault stop) (ClipOnly.copyOut msg id len) ?_ _)
      (fun _ _ _ => trivial) fun _ _ h => h.2
    intro copied
    refine Within.bind (ClipOnly.setClip i _) fun _ => Within.read fun s => ?_
    split
    · exact Within.bind (ClipOnly.growClip i id _ _) fun _ => ClipOnly.replyCnop e
    · exact ClipOnly.replyCnop e

theorem processDclp_safe (e : MsgEnv) (h : Carries msg body) (s : State) : wp (processDclp e (msg.at 4))
    (fun _ s' => 2 ≤ byteAt body 4 → Untouched s s')
    (fun stop s' => ¬ IndexFault stop ∧ (2 ≤ byteAt body 4 → Untouched s s')) s ↔
      (14 ≤ body.length →
        ((dclpOf body).mark ∈ [synDataStart, synDataChunk, synDataEnd] → (dclpOf body).id < 2) ∧
        ((dclpOf body).mark = synDataStart → (dclpOf body).len + 1 < 2 ^ 32)) := by
  have hid : byteAt body 4 = (dclpOf body).id := rfl
  -- with an index below 2 nothing is to be shown of what is stored
  have safe : ∀ {m : Syn Unit} {s₁ : State}, (dclpOf body).id < 2 →
      (wp m (fun _ s' => 2 ≤ byteAt body 4 → Untouched s s')
        (fun stop s' => ¬ IndexFault stop ∧ (2 ≤ byteAt body 4 → Untouched s s')) s₁ ↔
      wp m (fun _ _ => True) (fun stop _ => ¬ IndexFault stop) s₁) := fun hlt =>
    ⟨fun h => wp_mono h (fun _ _ _ => trivial) fun _ _ h => h.1,
      fun h => wp_mono h (fun _ _ _ hbad => by omega) fun _ _ h => ⟨h, fun hbad => by omega⟩⟩
  have hcnop : ∀ {s : State}, wp (replyCnop e) (fun _ _ => True) (fun stop _ => ¬ IndexFault stop) s := fun {s} =>
    wp_mono (replyCnop_sends e s) (fun _ _ _ => trivial) fun _ _ => False.elim
  unfold processDclp
  rw [wp_parse, h.wp_dclpHeader]
  split
  · rename_i h14
    simp only [h14, true_imp_iff]
    generalize dclpOf body = d at *
    by_cases hmark : d.mark ∈ [synDataStart, synDataChunk, synDataEnd]
    · by_cases hlt : d.id < 2
      · rw [safe hlt]
        have hidx : clipIndex d.id = pure ⟨d.id, hlt⟩ := dif_pos hlt
        simp only [hidx, pure_bind]
        by_cases h1 : d.mark = synDataStart
        · rw [if_pos h1, dclpStart_safe]
          exact ⟨fun h => ⟨fun _ => hlt, fun _ => h⟩, fun h => h.2 h1⟩
        · refine iff_of_true ?_ ⟨fun _ => hlt, fun h => absurd h h1⟩
          rw [if_neg h1]
          refine wp_mono (Within.ite (R := ClipOnly) (S := fun stop => ¬ IndexFault stop) ?_
            (Within.ite ?_ (ClipOnly.replyCnop e)) s) (fun _ _ _ => trivial) fun _ _ h => h.2
          · exact Within.read fun _ => Within.ite (ClipOnly.dclpChunk e _ _ id id _) (ClipOnly.replyCnop e)
          · exact Within.read fun _ => Within.ite (ClipOnly.dclpEnd e _ id) (ClipOnly.replyCnop e)
      · have hidx : clipIndex d.id = throw (.fault .clipIndex) := dif_neg hlt
        refine iff_of_false ?_ fun hfine => hlt (hfine.1 hmark)
        simp only [hidx]
        simp only [List.mem_cons, List.not_mem_nil, or_false] at hmark
        intro hw
        rcases hmark with h1 | h2 | h3
        · rw [if_pos h1] at hw
          exact hw.1 trivial
        · rw [if_neg (by rw [h2]; decide), if_pos h2] at hw
          exact hw.1 trivial
        · rw [if_neg (by rw [h3]; decide), if_neg (by rw [h3]; decide), if_pos h3] at hw
          exact hw.1 trivial
    · simp only [List.mem_cons, List.not_mem_nil, or_false, not_or] at hmark
      refine iff_of_true ?_ ⟨fun h => ?_, fun h => absurd h hmark.1⟩
      · rw [if_neg hmark.1, if_neg hmark.2.1, if_neg hmark.2.2]
        exact wp_mono (replyCnop_sends e s) (fun _ _ h _ => h.untouched) fun _ _ => False.elim
      · simp only [List.mem_cons, List.not_mem_nil, or_false] at h
        exact absurd h (by tauto)
  · rename_i h14
    exact iff_of_true (fun _ => untouched_parseError) fun h => absurd h h14

/-! ### Every message -/

theorem processPkt_safe (e : MsgEnv) (h : Carries msg body) {p : Pkt} (hp : pktOf body = some p) (s : State) :
    wp (processPkt e (msg.at 4) p) (fun _ s' => BadIndex body → Untouched s s')
      (fun stop s' => ¬ IndexFault stop ∧ (BadIndex body → Untouched s s')) s ↔ IndicesFine body := by
  unfold BadIndex IndicesFine
  rw [hp]
  cases p with
  | cclp => exact processCclp_safe e h s
  | dclp => exact processDclp_safe e h s
  | cout =>
    refine iff_of_true (wp_mono (processCout_spec e s) (fun _ _ _ hb => hb.elim) fun _ _ h => ?_) trivial
    exact ⟨by rw [h.2]; exact id, fun hb => hb.elim⟩
  | cbye | ebad | ebsy => exact iff_of_true (fun hb => hb.elim) trivial
  | dgbt =>
    refine iff_of_true ?_ trivial
    refine wp_joystick h sspNetU16 (fun _ => untouched_parseError) ⟨id, fun _ => Frame.refl s⟩ fun a _ => ?_
    refine updateJoystick_safe e (byteAt body 4) ?_ ?_ s
    exacts [fun _ _ => ⟨rfl, rfl, id, rfl, rfl, rfl, rfl⟩, fun _ _ => rfl]
  | dgst =>
    refine iff_of_true ?_ trivial
    refine wp_joystick h (sspMemMove 4) (fun _ => untouched_parseError) ⟨id, fun _ => Frame.refl s⟩ fun a _ => ?_
    refine updateJoystick_safe e (byteAt body 4) ?_ ?_ s
    exacts [fun _ _ => ⟨rfl, rfl, id, rfl, rfl, rfl, rfl⟩, fun _ _ => rfl]
  | _ =>
    refine iff_of_true (wp_mono (IsPlain.processPkt e (msg.at 4) (by decide) s) (fun _ _ _ hb => hb.elim)
      fun _ _ h => ?_) trivial
    exact ⟨by rw [h.2]; exact id, fun hb => hb.elim⟩

theorem not_pkt_safe (e : MsgEnv) (h : Carries msg body) (hp : pktOf body = none) (s : State) :
    wp (sProcessMessage e msg) (fun _ _ => True) (fun stop _ => ¬ IndexFault stop) s := by
  rw [h.sProcessMessage]
  cases welcomeOf body with
  | some imp =>
    refine wp_mono (processHello_spec e imp _ s) (fun _ _ _ => trivial) fun _ _ h => ?_
    rw [h.2]; exact id
  | none =>
    unfold pktOf at hp
    simp only [hp]
    split <;> trivial

/-- The indices that a message uses are in range, and one out of range changes nothing, exactly for the
messages with fine indices. -/
theorem indexSafe_iff (e : MsgEnv) (s : State) (body : Bytes) : IndexSafe e s body ↔ IndicesFine body := by
  have key : ∀ msg, Carries msg body → (wp (sProcessMessage e msg) (fun _ s' => BadIndex body → Untouched s s')
      (fun stop s' => ¬ IndexFault stop ∧ (BadIndex body → Untouched s s')) s ↔ IndicesFine body) := by
    intro msg h
    cases hp : pktOf body with
    | some p => rw [h.processPkt hp]; exact processPkt_safe e h hp s
    | none =>
      have hbad : ¬ BadIndex body := by unfold BadIndex; rw [hp]; exact id
      refine iff_of_true (wp_mono (not_pkt_safe e h hp s) (fun _ _ _ hb => absurd hb hbad)
        fun _ _ h => ⟨h, fun hb => absurd hb hbad⟩) ?_
      unfold IndicesFine
      rw [hp]; trivial
  exact ⟨fun hs => (key _ (.ofBytes body)).mp (hs _ (.ofBytes body)), fun hf msg h => (key msg h).mpr hf⟩

/-- A CCLP message for the clipboard 2. -/
def cclpTwo : Bytes := ascii ['C', 'C', 'L', 'P'] ++ [2, 0, 0, 0, 0]

/-- Not every message is safe. -/
theorem not_indexSafe_cclpTwo : ¬ ∀ e s body, IndexSafe e s body := by
  intro h
  have hw := h .smooth (.opened .sample) cclpTwo _ (.ofBytes cclpTwo)
  rw [(Carries.ofBytes cclpTwo).processPkt (p := .cclp) (by decide)] at hw
  exact absurd ((processCclp_safe .smooth (Carries.ofBytes cclpTwo) _).mp hw (by decide)) (by decide)

end Waynergy
