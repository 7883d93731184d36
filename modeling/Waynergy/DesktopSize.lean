import Waynergy.OutputList
import Waynergy.ReplyCursor
import Waynergy.Receive
import Waynergy.Rules
import Waynergy.Lib.Hull
import Mathlib

/-!
# The size of the desktop (`main.c`, `uSynergy.c`)

`wl_output_update_cb` goes through the outputs with four accumulators, which are the ends of the hull of the origin and the
outputs. The size is told to the server in a DINF message at once, and whenever it asks for it until the next update.
-/

namespace Waynergy
open Lib

/-! ### The accumulators -/

/-- What an `int` can hold. -/
def IntFits (z : Int) : Prop := -2 ^ 31 ≤ z ∧ z < 2 ^ 31

instance (z : Int) : Decidable (IntFits z) := inferInstanceAs (Decidable (_ ∧ _))

/-- The conversion of an `int` to `int16_t`. -/
def int16OfInt (z : Int) : Int := signed 16 (z % 2 ^ 16).toNat

/-- The accumulators of `wl_output_update_cb`. -/
structure Extent where
  b : Int
  l : Int
  t : Int
  r : Int
deriving DecidableEq

namespace Extent

def zero : Extent := ⟨0, 0, 0, 0⟩

/-- Take one output in; `none` is signed overflow. -/
def add (e : Extent) (output : WlOutput) : Option Extent :=
  if IntFits (output.y + output.height) ∧ IntFits (output.x + output.width) then some
    { b := if e.b > output.y then output.y else e.b
      l := if e.l > output.x then output.x else e.l
      t := if e.t < output.y + output.height then output.y + output.height else e.t
      r := if e.r < output.x + output.width then output.x + output.width else e.r }
  else none

def size (e : Extent) : Option (Int × Int) :=
  if IntFits (e.r - e.l) ∧ IntFits (e.t - e.b) then some (e.r - e.l, e.t - e.b) else none

/-- One round of the loop. -/
def step (e : Option Extent) (output : WlOutput) : Option Extent := e.bind (·.add output)

/-- The lower and the upper corner. -/
def corners (e : Extent) : (Int × Int) × (Int × Int) := ((e.l, e.b), (e.r, e.t))

end Extent

/-- `wl_output_update_cb`, as far as the server is told; `none` is a pointer of the list that points to no output. -/
def wlOutputUpdateCb (mem : Memory WlOutput) (outputs : Option Nat) (sent : Bool) : Option (Syn Unit) :=
  (mem.fold Extent.step (some .zero) outputs).map fun e =>
    match e.bind Extent.size with
    | none => throw (.fault .overflow)
    | some (width, height) => uSynergyUpdateRes sent (int16OfInt width) (int16OfInt height)

/-- The width and the height that are computed for the outputs. -/
def desktopSize (outputs : List WlOutput) : Option (Int × Int) :=
  (outputs.foldl Extent.step (some .zero)).bind Extent.size

/-! ### The bounding box -/

def WlOutput.corners (o : WlOutput) : (Int × Int) × (Int × Int) := ((o.x, o.y), (o.x + o.width, o.y + o.height))

/-- The points of an output. -/
def WlOutput.area (o : WlOutput) : Set (Int × Int) := Set.Icc o.corners.1 o.corners.2

/-- The corners of an output can be computed. -/
def WlOutput.Fits (o : WlOutput) : Prop := IntFits (o.y + o.height) ∧ IntFits (o.x + o.width)

instance (o : WlOutput) : Decidable o.Fits := inferInstanceAs (Decidable (_ ∧ _))

section
variable {os os' : List WlOutput} {o : WlOutput} {e : Extent} {w h : Int}

theorem Extent.add_eq (ho : o.Fits) : ∃ e', e.add o = some e' ∧ e'.corners = growHull e.corners o.corners := by
  have hmin : ∀ a b : Int, (if a > b then b else a) = a ⊓ b := fun a b => by
    rcases le_or_gt a b with hab | hab
    · rw [if_neg (not_lt.mpr hab), inf_eq_left.mpr hab]
    · rw [if_pos hab, inf_eq_right.mpr hab.le]
  have hmax : ∀ a b : Int, (if a < b then b else a) = a ⊔ b := fun a b => by
    rcases le_or_gt b a with hab | hab
    · rw [if_neg (not_lt.mpr hab), sup_eq_left.mpr hab]
    · rw [if_pos hab, sup_eq_right.mpr hab.le]
  refine ⟨_, if_pos ho, ?_⟩
  unfold Extent.corners growHull WlOutput.corners
  dsimp only
  rw [hmin, hmin, hmax, hmax, Prod.mk_inf_mk, Prod.mk_sup_mk]

theorem foldl_step_none : os.foldl Extent.step none = none := by
  induction os with
  | nil => rfl
  | cons o os ih => exact ih

/-- The loop overflows if an output does, and computes the hull otherwise. -/
theorem foldl_step (hfits : ∀ o ∈ os, o.Fits) : ∃ e', os.foldl Extent.step (some e) = some e' ∧
    e'.corners = (os.map WlOutput.corners).foldl growHull e.corners := by
  induction os generalizing e with
  | nil => exact ⟨e, rfl, rfl⟩
  | cons o os ih =>
    obtain ⟨ho, hos⟩ := List.forall_mem_cons.mp hfits
    obtain ⟨e₁, hadd, hcorners⟩ := e.add_eq ho
    obtain ⟨e₂, hfold, hcorners₂⟩ := ih hos (e := e₁)
    refine ⟨e₂, ?_, ?_⟩
    · rw [List.foldl_cons, ← hfold]
      exact congrArg (os.foldl Extent.step) hadd
    · rw [hcorners₂, hcorners, List.map_cons, List.foldl_cons]

theorem foldl_step_fits {e' : Extent} (hfold : os.foldl Extent.step (some e) = some e') : ∀ o ∈ os, o.Fits := by
  induction os generalizing e with
  | nil => exact List.forall_mem_nil _
  | cons o os ih =>
    rw [List.foldl_cons] at hfold
    by_cases ho : o.Fits
    · obtain ⟨e₁, hadd, -⟩ := e.add_eq ho
      rw [show Extent.step (some e) o = some e₁ from hadd] at hfold
      exact List.forall_mem_cons.mpr ⟨ho, ih hfold⟩
    · rw [show Extent.step (some e) o = none from if_neg ho, foldl_step_none] at hfold
      cases hfold

def boxSize (c : (Int × Int) × (Int × Int)) : Int × Int := (c.2.1 - c.1.1, c.2.2 - c.1.2)

theorem Extent.size_eq_some : e.size = some (w, h) ↔ (w, h) = boxSize e.corners ∧ IntFits w ∧ IntFits h := by
  have hbox : boxSize e.corners = (e.r - e.l, e.t - e.b) := rfl
  unfold Extent.size
  rw [hbox]
  constructor
  · intro hsize
    split at hsize
    · rename_i hfits
      cases hsize
      exact ⟨rfl, hfits⟩
    · cases hsize
  · rintro ⟨heq, hfits⟩
    obtain ⟨rfl, rfl⟩ := Prod.mk.inj heq
    rw [if_pos hfits]

/-- The size is that of the hull of the origin and the outputs, unless something overflows. -/
theorem desktopSize_eq_some : desktopSize os = some (w, h) ↔ (∀ o ∈ os, o.Fits) ∧
    (w, h) = boxSize (hull 0 (os.map WlOutput.corners)) ∧ IntFits w ∧ IntFits h := by
  unfold desktopSize
  rw [Option.bind_eq_some_iff]
  constructor
  · rintro ⟨e, hfold, hsize⟩
    have hfits := foldl_step_fits hfold
    obtain ⟨e', hfold', hcorners⟩ := foldl_step (e := .zero) hfits
    obtain rfl : e' = e := Option.some.inj (hfold'.symm.trans hfold)
    rw [Extent.size_eq_some, hcorners] at hsize
    exact ⟨hfits, hsize⟩
  · rintro ⟨hfits, hsize⟩
    obtain ⟨e, hfold, hcorners⟩ := foldl_step (e := .zero) hfits
    refine ⟨e, hfold, Extent.size_eq_some.mpr ?_⟩
    rw [hcorners]
    exact hsize

/-- The smallest box that contains the origin and the outputs has the size that is computed. -/
theorem desktopSize_isLeast (hsizes : ∀ o ∈ os, 0 ≤ o.width ∧ 0 ≤ o.height) (hsize : desktopSize os = some (w, h)) :
    ∃ box : NonemptyInterval (Int × Int),
      IsLeast {R : NonemptyInterval (Int × Int) | (0, 0) ∈ R ∧ ∀ o ∈ os, o.area ⊆ (R : Set (Int × Int))} box ∧
      (w, h) = boxSize (box.fst, box.snd) := by
  obtain ⟨-, heq, -⟩ := desktopSize_eq_some.mp hsize
  have hordered : ∀ p ∈ os.map WlOutput.corners, p.1 ≤ p.2 := by
    rintro _ hp
    obtain ⟨o, ho, rfl⟩ := List.mem_map.mp hp
    obtain ⟨hw, hh⟩ := hsizes o ho
    exact Prod.mk_le_mk.mpr ⟨by omega, by omega⟩
  have hleast := isLeast_hull (a := (0 : Int × Int)) hordered
  simp only [List.forall_mem_map] at hleast
  exact ⟨_, hleast, heq⟩

theorem desktopSize_perm (hperm : os.Perm os') : desktopSize os = desktopSize os' := by
  have hsame : ∀ w h, desktopSize os = some (w, h) ↔ desktopSize os' = some (w, h) := fun w h => by
    rw [desktopSize_eq_some, desktopSize_eq_some, hull_perm (hperm.map _)]
    exact and_congr_left fun _ => ⟨fun hos o ho => hos o (hperm.mem_iff.mpr ho), fun hos o ho => hos o (hperm.mem_iff.mp ho)⟩
  exact Option.ext fun p => hsame p.1 p.2

/-- More outputs, a larger desktop. -/
theorem desktopSize_mono {w' h' : Int} (hsub : os ⊆ os') (hsize : desktopSize os = some (w, h))
    (hsize' : desktopSize os' = some (w', h')) : w ≤ w' ∧ h ≤ h' := by
  obtain ⟨-, heq, -⟩ := desktopSize_eq_some.mp hsize
  obtain ⟨-, heq', -⟩ := desktopSize_eq_some.mp hsize'
  obtain ⟨hlo, hhi⟩ := hull_subset (a := (0 : Int × Int)) (List.map_subset WlOutput.corners hsub)
  obtain ⟨rfl, rfl⟩ := Prod.mk.inj heq
  obtain ⟨rfl, rfl⟩ := Prod.mk.inj heq'
  obtain ⟨hl, hb⟩ := Prod.le_def.mp hlo
  obtain ⟨hr, ht⟩ := Prod.le_def.mp hhi
  exact ⟨by omega, by omega⟩

theorem desktopSize_nonneg (hsize : desktopSize os = some (w, h)) : 0 ≤ w ∧ 0 ≤ h := by
  have hnil : desktopSize [] = some (0, 0) := by decide
  exact desktopSize_mono (List.nil_subset os) hnil hsize

end

/-! ### The messages -/

def dinfBody (width height : Nat) : Bytes := ascii ['D', 'I', 'N', 'F'] ++ (be16 0 ++ (be16 0 ++ (be16 width ++
  (be16 height ++ (be16 0 ++ (be16 0 ++ be16 0))))))

/-- There is room for a DINF message behind `left`, which is left over if the construction of a reply failed. -/
def Room (left : Bytes) : Prop := 4 + (left.length + 18) ≤ replyBufferSize

instance (left : Bytes) : Decidable (Room left) := inferInstanceAs (Decidable (_ ≤ _))

/-- The fields hold the size as far as 16 bits do. -/
structure SizeFields (w h : Int) (width height : Nat) : Prop where
  width : w < 65536 → (width : Int) = w
  height : h < 65536 → (height : Int) = h

theorem int16OfInt_mod (z : Int) : int16OfInt z % 65536 = z % 65536 := by
  unfold int16OfInt signed
  split <;> omega

/-- The narrowing to `int16_t` and from there to `uint16_t` keeps what fits. -/
theorem sizeFields_int16 {w h : Int} (hw : 0 ≤ w) (hh : 0 ≤ h) :
    SizeFields w h (int16OfInt w % 65536).toNat (int16OfInt h % 65536).toNat := by
  rw [int16OfInt_mod, int16OfInt_mod]
  constructor <;> intro hlt <;> omega

/-- With `w` under construction, `k` sends `v` in a frame and changes the context by `f`. -/
def Finishes (w v : Bytes) (f : Context → Context) (k : Syn Unit) : Prop :=
  ∀ s, Replying w s → wp k (fun _ s' => ∃ b, s' =
    { s with ctx := f { s.ctx with replyBuffer := b, replyCur := 4 }, out := s.out ++ [.send (frame v)] })
    (fun _ _ => False) s

section
variable {s : State} {left u v w : Bytes} {f : Context → Context}

theorem Finishes.send (sent : Bool) (f : Context → Context) :
    Finishes w w f (do let _ ← sSendReply sent; setCtx f) := by
  intro s h
  obtain ⟨b, hrun⟩ := h.sSendReply_run sent
  rw [wp_bind]
  exact wp_of_ok hrun ⟨b, rfl⟩

/-- What a builder returns is not looked at. -/
theorem Finishes.add {k : Syn Unit} (hfit : 4 + (w ++ u).length ≤ replyBufferSize) (hk : Finishes (w ++ u) v f k) :
    Finishes w v f (sAddBin u >>= fun _ => k) := by
  intro s hw
  obtain ⟨b, n, hrun, hu⟩ := Adds.sAddBin u w s hw hfit
  rw [wp_bind]
  exact wp_of_ok hrun (hk _ hu)

/-- With room for it, a DINF message is sent behind what is left over. -/
theorem finishes_dinf (sent : Bool) (width height : Nat) (hroom : Room left) :
    Finishes left (left ++ dinfBody width height) (fun c => { c with infoCurrent := false })
      (sendDinf sent width height) := by
  have hadd : ∀ {k : Syn Unit} {v u : Bytes}, (v ++ u).length ≤ 18 →
      Finishes (left ++ (v ++ u)) (left ++ dinfBody width height) (fun c => { c with infoCurrent := false }) k →
      Finishes (left ++ v) (left ++ dinfBody width height) (fun c => { c with infoCurrent := false })
        (sAddBin u >>= fun _ => k) := by
    intro k v u hlen hk
    rw [← List.append_assoc] at hk
    refine .add ?_ hk
    rw [List.append_assoc, List.length_append]
    have hroom' : 4 + (left.length + 18) ≤ replyBufferSize := hroom
    omega
  have hdone : dinfBody width height = [] ++ ascii ['D', 'I', 'N', 'F'] ++ be16 0 ++ be16 0 ++ be16 width ++
      be16 height ++ be16 0 ++ be16 0 ++ be16 0 := by
    unfold dinfBody
    simp only [List.nil_append, List.append_assoc]
  have hnil : left = left ++ [] := (List.append_nil left).symm
  unfold sendDinf
  nth_rewrite 1 [hnil]
  refine hadd (by decide) <| hadd (by decide) <| hadd (by decide) <| hadd (Nat.le_of_ble_eq_true rfl) <|
    hadd (Nat.le_of_ble_eq_true rfl) <| hadd (Nat.le_of_ble_eq_true rfl) <| hadd (Nat.le_of_ble_eq_true rfl) <|
    hadd (Nat.le_of_ble_eq_true rfl) ?_
  rw [hdone]
  exact .send sent _

/-- An update tells the size, behind what is left over. -/
theorem updateRes_sends (sent : Bool) (w h : Int) (hleft : Replying left s) (hroom : Room left) :
    wp (uSynergyUpdateRes sent w h) (fun _ s' => s'.ctx.clientWidth = (w % 65536).toNat ∧
      s'.ctx.clientHeight = (h % 65536).toNat ∧ s'.out = s.out ++ if s.ctx.connected then
        [.send (frame (left ++ dinfBody (w % 65536).toNat (h % 65536).toNat))] else [])
      (fun _ _ => False) s := by
  unfold uSynergyUpdateRes
  rw [wp_bind, wp_setCtx, wp_bind, wp_get, wp_ite]
  by_cases hup : s.ctx.connected = true
  · have hset : Replying left { s with ctx := { s.ctx with
        clientWidth := (w % 65536).toNat, clientHeight := (h % 65536).toNat } } := ⟨hleft.cur, hleft.bytes⟩
    rw [if_pos hup]
    refine wp_mono (finishes_dinf sent (w % 65536).toNat (h % 65536).toNat hroom _ hset) ?_ fun _ _ => id
    rintro _ _ ⟨b, rfl⟩
    rw [if_pos hup]
    exact ⟨rfl, rfl, rfl⟩
  · rw [if_neg hup, if_neg hup]
    exact ⟨rfl, rfl, (List.append_nil s.out).symm⟩

theorem qinf_answered {msg : SspBuf} {body : Bytes} (e : MsgEnv) (hmsg : Carries msg body)
    (hbody : pktOf body = some .qinf) (hcur : s.ctx.replyCur = 4) : ∃ s', (sProcessMessage e msg).run s = .ok () s' ∧
      s'.out = s.out ++ [.send (frame (dinfBody s.ctx.clientWidth s.ctx.clientHeight))] := by
  obtain ⟨b, hrun⟩ := reply_run (adds_addDinf s.ctx.clientWidth s.ctx.clientHeight) e.sent hcur
    (Nat.le_of_ble_eq_true rfl)
  have hw : wp (sProcessMessage e msg) (fun _ s' => s'.out = s.out ++
      [.send (frame (dinfBody s.ctx.clientWidth s.ctx.clientHeight))]) (fun _ _ => False) s := by
    rw [hmsg.processPkt hbody]
    unfold processPkt processQinf
    rw [wp_bind, wp_get, wp_bind]
    exact wp_of_ok hrun rfl
  obtain ⟨_, s', hrun, hout⟩ := exists_ok_of_wp hw
  exact ⟨s', hrun, hout⟩

end

/-! ### Until the next update -/

/-- The configuration, of which the size is a part, is as before. -/
def SameConfig (s s' : State) : Prop := s'.ctx.toConfig = s.ctx.toConfig

instance : Frame SameConfig := ⟨fun _ => rfl, fun h h' => Eq.trans h' h⟩

theorem sameConfig_read : KeptByRead SameConfig :=
  ⟨fun _ => rfl, fun _ => rfl, fun _ _ _ => rfl, fun _ _ => rfl, fun _ _ => rfl⟩

theorem sameConfig_net : KeptByNet SameConfig := ⟨fun _ => rfl, fun _ _ => rfl, fun _ _ => rfl, fun _ => rfl⟩

theorem SameConfig.of_tame {s s' : State} (h : Tame s s') : SameConfig s s' := h.cfg

/-- Nothing but an update changes the size. -/
theorem sameConfig_exec {op : Op} (hop : ∀ sent width height, op ≠ .updateRes sent width height) (s : State) :
    wp op.exec (fun _ s' => SameConfig s s') (fun _ _ => True) s := by
  have hof : ∀ {m : Syn Unit}, Within SameConfig (fun _ => True) m →
      wp m (fun _ s' => SameConfig s s') (fun _ _ => True) s := fun hm =>
    wp_mono (hm s) (fun _ _ => id) fun _ _ _ => trivial
  have hwhen : ∀ {m : Syn Unit}, wp m (fun _ s' => SameConfig s s') (fun _ _ => True) s →
      wp (whenConnected m) (fun _ s' => SameConfig s s') (fun _ _ => True) s := fun hm => by
    unfold whenConnected
    rw [wp_bind, wp_get, wp_ite]
    split
    · exact hm
    · show SameConfig s s
      rfl
  cases op with
  | connect e =>
    exact hof <| Within.read fun _ => Within.ite (Within.pure ())
      (sameConfig_net.tryConnect trivial (fun _ => rfl) (fun _ => rfl) e)
  | receive avail now =>
    exact hwhen <| hof <| Within.bind (sameConfig_read.receive trivial avail now) fun _ => Within.pure ()
  | message e mem len => exact hwhen <| wp_mono (handMessage_spec e _ s) (fun _ _ h => h.cfg) fun _ _ _ => trivial
  | consume packlen =>
    refine hwhen <| hof <| Within.read fun _ => Within.ite (Within.throw trivial) ?_
    exact Within.bind (fun _ => rfl) fun _ _ => rfl
  | ditch packlen n avail =>
    exact hwhen <| hof <| Within.bind (sameConfig_read.ditchRead trivial packlen n avail) fun _ => Within.pure ()
  | resetReceive => exact hof fun _ => rfl
  | netDisconnect => exact hof <| Within.bind sameConfig_net.synNetDisconnect fun _ => Within.pure ()
  | updateClipBuf h sent i data =>
    refine wp_mono (updateClipBuf_spec h sent i data s) ?_ fun _ _ _ => trivial
    rintro _ s' (⟨-, rfl⟩ | ⟨-, buf, -, -, hanswers⟩)
    · exact Frame.refl s'
    · exact .of_tame (Frame.trans (ClipOnly.of_setSlot i s _) (ClipOnly.of_sends hanswers.toSends)).tame
  | updateRes sent width height => exact absurd rfl (hop sent width height)

theorem sameConfig_run {s s' : State} {steps : List (State × Op)} (hrun : Run Op.exec s steps s')
    (hops : ∀ step ∈ steps, ∀ sent width height, step.2 ≠ .updateRes sent width height) : SameConfig s s' :=
  hrun.invariant (P := SameConfig s) (Frame.refl s) fun t op _ hm hs hop =>
    Frame.trans hs (wp_ok (Q := fun _ t' => SameConfig t t') (sameConfig_exec (hops (t, op) hm) t) hop)

/-- From `s` on, the answer to every QINF until the next update is `width` and `height`. -/
def Answered (width height : Nat) (s : State) : Prop := ∀ steps s₁, Run Op.exec s steps s₁ →
  (∀ step ∈ steps, ∀ sent w h, step.2 ≠ .updateRes sent w h) →
  ∀ e msg body, Carries msg body → pktOf body = some .qinf →
    ∃ s₂, (sProcessMessage e msg).run s₁ = .ok () s₂ ∧ s₂.out = s₁.out ++ [.send (frame (dinfBody width height))]

/-- The update for the outputs `os` tells `width` and `height`, if there is a server, and so does every answer until the
next one. -/
def Told (os : List WlOutput) (width height : Nat) (s : State) : Prop :=
  ∀ mem p ns, Seg mem p ns none → ns.map Prod.snd = os → ∀ sent, ∃ cb s₁, wlOutputUpdateCb mem p sent = some cb ∧
    cb.run s = .ok () s₁ ∧
    s₁.out = s.out ++ (if s.ctx.connected then [.send (frame (dinfBody width height))] else []) ∧
    Answered width height s₁

/-- The size of the desktop is that of the smallest box around the origin and all outputs, whatever their order, it does
not shrink with another output, and it is what a server of the client `cfg` is told at the update and until the next
one. -/
def ReportsDesktop (cfg : Config) : Prop :=
  ∀ os w h, (∀ o ∈ os, 0 ≤ o.width ∧ 0 ≤ o.height) → desktopSize os = some (w, h) →
    (∃ box : NonemptyInterval (Int × Int),
      IsLeast {R : NonemptyInterval (Int × Int) | (0, 0) ∈ R ∧ ∀ o ∈ os, o.area ⊆ (R : Set (Int × Int))} box ∧
      (w, h) = boxSize (box.fst, box.snd)) ∧
    (∀ os', os.Perm os' → desktopSize os' = some (w, h)) ∧
    (∀ os₁ os₂ o w' h', os = os₁ ++ os₂ → desktopSize (os₁ ++ o :: os₂) = some (w', h') → w ≤ w' ∧ h ≤ h') ∧
    ∃ width height, SizeFields w h width height ∧
      ∀ steps s, Run Op.exec (State.init cfg) steps s → Told os width height s

section
variable {cfg : Config} {steps : List (State × Op)} {s s₁ : State} {os : List WlOutput} {w h : Int}

/-- With a name that fits, the cursor is at its base before every operation. -/
theorem Speaks.replyCur (hspeaks : Speaks s s₁) (hname : s.ctx.clientName.length ≤ maxName)
    (hcur : s.ctx.replyCur = 4) : s₁.ctx.replyCur = 4 := by
  obtain ⟨-, evs, -, hevs⟩ := hspeaks
  obtain ⟨hbuilt, hspeech⟩ := hevs hcur
  exact (hspeech (hbuilt hname)).1

theorem answered_client (hrun : Run Op.exec (State.init cfg) steps s) (hname : cfg.clientName.length ≤ maxName) :
    Answered s.ctx.clientWidth s.ctx.clientHeight s := by
  intro steps₁ s₁ hrun₁ hops e msg body hmsg hbody
  have hcur : s₁.ctx.replyCur = 4 := (speaks_of_run (hrun.append hrun₁)).replyCur hname rfl
  obtain ⟨s₂, hrun₂, hout⟩ := qinf_answered e hmsg hbody hcur
  have hsame : s₁.ctx.toConfig = s.ctx.toConfig := sameConfig_run hrun₁ hops
  rw [hsame] at hout
  exact ⟨s₂, hrun₂, hout⟩

theorem wlOutputUpdateCb_eq {mem : Memory WlOutput} {p : Option Nat} {ns : List (Nat × WlOutput)}
    (hseg : Seg mem p ns none) (hsize : desktopSize (ns.map Prod.snd) = some (w, h)) (sent : Bool) :
    wlOutputUpdateCb mem p sent = some (uSynergyUpdateRes sent (int16OfInt w) (int16OfInt h)) := by
  have hfold : (ns.foldl (fun e n => Extent.step e n.2) (some .zero)).bind Extent.size = some (w, h) := by
    rw [← List.foldl_map]
    exact hsize
  unfold wlOutputUpdateCb
  rw [hseg.fold_eq, Option.map_some, hfold]

/-- The conversion to `uint16_t` is that of the operation. -/
theorem updateRes_exec (sent : Bool) (w h : Int) :
    uSynergyUpdateRes sent w h = (Op.updateRes sent (w % 65536).toNat (h % 65536).toNat).exec := by
  have hmod : ∀ z : Int, (((z % 65536).toNat : Int) % 65536).toNat = (z % 65536).toNat := fun z => by omega
  show _ = uSynergyUpdateRes sent _ _
  unfold uSynergyUpdateRes
  rw [hmod, hmod]

theorem told_of_name (hname : cfg.clientName.length ≤ maxName) (hsize : desktopSize os = some (w, h))
    (hrun : Run Op.exec (State.init cfg) steps s) :
    Told os (int16OfInt w % 65536).toNat (int16OfInt h % 65536).toNat s := by
  rintro mem p ns hseg rfl sent
  have hcur : s.ctx.replyCur = 4 := (speaks_of_run hrun).replyCur hname rfl
  obtain ⟨_, s₁, hres, hwidth, hheight, hout⟩ :=
    exists_ok_of_wp (updateRes_sends sent (int16OfInt w) (int16OfInt h) (.base hcur) (by decide))
  have hop : (Op.updateRes sent (int16OfInt w % 65536).toNat (int16OfInt h % 65536).toNat).exec.run s = .ok () s₁ := by
    rw [← updateRes_exec]
    exact hres
  have hanswered := answered_client (hrun.snoc hop) hname
  rw [hwidth, hheight] at hanswered
  rw [List.nil_append] at hout
  exact ⟨_, s₁, wlOutputUpdateCb_eq hseg hsize sent, hres, hout, hanswered⟩

/-- A hello leaves 15 bytes of a HelloBack for a name that is too long. -/
theorem hello_leaves (hname : maxName < cfg.clientName.length) : ∃ steps s left,
    Run Op.exec (State.init cfg) steps s ∧ s.ctx.connected = true ∧ left.length = 15 ∧ Replying left s := by
  have himp : ascii ['S', 'y', 'n', 'e', 'r', 'g', 'y'] ∈ sImplementations := .tail _ (.head _)
  have hop : wp (Op.message .smooth helloMem 11).exec
      (fun _ s => s.ctx.connected = true ∧ s.ctx.replyCur = 19) (fun _ _ => False) (.opened cfg) := by
    unfold Op.exec whenConnected handMessage sProcessMessage
    simp only [wp_bind, wp_get, if_pos (show (State.opened cfg).ctx.connected = true from rfl), wp_emits,
      sIsWelcome_helloMem]
    refine wp_mono (processHello_leaves himp (by decide) (by decide) hname) ?_ fun _ _ => id
    rintro _ s ⟨hcur, hup⟩
    exact ⟨hup, hcur⟩
  obtain ⟨_, s, hok, hup, hcur⟩ := exists_ok_of_wp hop
  have hlen : ((s.ctx.replyBuffer.bytes.take 19).drop 4).length = 15 := by
    rw [List.length_drop, List.length_take, s.ctx.replyBuffer.size]
    rfl
  exact ⟨_, s, _, (Run.single (run_connect_init cfg)).snoc hok, hup, hlen, by rw [hcur, hlen], by rw [hlen]⟩

/-- The frame that is sent for an update then is too long. -/
theorem not_told (hname : maxName < cfg.clientName.length) (width height : Nat) : ∃ steps s,
    Run Op.exec (State.init cfg) steps s ∧ ¬ Told [] width height s := by
  obtain ⟨steps, s, left, hrun, hup, hlen, hleft⟩ := hello_leaves hname
  refine ⟨steps, s, hrun, fun htold => ?_⟩
  obtain ⟨cb, s₁, hcb, hok, hout, -⟩ := htold .empty none [] (.nil none) rfl true
  have hroom : Room left := by
    unfold Room
    rw [hlen]
    decide
  cases (wlOutputUpdateCb_eq (w := 0) (h := 0) (.nil none) (by decide) true).symm.trans hcb
  obtain ⟨-, -, hout'⟩ := wp_ok (updateRes_sends true (int16OfInt 0) (int16OfInt 0) hleft hroom) hok
  rw [if_pos hup] at hout hout'
  have hframe := List.append_cancel_left (hout.symm.trans hout')
  have hsame := congrArg List.length (Event.send.inj (List.cons.inj hframe).1)
  rw [length_frame, length_frame, List.length_append, hlen] at hsame
  have hdinf : ∀ width height, (dinfBody width height).length = 18 := fun _ _ => rfl
  rw [hdinf, hdinf] at hsame
  omega

end

/-- The desktop is reported exactly if the name of the client fits in a HelloBack. -/
theorem reports_desktop_iff (cfg : Config) : ReportsDesktop cfg ↔ cfg.clientName.length ≤ maxName := by
  constructor
  · intro hreports
    by_contra hlong
    obtain ⟨-, -, -, width, height, -, htold⟩ := hreports [] 0 0 (List.forall_mem_nil _) (by decide)
    obtain ⟨steps, s, hrun, hnot⟩ := not_told (Nat.lt_of_not_le hlong) width height
    exact hnot (htold steps s hrun)
  · intro hname os w h hsizes hsize
    refine ⟨desktopSize_isLeast hsizes hsize, fun os' hperm => (desktopSize_perm hperm).symm.trans hsize, ?_, ?_⟩
    · rintro os₁ os₂ o w' h' rfl hsize'
      have hsub : os₁ ++ os₂ ⊆ os₁ ++ o :: os₂ := fun a ha => by
        rw [List.mem_append] at ha ⊢
        exact ha.imp id (List.mem_cons_of_mem o)
      exact desktopSize_mono hsub hsize hsize'
    obtain ⟨hw, hh⟩ := desktopSize_nonneg hsize
    exact ⟨_, _, sizeFields_int16 hw hh, fun steps s hrun => told_of_name hname hsize hrun⟩

/-- With a name of 1006 bytes, what was built of a HelloBack is sent in front of the size. -/
theorem desktop_not_reported : ¬ ReportsDesktop (mainConfig (List.replicate 1006 97) 0 0 true true fun _ => false) := by
  generalize hname : List.replicate 1006 (97 : UInt8) = name
  have hlong : maxName < name.length := by
    rw [← hname, List.length_replicate]
    decide
  intro hreports
  obtain ⟨-, -, -, width, height, -, htold⟩ := hreports [] 0 0 (List.forall_mem_nil _) (by decide)
  have hlong' : maxName < (mainConfig name 0 0 true true fun _ => false).clientName.length := hlong
  obtain ⟨steps, s, hrun, hnot⟩ := not_told hlong' width height
  exact hnot (htold steps s hrun)

end Waynergy
