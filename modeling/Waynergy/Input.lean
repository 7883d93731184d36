import Waynergy.Message
import Mathlib.Data.List.GetD

/-!
# The keys (`wl_input.c`)

Of `struct wlInput` the model keeps the key maps and the key state. The xkb state only follows the keys, for the
log; it is known by the keys that it was updated with, and the backend by the keys that it was sent.
-/

namespace Waynergy
open Lib

/-! ### The state -/

/-- What `wlKeySetConfigLayout` reads: the raw key map, the id key map where `id_keymap_valid` is set, the largest
key code of the xkb key map, and the first size of the key state. -/
structure KeyConfig where
  rawKeymap : List Int
  idKeymap : List (Option Int)
  maxKeycode : Nat
  keyPressStateLen : Nat
  len_le : keyPressStateLen ≤ intMax

structure WlInput where
  config : KeyConfig
  keyPressState : List Int
  /-- the keys and states that the backend was called with -/
  sent : List (Int × Bool)
  /-- those that the xkb state was updated with -/
  xkb : List (Int × Bool)

/-- No key is pressed yet. -/
def WlInput.init (config : KeyConfig) : WlInput := ⟨config, List.replicate config.keyPressStateLen 0, [], []⟩

/-- Three raw keys, none of them mapped by its id. -/
def KeyConfig.sample : KeyConfig := ⟨[0, 1, 2], [], 2, 0, Nat.zero_le _⟩

def allowAll : Heap := ⟨fun _ => true, fun _ => 0⟩

abbrev Keys (α : Type) := Proc Stop WlInput α

/-! ### One key -/

/-- `xreallocarray` of the key state, with the elements behind the old ones set to 0; `none` is its `abort`. -/
def growKeys (h : Heap) (old : List Int) (nmemb : Nat) : Option (List Int) :=
  if nmemb * 4 < 2 ^ 63 ∧ h.ok (nmemb * 4) then some (old.take nmemb ++ List.replicate (nmemb - old.length) 0)
  else none

/-- Keep track of raw keystate size. As a `size_t` a negative key is large. -/
def trackKeySize (h : Heap) (key : Int) : Keys Unit := do
  let s ← get
  if s.keyPressState.length ≤ sizeOfInt key then
    if intMax ≤ key then throw (.fault .overflow)
    else match growKeys h s.keyPressState (sizeOfInt (key + 1)) with
      | some counts => modify fun s => { s with keyPressState := counts }
      | none => throw .abort
  else pure ()

/-- Modifiers are tracked up to the xkb maximum, an unsigned number. -/
def WlInput.trackMods (key : Int) (state : Bool) (s : WlInput) : WlInput :=
  if s.config.maxKeycode < key % 2 ^ 32 then s else { s with xkb := s.xkb ++ [(key, state)] }

/-- Count the key and send it, unless it is a superfluous release. -/
def sendKey (key : Int) (state : Bool) : Keys Unit := do
  let s ← get
  if key < 0 ∨ s.keyPressState.length ≤ key.toNat then throw (.fault .keyTable)
  else
    let count := s.keyPressState.getD key.toNat 0
    if count = 0 ∧ state = false then pure ()
    else do
      modify (WlInput.trackMods key state)
      let count' := count + if state then 1 else -1
      if intMax < count' ∨ count' < -2 ^ 31 then throw (.fault .overflow)
      else modify fun s => { s with
        keyPressState := s.keyPressState.set key.toNat count', sent := s.sent ++ [(key, state)] }

def wlKeyRaw (h : Heap) (key : Int) (state : Bool) : Keys Unit := do
  trackKeySize h key
  sendKey key state

/-- The raw key that a key and an id are mapped to; none outside of the configured key map. -/
def KeyConfig.remap (c : KeyConfig) (key id : Nat) : Option Int :=
  match c.idKeymap[id]? with
  | some (some key) => some key
  | _ => c.rawKeymap[key]?

def wlKey (h : Heap) (key id : Nat) (state : Bool) : Keys Unit := do
  let s ← get
  match s.config.remap key id with
  | none => pure ()
  | some key => if key = -1 then pure () else wlKeyRaw h key state

/-! ### All keys -/

/-- Release the key `i` until its count is 0. -/
def releaseKey (h : Heap) (i : Nat) : Nat → Keys Unit
  | 0 => throw .spinning
  | fuel + 1 => do
    let s ← get
    if s.keyPressState.getD i 0 ≠ 0 then do
      wlKeyRaw h (signed 32 i) false
      releaseKey h i fuel
    else pure ()

/-- Release the keys from `i` on. -/
def releaseFrom (h : Heap) (i : Nat) : Nat → Keys Unit
  | 0 => throw .spinning
  | fuel + 1 => do
    let s ← get
    if i < s.keyPressState.length then do
      releaseKey h i ((s.keyPressState.getD i 0).toNat + 1)
      releaseFrom h (i + 1) fuel
    else pure ()

def wlKeyReleaseAll (h : Heap) : Keys Unit := do
  let s ← get
  releaseFrom h 0 (s.keyPressState.length + 1)

/-! ### The counts and what was sent -/

namespace WlInput
variable {s s' : WlInput} {i : Nat}

/-- How often `key` is pressed. -/
def count (s : WlInput) (key : Int) : Int := if key < 0 then 0 else s.keyPressState.getD key.toNat 0

/-- The counts are those of the keys that were sent. -/
structure Balanced (s : WlInput) : Prop where
  size : s.keyPressState.length ≤ intMax
  range : ∀ i, 0 ≤ s.keyPressState.getD i 0 ∧ s.keyPressState.getD i 0 ≤ intMax
  sent : ∀ key, (s.sent.count (key, true) : Int) = s.sent.count (key, false) + s.count key

/-- No key is pressed. -/
def Unpressed (s : WlInput) : Prop := ∀ c ∈ s.keyPressState, c = 0

/-- Every key is released: its count is 0, and the backend got as many releases as presses of it. -/
def Released (s : WlInput) : Prop := s.Unpressed ∧ ∀ key, s.sent.count (key, false) = s.sent.count (key, true)

theorem unpressed_iff : s.Unpressed ↔ ∀ i, s.keyPressState.getD i 0 = 0 := by
  constructor
  · intro h i
    rcases Nat.lt_or_ge i s.keyPressState.length with hi | hi
    · rw [List.getD_eq_getElem _ _ hi]; exact h _ (List.getElem_mem hi)
    · exact List.getD_eq_default _ _ hi
  · intro h c hc
    obtain ⟨i, hi, rfl⟩ := List.mem_iff_getElem.mp hc
    rw [← List.getD_eq_getElem _ 0 hi]; exact h i

theorem Balanced.released_iff (h : s.Balanced) : s.Released ↔ s.Unpressed := by
  refine ⟨And.left, fun hu => ⟨hu, fun key => ?_⟩⟩
  have hc : s.count key = 0 := by
    unfold count
    split
    · rfl
    · exact unpressed_iff.mp hu _
  have := h.sent key
  omega

theorem balanced_init (config : KeyConfig) : (init config).Balanced := by
  have hzero : ∀ i, (init config).keyPressState.getD i 0 = 0 :=
    unpressed_iff.mp fun c hc => (List.mem_replicate.mp hc).2
  refine ⟨by simpa [init] using config.len_le, fun i => by rw [hzero]; decide, fun key => ?_⟩
  unfold count
  rw [hzero]
  simp [init]

/-! ### Sending a key -/

theorem getD_set {l : List Int} {i : Nat} (hi : i < l.length) (c : Int) (j : Nat) :
    (l.set i c).getD j 0 = if j = i then c else l.getD j 0 := by
  by_cases hj : j = i
  · subst hj
    rw [if_pos rfl, List.getD_eq_getElem _ _ (by simpa using hi), List.getElem_set_self]
  · rw [if_neg hj, List.getD_eq_getElem?_getD, List.getD_eq_getElem?_getD, List.getElem?_set_ne (Ne.symm hj)]

/-- One more press or release of the key `i`. -/
def sendOne (s : WlInput) (i : Nat) (state : Bool) : WlInput :=
  { s.trackMods i state with
    keyPressState := s.keyPressState.set i (s.keyPressState.getD i 0 + if state then 1 else -1)
    sent := s.sent ++ [((i : Int), state)] }

@[simp] theorem keyPressState_sendOne (state : Bool) : (s.sendOne i state).keyPressState =
    s.keyPressState.set i (s.keyPressState.getD i 0 + if state then 1 else -1) := rfl

@[simp] theorem sent_sendOne (state : Bool) : (s.sendOne i state).sent = s.sent ++ [((i : Int), state)] := rfl

theorem Balanced.sendOne {state : Bool} (h : s.Balanced) (hi : i < s.keyPressState.length)
    (hrange : 0 ≤ s.keyPressState.getD i 0 + (if state then 1 else -1) ∧
      s.keyPressState.getD i 0 + (if state then 1 else -1) ≤ intMax) : (s.sendOne i state).Balanced := by
  refine ⟨by rw [keyPressState_sendOne, List.length_set]; exact h.size, fun j => ?_, fun key => ?_⟩
  · show 0 ≤ (s.keyPressState.set i _).getD j 0 ∧ (s.keyPressState.set i _).getD j 0 ≤ intMax
    rw [getD_set hi]
    split
    exacts [hrange, h.range j]
  · have hsent := h.sent key
    have hcount : (s.sendOne i state).count key = s.count key + if key = i then (if state then 1 else -1) else 0 := by
      unfold count
      split
      · rw [if_neg (by omega)]; rfl
      · show (s.keyPressState.set i _).getD key.toNat 0 = _
        rw [getD_set hi]
        by_cases hkey : key = i
        · subst hkey
          simp
        · rw [if_neg (by omega), if_neg hkey, Int.add_zero]
    rw [hcount]
    show ((s.sent ++ [((i : Int), state)]).count (key, true) : Int) =
      (s.sent ++ [((i : Int), state)]).count (key, false) + _
    rw [List.count_append, List.count_append, List.count_singleton, List.count_singleton]
    by_cases hkey : key = i
    · subst hkey
      cases state <;> simp <;> omega
    · have hne : ∀ b, (((i : Int), state) == (key, b)) = false := fun b => by
        rw [beq_eq_false_iff_ne]
        exact fun h => hkey (congrArg Prod.fst h).symm
      simp [hne, hkey, hsent]

end WlInput

variable {s s' : WlInput} {i : Nat}

theorem getD_growKeys {h : Heap} {old counts : List Int} {nmemb : Nat} (hg : growKeys h old nmemb = some counts)
    (hlen : old.length ≤ nmemb) : counts.length = nmemb ∧ ∀ i, counts.getD i 0 = old.getD i 0 := by
  unfold growKeys at hg
  split at hg
  · simp only [Option.some.injEq] at hg
    subst hg
    rw [List.take_of_length_le hlen]
    refine ⟨by simp; omega, fun i => ?_⟩
    rcases Nat.lt_or_ge i old.length with hi | hi
    · exact List.getD_append _ _ _ _ hi
    · rw [List.getD_append_right _ _ _ _ hi, List.getD_eq_default _ _ hi]
      rcases Nat.lt_or_ge (i - old.length) (nmemb - old.length) with hn | hn
      · exact List.getD_replicate 0 hn
      · exact List.getD_eq_default _ _ (by simpa using hn)
  · cases hg

theorem sizeOfInt_eq {n : Int} (h : 0 ≤ n) (hlt : n ≤ intMax) : sizeOfInt n = n.toNat := by
  unfold sizeOfInt
  unfold intMax at hlt
  rw [Int.emod_eq_of_lt h (by omega)]

theorem trackKeySize_balanced (h : Heap) {key : Int} (hkey : 0 ≤ key) (hs : s.Balanced) : wp (trackKeySize h key)
    (fun _ s' => s'.Balanced) (fun stop _ => stop ≠ .spinning) s := by
  unfold trackKeySize
  rw [wp_bind, wp_get, wp_ite]
  split
  · rename_i hle
    rw [wp_ite]
    split
    · exact (nomatch ·)
    · rename_i hmax
      rw [sizeOfInt_eq (by omega) (by omega)] at hle
      rw [sizeOfInt_eq (by omega) (by omega)]
      cases hg : growKeys h s.keyPressState (key + 1).toNat with
      | none => exact (nomatch ·)
      | some counts =>
        obtain ⟨hlen, hget⟩ := getD_growKeys hg (by omega)
        refine ⟨?_, fun i => ?_, fun k => ?_⟩
        · show counts.length ≤ intMax
          omega
        · show 0 ≤ counts.getD i 0 ∧ counts.getD i 0 ≤ intMax
          rw [hget]
          exact hs.range i
        · rw [hs.sent k]
          unfold WlInput.count
          simp only [hget]
  · exact hs

/-- A key in range is sent, unless it is a superfluous release, or its count overflows. -/
theorem wp_sendKey {Q : Unit → WlInput → Prop} {E : Stop → WlInput → Prop} (i : Nat) (state : Bool) :
    wp (sendKey i state) Q E s ↔
      if s.keyPressState.length ≤ i then E (.fault .keyTable) s
      else if s.keyPressState.getD i 0 = 0 ∧ state = false then Q () s
      else if intMax < s.keyPressState.getD i 0 + (if state then 1 else -1) ∨
        s.keyPressState.getD i 0 + (if state then 1 else -1) < -2 ^ 31 then
          E (.fault .overflow) (s.trackMods i state)
      else Q () (s.sendOne i state) := by
  have hi : ¬ (i : Int) < 0 := by omega
  have htrack : (s.trackMods i state).keyPressState = s.keyPressState ∧ (s.trackMods i state).sent = s.sent := by
    unfold WlInput.trackMods
    split <;> exact ⟨rfl, rfl⟩
  unfold sendKey WlInput.sendOne
  simp only [hi, false_or, Int.toNat_natCast, wp_bind, wp_get, wp_ite, wp_modify, wp_throw, wp_pure, htrack]

theorem sendKey_balanced (i : Nat) (state : Bool) (hs : s.Balanced) : wp (sendKey i state)
    (fun _ s' => s'.Balanced) (fun stop _ => stop ≠ .spinning) s := by
  rw [wp_sendKey]
  split
  · exact (nomatch ·)
  · rename_i hin
    split
    · exact hs
    · rename_i hcount
      have hlow : 0 ≤ s.keyPressState.getD i 0 + (if state then 1 else -1) := by
        have hnonneg := (hs.range i).1
        cases state with
        | true => simp only [if_true]; omega
        | false =>
          have : s.keyPressState.getD i 0 ≠ 0 := fun h0 => hcount ⟨h0, rfl⟩
          simp only [Bool.false_eq_true, if_false]
          omega
      have hone := fun hmax => hs.sendOne (Nat.lt_of_not_le hin) ⟨hlow, hmax⟩
      generalize (if state = true then (1 : Int) else -1) = d at *
      split
      · exact (nomatch ·)
      · exact hone (by omega)

theorem wlKeyRaw_negative (h : Heap) {key : Int} (state : Bool) (hkey : key < 0) : wp (wlKeyRaw h key state)
    (fun _ _ => False) (fun stop _ => stop ≠ .spinning) s := by
  have hsend : ∀ s, wp (sendKey key state) (fun _ _ => False) (fun stop _ => stop ≠ .spinning) s := fun s => by
    unfold sendKey
    rw [wp_bind, wp_get, if_pos (.inl hkey)]
    exact (nomatch ·)
  unfold wlKeyRaw trackKeySize
  rw [wp_bind, wp_bind, wp_get, wp_ite]
  split
  · rw [wp_ite]
    split
    · exact (nomatch ·)
    · cases growKeys h s.keyPressState (sizeOfInt (key + 1)) with
      | none => exact (nomatch ·)
      | some counts => exact hsend _
  · exact hsend _

theorem wlKeyRaw_balanced (h : Heap) (key : Int) (state : Bool) (hs : s.Balanced) : wp (wlKeyRaw h key state)
    (fun _ s' => s'.Balanced) (fun stop _ => stop ≠ .spinning) s := by
  rcases Int.lt_or_le key 0 with hkey | hkey
  · exact wp_mono (wlKeyRaw_negative h state hkey) (fun _ _ => False.elim) fun _ _ => id
  · obtain ⟨i, rfl⟩ := Int.eq_ofNat_of_zero_le hkey
    unfold wlKeyRaw
    rw [wp_bind]
    exact wp_mono (trackKeySize_balanced h hkey hs) (fun _ _ => sendKey_balanced i state) fun _ _ => id

theorem wlKey_balanced (h : Heap) (key id : Nat) (state : Bool) (hs : s.Balanced) : wp (wlKey h key id state)
    (fun _ s' => s'.Balanced) (fun stop _ => stop ≠ .spinning) s := by
  unfold wlKey
  rw [wp_bind, wp_get]
  cases s.config.remap key id with
  | none => exact hs
  | some key =>
    dsimp only
    rw [wp_ite]
    split
    exacts [hs, wlKeyRaw_balanced h key state hs]

/-! ### Releasing all keys -/

theorem wlKeyRaw_release (h : Heap) (hs : s.Balanced) (hpos : 0 < s.keyPressState.getD i 0) :
    wp (wlKeyRaw h (signed 32 i) false) (fun _ s' => s' = s.sendOne i false) (fun _ _ => False) s := by
  have hi : i < s.keyPressState.length := by
    by_contra hge
    rw [List.getD_eq_default _ _ (Nat.le_of_not_lt hge)] at hpos
    omega
  have hmax : intMax = 2 ^ 31 - 1 := rfl
  have hsize := hs.size
  have hrange := hs.range i
  have hsigned : signed 32 i = i := by
    unfold signed
    rw [if_pos (by omega)]
    omega
  have htrack : ¬ s.keyPressState.length ≤ sizeOfInt i := by
    rw [sizeOfInt_eq (by omega) (by omega)]
    omega
  rw [hsigned]
  unfold wlKeyRaw trackKeySize
  rw [wp_bind, wp_bind, wp_get, if_neg htrack, wp_pure, wp_sendKey, if_neg (Nat.not_le.mpr hi),
    if_neg (by omega), if_neg]
  simp only [Bool.false_eq_true, if_false]
  omega

namespace WlInput

/-- Nothing but releases is sent. -/
def Releases (s s' : WlInput) : Prop := ∃ rel, s'.sent = s.sent ++ rel ∧ ∀ ev ∈ rel, ev.2 = false

theorem Releases.refl (s : WlInput) : s.Releases s := ⟨[], (List.append_nil _).symm, by simp⟩

theorem Releases.trans {s₁ s₂ : WlInput} (h : s.Releases s₁) (h' : s₁.Releases s₂) : s.Releases s₂ := by
  obtain ⟨rel, hsent, hrel⟩ := h
  obtain ⟨rel', hsent', hrel'⟩ := h'
  refine ⟨rel ++ rel', by rw [hsent', hsent, List.append_assoc], fun ev hev => ?_⟩
  rcases List.mem_append.mp hev with hev | hev
  exacts [hrel ev hev, hrel' ev hev]

theorem releases_sendOne (s : WlInput) (i : Nat) : s.Releases (s.sendOne i false) :=
  ⟨[((i : Int), false)], rfl, by simp⟩

end WlInput

theorem releaseKey_spec (h : Heap) {fuel : Nat} (hs : s.Balanced) (hi : i < s.keyPressState.length)
    (hfuel : s.keyPressState.getD i 0 < fuel) : wp (releaseKey h i fuel)
      (fun _ s' => s'.Balanced ∧ s.Releases s' ∧ s'.keyPressState = s.keyPressState.set i 0)
      (fun _ _ => False) s := by
  induction fuel generalizing s with
  | zero =>
    have := (hs.range i).1
    omega
  | succ fuel ih =>
    have hrange := hs.range i
    unfold releaseKey
    rw [wp_bind, wp_get, wp_ite]
    split
    · rename_i hne
      have hpos : 0 < s.keyPressState.getD i 0 := by omega
      have hone : (s.sendOne i false).Balanced := hs.sendOne hi (by simp only [Bool.false_eq_true, if_false]; omega)
      rw [wp_bind]
      refine wp_mono (wlKeyRaw_release h hs hpos) ?_ fun _ _ => False.elim
      rintro _ s₁ rfl
      refine wp_mono (ih hone (by simpa using hi) ?_) ?_ fun _ _ => id
      · show (s.keyPressState.set i _).getD i 0 < _
        rw [WlInput.getD_set hi, if_pos rfl]
        simp only [Bool.false_eq_true, if_false]
        omega
      · rintro _ s₂ ⟨hs₂, hrel, hcounts⟩
        refine ⟨hs₂, (s.releases_sendOne i).trans hrel, hcounts.trans ?_⟩
        exact List.set_set ..
    · rename_i hzero
      refine ⟨hs, .refl s, ?_⟩
      have hget : s.keyPressState[i] = 0 := by
        rw [← List.getD_eq_getElem _ 0 hi]
        exact Classical.not_not.mp hzero
      rw [← hget, List.set_getElem_self]

theorem releaseFrom_spec (h : Heap) {fuel : Nat} (hs : s.Balanced) (hfuel : s.keyPressState.length - i < fuel) :
    wp (releaseFrom h i fuel)
      (fun _ s' => s'.Balanced ∧ s.Releases s' ∧
        ∀ j, s'.keyPressState.getD j 0 = if j < i then s.keyPressState.getD j 0 else 0)
      (fun _ _ => False) s := by
  induction fuel generalizing s i with
  | zero => exact absurd hfuel (Nat.not_lt_zero _)
  | succ fuel ih =>
    unfold releaseFrom
    rw [wp_bind, wp_get, wp_ite]
    split
    · rename_i hi
      rw [wp_bind]
      refine wp_mono (releaseKey_spec h hs hi ?_) ?_ fun _ _ => id
      · have := (hs.range i).1
        omega
      · rintro _ s₁ ⟨hs₁, hrel, hcounts⟩
        have hlen : s₁.keyPressState.length = s.keyPressState.length := by rw [hcounts, List.length_set]
        refine wp_mono (ih hs₁ (by omega)) ?_ fun _ _ => id
        rintro _ s₂ ⟨hs₂, hrel₂, hzero⟩
        refine ⟨hs₂, hrel.trans hrel₂, fun j => ?_⟩
        rw [hzero, hcounts, WlInput.getD_set hi]
        rcases Nat.lt_trichotomy j i with hj | rfl | hj
        · rw [if_pos (by omega), if_neg (by omega), if_pos hj]
        · rw [if_pos (by omega), if_pos rfl, if_neg (Nat.lt_irrefl _)]
        · rw [if_neg (by omega), if_neg (by omega)]
    · rename_i hi
      refine ⟨hs, .refl s, fun j => ?_⟩
      split
      · rfl
      · exact List.getD_eq_default _ _ (by omega)

/-- The loops end, with every key released. -/
theorem wlKeyReleaseAll_spec (h : Heap) (hs : s.Balanced) : wp (wlKeyReleaseAll h)
    (fun _ s' => s'.Balanced ∧ s.Releases s' ∧ s'.Released) (fun _ _ => False) s := by
  refine wp_mono (releaseFrom_spec h hs (Nat.lt_succ_self _)) ?_ fun _ _ => id
  rintro _ s' ⟨hs', hrel, hzero⟩
  exact ⟨hs', hrel, hs'.released_iff.mpr (WlInput.unpressed_iff.mpr fun j => by rw [hzero, if_neg (Nat.not_lt_zero j)])⟩

end Waynergy
