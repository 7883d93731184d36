import Mathlib.Algebra.Order.Ring.Int
import Mathlib.Data.List.Basic
import Mathlib.Data.List.Chain
import Mathlib.Tactic.Common

/-!
# Idle inhibition (`wl_idle.c`, `wl_idle_ext.c`, `wl_idle_kde.c`, `wl_idle_gnome.c`)

A backend is known by the inhibitors that it creates and destroys, or starts and kills. The ext and the KDE backend
do the same on objects of different interfaces. Where a request follows another one of its kind, the three differ:
only the GNOME backend stops the inhibitor that it has before it starts one.
-/

namespace Waynergy

/-- What is asked of the compositor, or of the system. -/
inductive IdleEvent
  | create (id : Int) (timeout : Nat)
  | destroy (id : Int)
  | spawn (pid : Int) (argv : List String)
  | kill (pid : Int)
deriving DecidableEq

/-- The `state` of a `struct wlIdle`, and what was asked so far. -/
structure Idle (H : Type) where
  state : H
  events : List IdleEvent

def liveBy (live : List Int) : IdleEvent → List Int
  | .create id _ | .spawn id _ => id :: live
  | .destroy id | .kill id => live.erase id

/-- The inhibitors that were created and not destroyed, or started and not killed. -/
def Idle.live {H : Type} (s : Idle H) : List Int := s.events.foldl liveBy []

/-! ### Objects of the compositor -/

/-- Ask for an object that tells when the seat is idle; `made` is the object, or `none` for the null pointer. -/
def startObject (idleTime : Int) (made : Option Int) (s : Idle (Option Int)) : Idle (Option Int) :=
  match made with
  | none => { s with state := none }
  | some id => ⟨some id, s.events ++ [.create id (idleTime * 1000 % 2 ^ 32).toNat]⟩

def stopObject (s : Idle (Option Int)) : Idle (Option Int) :=
  match s.state with
  | none => s
  | some id => ⟨none, s.events ++ [.destroy id]⟩

namespace Ext

def inhibitStart : Int → Option Int → Idle (Option Int) → Idle (Option Int) := startObject

def inhibitStop : Idle (Option Int) → Idle (Option Int) := stopObject

end Ext

namespace Kde

def inhibitStart : Int → Option Int → Idle (Option Int) → Idle (Option Int) := startObject

def inhibitStop : Idle (Option Int) → Idle (Option Int) := stopObject

end Kde

/-! ### A process -/

namespace Gnome

def inhibitStop (s : Idle Int) : Idle Int :=
  if s.state = -1 then s else ⟨-1, s.events ++ [.kill s.state]⟩

def argv : List String := ["gnome-session-inhibit", "--inhibit", "idle", "--inhibit-only"]

def inhibitStart (made : Option Int) (s : Idle Int) : Idle Int :=
  let s := if s.state ≠ -1 then inhibitStop s else s
  match made with
  | none => { s with state := -1 }
  | some pid => ⟨pid, s.events ++ [.spawn pid argv]⟩

end Gnome

/-! ### Requests -/

/-- The functions of a `struct wlIdle`. -/
structure WlIdle (H : Type) where
  inhibitStart : Option (Option Int → Idle H → Idle H)
  inhibitStop : Option (Idle H → Idle H)

/-- A request, and what is made if it makes something. -/
structure IdleRequest where
  on : Bool
  made : Option Int

section
variable {H : Type}

def wlIdleInhibit (idle : WlIdle H) (r : IdleRequest) (s : Idle H) : Idle H :=
  if r.on then
    match idle.inhibitStart with
    | none => s
    | some start => start r.made s
  else
    match idle.inhibitStop with
    | none => s
    | some stop => stop s

def serve (idle : WlIdle H) : List IdleRequest → Idle H → Idle H
  | [], s => s
  | r :: rs, s => serve idle rs (wlIdleInhibit idle r s)

end

def wlIdleInitExt (idleTime : Int) : WlIdle (Option Int) × Idle (Option Int) :=
  (⟨some (Ext.inhibitStart idleTime), some Ext.inhibitStop⟩, ⟨none, []⟩)

def wlIdleInitKde (idleTime : Int) : WlIdle (Option Int) × Idle (Option Int) :=
  (⟨some (Kde.inhibitStart idleTime), some Kde.inhibitStop⟩, ⟨none, []⟩)

def wlIdleInitGnome : WlIdle Int × Idle Int := (⟨some Gnome.inhibitStart, some Gnome.inhibitStop⟩, ⟨-1, []⟩)

/-! ### The inhibitors after a sequence of requests -/

/-- Every creation and every spawn succeeds. -/
def Granted (rs : List IdleRequest) : Prop := ∀ r ∈ rs, r.on = true → ∃ id, r.made = some id ∧ 0 < id

/-- Whether the last request was on; `was` where there is none. -/
def lastOn (was : Bool) (rs : List IdleRequest) : Bool := (rs.getLast?.map IdleRequest.on).getD was

/-- One inhibitor is live if the last request was on, and none otherwise. -/
def Follows {H : Type} (idle : WlIdle H × Idle H) (rs : List IdleRequest) : Prop :=
  (serve idle.1 rs idle.2).live.length = if lastOn false rs then 1 else 0

/-- No request is on that follows one that is on. -/
def NoRepeat (ons : List Bool) : Prop := ons.IsChain fun a b => ¬ (a = true ∧ b = true)

theorem lastOn_cons (was : Bool) (r : IdleRequest) (rs : List IdleRequest) :
    lastOn was (r :: rs) = lastOn r.on rs := by
  unfold lastOn
  rw [List.getLast?_cons]
  cases rs.getLast? <;> rfl

theorem noRepeat_cons (was on : Bool) (ons : List Bool) :
    NoRepeat (was :: on :: ons) ↔ ¬ (was = true ∧ on = true) ∧ NoRepeat (on :: ons) :=
  List.isChain_cons_cons

theorem noRepeat_false (ons : List Bool) : NoRepeat (false :: ons) ↔ NoRepeat ons := by
  cases ons with
  | nil => exact iff_of_true (.singleton _) .nil
  | cons on ons =>
    rw [noRepeat_cons]
    exact and_iff_right fun h => Bool.false_ne_true h.1

/-- The object that is known is live, and `lost` are live that are not known. -/
structure Owns (s : Idle (Option Int)) (lost : Nat) : Prop where
  mem : ∀ id, s.state = some id → id ∈ s.live
  count : s.live.length = lost + if s.state.isSome then 1 else 0

namespace Owns
variable {s : Idle (Option Int)} {lost : Nat}

theorem start (h : Owns s lost) (idleTime id : Int) :
    Owns (startObject idleTime (some id) s) (lost + if s.state.isSome then 1 else 0) := by
  have hlive : (startObject idleTime (some id) s).live = id :: s.live := by
    simp [startObject, Idle.live, List.foldl_append, liveBy]
  refine ⟨fun id' h' => ?_, ?_⟩
  · rw [hlive]
    cases h'
    exact List.mem_cons_self ..
  · rw [hlive, List.length_cons, h.count]
    rfl

theorem stop (h : Owns s lost) : Owns (stopObject s) lost ∧ (stopObject s).state = none := by
  unfold stopObject
  cases hs : s.state with
  | none => exact ⟨h, hs⟩
  | some id =>
    have hmem := h.mem id hs
    have hlive : Idle.live { state := (none : Option Int), events := s.events ++ [.destroy id] } = s.live.erase id := by
      simp [Idle.live, List.foldl_append, liveBy]
    refine ⟨⟨?_, ?_⟩, rfl⟩
    · rintro id' ⟨⟩
    · rw [hlive, List.length_erase_of_mem hmem, h.count, hs]
      rfl

/-- One request: an object that is known is lost where another one is made. -/
theorem request {r : IdleRequest} (h : Owns s lost) (idleTime : Int)
    (hmade : r.on = true → ∃ id, r.made = some id ∧ 0 < id) :
    ∃ lost', Owns (wlIdleInhibit (wlIdleInitExt idleTime).1 r s) lost' ∧
      (wlIdleInhibit (wlIdleInitExt idleTime).1 r s).state.isSome = r.on ∧
      (lost' = 0 ↔ lost = 0 ∧ ¬ (s.state.isSome = true ∧ r.on = true)) := by
  unfold wlIdleInhibit wlIdleInitExt Ext.inhibitStart Ext.inhibitStop
  cases hon : r.on with
  | true =>
    obtain ⟨id, hid, -⟩ := hmade hon
    rw [hid]
    refine ⟨_, h.start idleTime id, rfl, ?_⟩
    cases s.state <;> simp
  | false =>
    obtain ⟨hown, hnone⟩ := h.stop
    refine ⟨lost, hown, ?_, by simp⟩
    show (stopObject s).state.isSome = false
    rw [hnone]
    rfl

/-- After all requests nothing is lost exactly if nothing was, and none repeats the one before it. -/
theorem serve {rs : List IdleRequest} (h : Owns s lost) (idleTime : Int) (hrs : Granted rs) :
    ∃ lost', Owns (serve (wlIdleInitExt idleTime).1 rs s) lost' ∧
      (serve (wlIdleInitExt idleTime).1 rs s).state.isSome = lastOn s.state.isSome rs ∧
      (lost' = 0 ↔ lost = 0 ∧ NoRepeat (s.state.isSome :: rs.map IdleRequest.on)) := by
  induction rs generalizing s lost with
  | nil => exact ⟨lost, h, rfl, by simp [NoRepeat]⟩
  | cons r rs ih =>
    obtain ⟨lost₁, hown₁, hon₁, hlost₁⟩ := h.request idleTime (hrs r (by simp))
    obtain ⟨lost₂, hown₂, hon₂, hlost₂⟩ := ih hown₁ fun r' hr' => hrs r' (by simp [hr'])
    refine ⟨lost₂, hown₂, ?_, ?_⟩
    · rw [lastOn_cons, ← hon₁]
      exact hon₂
    · rw [hlost₂, hlost₁, hon₁, List.map_cons, noRepeat_cons, and_assoc]

end Owns

/-- The backends that keep one object: an inhibitor is live as requested exactly if no request repeats the one
before it. -/
theorem ext_follows_iff (idleTime : Int) {rs : List IdleRequest} (hrs : Granted rs) :
    Follows (wlIdleInitExt idleTime) rs ↔ NoRepeat (rs.map IdleRequest.on) := by
  have h₀ : Owns (wlIdleInitExt idleTime).2 0 := by
    refine ⟨?_, rfl⟩
    rintro id ⟨⟩
  obtain ⟨lost, hown, hon, hlost⟩ := h₀.serve idleTime hrs
  have hon : (serve (wlIdleInitExt idleTime).1 rs (wlIdleInitExt idleTime).2).state.isSome = lastOn false rs := hon
  have hlost : lost = 0 ↔ NoRepeat (false :: rs.map IdleRequest.on) := by
    rw [hlost]
    exact and_iff_right rfl
  rw [Follows, hown.count, hon, ← noRepeat_false, ← hlost]
  split <;> omega

theorem kde_follows_iff (idleTime : Int) {rs : List IdleRequest} (hrs : Granted rs) :
    Follows (wlIdleInitKde idleTime) rs ↔ NoRepeat (rs.map IdleRequest.on) :=
  ext_follows_iff idleTime hrs

namespace Gnome

/-- The process that is known is the only one that runs. -/
def Sole (s : Idle Int) : Prop := s.state = -1 ∧ s.live = [] ∨ s.state ≠ -1 ∧ s.live = [s.state]

theorem Sole.stop {s : Idle Int} (h : Sole s) : (inhibitStop s).state = -1 ∧ (inhibitStop s).live = [] := by
  unfold inhibitStop
  rcases h with ⟨hstate, hlive⟩ | ⟨hstate, hlive⟩
  · rw [if_pos hstate]
    exact ⟨hstate, hlive⟩
  · rw [if_neg hstate]
    refine ⟨rfl, ?_⟩
    have hkill : Idle.live { state := (-1 : Int), events := s.events ++ [.kill s.state] } = s.live.erase s.state := by
      simp [Idle.live, List.foldl_append, liveBy]
    rw [hkill, hlive, List.erase_cons_head]

theorem Sole.start {s : Idle Int} (h : Sole s) (pid : Int) :
    (inhibitStart (some pid) s).state = pid ∧ (inhibitStart (some pid) s).live = [pid] := by
  have hclear : (if s.state ≠ -1 then inhibitStop s else s).live = [] := by
    split
    · exact h.stop.2
    · rename_i hstate
      rcases h with ⟨-, hlive⟩ | ⟨hstate', -⟩
      · exact hlive
      · exact absurd hstate' hstate
  refine ⟨rfl, ?_⟩
  have hspawn : (inhibitStart (some pid) s).live = pid :: (if s.state ≠ -1 then inhibitStop s else s).live := by
    simp [inhibitStart, Idle.live, List.foldl_append, liveBy]
  rw [hspawn, hclear]

end Gnome

/-- The GNOME backend stops what it has before it starts. -/
theorem gnome_request {r : IdleRequest} {s : Idle Int} (h : Gnome.Sole s)
    (hmade : r.on = true → ∃ pid, r.made = some pid ∧ 0 < pid) :
    Gnome.Sole (wlIdleInhibit wlIdleInitGnome.1 r s) ∧
      (wlIdleInhibit wlIdleInitGnome.1 r s).live.length = if r.on then 1 else 0 := by
  unfold wlIdleInhibit wlIdleInitGnome
  cases hon : r.on with
  | true =>
    obtain ⟨pid, hpid, hpos⟩ := hmade hon
    obtain ⟨hstate, hlive⟩ := h.start pid
    rw [hpid]
    refine ⟨.inr ?_, congrArg List.length hlive⟩
    show (Gnome.inhibitStart (some pid) s).state ≠ -1 ∧
      (Gnome.inhibitStart (some pid) s).live = [(Gnome.inhibitStart (some pid) s).state]
    rw [hstate]
    exact ⟨by omega, hlive⟩
  | false =>
    exact ⟨.inl h.stop, congrArg List.length h.stop.2⟩

theorem gnome_follows {rs : List IdleRequest} (hrs : Granted rs) : Follows wlIdleInitGnome rs := by
  suffices ∀ (s : Idle Int) (was : Bool), Gnome.Sole s → s.live.length = (if was then 1 else 0) →
      (serve wlIdleInitGnome.1 rs s).live.length = if lastOn was rs then 1 else 0 from
    this _ false (.inl ⟨rfl, rfl⟩) rfl
  induction rs with
  | nil =>
    intro s was _ hlen
    exact hlen
  | cons r rs ih =>
    intro s was hs _
    obtain ⟨hs', hlen'⟩ := gnome_request hs (hrs r (by simp))
    rw [lastOn_cons]
    exact ih (fun r' hr' => hrs r' (by simp [hr'])) _ _ hs' hlen'

/-- Two backends lose count exactly where a request repeats one; the third never does. -/
theorem idle_follows (idleTime : Int) (rs : List IdleRequest) (hrs : Granted rs) :
    (Follows (wlIdleInitExt idleTime) rs ↔ NoRepeat (rs.map IdleRequest.on)) ∧
      (Follows (wlIdleInitKde idleTime) rs ↔ NoRepeat (rs.map IdleRequest.on)) ∧
      Follows wlIdleInitGnome rs :=
  ⟨ext_follows_iff idleTime hrs, kde_follows_iff idleTime hrs, gnome_follows hrs⟩

/-- Inhibition is turned on at start-up, and by a message again before one turns it off. -/
def onOnOff : List IdleRequest := [⟨true, some 1⟩, ⟨true, some 2⟩, ⟨false, none⟩]

theorem granted_onOnOff : Granted onOnOff := by
  intro r hr hon
  simp only [onOnOff, List.mem_cons, List.not_mem_nil, or_false] at hr
  rcases hr with rfl | rfl | rfl
  · exact ⟨1, rfl, by decide⟩
  · exact ⟨2, rfl, by decide⟩
  · cases hon

theorem idle_follows_onOnOff : Follows wlIdleInitGnome onOnOff :=
  (idle_follows 30 onOnOff granted_onOnOff).2.2

/-- The first object is lost, and is still there after the last request. -/
theorem onOnOff_inhibits :
    Granted onOnOff ∧ ¬ Follows (wlIdleInitExt 30) onOnOff ∧ ¬ Follows (wlIdleInitKde 30) onOnOff := by
  refine ⟨granted_onOnOff, ?_, ?_⟩
  all_goals
    intro h
    simp [Follows, wlIdleInitExt, wlIdleInitKde, onOnOff, serve, wlIdleInhibit, Ext.inhibitStart, Ext.inhibitStop,
      Kde.inhibitStart, Kde.inhibitStop, startObject, stopObject, Idle.live, liveBy, lastOn] at h

end Waynergy
