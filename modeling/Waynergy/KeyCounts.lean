import Waynergy.Input
import Waynergy.Lib.Run

/-!
# The account of the keys (`wl_input.c`)

Whatever keys come in, and in whatever order, the count of a key is the number of presses that the backend got
without a release. A release is only sent where the count is not 0, so in everything that was ever sent the presses
of a key come first.
-/

namespace Waynergy
open Lib

inductive KeyOp
  | raw (key : Int) (state : Bool)
  | releaseAll

def KeyOp.exec : KeyOp × Heap → Keys Unit
  | (.raw key state, h) => wlKeyRaw h key state
  | (.releaseAll, h) => wlKeyReleaseAll h

namespace WlInput
variable {s s' t : WlInput} {key : Int} {state : Bool} {sent : List (Int × Bool)}

/-- Everywhere in `sent` there are at most as many releases as presses of a key. -/
def Legal (sent : List (Int × Bool)) : Prop :=
  ∀ pre, pre <+: sent → ∀ key, pre.count (key, false) ≤ pre.count (key, true)

/-- A count is what was pressed and not released; it is never negative, at no time. -/
structure Account (s : WlInput) : Prop where
  counts : ∀ key, s.count key = (s.sent.count (key, true) : Int) - s.sent.count (key, false)
  nonneg : ∀ key, 0 ≤ s.count key
  legal : Legal s.sent

theorem Balanced.nonneg (h : s.Balanced) (key : Int) : 0 ≤ s.count key := by
  unfold count
  split
  · exact Int.le_refl 0
  · exact (h.range _).1

theorem Balanced.releases_le (h : s.Balanced) (key : Int) : s.sent.count (key, false) ≤ s.sent.count (key, true) := by
  have hsent := h.sent key
  have hcount := h.nonneg key
  omega

theorem Balanced.account (h : s.Balanced) (hlegal : Legal s.sent) : s.Account := by
  refine ⟨fun key => ?_, h.nonneg, hlegal⟩
  have := h.sent key
  omega

theorem legal_nil : Legal [] := by
  intro pre hpre key
  rw [List.prefix_nil.mp hpre]
  exact Nat.le_refl _

/-- Where nothing but releases follows, it is enough that the releases are not too many in the end. -/
theorem Legal.releases {rel : List (Int × Bool)} (h : Legal sent) (hrel : ∀ ev ∈ rel, ev.2 = false)
    (hend : ∀ key, (sent ++ rel).count (key, false) ≤ (sent ++ rel).count (key, true)) : Legal (sent ++ rel) := by
  intro pre hpre key
  rcases List.prefix_or_prefix_of_prefix hpre (List.prefix_append sent rel) with hpre' | ⟨rel', rfl⟩
  · exact h pre hpre' key
  · have hrel' := (List.prefix_append_right_inj sent).mp hpre
    have hend := hend key
    have hnone : rel.count (key, true) = 0 := List.count_eq_zero.mpr fun hm => by cases hrel _ hm
    have hle : rel'.count (key, false) ≤ rel.count (key, false) := hrel'.sublist.count_le _
    rw [List.count_append, List.count_append] at hend ⊢
    omega

theorem Legal.press (h : Legal sent) (key : Int) : Legal (sent ++ [(key, true)]) := by
  intro pre hpre k
  rcases List.prefix_concat_iff.mp hpre with rfl | hpre
  · have := h sent (List.prefix_refl sent) k
    rw [List.count_append, List.count_append, List.count_eq_zero.mpr (by simp : (k, false) ∉ [(key, true)])]
    omega
  · exact h pre hpre k

/-! ### One call -/

/-- Only the length of the key state is different. -/
structure Resized (s t : WlInput) : Prop where
  sent : t.sent = s.sent
  xkb : t.xkb = s.xkb
  counts : ∀ key, t.count key = s.count key

theorem Resized.refl (s : WlInput) : s.Resized s := ⟨rfl, rfl, fun _ => rfl⟩

theorem trackKeySize_resized (h : Heap) (hkey : 0 ≤ key) (hmax : key ≤ intMax) : wp (trackKeySize h key)
    (fun _ t => s.Resized t ∧ key.toNat < t.keyPressState.length)
    (fun stop t => t = s ∧ (stop = .abort ∨ stop = .fault .overflow ∧ key = intMax)) s := by
  have hsize := sizeOfInt_eq hkey hmax
  unfold trackKeySize
  rw [wp_bind, wp_get, wp_ite]
  split
  · rename_i hle
    rw [wp_ite]
    split
    · exact ⟨rfl, .inr ⟨rfl, by omega⟩⟩
    · have hsize' : sizeOfInt (key + 1) = (key + 1).toNat := sizeOfInt_eq (by omega) (by omega)
      rw [hsize']
      cases hg : growKeys h s.keyPressState (key + 1).toNat with
      | none => exact ⟨rfl, .inl rfl⟩
      | some counts =>
        obtain ⟨hlen, hget⟩ := getD_growKeys hg (by omega)
        refine ⟨⟨rfl, rfl, fun k => ?_⟩, ?_⟩
        · unfold count
          rw [← hget]
        · show key.toNat < counts.length
          omega
  · exact ⟨.refl s, by omega⟩

theorem count_trackMods (s : WlInput) (key : Int) (state : Bool) :
    (s.trackMods key state).sent = s.sent ∧ ∀ k, (s.trackMods key state).count k = s.count k := by
  unfold trackMods
  split <;> exact ⟨rfl, fun _ => rfl⟩

/-- A superfluous release is dropped, and everything else is sent. -/
theorem wlKeyRaw_sends (h : Heap) (hkey : 0 ≤ key) (hmax : key ≤ intMax) (hs : s.Balanced) :
    wp (wlKeyRaw h key state)
      (fun _ s' => if s.count key = 0 ∧ state = false then s.Resized s' else s'.sent = s.sent ++ [(key, state)])
      (fun stop s' => (s'.sent = s.sent ∧ ∀ k, s'.count k = s.count k) ∧ (stop = .abort ∨
        stop = .fault .overflow ∧ (key = intMax ∨ state = true ∧ s.count key = intMax))) s := by
  have hcount : ∀ t : WlInput, t.count key = t.keyPressState.getD key.toNat 0 := fun t => if_neg (by omega)
  unfold wlKeyRaw
  rw [wp_bind]
  refine wp_mono (trackKeySize_resized h hkey hmax) ?_ ?_
  · rintro _ t ⟨ht, hlt⟩
    have hkeyNat : key = (key.toNat : Int) := by omega
    have hnonneg := hs.nonneg key
    have hbound : s.count key ≤ intMax := by
      rw [hcount]
      exact (hs.range _).2
    have hover : (intMax < s.count key + (if state then 1 else -1) ∨
        s.count key + (if state then 1 else -1) < -2 ^ 31) ↔ state = true ∧ s.count key = intMax := by
      have : intMax = 2 ^ 31 - 1 := rfl
      cases state <;> simp <;> omega
    rw [hkeyNat, wp_sendKey, if_neg (by omega), ← hkeyNat, ← hcount, ht.counts]
    simp only [hover]
    split
    · exact ht
    · split
      · rename_i hmax
        obtain ⟨hsent, hcounts⟩ := t.count_trackMods key state
        exact ⟨⟨hsent.trans ht.sent, fun k => (hcounts k).trans (ht.counts k)⟩, .inr ⟨trivial, .inr hmax⟩⟩
      · rw [sent_sendOne, ht.sent, ← hkeyNat]
  · rintro stop t ⟨rfl, hstop⟩
    exact ⟨⟨rfl, fun _ => rfl⟩, hstop.imp_right fun h => ⟨h.1, .inl h.2⟩⟩

theorem Balanced.raw {h : Heap} (hs : s.Balanced) (hlegal : Legal s.sent) (hkey : 0 ≤ key) (hmax : key ≤ intMax)
    (hrun : (wlKeyRaw h key state).run s = .ok () s') : s'.Balanced ∧ Legal s'.sent := by
  have hs' := wp_ok (wlKeyRaw_balanced h key state hs) hrun
  refine ⟨hs', ?_⟩
  have hsent := wp_ok (wlKeyRaw_sends h hkey hmax hs) hrun
  split at hsent
  · rw [hsent.sent]
    exact hlegal
  · rw [hsent]
    cases state with
    | true => exact hlegal.press key
    | false =>
      refine hlegal.releases (by simp) fun k => ?_
      rw [← hsent]
      exact hs'.releases_le k

theorem wlKeyReleaseAll_account (h : Heap) (hs : s.Balanced) (hlegal : Legal s.sent) :
    wp (wlKeyReleaseAll h) (fun _ s' => (s'.Balanced ∧ Legal s'.sent) ∧ (∀ key, s'.count key = 0) ∧
      ∃ rel, s'.sent = s.sent ++ rel ∧ ∀ key, rel.count (key, true) = 0 ∧ (rel.count (key, false) : Int) = s.count key)
      (fun _ _ => False) s := by
  refine wp_mono (wlKeyReleaseAll_spec h hs) ?_ fun _ _ => id
  rintro _ s' ⟨hs', ⟨rel, hsent, hrel⟩, hup, -⟩
  have hzero : ∀ key, s'.count key = 0 := by
    intro key
    unfold count
    split
    exacts [rfl, unpressed_iff.mp hup _]
  refine ⟨⟨hs', ?_⟩, hzero, rel, hsent, fun key => ?_⟩
  · rw [hsent]
    refine hlegal.releases hrel fun k => ?_
    rw [← hsent]
    exact hs'.releases_le k
  · have hnone : rel.count (key, true) = 0 := List.count_eq_zero.mpr fun hm => by cases hrel _ hm
    have hbefore := hs.sent key
    have hafter := hs'.sent key
    rw [hzero, hsent, List.count_append, List.count_append, hnone] at hafter
    exact ⟨hnone, by omega⟩

end WlInput

/-! ### Runs -/

/-- The keys of the run are not negative. -/
def KeysFrom {σ : Type} (steps : List (σ × (KeyOp × Heap))) : Prop :=
  ∀ t key state h, (t, (KeyOp.raw key state, h)) ∈ steps → 0 ≤ key ∧ key ≤ intMax

variable {config : KeyConfig} {steps : List (WlInput × (KeyOp × Heap))} {s : WlInput}

theorem balanced_of_keys (hrun : Run KeyOp.exec (.init config) steps s) (hkeys : KeysFrom steps) :
    s.Balanced ∧ WlInput.Legal s.sent := by
  refine hrun.invariant (P := fun s => s.Balanced ∧ WlInput.Legal s.sent)
    ⟨WlInput.balanced_init config, WlInput.legal_nil⟩ ?_
  rintro t ⟨op, h⟩ t' hm ⟨hs, hlegal⟩ hop
  cases op with
  | raw key state =>
    obtain ⟨hkey, hmax⟩ := hkeys t key state h hm
    exact hs.raw hlegal hkey hmax hop
  | releaseAll => exact (wp_ok (WlInput.wlKeyReleaseAll_account h hs hlegal) hop).1

/-- The counts account for what was sent, after every sequence of keys. -/
theorem keys_accounted (hrun : Run KeyOp.exec (.init config) steps s) (hkeys : KeysFrom steps) :
    s.Account ∧
    (∀ h (key : Int) s', 0 ≤ key → key ≤ intMax → (trackKeySize h key).run s = .ok () s' →
      ∀ k, s'.count k = s.count k) ∧
    (∀ h (key : Int) s', 0 ≤ key → key ≤ intMax → s.count key = 0 → (wlKeyRaw h key false).run s = .ok () s' →
      s'.sent = s.sent ∧ s'.xkb = s.xkb ∧ ∀ k, s'.count k = s.count k) ∧
    (∀ h (key : Int) state stop s', 0 ≤ key → key ≤ intMax → (wlKeyRaw h key state).run s = .error stop s' →
      (s'.sent = s.sent ∧ ∀ k, s'.count k = s.count k) ∧ (stop = .abort ∨
        stop = .fault .overflow ∧ (key = intMax ∨ state = true ∧ s.count key = intMax))) ∧
    ∀ h, ∃ s' rel, (wlKeyReleaseAll h).run s = .ok () s' ∧ (∀ key, s'.count key = 0) ∧ s'.sent = s.sent ++ rel ∧
      ∀ key, rel.count (key, true) = 0 ∧ (rel.count (key, false) : Int) = s.count key := by
  obtain ⟨hs, hlegal⟩ := balanced_of_keys hrun hkeys
  refine ⟨hs.account hlegal, ?_, ?_, ?_, ?_⟩
  · intro h key s' hkey hmax hgrow
    exact (wp_ok (WlInput.trackKeySize_resized h hkey hmax) hgrow).1.counts
  · intro h key s' hkey hmax hzero hraw
    have hsends := wp_ok (WlInput.wlKeyRaw_sends h hkey hmax hs) hraw
    rw [if_pos ⟨hzero, rfl⟩] at hsends
    exact ⟨hsends.sent, hsends.xkb, hsends.counts⟩
  · intro h key state stop s' hkey hmax hraw
    have hstop := wp_error (WlInput.wlKeyRaw_sends h hkey hmax hs) hraw
    exact hstop
  · intro h
    obtain ⟨_, s', hall, -, hzero, rel, hsent, hrel⟩ :=
      exists_ok_of_wp (WlInput.wlKeyReleaseAll_account h hs hlegal)
    exact ⟨s', rel, hall, hzero, hsent, hrel⟩

/-- A key beyond the table is pressed twice, so releasing all keys releases it twice. -/
theorem keys_accounted_twice : ∃ s, s.sent = [(5, true), (5, true)] ∧
    ∃ s' rel, (wlKeyReleaseAll allowAll).run s = .ok () s' ∧ s'.sent = s.sent ++ rel ∧
      rel.count (5, false) = 2 := by
  have hfirst : (KeyOp.exec (.raw 5 true, allowAll)).run (.init .sample) =
      .ok () ⟨.sample, [0, 0, 0, 0, 0, 1], [(5, true)], []⟩ := rfl
  have hsecond : (KeyOp.exec (.raw 5 true, allowAll)).run ⟨.sample, [0, 0, 0, 0, 0, 1], [(5, true)], []⟩ =
      .ok () ⟨.sample, [0, 0, 0, 0, 0, 2], [(5, true), (5, true)], []⟩ := rfl
  have hrun := (Run.single hfirst).snoc hsecond
  obtain ⟨-, -, -, -, hrelease⟩ := keys_accounted hrun fun t key state h hm => by
    rcases List.mem_append.mp hm with hm | hm
    all_goals
      cases List.mem_singleton.mp hm
      exact ⟨by decide, by decide⟩
  obtain ⟨s', rel, hall, -, hsent, hrel⟩ := hrelease allowAll
  refine ⟨_, rfl, s', rel, hall, hsent, ?_⟩
  have hfive := (hrel 5).2
  exact Int.ofNat.inj hfive

end Waynergy
