import Waynergy.InputPath

/-!
# The keys that are held

The tables count every key as often as it is held, and a key is pressed, released and left with the screen as
`follow` says.
-/

namespace Waynergy
open Lib
variable {R : Type} {h : Heap} {keys : KeyConfig} {held held' : Multiset Int} {s s' : WlInput} {key : Int} {i : Nat}

/-! ### The layout stays -/

def SameLayout (s s' : WlInput) : Prop := s'.config = s.config

instance : Frame SameLayout := ⟨fun _ => rfl, fun h h' => h'.trans h⟩

abbrev KeepsLayout {α : Type} (m : Keys α) : Prop := Within SameLayout (fun _ => True) m

namespace KeepsLayout

theorem wlKeyRaw (h : Heap) (key : Int) (state : Bool) : KeepsLayout (wlKeyRaw h key state) := by
  have hmods : ∀ s : WlInput, SameLayout s (s.trackMods key state) := by
    intro s
    unfold WlInput.trackMods
    split <;> rfl
  refine Within.bind ?_ fun _ => ?_
  · refine Within.read fun s => Within.ite (Within.ite (Within.throw trivial) ?_) (Within.pure _)
    split
    exacts [Within.modify fun _ => rfl, Within.throw trivial]
  · exact Within.read fun s => Within.ite (Within.throw trivial) (Within.ite (Within.pure _)
      (Within.bind (Within.modify hmods) fun _ => Within.ite (Within.throw trivial) (Within.modify fun _ => rfl)))

theorem releaseKey (h : Heap) (i fuel : Nat) : KeepsLayout (releaseKey h i fuel) := by
  induction fuel with
  | zero => exact Within.throw trivial
  | succ fuel ih => exact Within.read fun s => Within.ite (Within.bind (wlKeyRaw h _ _) fun _ => ih) (Within.pure _)

theorem releaseFrom (h : Heap) (i fuel : Nat) : KeepsLayout (releaseFrom h i fuel) := by
  induction fuel generalizing i with
  | zero => exact Within.throw trivial
  | succ fuel ih =>
    exact Within.read fun s => Within.ite (Within.bind (releaseKey h i _) fun _ => ih (i + 1)) (Within.pure _)

theorem wlKeyReleaseAll (h : Heap) : KeepsLayout (wlKeyReleaseAll h) :=
  Within.read fun _ => releaseFrom h 0 _

end KeepsLayout

/-! ### Releasing goes by the numbers -/

theorem releaseKey_sent (h : Heap) {fuel : Nat} (hs : s.Balanced) (hi : i < s.keyPressState.length) :
    wp (releaseKey h i fuel) (fun _ s' => ∃ n, s'.sent = s.sent ++ List.replicate n ((i : Int), false))
      (fun _ _ => True) s := by
  induction fuel generalizing s with
  | zero => trivial
  | succ fuel ih =>
    have hrange := hs.range i
    unfold releaseKey
    rw [wp_bind, wp_get, wp_ite]
    split
    · rename_i hne
      have hone : (s.sendOne i false).Balanced := hs.sendOne hi (by simp only [Bool.false_eq_true, if_false]; omega)
      rw [wp_bind]
      refine wp_mono (wlKeyRaw_release h hs (by omega)) ?_ fun _ _ => False.elim
      rintro _ s₁ rfl
      refine wp_mono (ih hone (by simpa using hi)) ?_ fun _ _ => id
      rintro _ s₂ ⟨n, hsent⟩
      refine ⟨n + 1, ?_⟩
      rw [hsent, WlInput.sent_sendOne, List.append_assoc, List.replicate_succ, List.singleton_append]
    · exact ⟨0, (List.append_nil _).symm⟩

/-- The keys are released in the order of the table. -/
theorem releaseFrom_sent (h : Heap) {fuel : Nat} (hs : s.Balanced) : wp (releaseFrom h i fuel)
    (fun _ s' => ∃ rel : List Int, s'.sent = s.sent ++ rel.map (fun key => (key, false)) ∧
      (∀ key ∈ rel, (i : Int) ≤ key) ∧ rel.Pairwise (· ≤ ·)) (fun _ _ => True) s := by
  induction fuel generalizing s i with
  | zero => trivial
  | succ fuel ih =>
    unfold releaseFrom
    rw [wp_bind, wp_get, wp_ite]
    split
    · rename_i hi
      have hfuel : s.keyPressState.getD i 0 < ((s.keyPressState.getD i 0).toNat + 1 : Nat) := by
        have := (hs.range i).1
        omega
      rw [wp_bind]
      refine wp_mono (wp_and (releaseKey_spec h hs hi hfuel) (releaseKey_sent h hs hi)) ?_ fun _ _ _ => trivial
      rintro _ s₁ ⟨⟨hs₁, -, -⟩, n, hsent⟩
      refine wp_mono (ih hs₁) ?_ fun _ _ => id
      rintro _ s₂ ⟨rel, hsent', hge, hsorted⟩
      refine ⟨List.replicate n (i : Int) ++ rel, ?_, ?_, ?_⟩
      · rw [hsent', hsent, List.append_assoc, List.map_append, List.map_replicate]
      · intro key hkey
        rcases List.mem_append.mp hkey with hkey | hkey
        · exact (List.eq_of_mem_replicate hkey).ge
        · have := hge key hkey
          omega
      · refine List.pairwise_append.mpr ⟨List.pairwise_replicate.mpr (.inr le_rfl), hsorted, ?_⟩
        intro a ha b hb
        rw [List.eq_of_mem_replicate ha]
        have := hge b hb
        omega
    · exact ⟨[], (List.append_nil _).symm, by simp, List.Pairwise.nil⟩

/-! ### The keys that are held -/

/-- The counts are those of the keys that are held. -/
structure HeldBy (keys : KeyConfig) (held : Multiset Int) (s : WlInput) : Prop where
  config : s.config = keys
  balanced : s.Balanced
  legal : WlInput.Legal s.sent
  counts : ∀ key, (held.count key : Int) = s.count key

/-- The keys `ks` are sent, and `held` are held afterwards. -/
structure Presses (keys : KeyConfig) (s : WlInput) (ks : List (Int × Bool)) (held : Multiset Int) (s' : WlInput) :
    Prop where
  holds : HeldBy keys held s'
  sent : s'.sent = s.sent ++ ks
  range : ∀ k ∈ ks, 0 ≤ k.1 ∧ k.1 < 2 ^ 31

theorem Presses.none (hs : HeldBy keys held s) : Presses keys s [] held s :=
  ⟨hs, (List.append_nil _).symm, by simp⟩

theorem Presses.trans {s₁ : WlInput} {ks ks' : List (Int × Bool)} (h : Presses keys s ks held s₁)
    (h' : Presses keys s₁ ks' held' s') : Presses keys s (ks ++ ks') held' s' := by
  refine ⟨h'.holds, ?_, ?_⟩
  · rw [h'.sent, h.sent, List.append_assoc]
  · intro k hk
    rcases List.mem_append.mp hk with hk | hk
    exacts [h.range k hk, h'.range k hk]

namespace HeldBy

theorem mem_iff (hs : HeldBy keys held s) : key ∈ held ↔ s.count key ≠ 0 := by
  rw [← hs.counts, ← Multiset.one_le_count_iff_mem]
  omega

theorem range (hs : HeldBy keys held s) (hkey : key ∈ held) : 0 ≤ key ∧ key < 2 ^ 31 := by
  have hne := hs.mem_iff.mp hkey
  have hsize := hs.balanced.size
  have hmax : intMax = 2 ^ 31 - 1 := rfl
  unfold WlInput.count at hne
  split at hne
  · exact absurd rfl hne
  · refine ⟨by omega, ?_⟩
    by_contra hge
    exact hne (List.getD_eq_default _ _ (by omega))

/-- The counts are known from what was sent. -/
theorem after {ks : List (Int × Bool)} (hs : HeldBy keys held s) (hlayout : SameLayout s s') (hs' : s'.Balanced)
    (hlegal : WlInput.Legal s'.sent) (hsent : s'.sent = s.sent ++ ks)
    (hheld : ∀ key, (held'.count key : Int) = held.count key + ks.count (key, true) - ks.count (key, false)) :
    HeldBy keys held' s' := by
  refine ⟨hlayout.trans hs.config, hs', hlegal, fun key => ?_⟩
  have hbefore := hs.balanced.sent key
  have hafter := hs'.sent key
  rw [hsent, List.count_append, List.count_append] at hafter
  rw [hheld, hs.counts]
  omega

theorem struck_count (held : Multiset Int) (key : Int) (down : Bool) (k : Int) :
    ((struck held key down).count k : Int) =
      held.count k + (strokes held key down).count (k, true) - (strokes held key down).count (k, false) := by
  unfold struck strokes
  by_cases hk : k = key
  · subst hk
    cases down with
    | true => simp
    | false =>
      by_cases hmem : k ∈ held
      · have : 1 ≤ held.count k := Multiset.one_le_count_iff_mem.mpr hmem
        simp [hmem]
        omega
      · simp [hmem]
  · have hne : ∀ b, (key, down) ≠ (k, b) := fun b heq => hk (congrArg Prod.fst heq).symm
    have hnone : ∀ b, (if down = true ∨ key ∈ held then [(key, down)] else []).count (k, b) = 0 := by
      intro b
      split
      · exact List.count_eq_zero.mpr fun hm => hne b (List.mem_singleton.mp hm).symm
      · exact List.count_nil
    rw [hnone, hnone]
    cases down with
    | true => simp [hk]
    | false => simp [Multiset.count_erase_of_ne hk]

end HeldBy

theorem wlKeyRaw_presses (h : Heap) (hs : HeldBy keys held s) (key : Int) (down : Bool) : wp (wlKeyRaw h key down)
    (fun _ s' => Presses keys s (strokes held key down) (struck held key down) s') (fun _ _ => True) s := by
  refine wp_mono (wp_run (wp_true _ _)) ?_ fun _ _ _ => trivial
  rintro _ s' ⟨-, hrun⟩
  rcases Int.lt_or_le key 0 with hneg | hkey
  · exact (wp_ok (Q := fun _ _ => False) (wlKeyRaw_negative h down hneg) hrun).elim
  rcases Int.lt_or_le key intMax with hlt | hge
  swap
  · exact (wp_ok (Q := fun _ _ => False) (wlKeyRaw_large hs.balanced hge) hrun).elim
  have hmax : key ≤ intMax := Int.le_of_lt hlt
  have hlimit : intMax = 2 ^ 31 - 1 := rfl
  obtain ⟨hs', hlegal⟩ := hs.balanced.raw hs.legal hkey hmax hrun
  have hsent : s'.sent = s.sent ++ strokes held key down := by
    have hsends := wp_ok (WlInput.wlKeyRaw_sends h hkey hmax hs.balanced) hrun
    unfold strokes
    split at hsends
    · rename_i hdrop
      rw [if_neg, List.append_nil]
      · exact hsends.sent
      · rintro (hdown | hmem)
        · rw [hdrop.2] at hdown
          cases hdown
        · exact hs.mem_iff.mp hmem hdrop.1
    · rename_i hsend
      rw [hsends, if_pos]
      rw [hs.mem_iff]
      cases down with
      | true => exact .inl rfl
      | false => exact .inr fun hzero => hsend ⟨hzero, rfl⟩
  refine ⟨hs.after ((KeepsLayout.wlKeyRaw h key down).ok hrun) hs' hlegal hsent (HeldBy.struck_count held key down),
    hsent, ?_⟩
  intro k hk
  unfold strokes at hk
  split at hk
  · cases List.mem_singleton.mp hk
    exact ⟨hkey, by omega⟩
  · cases hk

theorem wlKey_presses (h : Heap) (hs : HeldBy keys held s) (key id : Nat) (down : Bool) : wp (wlKey h key id down)
    (fun _ s' => Presses keys s ((keys.layout key id).elim [] (strokes held · down))
      ((keys.layout key id).elim held (struck held · down)) s') (fun _ _ => True) s := by
  unfold wlKey KeyConfig.layout
  rw [wp_bind, wp_get, hs.config]
  cases keys.remap key id with
  | none => exact .none hs
  | some k =>
    by_cases hdrop : k = -1
    · subst hdrop
      exact .none hs
    · have hkept : (some k).filter (· ≠ -1) = some k := Option.filter_eq_some_iff.mpr ⟨rfl, by simpa using hdrop⟩
      rw [hkept]
      dsimp only
      rw [if_neg hdrop]
      exact wlKeyRaw_presses h hs k down

/-- The key is pressed and released, and the others are as they were. -/
theorem onIdleKey_presses (h : Heap) (hs : HeldBy keys held s) (keyRaw : Int) (key : Nat) :
    wp (onIdleKey h keyRaw key) (fun _ s' => Presses keys s
      ((keys.idle keyRaw key).elim [] fun k => [(k, true), (k, false)]) held s') (fun _ _ => True) s := by
  have htwice : ∀ k, strokes held k true ++ strokes (struck held k true) k false = [(k, true), (k, false)] ∧
      struck (struck held k true) k false = held := by simp [strokes, struck]
  unfold onIdleKey KeyConfig.idle
  rw [wp_ite]
  split
  · obtain ⟨hkeys, hheld⟩ := htwice keyRaw
    rw [wp_bind]
    refine wp_mono (wlKeyRaw_presses h hs keyRaw true) ?_ fun _ _ => id
    intro _ s₁ hdown
    refine wp_mono (wlKeyRaw_presses h hdown.holds keyRaw false) ?_ fun _ _ => id
    intro _ s₂ hup
    have hboth := hdown.trans hup
    rw [hkeys, hheld] at hboth
    exact hboth
  · rw [wp_bind]
    refine wp_mono (wlKey_presses h hs key 0 true) ?_ fun _ _ => id
    intro _ s₁ hdown
    refine wp_mono (wlKey_presses h hdown.holds key 0 false) ?_ fun _ _ => id
    intro _ s₂ hup
    have hboth := hdown.trans hup
    cases hlayout : keys.layout key 0 with
    | none =>
      rw [hlayout] at hboth
      exact hboth
    | some k =>
      obtain ⟨hkeys, hheld⟩ := htwice k
      rw [hlayout] at hboth
      simp only [Option.elim_some, hkeys, hheld] at hboth ⊢
      exact hboth

theorem wlKeyReleaseAll_presses (h : Heap) (hs : HeldBy keys held s) : wp (wlKeyReleaseAll h)
    (fun _ s' => Presses keys s ((held.sort (· ≤ ·)).map fun key => (key, false)) 0 s') (fun _ _ => True) s := by
  have hsorted : wp (wlKeyReleaseAll h) (fun _ s' => ∃ rel : List Int, s'.sent = s.sent ++ rel.map (fun key =>
      (key, false)) ∧ (∀ key ∈ rel, ((0 : Nat) : Int) ≤ key) ∧ rel.Pairwise (· ≤ ·)) (fun _ _ => True) s :=
    releaseFrom_sent h hs.balanced
  refine wp_mono (wp_run (wp_and hsorted (WlInput.wlKeyReleaseAll_account h hs.balanced hs.legal))) ?_
    fun _ _ _ => trivial
  rintro _ s' ⟨⟨⟨rel, hsent, -, hsorted⟩, ⟨hs', hlegal⟩, hzero, rel', hsent', hcounts⟩, hrun⟩
  have hrel : rel' = rel.map fun key => (key, false) := List.append_cancel_left (hsent'.symm.trans hsent)
  have hcount : ∀ key, rel.count key = held.count key := by
    intro key
    have hinj : Function.Injective fun key : Int => (key, false) := fun a b hab => congrArg Prod.fst hab
    have hkey := (hcounts key).2
    have hmap := List.count_map_of_injective rel _ hinj key
    rw [hrel, ← hs.counts] at hkey
    omega
  have hheld : (rel : Multiset Int) = held := Multiset.ext.mpr fun key => by rw [Multiset.coe_count, hcount]
  have hsort : held.sort (· ≤ ·) = rel := by
    refine List.Perm.eq_of_pairwise' (Multiset.pairwise_sort held (· ≤ ·)) hsorted ?_
    rw [← Multiset.coe_eq_coe, Multiset.sort_eq, hheld]
  rw [hsort]
  refine ⟨⟨((KeepsLayout.wlKeyReleaseAll h).ok hrun).trans hs.config, hs', hlegal, fun key => ?_⟩, hsent, ?_⟩
  · rw [hzero]
    simp
  · intro k hk
    obtain ⟨key, hkey, rfl⟩ := List.mem_map.mp hk
    exact hs.range (hheld ▸ Multiset.mem_coe.mpr hkey)

end Waynergy
