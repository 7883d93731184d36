import Waynergy.Mapper

/-!
# Undoing in the mapper (`mapper.c`)

`raw_keymap_prev` marks the key at the position as not set and only then goes back. The key that is asked for is not set
anyway, and the one whose answer was to be undone stays set.
-/

namespace Waynergy
open Lib
namespace Mapper
variable {km : LocalKeymap} {opts : MapperOptions} {s s' : Mapper}

/-! ### The position -/

theorem asks_exec (e : MapperEvent) (h : Asks km s) :
    wp (e.exec km opts) (fun _ s' => Asks km s') (fun _ _ => True) s := by
  have hstay : wp (rawKeymapPrompt km opts) (fun _ s' => Asks km s') (fun _ _ => True) s := asks_prompt h.low h.high
  cases e with
  | key code state =>
    show wp (keyboardKey km opts code state) _ _ s
    unfold keyboardKey
    rw [wp_bind, wp_get, wp_ite]
    split
    · rw [wp_bind]
      refine wp_mono (rawKeymapStore_spec _ h.high) ?_ fun _ _ _ => trivial
      rintro _ _ ⟨hlt, rfl⟩
      exact asks_prompt (Nat.le_succ_of_le h.low) hlt
    · exact h
  | button b state =>
    show wp (pointerButton km opts b state) _ _ s
    unfold pointerButton buttonReleased
    rw [wp_ite]
    split
    · exact h
    rw [wp_bind, wp_bind, wp_get, wp_ite]
    split
    · exact asks_prompt h.low h.high
    cases b with
    | left =>
      refine wp_mono (rawKeymapNext_spec h.high) ?_ fun _ _ _ => trivial
      rintro _ _ ⟨hlt, rfl⟩
      exact asks_prompt (Nat.le_succ_of_le h.low) hlt
    | middle =>
      show wp (rawKeymapPrev km) _ _ s
      unfold rawKeymapPrev
      rw [wp_modify]
      split
      · rename_i hback
        have hlow : km.min ≤ s.rawKeymapPos - 1 := Nat.le_sub_one_of_lt hback
        exact asks_prompt hlow (Nat.le_trans (Nat.sub_le _ _) h.high)
      · exact hstay
    | right => exact wp_mono printOutput_spec (fun _ _ => False.elim) fun _ _ _ => trivial
    | other => exact hstay

theorem Reachable.asks (h : Reachable km opts s) : Asks km s := by
  obtain ⟨steps, hrun⟩ := h
  have hinit : Asks km (rawKeymapInit km) := ⟨Nat.le_refl _, km.min_le, fun hstarted => by cases hstarted⟩
  exact hrun.invariant hinit fun t e t' _ hasks hop => wp_ok (Q := fun _ t' => Asks km t') (asks_exec e hasks) hop

/-! ### Undoing -/

/-- Storing a code by releasing its key, and undoing that. -/
def storeAndUndo (km : LocalKeymap) (opts : MapperOptions) (key : UInt32) : Mapping Unit := do
  keyboardKey km opts key false
  pointerButton km opts .middle false

/-- The mapper asks for the same key again, which is not set, and what is printed in the end if it is then skipped is
as if it had been skipped at once. -/
def Undoes (km : LocalKeymap) (opts : MapperOptions) (s : Mapper) (key : UInt32) : Prop :=
  ∃ s', (storeAndUndo km opts key).run s = .ok () s' ∧ s'.rawKeymapPos = s.rawKeymapPos ∧
    s'.rawKeymapSet s.rawKeymapPos = false ∧ ∀ events,
      printedAfter km opts (.button .left false :: events) s' = printedAfter km opts (.button .left false :: events) s

/-- It is the key at the position that is marked as not set, and not the one that is gone back to. -/
theorem undo_spec (hstarted : s.started = true) (hback : s.rawKeymapPos > km.min) (hhigh : s.rawKeymapPos ≤ km.max) :
    wp (pointerButton km opts .middle false)
      (fun _ s' => s'.rawKeymap = s.rawKeymap ∧
        s'.rawKeymapSet = Function.update s.rawKeymapSet s.rawKeymapPos false)
      (fun _ _ => ¬ Named km s.rawKeymapPos) s := by
  rw [wp_clicked hstarted]
  show wp (rawKeymapPrev km) _ _ s
  unfold rawKeymapPrev
  rw [wp_modify, if_pos hback]
  refine wp_mono (rawKeymapPrompt_spec (Nat.le_trans (Nat.sub_le _ _) hhigh)) ?_ ?_
  · rintro _ _ ⟨q, -, -, -, -, rfl⟩
    exact ⟨rfl, rfl⟩
  · rintro stop _ ⟨hnone, -⟩
    exact hnone s.rawKeymapPos (Nat.sub_le _ _) hhigh

/-- Where another key is asked for after the store, the key that was stored for stays set. -/
theorem storeAndUndo_spec (key : UInt32) (h : Asks km s) (hstarted : s.started = true) :
    wp (storeAndUndo km opts key) (fun _ s' => s'.rawKeymap s.rawKeymapPos = (key + 8).toNat ∧
        s'.rawKeymapSet s.rawKeymapPos = true)
      (fun _ _ => ∀ i, s.rawKeymapPos < i → i ≤ km.max → ¬ Named km i) s := by
  unfold storeAndUndo
  rw [wp_bind, wp_keyReleased hstarted]
  refine wp_mono (rawKeymapStore_spec _ h.high) ?_ ?_
  · rintro _ _ ⟨hlt, rfl⟩
    refine wp_mono (rawKeymapPrompt_spec hlt) ?_ ?_
    · rintro _ _ ⟨q, hle, hmax, hq, -, rfl⟩
      have hlt : s.rawKeymapPos < q := hle
      have hback : q > km.min := Nat.lt_of_le_of_lt h.low hlt
      refine wp_mono (undo_spec hstarted hback hmax) ?_ fun _ _ hnone => absurd hq hnone
      rintro _ s' ⟨hcodes, hmarks⟩
      dsimp only at hcodes hmarks
      rw [hcodes, hmarks, Function.update_of_ne (Nat.ne_of_lt hlt)]
      exact ⟨Function.update_self .., Function.update_self ..⟩
    · rintro stop _ ⟨hnone, -⟩ i hi himax
      exact hnone i hi himax
  · rintro stop _ ⟨hend, -⟩ i hi himax
    omega

theorem not_undoes (key : UInt32) (h : Asks km s) (hstarted : s.started = true) : ¬ Undoes km opts s key := by
  rintro ⟨s', hrun, -, hset, -⟩
  have hkept := (wp_ok (storeAndUndo_spec key h hstarted) hrun).2
  rw [hset] at hkept
  cases hkept

/-- The mapper asks for the first of two keys. -/
def sampleStarted : Mapper := { rawKeymapInit .sample with started := true }

theorem reachable_sampleStarted : Reachable .sample ⟨none, false⟩ sampleStarted := by
  have hclick : ((MapperEvent.button .left false).exec .sample ⟨none, false⟩).run (rawKeymapInit .sample) =
      .ok () sampleStarted := rfl
  exact ⟨_, Run.single hclick⟩

/-- The code 30 is stored for the key 8, and undone at the key 9. -/
theorem undo_at_next : Reachable .sample ⟨none, false⟩ sampleStarted ∧ sampleStarted.started = true ∧
    Named .sample sampleStarted.rawKeymapPos ∧ Named .sample (sampleStarted.rawKeymapPos + 1) ∧
    ¬ Undoes .sample ⟨none, false⟩ sampleStarted 22 :=
  ⟨reachable_sampleStarted, rfl, rfl, rfl, not_undoes 22 reachable_sampleStarted.asks rfl⟩

/-- Undo never undoes: where there is another key to ask for, the key that was stored for stays set to its code. -/
theorem undo_keeps (hreach : Reachable km opts s) (hstarted : s.started = true)
    (hnext : ∃ q, s.rawKeymapPos < q ∧ q ≤ km.max ∧ Named km q) (key : UInt32) : ¬ Undoes km opts s key ∧
    ∃ s', (storeAndUndo km opts key).run s = .ok () s' ∧ s'.rawKeymap s.rawKeymapPos = (key + 8).toNat ∧
      s'.rawKeymapSet s.rawKeymapPos = true := by
  obtain ⟨q, hlt, hmax, hq⟩ := hnext
  have hasks := hreach.asks
  refine ⟨not_undoes key hasks hstarted, ?_⟩
  have hstored := @storeAndUndo_spec km opts s key hasks hstarted
  obtain ⟨_, s', hrun, hkept⟩ := exists_ok_of_wp
    (wp_mono hstored (fun _ _ => id) fun _ _ hnone => hnone q hlt hmax hq)
  exact ⟨s', hrun, hkept⟩

theorem undo_keeps_sample : ¬ Undoes .sample ⟨none, false⟩ sampleStarted 22 ∧ ∃ s',
    (storeAndUndo .sample ⟨none, false⟩ 22).run sampleStarted = .ok () s' ∧ s'.rawKeymap 8 = 30 ∧
      s'.rawKeymapSet 8 = true :=
  undo_keeps reachable_sampleStarted rfl ⟨9, by decide, by decide, by decide⟩ 22

end Mapper
end Waynergy
