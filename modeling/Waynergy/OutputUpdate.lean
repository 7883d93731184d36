import Waynergy.Outputs

/-!
# The update of the size (`wayland.c`, `main.c`)

A done event calls `on_output_update` where it is set and every output is complete. The removal of an output calls it
whatever it is and whatever the other outputs are, so it must be set then, and the outputs that are left be complete.
-/

namespace Waynergy
open Lib

variable {s s' : WlContext} {ns : List (Nat × WlOutput)} {onOutputUpdate : Bool}

/-- At that moment, every output in the list was complete. -/
def CompleteAt (m : Memory WlOutput × Option Nat) : Prop := ∃ ns, Seg m.1 m.2 ns none ∧ AllComplete ns

/-- Since `s`, the function was only called where it was set, and at moments when every output was complete. -/
def WlContext.Due (s s' : WlContext) : Prop :=
  ∃ calls, s'.updates = s.updates ++ calls ∧ ∀ m ∈ calls, s.onOutputUpdate = true ∧ CompleteAt m

/-- If an output is removed, the function is set, and that output is the head of the list, which has no outputs then,
or all the others are complete. -/
def WaylandEvent.Allowed (s : WlContext) : WaylandEvent → Prop
  | .globalRemove name => ∀ ns, s.Lists ns → ∀ n, ns.find? (fun n => n.2.wlName = name) = some n →
    s.onOutputUpdate = true ∧ (s.outputs = some n.1 ∨ ∀ n' ∈ ns, n'.1 ≠ n.1 → n'.2.complete = true)
  | _ => True

/-! ### One event -/

/-- The outputs are still in a list, the function is what it was, and what it is called for is what `P` says. -/
structure Updates (P : Prop) (s s' : WlContext) : Prop where
  lists : ∃ ns, s'.Lists ns
  onOutputUpdate : s'.onOutputUpdate = s.onOutputUpdate
  calls : ∃ calls, s'.updates = s.updates ++ calls ∧ ((∀ m ∈ calls, s.onOutputUpdate = true ∧ CompleteAt m) ↔ P)

theorem Updates.silent (h : s'.Lists ns) (hsame : s.SameRest s') : Updates True s s' :=
  ⟨⟨ns, h⟩, hsame.onOutputUpdate, [], by rw [hsame.updates, List.append_nil], by simp⟩

theorem Updates.due_iff {P : Prop} (h : Updates P s s') : s.Due s' ↔ P := by
  obtain ⟨calls, hcalls, hP⟩ := h.calls
  refine Iff.trans ⟨?_, fun hdue => ⟨calls, hcalls, hdue⟩⟩ hP
  rintro ⟨calls', hcalls', hdue⟩
  rw [hcalls] at hcalls'
  rwa [List.append_cancel_left hcalls']

theorem completeAt_iff (h : s.Lists ns) : CompleteAt (s.mem, s.outputs) ↔ AllComplete ns := by
  refine ⟨?_, fun hall => ⟨ns, h, hall⟩⟩
  rintro ⟨ns', hns', hall⟩
  rwa [h.unique hns']

theorem output_updates (h : s.Lists ns) (ev : OutputEvent) : wp ev.handle (fun _ s' => Updates True s s')
    (fun _ _ => False) s := by
  refine wp_mono (ev.handle_spec h) ?_ fun _ _ => id
  rintro _ s' ⟨hlist, -, hcb, hcalls⟩
  refine ⟨⟨_, hlist⟩, hcb, _, hcalls, iff_of_true (fun m hm => ?_) trivial⟩
  split at hm
  · rename_i hfires
    rw [List.mem_singleton.mp hm, completeAt_iff hlist]
    exact ⟨hfires.2.2.2, hfires.2.2.1⟩
  · cases hm

theorem global_updates (h : s.Lists ns) (name : Nat) (g : Global) : wp (handleGlobal name g)
    (fun _ s' => Updates True s s') (fun _ s' => Updates True s s') s := by
  cases g with
  | outputManager version getXdgOutput =>
    unfold handleGlobal
    rw [wp_ite]
    split
    · exact .silent h (.refl s)
    · obtain ⟨mem, hmap, hlist, -⟩ := h.map_spec (WlOutput.bindXdg getXdgOutput)
      rw [wp_bind, wp_modify, wp_bind, wp_get]
      dsimp only
      rw [hmap]
      exact ⟨⟨_, hlist⟩, rfl, [], (List.append_nil _).symm, by simp⟩
  | output wlOutput xdgOutput block =>
    unfold handleGlobal
    rw [wp_bind, wp_get]
    cases block with
    | none => exact .silent h (.refl s)
    | some a =>
      refine wp_mono (wlOutputAppend_spec h a _ _ name) (fun _ s' hs' => .silent hs'.1 hs'.2) ?_
      rintro stop s' ⟨-, rfl⟩
      exact .silent h (.refl _)

theorem wp_callOnOutputUpdate {Q : Unit → WlContext → Prop} {E : OutputStop → WlContext → Prop} :
    wp callOnOutputUpdate Q E s ↔ (if s.onOutputUpdate = true then Q () else E .nullCall)
      { s with updates := s.updates ++ [(s.mem, s.outputs)] } := by
  unfold callOnOutputUpdate
  rw [wp_bind, wp_modify, wp_bind, wp_get, wp_ite]
  split <;> rfl

theorem globalRemove_updates (h : s.Lists ns) (name : Nat) : wp (handleGlobalRemove name)
    (fun _ s' => Updates (WaylandEvent.Allowed s (.globalRemove name)) s s')
    (fun _ s' => Updates (WaylandEvent.Allowed s (.globalRemove name)) s s') s := by
  have hallowed : WaylandEvent.Allowed s (.globalRemove name) ↔
      ∀ n, ns.find? (fun n => n.2.wlName = name) = some n → s.onOutputUpdate = true ∧
        AllComplete (if s.outputs = some n.1 then [] else ns.filter fun n' => n'.1 ≠ n.1) := by
    have hcomplete : ∀ n : Nat × WlOutput, AllComplete (if s.outputs = some n.1 then [] else
        ns.filter fun n' => n'.1 ≠ n.1) ↔ s.outputs = some n.1 ∨ ∀ n' ∈ ns, n'.1 ≠ n.1 → n'.2.complete = true := by
      intro n
      split
      · rename_i hhead
        exact iff_of_true (fun n hn => by cases hn) (.inl hhead)
      · rename_i hhead
        rw [or_iff_right hhead]
        simp [AllComplete]
    simp only [hcomplete]
    exact ⟨fun hns => hns ns h, fun hn ns' hns' => h.unique hns' ▸ hn⟩
  unfold handleGlobalRemove
  rw [wp_bind, wp_wlOutputGetWlName h]
  cases hfind : ns.find? fun n => n.2.wlName = name with
  | none =>
    have hno : WaylandEvent.Allowed s (.globalRemove name) :=
      hallowed.mpr fun n hn => absurd (hfind.symm.trans hn) (by simp)
    exact ⟨⟨ns, h⟩, rfl, [], (List.append_nil _).symm, by simp [hno]⟩
  | some n =>
    have hone : WaylandEvent.Allowed s (.globalRemove name) ↔ s.onOutputUpdate = true ∧
        AllComplete (if s.outputs = some n.1 then [] else ns.filter fun n' => n'.1 ≠ n.1) :=
      hallowed.trans ⟨fun hn => hn n hfind, fun hn n' hn' => by cases hfind.symm.trans hn'; exact hn⟩
    rw [Option.map_some]
    dsimp only
    rw [wp_bind]
    refine wp_mono (wlOutputRemove_spec h n.1) ?_ fun _ _ => False.elim
    rintro _ s' ⟨hlist, hsame⟩
    rw [wp_callOnOutputUpdate]
    have hcalls : Updates (WaylandEvent.Allowed s (.globalRemove name)) s
        { s' with updates := s'.updates ++ [(s'.mem, s'.outputs)] } := by
      refine ⟨⟨_, hlist⟩, hsame.onOutputUpdate, [(s'.mem, s'.outputs)], by rw [← hsame.updates], ?_⟩
      rw [hone, List.forall_mem_singleton, completeAt_iff hlist]
    split <;> exact hcalls

theorem handle_updates (h : s.Lists ns) (ev : WaylandEvent) : wp ev.handle
    (fun _ s' => Updates (ev.Allowed s) s s') (fun _ s' => Updates (ev.Allowed s) s s') s := by
  cases ev with
  | output ev => exact wp_mono (output_updates h ev) (fun _ _ => id) fun _ _ => False.elim
  | global name g => exact global_updates h name g
  | globalRemove name => exact globalRemove_updates h name

theorem due_iff_allowed (h : s.Lists ns) (ev : WaylandEvent) :
    wp ev.handle (fun _ s' => s.Due s') (fun _ s' => s.Due s') s ↔ ev.Allowed s := by
  have hev := handle_updates h ev
  unfold wp at hev ⊢
  split <;> rename_i heq <;> rw [heq] at hev <;> exact hev.due_iff

/-! ### Runs -/

variable {steps : List (WlContext × WaylandEvent)}

theorem lists_of_events (hrun : Run WaylandEvent.handle (.init onOutputUpdate) steps s) :
    (∃ ns, s.Lists ns) ∧ s.onOutputUpdate = onOutputUpdate := by
  refine hrun.invariant (P := fun s => (∃ ns, s.Lists ns) ∧ s.onOutputUpdate = onOutputUpdate) ⟨⟨[], .nil none⟩, rfl⟩ ?_
  rintro s ev s' - ⟨⟨ns, h⟩, hcb⟩ hop
  have hs' := wp_ok (handle_updates h ev) hop
  exact ⟨hs'.lists, hs'.onOutputUpdate.trans hcb⟩

/-- In every run, an event calls the function only where it may exactly if it is allowed; so until now it was only
called where it may exactly if every event of the run was. Without a function it is not called then. -/
theorem on_output_update_due_iff (hrun : Run WaylandEvent.handle (.init onOutputUpdate) steps s) :
    ((∀ m ∈ s.updates, onOutputUpdate = true ∧ CompleteAt m) ↔ ∀ t ev, (t, ev) ∈ steps → ev.Allowed t) ∧
    ∀ ev : WaylandEvent, wp ev.handle (fun _ s' => s.Due s') (fun _ s' => s.Due s') s ↔ ev.Allowed s := by
  refine ⟨?_, fun ev => ?_⟩
  · induction hrun with
    | nil => exact iff_of_true (fun m hm => by cases hm) fun t ev hm => by cases hm
    | @snoc steps s s' ev hrun hop ih =>
      obtain ⟨⟨ns, h⟩, hcb⟩ := lists_of_events hrun
      obtain ⟨calls, hcalls, hallowed⟩ := (wp_ok (handle_updates h ev) hop).calls
      rw [hcb] at hallowed
      rw [hcalls, List.forall_mem_append, ih, hallowed]
      constructor
      · rintro ⟨hbefore, hnow⟩ t ev' hm
        rcases List.mem_append.mp hm with hm | hm
        · exact hbefore t ev' hm
        · cases List.mem_singleton.mp hm
          exact hnow
      · exact fun hall => ⟨fun t ev hm => hall t ev (List.mem_append_left _ hm), hall s ev (by simp)⟩
  · obtain ⟨⟨ns, h⟩, -⟩ := lists_of_events hrun
    exact due_iff_allowed h ev

theorem run_output (onOutputUpdate : Bool) : ∃ s, Run WaylandEvent.handle (.init onOutputUpdate)
    [(.init onOutputUpdate, .global 31 (.output 11 21 (some 1)))] s ∧ s.onOutputUpdate = onOutputUpdate ∧
      s.outputs = some 1 ∧ s.Lists [(1, .new 11 none 31)] := by
  obtain ⟨_, s, hrun, hs⟩ : ∃ u s, (WaylandEvent.handle (.global 31 (.output 11 21 (some 1)))).run
      (.init onOutputUpdate) = .ok u s ∧ s.onOutputUpdate = onOutputUpdate ∧ s.outputs = some 1 ∧
        s.mem.cell 1 = some ⟨.new 11 none 31, none⟩ := ⟨_, _, rfl, rfl, rfl, rfl⟩
  refine ⟨s, Run.single hrun, hs.1, hs.2.1, ?_⟩
  unfold WlContext.Lists
  rw [hs.2.1]
  exact .cons hs.2.2 (.nil none)

/-- Two outputs are announced and done, and one of them is removed; the function is called for the second one that is
done, and for the removal. -/
theorem on_output_update_due_two : ∃ (s : WlContext) (steps : _), Run WaylandEvent.handle (.init true) steps s ∧
    steps.map Prod.snd = [.global 31 (.output 11 21 (some 1)), .global 32 (.output 12 22 (some 2)),
      .output (.wl 11 .done), .output (.wl 12 .done), .globalRemove 32] ∧
    s.updates.length = 2 ∧ ∀ m ∈ s.updates, CompleteAt m := by
  obtain ⟨s₁, s₂, s₃, s₄, s₅, o₁, o₂, h₁, h₂, h₃, h₄, hcb, hhead, hfirst, hsecond, hdone, hname, h₅, hcalls⟩ :
      ∃ s₁ s₂ s₃ s₄ s₅ o₁ o₂, (WaylandEvent.handle (.global 31 (.output 11 21 (some 1)))).run (.init true) = .ok () s₁ ∧
        (WaylandEvent.handle (.global 32 (.output 12 22 (some 2)))).run s₁ = .ok () s₂ ∧
        (WaylandEvent.handle (.output (.wl 11 .done))).run s₂ = .ok () s₃ ∧
        (WaylandEvent.handle (.output (.wl 12 .done))).run s₃ = .ok () s₄ ∧ s₄.onOutputUpdate = true ∧
        s₄.outputs = some 1 ∧ s₄.mem.cell 1 = some ⟨o₁, some 2⟩ ∧ s₄.mem.cell 2 = some ⟨o₂, none⟩ ∧
        o₁.complete = true ∧ o₁.wlName = 31 ∧
        (WaylandEvent.handle (.globalRemove 32)).run s₄ = .ok () s₅ ∧ s₅.updates.length = 2 :=
    ⟨_, _, _, _, _, _, _, rfl, rfl, rfl, rfl, rfl, rfl, rfl, rfl, rfl, rfl, rfl, rfl⟩
  have hrun := ((((Run.single h₁).snoc h₂).snoc h₃).snoc h₄).snoc h₅
  refine ⟨s₅, _, hrun, rfl, hcalls, fun m hm => (((on_output_update_due_iff hrun).1.mpr ?_) m hm).2⟩
  intro t ev hm
  simp only [List.cons_append, List.nil_append, List.mem_cons, Prod.mk.injEq, List.not_mem_nil, or_false] at hm
  rcases hm with ⟨rfl, rfl⟩ | ⟨rfl, rfl⟩ | ⟨rfl, rfl⟩ | ⟨rfl, rfl⟩ | ⟨rfl, rfl⟩
  iterate 4 trivial
  intro ns hns n hn
  have hlist : t.Lists [(1, o₁), (2, o₂)] := by
    unfold WlContext.Lists
    rw [hhead]
    exact .cons hfirst (.cons hsecond (.nil none))
  rw [← hlist.unique hns] at hn ⊢
  refine ⟨hcb, .inr fun n' hn' hne => ?_⟩
  rcases List.mem_cons.mp hn' with rfl | hn'
  · exact hdone
  · rw [List.mem_singleton.mp hn'] at hne ⊢
    rw [List.find?_cons_of_neg (by simp [hname])] at hn
    exact absurd (congrArg Prod.fst (List.mem_singleton.mp (List.mem_of_find?_eq_some hn))).symm hne

/-- With manual geometry, the function is `NULL`, and called when an output is removed. -/
theorem on_output_update_null : ¬ ∀ onOutputUpdate steps s, Run WaylandEvent.handle (.init onOutputUpdate) steps s →
    ∀ ev : WaylandEvent, wp ev.handle (fun _ s' => s.Due s') (fun _ s' => s.Due s') s := by
  intro hall
  obtain ⟨s, hrun, hcb, -, hlist⟩ := run_output false
  have hallowed := (due_iff_allowed hlist (.globalRemove 31)).mp (hall false _ s hrun _)
  exact Bool.noConfusion (hcb.symm.trans (hallowed _ hlist (1, .new 11 none 31) rfl).1)

end Waynergy
