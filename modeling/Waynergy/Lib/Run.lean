import Waynergy.Lib.Proc

/-!
# Runs of a machine

A machine performs operations `exec op`. `Run exec s₀ steps s`: from `s₀` the machine performed the
operations of `steps` one after another, all of them returned, and it is now in `s`. Each step is
listed with the state its operation started from, so histories and side conditions of a run are
functions of its steps.
-/

namespace Lib
variable {ε σ Op : Type} {exec : Op → Proc ε σ Unit}

inductive Run (exec : Op → Proc ε σ Unit) (s₀ : σ) : List (σ × Op) → σ → Prop
  | nil : Run exec s₀ [] s₀
  | snoc {steps : List (σ × Op)} {s s' : σ} {op : Op} (h : Run exec s₀ steps s)
      (hop : (exec op).run s = .ok () s') : Run exec s₀ (steps ++ [(s, op)]) s'

namespace Run
variable {s₀ s s' : σ} {steps steps' : List (σ × Op)}

theorem append (h : Run exec s₀ steps s) (h' : Run exec s steps' s') : Run exec s₀ (steps ++ steps') s' := by
  induction h' with
  | nil => rwa [List.append_nil]
  | snoc _ hop ih => rw [← List.append_assoc]; exact ih.snoc hop

theorem single {op : Op} (hop : (exec op).run s = .ok () s') : Run exec s [(s, op)] s' :=
  Run.nil.snoc hop

/-- The last step of a run, and the run in front of it. -/
theorem last {op : Op} (h : Run exec s₀ (steps ++ [(s, op)]) s') :
    Run exec s₀ steps s ∧ (exec op).run s = .ok () s' := by
  generalize hsteps : steps ++ [(s, op)] = steps' at h
  cases h with
  | nil => simp at hsteps
  | snoc hrun hop =>
    obtain ⟨rfl, heq⟩ := List.append_inj' hsteps rfl
    cases heq
    exact ⟨hrun, hop⟩

/-- Invariant rule: what holds at the start and is kept by the operations of the run holds at its end. -/
theorem invariant {P : σ → Prop} (h : Run exec s₀ steps s) (h₀ : P s₀)
    (hstep : ∀ s op s', (s, op) ∈ steps → P s → (exec op).run s = .ok () s' → P s') : P s := by
  induction h with
  | nil => exact h₀
  | @snoc steps s s' op _ hop ih =>
    exact hstep s op s' (by simp) (ih fun a b c hm => hstep a b c (by simp [hm])) hop

/-- The steps in front of a step are a run to where it starts. -/
theorem initial {pre post : List (σ × Op)} {t : σ} {op : Op} (h : Run exec s₀ (pre ++ (t, op) :: post) s) :
    Run exec s₀ pre t := by
  generalize hsteps : pre ++ (t, op) :: post = steps at h
  induction h generalizing post with
  | nil => simp at hsteps
  | @snoc steps s s' op' hr hop ih =>
    rcases List.eq_nil_or_concat post with rfl | ⟨post', last, rfl⟩
    · obtain ⟨rfl, heq⟩ := List.append_inj' hsteps rfl
      cases heq
      exact hr
    · rw [List.concat_eq_append, ← List.cons_append, ← List.append_assoc] at hsteps
      exact ih (List.append_inj' hsteps rfl).1

/-- Every step of a run starts where an initial part of the run ends. -/
theorem before_step (h : Run exec s₀ steps s) {t : σ} {op : Op} (hm : (t, op) ∈ steps) :
    ∃ pre post, steps = pre ++ (t, op) :: post ∧ Run exec s₀ pre t := by
  obtain ⟨pre, post, rfl⟩ := List.append_of_mem hm
  exact ⟨pre, post, rfl, h.initial⟩

end Run

/-! ### Programs made of operations -/

/-- From `s`, the program `m` does nothing but perform operations one after another; it may stop between two
of them with one of the stops `own`. -/
def Performs {α : Type} (exec : Op → Proc ε σ Unit) (own : ε → Prop) (m : Proc ε σ α) (s : σ) : Prop :=
  wp m (fun _ s' => ∃ steps, Run exec s steps s')
    (fun e s' => ∃ steps s₁, Run exec s steps s₁ ∧ ((∃ op, (exec op).run s₁ = .error e s') ∨ own e ∧ s' = s₁)) s

namespace Performs
variable {α β : Type} {own : ε → Prop} {s : σ}

theorem pure (a : α) : Performs exec own (pure a : Proc ε σ α) s := ⟨[], .nil⟩

theorem throw {e : ε} (he : own e) : Performs exec own (throw e : Proc ε σ α) s :=
  ⟨[], s, .nil, .inr ⟨he, rfl⟩⟩

/-- A program that is an operation, but for its result. -/
theorem of_op {m : Proc ε σ α} (op : Op) (h : (exec op).run s = (m >>= fun _ => Pure.pure ()).run s) :
    Performs exec own m s := by
  rw [EStateM.run_bind] at h
  unfold Performs wp
  split <;> rename_i heq <;> rw [heq] at h
  · exact ⟨_, Run.single h⟩
  · exact ⟨[], s, .nil, .inl ⟨op, h⟩⟩

theorem bind {m : Proc ε σ α} {k : α → Proc ε σ β} (h : Performs exec own m s)
    (hk : ∀ a s', m.run s = .ok a s' → Performs exec own (k a) s') : Performs exec own (m >>= k) s := by
  rw [Performs, wp_bind]
  unfold Performs wp at h
  unfold wp
  split <;> rename_i heq <;> rw [heq] at h
  · obtain ⟨steps, hrun⟩ := h
    refine wp_mono (hk _ _ heq) ?_ ?_
    · rintro b s' ⟨steps', hrun'⟩
      exact ⟨_, hrun.append hrun'⟩
    · rintro e s' ⟨steps', s₁, hrun', hstop⟩
      exact ⟨_, s₁, hrun.append hrun', hstop⟩
  · exact h

theorem read {k : σ → Proc ε σ α} (h : Performs exec own (k s) s) :
    Performs exec own ((MonadStateOf.get : Proc ε σ σ) >>= k) s := h

theorem ite {c : Prop} [Decidable c] {m m' : Proc ε σ α} (h : c → Performs exec own m s)
    (h' : ¬ c → Performs exec own m' s) : Performs exec own (if c then m else m') s := by
  split <;> rename_i hc
  exacts [h hc, h' hc]

end Performs
end Lib
