import Mathlib.Tactic.Common

/-!
# Procedures that may stop

A procedure changes a state and returns a value, or stops (it faults, aborts or exits). The state
reached at a stop is kept, since what was done before it was done. `wp` is the weakest precondition
with one postcondition for a return and one for a stop; `Within R S` says that every result of a
procedure is `R`-related to the state it started from, for a frame relation `R`, and that its stops are in `S`.
-/

namespace Lib

abbrev Proc (ε σ α : Type) := EStateM ε σ α

section
variable {ε σ α β : Type}

/-- Run from `s`, `m` returns with `Q` or stops with `E`. -/
def wp (m : Proc ε σ α) (Q : α → σ → Prop) (E : ε → σ → Prop) (s : σ) : Prop :=
  match m.run s with
  | .ok a s' => Q a s'
  | .error e s' => E e s'

variable {Q Q' : α → σ → Prop} {E E' : ε → σ → Prop} {s s' : σ}

@[simp] theorem wp_pure (a : α) : wp (pure a : Proc ε σ α) Q E s ↔ Q a s := Iff.rfl

@[simp] theorem wp_throw (e : ε) : wp (throw e : Proc ε σ α) Q E s ↔ E e s := Iff.rfl

@[simp] theorem wp_get {Q : σ → σ → Prop} : wp (get : Proc ε σ σ) Q E s ↔ Q s s := Iff.rfl

@[simp] theorem wp_modify {Q : Unit → σ → Prop} (f : σ → σ) :
    wp (modify f : Proc ε σ Unit) Q E s ↔ Q () (f s) := Iff.rfl

@[simp] theorem wp_bind (m : Proc ε σ α) (k : α → Proc ε σ β) {Q : β → σ → Prop} :
    wp (m >>= k) Q E s ↔ wp m (fun a s' => wp (k a) Q E s') E s := by
  simp only [wp, EStateM.run_bind]
  cases m.run s <;> rfl

@[simp] theorem wp_map (m : Proc ε σ α) (f : α → β) {Q : β → σ → Prop} :
    wp (f <$> m) Q E s ↔ wp m (fun a s' => Q (f a) s') E s := by
  rw [← bind_pure_comp, wp_bind]; rfl

@[simp] theorem wp_ite {c : Prop} [Decidable c] (m m' : Proc ε σ α) :
    wp (if c then m else m') Q E s ↔ if c then wp m Q E s else wp m' Q E s := by
  split <;> rfl

theorem wp_mono {m : Proc ε σ α} (h : wp m Q E s) (hQ : ∀ a s', Q a s' → Q' a s')
    (hE : ∀ e s', E e s' → E' e s') : wp m Q' E' s := by
  unfold wp at h ⊢
  split <;> rename_i heq <;> rw [heq] at h
  · exact hQ _ _ h
  · exact hE _ _ h

theorem wp_and {m : Proc ε σ α} (h : wp m Q E s) (h' : wp m Q' E' s) :
    wp m (fun a s' => Q a s' ∧ Q' a s') (fun e s' => E e s' ∧ E' e s') s := by
  unfold wp at h h' ⊢
  split <;> rename_i heq <;> rw [heq] at h h' <;> exact ⟨h, h'⟩

/-- The result itself, next to what is known of it. -/
theorem wp_run {m : Proc ε σ α} (h : wp m Q E s) : wp m (fun a s' => Q a s' ∧ m.run s = .ok a s')
    (fun e s' => E e s' ∧ m.run s = .error e s') s := by
  unfold wp at h ⊢
  split <;> rename_i heq <;> rw [heq] at h <;> exact ⟨h, heq⟩

theorem wp_ok {m : Proc ε σ α} {a : α} (h : wp m Q E s) (hm : m.run s = .ok a s') : Q a s' := by
  rwa [wp, hm] at h

theorem wp_error {m : Proc ε σ α} {e : ε} (h : wp m Q E s) (hm : m.run s = .error e s') : E e s' := by
  rwa [wp, hm] at h

theorem wp_of_ok {m : Proc ε σ α} {a : α} (hm : m.run s = .ok a s') (h : Q a s') : wp m Q E s := by
  rwa [wp, hm]

theorem run_bind_ok {m : Proc ε σ α} {k : α → Proc ε σ β} {a : α} (h : m.run s = .ok a s') :
    (m >>= k).run s = (k a).run s' := by
  rw [EStateM.run_bind, h]

theorem wp_true (m : Proc ε σ α) (s : σ) : wp m (fun _ _ => True) (fun _ _ => True) s := by
  unfold wp
  split <;> trivial

theorem not_wp_false {m : Proc ε σ α} : ¬ wp m (fun _ _ => False) (fun _ _ => False) s := by
  unfold wp
  split <;> exact id

theorem exists_ok_of_wp {m : Proc ε σ α} (h : wp m Q (fun _ _ => False) s) :
    ∃ a s', m.run s = .ok a s' ∧ Q a s' := by
  unfold wp at h
  split at h
  · rename_i a s' heq; exact ⟨a, s', heq, h⟩
  · exact h.elim

/-! ### A part of the state -/

/-- Run `m` on a part of the state. -/
def zoom {τ : Type} (part : σ → τ) (put : τ → σ → σ) (m : Proc ε τ α) : Proc ε σ α := fun s =>
  match m.run (part s) with
  | .ok a t => .ok a (put t s)
  | .error e t => .error e (put t s)

@[simp] theorem wp_zoom {τ : Type} (part : σ → τ) (put : τ → σ → σ) (m : Proc ε τ α) :
    wp (zoom part put m) Q E s ↔ wp m (fun a t => Q a (put t s)) (fun e t => E e (put t s)) (part s) := by
  unfold wp zoom EStateM.run
  beta_reduce
  cases m (part s) <;> rfl

/-- The same, with the stops of `m` among others. -/
def zoomStop {ε' τ : Type} (part : σ → τ) (put : τ → σ → σ) (stop : ε' → ε) (m : Proc ε' τ α) : Proc ε σ α := fun s =>
  match m.run (part s) with
  | .ok a t => .ok a (put t s)
  | .error e t => .error (stop e) (put t s)

@[simp] theorem wp_zoomStop {ε' τ : Type} (part : σ → τ) (put : τ → σ → σ) (stop : ε' → ε) (m : Proc ε' τ α) :
    wp (zoomStop part put stop m) Q E s ↔
      wp m (fun a t => Q a (put t s)) (fun e t => E (stop e) (put t s)) (part s) := by
  unfold wp zoomStop EStateM.run
  beta_reduce
  cases m (part s) <;> rfl

/-! ### Frames -/

/-- A relation between the states before and after, closed under doing nothing and under doing one
thing after another. -/
class Frame (R : σ → σ → Prop) : Prop where
  refl : ∀ s, R s s
  trans : ∀ {s s' s''}, R s s' → R s' s'' → R s s''

/-- However `m` ends, the state it leaves is related to the one it started from, and if it stops, it is with
one of the stops `S`. -/
def Within (R : σ → σ → Prop) (S : ε → Prop) (m : Proc ε σ α) : Prop :=
  ∀ s, wp m (fun _ s' => R s s') (fun e s' => R s s' ∧ S e) s

namespace Within
variable {R : σ → σ → Prop} {S : ε → Prop} {m : Proc ε σ α}

theorem ok {a : α} (h : Within R S m) (hm : m.run s = .ok a s') : R s s' :=
  wp_ok (Q := fun _ s' => R s s') (h s) hm

theorem error {e : ε} (h : Within R S m) (hm : m.run s = .error e s') : R s s' ∧ S e :=
  wp_error (E := fun e s' => R s s' ∧ S e) (h s) hm

theorem mono {R' : σ → σ → Prop} {S' : ε → Prop} (h : Within R S m) (hR : ∀ s s', R s s' → R' s s')
    (hS : ∀ e, S e → S' e) : Within R' S' m :=
  fun s => wp_mono (h s) (fun _ _ => hR _ _) fun _ _ h => ⟨hR _ _ h.1, hS _ h.2⟩

theorem modify {f : σ → σ} (h : ∀ s, R s (f s)) : Within R S (modify f) := h

theorem ite {c : Prop} [Decidable c] {m' : Proc ε σ α} (h : Within R S m) (h' : Within R S m') :
    Within R S (if c then m else m') := by split <;> assumption

variable [Frame R]

theorem pure (a : α) : Within R S (pure a) := fun s => Frame.refl s

theorem throw {e : ε} (he : S e) : Within R S (throw e : Proc ε σ α) := fun s => ⟨Frame.refl s, he⟩

theorem get : Within R S (get : Proc ε σ σ) := fun s => Frame.refl s

theorem bind {k : α → Proc ε σ β} (h : Within R S m) (hk : ∀ a, Within R S (k a)) : Within R S (m >>= k) :=
  fun s => (wp_bind m k).2 <| wp_mono (h s)
    (fun a s' hR => wp_mono (hk a s') (fun _ _ => Frame.trans hR) fun _ _ h => ⟨Frame.trans hR h.1, h.2⟩)
    fun _ _ => id

theorem read {k : σ → Proc ε σ β} (hk : ∀ s, Within R S (k s)) :
    Within R S ((MonadStateOf.get : Proc ε σ σ) >>= k) :=
  bind get hk

end Within
end
end Lib
