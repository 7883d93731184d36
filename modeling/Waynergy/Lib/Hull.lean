import Mathlib.Order.Interval.Basic
import Mathlib.Data.List.Perm.Basic

/-!
# Hulls of intervals

The smallest interval of a lattice that holds a point and some intervals, computed by going through them. In a product of
orders, the intervals are the axis-parallel boxes.
-/

namespace Lib
variable {α : Type} [Lattice α] {a v : α} {ps qs : List (α × α)}

/-- Grow the interval from `e.1` to `e.2` by the one from `p.1` to `p.2`. -/
def growHull (e p : α × α) : α × α := (e.1 ⊓ p.1, e.2 ⊔ p.2)

/-- The ends of the hull of `a` and the intervals `ps`. -/
def hull (a : α) (ps : List (α × α)) : α × α := ps.foldl growHull (a, a)

theorem le_foldl_fst (e : α × α) : v ≤ (ps.foldl growHull e).1 ↔ v ≤ e.1 ∧ ∀ p ∈ ps, v ≤ p.1 := by
  induction ps generalizing e with
  | nil => simp
  | cons p ps ih =>
    rw [List.foldl_cons, ih, List.forall_mem_cons, ← and_assoc]
    show v ≤ e.1 ⊓ p.1 ∧ _ ↔ _
    rw [le_inf_iff]

theorem foldl_snd_le (e : α × α) : (ps.foldl growHull e).2 ≤ v ↔ e.2 ≤ v ∧ ∀ p ∈ ps, p.2 ≤ v := by
  induction ps generalizing e with
  | nil => simp
  | cons p ps ih =>
    rw [List.foldl_cons, ih, List.forall_mem_cons, ← and_assoc]
    show e.2 ⊔ p.2 ≤ v ∧ _ ↔ _
    rw [sup_le_iff]

theorem le_hull : v ≤ (hull a ps).1 ↔ v ≤ a ∧ ∀ p ∈ ps, v ≤ p.1 := le_foldl_fst (a, a)

theorem hull_le : (hull a ps).2 ≤ v ↔ a ≤ v ∧ ∀ p ∈ ps, p.2 ≤ v := foldl_snd_le (a, a)

theorem hull_fst_le : (hull a ps).1 ≤ a := (le_hull.mp le_rfl).1

theorem le_hull_snd : a ≤ (hull a ps).2 := (hull_le.mp le_rfl).1

theorem hull_fst_le_snd : (hull a ps).1 ≤ (hull a ps).2 := hull_fst_le.trans le_hull_snd

/-- The hull is the least interval with the point and the intervals in it. -/
theorem isLeast_hull (hps : ∀ p ∈ ps, p.1 ≤ p.2) :
    IsLeast {R : NonemptyInterval α | a ∈ R ∧ ∀ p ∈ ps, Set.Icc p.1 p.2 ⊆ (R : Set α)} ⟨hull a ps, hull_fst_le_snd⟩ := by
  constructor
  · refine ⟨⟨hull_fst_le, le_hull_snd⟩, fun p hp => ?_⟩
    exact Set.Icc_subset_Icc ((le_hull.mp le_rfl).2 p hp) ((hull_le.mp le_rfl).2 p hp)
  · rintro R ⟨ha, hR⟩
    have hends : ∀ p ∈ ps, R.fst ≤ p.1 ∧ p.2 ≤ R.snd := fun p hp => (Set.Icc_subset_Icc_iff (hps p hp)).mp (hR p hp)
    exact NonemptyInterval.le_def.mpr
      ⟨le_hull.mpr ⟨ha.1, fun p hp => (hends p hp).1⟩, hull_le.mpr ⟨ha.2, fun p hp => (hends p hp).2⟩⟩

/-- More intervals have a larger hull. -/
theorem hull_subset (h : ps ⊆ qs) : (hull a qs).1 ≤ (hull a ps).1 ∧ (hull a ps).2 ≤ (hull a qs).2 := by
  have hlo := le_hull.mp (le_refl (hull a qs).1)
  have hhi := hull_le.mp (le_refl (hull a qs).2)
  exact ⟨le_hull.mpr ⟨hlo.1, fun p hp => hlo.2 p (h hp)⟩, hull_le.mpr ⟨hhi.1, fun p hp => hhi.2 p (h hp)⟩⟩

theorem hull_perm (h : ps.Perm qs) : hull a ps = hull a qs := by
  obtain ⟨hlo, hhi⟩ := hull_subset h.subset
  obtain ⟨hlo', hhi'⟩ := hull_subset h.symm.subset
  exact Prod.ext (le_antisymm hlo' hlo) (le_antisymm hhi hhi')

end Lib
