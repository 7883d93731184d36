import Mathlib.Data.List.Infix
import Mathlib.Order.Defs.Unbundled

/-!
# The first element of a list with a property

A search for something weaker finds the same if its first hit is as strong. What is found stays what is found when
more is appended; and where a search for `x` takes anything above `x`, appending what has something above it changes
no search.
-/

namespace Lib
variable {α : Type} {l l' : List α}

theorem of_find?_eq_some {p : α → Prop} [DecidablePred p] {a : α} (h : l.find? (fun a => p a) = some a) :
    a ∈ l ∧ p a := by
  have hp := List.find?_some h
  rw [decide_eq_true_eq] at hp
  exact ⟨List.mem_of_find?_eq_some h, hp⟩

section
variable {P Q : α → Bool}

theorem find?_eq_of_first (himp : ∀ a, P a = true → Q a = true) (hfirst : ∀ a, l.find? Q = some a → P a = true) :
    l.find? P = l.find? Q := by
  cases hQ : l.find? Q with
  | none =>
    rw [List.find?_eq_none] at hQ ⊢
    exact fun a ha hP => hQ a ha (himp a hP)
  | some a =>
    obtain ⟨-, before, after, rfl, hbefore⟩ := List.find?_eq_some_iff_append.mp hQ
    refine List.find?_eq_some_iff_append.mpr ⟨hfirst a hQ, before, after, rfl, fun b hb => ?_⟩
    have hnot := hbefore b hb
    rw [Bool.not_eq_true'] at hnot ⊢
    exact Bool.eq_false_iff.mpr fun hP => Bool.eq_false_iff.mp hnot (himp b hP)

theorem findIdx?_eq_of_first {i : Nat} {a : α} (himp : ∀ a, P a = true → Q a = true) (hQ : l.findIdx? Q = some i)
    (ha : l[i]? = some a) (hP : P a = true) : l.findIdx? P = some i := by
  obtain ⟨hi, -, hbefore⟩ := List.findIdx?_eq_some_iff_getElem.mp hQ
  rw [List.getElem?_eq_getElem hi] at ha
  cases ha
  refine List.findIdx?_eq_some_iff_getElem.mpr ⟨hi, hP, fun j hj hPj => hbefore j hj (himp _ hPj)⟩

theorem findIdx?_stays {i : Nat} (h : l <+: l') (hi : l.findIdx? P = some i) : l'.findIdx? P = some i :=
  h.findIdx?_eq_some hi

/-- What is first among the elements with another property is so in the list: its place there is that of the
numbered one. -/
theorem exists_of_findIdx?_filter (n : Nat) {k : Nat} (h : (l.filter P).findIdx? Q = some k) :
    ∃ before a after, l = before ++ a :: after ∧ P a = true ∧ Q a = true ∧
      (∀ b ∈ before, P b = true → Q b = false) ∧
      ((l.zipIdx n).filter fun a => P a.1)[k]? = some (a, n + before.length) := by
  induction l generalizing n k with
  | nil => cases h
  | cons x l ih =>
    rw [List.zipIdx_cons]
    by_cases hx : P x = true
    · rw [List.filter_cons_of_pos hx, List.findIdx?_cons] at h
      have hzip : ((x, n) :: l.zipIdx (n + 1)).filter (fun a => P a.1) =
          (x, n) :: (l.zipIdx (n + 1)).filter fun a => P a.1 := List.filter_cons_of_pos hx
      rw [hzip]
      by_cases hQ : Q x = true
      · rw [if_pos hQ] at h
        cases h
        exact ⟨[], x, l, rfl, hx, hQ, by simp, by simp⟩
      · rw [if_neg hQ] at h
        obtain ⟨k, hk, rfl⟩ := Option.map_eq_some_iff.mp h
        obtain ⟨before, a, after, rfl, hP, hQa, hbefore, hat⟩ := ih (n + 1) hk
        refine ⟨x :: before, a, after, rfl, hP, hQa, ?_, ?_⟩
        · intro b hb hPb
          rcases List.mem_cons.mp hb with rfl | hb
          · exact Bool.eq_false_iff.mpr hQ
          · exact hbefore b hb hPb
        · rw [List.getElem?_cons_succ, hat, List.length_cons, Nat.add_right_comm, Nat.add_assoc]
    · rw [List.filter_cons_of_neg hx] at h
      have hzip : ((x, n) :: l.zipIdx (n + 1)).filter (fun a => P a.1) =
          (l.zipIdx (n + 1)).filter fun a => P a.1 := List.filter_cons_of_neg hx
      rw [hzip]
      obtain ⟨before, a, after, rfl, hP, hQa, hbefore, hat⟩ := ih (n + 1) h
      refine ⟨x :: before, a, after, rfl, hP, hQa, ?_, ?_⟩
      · intro b hb hPb
        rcases List.mem_cons.mp hb with rfl | hb
        · exact absurd hPb hx
        · exact hbefore b hb hPb
      · rw [hat, List.length_cons, Nat.add_right_comm, Nat.add_assoc]

end

theorem getElem?_stays {i : Nat} {a : α} (h : l <+: l') (ha : l[i]? = some a) : l'[i]? = some a := by
  obtain ⟨hi, rfl⟩ := List.getElem?_eq_some_iff.mp ha
  exact List.prefix_iff_getElem?.mp h i hi

theorem exists_last {P : α → Prop} (h : ∃ a ∈ l, P a) :
    ∃ before a after, l = before ++ a :: after ∧ P a ∧ ∀ b ∈ after, ¬ P b := by
  induction l with
  | nil =>
    obtain ⟨a, ha, -⟩ := h
    cases ha
  | cons x l ih =>
    by_cases hl : ∃ a ∈ l, P a
    · obtain ⟨before, a, after, rfl, ha, hafter⟩ := ih hl
      exact ⟨x :: before, a, after, rfl, ha, hafter⟩
    · obtain ⟨a, ha, hP⟩ := h
      rcases List.mem_cons.mp ha with rfl | ha
      · exact ⟨[], a, l, rfl, hP, fun b hb hPb => hl ⟨b, hb, hPb⟩⟩
      · exact absurd ⟨a, ha, hP⟩ hl

/-- What has something above it is never the first. -/
theorem find?_append_of_le {r : α → α → Prop} [DecidableRel r] [IsTrans α r] {a b : α} (hb : b ∈ l) (hab : r a b)
    (x : α) : (l ++ [a]).find? (fun c => r x c) = l.find? (fun c => r x c) := by
  rw [List.find?_append]
  cases hx : l.find? (fun c => r x c) with
  | some c => rfl
  | none =>
    rw [List.find?_eq_none] at hx
    have hxa : ¬ r x a := fun hxa => hx b hb (decide_eq_true (IsTrans.trans _ _ _ hxa hab))
    rw [Option.none_or, List.find?_singleton]
    exact if_neg (by simpa using hxa)

end Lib
