import Mathlib.Algebra.Order.Group.Multiset
import Mathlib.Tactic.Abel
import Waynergy.Lib.Proc

/-!
# Handles

A system gives out handles and takes them back. A handle that is given out was not out before; taking one back that
is not out is a mistake of the program. A program keeps its handles in variables, which are -1 when they hold none,
and `t.out = base + slots` says that it holds those that are out, besides `base`, each of them once.
-/

namespace Lib

/-- The handles that are out, none of them twice. -/
structure Handles where
  out : Multiset Nat
  nodup : out.Nodup

/-- What a variable holds. -/
def slot (h : Int) : Multiset Nat := if h = -1 then 0 else {h.toNat}

/-- What the variables of a list hold. -/
def slots (hs : List Int) : Multiset Nat := (hs.map slot).sum

@[simp] theorem slot_none : slot (-1) = 0 := rfl

@[simp] theorem slot_nat (h : Nat) : slot h = {h} := rfl

@[simp] theorem slots_nil : slots [] = 0 := rfl

@[simp] theorem slots_cons (h : Int) (hs : List Int) : slots (h :: hs) = slot h + slots hs := rfl

@[simp] theorem slots_append (hs hs' : List Int) : slots (hs ++ hs') = slots hs + slots hs' := by simp [slots]

theorem slots_replicate (n : Nat) : slots (List.replicate n (-1)) = 0 := by
  induction n with
  | zero => rfl
  | succ n ih => rw [List.replicate_succ, slots_cons, slot_none, zero_add, ih]

/-- A variable of the list, and the others. -/
theorem slots_split {hs : List Int} {i : Nat} {h : Int} (hi : hs[i]? = some h) :
    ∃ rest, slots hs = slot h + rest ∧ ∀ h', slots (hs.set i h') = slot h' + rest := by
  obtain ⟨hlt, rfl⟩ := List.getElem?_eq_some_iff.mp hi
  refine ⟨slots (hs.take i) + slots (hs.drop (i + 1)), ?_, fun h' => ?_⟩
  · conv_lhs => rw [← List.take_append_drop i hs, List.drop_eq_getElem_cons hlt]
    rw [slots_append, slots_cons]
    abel
  · rw [List.set_eq_take_append_cons_drop, if_pos hlt, slots_append, slots_cons]
    abel

/-! ### Giving out and taking back -/

section
variable {ε : Type} {t : Handles} {rest : Multiset Nat}

/-- The system gives out `h`; `unreal` if it cannot, since `h` is out. -/
def openHandle (unreal : ε) (h : Nat) : Proc ε Handles Unit := fun t =>
  if hfree : h ∉ t.out then .ok () ⟨h ::ₘ t.out, Multiset.nodup_cons.mpr ⟨hfree, t.nodup⟩⟩ else .error unreal t

/-- The program gives `h` back; `bad` if it is not out. -/
def closeHandle (bad : ε) (h : Int) : Proc ε Handles Unit := fun t =>
  if 0 ≤ h ∧ h.toNat ∈ t.out then .ok () ⟨t.out.erase h.toNat, t.nodup.erase _⟩ else .error bad t

theorem openHandle_spec (unreal : ε) (h : Nat) (t : Handles) :
    wp (openHandle unreal h) (fun _ t' => t'.out = {h} + t.out) (fun e t' => e = unreal ∧ t' = t) t := by
  unfold wp
  by_cases hfree : h ∉ t.out
  · have hrun : (openHandle unreal h).run t = .ok () ⟨h ::ₘ t.out, Multiset.nodup_cons.mpr ⟨hfree, t.nodup⟩⟩ :=
      dif_pos hfree
    rw [hrun]
    exact (Multiset.singleton_add h t.out).symm
  · have hrun : (openHandle unreal h).run t = .error unreal t := dif_neg hfree
    rw [hrun]
    exact ⟨rfl, rfl⟩

/-- A handle that a variable holds can be given back. -/
theorem closeHandle_spec (bad : ε) {h : Int} (hne : h ≠ -1) (hh : -1 ≤ h) (ht : t.out = slot h + rest) :
    wp (closeHandle bad h) (fun _ t' => t'.out = rest) (fun _ _ => False) t := by
  have hslot : t.out = h.toNat ::ₘ rest := by rw [ht, slot, if_neg hne, Multiset.singleton_add]
  have hout : 0 ≤ h ∧ h.toNat ∈ t.out := ⟨by omega, by rw [hslot]; exact Multiset.mem_cons_self _ _⟩
  have hrun : (closeHandle bad h).run t = .ok () ⟨t.out.erase h.toNat, t.nodup.erase _⟩ := if_pos hout
  refine wp_of_ok hrun ?_
  show t.out.erase h.toNat = rest
  rw [hslot, Multiset.erase_cons_head]

end
end Lib
