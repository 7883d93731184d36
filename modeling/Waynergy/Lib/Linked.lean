import Mathlib.Data.List.Basic
import Mathlib.Data.List.Perm.Subperm
import Mathlib.Data.List.Range
import Mathlib.Logic.Function.Basic

/-!
# Linked lists

Blocks of one type, each with a value and the pointer to the next one. `Seg m p ns q`: from the pointer `p` the nodes
`ns` follow one another, and the last of them points to `q`; the nodes from `p` on are those of a list if the null
pointer comes behind them. A loop over a list breaks at the first cell with a property, changes the values, or
folds them. It has fuel for as many blocks as there are, so that it runs out only where the list runs in a circle.
-/

namespace Lib

structure Cell (α : Type) where
  val : α
  next : Option Nat

/-- The blocks by their addresses, which are all below a bound. -/
structure Memory (α : Type) where
  cell : Nat → Option (Cell α)
  bound : Nat
  lt_bound : ∀ a, cell a ≠ none → a < bound

namespace Memory
variable {α : Type}

def empty : Memory α := ⟨fun _ => none, 0, fun _ h => absurd rfl h⟩

def write (m : Memory α) (a : Nat) (c : Cell α) : Memory α where
  cell := Function.update m.cell a (some c)
  bound := max m.bound (a + 1)
  lt_bound b hb := by
    rcases eq_or_ne b a with rfl | hne
    · exact Nat.lt_of_lt_of_le (Nat.lt_succ_self b) (Nat.le_max_right _ _)
    · rw [Function.update_of_ne hne] at hb
      exact Nat.lt_of_lt_of_le (m.lt_bound b hb) (Nat.le_max_left _ _)

def free (m : Memory α) (a : Nat) : Memory α where
  cell := Function.update m.cell a none
  bound := m.bound
  lt_bound b hb := by
    rcases eq_or_ne b a with rfl | hne
    · exact absurd (Function.update_self ..) hb
    · rw [Function.update_of_ne hne] at hb
      exact m.lt_bound b hb

variable {m : Memory α} {a b : Nat} {c : Cell α}

@[simp] theorem cell_write_self : (m.write a c).cell a = some c := Function.update_self ..

theorem cell_write_of_ne (h : b ≠ a) : (m.write a c).cell b = m.cell b := Function.update_of_ne h ..

theorem cell_free_of_ne (h : b ≠ a) : (m.free a).cell b = m.cell b := Function.update_of_ne h ..

/-! ### Loops -/

/-- Break at the first cell with `stop`; the null pointer if there is none. -/
def findFrom (m : Memory α) (stop : Cell α → Bool) : Nat → Option Nat → Option (Option Nat)
  | 0, _ => none
  | _ + 1, none => some none
  | n + 1, some a =>
    match m.cell a with
    | none => none
    | some c => if stop c then some (some a) else findFrom m stop n c.next

/-- Change the value of every node. -/
def mapFrom (f : α → α) : Nat → Option Nat → Memory α → Option (Memory α)
  | 0, _, _ => none
  | _ + 1, none, m => some m
  | n + 1, some a, m =>
    match m.cell a with
    | none => none
    | some c => mapFrom f n c.next (m.write a { c with val := f c.val })

def foldFrom {β : Type} (m : Memory α) (f : β → α → β) : Nat → β → Option Nat → Option β
  | 0, _, _ => none
  | _ + 1, b, none => some b
  | n + 1, b, some a =>
    match m.cell a with
    | none => none
    | some c => foldFrom m f n (f b c.val) c.next

def find (m : Memory α) (stop : Cell α → Bool) (p : Option Nat) : Option (Option Nat) := m.findFrom stop (m.bound + 1) p

def map (m : Memory α) (f : α → α) (p : Option Nat) : Option (Memory α) := mapFrom f (m.bound + 1) p m

def fold {β : Type} (m : Memory α) (f : β → α → β) (b : β) (p : Option Nat) : Option β := m.foldFrom f (m.bound + 1) b p

end Memory

/-! ### Segments -/

inductive Seg {α : Type} (m : Memory α) : Option Nat → List (Nat × α) → Option Nat → Prop
  | nil (p : Option Nat) : Seg m p [] p
  | cons {a : Nat} {v : α} {p q : Option Nat} {ns : List (Nat × α)} (h : m.cell a = some ⟨v, p⟩) (t : Seg m p ns q) :
    Seg m (some a) ((a, v) :: ns) q

namespace Seg
variable {α : Type} {m m' : Memory α} {p q r : Option Nat} {ns ns' : List (Nat × α)} {a : Nat} {v : α}

theorem append (h : Seg m p ns q) (h' : Seg m q ns' r) : Seg m p (ns ++ ns') r := by
  induction h with
  | nil => exact h'
  | cons hc _ ih => exact .cons hc (ih h')

theorem split (h : Seg m p (ns ++ ns') r) : ∃ q, Seg m p ns q ∧ Seg m q ns' r := by
  induction ns generalizing p with
  | nil => exact ⟨p, .nil p, h⟩
  | cons n ns ih =>
    cases h with
    | cons hc ht =>
      obtain ⟨q, hns, hns'⟩ := ih ht
      exact ⟨q, .cons hc hns, hns'⟩

/-- A segment is left alone by what happens outside of it. -/
theorem frame (h : Seg m p ns q) (hm : ∀ n ∈ ns, m'.cell n.1 = m.cell n.1) : Seg m' p ns q := by
  induction h with
  | nil => exact .nil _
  | cons hc _ ih => exact .cons ((hm _ List.mem_cons_self).trans hc) (ih fun n hn => hm n (List.mem_cons_of_mem _ hn))

theorem write (h : Seg m p ns q) {c : Cell α} (ha : ∀ n ∈ ns, n.1 ≠ a) : Seg (m.write a c) p ns q :=
  h.frame fun n hn => Memory.cell_write_of_ne (ha n hn)

theorem free (h : Seg m p ns q) (ha : ∀ n ∈ ns, n.1 ≠ a) : Seg (m.free a) p ns q :=
  h.frame fun n hn => Memory.cell_free_of_ne (ha n hn)

/-- From a pointer there is only one list. -/
theorem unique (h : Seg m p ns none) (h' : Seg m p ns' none) : ns = ns' := by
  generalize hq : (none : Option Nat) = q at h
  induction h generalizing ns' with
  | nil =>
    subst hq
    cases h'
    rfl
  | cons hc _ ih =>
    cases h' with
    | cons hc' ht' =>
      rw [hc, Option.some.injEq, Cell.mk.injEq] at hc'
      obtain ⟨rfl, rfl⟩ := hc'
      rw [ih ht' hq]

theorem cell_of_mem (h : Seg m p ns q) {n : Nat × α} (hn : n ∈ ns) : ∃ next, m.cell n.1 = some ⟨n.2, next⟩ := by
  induction h with
  | nil => cases hn
  | cons hc _ ih =>
    rcases List.mem_cons.mp hn with rfl | hn
    exacts [⟨_, hc⟩, ih hn]

/-- The nodes of a list are distinct: one that came again would have two different lists behind it. -/
theorem nodup (h : Seg m p ns none) : (ns.map Prod.fst).Nodup := by
  generalize hq : (none : Option Nat) = q at h
  induction h with
  | nil => exact List.nodup_nil
  | @cons a v p q ns hc ht ih =>
    subst hq
    rw [List.map_cons, List.nodup_cons]
    refine ⟨fun hmem => ?_, ih rfl⟩
    obtain ⟨n, hn, rfl⟩ := List.mem_map.mp hmem
    obtain ⟨pre, post, rfl⟩ := List.append_of_mem hn
    obtain ⟨p', -, hagain⟩ := split ht
    have hp' : p' = some n.1 := by cases hagain; rfl
    subst hp'
    have hlen := congrArg List.length (unique hagain (.cons hc ht))
    simp only [List.length_cons, List.length_append] at hlen
    omega

theorem length_le_bound (h : Seg m p ns none) : ns.length ≤ m.bound := by
  have hsub : ns.map Prod.fst ⊆ List.range m.bound := by
    intro a ha
    obtain ⟨n, hn, rfl⟩ := List.mem_map.mp ha
    obtain ⟨next, hc⟩ := h.cell_of_mem hn
    exact List.mem_range.mpr (m.lt_bound _ (by rw [hc]; exact Option.some_ne_none _))
  simpa using (h.nodup.subperm hsub).length_le

/-! ### What the loops do -/

theorem findFrom_spec (h : Seg m p ns none) (stop : Cell α → Bool) {fuel : Nat} (hfuel : ns.length < fuel) :
    (m.findFrom stop fuel p = some none ∧ ∀ n ∈ ns, ∀ c, m.cell n.1 = some c → stop c = false) ∨
    ∃ pre b w post c, m.findFrom stop fuel p = some (some b) ∧ ns = pre ++ (b, w) :: post ∧ m.cell b = some c ∧
      stop c = true ∧ ∀ n ∈ pre, ∀ c, m.cell n.1 = some c → stop c = false := by
  induction fuel generalizing p ns with
  | zero => omega
  | succ fuel ih =>
    cases h with
    | nil => exact .inl ⟨rfl, fun n hn => by cases hn⟩
    | @cons a v p _ ns hc ht =>
      unfold Memory.findFrom
      rw [hc]
      dsimp only
      cases hstop : stop ⟨v, p⟩ with
      | true => exact .inr ⟨[], a, v, ns, _, rfl, rfl, hc, hstop, fun n hn => by cases hn⟩
      | false =>
        have hhead : ∀ c, m.cell a = some c → stop c = false := fun c hc' => by
          rw [hc, Option.some.injEq] at hc'
          rwa [← hc']
        rcases ih ht (Nat.lt_of_succ_lt_succ hfuel) with ⟨hnone, hall⟩ | ⟨pre, b, w, post, c, hfind, rfl, hb, hw, hpre⟩
        · exact .inl ⟨hnone, List.forall_mem_cons.mpr ⟨hhead, hall⟩⟩
        · exact .inr ⟨(a, v) :: pre, b, w, post, c, hfind, rfl, hb, hw, List.forall_mem_cons.mpr ⟨hhead, hpre⟩⟩

theorem find_spec (h : Seg m p ns none) (stop : Cell α → Bool) :
    (m.find stop p = some none ∧ ∀ n ∈ ns, ∀ c, m.cell n.1 = some c → stop c = false) ∨
    ∃ pre b w post c, m.find stop p = some (some b) ∧ ns = pre ++ (b, w) :: post ∧ m.cell b = some c ∧
      stop c = true ∧ ∀ n ∈ pre, ∀ c, m.cell n.1 = some c → stop c = false :=
  h.findFrom_spec stop (Nat.lt_succ_of_le h.length_le_bound)

/-- A loop that looks at the values alone breaks at the first node of the list that it looks for. -/
theorem find_val (h : Seg m p ns none) (q : α → Bool) :
    m.find (fun c => q c.val) p = some ((ns.find? fun n => q n.2).map Prod.fst) := by
  have hval : ∀ n ∈ ns, (∀ c, m.cell n.1 = some c → q c.val = false) → q n.2 = false := by
    intro n hn hc
    obtain ⟨next, hcell⟩ := h.cell_of_mem hn
    exact hc _ hcell
  rcases h.find_spec fun c => q c.val with ⟨hnone, hall⟩ | ⟨pre, b, w, post, c, hfind, rfl, hb, hw, hpre⟩
  · have hno : (ns.find? fun n => q n.2) = none :=
      List.find?_eq_none.mpr fun n hn => Bool.not_eq_true _ ▸ hval n hn (hall n hn)
    rw [hnone, hno, Option.map_none]
  · obtain ⟨next, hcell⟩ := h.cell_of_mem (n := (b, w)) (by simp)
    have hfound : ((pre ++ (b, w) :: post).find? fun n => q n.2) = some (b, w) := by
      refine List.find?_eq_some_iff_append.mpr ⟨?_, pre, post, rfl, fun n hn => ?_⟩
      · rw [hcell, Option.some.injEq] at hb
        rwa [← hb] at hw
      · rw [hval n (by simp [hn]) (hpre n hn)]
        rfl
    rw [hfind, hfound, Option.map_some]

/-- What is behind a node is a list again. -/
theorem behind (h : Seg m p (ns ++ (a, v) :: ns') none) : ∃ next, m.cell a = some ⟨v, next⟩ ∧ Seg m next ns' none := by
  obtain ⟨q, -, hrest⟩ := h.split
  cases hrest with
  | cons hc ht => exact ⟨_, hc, ht⟩

theorem find_last (h : Seg m p (ns ++ [(a, v)]) none) : m.find (fun c => c.next.isNone) p = some (some a) := by
  rcases h.find_spec fun c => c.next.isNone with ⟨-, hall⟩ | ⟨pre, b, w, post, c, hfind, hns, hb, hlast, -⟩
  · obtain ⟨next, hc, hend⟩ := h.behind
    cases hend
    exact Bool.noConfusion (hall (a, v) (by simp) _ hc)
  · rw [hns] at h
    obtain ⟨next, hc, hend⟩ := h.behind
    rw [hc, Option.some.injEq] at hb
    subst hb
    cases Option.isNone_iff_eq_none.mp hlast
    cases hend
    obtain ⟨-, heq⟩ := List.append_inj' hns rfl
    cases heq
    exact hfind

/-- The node in front of another one is the one that points to it. -/
theorem find_prev {b : Nat} {w : α} (h : Seg m p (ns ++ (b, w) :: (a, v) :: ns') none) :
    m.find (fun c => c.next = some a) p = some (some b) := by
  rcases h.find_spec fun c => c.next = some a with ⟨-, hall⟩ | ⟨pre, b', w', post, c, hfind, hns, hb, hnext, -⟩
  · obtain ⟨next, hc, hrest⟩ := h.behind
    have hnext : next = some a := by cases hrest; rfl
    exact absurd (hall (b, w) (by simp) _ hc) (by simp [hnext])
  · have h' := h
    rw [hns] at h'
    obtain ⟨next, hc, hrest⟩ := h'.behind
    rw [hc, Option.some.injEq] at hb
    subst hb
    rw [decide_eq_true_eq] at hnext
    subst hnext
    cases hrest with
    | @cons _ v' _ _ post _ _ =>
      have hkeys : (ns.map Prod.fst ++ [b]) ++ a :: ns'.map Prod.fst =
          (pre.map Prod.fst ++ [b']) ++ a :: post.map Prod.fst := by
        simpa using congrArg (List.map Prod.fst) hns
      have hnodup : ((ns.map Prod.fst ++ [b]) ++ a :: ns'.map Prod.fst).Nodup := by simpa using h.nodup
      rw [List.nodup_append, List.nodup_cons] at hnodup
      obtain ⟨heq, -⟩ := (List.append_cons_inj_of_notMem (fun hm => hnodup.2.2 a hm a (by simp) rfl)
        hnodup.2.1.1).mp hkeys
      obtain ⟨-, heq⟩ := List.append_inj' heq rfl
      cases heq
      exact hfind

/-- No node points to what is not in the list, nor to its head. -/
theorem find_prev_none (h : Seg m p ns none) (ha : ∀ n ∈ ns, n.1 ≠ a) : m.find (fun c => c.next = some a) p = some none := by
  rcases h.find_spec fun c => c.next = some a with ⟨hnone, -⟩ | ⟨pre, b, w, post, c, -, rfl, hb, hnext, -⟩
  · exact hnone
  · obtain ⟨next, hc, hrest⟩ := h.behind
    rw [hc, Option.some.injEq] at hb
    subst hb
    rw [decide_eq_true_eq] at hnext
    subst hnext
    cases hrest with
    | @cons _ v' _ _ post _ _ => exact absurd rfl (ha (a, v') (by simp))

theorem fold_eq {β : Type} (h : Seg m p ns none) (f : β → α → β) (b : β) :
    m.fold f b p = some (ns.foldl (fun b n => f b n.2) b) := by
  have hfrom : ∀ fuel, ns.length < fuel → m.foldFrom f fuel b p = some (ns.foldl (fun b n => f b n.2) b) := by
    intro fuel hfuel
    induction fuel generalizing p ns b with
    | zero => omega
    | succ fuel ih =>
      cases h with
      | nil => rfl
      | cons hc ht =>
        unfold Memory.foldFrom
        rw [hc]
        exact ih ht _ (Nat.lt_of_succ_lt_succ hfuel)
  exact hfrom _ (Nat.lt_succ_of_le h.length_le_bound)

/-- Changing the value of a node changes it in the list. -/
theorem setVal (h : Seg m p (ns ++ (a, v) :: ns') none) (w : α) : ∃ next, m.cell a = some ⟨v, next⟩ ∧
    Seg (m.write a ⟨w, next⟩) p (ns ++ (a, w) :: ns') none := by
  have hnodup := h.nodup
  simp only [List.map_append, List.map_cons, List.nodup_append, List.nodup_cons, List.mem_map, List.mem_cons] at hnodup
  obtain ⟨q, hns, hrest⟩ := h.split
  cases hrest with
  | cons hc ht =>
    refine ⟨_, hc, append (hns.write fun n hn => ?_) (.cons Memory.cell_write_self (ht.write fun n hn => ?_))⟩
    · exact hnodup.2.2 _ ⟨n, hn, rfl⟩ a (.inl rfl)
    · exact fun heq => hnodup.2.1.1 ⟨n, hn, heq⟩

/-- Changing the pointer of a node puts another list behind it. -/
theorem link (h : Seg m p (ns ++ (a, v) :: ns') none) {rest : List (Nat × α)} (hrest : Seg m q rest none)
    (ha : ∀ n ∈ rest, n.1 ≠ a) : Seg (m.write a ⟨v, q⟩) p (ns ++ (a, v) :: rest) none := by
  have hnodup := h.nodup
  simp only [List.map_append, List.map_cons, List.nodup_append, List.mem_map, List.mem_cons] at hnodup
  obtain ⟨q', hns, htail⟩ := h.split
  cases htail with
  | cons hc _ =>
    refine append (hns.write fun n hn => ?_) (.cons Memory.cell_write_self (hrest.write ha))
    exact hnodup.2.2 _ ⟨n, hn, rfl⟩ a (.inl rfl)

theorem map_spec (h : Seg m p ns none) (f : α → α) :
    ∃ m', m.map f p = some m' ∧ Seg m' p (ns.map fun n => (n.1, f n.2)) none ∧
      ∀ b, (∀ n ∈ ns, n.1 ≠ b) → m'.cell b = m.cell b := by
  have hfrom : ∀ fuel, ns.length < fuel → ∃ m', Memory.mapFrom f fuel p m = some m' ∧
      Seg m' p (ns.map fun n => (n.1, f n.2)) none ∧ ∀ b, (∀ n ∈ ns, n.1 ≠ b) → m'.cell b = m.cell b := by
    intro fuel hfuel
    induction fuel generalizing p ns m with
    | zero => omega
    | succ fuel ih =>
      cases h with
      | nil => exact ⟨m, rfl, .nil _, fun _ _ => rfl⟩
      | @cons a v p _ ns hc ht =>
        have hnodup := (Seg.cons hc ht).nodup
        rw [List.map_cons, List.nodup_cons] at hnodup
        have hne : ∀ n ∈ ns, n.1 ≠ a := fun n hn heq => hnodup.1 (List.mem_map.mpr ⟨n, hn, heq⟩)
        obtain ⟨m', hmap, hseg, hkeep⟩ := ih (ht.write (c := ⟨f v, p⟩) hne) (Nat.lt_of_succ_lt_succ hfuel)
        refine ⟨m', ?_, .cons ((hkeep a hne).trans Memory.cell_write_self) hseg, fun b hb => ?_⟩
        · unfold Memory.mapFrom
          rw [hc]
          exact hmap
        · obtain ⟨hba, hbns⟩ := List.forall_mem_cons.mp hb
          exact (hkeep b hbns).trans (Memory.cell_write_of_ne (Ne.symm hba))
  exact hfrom _ (Nat.lt_succ_of_le h.length_le_bound)

end Seg
end Lib
