import Waynergy.Lib.Linked
import Waynergy.Lib.Run
import Waynergy.Lib.Bytes

/-!
# The list of outputs (`wayland.c`)

The outputs are in a linked list: one is appended when it is announced, found by one of its objects or its name, and
taken out when it is lost. Taking out the head drops all outputs, so it is right only where nothing is behind it.
-/

namespace Waynergy
open Lib

/-! ### The state -/

/-- `struct wlOutput`. An object of the protocol is known by its address. -/
structure WlOutput where
  wlName : Nat
  wlOutput : Nat
  xdgOutput : Option Nat
  x : Int
  y : Int
  width : Int
  height : Int
  scale : Int
  complete : Bool
  haveLogSize : Bool
  haveLogPos : Bool
  name : Option Bytes
  desc : Option Bytes

/-- As `wlOutputAppend` makes it. -/
def WlOutput.new (wlOutput : Nat) (xdgOutput : Option Nat) (wlName : Nat) : WlOutput where
  wlName := wlName
  wlOutput := wlOutput
  xdgOutput := xdgOutput
  x := 0
  y := 0
  width := 0
  height := 0
  scale := 0
  complete := false
  haveLogSize := false
  haveLogPos := false
  name := none
  desc := none

/-- Why a handler is not left: a pointer that points to no output or a list in a circle, a call of a null pointer, or
the `abort` of an allocation. -/
inductive OutputStop
  | dangling
  | nullCall
  | abort
deriving DecidableEq

/-- What `struct wlContext` has for the outputs, and the blocks of the heap that hold them. -/
structure WlContext where
  mem : Memory WlOutput
  outputs : Option Nat
  outputManager : Bool
  /-- `on_output_update` is not `NULL`. -/
  onOutputUpdate : Bool
  /-- the outputs of every moment at which `on_output_update` was called -/
  updates : List (Memory WlOutput × Option Nat)

def WlContext.init (onOutputUpdate : Bool) : WlContext := ⟨.empty, none, false, onOutputUpdate, []⟩

abbrev Wayland (α : Type) := Proc OutputStop WlContext α

/-! ### The operations -/

/-- The allocator has a block that is not in use, or none. -/
def xmalloc (block : Option Nat) : Wayland Nat := do
  let s ← get
  match block with
  | some a => if (s.mem.cell a).isNone then pure a else throw .abort
  | none => throw .abort

def deref (a : Nat) : Wayland (Cell WlOutput) := do
  let s ← get
  match s.mem.cell a with
  | some c => pure c
  | none => throw .dangling

def store (a : Nat) (c : Cell WlOutput) : Wayland Unit := modify fun s => { s with mem := s.mem.write a c }

/-- A loop over the list that breaks at the first node with `stop`. -/
def search (stop : Cell WlOutput → Bool) : Wayland (Option Nat) := do
  let s ← get
  match s.mem.find stop s.outputs with
  | some l => pure l
  | none => throw .dangling

def wlOutputAppend (block : Option Nat) (wlOutput : Nat) (xdgOutput : Option Nat) (wlName : Nat) : Wayland Unit := do
  let n ← xmalloc block
  store n ⟨.new wlOutput xdgOutput wlName, none⟩
  let s ← get
  match s.outputs with
  | none => modify fun s => { s with outputs := some n }
  | some _ =>
    match ← search fun c => c.next.isNone with
    | none => throw .dangling
    | some l => do
      let c ← deref l
      store l { c with next := some n }

def wlOutputGet (wlOutput : Nat) : Wayland (Option Nat) := search fun c => c.val.wlOutput = wlOutput

def wlOutputGetXdg (xdgOutput : Nat) : Wayland (Option Nat) := search fun c => c.val.xdgOutput = some xdgOutput

def wlOutputGetWlName (wlName : Nat) : Wayland (Option Nat) := search fun c => c.val.wlName = wlName

/-- The name, the description and the objects go with the block. -/
def wlOutputFree (output : Nat) : Wayland Unit := do
  let _ ← deref output
  modify fun s => { s with mem := s.mem.free output }

def wlOutputRemove (output : Nat) : Wayland Unit := do
  let s ← get
  if s.outputs ≠ some output then
    match ← search fun c => c.next = some output with
    | none => pure () -- tried to remove an unknown output
    | some prev => do
      let c ← deref prev
      let gone ← deref output
      store prev { c with next := gone.next }
      wlOutputFree output
  else do
    modify fun s => { s with outputs := none }
    wlOutputFree output

/-! ### What they do to the list -/

namespace WlContext

/-- The list of outputs has these nodes. -/
def Lists (s : WlContext) (ns : List (Nat × WlOutput)) : Prop := Seg s.mem s.outputs ns none

/-- Nothing but the list is different. -/
structure SameRest (s s' : WlContext) : Prop where
  outputManager : s'.outputManager = s.outputManager
  onOutputUpdate : s'.onOutputUpdate = s.onOutputUpdate
  updates : s'.updates = s.updates

theorem SameRest.refl (s : WlContext) : s.SameRest s := ⟨rfl, rfl, rfl⟩

/-- The output is not the head of the list, or nothing is behind it. -/
def Detachable (s : WlContext) (output : Nat) : Prop :=
  s.outputs = some output → (s.mem.cell output).bind Cell.next = none

instance (s : WlContext) (output : Nat) : Decidable (s.Detachable output) := inferInstanceAs (Decidable (_ → _))

end WlContext

variable {s s' : WlContext} {ns : List (Nat × WlOutput)} {a : Nat} {c : Cell WlOutput}

section
variable {E : OutputStop → WlContext → Prop}

theorem wp_search {stop : Cell WlOutput → Bool} {l : Option Nat} {Q : Option Nat → WlContext → Prop}
    (h : s.mem.find stop s.outputs = some l) : wp (search stop) Q E s ↔ Q l s := by
  unfold search
  rw [wp_bind, wp_get, h]
  rfl

theorem wp_deref {Q : Cell WlOutput → WlContext → Prop} (h : s.mem.cell a = some c) :
    wp (deref a) Q E s ↔ Q c s := by
  unfold deref
  rw [wp_bind, wp_get, h]
  rfl

/-- An output is found by one of its values. -/
theorem wp_get_output (h : s.Lists ns) (q : WlOutput → Bool) {Q : Option Nat → WlContext → Prop} :
    wp (search fun c => q c.val) Q E s ↔ Q ((ns.find? fun n => q n.2).map Prod.fst) s :=
  wp_search (h.find_val q)

theorem wp_wlOutputGetWlName (h : s.Lists ns) (wlName : Nat) {Q : Option Nat → WlContext → Prop} :
    wp (wlOutputGetWlName wlName) Q E s ↔ Q ((ns.find? fun n => n.2.wlName = wlName).map Prod.fst) s :=
  wp_get_output h fun o => o.wlName = wlName

end

theorem wlOutputAppend_spec (h : s.Lists ns) (a wlOutput : Nat) (xdgOutput : Option Nat) (wlName : Nat) :
    wp (wlOutputAppend (some a) wlOutput xdgOutput wlName)
      (fun _ s' => s'.Lists (ns ++ [(a, .new wlOutput xdgOutput wlName)]) ∧ s.SameRest s')
      (fun stop s' => stop = .abort ∧ s' = s) s := by
  unfold wlOutputAppend xmalloc
  rw [wp_bind, wp_bind, wp_get, wp_ite]
  split
  · rename_i hfree
    have hfresh : ∀ n ∈ ns, n.1 ≠ a := by
      rintro n hn rfl
      obtain ⟨next, hc⟩ := h.cell_of_mem hn
      rw [hc] at hfree
      cases hfree
    have hnew : Seg (s.mem.write a ⟨.new wlOutput xdgOutput wlName, none⟩) (some a)
        [(a, .new wlOutput xdgOutput wlName)] none := .cons Memory.cell_write_self (.nil none)
    have hold : Seg (s.mem.write a ⟨.new wlOutput xdgOutput wlName, none⟩) s.outputs ns none := h.write hfresh
    unfold store
    rw [wp_pure, wp_bind, wp_modify, wp_bind, wp_get]
    dsimp only
    rcases List.eq_nil_or_concat ns with rfl | ⟨pre, ⟨b, w⟩, rfl⟩
    · have hnull : s.outputs = none := by
        generalize s.outputs = p at hold
        cases hold
        rfl
      rw [hnull]
      exact ⟨hnew, rfl, rfl, rfl⟩
    · rw [List.concat_eq_append] at hfresh hold ⊢
      obtain ⟨next, hb, hend⟩ := hold.behind
      cases hend
      have hhead : s.outputs ≠ none := by
        intro hnull
        rw [hnull] at hold
        generalize hns : pre ++ [(b, w)] = ns at hold
        cases hold
        simp at hns
      obtain ⟨p, hp⟩ := Option.ne_none_iff_exists'.mp hhead
      rw [hp] at hold ⊢
      dsimp only
      rw [wp_bind, wp_search (show _ = some (some b) from hold.find_last)]
      dsimp only
      rw [wp_bind, wp_deref (show _ = some ⟨w, none⟩ from hb), wp_modify]
      have hne : b ≠ a := hfresh (b, w) (by simp)
      refine ⟨?_, rfl, rfl, rfl⟩
      unfold WlContext.Lists
      rw [List.append_assoc]
      exact hold.link hnew (by simpa using Ne.symm hne)
  · exact ⟨rfl, rfl⟩

theorem filter_ne {pre post : List (Nat × WlOutput)} {v : WlOutput}
    (h : ((pre ++ (a, v) :: post).map Prod.fst).Nodup) :
    (∀ n ∈ pre ++ post, n.1 ≠ a) ∧ (pre ++ (a, v) :: post).filter (fun n => n.1 ≠ a) = pre ++ post := by
  simp only [List.map_append, List.map_cons, List.nodup_append, List.nodup_cons, List.mem_map, List.mem_cons] at h
  obtain ⟨-, ⟨hpost, -⟩, hpre⟩ := h
  have hne : ∀ n ∈ pre ++ post, n.1 ≠ a := by
    intro n hn heq
    rcases List.mem_append.mp hn with hn | hn
    exacts [hpre _ ⟨n, hn, rfl⟩ a (.inl rfl) heq, hpost ⟨n, hn, heq⟩]
  refine ⟨hne, ?_⟩
  rw [List.filter_append, List.filter_cons_of_neg (by simp), ← List.filter_append]
  exact List.filter_eq_self.mpr fun n hn => decide_eq_true (hne n hn)

/-- Taking out the head drops all outputs, and taking out another one drops that one alone. -/
theorem wlOutputRemove_spec (h : s.Lists ns) (a : Nat) : wp (wlOutputRemove a)
    (fun _ s' => s'.Lists (if s.outputs = some a then [] else ns.filter fun n => n.1 ≠ a) ∧ s.SameRest s')
    (fun _ _ => False) s := by
  unfold wlOutputRemove wlOutputFree
  rw [wp_bind, wp_get, wp_ite]
  split
  · rename_i hhead
    rw [wp_bind]
    by_cases hin : ∀ n ∈ ns, n.1 ≠ a
    · rw [wp_search (h.find_prev_none hin), List.filter_eq_self.mpr fun n hn => decide_eq_true (hin n hn)]
      exact ⟨h, .refl s⟩
    · simp only [not_forall, Classical.not_not] at hin
      obtain ⟨⟨a, v⟩, hmem, rfl⟩ := hin
      obtain ⟨pre, post, rfl⟩ := List.append_of_mem hmem
      rcases List.eq_nil_or_concat pre with rfl | ⟨pre, ⟨b, w⟩, rfl⟩
      · refine absurd ?_ hhead
        unfold WlContext.Lists at h
        generalize s.outputs = p at h
        cases h
        rfl
      · rw [List.concat_eq_append] at h ⊢
        have hnodup := h.nodup
        obtain ⟨hne, hfilter⟩ := filter_ne hnodup
        rw [hfilter]
        have hba : b ≠ a := hne (b, w) (by simp)
        obtain ⟨next, ha, hpost⟩ := h.behind
        unfold WlContext.Lists at h
        rw [List.append_assoc, List.singleton_append] at h
        obtain ⟨next', hb, -⟩ := h.behind
        have hbpost : ∀ n ∈ post, n.1 ≠ b := by
          rintro n hn rfl
          rw [List.append_assoc, List.map_append, List.singleton_append, List.map_cons, List.map_cons] at hnodup
          have := (List.nodup_cons.mp (List.nodup_append.mp hnodup).2.1).1
          exact this (List.mem_cons_of_mem _ (List.mem_map.mpr ⟨n, hn, rfl⟩))
        unfold store
        rw [wp_search h.find_prev]
        dsimp only
        rw [wp_bind, wp_deref hb, wp_bind, wp_deref ha, wp_bind, wp_modify, wp_bind,
          wp_deref (show _ = some ⟨v, next⟩ from (Memory.cell_write_of_ne (Ne.symm hba)).trans ha), wp_modify]
        refine ⟨?_, rfl, rfl, rfl⟩
        rw [List.append_assoc, List.singleton_append] at hne ⊢
        exact (h.link hpost hbpost).free hne
  · rename_i hhead
    rw [Classical.not_not] at hhead
    unfold WlContext.Lists at h
    rw [hhead] at h
    cases h with
    | cons hc _ =>
      rw [if_pos hhead, wp_bind, wp_modify, wp_bind, wp_deref (s := { s with outputs := none }) hc]
      exact ⟨.nil none, rfl, rfl, rfl⟩

/-! ### Runs -/

inductive ListOp
  | append (block : Option Nat) (wlOutput : Nat) (xdgOutput : Option Nat) (wlName : Nat)
  | remove (output : Nat)

namespace ListOp

def exec : ListOp → Wayland Unit
  | .append block wlOutput xdgOutput wlName => wlOutputAppend block wlOutput xdgOutput wlName
  | .remove output => wlOutputRemove output

/-- The outputs that are announced and not yet removed, after one more operation. -/
def after (ns : List (Nat × WlOutput)) : ListOp → List (Nat × WlOutput)
  | .append (some a) wlOutput xdgOutput wlName => ns ++ [(a, .new wlOutput xdgOutput wlName)]
  | .append none .. => ns
  | .remove output => ns.filter fun n => n.1 ≠ output

def Keeps (s : WlContext) : ListOp → Prop
  | .append .. => True
  | .remove output => s.Detachable output

/-- In the order of the announcements. -/
def remaining (steps : List (WlContext × ListOp)) : List (Nat × WlOutput) :=
  steps.foldl (fun ns step => step.2.after ns) []

end ListOp

theorem lists_iff {ns' : List (Nat × WlOutput)} (h : s.Lists ns) : s.Lists ns' ↔ ns = ns' :=
  ⟨h.unique, fun heq => heq ▸ h⟩

/-- What is left if the head is taken out is nothing exactly if nothing is behind it. -/
theorem detachable_iff (h : s.Lists ns) (a : Nat) :
    (if s.outputs = some a then [] else ns.filter fun n => n.1 ≠ a) = ns.filter (fun n => n.1 ≠ a) ↔
      s.Detachable a := by
  unfold WlContext.Detachable
  split
  · rename_i hhead
    have hlist := h
    unfold WlContext.Lists at hlist
    rw [hhead] at hlist
    cases hlist with
    | @cons _ v next _ ns hc ht =>
      obtain ⟨-, hfilter⟩ := @filter_ne a [] ns v h.nodup
      rw [List.nil_append, List.nil_append] at hfilter
      rw [hfilter, hc, forall_prop_of_true hhead, Option.bind_some]
      constructor
      · rintro rfl
        cases ht
        rfl
      · rintro rfl
        cases ht
        rfl
  · rename_i hhead
    exact iff_of_true rfl fun h => absurd h hhead

theorem exec_lists {op : ListOp} (h : s.Lists ns) : wp op.exec
    (fun _ s' => (∃ ns', s'.Lists ns') ∧ (s'.Lists (op.after ns) ↔ op.Keeps s)) (fun stop _ => stop = .abort) s := by
  cases op with
  | append block wlOutput xdgOutput wlName =>
    cases block with
    | none => exact rfl
    | some a =>
      refine wp_mono (wlOutputAppend_spec h a wlOutput xdgOutput wlName) ?_ fun _ _ => And.left
      exact fun _ s' h' => ⟨⟨_, h'.1⟩, iff_of_true h'.1 trivial⟩
  | remove output =>
    refine wp_mono (wlOutputRemove_spec h output) ?_ fun _ _ => False.elim
    exact fun _ s' h' => ⟨⟨_, h'.1⟩, (lists_iff h'.1).trans (detachable_iff h output)⟩

variable {onOutputUpdate : Bool} {steps : List (WlContext × ListOp)}

theorem remaining_snoc (step : WlContext × ListOp) :
    ListOp.remaining (steps ++ [step]) = step.2.after (ListOp.remaining steps) := by
  unfold ListOp.remaining
  rw [List.foldl_append]
  rfl

theorem lists_of_run (hrun : Run ListOp.exec (.init onOutputUpdate) steps s)
    (hkeep : ∀ t op, (t, op) ∈ steps → op.Keeps t) : s.Lists (ListOp.remaining steps) := by
  induction hrun with
  | nil => exact .nil none
  | @snoc steps s s' op _ hop ih =>
    have hs := ih fun t op hm => hkeep t op (List.mem_append_left _ hm)
    rw [remaining_snoc]
    exact (wp_ok (exec_lists hs) hop).2.mpr (hkeep s op (by simp))

theorem wlOutputRemove_one (h : s.Lists ns) (output : Nat) : ∃ s', (wlOutputRemove output).run s = .ok () s' ∧
    (s'.Lists (ns.filter fun n => n.1 ≠ output) ↔ s.Detachable output) := by
  obtain ⟨_, s', hrun, h', -⟩ := exists_ok_of_wp (wlOutputRemove_spec h output)
  exact ⟨s', hrun, (lists_iff h').trans (detachable_iff h output)⟩

/-- Removing an output removes that output alone, exactly if it is not the head of the list or the only one in it. So
in a run the list has at every time the outputs that are announced and not yet removed, in their order, exactly if
every removal is of that kind. -/
theorem wlOutputRemove_removes_one_iff {r : WlContext} (h : s.Lists ns)
    (hrun : Run ListOp.exec (.init onOutputUpdate) steps r) :
    (∀ output, ∃ s', (wlOutputRemove output).run s = .ok () s' ∧
      (s'.Lists (ns.filter fun n => n.1 ≠ output) ↔ s.Detachable output)) ∧
    ((∀ pre t, pre <+: steps → Run ListOp.exec (.init onOutputUpdate) pre t → t.Lists (ListOp.remaining pre)) ↔
      ∀ t output, (t, .remove output) ∈ steps → t.Detachable output) := by
  refine ⟨wlOutputRemove_one h, fun hlists t output hm => ?_, fun hkeep pre t hpre hrun' => ?_⟩
  · obtain ⟨pre, post, rfl, hpre⟩ := hrun.before_step hm
    obtain ⟨s', hop, hiff⟩ := wlOutputRemove_one (hlists pre t (List.prefix_append _ _) hpre) output
    refine hiff.mp ?_
    have h' := hlists (pre ++ [(t, .remove output)]) s' ⟨post, by simp⟩
      (hpre.snoc (show (ListOp.exec (.remove output)).run t = .ok () s' from hop))
    rwa [remaining_snoc] at h'
  · refine lists_of_run hrun' fun t op hm => ?_
    cases op with
    | append => trivial
    | remove output => exact hkeep t output (hpre.subset hm)

/-- Two outputs, at 1 and 2. -/
def WlContext.two : WlContext where
  mem := (Memory.empty.write 1 ⟨.new 11 (some 21) 31, some 2⟩).write 2 ⟨.new 12 (some 22) 32, none⟩
  outputs := some 1
  outputManager := true
  onOutputUpdate := true
  updates := []

theorem lists_two : WlContext.two.Lists [(1, .new 11 (some 21) 31), (2, .new 12 (some 22) 32)] :=
  .cons rfl (.cons rfl (.nil none))

/-- The second of two outputs is removed alone; and a run that appends two outputs has both. -/
theorem wlOutputRemove_removes_second :
    (∃ s', (wlOutputRemove 2).run WlContext.two = .ok () s' ∧ s'.Lists [(1, .new 11 (some 21) 31)]) ∧
    ∃ s s', Run ListOp.exec (.init true) [(.init true, .append (some 1) 11 (some 21) 31),
      (s, .append (some 2) 12 (some 22) 32)] s' ∧
      s'.Lists [(1, .new 11 (some 21) 31), (2, .new 12 (some 22) 32)] := by
  obtain ⟨s, s', hone, htwo⟩ : ∃ s s', (ListOp.exec (.append (some 1) 11 (some 21) 31)).run (.init true) = .ok () s ∧
      (ListOp.exec (.append (some 2) 12 (some 22) 32)).run s = .ok () s' := ⟨_, _, rfl, rfl⟩
  have hrun := (Run.single hone).snoc htwo
  obtain ⟨hremove, hlists⟩ := wlOutputRemove_removes_one_iff lists_two hrun
  obtain ⟨t, hrun', hiff⟩ := hremove 2
  exact ⟨⟨t, hrun', hiff.mpr (by decide)⟩, s, s', hrun, hlists.mpr (by simp) _ _ (List.prefix_refl _) hrun⟩

/-- With the first of two outputs the second one is lost. -/
theorem wlOutputRemove_drops_all : ¬ ∀ s ns, WlContext.Lists s ns → ∀ output, ∃ s',
    (wlOutputRemove output).run s = .ok () s' ∧ s'.Lists (ns.filter fun n => n.1 ≠ output) := by
  intro h
  obtain ⟨s', hrun, hlists⟩ := h _ _ lists_two 1
  obtain ⟨hdropped, -⟩ := wp_ok (wlOutputRemove_spec lists_two 1) hrun
  exact absurd (congrArg List.length (hdropped.unique hlists)) (by decide)

end Waynergy
