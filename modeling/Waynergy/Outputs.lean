import Waynergy.OutputList

/-!
# Events of the outputs (`wayland.c`)

An output has two objects that send events: the `wl_output` tells geometry, mode and scale, and the `xdg_output` the
logical position and size. Each event changes the first output of the list that has the object, and makes it
incomplete until the next done event.
-/

namespace Waynergy
open Lib

/-! ### Events -/

inductive WlOutputEvent
  | geometry (x y : Int)
  | mode (flags : Nat) (width height : Int)
  | scale (factor : Int)
  | done

inductive XdgOutputEvent
  | logicalPosition (x y : Int)
  | logicalSize (width height : Int)
  | name (name : Bytes)
  | description (desc : Bytes)

/-- An event of one of the two objects of an output. -/
inductive OutputEvent
  | wl (wlOutput : Nat) (ev : WlOutputEvent)
  | xdg (xdgOutput : Nat) (ev : XdgOutputEvent)

/-- A global that is announced: the manager of the `xdg_output` objects, which makes one for a `wl_output`, or an
output with the objects that it is bound to and the block that the allocator has for it. -/
inductive Global
  | outputManager (version : Nat) (getXdgOutput : Nat → Nat)
  | output (wlOutput xdgOutput : Nat) (block : Option Nat)

inductive WaylandEvent
  | output (ev : OutputEvent)
  | global (name : Nat) (g : Global)
  | globalRemove (name : Nat)

/-! ### The handlers -/

/-- `WL_OUTPUT_MODE_CURRENT` -/
def wlOutputModeCurrent : Nat := 1

/-- Change the output, if it was found. -/
def mutate (output : Option Nat) (f : WlOutput → WlOutput) : Wayland Unit :=
  match output with
  | none => pure ()
  | some a => do
    let c ← deref a
    store a { c with val := f c.val }

def onWlOutput (wlOutput : Nat) (f : WlOutput → WlOutput) : Wayland Unit := do mutate (← wlOutputGet wlOutput) f

def onXdgOutput (xdgOutput : Nat) (f : WlOutput → WlOutput) : Wayland Unit := do mutate (← wlOutputGetXdg xdgOutput) f

/-- The logical position outweighs this. -/
def outputGeometry (wlOutput : Nat) (x y : Int) : Wayland Unit :=
  onWlOutput wlOutput fun o => if o.haveLogPos then o else { o with complete := false, x, y }

/-- The logical size outweighs this. -/
def outputMode (wlOutput flags : Nat) (width height : Int) : Wayland Unit :=
  onWlOutput wlOutput fun o =>
    if flags &&& wlOutputModeCurrent ≠ 0 then
      if o.haveLogSize then o else { o with complete := false, width, height }
    else o

def outputScale (wlOutput : Nat) (factor : Int) : Wayland Unit :=
  onWlOutput wlOutput fun o => { o with complete := false, scale := factor }

/-- `ctx->on_output_update(ctx)` -/
def callOnOutputUpdate : Wayland Unit := do
  modify fun s => { s with updates := s.updates ++ [(s.mem, s.outputs)] }
  let s ← get
  if s.onOutputUpdate then pure () else throw .nullCall

/-- Fire the event if all outputs are complete. -/
def outputDone (wlOutput : Nat) : Wayland Unit := do
  match ← wlOutputGet wlOutput with
  | none => pure ()
  | some a => do
    mutate (some a) fun o => { o with complete := true }
    let s ← get
    match s.mem.fold (fun complete o => complete && o.complete) true s.outputs with
    | none => throw .dangling
    | some complete => if complete then if s.onOutputUpdate then callOnOutputUpdate else pure () else pure ()

def xdgOutputPos (xdgOutput : Nat) (x y : Int) : Wayland Unit :=
  onXdgOutput xdgOutput fun o => { o with complete := false, haveLogPos := true, x, y }

def xdgOutputSize (xdgOutput : Nat) (width height : Int) : Wayland Unit :=
  onXdgOutput xdgOutput fun o => { o with complete := false, haveLogSize := true, width, height }

def xdgOutputName (xdgOutput : Nat) (name : Bytes) : Wayland Unit :=
  onXdgOutput xdgOutput fun o => { o with complete := false, name := some name }

def xdgOutputDesc (xdgOutput : Nat) (desc : Bytes) : Wayland Unit :=
  onXdgOutput xdgOutput fun o => { o with complete := false, desc := some desc }

def OutputEvent.handle : OutputEvent → Wayland Unit
  | .wl wlOutput (.geometry x y) => outputGeometry wlOutput x y
  | .wl wlOutput (.mode flags width height) => outputMode wlOutput flags width height
  | .wl wlOutput (.scale factor) => outputScale wlOutput factor
  | .wl wlOutput .done => outputDone wlOutput
  | .xdg xdgOutput (.logicalPosition x y) => xdgOutputPos xdgOutput x y
  | .xdg xdgOutput (.logicalSize width height) => xdgOutputSize xdgOutput width height
  | .xdg xdgOutput (.name name) => xdgOutputName xdgOutput name
  | .xdg xdgOutput (.description desc) => xdgOutputDesc xdgOutput desc

/-- An output that was announced before the manager gets its `xdg_output` now. -/
def WlOutput.bindXdg (getXdgOutput : Nat → Nat) (o : WlOutput) : WlOutput :=
  if o.xdgOutput.isNone then { o with xdgOutput := some (getXdgOutput o.wlOutput) } else o

/-- Of the globals, the model has those of the outputs. -/
def handleGlobal (name : Nat) : Global → Wayland Unit
  | .outputManager version getXdgOutput =>
    if version < 3 then pure ()
    else do
      modify fun s => { s with outputManager := true }
      let s ← get
      match s.mem.map (WlOutput.bindXdg getXdgOutput) s.outputs with
      | none => throw .dangling
      | some mem => modify fun s => { s with mem }
  | .output wlOutput xdgOutput block => do
    let s ← get
    wlOutputAppend block wlOutput (if s.outputManager then some xdgOutput else none) name

def handleGlobalRemove (name : Nat) : Wayland Unit := do
  match ← wlOutputGetWlName name with
  | none => pure ()
  | some output => do
    wlOutputRemove output
    callOnOutputUpdate

def WaylandEvent.handle : WaylandEvent → Wayland Unit
  | .output ev => ev.handle
  | .global name g => handleGlobal name g
  | .globalRemove name => handleGlobalRemove name

/-! ### The list of the outputs -/

/-- What an event does to its output. -/
def OutputEvent.apply : OutputEvent → WlOutput → WlOutput
  | .wl _ (.geometry x y), o => if o.haveLogPos then o else { o with complete := false, x, y }
  | .wl _ (.mode flags width height), o =>
    if flags &&& wlOutputModeCurrent ≠ 0 then
      if o.haveLogSize then o else { o with complete := false, width, height }
    else o
  | .wl _ (.scale factor), o => { o with complete := false, scale := factor }
  | .wl _ .done, o => { o with complete := true }
  | .xdg _ (.logicalPosition x y), o => { o with complete := false, haveLogPos := true, x, y }
  | .xdg _ (.logicalSize width height), o => { o with complete := false, haveLogSize := true, width, height }
  | .xdg _ (.name name), o => { o with complete := false, name := some name }
  | .xdg _ (.description desc), o => { o with complete := false, desc := some desc }

/-- The output has the object of the event. -/
def OutputEvent.isFor : OutputEvent → WlOutput → Bool
  | .wl wlOutput _, o => o.wlOutput = wlOutput
  | .xdg xdgOutput _, o => o.xdgOutput = some xdgOutput

def OutputEvent.isDone : OutputEvent → Bool
  | .wl _ .done => true
  | _ => false

/-- The event in the list: it is that of the first output that has its object. -/
def OutputEvent.onList (ev : OutputEvent) : List (Nat × WlOutput) → List (Nat × WlOutput)
  | [] => []
  | n :: ns => if ev.isFor n.2 then (n.1, ev.apply n.2) :: ns else n :: ev.onList ns

variable {s s' : WlContext} {ns : List (Nat × WlOutput)} {ev : OutputEvent}

/-- Every output is complete. -/
def AllComplete (ns : List (Nat × WlOutput)) : Prop := ∀ n ∈ ns, n.2.complete = true

instance (ns : List (Nat × WlOutput)) : Decidable (AllComplete ns) := inferInstanceAs (Decidable (∀ n ∈ ns, _))

theorem onList_eq_self (h : ns.find? (fun n => ev.isFor n.2) = none) : ev.onList ns = ns := by
  induction ns with
  | nil => rfl
  | cons n ns ih =>
    rw [List.find?_cons] at h
    unfold OutputEvent.onList
    split at h
    · cases h
    · rename_i hno
      rw [hno, ih h]
      rfl

theorem onList_append {pre post : List (Nat × WlOutput)} {n : Nat × WlOutput} (hpre : ∀ n ∈ pre, ev.isFor n.2 = false)
    (hn : ev.isFor n.2 = true) : ev.onList (pre ++ n :: post) = pre ++ (n.1, ev.apply n.2) :: post := by
  induction pre with
  | nil =>
    unfold OutputEvent.onList
    exact if_pos hn
  | cons n' pre ih =>
    obtain ⟨hn', hpre⟩ := List.forall_mem_cons.mp hpre
    rw [List.cons_append, OutputEvent.onList, hn', ih hpre]
    rfl

theorem fold_complete : ns.foldl (fun complete n => complete && n.2.complete) true = decide (AllComplete ns) := by
  have hfold : ∀ b, ns.foldl (fun complete n => complete && n.2.complete) b = (b && ns.all fun n => n.2.complete) := by
    induction ns with
    | nil => exact fun b => (Bool.and_true b).symm
    | cons n ns ih => exact fun b => by rw [List.foldl_cons, ih, List.all_cons, Bool.and_assoc]
  rw [hfold, Bool.true_and, Bool.eq_iff_iff, List.all_eq_true, decide_eq_true_eq]
  rfl

/-! ### What the handlers do -/

/-- The event calls the function for the size. -/
def OutputEvent.Fires (s : WlContext) (ns : List (Nat × WlOutput)) (ev : OutputEvent) : Prop :=
  ev.isDone = true ∧ (ns.any fun n => ev.isFor n.2) = true ∧ AllComplete (ev.onList ns) ∧ s.onOutputUpdate = true

instance : Decidable (ev.Fires s ns) := inferInstanceAs (Decidable (_ ∧ _))

theorem mutate_spec (h : s.Lists ns) (ev : OutputEvent) :
    wp (search (fun c => ev.isFor c.val) >>= fun output => mutate output ev.apply)
      (fun _ s' => s'.Lists (ev.onList ns) ∧ s.SameRest s') (fun _ _ => False) s := by
  rw [wp_bind, wp_get_output h]
  cases hfind : ns.find? fun n => ev.isFor n.2 with
  | none =>
    rw [onList_eq_self hfind]
    exact ⟨h, .refl s⟩
  | some n =>
    obtain ⟨hn, pre, post, rfl, hpre⟩ := List.find?_eq_some_iff_append.mp hfind
    obtain ⟨next, hc, hlist⟩ := h.setVal (ev.apply n.2)
    have hpre' : ∀ n ∈ pre, ev.isFor n.2 = false := fun n hn => by simpa using hpre n hn
    rw [onList_append hpre' hn, Option.map_some]
    unfold mutate store
    dsimp only
    rw [wp_bind, wp_deref hc]
    exact ⟨hlist, rfl, rfl, rfl⟩

theorem handle_eq (hev : ev.isDone = false) :
    ev.handle = search (fun c => ev.isFor c.val) >>= fun output => mutate output ev.apply := by
  rcases ev with ⟨_, _ | _ | _ | _⟩ | ⟨_, _ | _ | _ | _⟩ <;> first | rfl | cases hev

theorem outputDone_spec (h : s.Lists ns) (wlOutput : Nat) : wp (outputDone wlOutput)
    (fun _ s' => s'.Lists (OutputEvent.onList (.wl wlOutput .done) ns) ∧ s'.outputManager = s.outputManager ∧
      s'.onOutputUpdate = s.onOutputUpdate ∧ s'.updates = s.updates ++
        if OutputEvent.Fires s ns (.wl wlOutput .done) then [(s'.mem, s'.outputs)] else [])
    (fun _ _ => False) s := by
  have hmut := mutate_spec h (.wl wlOutput .done)
  rw [wp_bind, wp_get_output h] at hmut
  have hget : wlOutputGet wlOutput = search fun c => OutputEvent.isFor (.wl wlOutput .done) c.val := rfl
  unfold outputDone
  rw [wp_bind, hget, wp_get_output h]
  cases hfind : ns.find? fun n => OutputEvent.isFor (.wl wlOutput .done) n.2 with
  | none =>
    have hno : ¬ OutputEvent.Fires s ns (.wl wlOutput .done) := by
      rintro ⟨-, hany, -⟩
      obtain ⟨n, hn, hfor⟩ := List.any_eq_true.mp hany
      exact List.find?_eq_none.mp hfind n hn hfor
    rw [onList_eq_self hfind]
    exact ⟨h, rfl, rfl, by rw [if_neg hno, List.append_nil]⟩
  | some n =>
    rw [hfind, Option.map_some] at hmut
    have hany : (ns.any fun n => OutputEvent.isFor (.wl wlOutput .done) n.2) = true :=
      List.any_eq_true.mpr ⟨n, List.mem_of_find?_eq_some hfind, (List.find?_eq_some_iff_append.mp hfind).1⟩
    rw [Option.map_some]
    dsimp only
    rw [wp_bind]
    refine wp_mono hmut ?_ fun _ _ => id
    rintro _ s' ⟨hlist, hrest⟩
    have hfires : OutputEvent.Fires s ns (.wl wlOutput .done) ↔
        AllComplete (OutputEvent.onList (.wl wlOutput .done) ns) ∧ s'.onOutputUpdate = true := by
      rw [hrest.onOutputUpdate]
      exact ⟨fun h => h.2.2, fun h => ⟨rfl, hany, h⟩⟩
    rw [wp_bind, wp_get, hlist.fold_eq]
    dsimp only
    rw [fold_complete, wp_ite, wp_ite]
    unfold callOnOutputUpdate
    split
    · rename_i hall
      rw [decide_eq_true_eq] at hall
      split
      · rename_i hcb
        rw [wp_bind, wp_modify, wp_bind, wp_get]
        dsimp only
        rw [if_pos hcb]
        refine ⟨hlist, hrest.outputManager, hrest.onOutputUpdate, ?_⟩
        rw [if_pos (hfires.mpr ⟨hall, hcb⟩), ← hrest.updates]
      · rename_i hcb
        refine ⟨hlist, hrest.outputManager, hrest.onOutputUpdate, ?_⟩
        rw [if_neg fun hf => hcb (hfires.mp hf).2, List.append_nil, hrest.updates]
    · rename_i hall
      rw [decide_eq_true_eq] at hall
      refine ⟨hlist, hrest.outputManager, hrest.onOutputUpdate, ?_⟩
      rw [if_neg fun hf => hall (hfires.mp hf).1, List.append_nil, hrest.updates]

/-- An event of an output does to the list what it does to its output, and calls the function if it fires. -/
theorem OutputEvent.handle_spec (h : s.Lists ns) (ev : OutputEvent) : wp ev.handle
    (fun _ s' => s'.Lists (ev.onList ns) ∧ s'.outputManager = s.outputManager ∧
      s'.onOutputUpdate = s.onOutputUpdate ∧
      s'.updates = s.updates ++ if ev.Fires s ns then [(s'.mem, s'.outputs)] else [])
    (fun _ _ => False) s := by
  cases hdone : ev.isDone with
  | true =>
    rcases ev with ⟨wlOutput, _ | _ | _ | _⟩ | ⟨_, _ | _ | _ | _⟩ <;> first | exact outputDone_spec h wlOutput | cases hdone
  | false =>
    have hno : ¬ ev.Fires s ns := fun hf => by rw [hf.1] at hdone; cases hdone
    rw [handle_eq hdone]
    refine wp_mono (mutate_spec h ev) (fun _ s' hs' => ?_) fun _ _ => id
    exact ⟨hs'.1, hs'.2.outputManager, hs'.2.onOutputUpdate, by rw [hs'.2.updates, if_neg hno, List.append_nil]⟩

end Waynergy
