import Waynergy.Outputs

/-!
# The geometry of the outputs (`wayland.c`)

The events of an output come from two objects, in any interleaving. Its position is that of the last logical position
if there was one, and of the last geometry event otherwise; its size is that of the last logical size, and otherwise
of the last mode that was the current one. Both depend only on the events of each object in their order.
-/

namespace Waynergy
open Lib

/-! ### What the events say -/

namespace OutputEvent

/-- The event is one of the `wl_output` of the output. -/
def ofWl (o : WlOutput) : OutputEvent → Bool
  | .wl wlOutput _ => o.wlOutput = wlOutput
  | .xdg .. => false

/-- The event is one of its `xdg_output`. -/
def ofXdg (o : WlOutput) : OutputEvent → Bool
  | .wl .. => false
  | .xdg xdgOutput _ => o.xdgOutput = some xdgOutput

def logicalPosition? : OutputEvent → Option (Int × Int)
  | .xdg _ (.logicalPosition x y) => some (x, y)
  | _ => none

def logicalSize? : OutputEvent → Option (Int × Int)
  | .xdg _ (.logicalSize width height) => some (width, height)
  | _ => none

def geometry? : OutputEvent → Option (Int × Int)
  | .wl _ (.geometry x y) => some (x, y)
  | _ => none

def currentMode? : OutputEvent → Option (Int × Int)
  | .wl _ (.mode flags width height) => if flags &&& wlOutputModeCurrent ≠ 0 then some (width, height) else none
  | _ => none

end OutputEvent

/-- What the last of the events that say something says. -/
def lastSaid (f : OutputEvent → Option (Int × Int)) (evs : List OutputEvent) : Option (Int × Int) :=
  evs.reverse.findSome? f

namespace WlOutput

/-- The logical position counts, and then the geometry. -/
def finalPosition (o : WlOutput) (evs : List OutputEvent) : Int × Int :=
  ((lastSaid OutputEvent.logicalPosition? (evs.filter (OutputEvent.ofXdg o))).or
    (lastSaid OutputEvent.geometry? (evs.filter (OutputEvent.ofWl o)))).getD (o.x, o.y)

/-- The logical size counts, and then the current mode. -/
def finalSize (o : WlOutput) (evs : List OutputEvent) : Int × Int :=
  ((lastSaid OutputEvent.logicalSize? (evs.filter (OutputEvent.ofXdg o))).or
    (lastSaid OutputEvent.currentMode? (evs.filter (OutputEvent.ofWl o)))).getD (o.width, o.height)

/-- The output and its position and size. -/
def geometry (n : Nat × WlOutput) : Nat × (Int × Int) × (Int × Int) := (n.1, (n.2.x, n.2.y), (n.2.width, n.2.height))

end WlOutput

/-- No two outputs have the same object. -/
structure OwnObjects (ns : List (Nat × WlOutput)) : Prop where
  wl : (ns.map fun n => n.2.wlOutput).Nodup
  xdg : (ns.map fun n => n.2.xdgOutput).Nodup

/-- The events of each object of the output are the same, in the same order. -/
def SameStreams (o : WlOutput) (evs evs' : List OutputEvent) : Prop :=
  evs.filter (OutputEvent.ofWl o) = evs'.filter (OutputEvent.ofWl o) ∧
    evs.filter (OutputEvent.ofXdg o) = evs'.filter (OutputEvent.ofXdg o)

def handleEvents : List OutputEvent → Wayland Unit
  | [] => pure ()
  | ev :: evs => do
    ev.handle
    handleEvents evs

/-! ### One output -/

/-- What an event, of whatever output, does to an output. -/
def WlOutput.on (o : WlOutput) (ev : OutputEvent) : WlOutput := if ev.isFor o then ev.apply o else o

variable {o : WlOutput} {ev : OutputEvent} {evs evs' : List OutputEvent} {ns : List (Nat × WlOutput)} {s : WlContext}

theorem objects_apply : (ev.apply o).wlOutput = o.wlOutput ∧ (ev.apply o).xdgOutput = o.xdgOutput := by
  cases ev with
  | wl _ ev =>
    cases ev with
    | geometry => cases h : o.haveLogPos <;> simp [OutputEvent.apply, h]
    | mode flags => cases h : o.haveLogSize <;> by_cases hc : flags &&& wlOutputModeCurrent = 0 <;>
        simp [OutputEvent.apply, h, hc]
    | scale | done => exact ⟨rfl, rfl⟩
  | xdg _ ev => cases ev <;> exact ⟨rfl, rfl⟩

/-- The position is what the event says, unless it is the geometry and there was a logical position. -/
theorem position_apply : ((ev.apply o).x, (ev.apply o).y) =
    (ev.logicalPosition?.or (if o.haveLogPos then none else ev.geometry?)).getD (o.x, o.y) ∧
      (ev.apply o).haveLogPos = (ev.logicalPosition?.isSome || o.haveLogPos) := by
  cases ev with
  | wl _ ev =>
    cases ev with
    | geometry => cases h : o.haveLogPos <;> simp [OutputEvent.apply, OutputEvent.logicalPosition?,
        OutputEvent.geometry?, h]
    | mode flags => cases h : o.haveLogSize <;> by_cases hc : flags &&& wlOutputModeCurrent = 0 <;>
        simp [OutputEvent.apply, OutputEvent.logicalPosition?, OutputEvent.geometry?, h, hc]
    | scale | done => simp [OutputEvent.apply, OutputEvent.logicalPosition?, OutputEvent.geometry?]
  | xdg _ ev => cases ev <;> simp [OutputEvent.apply, OutputEvent.logicalPosition?, OutputEvent.geometry?]

/-- The size is what the event says, unless it is the mode and there was a logical size. -/
theorem size_apply : ((ev.apply o).width, (ev.apply o).height) =
    (ev.logicalSize?.or (if o.haveLogSize then none else ev.currentMode?)).getD (o.width, o.height) ∧
      (ev.apply o).haveLogSize = (ev.logicalSize?.isSome || o.haveLogSize) := by
  cases ev with
  | wl _ ev =>
    cases ev with
    | geometry => cases h : o.haveLogPos <;> simp [OutputEvent.apply, OutputEvent.logicalSize?,
        OutputEvent.currentMode?, h]
    | mode flags => cases h : o.haveLogSize <;> by_cases hc : flags &&& wlOutputModeCurrent = 0 <;>
        simp [OutputEvent.apply, OutputEvent.logicalSize?, OutputEvent.currentMode?, h, hc]
    | scale | done => simp [OutputEvent.apply, OutputEvent.logicalSize?, OutputEvent.currentMode?]
  | xdg _ ev => cases ev <;> simp [OutputEvent.apply, OutputEvent.logicalSize?, OutputEvent.currentMode?]

theorem lastSaid_concat (f : OutputEvent → Option (Int × Int)) (evs : List OutputEvent) (ev : OutputEvent) :
    lastSaid f (evs ++ [ev]) = (f ev).or (lastSaid f evs) := by
  unfold lastSaid
  rw [List.reverse_concat, List.findSome?_cons]
  cases f ev <;> rfl

/-- What holds of an output after some events of both objects. -/
structure Settled (o : WlOutput) (evs : List OutputEvent) (o' : WlOutput) : Prop where
  wlOutput : o'.wlOutput = o.wlOutput
  xdgOutput : o'.xdgOutput = o.xdgOutput
  haveLogPos : o'.haveLogPos = (lastSaid OutputEvent.logicalPosition? (evs.filter (OutputEvent.ofXdg o))).isSome
  haveLogSize : o'.haveLogSize = (lastSaid OutputEvent.logicalSize? (evs.filter (OutputEvent.ofXdg o))).isSome
  position : (o'.x, o'.y) = o.finalPosition evs
  size : (o'.width, o'.height) = o.finalSize evs

theorem settled_nil (hpos : o.haveLogPos = false) (hsize : o.haveLogSize = false) : Settled o [] o :=
  ⟨rfl, rfl, hpos, hsize, rfl, rfl⟩

theorem filter_concat (p : OutputEvent → Bool) (evs : List OutputEvent) (ev : OutputEvent) :
    (evs ++ [ev]).filter p = if p ev then evs.filter p ++ [ev] else evs.filter p := by
  rw [List.filter_append, List.filter_singleton]
  cases p ev
  exacts [List.append_nil _, rfl]

/-- An event that is not for the output leaves everything as it is settled. -/
theorem Settled.other {o' : WlOutput} (h : Settled o evs o') (hwl : ev.ofWl o = false) (hxdg : ev.ofXdg o = false) :
    Settled o (evs ++ [ev]) o' := by
  have hfilter : (evs ++ [ev]).filter (OutputEvent.ofWl o) = evs.filter (OutputEvent.ofWl o) ∧
      (evs ++ [ev]).filter (OutputEvent.ofXdg o) = evs.filter (OutputEvent.ofXdg o) :=
    ⟨by rw [filter_concat, hwl]; rfl, by rw [filter_concat, hxdg]; rfl⟩
  refine ⟨h.wlOutput, h.xdgOutput, ?_, ?_, ?_, ?_⟩
  · rw [hfilter.2, h.haveLogPos]
  · rw [hfilter.2, h.haveLogSize]
  · rw [h.position, WlOutput.finalPosition, WlOutput.finalPosition, hfilter.1, hfilter.2]
  · rw [h.size, WlOutput.finalSize, WlOutput.finalSize, hfilter.1, hfilter.2]

theorem Settled.ofWl {o' : WlOutput} (h : Settled o evs o') (hev : ev.ofWl o = true) :
    Settled o (evs ++ [ev]) (ev.apply o') := by
  have hsilent : ev.ofXdg o = false ∧ ev.logicalPosition? = none ∧ ev.logicalSize? = none := by
    cases ev with
    | wl => exact ⟨rfl, rfl, rfl⟩
    | xdg => cases hev
  obtain ⟨hxdg, hpos, hsize⟩ := hsilent
  have hfilter : (evs ++ [ev]).filter (OutputEvent.ofWl o) = evs.filter (OutputEvent.ofWl o) ++ [ev] ∧
      (evs ++ [ev]).filter (OutputEvent.ofXdg o) = evs.filter (OutputEvent.ofXdg o) :=
    ⟨by rw [filter_concat, if_pos hev], by rw [filter_concat, hxdg]; rfl⟩
  refine ⟨objects_apply.1.trans h.wlOutput, objects_apply.2.trans h.xdgOutput, ?_, ?_, ?_, ?_⟩
  · rw [position_apply.2, hpos, hfilter.2, ← h.haveLogPos]
    rfl
  · rw [size_apply.2, hsize, hfilter.2, ← h.haveLogSize]
    rfl
  · rw [position_apply.1, hpos, h.position, h.haveLogPos, WlOutput.finalPosition, WlOutput.finalPosition, hfilter.1,
      hfilter.2, lastSaid_concat]
    cases lastSaid OutputEvent.logicalPosition? (evs.filter (OutputEvent.ofXdg o)) <;> cases ev.geometry? <;> rfl
  · rw [size_apply.1, hsize, h.size, h.haveLogSize, WlOutput.finalSize, WlOutput.finalSize, hfilter.1,
      hfilter.2, lastSaid_concat]
    cases lastSaid OutputEvent.logicalSize? (evs.filter (OutputEvent.ofXdg o)) <;> cases ev.currentMode? <;> rfl

theorem Settled.ofXdg {o' : WlOutput} (h : Settled o evs o') (hev : ev.ofXdg o = true) :
    Settled o (evs ++ [ev]) (ev.apply o') := by
  have hsilent : ev.ofWl o = false ∧ ev.geometry? = none ∧ ev.currentMode? = none := by
    cases ev with
    | wl => cases hev
    | xdg => exact ⟨rfl, rfl, rfl⟩
  obtain ⟨hwl, hpos, hsize⟩ := hsilent
  have hfilter : (evs ++ [ev]).filter (OutputEvent.ofWl o) = evs.filter (OutputEvent.ofWl o) ∧
      (evs ++ [ev]).filter (OutputEvent.ofXdg o) = evs.filter (OutputEvent.ofXdg o) ++ [ev] :=
    ⟨by rw [filter_concat, hwl]; rfl, by rw [filter_concat, if_pos hev]⟩
  refine ⟨objects_apply.1.trans h.wlOutput, objects_apply.2.trans h.xdgOutput, ?_, ?_, ?_, ?_⟩
  · rw [position_apply.2, hfilter.2, lastSaid_concat, h.haveLogPos, Option.isSome_or]
  · rw [size_apply.2, hfilter.2, lastSaid_concat, h.haveLogSize, Option.isSome_or]
  · rw [position_apply.1, hpos, ite_self, h.position, WlOutput.finalPosition, WlOutput.finalPosition, hfilter.1,
      hfilter.2, lastSaid_concat]
    cases ev.logicalPosition? <;> rfl
  · rw [size_apply.1, hsize, ite_self, h.size, WlOutput.finalSize, WlOutput.finalSize, hfilter.1,
      hfilter.2, lastSaid_concat]
    cases ev.logicalSize? <;> rfl

theorem isFor_eq (ev : OutputEvent) (o : WlOutput) : ev.isFor o = (ev.ofWl o || ev.ofXdg o) := by
  cases ev with
  | wl => exact (Bool.or_false _).symm
  | xdg => exact (Bool.false_or _).symm

theorem Settled.step {o' : WlOutput} (h : Settled o evs o') (ev : OutputEvent) :
    Settled o (evs ++ [ev]) (o'.on ev) := by
  have hfor : ev.isFor o' = (ev.ofWl o || ev.ofXdg o) := by
    rw [← isFor_eq]
    cases ev with
    | wl w =>
      show decide (o'.wlOutput = w) = decide (o.wlOutput = w)
      rw [h.wlOutput]
    | xdg x =>
      show decide (o'.xdgOutput = some x) = decide (o.xdgOutput = some x)
      rw [h.xdgOutput]
  unfold WlOutput.on
  rw [hfor]
  cases hwl : ev.ofWl o with
  | true => exact h.ofWl hwl
  | false =>
    cases hxdg : ev.ofXdg o with
    | true => exact h.ofXdg hxdg
    | false => exact h.other hwl hxdg

theorem settled (hpos : o.haveLogPos = false) (hsize : o.haveLogSize = false) (evs : List OutputEvent) :
    Settled o evs (evs.foldl WlOutput.on o) := by
  induction evs using List.reverseRecOn with
  | nil => exact settled_nil hpos hsize
  | append_singleton evs ev ih =>
    rw [List.foldl_append]
    exact ih.step ev

/-! ### All outputs -/

theorem onList_eq_map (h : OwnObjects ns) (ev : OutputEvent) : ev.onList ns = ns.map fun n => (n.1, n.2.on ev) := by
  induction ns with
  | nil => rfl
  | cons n ns ih =>
    obtain ⟨hwl, hwls⟩ := List.nodup_cons.mp h.wl
    obtain ⟨hxdg, hxdgs⟩ := List.nodup_cons.mp h.xdg
    rw [OutputEvent.onList, List.map_cons, ih ⟨hwls, hxdgs⟩]
    unfold WlOutput.on
    split
    · rename_i hn
      -- no other output has the object
      have hno : ∀ n' ∈ ns, ev.isFor n'.2 = false := by
        intro n' hn'
        rw [Bool.eq_false_iff]
        intro hfor
        cases ev with
        | wl =>
          exact hwl (List.mem_map.mpr ⟨n', hn', (of_decide_eq_true hfor).trans (of_decide_eq_true hn).symm⟩)
        | xdg =>
          exact hxdg (List.mem_map.mpr ⟨n', hn', (of_decide_eq_true hfor).trans (of_decide_eq_true hn).symm⟩)
      have hsame : ns.map (fun n => (n.1, if ev.isFor n.2 = true then ev.apply n.2 else n.2)) = ns :=
        (List.map_congr_left fun n' hn' => by rw [hno n' hn']; rfl).trans (List.map_id ns)
      rw [hsame]
    · rfl

theorem OwnObjects.map_on (h : OwnObjects ns) (ev : OutputEvent) : OwnObjects (ns.map fun n => (n.1, n.2.on ev)) := by
  have hobjects : ∀ n : Nat × WlOutput, (n.2.on ev).wlOutput = n.2.wlOutput ∧ (n.2.on ev).xdgOutput = n.2.xdgOutput := by
    intro n
    unfold WlOutput.on
    split
    exacts [objects_apply, ⟨rfl, rfl⟩]
  refine ⟨?_, ?_⟩
  · rw [List.map_map]
    exact (List.map_congr_left fun n _ => (hobjects n).1) ▸ h.wl
  · rw [List.map_map]
    exact (List.map_congr_left fun n _ => (hobjects n).2) ▸ h.xdg

theorem handleEvents_spec (h : s.Lists ns) (hown : OwnObjects ns) (evs : List OutputEvent) : wp (handleEvents evs)
    (fun _ s' => s'.Lists (ns.map fun n => (n.1, evs.foldl WlOutput.on n.2))) (fun _ _ => False) s := by
  induction evs generalizing s ns with
  | nil =>
    have hsame : ns.map (fun n => (n.1, n.2)) = ns := List.map_id ns
    show s.Lists (ns.map fun n => (n.1, n.2))
    rwa [hsame]
  | cons ev evs ih =>
    unfold handleEvents
    rw [wp_bind]
    refine wp_mono (ev.handle_spec h) ?_ fun _ _ => id
    rintro _ s₁ ⟨h₁, -⟩
    rw [onList_eq_map hown] at h₁
    refine wp_mono (ih h₁ (hown.map_on ev)) (fun _ s' h' => ?_) fun _ _ => id
    rwa [List.map_map] at h'

theorem foldl_on_other (h : ∀ ev ∈ evs, ev.isFor o = false) : evs.foldl WlOutput.on o = o := by
  induction evs with
  | nil => rfl
  | cons ev evs ih =>
    obtain ⟨hev, hevs⟩ := List.forall_mem_cons.mp h
    have hone : o.on ev = o := by
      unfold WlOutput.on
      rw [hev]
      rfl
    rw [List.foldl_cons, hone, ih hevs]

/-- After any events of outputs with their own objects, the geometry of each is what its last events say; it is the
same for every interleaving of the events of the objects; and an output that no event was for is as it was. -/
theorem geometry_of_streams (h : s.Lists ns) (hown : OwnObjects ns)
    (hnew : ∀ n ∈ ns, n.2.haveLogPos = false ∧ n.2.haveLogSize = false) (evs : List OutputEvent) :
    ∃ s' ns', (handleEvents evs).run s = .ok () s' ∧ s'.Lists ns' ∧
      ns'.map WlOutput.geometry = ns.map (fun n => (n.1, n.2.finalPosition evs, n.2.finalSize evs)) ∧
      (∀ evs' s'' ns'', (∀ n ∈ ns, SameStreams n.2 evs evs') → (handleEvents evs').run s = .ok () s'' →
        s''.Lists ns'' → ns''.map WlOutput.geometry = ns'.map WlOutput.geometry) ∧
      ∀ n ∈ ns, (∀ ev ∈ evs, ev.isFor n.2 = false) → n ∈ ns' := by
  have hgeometry : ∀ evs : List OutputEvent, (ns.map fun n => (n.1, evs.foldl WlOutput.on n.2)).map WlOutput.geometry =
      ns.map fun n => (n.1, n.2.finalPosition evs, n.2.finalSize evs) := by
    intro evs
    rw [List.map_map]
    refine List.map_congr_left fun n hn => ?_
    have hn := settled (hnew n hn).1 (hnew n hn).2 evs
    show (n.1, (_, _), (_, _)) = _
    rw [hn.position, hn.size]
  obtain ⟨_, s', hrun, hlist⟩ := exists_ok_of_wp (handleEvents_spec h hown evs)
  refine ⟨s', _, hrun, hlist, hgeometry evs, fun evs' s'' ns'' hsame hrun' hlist' => ?_, fun n hn hother => ?_⟩
  · have hevs' := wp_ok (handleEvents_spec h hown evs') hrun'
    rw [hlist'.unique hevs', hgeometry, hgeometry]
    refine List.map_congr_left fun n hn => ?_
    obtain ⟨hwl, hxdg⟩ := hsame n hn
    unfold WlOutput.finalPosition WlOutput.finalSize
    rw [hwl, hxdg]
  · exact List.mem_map.mpr ⟨n, hn, by rw [foldl_on_other hother]⟩

/-- Two new outputs: the logical position of the first outweighs the geometry that comes behind it. -/
theorem geometry_of_streams_two : ∃ s' ns', (handleEvents [.wl 12 (.geometry 5 6), .xdg 21 (.logicalPosition 3 4),
    .wl 11 (.geometry 1 2), .wl 11 (.mode 1 800 600)]).run WlContext.two = .ok () s' ∧ s'.Lists ns' ∧
      ns'.map WlOutput.geometry = [(1, (3, 4), (800, 600)), (2, (5, 6), (0, 0))] := by
  obtain ⟨s', ns', hrun, hlist, hgeometry, -⟩ := geometry_of_streams lists_two ⟨by decide, by decide⟩ (by decide)
    [.wl 12 (.geometry 5 6), .xdg 21 (.logicalPosition 3 4), .wl 11 (.geometry 1 2), .wl 11 (.mode 1 800 600)]
  exact ⟨s', ns', hrun, hlist, hgeometry.trans (by decide)⟩

end Waynergy
