import Waynergy.OutputGeometry
import Waynergy.DesktopSize
import Mathlib.Data.List.Forall2

/-!
# The scene of the compositor (`wayland.c`, `main.c`)

The compositor shows outputs: those that it has announced and not removed, each with the events that came for its
objects. In whatever order the globals are announced and the events come, the list has these outputs, with an
`xdg_output` as soon as there is a manager; and the size that is told to the server depends on nothing but the two
streams of events of each output.
-/

namespace Waynergy
open Lib

/-- An output that was announced, its objects, and the events that came for them. -/
structure Shown where
  name : Nat
  wlOutput : Nat
  xdgOutput : Option Nat
  said : List OutputEvent

namespace Shown

/-- The logical position counts, and then the geometry. -/
def position (d : Shown) : Int × Int :=
  ((lastSaid OutputEvent.logicalPosition? d.said).or (lastSaid OutputEvent.geometry? d.said)).getD (0, 0)

/-- The logical size counts, and then the current mode. -/
def size (d : Shown) : Int × Int :=
  ((lastSaid OutputEvent.logicalSize? d.said).or (lastSaid OutputEvent.currentMode? d.said)).getD (0, 0)

def corners (d : Shown) : (Int × Int) × (Int × Int) :=
  (d.position, (d.position.1 + d.size.1, d.position.2 + d.size.2))

def hears (d : Shown) : OutputEvent → Bool
  | .wl wlOutput _ => d.wlOutput = wlOutput
  | .xdg xdgOutput _ => d.xdgOutput = some xdgOutput

def tell (ev : OutputEvent) (d : Shown) : Shown := if d.hears ev then { d with said := d.said ++ [ev] } else d

def bind (getXdgOutput : Nat → Nat) (d : Shown) : Shown :=
  { d with xdgOutput := d.xdgOutput.or (some (getXdgOutput d.wlOutput)) }

/-- What its two objects said, each in its order. -/
def streams (d : Shown) : List WlOutputEvent × List XdgOutputEvent :=
  (d.said.filterMap fun | .wl _ ev => some ev | .xdg .. => none,
    d.said.filterMap fun | .wl .. => none | .xdg _ ev => some ev)

end Shown

/-- What the compositor shows, in the order in which it was announced, and whether it was asked for the manager of the
logical sizes. -/
structure Scene where
  manager : Bool
  shown : List Shown

namespace Scene

def empty : Scene := ⟨false, []⟩

def next (sc : Scene) : WaylandEvent → Scene
  | .output ev => { sc with shown := sc.shown.map (Shown.tell ev) }
  | .global _ (.outputManager version getXdgOutput) =>
    if version < 3 then sc else ⟨true, sc.shown.map (Shown.bind getXdgOutput)⟩
  | .global name (.output wlOutput xdgOutput _) =>
    { sc with shown := sc.shown ++ [⟨name, wlOutput, if sc.manager then some xdgOutput else none, []⟩] }
  | .globalRemove name => { sc with shown := sc.shown.filter fun d => d.name ≠ name }

def after (sc : Scene) (evs : List WaylandEvent) : Scene := evs.foldl next sc

/-- A name and an object are new when they are announced; and the head of the list is only removed when it is alone. -/
def Orderly (sc : Scene) : WaylandEvent → Prop
  | .output _ => True
  | .global _ (.outputManager _ getXdgOutput) =>
    sc.manager = false → (sc.shown.map fun d => getXdgOutput d.wlOutput).Nodup
  | .global name (.output wlOutput xdgOutput _) =>
    ∀ d ∈ sc.shown, d.name ≠ name ∧ d.wlOutput ≠ wlOutput ∧ d.xdgOutput ≠ some xdgOutput
  | .globalRemove name => ∀ d ds, sc.shown = d :: ds → d.name = name → ds = []

def AllOrderly (sc : Scene) : List WaylandEvent → Prop
  | [] => True
  | ev :: evs => sc.Orderly ev ∧ (sc.next ev).AllOrderly evs

/-- The width and the height of the hull of the origin and what is shown; none if an `int` does not hold them. -/
def size (sc : Scene) : Option (Int × Int) :=
  let size := boxSize (hull 0 (sc.shown.map Shown.corners))
  if (∀ d ∈ sc.shown, IntFits d.corners.2.2 ∧ IntFits d.corners.2.1) ∧ IntFits size.1 ∧ IntFits size.2 then some size
  else none

/-- No two outputs have the same name or the same object, and all have an `xdg_output`, or none has. -/
structure Proper (sc : Scene) : Prop where
  name : (sc.shown.map Shown.name).Nodup
  wl : (sc.shown.map Shown.wlOutput).Nodup
  xdg : (sc.shown.filterMap Shown.xdgOutput).Nodup
  bound : ∀ d ∈ sc.shown, d.xdgOutput.isSome = sc.manager

end Scene

/-- `wl_display_dispatch`, any number of times. -/
def dispatch : List WaylandEvent → Wayland Unit
  | [] => pure ()
  | ev :: evs => do
    ev.handle
    dispatch evs

/-! ### One output -/

variable {o : WlOutput} {d : Shown} {ev : OutputEvent} {ns : List (Nat × WlOutput)} {s : WlContext} {sc : Scene}

/-- The output of the list is the one that is shown. -/
structure Shown.Is (d : Shown) (o : WlOutput) : Prop where
  wlName : o.wlName = d.name
  wlOutput : o.wlOutput = d.wlOutput
  xdgOutput : o.xdgOutput = d.xdgOutput
  haveLogPos : o.haveLogPos = (lastSaid OutputEvent.logicalPosition? d.said).isSome
  haveLogSize : o.haveLogSize = (lastSaid OutputEvent.logicalSize? d.said).isSome
  position : (o.x, o.y) = d.position
  size : (o.width, o.height) = d.size

theorem wlName_apply : (ev.apply o).wlName = o.wlName := by
  cases ev with
  | wl _ ev =>
    cases ev with
    | geometry => cases h : o.haveLogPos <;> simp [OutputEvent.apply, h]
    | mode flags => cases h : o.haveLogSize <;> by_cases hc : flags &&& wlOutputModeCurrent = 0 <;>
        simp [OutputEvent.apply, h, hc]
    | scale | done => rfl
  | xdg _ ev => cases ev <;> rfl

namespace Shown.Is

theorem hears_eq (h : d.Is o) (ev : OutputEvent) : d.hears ev = ev.isFor o := by
  cases ev with
  | wl => simp only [Shown.hears, OutputEvent.isFor, h.wlOutput]
  | xdg => simp only [Shown.hears, OutputEvent.isFor, h.xdgOutput]

theorem tell (h : d.Is o) (ev : OutputEvent) : (d.tell ev).Is (o.on ev) := by
  unfold Shown.tell WlOutput.on
  rw [h.hears_eq]
  split
  · refine ⟨wlName_apply.trans h.wlName, objects_apply.1.trans h.wlOutput, objects_apply.2.trans h.xdgOutput, ?_, ?_,
      ?_, ?_⟩
    · rw [position_apply.2, h.haveLogPos, lastSaid_concat, Option.isSome_or]
    · rw [size_apply.2, h.haveLogSize, lastSaid_concat, Option.isSome_or]
    · rw [position_apply.1, h.position, h.haveLogPos, Shown.position, Shown.position, lastSaid_concat, lastSaid_concat]
      cases ev.logicalPosition? with
      | some p => rfl
      | none =>
        cases lastSaid OutputEvent.logicalPosition? d.said with
        | some p => rfl
        | none => cases ev.geometry? <;> rfl
    · rw [size_apply.1, h.size, h.haveLogSize, Shown.size, Shown.size, lastSaid_concat, lastSaid_concat]
      cases ev.logicalSize? with
      | some p => rfl
      | none =>
        cases lastSaid OutputEvent.logicalSize? d.said with
        | some p => rfl
        | none => cases ev.currentMode? <;> rfl
  · exact h

theorem bind (h : d.Is o) (getXdgOutput : Nat → Nat) : (d.bind getXdgOutput).Is (o.bindXdg getXdgOutput) := by
  have hxdg := h.xdgOutput
  unfold WlOutput.bindXdg
  rw [hxdg]
  cases hd : d.xdgOutput with
  | none =>
    refine ⟨h.wlName, h.wlOutput, ?_, h.haveLogPos, h.haveLogSize, h.position, h.size⟩
    rw [Shown.bind, hd, ← h.wlOutput]
    rfl
  | some x =>
    refine ⟨h.wlName, h.wlOutput, ?_, h.haveLogPos, h.haveLogSize, h.position, h.size⟩
    rw [Shown.bind, hd]
    exact hxdg.trans hd

theorem new (name wlOutput : Nat) (xdgOutput : Option Nat) :
    (⟨name, wlOutput, xdgOutput, []⟩ : Shown).Is (.new wlOutput xdgOutput name) := ⟨rfl, rfl, rfl, rfl, rfl, rfl, rfl⟩

theorem corners (h : d.Is o) : o.corners = d.corners := by
  have hpos := h.position
  have hsize := h.size
  unfold WlOutput.corners Shown.corners
  rw [← hpos, ← hsize]

end Shown.Is

/-! ### The list -/

/-- The outputs of the list are those that are shown. -/
def Scene.Lists (sc : Scene) (ns : List (Nat × WlOutput)) : Prop := List.Forall₂ (fun d n => d.Is n.2) sc.shown ns

theorem Scene.Lists.map_eq {β : Type} {f : Shown → β} {g : WlOutput → β} (h : sc.Lists ns)
    (hfg : ∀ d o, Shown.Is d o → f d = g o) : sc.shown.map f = ns.map fun n => g n.2 := by
  have heq : List.Forall₂ (· = ·) (sc.shown.map f) (ns.map fun n => g n.2) := by
    rw [List.forall₂_map_left_iff, List.forall₂_map_right_iff]
    exact List.Forall₂.imp (R := fun (d : Shown) (n : Nat × WlOutput) => d.Is n.2) (fun d n => hfg d n.2) h
  rwa [List.forall₂_eq_eq_eq] at heq

/-- Where no two outputs have the object of an event, it is an event of all that have it. -/
theorem onList_eq_of_pairwise (h : ns.Pairwise fun n n' => ¬ (ev.isFor n.2 = true ∧ ev.isFor n'.2 = true)) :
    ev.onList ns = ns.map fun n => (n.1, n.2.on ev) := by
  induction ns with
  | nil => rfl
  | cons n ns ih =>
    obtain ⟨hn, hns⟩ := List.pairwise_cons.mp h
    rw [OutputEvent.onList, List.map_cons, ih hns]
    unfold WlOutput.on
    split
    · rename_i hfor
      have hsame : ns.map (fun n => (n.1, if ev.isFor n.2 = true then ev.apply n.2 else n.2)) = ns := by
        refine (List.map_congr_left fun n' hn' => ?_).trans (List.map_id ns)
        rw [if_neg fun hfor' => hn n' hn' ⟨hfor, hfor'⟩]
        rfl
      rw [hsame]
    · rfl

theorem Scene.Proper.pairwise (hp : sc.Proper) (h : sc.Lists ns) (ev : OutputEvent) :
    ns.Pairwise fun n n' => ¬ (ev.isFor n.2 = true ∧ ev.isFor n'.2 = true) := by
  have hshown : sc.shown.Pairwise fun d d' => ¬ (d.hears ev = true ∧ d'.hears ev = true) := by
    cases ev with
    | wl w =>
      refine (List.pairwise_map.mp hp.wl).imp ?_
      rintro d d' hne ⟨hd, hd'⟩
      exact hne ((of_decide_eq_true hd).trans (of_decide_eq_true hd').symm)
    | xdg x =>
      refine (List.pairwise_filterMap.mp hp.xdg).imp ?_
      rintro d d' hne ⟨hd, hd'⟩
      exact hne x (of_decide_eq_true hd) x (of_decide_eq_true hd') rfl
  have hmap := h.map_eq (f := fun d => d.hears ev) (g := fun o => ev.isFor o) fun d o hd => hd.hears_eq ev
  have hears : (sc.shown.map fun d => d.hears ev).Pairwise fun b b' => ¬ (b = true ∧ b' = true) :=
    List.pairwise_map.mpr hshown
  rw [hmap] at hears
  exact List.pairwise_map.mp hears

/-! ### What stays proper -/

theorem Shown.objects_tell (d : Shown) (ev : OutputEvent) :
    (d.tell ev).name = d.name ∧ (d.tell ev).wlOutput = d.wlOutput ∧ (d.tell ev).xdgOutput = d.xdgOutput := by
  unfold Shown.tell
  split <;> exact ⟨rfl, rfl, rfl⟩

theorem Scene.Proper.next (hp : sc.Proper) {ev : WaylandEvent} (hev : sc.Orderly ev) : (sc.next ev).Proper := by
  cases ev with
  | output ev =>
    have hname : Shown.name ∘ Shown.tell ev = Shown.name := funext fun d => (d.objects_tell ev).1
    have hwl : Shown.wlOutput ∘ Shown.tell ev = Shown.wlOutput := funext fun d => (d.objects_tell ev).2.1
    have hxdg : Shown.xdgOutput ∘ Shown.tell ev = Shown.xdgOutput := funext fun d => (d.objects_tell ev).2.2
    refine ⟨?_, ?_, ?_, ?_⟩
    · show ((sc.shown.map (Shown.tell ev)).map Shown.name).Nodup
      rw [List.map_map, hname]
      exact hp.name
    · show ((sc.shown.map (Shown.tell ev)).map Shown.wlOutput).Nodup
      rw [List.map_map, hwl]
      exact hp.wl
    · show ((sc.shown.map (Shown.tell ev)).filterMap Shown.xdgOutput).Nodup
      rw [List.filterMap_map, hxdg]
      exact hp.xdg
    · intro d hd
      obtain ⟨d, hd', rfl⟩ := List.mem_map.mp hd
      rw [(d.objects_tell ev).2.2]
      exact hp.bound d hd'
  | global name g =>
    cases g with
    | outputManager version getXdgOutput =>
      unfold Scene.next
      dsimp only
      split
      · exact hp
      · refine ⟨?_, ?_, ?_, ?_⟩
        · show ((sc.shown.map (Shown.bind getXdgOutput)).map Shown.name).Nodup
          rw [List.map_map]
          exact hp.name
        · show ((sc.shown.map (Shown.bind getXdgOutput)).map Shown.wlOutput).Nodup
          rw [List.map_map]
          exact hp.wl
        · show ((sc.shown.map (Shown.bind getXdgOutput)).filterMap Shown.xdgOutput).Nodup
          rw [List.filterMap_map]
          cases hmanager : sc.manager with
          | true =>
            have hsame : ∀ d ∈ sc.shown, (Shown.xdgOutput ∘ Shown.bind getXdgOutput) d = d.xdgOutput := by
              intro d hd
              obtain ⟨x, hx⟩ := Option.isSome_iff_exists.mp ((hp.bound d hd).trans hmanager)
              simp [Shown.bind, hx]
            rw [List.filterMap_congr hsame]
            exact hp.xdg
          | false =>
            have hnew : ∀ d ∈ sc.shown, (Shown.xdgOutput ∘ Shown.bind getXdgOutput) d =
                some (getXdgOutput d.wlOutput) := by
              intro d hd
              have hx := Option.isSome_eq_false_iff.mp ((hp.bound d hd).trans hmanager)
              simp [Shown.bind, Option.isNone_iff_eq_none.mp hx]
            rw [List.filterMap_congr hnew, List.filterMap_eq_map']
            exact hev hmanager
        · intro d hd
          obtain ⟨d, -, rfl⟩ := List.mem_map.mp hd
          simp [Shown.bind]
    | output wlOutput xdgOutput block =>
      refine ⟨?_, ?_, ?_, ?_⟩
      · show ((sc.shown ++ [_]).map Shown.name).Nodup
        rw [List.map_append, List.nodup_append]
        refine ⟨hp.name, List.nodup_singleton _, ?_⟩
        rintro _ ha _ hb rfl
        obtain ⟨d, hd, hname⟩ := List.mem_map.mp ha
        exact (hev d hd).1 (hname.trans (List.mem_singleton.mp hb))
      · show ((sc.shown ++ [_]).map Shown.wlOutput).Nodup
        rw [List.map_append, List.nodup_append]
        refine ⟨hp.wl, List.nodup_singleton _, ?_⟩
        rintro _ ha _ hb rfl
        obtain ⟨d, hd, hwl⟩ := List.mem_map.mp ha
        exact (hev d hd).2.1 (hwl.trans (List.mem_singleton.mp hb))
      · show ((sc.shown ++ [_]).filterMap Shown.xdgOutput).Nodup
        rw [List.filterMap_append]
        cases sc.manager with
        | false =>
          rw [show ([(⟨name, wlOutput, if false = true then some xdgOutput else none, []⟩ : Shown)].filterMap
            Shown.xdgOutput) = [] from rfl, List.append_nil]
          exact hp.xdg
        | true =>
          rw [List.nodup_append]
          refine ⟨hp.xdg, List.nodup_singleton _, ?_⟩
          rintro _ ha _ hb rfl
          obtain ⟨d, hd, hxdg⟩ := List.mem_filterMap.mp ha
          refine (hev d hd).2.2 ?_
          rw [hxdg, List.mem_singleton.mp hb]
      · intro d hd
        rcases List.mem_append.mp hd with hd | hd
        · exact hp.bound d hd
        · rw [List.mem_singleton.mp hd]
          show (if sc.manager = true then some xdgOutput else none).isSome = sc.manager
          cases sc.manager <;> rfl
  | globalRemove name =>
    have hsub : (sc.next (.globalRemove name)).shown.Sublist sc.shown := List.filter_sublist
    exact ⟨hp.name.sublist (hsub.map _), hp.wl.sublist (hsub.map _), hp.xdg.sublist (hsub.filterMap _),
      fun d hd => hp.bound d (hsub.subset hd)⟩

theorem Scene.proper_empty : Scene.empty.Proper :=
  ⟨List.nodup_nil, List.nodup_nil, List.nodup_nil, fun d hd => by cases hd⟩

/-! ### One event -/

/-- The client knows what is shown. -/
structure Scene.Known (sc : Scene) (s : WlContext) : Prop where
  manager : s.outputManager = sc.manager
  lists : ∃ ns, s.Lists ns ∧ sc.Lists ns

/-- The first output with a name is the only one, and it is the head only if it is alone. -/
theorem removed_eq {n : Nat × WlOutput} {name : Nat} (hp : sc.Proper) (h : s.Lists ns) (hns : sc.Lists ns)
    (hev : sc.Orderly (.globalRemove name)) (hfind : ns.find? (fun n => n.2.wlName = name) = some n) :
    (if s.outputs = some n.1 then [] else ns.filter fun n' => n'.1 ≠ n.1) = ns.filter fun n => n.2.wlName ≠ name := by
  have hmem : n ∈ ns := List.mem_of_find?_eq_some hfind
  have hname : n.2.wlName = name := by simpa using List.find?_some hfind
  have hnames : (ns.map fun n => n.2.wlName).Nodup := by
    rw [← hns.map_eq (f := Shown.name) fun d o hd => hd.wlName.symm]
    exact hp.name
  have hsame : ∀ n' ∈ ns, n'.1 = n.1 ↔ n'.2.wlName = name := by
    intro n' hn'
    constructor
    · intro haddr
      rw [List.inj_on_of_nodup_map h.nodup hn' hmem haddr, hname]
    · intro hname'
      rw [List.inj_on_of_nodup_map hnames hn' hmem (hname'.trans hname.symm)]
  split
  · rename_i hhead
    unfold WlContext.Lists at h
    rw [hhead] at h
    -- the head of the list is the output, and so it is alone
    cases h with
    | @cons a v p _ ns hc ht =>
      have hn : (n.1, v) = n := List.inj_on_of_nodup_map (Seg.cons hc ht).nodup List.mem_cons_self hmem rfl
      obtain ⟨d, ds, hd, hds, hshown⟩ := List.forall₂_cons_right_iff.mp hns
      obtain rfl : ds = [] := hev d ds hshown (by rw [← hd.wlName, ← hname, ← hn])
      obtain rfl : ns = [] := List.forall₂_nil_left_iff.mp hds
      rw [hn]
      simp [hname]
  · exact List.filter_congr fun n' hn' => decide_eq_decide.mpr (not_congr (hsame n' hn'))

theorem Scene.Known.handle (hp : sc.Proper) (h : sc.Known s) {ev : WaylandEvent} (hev : sc.Orderly ev) :
    wp ev.handle (fun _ s' => (sc.next ev).Known s') (fun stop _ => stop ≠ .dangling) s := by
  obtain ⟨hmanager, ns, hlist, hns⟩ := h
  cases ev with
  | output ev =>
    refine wp_mono (ev.handle_spec hlist) ?_ fun _ _ => False.elim
    rintro _ s' ⟨hlist', hmanager', -⟩
    refine ⟨hmanager'.trans hmanager, _, hlist', ?_⟩
    rw [onList_eq_of_pairwise (hp.pairwise hns ev)]
    show List.Forall₂ _ (sc.shown.map (Shown.tell ev)) _
    rw [List.forall₂_map_left_iff, List.forall₂_map_right_iff]
    exact List.Forall₂.imp (R := fun (d : Shown) (n : Nat × WlOutput) => d.Is n.2) (fun d n hd => hd.tell ev) hns
  | global name g =>
    cases g with
    | outputManager version getXdgOutput =>
      show wp (handleGlobal name (.outputManager version getXdgOutput)) _ _ s
      unfold handleGlobal Scene.next
      dsimp only
      rw [wp_ite]
      split
      · exact ⟨hmanager, ns, hlist, hns⟩
      · obtain ⟨mem, hmap, hlist', -⟩ := hlist.map_spec (WlOutput.bindXdg getXdgOutput)
        rw [wp_bind, wp_modify, wp_bind, wp_get]
        dsimp only
        rw [hmap]
        refine ⟨rfl, _, hlist', ?_⟩
        show List.Forall₂ _ (sc.shown.map (Shown.bind getXdgOutput)) _
        rw [List.forall₂_map_left_iff, List.forall₂_map_right_iff]
        exact List.Forall₂.imp (R := fun (d : Shown) (n : Nat × WlOutput) => d.Is n.2)
          (fun d n hd => hd.bind getXdgOutput) hns
    | output wlOutput xdgOutput block =>
      show wp (handleGlobal name (.output wlOutput xdgOutput block)) _ _ s
      unfold handleGlobal
      rw [wp_bind, wp_get]
      cases block with
      | none => exact (by simp : OutputStop.abort ≠ .dangling)
      | some a =>
        refine wp_mono (wlOutputAppend_spec hlist a wlOutput _ name) ?_ ?_
        swap
        · rintro stop _ ⟨rfl, -⟩
          simp
        rintro _ s' ⟨hlist', hsame⟩
        refine ⟨hsame.outputManager.trans hmanager, _, hlist', ?_⟩
        rw [hmanager]
        exact List.rel_append hns (.cons (.new name wlOutput _) .nil)
  | globalRemove name =>
    show wp (handleGlobalRemove name) _ _ s
    have hkept : ∀ {ns'}, ns' = ns.filter (fun n => n.2.wlName ≠ name) → (sc.next (.globalRemove name)).Lists ns' := by
      rintro _ rfl
      refine List.rel_filter (R := fun (d : Shown) (n : Nat × WlOutput) => d.Is n.2) ?_ hns
      intro d n hd
      simp [hd.wlName]
    unfold handleGlobalRemove
    rw [wp_bind, wp_wlOutputGetWlName hlist]
    cases hfind : ns.find? fun n => n.2.wlName = name with
    | none =>
      refine ⟨hmanager, ns, hlist, hkept (List.filter_eq_self.mpr fun n hn => ?_).symm⟩
      simpa using List.find?_eq_none.mp hfind n hn
    | some n =>
      rw [Option.map_some]
      dsimp only
      rw [wp_bind]
      refine wp_mono (wlOutputRemove_spec hlist n.1) ?_ fun _ _ => False.elim
      rintro _ s' ⟨hlist', hsame⟩
      rw [removed_eq hp hlist hns hev hfind] at hlist'
      unfold callOnOutputUpdate
      rw [wp_bind, wp_modify, wp_bind, wp_get, wp_ite]
      split
      · exact ⟨hsame.outputManager.trans hmanager, _, hlist', hkept rfl⟩
      · exact (by simp : OutputStop.nullCall ≠ .dangling)

/-! ### The size that is told -/

theorem desktopSize_corners {os : List WlOutput} (hcorners : os.map WlOutput.corners = sc.shown.map Shown.corners) :
    desktopSize os = sc.size := by
  have hfits : (∀ o ∈ os, o.Fits) ↔ ∀ d ∈ sc.shown, IntFits d.corners.2.2 ∧ IntFits d.corners.2.1 := by
    have hos : (∀ o ∈ os, o.Fits) ↔ ∀ c ∈ os.map WlOutput.corners, IntFits c.2.2 ∧ IntFits c.2.1 := by
      rw [List.forall_mem_map]
      exact Iff.rfl
    rw [hos, hcorners, List.forall_mem_map]
  refine Option.ext fun size => ?_
  obtain ⟨w, h⟩ := size
  rw [desktopSize_eq_some, hfits, hcorners]
  unfold Scene.size
  dsimp only
  split
  · rename_i hall
    rw [Option.some_inj]
    constructor
    · rintro ⟨-, heq, -⟩
      exact heq.symm
    · rintro heq
      rw [heq] at hall
      exact ⟨hall.1, heq.symm, hall.2⟩
  · rename_i hno
    refine iff_of_false ?_ (by simp)
    rintro ⟨hall, heq, hw, hh⟩
    rw [← heq] at hno
    exact hno ⟨hall, hw, hh⟩

/-- What the callback for the size does where the client knows the scene. -/
theorem Scene.Known.update (h : sc.Known s) (sent : Bool) : wlOutputUpdateCb s.mem s.outputs sent =
    some (match sc.size with
      | none => throw (.fault .overflow)
      | some (width, height) => uSynergyUpdateRes sent (int16OfInt width) (int16OfInt height)) := by
  obtain ⟨-, ns, hlist, hns⟩ := h
  have hcorners : (ns.map Prod.snd).map WlOutput.corners = sc.shown.map Shown.corners := by
    rw [List.map_map]
    exact (hns.map_eq fun d o hd => hd.corners.symm).symm
  unfold wlOutputUpdateCb
  rw [← desktopSize_corners hcorners, hlist.fold_eq, Option.map_some, ← List.foldl_map]
  rfl

/-! ### All events -/

theorem Scene.Known.dispatch (hp : sc.Proper) (h : sc.Known s) {evs : List WaylandEvent} (hevs : sc.AllOrderly evs) :
    wp (dispatch evs) (fun _ s' => (sc.after evs).Proper ∧ (sc.after evs).Known s') (fun stop _ => stop ≠ .dangling)
      s := by
  induction evs generalizing sc s with
  | nil => exact ⟨hp, h⟩
  | cons ev evs ih =>
    obtain ⟨hev, hevs⟩ := hevs
    unfold Waynergy.dispatch
    rw [wp_bind]
    exact wp_mono (h.handle hp hev) (fun _ s' h' => ih (hp.next hev) h' hevs) fun _ _ => id

theorem Scene.known_init (onOutputUpdate : Bool) : Scene.empty.Known (.init onOutputUpdate) :=
  ⟨rfl, [], .nil none, .nil⟩

/-- In whatever order the globals are announced and the events come, the list of the outputs is what is shown, each with
what its last events say, and each with an `xdg_output` as soon as there is a manager; the size that is computed is
that of the hull; and no pointer is followed that points to no output. -/
theorem scene_known (onOutputUpdate : Bool) {evs : List WaylandEvent} (hevs : Scene.empty.AllOrderly evs) :
    wp (dispatch evs)
      (fun _ s => ∃ ns, s.Lists ns ∧
        ns.map (fun n => (n.2.wlName, (n.2.x, n.2.y), (n.2.width, n.2.height))) =
          (Scene.empty.after evs).shown.map (fun d => (d.name, d.position, d.size)) ∧
        (∀ n ∈ ns, n.2.xdgOutput.isSome = s.outputManager) ∧
        ∀ sent, wlOutputUpdateCb s.mem s.outputs sent = some (match (Scene.empty.after evs).size with
          | none => throw (.fault .overflow)
          | some (width, height) => uSynergyUpdateRes sent (int16OfInt width) (int16OfInt height)))
      (fun stop _ => stop ≠ .dangling) (.init onOutputUpdate) := by
  refine wp_mono ((Scene.known_init onOutputUpdate).dispatch Scene.proper_empty hevs) ?_ fun _ _ => id
  rintro _ s ⟨hp, h⟩
  obtain ⟨hmanager, ns, hlist, hns⟩ := h
  have hmap := hns.map_eq (f := fun d => (d.name, d.position, d.size))
    (g := fun o => (o.wlName, (o.x, o.y), (o.width, o.height))) fun d o hd => by rw [hd.wlName, hd.position, hd.size]
  refine ⟨ns, hlist, hmap.symm, ?_, Scene.Known.update ⟨hmanager, ns, hlist, hns⟩⟩
  · intro n hn
    have hxdg := hns.map_eq (f := Shown.xdgOutput) fun d o hd => hd.xdgOutput.symm
    have hmem : n.2.xdgOutput ∈ (Scene.empty.after evs).shown.map Shown.xdgOutput := by
      rw [hxdg]
      exact List.mem_map_of_mem hn
    obtain ⟨d, hd, heq⟩ := List.mem_map.mp hmem
    rw [← heq, hp.bound d hd, hmanager]

/-- Two outputs: the manager comes after the first one. -/
def Scene.late : List WaylandEvent :=
  [.global 7 (.output 11 21 (some 1)), .output (.wl 11 (.mode 1 1920 1080)), .global 8 (.outputManager 3 (· + 10)),
    .output (.xdg 21 (.logicalPosition 100 0)), .output (.xdg 21 (.logicalSize 960 540)),
    .global 9 (.output 12 22 (some 2)), .output (.wl 12 (.mode 1 800 600))]

theorem Scene.allOrderly_late : Scene.empty.AllOrderly Scene.late := by
  simp [AllOrderly, Orderly, empty, next, late, Shown.tell, Shown.hears, Shown.bind]

theorem scene_known_late : ∃ s ns, (dispatch Scene.late).run (.init true) = .ok () s ∧ s.Lists ns ∧
    ns.map (fun n => (n.2.wlName, (n.2.x, n.2.y), (n.2.width, n.2.height))) =
      [(7, (100, 0), (960, 540)), (9, (0, 0), (800, 600))] ∧
    ∀ sent, wlOutputUpdateCb s.mem s.outputs sent = some (uSynergyUpdateRes sent 1060 600) := by
  obtain ⟨s, hrun⟩ : ∃ s, (dispatch Scene.late).run (.init true) = .ok () s := ⟨_, rfl⟩
  obtain ⟨ns, hlist, hns, -, hsize⟩ := wp_ok (scene_known true Scene.allOrderly_late) hrun
  exact ⟨s, ns, hrun, hlist, hns, hsize⟩

/-! ### The order does not matter -/

/-- Only the events of one kind say it, whatever their object is called. -/
theorem lastSaid_xdg {f : OutputEvent → Option (Int × Int)} (hwl : ∀ w ev, f (.wl w ev) = none)
    (hxdg : ∀ x ev, f (.xdg x ev) = f (.xdg 0 ev)) (d : Shown) :
    lastSaid f d.said = lastSaid f (d.streams.2.map (.xdg 0)) := by
  obtain ⟨name, wl, xdg, said⟩ := d
  unfold Shown.streams
  dsimp only
  induction said using List.reverseRecOn with
  | nil => rfl
  | append_singleton said ev ih =>
    rw [lastSaid_concat, List.filterMap_append, List.map_append, ih]
    cases ev with
    | wl w ev =>
      rw [hwl]
      simp
    | xdg x ev =>
      rw [hxdg]
      exact (lastSaid_concat f _ _).symm

theorem lastSaid_wl {f : OutputEvent → Option (Int × Int)} (hxdg : ∀ x ev, f (.xdg x ev) = none)
    (hwl : ∀ w ev, f (.wl w ev) = f (.wl 0 ev)) (d : Shown) :
    lastSaid f d.said = lastSaid f (d.streams.1.map (.wl 0)) := by
  obtain ⟨name, wl, xdg, said⟩ := d
  unfold Shown.streams
  dsimp only
  induction said using List.reverseRecOn with
  | nil => rfl
  | append_singleton said ev ih =>
    rw [lastSaid_concat, List.filterMap_append, List.map_append, ih]
    cases ev with
    | wl w ev =>
      rw [hwl]
      exact (lastSaid_concat f _ _).symm
    | xdg x ev =>
      rw [hxdg]
      simp

theorem Shown.corners_streams {d d' : Shown} (h : d.streams = d'.streams) : d.corners = d'.corners := by
  have hpos : lastSaid OutputEvent.logicalPosition? d.said = lastSaid OutputEvent.logicalPosition? d'.said := by
    rw [lastSaid_xdg (fun _ _ => rfl) (fun _ ev => by cases ev <;> rfl),
      lastSaid_xdg (fun _ _ => rfl) (fun _ ev => by cases ev <;> rfl), h]
  have hsize : lastSaid OutputEvent.logicalSize? d.said = lastSaid OutputEvent.logicalSize? d'.said := by
    rw [lastSaid_xdg (fun _ _ => rfl) (fun _ ev => by cases ev <;> rfl),
      lastSaid_xdg (fun _ _ => rfl) (fun _ ev => by cases ev <;> rfl), h]
  have hgeometry : lastSaid OutputEvent.geometry? d.said = lastSaid OutputEvent.geometry? d'.said := by
    rw [lastSaid_wl (fun _ _ => rfl) (fun _ ev => by cases ev <;> rfl),
      lastSaid_wl (fun _ _ => rfl) (fun _ ev => by cases ev <;> rfl), h]
  have hmode : lastSaid OutputEvent.currentMode? d.said = lastSaid OutputEvent.currentMode? d'.said := by
    rw [lastSaid_wl (fun _ _ => rfl) (fun _ ev => by cases ev <;> rfl),
      lastSaid_wl (fun _ _ => rfl) (fun _ ev => by cases ev <;> rfl), h]
  unfold Shown.corners Shown.position Shown.size
  rw [hpos, hsize, hgeometry, hmode]

theorem Scene.size_perm {sc sc' : Scene} (h : (sc.shown.map Shown.corners).Perm (sc'.shown.map Shown.corners)) :
    sc.size = sc'.size := by
  have hfits : (∀ d ∈ sc.shown, IntFits d.corners.2.2 ∧ IntFits d.corners.2.1) ↔
      ∀ d ∈ sc'.shown, IntFits d.corners.2.2 ∧ IntFits d.corners.2.1 := by
    have hall : ∀ sc : Scene, (∀ d ∈ sc.shown, IntFits d.corners.2.2 ∧ IntFits d.corners.2.1) ↔
        ∀ c ∈ sc.shown.map Shown.corners, IntFits c.2.2 ∧ IntFits c.2.1 := by
      intro sc
      rw [List.forall_mem_map]
    rw [hall, hall]
    exact ⟨fun hc c hm => hc c (h.mem_iff.mpr hm), fun hc c hm => hc c (h.mem_iff.mp hm)⟩
  unfold Scene.size
  simp only [hull_perm h, hfits]

/-- Two orders of the same announcements and events, with other numbers for the names and the objects: the outputs that
are shown have said the same, and so the server is told the same size. -/
theorem size_of_streams {onOutputUpdate onOutputUpdate' : Bool} {evs evs' : List WaylandEvent} {s s' : WlContext}
    (hevs : Scene.empty.AllOrderly evs) (hevs' : Scene.empty.AllOrderly evs')
    (hrun : (dispatch evs).run (.init onOutputUpdate) = .ok () s)
    (hrun' : (dispatch evs').run (.init onOutputUpdate') = .ok () s')
    (hsaid : ((Scene.empty.after evs).shown.map Shown.streams).Perm ((Scene.empty.after evs').shown.map Shown.streams))
    (sent : Bool) : wlOutputUpdateCb s.mem s.outputs sent = wlOutputUpdateCb s'.mem s'.outputs sent := by
  obtain ⟨-, hknown⟩ := wp_ok ((Scene.known_init onOutputUpdate).dispatch Scene.proper_empty hevs) hrun
  obtain ⟨-, hknown'⟩ := wp_ok ((Scene.known_init onOutputUpdate').dispatch Scene.proper_empty hevs') hrun'
  have hcorners : ∀ sc : Scene, sc.shown.map Shown.corners =
      (sc.shown.map Shown.streams).map fun st => Shown.corners ⟨0, 0, none, st.1.map (.wl 0) ++ st.2.map (.xdg 0)⟩ := by
    intro sc
    rw [List.map_map]
    refine List.map_congr_left fun d _ => Shown.corners_streams ?_
    simp [Shown.streams, List.filterMap_append, List.filterMap_map]
  have hsize : (Scene.empty.after evs).size = (Scene.empty.after evs').size := by
    refine Scene.size_perm ?_
    rw [hcorners, hcorners]
    exact hsaid.map _
  rw [hknown.update, hknown'.update, hsize]

/-- The same two outputs, announced after the manager, the other one first. -/
def Scene.early : List WaylandEvent :=
  [.global 1 (.outputManager 3 (· + 5)), .global 2 (.output 31 41 (some 5)), .global 3 (.output 32 42 (some 6)),
    .output (.wl 31 (.mode 1 800 600)), .output (.xdg 42 (.logicalPosition 100 0)), .output (.wl 32 (.mode 1 1920 1080)),
    .output (.xdg 42 (.logicalSize 960 540))]

theorem Scene.allOrderly_early : Scene.empty.AllOrderly Scene.early := by
  simp [AllOrderly, Orderly, empty, next, early]

theorem size_of_streams_late : ∃ s s', (dispatch Scene.late).run (.init true) = .ok () s ∧
    (dispatch Scene.early).run (.init true) = .ok () s' ∧
    ∀ sent, wlOutputUpdateCb s.mem s.outputs sent = wlOutputUpdateCb s'.mem s'.outputs sent := by
  obtain ⟨s, s', hrun, hrun'⟩ : ∃ s s', (dispatch Scene.late).run (.init true) = .ok () s ∧
      (dispatch Scene.early).run (.init true) = .ok () s' := ⟨_, _, rfl, rfl⟩
  exact ⟨s, s', hrun, hrun', size_of_streams Scene.allOrderly_late Scene.allOrderly_early hrun hrun' (.swap _ _ [])⟩

end Waynergy
