import Waynergy.InputTables
import Waynergy.DesktopSize
import Waynergy.Calls
import Mathlib.Data.Multiset.Sort

/-!
# From the client to the backend (`main.c`, `wl_input.c`, `wl_idle_ext.c`, `wl_idle_kde.c`)

The callbacks of `main` pass on what the client tells them, through the tables of the input, as calls of the backend;
the idle inhibitor and a change of the outputs make calls of their own. `follow` says which calls are to
be made: it knows nothing of the tables but the layout, and of the keys what is held.
-/

namespace Waynergy
open Lib

/-! ### What happens -/

/-- The client tells a callback something, the compositor finds the seat idle, or the outputs have another size. -/
inductive Cause
  | told (ev : Event)
  | idleMouse
  | idleKey (keyRaw : Int) (key : Nat)
  | resized (screen : Screen)

/-- `on_idle_key` -/
def onIdleKey (h : Heap) (keyRaw : Int) (key : Nat) : Keys Unit :=
  if keyRaw ≠ -1 then do
    wlKeyRaw h keyRaw true
    wlKeyRaw h keyRaw false
  else do
    wlKey h key 0 true
    wlKey h key 0 false

namespace Cause

/-- What goes through the tables. -/
def toInputs (h : Heap) : Cause → Proc InputStop Inputs Unit
  | told ev => inputCallback h ev
  | idleKey keyRaw key => onKeys (onIdleKey h keyRaw key)
  | idleMouse | resized _ => pure ()

/-- What does not: `syn_mouse_wheel_cb`, `syn_mouse_move_cb`, `on_idle_mouse` and `wlResUpdate`. -/
def direct : Cause → List InputCall
  | told (.mouseWheel x y) => [.mouseWheel (int16OfInt x) (int16OfInt y)]
  | told (.mouseMove true x y) => [.mouseRelMotion (int16OfInt x) (int16OfInt y)]
  | told (.mouseMove false x y) => [.mouseMotion (int16OfInt x) (int16OfInt y)]
  | idleMouse => [.mouseRelMotion 0 0]
  | resized screen => [.resUpdate screen]
  | _ => []

def event? : Cause → Option Event
  | told ev => some ev
  | _ => none

end Cause

/-! ### The program between the server and the backend -/

/-- The client, the tables, the connection to the other side; what has happened, and the calls that were made. -/
structure Station (R : Type) where
  syn : State
  inputs : Inputs
  display : Display R
  happened : List Cause
  calls : List (CallEnv × InputCall)

inductive StationStop
  | syn (stop : Stop)
  | inputs (stop : InputStop)
  | display (stop : DisplayStop)

inductive StationOp
  /-- an operation of the client, and the callbacks that it makes -/
  | client (op : Op)
  /-- the end of `wl_output_update_cb` -/
  | outputs (sent : Bool) (width height : Int)
  | idleMouse
  | idleKey (keyRaw : Int) (key : Nat)

namespace Station
variable {R : Type}

def start (cfg : Config) (keys : KeyConfig) (buttonMap : Fin wlInputButtonCount → Int) (screen : Screen) : Station R :=
  ⟨.init cfg, .init keys buttonMap, ⟨screen, [], []⟩, [], []⟩

/-- What the backend was asked to press, release and click since `s`. -/
def newCalls (s s' : Station R) : List InputCall :=
  (s'.inputs.input.sent.drop s.inputs.input.sent.length).map (fun key => .key key.1 key.2) ++
    (s'.inputs.buttons.drop s.inputs.buttons.length).map fun button => .mouseButton button.1 button.2

/-- The calls of a run are numbered, and `outside` answers each. -/
def callAll (b : Backend R) (outside : Nat → CallEnv) : List InputCall → Proc StationStop (Station R) Unit
  | [] => pure ()
  | call :: calls => do
    let s ← get
    let e := outside s.calls.length
    zoomStop display (fun d s => { s with display := d }) .display (b.exec (e, call))
    modify fun s => { s with calls := s.calls ++ [(e, call)] }
    callAll b outside calls

/-- Keys are counted before the calls are made; where one of these stops the program, nothing reads the counts again. -/
def happen (b : Backend R) (outside : Nat → CallEnv) (h : Heap) (x : Cause) : Proc StationStop (Station R) Unit := do
  let s ← get
  zoomStop inputs (fun i s => { s with inputs := i }) .inputs (x.toInputs h)
  let s' ← get
  callAll b outside (x.direct ++ newCalls s s')
  modify fun s => { s with happened := s.happened ++ [x] }

def happenAll (b : Backend R) (outside : Nat → CallEnv) (h : Heap) :
    List Cause → Proc StationStop (Station R) Unit
  | [] => pure ()
  | x :: xs => do
    happen b outside h x
    happenAll b outside h xs

/-- The client does something, and calls back. -/
def onClient (b : Backend R) (outside : Nat → CallEnv) (h : Heap) (m : Syn Unit) :
    Proc StationStop (Station R) Unit := do
  let s ← get
  zoomStop syn (fun t s => { s with syn := t }) .syn m
  let s' ← get
  happenAll b outside h ((s'.syn.out.drop s.syn.out.length).map .told)

def exec (b : Backend R) (outside : Nat → CallEnv) (step : StationOp × Heap) : Proc StationStop (Station R) Unit :=
  match step.1 with
  | .client op => onClient b outside step.2 op.exec
  | .outputs sent width height => do
    onClient b outside step.2 (uSynergyUpdateRes sent (int16OfInt width) (int16OfInt height))
    happen b outside step.2 (.resized ⟨width, height⟩)
  | .idleMouse => happen b outside step.2 .idleMouse
  | .idleKey keyRaw key => happen b outside step.2 (.idleKey keyRaw key)

end Station

/-! ### What is to be called -/

/-- The key that a key of the server stands for; -1 drops it. -/
def KeyConfig.layout (c : KeyConfig) (key id : Nat) : Option Int := (c.remap key id).filter (· ≠ -1)

/-- The key that is struck to keep the seat awake. -/
def KeyConfig.idle (c : KeyConfig) (keyRaw : Int) (key : Nat) : Option Int :=
  if keyRaw ≠ -1 then some keyRaw else c.layout key 0

/-- The keys that are held after one of them was pressed or released. -/
def struck (held : Multiset Int) (key : Int) (down : Bool) : Multiset Int :=
  if down then key ::ₘ held else held.erase key

/-- A key that is not held is not released. -/
def strokes (held : Multiset Int) (key : Int) (down : Bool) : List (Int × Bool) :=
  if down ∨ key ∈ held then [(key, down)] else []

section
variable (keys : KeyConfig) (buttonMap : Fin wlInputButtonCount → Int)

/-- The keys that something presses and releases; a screen that is left releases them all, in the order of their
numbers. -/
def keysOf (held : Multiset Int) : Cause → List (Int × Bool)
  | .told (.keyboard key id _ down false) => (keys.layout key id).elim [] (strokes held · down)
  | .told (.screenActive false) => (held.sort (· ≤ ·)).map fun key => (key, false)
  | .idleKey keyRaw key => (keys.idle keyRaw key).elim [] fun k => [(k, true), (k, false)]
  | _ => []

/-- The button of a button; what the map has no place for is dropped. -/
def buttonCode (button : Int) : List Int :=
  if button < 0 then []
  else if h : button.toNat < wlInputButtonCount then [buttonMap ⟨button.toNat, h⟩]
  else []

/-- What something does to the buttons. -/
def clicksOf : Cause → List (Int × Bool)
  | .told (.mouseButtonDown button) => (buttonCode buttonMap button).map (·, true)
  | .told (.mouseButtonUp button) => (buttonCode buttonMap button).map (·, false)
  | _ => []

/-- Its state are the keys that are held, each as often as it is pressed. -/
def follow : Transducer (Multiset Int) Cause InputCall where
  next held
    | .told (.keyboard key id _ down false) => (keys.layout key id).elim held (struck held · down)
    | .told (.screenActive false) => 0
    | _ => held
  answer held x := x.direct ++ (keysOf keys held x).map (fun key => .key key.1 key.2) ++
    (clicksOf buttonMap x).map fun button => .mouseButton button.1 button.2

end
end Waynergy
