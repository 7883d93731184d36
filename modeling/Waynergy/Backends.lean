import Waynergy.ConfigFile
import Waynergy.SafeLog
import Waynergy.Lib.Run

/-!
# The input backends (`wl_input_wlr.c`, `wl_input_kde.c`, `wl_input_uinput.c`, `wayland.c`)

A backend turns what the program asks of `struct wlInput` into requests of the wlroots protocols, into requests of the
KDE fake input protocol, or into records for two uinput devices. The requests wait in the connection until
`wlDisplayFlush` has written them; the records are written at once.
-/

namespace Waynergy
open Lib

/-! ### What is asked of a backend -/

/-- `ctx->width` and `ctx->height` -/
structure Screen where
  width : Int
  height : Int
deriving DecidableEq

inductive InputCall
  | mouseRelMotion (dx dy : Int)
  | mouseMotion (x y : Int)
  | mouseButton (button : Int) (state : Bool)
  | mouseWheel (dx dy : Int)
  | key (code : Int) (state : Bool)
  /-- `wlResUpdate` -/
  | resUpdate (screen : Screen)

/-- What `wl_display_flush_base` finds: an error of the display, or that `wl_display_flush` wrote everything, or some of
the requests before the socket was full or failed. -/
inductive FlushResult
  | error
  | all
  | again (n : Nat)
  | failed (n : Nat)

/-- What `poll` finds in `wl_display_flush_block`. -/
inductive FlushPoll
  | writable (result : FlushResult)
  | unwritable
  | timedOut
  | failed

/-- What the xkb state says of the modifiers. -/
structure XkbMods where
  depressed : Nat
  latched : Nat
  locked : Nat
  group : Nat

/-- What the outside answers during a call: two readings of the clock, the modifiers, which of the records can be
written, which of the `ioctl`s work, and what flushing finds. -/
structure CallEnv where
  now : Timespec
  later : Timespec
  mods : XkbMods
  written : Nat → Bool
  ioctl : Nat → Bool
  flush : FlushResult
  poll : FlushPoll

/-- Everything works. -/
def CallEnv.smooth : CallEnv := ⟨⟨0, 0⟩, ⟨0, 0⟩, ⟨0, 0, 0, 0⟩, fun _ => true, fun _ => true, .all, .timedOut⟩

/-- An `int` or a `time_t` that is passed as an `uint32_t`. -/
def uint32 (n : Int) : Nat := (n % 2 ^ 32).toNat

/-- An `int` that is stored in a `uint16_t`. -/
def code16 (n : Int) : Nat := (n % 2 ^ 16).toNat

/-- `wl_fixed_from_int` -/
def wlFixedFromInt (i : Int) : Int := intOfLong (i * 256)

/-- `main` leaves `ctx->epoch` 0, so it is never set to the time of the day. -/
def wlEpoch : Int := 0

def wlTS (ts : Timespec) : Nat := uint32 ((ts.sec - wlEpoch) * 1000 + ts.nsec.tdiv 1000000)

/-- The functions of `struct wlInput`, by what they ask for, and whether that waits for `wlDisplayFlush`. -/
structure Backend (R : Type) where
  mouseRelMotion (e : CallEnv) (dx dy : Int) : List R
  mouseMotion (e : CallEnv) (screen : Screen) (x y : Int) : List R
  mouseButton (e : CallEnv) (button : Int) (state : Bool) : List R
  mouseWheel (e : CallEnv) (dx dy : Int) : List R
  key (e : CallEnv) (code : Int) (state : Bool) : List R
  updateGeom : Option (CallEnv → Screen → List R)
  flushes : Bool

/-! ### wlroots -/

/-- Requests of `zwlr_virtual_pointer_v1` and `zwp_virtual_keyboard_v1`. -/
inductive WlrRequest
  | motion (time : Nat) (dx dy : Int)
  | motionAbsolute (time x y xExtent yExtent : Nat)
  | button (time button state : Nat)
  | axisSource (source : Nat)
  | axisDiscrete (time axis : Nat) (value discrete : Int)
  | frame
  | key (time key state : Nat)
  | modifiers (mods : XkbMods)

namespace Wlr

def mouseRelMotion (e : CallEnv) (dx dy : Int) : List WlrRequest :=
  [.motion (wlTS e.now) (wlFixedFromInt dx) (wlFixedFromInt dy), .frame]

def mouseMotion (e : CallEnv) (screen : Screen) (x y : Int) : List WlrRequest :=
  [.motionAbsolute (wlTS e.now) (uint32 x) (uint32 y) (uint32 screen.width) (uint32 screen.height), .frame]

def mouseButton (e : CallEnv) (button : Int) (state : Bool) : List WlrRequest :=
  [.button (wlTS e.now) (uint32 button) state.toNat, .frame]

/-- The discrete steps of one axis, at a time. -/
def axis (wheelMult : Int) (ts : Timespec) (axis : Nat) (d : Int) : List WlrRequest :=
  if d < 0 then [.axisDiscrete (wlTS ts) axis (wlFixedFromInt 15) wheelMult]
  else if d > 0 then [.axisDiscrete (wlTS ts) axis (wlFixedFromInt (-15)) (-1 * wheelMult)]
  else []

/-- We are a wheel, after all. -/
def mouseWheel (wheelMult : Int) (e : CallEnv) (dx dy : Int) : List WlrRequest :=
  .axisSource 0 :: (axis wheelMult e.now 1 dx ++ axis wheelMult e.later 0 dy) ++ [.frame]

def key (e : CallEnv) (code : Int) (state : Bool) : List WlrRequest :=
  [.key (wlTS e.now) (uint32 (code - 8)) state.toNat, .modifiers e.mods]

end Wlr

/-- As `wlInputInitWlr` sets it, with the value of `wlr/wheel_mult`. -/
def wlrBackend (wheelMult : Int) : Backend WlrRequest where
  mouseRelMotion := Wlr.mouseRelMotion
  mouseMotion := Wlr.mouseMotion
  mouseButton := Wlr.mouseButton
  mouseWheel := Wlr.mouseWheel wheelMult
  key := Wlr.key
  updateGeom := none
  flushes := true

/-! ### KDE -/

/-- Requests of `org_kde_kwin_fake_input`. -/
inductive KdeRequest
  | pointerMotion (dx dy : Int)
  | pointerMotionAbsolute (x y : Int)
  | button (button state : Nat)
  | axis (axis : Nat) (value : Int)
  | keyboardKey (key state : Nat)

namespace Kde

def mouseRelMotion (_ : CallEnv) (dx dy : Int) : List KdeRequest :=
  [.pointerMotion (wlFixedFromInt dx) (wlFixedFromInt dy)]

def mouseMotion (_ : CallEnv) (_ : Screen) (x y : Int) : List KdeRequest :=
  [.pointerMotionAbsolute (wlFixedFromInt x) (wlFixedFromInt y)]

def mouseButton (_ : CallEnv) (button : Int) (state : Bool) : List KdeRequest := [.button (uint32 button) state.toNat]

def axis (axis : Nat) (d : Int) : List KdeRequest :=
  if d < 0 then [.axis axis (wlFixedFromInt 15)]
  else if d > 0 then [.axis axis (wlFixedFromInt (-15))]
  else []

def mouseWheel (_ : CallEnv) (dx dy : Int) : List KdeRequest := axis 1 dx ++ axis 0 dy

def key (_ : CallEnv) (code : Int) (state : Bool) : List KdeRequest := [.keyboardKey (uint32 (code - 8)) state.toNat]

end Kde

/-- As `wlInputInitKde` sets it. -/
def kdeBackend : Backend KdeRequest where
  mouseRelMotion := Kde.mouseRelMotion
  mouseMotion := Kde.mouseMotion
  mouseButton := Kde.mouseButton
  mouseWheel := Kde.mouseWheel
  key := Kde.key
  updateGeom := none
  flushes := true

/-! ### uinput -/

inductive UinputDevice
  | keyboard
  | mouse
deriving DecidableEq

inductive Ioctl
  | setEvbit (type : Nat)
  | setKeybit (code : Int)
  | setRelbit (code : Nat)
  | setAbsbit (code : Nat)
  | devSetup
  | absSetup (code : Nat) (maximum : Int)
  | devCreate
  | devDestroy

/-- `struct input_event` without its time, which is 0. -/
structure InputRecord where
  type : Nat
  code : Nat
  value : Int
deriving DecidableEq

/-- What a device is given: a record that could be written, or an `ioctl` that worked. -/
inductive UinputRequest
  | record (device : UinputDevice) (r : InputRecord)
  | ioctl (device : UinputDevice) (req : Ioctl)

namespace Uinput

/-- `UINPUT_KEY_MAX` -/
def uinputKeyMax : Int := 256

def evSyn : Nat := 0
def evKey : Nat := 1
def evRel : Nat := 2
def evAbs : Nat := 3
def synReport : Nat := 0
def relX : Nat := 0
def relY : Nat := 1
def relHwheel : Nat := 6
def relWheel : Nat := 8
def absX : Nat := 0
def absY : Nat := 1

/-- `emit` for several records; one that cannot be written is missing, and the next ones are not. -/
def emit (e : CallEnv) (device : UinputDevice) (rs : List InputRecord) : List UinputRequest :=
  (rs.zipIdx.filter fun r => e.written r.2).map fun r => .record device r.1

def report : InputRecord := ⟨evSyn, synReport, 0⟩

def mouseRelMotion (e : CallEnv) (dx dy : Int) : List UinputRequest :=
  emit e .mouse [⟨evRel, relX, dx⟩, ⟨evRel, relY, dy⟩, report]

def mouseMotion (e : CallEnv) (_ : Screen) (x y : Int) : List UinputRequest :=
  emit e .mouse [⟨evAbs, absX, x⟩, ⟨evAbs, absY, y⟩, report]

def mouseButton (e : CallEnv) (button : Int) (state : Bool) : List UinputRequest :=
  emit e .mouse [⟨evKey, code16 button, state.toNat⟩, report]

def wheel (code : Nat) (d : Int) : List InputRecord :=
  if d < 0 then [⟨evRel, code, -1⟩] else if d > 0 then [⟨evRel, code, 1⟩] else []

def mouseWheel (e : CallEnv) (dx dy : Int) : List UinputRequest :=
  emit e .mouse (wheel relHwheel dx ++ wheel relWheel dy ++ [report])

def key (e : CallEnv) (code : Int) (state : Bool) : List UinputRequest :=
  if code - 8 > uinputKeyMax then []
  else emit e .keyboard [⟨evKey, code16 (code - 8), state.toNat⟩, report]

/-- `TRY_IOCTL` one after another: those in front of the first that fails. -/
def tryIoctls (ok : Nat → Bool) (device : UinputDevice) (reqs : List Ioctl) : List UinputRequest :=
  (reqs.zipIdx.takeWhile fun r => ok r.2).map fun r => .ioctl device r.1

def initKey : List Ioctl :=
  [.setEvbit evSyn, .setEvbit evKey] ++ (List.range 257).map (fun i => .setKeybit i) ++ [.devSetup, .devCreate]

def initMouse (buttonMap : List Int) (screen : Screen) : List Ioctl :=
  [.setEvbit evSyn, .setEvbit evKey] ++ buttonMap.map .setKeybit ++
    [.setEvbit evRel, .setRelbit relX, .setRelbit relY, .setRelbit relWheel, .setRelbit relHwheel, .setEvbit evAbs,
      .setAbsbit absX, .setAbsbit absY, .devSetup, .absSetup absX screen.width, .absSetup absY screen.height,
      .devCreate]

/-- `reinit_mouse`; where it fails, the device may be lost. -/
def updateGeom (buttonMap : List Int) (e : CallEnv) (screen : Screen) : List UinputRequest :=
  tryIoctls e.ioctl .mouse (.devDestroy :: initMouse buttonMap screen)

end Uinput

/-- As `wlInputInitUinput` sets it, with the button map that it has loaded. -/
def uinputBackend (buttonMap : List Int) : Backend UinputRequest where
  mouseRelMotion := Uinput.mouseRelMotion
  mouseMotion := Uinput.mouseMotion
  mouseButton := Uinput.mouseButton
  mouseWheel := Uinput.mouseWheel
  key := Uinput.key
  updateGeom := some (Uinput.updateGeom buttonMap)
  flushes := false

/-- What `wlInputInitUinput` asks for where it succeeds. -/
def wlInputInitUinput (buttonMap : List Int) (screen : Screen) : List UinputRequest :=
  Uinput.initKey.map (.ioctl .keyboard) ++ (Uinput.initMouse buttonMap screen).map (.ioctl .mouse)

/-! ### The connection -/

/-- `ExitOrRestart(SES_ERROR_WL)` -/
inductive DisplayStop
  | errorWl
deriving DecidableEq

/-- The screen, the requests that wait in the connection, and those that the other side has. -/
structure Display (R : Type) where
  screen : Screen
  queued : List R
  sent : List R

variable {R : Type}

def Display.write (d : Display R) (n : Nat) : Display R :=
  { d with queued := d.queued.drop n, sent := d.sent ++ d.queued.take n }

def wlDisplayFlushBase : FlushResult → Proc DisplayStop (Display R) Bool
  | .error => throw .errorWl
  | .all => do
    modify fun d => d.write d.queued.length
    pure true
  | .again n => do
    modify fun d => d.write n
    pure false
  | .failed n => do
    modify fun d => d.write n
    throw .errorWl

def wlDisplayFlushBlock : FlushPoll → Proc DisplayStop (Display R) Bool
  | .writable result => wlDisplayFlushBase result
  | .unwritable | .timedOut | .failed => pure false

def wlDisplayFlush (e : CallEnv) : Proc DisplayStop (Display R) Unit := do
  if !(← wlDisplayFlushBase e.flush) then
    if !(← wlDisplayFlushBlock e.poll) then throw .errorWl

/-! ### A call -/

namespace Backend

/-- What a call asks for; `wlResUpdate` stores the screen first. -/
def request (b : Backend R) (screen : Screen) (e : CallEnv) : InputCall → List R
  | .mouseRelMotion dx dy => b.mouseRelMotion e dx dy
  | .mouseMotion x y => b.mouseMotion e screen x y
  | .mouseButton button state => b.mouseButton e button state
  | .mouseWheel dx dy => b.mouseWheel e dx dy
  | .key code state => b.key e code state
  | .resUpdate screen' => b.updateGeom.elim [] fun f => f e screen'

/-- The screen after a call. -/
def screenAfter (screen : Screen) : InputCall → Screen
  | .resUpdate screen' => screen'
  | _ => screen

/-- Records do not wait, and an update of the screen asks for nothing that waits. -/
def flush (b : Backend R) (e : CallEnv) (call : InputCall) : Proc DisplayStop (Display R) Unit :=
  if b.flushes then
    match call with
    | .resUpdate _ => pure ()
    | _ => wlDisplayFlush e
  else modify fun d => d.write d.queued.length

/-- One call of a function of `struct wlInput`. -/
def exec (b : Backend R) (step : CallEnv × InputCall) : Proc DisplayStop (Display R) Unit := do
  modify fun d => { d with
    screen := screenAfter d.screen step.2, queued := d.queued ++ b.request d.screen step.1 step.2 }
  b.flush step.1 step.2

end Backend
end Waynergy
