import Waynergy.Ssp
import Mathlib.Logic.Function.Basic

/-!
# The context and what the outside sees of it (`uSynergy.h`)

`Context` is `uSynergyContext`. The callbacks it holds are known to the model only by whether they are
installed; what is passed to them is an `Event` of the trace `State.out`. Three kinds of event are
ghosts: `message`, `returned` and `shift` record what the receive loop hands over and moves.
-/

namespace Waynergy
open Lib

/-! ### Constants -/

abbrev numJoysticks : Nat := 4
abbrev protocolMajor : Nat := 1
abbrev protocolMinor : Nat := 6
abbrev idleTimeout : Int := 10000
abbrev replyBufferSize : Nat := 1024
abbrev receiveBufferSize : Nat := 0xFFFF
abbrev clipboardFormatText : Nat := 0
abbrev synDataStart : Nat := 1
abbrev synDataChunk : Nat := 2
abbrev synDataEnd : Nat := 3
abbrev intMax : Nat := 2 ^ 31 - 1

/-- `enum uSynergyError`. -/
inductive SynError
  | init
  | none
  | ebsy
  | ebad
  | timeout
deriving DecidableEq

def SynError.code : SynError → Int
  | .init => -1
  | .none => 0
  | .ebsy => 1
  | .ebad => 2
  | .timeout => 3

/-! ### Stops -/

/-- The accesses outside an object that the code can make, by the object. -/
inductive Fault
  /-- a clipboard array, at an index of 2 or more -/
  | clipIndex
  /-- a joystick array, at an index of 4 or more -/
  | joyIndex
  /-- `expected_len` of a clipboard start message -/
  | lengthBuffer
  /-- a read of a message beyond the receive buffer -/
  | message
  /-- the receive buffer -/
  | receiveBuffer
  /-- a clipboard buffer: a chunk stored, the buffer parsed, sent, filled, or compared -/
  | clipCopy
  | clipParse
  | clipSend
  | clipEncode
  | clipCompare
  /-- the key table -/
  | keyTable
  /-- signed overflow -/
  | overflow
deriving DecidableEq

/-- Why a procedure does not return: undefined behaviour, `abort` of a failed allocation, `Exit`, or a
loop that is still running when its fuel is spent. -/
inductive Stop
  | fault (f : Fault)
  | abort
  | exit
  | spinning
deriving DecidableEq

/-! ### Configuration -/

/-- Which callbacks are installed. -/
structure Callbacks where
  screenActive : Bool
  screensaver : Bool
  mouseWheel : Bool
  mouseButtonUp : Bool
  mouseButtonDown : Bool
  mouseMove : Bool
  keyboard : Bool
  joystick : Bool
  clipboard : Bool
deriving DecidableEq

/-- What the client fills in before the first update. -/
structure Config where
  clientName : Bytes
  clientWidth : Nat
  clientHeight : Nat
  useRawKeyCodes : Bool
  errorIsFatal : SynError → Bool
  callbacks : Callbacks

/-! ### The context -/

/-- The clipboard fields of one clipboard id. A clipboard buffer is a heap block: `none` is the null
pointer, and its length is the size of the last allocation. -/
structure ClipSlot where
  buf : Option Bytes
  len : Nat
  pos : Nat
  posExpect : Nat
  inStream : Bool
  grabbed : Bool
deriving DecidableEq

namespace ClipSlot

/-- A zeroed slot. -/
def zero : ClipSlot := ⟨none, 0, 0, 0, false, false⟩

/-- The bytes of the block. -/
def mem (c : ClipSlot) : Bytes := c.buf.getD []

/-- The size given to the last allocation. -/
def cap (c : ClipSlot) : Nat := c.mem.length

end ClipSlot

structure Context extends Config where
  lastError : SynError
  implementation : Option Bytes
  connected : Bool
  hasReceivedHello : Bool
  infoCurrent : Bool
  resChanged : Bool
  isCaptured : Bool
  lastMessageTime : Nat
  sequenceNumber : Nat
  receiveBuffer : Buf receiveBufferSize
  receiveOfs : Nat
  replyBuffer : Buf replyBufferSize
  /-- as an offset into `replyBuffer` -/
  replyCur : Nat
  joystickSticks : Fin numJoysticks → List Int
  joystickButtons : Fin numJoysticks → Nat
  clip : Fin 2 → ClipSlot

/-- The part of `struct synNetContext` that says whether there is a socket. -/
structure SynNet where
  fd : Int
deriving DecidableEq

/-! ### Events -/

inductive Event
  | send (frame : Bytes)
  | sleep (ms : Nat)
  | connect
  /-- the log lines of `PARSE_ERROR` and `REPLY_ERROR` -/
  | parseError
  | replyError
  | screenActive (active : Bool)
  | screensaver (state : Bool)
  | mouseWheel (x y : Int)
  | mouseButtonDown (button : Int)
  | mouseButtonUp (button : Int)
  | mouseMove (rel : Bool) (x y : Int)
  | keyboard (key id modifiers : Nat) (down rpt : Bool)
  | joystick (joyNum buttons : Nat) (sticks : List Int)
  | clipboard (id format : Nat) (data : Bytes)
  /-- ghost: a message is handed to `sProcessMessage`, with `m_receiveOfs` at that time -/
  | message (msg : SspBuf) (ofs : Nat)
  /-- ghost: `sProcessMessage` returned, with `m_connected` -/
  | returned (up : Bool)
  /-- ghost: the receive loop moved `len` bytes from offset `src` to the front, when `m_receiveOfs` was
  `ofs`, and left it at `ofs'` -/
  | shift (src len ofs ofs' : Nat)
deriving DecidableEq

structure State where
  ctx : Context
  net : SynNet
  out : List Event

/-- The state `s` with the clipboard slot `i` replaced. -/
def State.setSlot (s : State) (i : Fin 2) (c : ClipSlot) : State :=
  { s with ctx := { s.ctx with clip := Function.update s.ctx.clip i c } }

namespace State
variable (s : State) (i : Fin 2) (c c' : ClipSlot)

@[simp] theorem setSlot_self : (s.setSlot i c).ctx.clip i = c := Function.update_self ..

theorem setSlot_other {j : Fin 2} (h : j ≠ i) : (s.setSlot i c).ctx.clip j = s.ctx.clip j :=
  Function.update_of_ne h ..

@[simp] theorem setSlot_setSlot : (s.setSlot i c).setSlot i c' = s.setSlot i c' := by simp [setSlot]

@[simp] theorem setSlot_clip : s.setSlot i (s.ctx.clip i) = s := by simp [setSlot]

end State

abbrev Syn (α : Type) := Proc Stop State α

/-! ### Primitive operations -/

def emits (evs : List Event) : Syn Unit := modify fun s => { s with out := s.out ++ evs }

def setCtx (f : Context → Context) : Syn Unit := modify fun s => { s with ctx := f s.ctx }

def setClip (i : Fin 2) (f : ClipSlot → ClipSlot) : Syn Unit :=
  setCtx fun c => { c with clip := Function.update c.clip i (f (c.clip i)) }

/-- `PARSE_ERROR`, but for its return. -/
def parseError : Syn Unit := emits [.parseError]

/-- `REPLY_ERROR`, but for its return. -/
def replyError : Syn Unit := emits [.replyError]

section
variable {Q : Unit → State → Prop} {E : Stop → State → Prop} {s : State}

@[simp] theorem wp_emits (evs : List Event) :
    wp (emits evs) Q E s ↔ Q () { s with out := s.out ++ evs } := Iff.rfl

@[simp] theorem wp_setCtx (f : Context → Context) :
    wp (setCtx f) Q E s ↔ Q () { s with ctx := f s.ctx } := Iff.rfl

@[simp] theorem wp_setClip (i : Fin 2) (f : ClipSlot → ClipSlot) :
    wp (setClip i f) Q E s ↔ Q () (s.setSlot i (f (s.ctx.clip i))) := Iff.rfl

@[simp] theorem wp_parseError :
    wp parseError Q E s ↔ Q () { s with out := s.out ++ [.parseError] } := Iff.rfl

@[simp] theorem wp_replyError :
    wp replyError Q E s ↔ Q () { s with out := s.out ++ [.replyError] } := Iff.rfl

end

/-! ### `uSynergyInit` -/

/-- Mark context as being disconnected. -/
def Context.disconnect (err : SynError) (c : Context) : Context :=
  { c with
    connected := false, hasReceivedHello := false, isCaptured := false, receiveOfs := 0,
    replyCur := 4, sequenceNumber := 0, lastError := err }

def sSetDisconnected (err : SynError) : Syn Unit := setCtx (·.disconnect err)

@[simp] theorem wp_sSetDisconnected {Q : Unit → State → Prop} {E : Stop → State → Prop} {s : State}
    (err : SynError) :
    wp (sSetDisconnected err) Q E s ↔ Q () { s with ctx := s.ctx.disconnect err } := Iff.rfl

/-- The zeroed and disconnected context of `uSynergyInit`, filled in by the client with `cfg`. -/
def uSynergyInit (cfg : Config) : Context :=
  Context.disconnect .init
    { cfg with
      lastError := .none, implementation := none, connected := false, hasReceivedHello := false,
      infoCurrent := false, resChanged := false, isCaptured := false, lastMessageTime := 0,
      sequenceNumber := 0, receiveBuffer := .zero _, receiveOfs := 0, replyBuffer := .zero _,
      replyCur := 0, joystickSticks := fun _ => [0, 0, 0, 0], joystickButtons := fun _ => 0,
      clip := fun _ => .zero }

/-- The state in which the main loop starts. -/
def State.init (cfg : Config) : State := ⟨uSynergyInit cfg, ⟨-1⟩, []⟩

end Waynergy
