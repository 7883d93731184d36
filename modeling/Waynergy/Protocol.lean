import Waynergy.ClipContains
import Waynergy.ClipOwed
import Waynergy.DesktopSize

/-!
# What a client is for

The protocol without bytes, buffers and cursors: what a server says, and what a client that keeps to the protocol tells
its callbacks and answers. A `Desk` is all that it has to remember: its screen, what it owes the server, what has arrived of
the clipboards that are on their way, and which ones it has seen.
-/

namespace Waynergy
open Lib

/-! ### What a server says -/

inductive Implementation
  | barrier
  | synergy

def Implementation.name : Implementation → Bytes
  | barrier => ascii ['B', 'a', 'r', 'r', 'i', 'e', 'r']
  | synergy => ascii ['S', 'y', 'n', 'e', 'r', 'g', 'y']

/-- A clipboard comes in parts: its size, stretches of it, and a mark that it is complete. -/
inductive ClipPart
  | size (n : Nat)
  | chunk (text : Bytes)
  | done

inductive ServerMsg
  | hello (imp : Implementation) (major minor : UInt16)
  | queryInfo
  | infoAck
  | resetOptions
  | enter (x y : Int16) (seq : UInt32) (mask : UInt16)
  | leave
  | screensaver (on : Int8)
  | mouseDown (button : Int8)
  | mouseUp (button : Int8)
  | mouseMove (x y : Int16)
  | mouseRelMove (x y : Int16)
  | mouseWheel (x y : Int16)
  | keyDown (id modifiers key : UInt16)
  | keyRepeat (id modifiers count key : UInt16)
  | keyUp (id modifiers key : UInt16)
  | joystickButtons (joyNum : UInt8) (state : UInt16)
  | joystickSticks (joyNum : UInt8) (a b c d : Int8)
  | setOptions (options : Bytes)
  | keepAlive
  | grabClipboard (i : Fin 2) (seq : UInt32)
  | clipboard (i : Fin 2) (seq : UInt32) (part : ClipPart)
  | close
  | incompatible
  | busy

def int8 (x : Int8) : Bytes := [x.toUInt8]

def int16 (x : Int16) : Bytes := be16 x.toUInt16.toNat

def word (x : UInt16) : Bytes := be16 x.toNat

def ClipPart.mark : ClipPart → Nat
  | size _ => synDataStart
  | chunk _ => synDataChunk
  | done => synDataEnd

def ClipPart.text : ClipPart → Bytes
  | size n => decimal n
  | chunk text => text
  | done => []

namespace ServerMsg

/-- The message as the body of a frame. -/
def encode : ServerMsg → Bytes
  | hello imp major minor => imp.name ++ (word major ++ word minor)
  | queryInfo => Pkt.qinf.code
  | infoAck => Pkt.ciak.code
  | resetOptions => Pkt.crop.code
  | enter x y seq mask => Pkt.cinn.code ++ (int16 x ++ (int16 y ++ (be32 seq.toNat ++ word mask)))
  | leave => Pkt.cout.code
  | screensaver on => Pkt.csec.code ++ int8 on
  | mouseDown button => Pkt.dmdn.code ++ int8 button
  | mouseUp button => Pkt.dmup.code ++ int8 button
  | mouseMove x y => Pkt.dmmv.code ++ (int16 x ++ int16 y)
  | mouseRelMove x y => Pkt.dmrm.code ++ (int16 x ++ int16 y)
  | mouseWheel x y => Pkt.dmwm.code ++ (int16 x ++ int16 y)
  | keyDown id modifiers key => Pkt.dkdn.code ++ (word id ++ (word modifiers ++ word key))
  | keyRepeat id modifiers count key => Pkt.dkrp.code ++ (word id ++ (word modifiers ++ (word count ++ word key)))
  | keyUp id modifiers key => Pkt.dkup.code ++ (word id ++ (word modifiers ++ word key))
  | joystickButtons joyNum state => Pkt.dgbt.code ++ ([joyNum] ++ word state)
  | joystickSticks joyNum a b c d => Pkt.dgst.code ++ ([joyNum] ++ (int8 a ++ (int8 b ++ (int8 c ++ int8 d))))
  | setOptions options => Pkt.dsop.code ++ options
  | keepAlive => Pkt.calv.code
  | grabClipboard i seq => Pkt.cclp.code ++ ([UInt8.ofNat i] ++ be32 seq.toNat)
  | clipboard i seq part => dclpBody i seq.toNat part.mark part.text
  | close => Pkt.cbye.code
  | incompatible => Pkt.ebad.code
  | busy => Pkt.ebsy.code

end ServerMsg

/-! ### What a client remembers -/

structure Desk extends Config where
  /-- the server knows the screen -/
  infoCurrent : Bool
  captured : Bool
  sequence : Nat
  buttons : Fin numJoysticks → Nat
  sticks : Fin numJoysticks → List Int
  /-- the announced size of a clipboard on its way, and what has arrived -/
  incoming : Fin 2 → Option (Nat × Bytes)
  /-- a local clipboard that the server is to get when it leaves -/
  owed : Fin 2 → Option Bytes
  /-- the last clipboard that was complete, of either side -/
  seen : Fin 2 → Bytes
  /-- the size of the longest local clipboard -/
  longest : Fin 2 → Nat

/-- The desk of a client that has just connected. -/
def Desk.initial (cfg : Config) : Desk where
  toConfig := cfg
  infoCurrent := false
  captured := false
  sequence := 0
  buttons _ := 0
  sticks _ := [0, 0, 0, 0]
  incoming _ := none
  owed _ := none
  seen _ := []
  longest _ := 0

/-! ### What it says -/

/-- What is told, if there is a callback for it. -/
def tell (callback : Bool) (ev : Event) : List Event := if callback then [ev] else []

abbrev cnop : Event := sendBody (ascii ['C', 'N', 'O', 'P'])

def cclpBody (i : Fin 2) (seq : Nat) : Bytes := ascii ['C', 'C', 'L', 'P'] ++ ([UInt8.ofNat i] ++ be32 seq)

/-- The stretches in which a clipboard is sent. -/
def chunksOf (text : Bytes) : List Bytes :=
  if text = [] then [] else text.take maxChunk :: chunksOf (text.drop maxChunk)
termination_by text.length
decreasing_by
  have hpos : 0 < text.length := List.length_pos_iff.mpr ‹_›
  have hmax : 0 < maxChunk := by decide
  rw [List.length_drop]
  omega

/-- Send what is owed of clipboard `i`. -/
def Desk.settle (d : Desk) (i : Fin 2) : List Event :=
  match d.owed i with
  | none => []
  | some text => transferEvents i d.sequence text.length (chunksOf text)

def Desk.tellKey (d : Desk) (down rpt : Bool) (id modifiers key : UInt16) : List Event :=
  tell d.callbacks.keyboard
    (.keyboard (if d.useRawKeyCodes then key.toNat else id.toNat) id.toNat modifiers.toNat down rpt)

def Desk.tellJoystick (d : Desk) (j : Fin numJoysticks) : List Event :=
  tell d.callbacks.joystick (.joystick j (d.buttons j) (d.sticks j))

/-- A part of a clipboard. What goes beyond the announced size is dropped, and what comes without one is answered. -/
def Desk.hearClip (d : Desk) (i : Fin 2) : ClipPart → Desk × List Event
  | .size n =>
    ({ d with
        incoming := Function.update d.incoming i (some (n, [])), owed := Function.update d.owed i none }, [cnop])
  | .chunk text =>
    match d.incoming i with
    | none => (d, [cnop])
    | some (n, got) =>
      if n < got.length + text.length then (d, [])
      else ({ d with incoming := Function.update d.incoming i (some (n, got ++ text)) }, [cnop])
  | .done =>
    match d.incoming i with
    | none => (d, [cnop])
    | some (_, got) =>
      let r := readClipboard got
      if r.2 then
        ({ d with incoming := Function.update d.incoming i none, seen := Function.update d.seen i got },
          clipEvents d.callbacks.clipboard i r.1 ++ [cnop])
      else (d, clipEvents d.callbacks.clipboard i r.1 ++ [.parseError])

/-- A message of the server: the desk after it, unless it ends the connection, and what the client tells and
answers. -/
def Desk.hear (d : Desk) : ServerMsg → Option Desk × List Event
  | .hello imp _ _ => (some d, [sendBody (helloBody imp.name d.clientName)])
  | .queryInfo => (some { d with infoCurrent := false }, [sendBody (dinfBody d.clientWidth d.clientHeight)])
  | .infoAck => (some { d with infoCurrent := true }, [])
  | .resetOptions => (some d, [])
  | .enter _ _ seq _ =>
    (some { d with sequence := seq.toNat, captured := true },
      tell d.callbacks.screenActive (.screenActive true) ++ [cnop])
  | .leave =>
    (some { d with captured := false, owed := fun _ => none },
      (List.finRange 2).flatMap d.settle ++ tell d.callbacks.screenActive (.screenActive false) ++ [cnop])
  | .screensaver on => (some d, tell d.callbacks.screensaver (.screensaver (on.toInt ≠ 0)) ++ [cnop])
  | .mouseDown button => (some d, tell d.callbacks.mouseButtonDown (.mouseButtonDown button.toInt) ++ [cnop])
  | .mouseUp button => (some d, tell d.callbacks.mouseButtonUp (.mouseButtonUp button.toInt) ++ [cnop])
  | .mouseMove x y => (some d, tell d.callbacks.mouseMove (.mouseMove false x.toInt y.toInt) ++ [cnop])
  | .mouseRelMove x y => (some d, tell d.callbacks.mouseMove (.mouseMove true x.toInt y.toInt) ++ [cnop])
  -- the wheel is not for a screen that the server does not know
  | .mouseWheel x y =>
    (some d, tell (d.callbacks.mouseWheel && d.infoCurrent) (.mouseWheel x.toInt y.toInt) ++ [cnop])
  | .keyDown id modifiers key => (some d, d.tellKey true false id modifiers key ++ [cnop])
  | .keyRepeat id modifiers _ key => (some d, d.tellKey true true id modifiers key ++ [cnop])
  | .keyUp id modifiers key => (some d, d.tellKey false false id modifiers key ++ [cnop])
  | .joystickButtons joyNum state =>
    if h : joyNum.toNat < numJoysticks then
      let d' := { d with buttons := Function.update d.buttons ⟨joyNum.toNat, h⟩ state.toNat }
      (some d', d'.tellJoystick ⟨joyNum.toNat, h⟩ ++ [cnop])
    else (some d, [cnop])
  | .joystickSticks joyNum a b c e =>
    if h : joyNum.toNat < numJoysticks then
      let axes := [a.toInt, b.toInt, c.toInt, e.toInt]
      let d' := { d with sticks := Function.update d.sticks ⟨joyNum.toNat, h⟩ axes }
      (some d', d'.tellJoystick ⟨joyNum.toNat, h⟩ ++ [cnop])
    else (some d, [cnop])
  | .setOptions _ => (some d, [cnop])
  | .keepAlive => (some d, [sendBody (ascii ['C', 'A', 'L', 'V']), cnop])
  | .grabClipboard i _ => (some { d with owed := Function.update d.owed i none }, [cnop])
  | .clipboard i _ part => let r := d.hearClip i part; (some r.1, r.2)
  | .close => (none, [])
  | .incompatible => (none, [])
  | .busy => (none, [])

/-! ### What happens at its side -/

/-- What a client hears: a message of the server, that there are no more, or that there was none for too long; a change
of its outputs; or a local copy. -/
inductive Input
  | server (m : ServerMsg)
  | lost
  | silence
  | resize (width height : Nat)
  | copy (i : Fin 2) (data : Bytes)

/-- Whether the clipboard that was seen last has `data`, so that a copy of them is not new; `none` if this is looked for
behind its end. As many of its entries are looked at as the longest local clipboard has room for, and none while
another clipboard is on its way. -/
def Desk.finds (d : Desk) (i : Fin 2) (data : Bytes) : Option Bool :=
  if (d.incoming i).isSome ∨ d.longest i < 4 then some false
  else
    let n := min (wordAt (d.seen i) 0) ((d.longest i - 4) / 8)
    if 4 + 8 * n ≤ (d.seen i).length then looks (d.seen i) data n 4 else none

/-- A local copy that is new. -/
def Desk.keep (d : Desk) (i : Fin 2) (data : Bytes) : Desk :=
  { d with
    incoming := Function.update d.incoming i none
    owed := Function.update d.owed i (some (encodeText data))
    seen := Function.update d.seen i (encodeText data)
    longest := Function.update d.longest i (max (d.longest i) (data.length + 12)) }

def Desk.take (d : Desk) : Input → Option Desk × List Event
  | .server m => d.hear m
  | .lost => (none, [.sleep 1000])
  | .silence => (none, [])
  | .resize width height =>
    (some { d with clientWidth := width % 65536, clientHeight := height % 65536, infoCurrent := false },
      [sendBody (dinfBody (width % 65536) (height % 65536))])
  | .copy i data =>
    if d.finds i data = some true then (some d, [])
    else (some (d.keep i data), [sendBody (cclpBody i d.sequence)])

/-- One input after another, until the connection ends. -/
def Desk.takeAll : Desk → List Input → Option Desk × List Event
  | d, [] => (some d, [])
  | d, x :: xs =>
    match d.take x with
    | (none, evs) => (none, evs)
    | (some d', evs) => let r := d'.takeAll xs; (r.1, evs ++ r.2)

/-- The server announces sizes that there are, and completes a clipboard when all of it has been sent; local copies fit
their encoding, and can be told from the clipboard that was seen last. -/
def Desk.Admits (d : Desk) : Input → Prop
  | .server (.clipboard _ _ (.size n)) => 0 < n ∧ n < 2 ^ 31
  | .server (.clipboard i _ .done) => ∀ n got, d.incoming i = some (n, got) → got.length = n
  | .copy i data => data.length + 12 < 2 ^ 31 ∧ d.finds i data ≠ none
  | _ => True

/-- Each input is admitted when it is taken. -/
def Desk.AdmitsAll : Desk → List Input → Prop
  | _, [] => True
  | d, x :: xs => d.Admits x ∧ ∀ d', (d.take x).1 = some d' → d'.AdmitsAll xs

end Waynergy
