import Waynergy.Clipboard

/-!
# Processing a message (`sProcessMessage`)

One definition for each packet id, and `sProcessMessage` that dispatches on it. `parse` runs a reader
over the message; a short message is a `PARSE_ERROR`, which returns from `sProcessMessage`.
-/

namespace Waynergy
open Lib

/-- What the outside answers while one message is processed: the result of sending a HelloBack, the
bytes found in an uninitialised `expected_len`, and the allocator. -/
structure MsgEnv where
  sent : Bool
  stack : Nat → UInt8
  heap : Heap

/-- Read with `p` from `buf` and go on with `k`; a read that leaves the memory is the fault `f`. After a
`PARSE_ERROR` the result is `bad`. -/
def parse {α β : Type} (f : Fault) (p : Parse α) (buf : SspBuf) (bad : β) (k : α → SspBuf → Syn β) : Syn β :=
  match p.run buf with
  | .ok a buf => k a buf
  | .error .short _ => do parseError; pure bad
  | .error .outside _ => throw (.fault f)

/-- Answer with a CNOP, as most messages do at the end. -/
def replyCnop (e : MsgEnv) : Syn Unit := do
  let _ ← reply e.sent (sAddString (ascii ['C', 'N', 'O', 'P']))
  pure ()

/-! ### Callbacks -/

def sSendMouseWheelCallback (c : Context) (x y : Int) : List Event :=
  if !c.callbacks.mouseWheel then []
  else if c.resChanged || !c.infoCurrent then []
  else [.mouseWheel x y]

def sSendMouseButtonDownCallback (c : Context) (button : Int) : List Event :=
  if c.callbacks.mouseButtonDown then [.mouseButtonDown button] else []

def sSendMouseButtonUpCallback (c : Context) (button : Int) : List Event :=
  if c.callbacks.mouseButtonUp then [.mouseButtonUp button] else []

def sSendMouseMoveCallback (c : Context) (rel : Bool) (x y : Int) : List Event :=
  if c.callbacks.mouseMove then [.mouseMove rel x y] else []

def sSendScreensaverCallback (c : Context) (state : Bool) : List Event :=
  if c.callbacks.screensaver then [.screensaver state] else []

def sSendKeyboardCallback (c : Context) (key id modifiers : Nat) (down rpt : Bool) : List Event :=
  if c.callbacks.keyboard then [.keyboard key id modifiers down rpt] else []

def sSendJoystickCallback (c : Context) (joyNum : Fin numJoysticks) : List Event :=
  if c.callbacks.joystick then [.joystick joyNum (c.joystickButtons joyNum) (c.joystickSticks joyNum)] else []

def screenActiveCallback (c : Context) (active : Bool) : List Event :=
  if c.callbacks.screenActive then [.screenActive active] else []

/-! ### Hello -/

def sImplementations : List Bytes :=
  [ascii ['B', 'a', 'r', 'r', 'i', 'e', 'r'], ascii ['S', 'y', 'n', 'e', 'r', 'g', 'y']]

/-- The first of the implementations that the message starts with, and the message behind it. -/
def findWelcome (msg : SspBuf) : List Bytes → Except Fault (Option (Bytes × SspBuf))
  | [] => .ok none
  | imp :: imps =>
    if imp.length > msg.len then findWelcome msg imps
    else if msg.data.length < imp.length then .error .message
    else if msg.data.take imp.length = imp then
      match (sspSeek imp.length).run msg with
      | .ok _ msg | .error _ msg => .ok (some (imp, msg))
    else findWelcome msg imps

def sIsWelcome (msg : SspBuf) : Except Fault (Option (Bytes × SspBuf)) := findWelcome msg sImplementations

def processHello (e : MsgEnv) (imp : Bytes) (msg : SspBuf) : Syn Unit :=
  parse .message (do let _ ← sspNetU16; sspNetU16 : Parse Nat) msg () fun _ _ => do
    setCtx fun c => { c with replyCur := 4 }
    let s ← get
    if ← (sAddString imp <&&> (sAddUInt16 protocolMajor <&&> (sAddUInt16 protocolMinor <&&>
        (sAddUInt32 s.ctx.clientName.length <&&> sAddString s.ctx.clientName)))) then
      if ← sSendReply e.sent then
        setCtx fun c => { c with hasReceivedHello := true, implementation := some imp }
      else
        setCtx fun c => { c with connected := false }
        emits [.sleep 1000]
    else replyError

/-! ### Screen information and screen changes -/

def processQinf (e : MsgEnv) : Syn Unit := do
  let s ← get
  if ← reply e.sent (addDinf s.ctx.clientWidth s.ctx.clientHeight) then
    setCtx fun c => { c with infoCurrent := false }
  else pure ()

def processCiak : Syn Unit := setCtx fun c => { c with infoCurrent := true }

def processCinn (e : MsgEnv) (msg : SspBuf) : Syn Unit :=
  parse .message (do sspSeek 2; sspSeek 2; sspNetU32 : Parse Nat) msg () fun seq _ => do
    setCtx fun c => { c with sequenceNumber := seq, isCaptured := true }
    let s ← get
    emits (screenActiveCallback s.ctx true)
    replyCnop e

/-- Send the clipboard `i` if it is owed. -/
def sendGrabbed (e : MsgEnv) (i : Fin 2) : Syn Unit := do
  let s ← get
  let c := s.ctx.clip i
  if c.grabbed then
    uSynergySendClipboard e.sent i (c.pos % 2 ^ 32) c.mem
    setClip i fun c => { c with grabbed := false }
  else pure ()

def processCout (e : MsgEnv) : Syn Unit := do
  setCtx fun c => { c with isCaptured := false }
  sendGrabbed e 0
  sendGrabbed e 1
  let s ← get
  emits (screenActiveCallback s.ctx false)
  replyCnop e

/-! ### Input -/

/-- The messages that are read, passed to a callback, and answered with a CNOP. -/
def notify {α : Type} (e : MsgEnv) (p : Parse α) (callback : Context → α → List Event) (msg : SspBuf) : Syn Unit :=
  parse .message p msg () fun a _ => do
    let s ← get
    emits (callback s.ctx a)
    replyCnop e

/-- Two 16-bit coordinates. -/
def coordinates : Parse (Int × Int) := do
  let x ← sspNet16
  let y ← sspNet16
  pure (x, y)

def processCsec (e : MsgEnv) : SspBuf → Syn Unit :=
  notify e sspChar fun c active => sSendScreensaverCallback c (active ≠ 0)

def processDmdn (e : MsgEnv) : SspBuf → Syn Unit := notify e sspChar sSendMouseButtonDownCallback

def processDmup (e : MsgEnv) : SspBuf → Syn Unit := notify e sspChar sSendMouseButtonUpCallback

def processDmmv (e : MsgEnv) : SspBuf → Syn Unit :=
  notify e coordinates fun c p => sSendMouseMoveCallback c false p.1 p.2

def processDmrm (e : MsgEnv) : SspBuf → Syn Unit :=
  notify e coordinates fun c p => sSendMouseMoveCallback c true p.1 p.2

def processDmwm (e : MsgEnv) : SspBuf → Syn Unit :=
  notify e coordinates fun c p => sSendMouseWheelCallback c p.1 p.2

structure KeyData where
  id : Nat
  modifiers : Nat
  key : Nat

/-- Tell the keyboard callback, with the raw key code or the id as configured. -/
def keyCallback (down rpt : Bool) (c : Context) (k : KeyData) : List Event :=
  sSendKeyboardCallback c (if c.useRawKeyCodes then k.key else k.id) k.id k.modifiers down rpt

def keyData : Parse KeyData := do
  let id ← sspNetU16
  let modifiers ← sspNetU16
  let key ← sspNetU16
  pure ⟨id, modifiers, key⟩

def repeatData : Parse KeyData := do
  let id ← sspNetU16
  let modifiers ← sspNetU16
  let _count ← sspNetU16
  let key ← sspNetU16
  pure ⟨id, modifiers, key⟩

def processDkdn (e : MsgEnv) : SspBuf → Syn Unit := notify e keyData (keyCallback true false)

def processDkrp (e : MsgEnv) : SspBuf → Syn Unit := notify e repeatData (keyCallback true true)

def processDkup (e : MsgEnv) : SspBuf → Syn Unit := notify e keyData (keyCallback false false)

def joyIndex (joyNum : Nat) : Syn (Fin numJoysticks) :=
  if h : joyNum < numJoysticks then pure ⟨joyNum, h⟩ else throw (.fault .joyIndex)

/-- Store joystick data with `store`, if the number is in range, and tell the callback. -/
def storeJoystick (joyNum : Nat) (store : Fin numJoysticks → Context → Context) : Syn Unit :=
  if joyNum < numJoysticks then do
    let i ← joyIndex joyNum
    setCtx (store i)
    let s ← get
    emits (sSendJoystickCallback s.ctx i)
  else pure ()

def updateJoystick (e : MsgEnv) (joyNum : Nat) (store : Fin numJoysticks → Context → Context) : Syn Unit := do
  storeJoystick joyNum store
  replyCnop e

def processDgbt (e : MsgEnv) (msg : SspBuf) : Syn Unit :=
  parse .message (do let j ← sspUChar; let state ← sspNetU16; pure (j, state) : Parse (Nat × Nat)) msg () fun a _ =>
    updateJoystick e a.1 fun i c => { c with joystickButtons := Function.update c.joystickButtons i a.2 }

def processDgst (e : MsgEnv) (msg : SspBuf) : Syn Unit :=
  parse .message (do let j ← sspUChar; let state ← sspMemMove 4; pure (j, state) : Parse (Nat × Bytes)) msg ()
    fun a _ =>
    updateJoystick e a.1 fun i c => { c with
      joystickSticks := Function.update c.joystickSticks i (a.2.map fun b => signed 8 b.toNat) }

/-! ### Keepalive -/

def processCalv (e : MsgEnv) : Syn Unit := do
  if ← reply e.sent (sAddString (ascii ['C', 'A', 'L', 'V'])) then replyCnop e
  else pure ()

/-! ### The clipboard -/

/-- The clipboard index of a message, as an index of the clipboard arrays. -/
def clipIndex (id : Nat) : Syn (Fin 2) := if h : id < 2 then pure ⟨id, h⟩ else throw (.fault .clipIndex)

def processCclp (e : MsgEnv) (msg : SspBuf) : Syn Unit :=
  parse .message (do let id ← sspUChar; let _seq ← sspNetU32; pure id : Parse Nat) msg () fun id _ => do
    let i ← clipIndex id
    setClip i fun c => { c with grabbed := false }
    replyCnop e

structure DclpHeader where
  id : Nat
  mark : Nat
  len : Nat

def dclpHeader : Parse DclpHeader := do
  let id ← sspUChar
  let _seq ← sspNetU32
  let mark ← sspUChar
  let len ← sspNetU32
  pure ⟨id, mark, len⟩

/-- `sspMemMove` where its result is not looked at: `none` if it fails. -/
def copyOut (msg : SspBuf) (len : Nat) : Syn (Option Bytes) :=
  match (sspMemMove len).run msg with
  | .ok bs _ => pure (some bs)
  | .error .short _ => pure none
  | .error .outside _ => throw (.fault .message)

/-- Conversion of an `int` to `size_t`. -/
def sizeOfInt (n : Int) : Nat := (n % 2 ^ 64).toNat

def dclpStart (e : MsgEnv) (i : Fin 2) (len : Nat) (msg : SspBuf) : Syn Unit := do
  setClip i fun c => { c with grabbed := false, inStream := true, pos := 0 }
  -- the size `len + 1` of `expected_len` is a `uint32_t`
  if 2 ^ 32 ≤ len + 1 then throw (.fault .lengthBuffer)
  else do
    let copied ← copyOut msg len
    let expectedLen := copied.getD ((List.range len).map e.stack)
    setClip i fun c => { c with posExpect := sizeOfInt (atoi expectedLen) }
    let s ← get
    if (s.ctx.clip i).posExpect > (s.ctx.clip i).len then growClip e.heap i (s.ctx.clip i).posExpect
    else pure ()
    replyCnop e

/-- Store a chunk behind the position, unless the buffer is the null pointer. -/
def storeChunk (i : Fin 2) (len : Nat) (msg : SspBuf) : Syn Unit := do
  let s ← get
  let c := s.ctx.clip i
  if c.buf = none ∧ c.pos = 0 then pure ()
  else
    match ← copyOut msg len with
    | none => pure ()
    | some bs =>
      if c.cap < c.pos + bs.length then throw (.fault .clipCopy)
      else setClip i fun c => { c with buf := some (overwrite c.mem c.pos bs) }

def dclpChunk (e : MsgEnv) (i : Fin 2) (len : Nat) (msg : SspBuf) : Syn Unit := do
  let s ← get
  let c := s.ctx.clip i
  -- "Packet too long!"
  if sizeAdd c.pos len > c.posExpect then pure ()
  else do
    storeChunk i len msg
    setClip i fun c => { c with pos := sizeAdd c.pos len }
    replyCnop e

/-- The loop over the formats of the buffer. It returns false after a parse error. -/
def dclpFormats (id : Nat) (callback : Bool) : Nat → SspBuf → Syn Bool
  | 0, _ => pure true
  | n + 1, buf =>
    parse .clipParse (do let format ← sspNetU32; let size ← sspNetU32; pure (format, size) : Parse (Nat × Nat))
      buf false fun a buf => do
        let rest := parse .clipParse (sspSeek a.2) buf false fun _ buf => dclpFormats id callback n buf
        if callback then
          if sizeAdd buf.pos a.2 > buf.len then do parseError; pure false
          else if buf.data.length < buf.pos + a.2 then throw (.fault .clipParse)
          else do
            emits [.clipboard id a.1 (slice buf.data buf.pos a.2)]
            rest
        else rest

def dclpEnd (e : MsgEnv) (i : Fin 2) : Syn Unit := do
  let s ← get
  let c := s.ctx.clip i
  parse .clipParse sspNetU32 ⟨c.mem, 0, c.posExpect⟩ () fun numFormats clipmsg => do
    if ← dclpFormats i s.ctx.callbacks.clipboard numFormats clipmsg then
      setClip i fun c => { c with inStream := false }
      replyCnop e
    else pure ()

def processDclp (e : MsgEnv) (msg : SspBuf) : Syn Unit :=
  parse .message dclpHeader msg () fun h msg => do
    if h.mark = synDataStart then
      let i ← clipIndex h.id
      dclpStart e i h.len msg
    else if h.mark = synDataChunk then
      let i ← clipIndex h.id
      let s ← get
      if (s.ctx.clip i).inStream then dclpChunk e i h.len msg else replyCnop e
    else if h.mark = synDataEnd then
      let i ← clipIndex h.id
      let s ← get
      if (s.ctx.clip i).inStream then dclpEnd e i else replyCnop e
    else replyCnop e

/-! ### Dispatch -/

/-- The packet ids in the order of the comparisons. -/
inductive Pkt
  | qinf | ciak | crop | cinn | cout | csec | dmdn | dmup | dmmv | dmrm | dmwm | dkdn | dkrp | dkup
  | dgbt | dgst | dsop | calv | cclp | dclp | cbye | ebad | ebsy
deriving DecidableEq

namespace Pkt

def code : Pkt → Bytes
  | qinf => ascii ['Q', 'I', 'N', 'F']
  | ciak => ascii ['C', 'I', 'A', 'K']
  | crop => ascii ['C', 'R', 'O', 'P']
  | cinn => ascii ['C', 'I', 'N', 'N']
  | cout => ascii ['C', 'O', 'U', 'T']
  | csec => ascii ['C', 'S', 'E', 'C']
  | dmdn => ascii ['D', 'M', 'D', 'N']
  | dmup => ascii ['D', 'M', 'U', 'P']
  | dmmv => ascii ['D', 'M', 'M', 'V']
  | dmrm => ascii ['D', 'M', 'R', 'M']
  | dmwm => ascii ['D', 'M', 'W', 'M']
  | dkdn => ascii ['D', 'K', 'D', 'N']
  | dkrp => ascii ['D', 'K', 'R', 'P']
  | dkup => ascii ['D', 'K', 'U', 'P']
  | dgbt => ascii ['D', 'G', 'B', 'T']
  | dgst => ascii ['D', 'G', 'S', 'T']
  | dsop => ascii ['D', 'S', 'O', 'P']
  | calv => ascii ['C', 'A', 'L', 'V']
  | cclp => ascii ['C', 'C', 'L', 'P']
  | dclp => ascii ['D', 'C', 'L', 'P']
  | cbye => ascii ['C', 'B', 'Y', 'E']
  | ebad => ascii ['E', 'B', 'A', 'D']
  | ebsy => ascii ['E', 'B', 'S', 'Y']

def all : List Pkt :=
  [qinf, ciak, crop, cinn, cout, csec, dmdn, dmup, dmmv, dmrm, dmwm, dkdn, dkrp, dkup, dgbt, dgst, dsop,
    calv, cclp, dclp, cbye, ebad, ebsy]

/-- The packet that a `pkt_id` names. -/
def ofId (id : Bytes) : Option Pkt := all.find? fun p => p.code = id

end Pkt

def processPkt (e : MsgEnv) (msg : SspBuf) : Pkt → Syn Unit
  | .qinf => processQinf e
  | .ciak => processCiak
  | .crop => pure ()
  | .cinn => processCinn e msg
  | .cout => processCout e
  | .csec => processCsec e msg
  | .dmdn => processDmdn e msg
  | .dmup => processDmup e msg
  | .dmmv => processDmmv e msg
  | .dmrm => processDmrm e msg
  | .dmwm => processDmwm e msg
  | .dkdn => processDkdn e msg
  | .dkrp => processDkrp e msg
  | .dkup => processDkup e msg
  | .dgbt => processDgbt e msg
  | .dgst => processDgst e msg
  | .dsop => replyCnop e
  | .calv => processCalv e
  | .cclp => processCclp e msg
  | .dclp => processDclp e msg
  | .cbye => sSetDisconnected .none
  | .ebad => sSetDisconnected .ebad
  | .ebsy => sSetDisconnected .ebsy

/-- Parse a single client message, update state, send callbacks and send replies. -/
def sProcessMessage (e : MsgEnv) (msg : SspBuf) : Syn Unit :=
  match sIsWelcome msg with
  | .error f => throw (.fault f)
  | .ok (some (imp, msg)) => processHello e imp msg
  | .ok none => parse .message (sspMemMove 4) msg () fun pktId msg =>
    match Pkt.ofId pktId with
    | some p => processPkt e msg p
    | none => pure ()

end Waynergy
