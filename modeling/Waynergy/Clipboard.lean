import Waynergy.Lib.Decimal
import Waynergy.Reply

/-!
# The local side of the clipboard (`uSynergy.c`)

Sending a clipboard in chunks, the duplicate check, and the update from the local clipboard.
-/

namespace Waynergy
open Lib

/-! ### Allocation (`xmem.h`) -/

/-- The allocator: which sizes it grants, and the bytes it leaves in fresh memory. -/
structure Heap where
  ok : Nat → Bool
  fresh : Nat → UInt8

/-- `xrealloc`; `none` is its `abort`. No object is larger than `PTRDIFF_MAX`. -/
def xrealloc (h : Heap) (old : Bytes) (len : Nat) : Option Bytes :=
  if len < 2 ^ 63 ∧ h.ok len then some (old.take len ++ (List.range (len - old.length)).map h.fresh)
  else none

theorem length_xrealloc {h : Heap} {old buf : Bytes} {len : Nat} (hr : xrealloc h old len = some buf) :
    buf.length = len ∧ len < 2 ^ 63 := by
  unfold xrealloc at hr
  split at hr
  · rename_i hc
    simp only [Option.some.injEq] at hr
    subst hr
    refine ⟨?_, hc.1⟩
    simp only [List.length_append, List.length_take, List.length_map, List.length_range]
    omega
  · cases hr

/-- Grow a clipboard buffer to `len` bytes. -/
def growClip (h : Heap) (i : Fin 2) (len : Nat) : Syn Unit := do
  let s ← get
  match xrealloc h (s.ctx.clip i).mem len with
  | some buf => setClip i fun c => { c with buf := some buf }
  | none => throw .abort

/-! ### `uSynergySendClipboard` -/

/-- The largest chunk: what the message size, id, clipboard index, sequence number and string length,
and one clipboard's format count, format and length leave of a reply. -/
def maxChunk : Nat := replyBufferSize - (4 + 4 + 1 + 4 + 4 + 4 + 4 + 4)

/-- One `DCLP` message up to its string. -/
def addDclp (id seq mark : Nat) : Syn Bool :=
  sAddString (ascii ['D', 'C', 'L', 'P']) <&&> (sAddUInt8 id <&&> (sAddUInt32 seq <&&> sAddUInt8 mark))

/-- The chunk loop, from `pos` on. It returns false after a reply error. -/
def sendChunks (sent : Bool) (id seq len : Nat) (text : Bytes) : Nat → Nat → Syn Bool
  | 0, pos => if pos < len then throw .spinning else pure true
  | fuel + 1, pos =>
    if pos < len then
      let chunkLen := if len - pos > maxChunk then maxChunk else len - pos
      -- `pos` is an `int`: from 2^31 on it points before the text
      if intMax < pos ∨ text.length < pos + chunkLen then throw (.fault .clipSend)
      else do
        if ← reply sent (addDclp id seq synDataChunk <&&> (sAddUInt32 chunkLen <&&>
            sAddBin (slice text pos chunkLen))) then
          sendChunks sent id seq len text fuel (pos + chunkLen)
        else pure false
    else pure true

/-- Send the `len` bytes at `text` as the clipboard `id`. What the sends return is not looked at. -/
def uSynergySendClipboard (sent : Bool) (id len : Nat) (text : Bytes) : Syn Unit := do
  let s ← get
  let seq := s.ctx.sequenceNumber
  if ← reply sent (addDclp id seq synDataStart <&&> (sAddUInt32 (decimal len).length <&&>
      sAddString (decimal len))) then
    if ← sendChunks sent id seq len text len 0 then
      let _ ← reply sent (addDclp id seq synDataEnd <&&> sAddUInt32 0)
      pure ()
    else pure ()
  else pure ()

/-! ### `uSynergyUpdateClipBuf` -/

/-- The loop over the formats of a clipboard buffer. It looks at the bytes behind the position for
each format, and does not move past them. -/
def containsLoop (data : Bytes) : Nat → SspBuf → Syn Bool
  | 0, _ => pure false
  | formats + 1, buf =>
    match (do sspSeek 4; sspNetU32 : Parse Nat).run buf with
    | .ok flen buf =>
      if flen = data.length then
        if buf.data.length < buf.pos + data.length then throw (.fault .clipCompare)
        else if slice buf.data buf.pos data.length = data then pure true
        else containsLoop data formats buf
      else containsLoop data formats buf
    | .error .short _ => pure false
    | .error .outside _ => throw (.fault .clipCompare)

def uSynergyClipBufContains (i : Fin 2) (data : Bytes) : Syn Bool := do
  let s ← get
  let c := s.ctx.clip i
  match c.buf with
  | none => pure false
  | some mem =>
    if c.inStream then pure false
    else match (sspNetU32 : Parse Nat).run ⟨mem, 0, c.len⟩ with
      | .ok formats buf => containsLoop data formats buf
      | .error .short _ => pure false
      | .error .outside _ => throw (.fault .clipCompare)

/-- What the local update stores: one format, text, with the length and the data. -/
def encodeText (data : Bytes) : Bytes := be32 1 ++ be32 clipboardFormatText ++ be32 data.length ++ data

/-- Update clipboard buffer from local clipboard. The `uint32_t len` is the length of `data`. -/
def uSynergyUpdateClipBuf (h : Heap) (sent : Bool) (i : Fin 2) (data : Bytes) : Syn Unit := do
  if ← uSynergyClipBufContains i data then pure ()
  else do
    setClip i fun c => { c with
      inStream := false, grabbed := true, pos := (data.length + 4 + 4 + 4) % 2 ^ 32 }
    let s ← get
    if (s.ctx.clip i).len < (s.ctx.clip i).pos then
      setClip i fun c => { c with len := c.pos }
      growClip h i (s.ctx.clip i).pos
    else pure ()
    let s ← get
    if (s.ctx.clip i).cap < (encodeText data).length then throw (.fault .clipEncode)
    else do
      setClip i fun c => { c with buf := some (overwrite c.mem 0 (encodeText data)) }
      let _ ← reply sent (sAddString (ascii ['C', 'C', 'L', 'P']) <&&> (sAddUInt8 i <&&>
        sAddUInt32 s.ctx.sequenceNumber))
      pure ()

/-! ### `uSynergyUpdateRes` -/

/-- A screen information message. -/
def addDinf (width height : Nat) : Syn Bool :=
  sAddString (ascii ['D', 'I', 'N', 'F']) <&&> (sAddUInt16 0 <&&> (sAddUInt16 0 <&&> (sAddUInt16 width <&&>
    (sAddUInt16 height <&&> (sAddUInt16 0 <&&> (sAddUInt16 0 <&&> sAddUInt16 0))))))

/-- Update resolution. Here what the builders return is not looked at, and each of them is tried. -/
def uSynergyUpdateRes (sent : Bool) (width height : Int) : Syn Unit := do
  setCtx fun c => { c with clientWidth := (width % 65536).toNat, clientHeight := (height % 65536).toNat }
  let s ← get
  if s.ctx.connected then
    let _ ← sAddString (ascii ['D', 'I', 'N', 'F'])
    let _ ← sAddUInt16 0
    let _ ← sAddUInt16 0
    let _ ← sAddUInt16 s.ctx.clientWidth
    let _ ← sAddUInt16 s.ctx.clientHeight
    let _ ← sAddUInt16 0
    let _ ← sAddUInt16 0
    let _ ← sAddUInt16 0
    let _ ← sSendReply sent
    setCtx fun c => { c with infoCurrent := false }
  else pure ()

end Waynergy
