import Waynergy.Message

/-!
# Receiving: `sUpdateContext` (`uSynergy.c`) and `syn_recv` (`net.c`)

`sUpdateContext` reads once, then takes packets off the front of the receive buffer, and discards the
tail of a packet that the buffer cannot hold. What the outside answers during one call is an
`UpdateEnv`.
-/

namespace Waynergy
open Lib

/-- What the outside answers during one call of `sUpdateContext`: the bytes that the first read finds, the
bytes that each read of the discard loop finds, the time, what the messages of the call need, and a bound on
the iterations that are followed. -/
structure UpdateEnv where
  avail : Bytes
  ditch : List Bytes
  now : Nat
  msgs : Nat → MsgEnv
  fuel : Nat

/-- Read 32 bit integer in network byte order and convert to native byte order. -/
def sNetToNative32 : Bytes → Nat
  | b0 :: b1 :: b2 :: b3 :: _ => b3.toNat ||| b2.toNat <<< 8 ||| b1.toNat <<< 16 ||| b0.toNat <<< 24
  | _ => 0

theorem sNetToNative32_eq {bs : Bytes} (h : 4 ≤ bs.length) : sNetToNative32 bs = beNat (bs.take 4) := by
  match bs, h with
  | b0 :: b1 :: b2 :: b3 :: rest, _ =>
    have h0 := b0.toNat_lt
    have h1 := b1.toNat_lt
    have h2 := b2.toNat_lt
    have h3 := b3.toNat_lt
    have e2 := Nat.shiftLeft_add_eq_or_of_lt (show b3.toNat < 2 ^ 8 from h3) b2.toNat
    have e1 := Nat.shiftLeft_add_eq_or_of_lt
      (show b2.toNat <<< 8 + b3.toNat < 2 ^ 16 by rw [Nat.shiftLeft_eq]; omega) b1.toNat
    have e0 := Nat.shiftLeft_add_eq_or_of_lt
      (show b1.toNat <<< 16 + (b2.toNat <<< 8 + b3.toNat) < 2 ^ 24 by simp only [Nat.shiftLeft_eq]; omega) b0.toNat
    rw [sNetToNative32, Nat.or_comm b3.toNat, ← e2, Nat.or_comm _ (b1.toNat <<< 16), ← e1,
      Nat.or_comm _ (b0.toNat <<< 24), ← e0]
    simp only [Nat.shiftLeft_eq, List.take_succ_cons, List.take_zero, beNat_four]
    omega

/-! ### Reading -/

/-- `syn_recv`: at most `maxLen` of the bytes that are there. A read of no bytes failed or timed out, and so
does one of a negative length, which is a `size_t` beyond the address space. -/
def synRecv (avail : Bytes) (maxLen : Int) : Syn (Option Bytes) :=
  if avail.take maxLen.toNat = [] then do
    setCtx fun c => { c with lastError := .timeout }
    pure none
  else pure (some (avail.take maxLen.toNat))

/-- Receive failed, let's try to reconnect. -/
def receiveFailed : Syn Unit := do
  sSetDisconnected .timeout
  emits [.sleep 1000]

/-- `(int32_t)(now - last)` of two `uint32_t` times. -/
def elapsed (now last : Nat) : Int := signed 32 (now + (2 ^ 32 - last % 2 ^ 32))

/-- The bytes `bs` arrived behind the write position. -/
def received (bs : Bytes) (now : Nat) : Syn Unit := do
  let s ← get
  if h : s.ctx.receiveOfs + bs.length ≤ receiveBufferSize then do
    setCtx fun c => { c with
      receiveBuffer := s.ctx.receiveBuffer.write s.ctx.receiveOfs bs h
      receiveOfs := s.ctx.receiveOfs + bs.length }
    if bs = [] then emits [.sleep 500] else pure ()
    if s.ctx.hasReceivedHello then
      if bs = [] then
        if elapsed now s.ctx.lastMessageTime > idleTimeout then sSetDisconnected .timeout else pure ()
      else setCtx fun c => { c with lastMessageTime := now }
    else pure ()
  else throw (.fault .receiveBuffer)

/-- The first read of `sUpdateContext`. It returns false if the read failed. -/
def receive (avail : Bytes) (now : Nat) : Syn Bool := do
  let s ← get
  match ← synRecv avail (receiveBufferSize - s.ctx.receiveOfs) with
  | none => do receiveFailed; pure false
  | some bs => do received bs now; pure true

/-! ### The loop that eats packets -/

/-- `packlen + 4` as the `uint32_t` it is. -/
def packSize (packlen : Nat) : Nat := (packlen + 4) % 2 ^ 32

/-- The length that the front of the receive buffer announces. -/
def Context.packlen (c : Context) : Nat := sNetToNative32 c.receiveBuffer.bytes

/-- The packet at the front of the receive buffer, as it is handed over. -/
def Context.packet (c : Context) : SspBuf := ⟨c.receiveBuffer.bytes.drop 4, 0, c.packlen⟩

/-- Process message. -/
def handMessage (e : MsgEnv) (msg : SspBuf) : Syn Unit := do
  let s ← get
  emits [.message msg s.ctx.receiveOfs]
  sProcessMessage e msg
  let s ← get
  emits [.returned s.ctx.connected]

theorem length_slice_le {n : Nat} (b : Buf n) (i len : Nat) : 0 + (slice b.bytes i len).length ≤ n := by
  have := b.size
  simp only [slice, List.length_take, List.length_drop]; omega

/-- Move packet to front of buffer. The length that is moved is computed in `uint32_t`. -/
def consume (packlen : Nat) : Syn Unit := do
  let s ← get
  let src := packlen + 4
  let len := (s.ctx.receiveOfs + (2 ^ 32 - packSize packlen)) % 2 ^ 32
  if len ≠ 0 ∧ receiveBufferSize < src + len then throw (.fault .receiveBuffer)
  else do
    emits [.shift src len s.ctx.receiveOfs (s.ctx.receiveOfs - packSize packlen)]
    setCtx fun c => { c with
      receiveBuffer := s.ctx.receiveBuffer.write 0 (slice s.ctx.receiveBuffer.bytes src len) (length_slice_le _ _ _)
      receiveOfs := s.ctx.receiveOfs - packSize packlen }

/-- Eat packets, the `i`-th message of the call first. It returns `packlen` when the packet goes beyond the
end of the buffer, and `none` when a message lost the connection. -/
def eatPackets (msgs : Nat → MsgEnv) (i : Nat) : Nat → Syn (Option Nat)
  | 0 => throw .spinning
  | fuel + 1 => do
    let s ← get
    if packSize s.ctx.packlen > s.ctx.receiveOfs then pure (some s.ctx.packlen)
    else do
      handMessage (msgs i) s.ctx.packet
      let s' ← get
      if s'.ctx.connected then do
        consume s.ctx.packlen
        eatPackets msgs (i + 1) fuel
      else pure none

/-! ### Over-sized packets -/

/-- One read of the discard loop, when `numReceived` bytes of the packet have been received. It returns the
number of bytes read, or `none` if the read failed. -/
def ditchRead (packlen : Nat) (numReceived : Int) (avail : Bytes) : Syn (Option Nat) := do
  let bufferLeft := signed 32 ((packlen - numReceived) % 2 ^ 32).toNat
  let toReceive := if bufferLeft < receiveBufferSize then bufferLeft else receiveBufferSize
  match ← synRecv avail toReceive with
  | none => do receiveFailed; pure none
  | some bs => do
    let s ← get
    if h : 0 + bs.length ≤ receiveBufferSize then do
      setCtx fun c => { c with receiveBuffer := s.ctx.receiveBuffer.write 0 bs h }
      pure (some bs.length)
    else throw (.fault .receiveBuffer)

/-- Ditch the tail end of a packet. -/
def ditchTail (packlen : Nat) : Int → List Bytes → Syn Unit
  | numReceived, reads =>
    if numReceived % 2 ^ 32 = packlen then pure ()
    else match reads with
      | [] => throw .spinning
      | avail :: reads => do
        match ← ditchRead packlen numReceived avail with
        | some n =>
          if (intMax : Int) < numReceived + n then throw (.fault .overflow)
          else ditchTail packlen (numReceived + n) reads
        | none => pure ()

def resetReceive : Syn Unit := setCtx fun c => { c with receiveOfs := 0 }

/-- Throw away over-sized packets. -/
def ditchOversized (packlen : Nat) (reads : List Bytes) : Syn Unit := do
  if packlen > receiveBufferSize then do
    let s ← get
    ditchTail packlen (s.ctx.receiveOfs - 4) reads
    resetReceive
  else pure ()

/-! ### `sUpdateContext` -/

/-- Update a connected context. -/
def sUpdateContext (e : UpdateEnv) : Syn Unit := do
  if ← receive e.avail e.now then
    match ← eatPackets e.msgs 0 e.fuel with
    | some packlen => ditchOversized packlen e.ditch
    | none => pure ()
  else pure ()

end Waynergy
