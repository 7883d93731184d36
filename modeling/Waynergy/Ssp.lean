import Waynergy.Lib.Bytes
import Waynergy.Lib.Proc

/-!
# Safe stream parsing (`ssp.c`)

A `sspBuf` is a pointer with a position and a length. The model's `data` is the memory from that
pointer to the end of the object it points into, which `len` may exceed: a read then is `outside`.
The readers are the little-endian build's; the big-endian build reads the same numbers.
-/

namespace Waynergy
open Lib

structure SspBuf where
  data : Bytes
  pos : Nat
  len : Nat
deriving DecidableEq

/-- A view of exactly the bytes `bs`. -/
def SspBuf.ofBytes (bs : Bytes) : SspBuf := ⟨bs, 0, bs.length⟩

/-- Why a read fails: it goes beyond `len` (the function returns false), or it is allowed by `len`
but leaves the memory. -/
inductive ParseFail
  | short
  | outside
deriving DecidableEq

abbrev Parse (α : Type) := Proc ParseFail SspBuf α

/-- Addition of `size_t`. -/
def sizeAdd (a b : Nat) : Nat := (a + b) % 2 ^ 64

theorem sizeAdd_eq {a b : Nat} (h : a + b < 2 ^ 64) : sizeAdd a b = a + b := Nat.mod_eq_of_lt h

def sspSeek (len : Nat) : Parse Unit := do
  let buf ← get
  if sizeAdd buf.pos len > buf.len then throw .short
  else set { buf with pos := sizeAdd buf.pos len }

/-- The bytes that `sspNetInt` and `sspMemMove` take. -/
def sspTake (len : Nat) : Parse Bytes := do
  let buf ← get
  if sizeAdd buf.pos len > buf.len then throw .short
  else if buf.data.length < buf.pos + len then throw .outside
  else do
    set { buf with pos := buf.pos + len }
    pure (slice buf.data buf.pos len)

/-- `sspNetInt` with a destination; without one it is `sspSeek`. -/
def sspNetInt (len : Nat) : Parse Nat := do
  let bs ← sspTake len
  pure (beNat bs)

def sspMemMove (len : Nat) : Parse Bytes := sspTake len

def sspChar : Parse Int := do
  let n ← sspNetInt 1
  pure (signed 8 n)

def sspUChar : Parse Nat := sspNetInt 1

def sspNet16 : Parse Int := do
  let n ← sspNetInt 2
  pure (signed 16 n)

def sspNetU16 : Parse Nat := sspNetInt 2

def sspNet32 : Parse Int := do
  let n ← sspNetInt 4
  pure (signed 32 n)

def sspNetU32 : Parse Nat := sspNetInt 4

end Waynergy
