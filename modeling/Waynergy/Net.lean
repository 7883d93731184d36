import Waynergy.Update

/-!
# Connecting and polling (`net.c`), `uSynergyUpdate` (`uSynergy.c`) and the main loop (`main.c`)

Of `struct synNetContext` the model keeps the descriptor; the TLS set-up is part of whether an address
can be connected to. `poll` is known by what each of its returns reports.
-/

namespace Waynergy
open Lib

/-! ### Connecting -/

/-- Connecting to one address: `socket` fails, or gives a descriptor, and the rest of the set-up
succeeds or not. -/
inductive Attempt
  | noSocket
  | socket (fd : Nat) (ok : Bool)

/-- What the outside answers to one connection attempt: the addresses of the host, if it has any, and the
time. -/
structure ConnectEnv where
  attempts : Option (List Attempt)
  now : Nat

def synNetDisconnect : Syn Bool := do
  let s ← get
  if s.net.fd = -1 then pure false
  else do
    modify fun s => { s with net := { s.net with fd := -1 }, ctx := { s.ctx with connected := false } }
    pure true

def synConnectSetup : Attempt → Syn Bool
  | .noSocket => do
    modify fun s => { s with net := { s.net with fd := -1 } }
    pure false
  | .socket fd ok => do
    modify fun s => { s with net := { s.net with fd := fd } }
    pure ok

/-- The loop over the addresses. -/
def connectLoop (now : Nat) : List Attempt → Syn Bool
  | [] => pure false
  | h :: hs => do
    if ← synConnectSetup h then
      setCtx fun c => { c with lastMessageTime := now }
      pure true
    else
      -- prevents fd and memory leakage by cleaning up after the partial failure
      let _ ← synNetDisconnect
      connectLoop now hs

def synConnect (e : ConnectEnv) : Syn Bool := do
  emits [.connect]
  match e.attempts with
  | none => pure false
  | some hostinfo => do
    let _ ← synNetDisconnect
    connectLoop e.now hostinfo

/-! ### `uSynergyUpdate` -/

/-- Try to connect. -/
def tryConnect (e : ConnectEnv) : Syn Unit := do
  let s ← get
  if s.ctx.lastError.code > 0 ∧ s.ctx.errorIsFatal s.ctx.lastError then throw .exit
  else do
    if ← synConnect e then setCtx fun c => { c with connected := true }
    else emits [.sleep 1000]

/-- What the outside answers during one call of `uSynergyUpdate`. -/
structure SynEnv where
  update : UpdateEnv
  connect : ConnectEnv

/-- Update uSynergy. -/
def uSynergyUpdate (e : SynEnv) : Syn Unit := do
  let s ← get
  if s.ctx.connected then sUpdateContext e.update else tryConnect e.connect

/-! ### `netPoll` -/

/-- The local events that reach the protocol layer: the clipboard changed, or the outputs did. -/
inductive LocalEvent
  | clipBuf (h : Heap) (sent : Bool) (i : Fin 2) (data : Bytes)
  | res (sent : Bool) (width height : Nat)

def LocalEvent.handle : LocalEvent → Syn Unit
  | clipBuf h sent i data => uSynergyUpdateClipBuf h sent i data
  | res sent width height => uSynergyUpdateRes sent width height

/-- One return of `poll` with something to do: whether the socket can be read, the time, and the local
events that are handled after it. -/
structure Round where
  readable : Bool
  env : SynEnv
  now : Nat
  events : List LocalEvent

def handleAll : List LocalEvent → Syn Unit
  | [] => pure ()
  | ev :: evs => do
    ev.handle
    handleAll evs

/-- The rounds until `poll` gives up, by its timeout or by an error. -/
def netPoll (timedOut : Bool) : List Round → Syn Unit
  | [] => do
    if timedOut then
      let _ ← synNetDisconnect
      pure ()
    else pure ()
  | r :: rounds => do
    if r.readable then uSynergyUpdate r.env else pure ()
    let s ← get
    if elapsed r.now s.ctx.lastMessageTime > idleTimeout then
      let _ ← synNetDisconnect
      pure ()
    else do
      -- ignore everything else until synergy is ready
      if s.ctx.connected then handleAll r.events else pure ()
      netPoll timedOut rounds

/-! ### The main loop -/

/-- What `main` fills in: all callbacks but that of the joystick, and that of the clipboard if it is used. -/
def mainConfig (clientName : Bytes) (clientWidth clientHeight : Nat) (useRawKeyCodes useClipboard : Bool)
    (errorIsFatal : SynError → Bool) : Config :=
  { clientName, clientWidth, clientHeight, useRawKeyCodes, errorIsFatal
    callbacks :=
      { screenActive := true, screensaver := true, mouseWheel := true, mouseButtonUp := true
        mouseButtonDown := true, mouseMove := true, keyboard := true, joystick := false
        clipboard := useClipboard } }

/-- What the outside answers during one iteration of the main loop. -/
structure MainEnv where
  env : SynEnv
  timedOut : Bool
  rounds : List Round

/-- One iteration of the main loop. -/
def mainLoop (e : MainEnv) : Syn Unit := do
  let s ← get
  -- always try updating first so we initially connect
  if s.ctx.connected then netPoll e.timedOut e.rounds else uSynergyUpdate e.env

end Waynergy
