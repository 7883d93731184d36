import Waynergy.Net
import Waynergy.Lib.Run

/-!
# The client as a machine

The operations from which the main loop is put together, each with what the outside answers to it. A run of
these operations is a history of the client: `mainLoop_performs` shows that every iteration of the main
loop, whatever it meets, is such a run, so what holds of all runs of operations holds of the program.
-/

namespace Waynergy
open Lib

inductive Op
  | connect (e : ConnectEnv)
  | receive (avail : Bytes) (now : Nat)
  /-- a message of `len` bytes, in the memory `mem` -/
  | message (e : MsgEnv) (mem : Bytes) (len : Nat)
  | consume (packlen : Nat)
  | ditch (packlen : Nat) (numReceived : Int) (avail : Bytes)
  | resetReceive
  | netDisconnect
  | updateClipBuf (h : Heap) (sent : Bool) (i : Fin 2) (data : Bytes)
  | updateRes (sent : Bool) (width height : Nat)

/-- The receiving operations are performed while there is a connection only. -/
def whenConnected (m : Syn Unit) : Syn Unit := do
  let s ← get
  if s.ctx.connected then m else pure ()

def Op.exec : Op → Syn Unit
  | connect e => do
    let s ← get
    if s.ctx.connected then pure () else tryConnect e
  | receive avail now => whenConnected do
    let _ ← Waynergy.receive avail now
    pure ()
  | message e mem len => whenConnected (handMessage e ⟨mem, 0, len⟩)
  | consume packlen => whenConnected (Waynergy.consume packlen)
  | ditch packlen numReceived avail => whenConnected do
    let _ ← ditchRead packlen numReceived avail
    pure ()
  | resetReceive => Waynergy.resetReceive
  | netDisconnect => do
    let _ ← synNetDisconnect
    pure ()
  | updateClipBuf h sent i data => uSynergyUpdateClipBuf h sent i data
  | updateRes sent width height => uSynergyUpdateRes sent width height

/-- The states that the client can reach. -/
def Reachable (s : State) : Prop := ∃ cfg steps, Run Op.exec (State.init cfg) steps s

theorem Reachable.step {s s' : State} {op : Op} (h : Reachable s) (hop : op.exec.run s = .ok () s') :
    Reachable s' := by
  obtain ⟨cfg, steps, hrun⟩ := h
  exact ⟨cfg, _, hrun.snoc hop⟩

/-! ### A first connection -/

/-- The context that `cfg` gives, connected to the first address at time 0. -/
def State.opened (cfg : Config) : State :=
  ⟨{ uSynergyInit cfg with connected := true }, ⟨3⟩, [.connect]⟩

theorem run_connect_init (cfg : Config) :
    (Op.connect ⟨some [.socket 3 true], 0⟩).exec.run (State.init cfg) = .ok () (.opened cfg) := rfl

theorem reachable_opened (cfg : Config) : Reachable (.opened cfg) :=
  ⟨cfg, _, Run.single (run_connect_init cfg)⟩

/-- Every send succeeds, memory is zero, and every allocation is granted. -/
def MsgEnv.smooth : MsgEnv := ⟨true, fun _ => 0, ⟨fun _ => true, fun _ => 0⟩⟩

/-- A client with a clipboard and no error that is fatal. -/
def Config.sample : Config := mainConfig (ascii ['w']) 0 0 true true fun _ => false

end Waynergy
