import Waynergy.Keymap
import Waynergy.Lib.Run

/-!
# The mapper (`mapper.c`)

The mapper asks for the local keys that have a name, one after another. It is told the remote code of a key, or to skip
it, to go back, or to print what it was told.
-/

namespace Waynergy
open Lib

/-! ### The state -/

/-- The codes of the local keys, and the names of those that have one. -/
structure LocalKeymap where
  min : Nat
  max : Nat
  keyName : Nat → Option Bytes
  min_le : min ≤ max
  max_le : max ≤ xkbKeycodeMax

/-- Two keys, both of which have a name. -/
def LocalKeymap.sample : LocalKeymap where
  min := 8
  max := 9
  keyName i := if i = 8 then some (ascii ['E', 'S', 'C']) else if i = 9 then some (ascii ['A', 'E', '0', '1']) else none
  min_le := by decide
  max_le := by decide

structure MapperOptions where
  xkbOutName : Option Bytes
  xkbSkipped : Bool

/-- The arrays have an element for each code up to the maximum. What is printed is kept by lines. -/
structure Mapper where
  rawKeymap : Nat → Nat
  rawKeymapSet : Nat → Bool
  rawKeymapPos : Nat
  started : Bool
  outFile : List Bytes

/-- The mapper exits, stores outside of its arrays, or does not find the end of a loop. -/
inductive MapperStop
  | exit (code : Nat)
  | fault
  | spinning

abbrev Mapping (α : Type) := Proc MapperStop Mapper α

namespace Mapper

def fprintf (lines : List Bytes) : Mapping Unit := modify fun s => { s with outFile := s.outFile ++ lines }

/-! ### Printing -/

/-- `%u = %u` for a remote code and its key -/
def rawLine (code key : Nat) : Bytes :=
  decimal code ++ (ascii [' ', '=', ' '] ++ (decimal key ++ [10]))

def rawHeader : Bytes := ascii "[raw-keymap]\n".toList

def xkbLine (name : Bytes) (code : Nat) : Bytes :=
  ascii ['\t', '<'] ++ (name ++ (ascii ['>', ' ', '=', ' '] ++ (decimal code ++ ascii [';', '\n'])))

def mappedMin (codes : List Nat) : Nat := codes.foldl (fun m code => if code < m then code else m) 0xFFFFFFFF

def mappedMax (codes : List Nat) : Nat := codes.foldl (fun m code => if code > m then code else m) 0

/-- The section in front of its keys. -/
def xkbHeader (secName : Bytes) (codes : List Nat) : List Bytes :=
  [ascii "xkb_keycodes \"".toList ++ (secName ++ ascii "\" \x7b\n".toList),
    ascii "\tminimum = ".toList ++ (decimal (mappedMin codes) ++ ascii [';', '\n']),
    ascii "\tmaximum = ".toList ++ (decimal (mappedMax codes) ++ ascii [';', '\n'])]

def xkbEnd : Bytes := ascii "\x7d;\n".toList

variable (km : LocalKeymap) (opts : MapperOptions)

/-- The codes that the loops of the printers go through. -/
def looped : List Nat := List.range' km.min (km.max - km.min)

def rawKeymapPrint : Mapping Unit := do
  let s ← get
  fprintf [rawHeader]
  fprintf ((looped km).filterMap fun i => if s.rawKeymap i ≠ i then some (rawLine (s.rawKeymap i) i) else none)
  throw (.exit 0)

def counted (s : Mapper) : List Nat := (looped km).filter fun i => s.rawKeymapSet i || opts.xkbSkipped

def xkbKeycodesPrint (secName : Bytes) : Mapping Unit := do
  let s ← get
  if counted km opts s = [] then throw (.exit 1)
  else do
    fprintf (xkbHeader secName ((counted km opts s).map s.rawKeymap))
    fprintf ((counted km opts s).filterMap fun i => (km.keyName i).map fun name => xkbLine name (s.rawKeymap i))
    fprintf [xkbEnd]
    throw (.exit 0)

def printOutput : Mapping Unit :=
  match opts.xkbOutName with
  | some name => xkbKeycodesPrint km opts name
  | none => rawKeymapPrint km

/-! ### Moving -/

def rawKeymapNext : Mapping Unit := do
  modify fun s => { s with rawKeymapPos := (s.rawKeymapPos + 1) % 2 ^ 32 }
  let s ← get
  if s.rawKeymapPos > km.max then printOutput km opts else pure ()

def rawKeymapPrev : Mapping Unit :=
  modify fun s => if s.rawKeymapPos > km.min then
    { s with
      rawKeymapSet := Function.update s.rawKeymapSet s.rawKeymapPos false
      rawKeymapPos := s.rawKeymapPos - 1 }
    else s

def rawKeymapStore (val : Nat) : Mapping Unit := do
  let s ← get
  if s.rawKeymapPos > km.max then throw .fault
  else do
    modify fun s => { s with
      rawKeymap := Function.update s.rawKeymap s.rawKeymapPos val
      rawKeymapSet := Function.update s.rawKeymapSet s.rawKeymapPos true }
    rawKeymapNext km opts

/-- The last element is left as `calloc` made it. -/
def rawKeymapInit : Mapper where
  rawKeymap i := if i < km.max then i else 0
  rawKeymapSet _ := false
  rawKeymapPos := km.min
  started := false
  outFile := []

/-- Skip invalid keycodes. -/
def promptFrom : Nat → Mapping Unit
  | 0 => throw .spinning
  | fuel + 1 => do
    let s ← get
    if (km.keyName s.rawKeymapPos).isSome then pure ()
    else do
      rawKeymapNext km opts
      promptFrom fuel

def rawKeymapPrompt : Mapping Unit := promptFrom km opts (km.max + 1)

/-! ### Events -/

inductive Button
  | left
  | middle
  | right
  | other

/-- A `state` other than 0 is that of a key that is pressed. -/
def keyboardKey (key : UInt32) (state : Bool) : Mapping Unit := do
  let s ← get
  if s.started ∧ state = false then do
    rawKeymapStore km opts (key + 8).toNat
    rawKeymapPrompt km opts
  else pure ()

def clicked : Button → Mapping Unit
  | .left => rawKeymapNext km opts
  | .middle => rawKeymapPrev km
  | .right => printOutput km opts
  | .other => pure ()

/-- The first click starts the mapping. -/
def buttonReleased (button : Button) : Mapping Unit := do
  let s ← get
  if s.started = false then modify fun s => { s with started := true }
  else clicked km opts button

def pointerButton (button : Button) (state : Bool) : Mapping Unit :=
  if state then pure ()
  else do
    buttonReleased km opts button
    rawKeymapPrompt km opts

end Mapper

inductive MapperEvent
  | key (key : UInt32) (state : Bool)
  | button (button : Mapper.Button) (state : Bool)

def MapperEvent.exec (km : LocalKeymap) (opts : MapperOptions) : MapperEvent → Mapping Unit
  | .key code state => Mapper.keyboardKey km opts code state
  | .button b state => Mapper.pointerButton km opts b state

namespace Mapper

/-- The states that the mapper can reach. -/
def Reachable (km : LocalKeymap) (opts : MapperOptions) (s : Mapper) : Prop :=
  ∃ steps, Run (MapperEvent.exec km opts) (rawKeymapInit km) steps s

/-! ### What is printed -/

/-- What is printed after some events. -/
def printedAfter (km : LocalKeymap) (opts : MapperOptions) (events : List MapperEvent) (s : Mapper) : List Bytes :=
  match (events.forM (MapperEvent.exec km opts)).run s with
  | .ok _ s' => s'.outFile
  | .error _ s' => s'.outFile

def rawLines (km : LocalKeymap) (s : Mapper) : List Bytes :=
  (looped km).filterMap fun i => if s.rawKeymap i ≠ i then some (rawLine (s.rawKeymap i) i) else none

def xkbLines (km : LocalKeymap) (opts : MapperOptions) (s : Mapper) : List Bytes :=
  (counted km opts s).filterMap fun i => (km.keyName i).map fun name => xkbLine name (s.rawKeymap i)

/-- The lines for what the arrays hold. -/
def outputLines (km : LocalKeymap) (opts : MapperOptions) (s : Mapper) : List Bytes :=
  match opts.xkbOutName with
  | some secName =>
    if counted km opts s = [] then []
    else xkbHeader secName ((counted km opts s).map s.rawKeymap) ++ xkbLines km opts s ++ [xkbEnd]
  | none => rawHeader :: rawLines km s

/-- The mapper exits in `s'`, and has printed what the arrays of `s` hold. -/
def Ends (km : LocalKeymap) (opts : MapperOptions) (s : Mapper) (stop : MapperStop) (s' : Mapper) : Prop :=
  (∃ code, stop = .exit code) ∧ s'.outFile = s.outFile ++ outputLines km opts s

/-- Nothing is asked for a code without a name. -/
def Named (km : LocalKeymap) (i : Nat) : Prop := (km.keyName i).isSome = true

instance (km : LocalKeymap) (i : Nat) : Decidable (Named km i) := inferInstanceAs (Decidable (_ = true))

variable {km : LocalKeymap} {opts : MapperOptions} {s s' : Mapper}

theorem printOutput_spec : wp (printOutput km opts) (fun _ _ => False) (Ends km opts s) s := by
  unfold printOutput Ends outputLines
  cases opts.xkbOutName with
  | none => exact ⟨⟨0, rfl⟩, List.append_assoc _ _ _⟩
  | some secName =>
    unfold xkbKeycodesPrint
    rw [wp_bind, wp_get, wp_ite]
    dsimp only
    split
    · exact ⟨⟨1, rfl⟩, (List.append_nil _).symm⟩
    · refine ⟨⟨0, rfl⟩, ?_⟩
      show s.outFile ++ _ ++ _ ++ _ = s.outFile ++ (_ ++ _ ++ _)
      rw [List.append_assoc, List.append_assoc, List.append_assoc]
      rfl

/-! ### Moving -/

theorem rawKeymapNext_spec (hpos : s.rawKeymapPos ≤ km.max) : wp (rawKeymapNext km opts)
    (fun _ s' => s.rawKeymapPos < km.max ∧ s' = { s with rawKeymapPos := s.rawKeymapPos + 1 })
    (fun stop s' => s.rawKeymapPos = km.max ∧ Ends km opts s stop s') s := by
  have hmax : km.max ≤ 0xFFFFFFFF - 1 := km.max_le
  have hmod : (s.rawKeymapPos + 1) % 2 ^ 32 = s.rawKeymapPos + 1 := Nat.mod_eq_of_lt (by omega)
  unfold rawKeymapNext
  rw [wp_bind, wp_modify, hmod, wp_bind, wp_get, wp_ite]
  split
  · rename_i hend
    have hend : s.rawKeymapPos + 1 > km.max := hend
    exact wp_mono printOutput_spec (fun _ _ => False.elim) fun _ _ hends => ⟨by omega, hends⟩
  · rename_i hmore
    have hmore : ¬ s.rawKeymapPos + 1 > km.max := hmore
    exact ⟨by omega, rfl⟩

/-- The mapper asks for the next key that has a name, from the position on, or exits if there is none. -/
theorem rawKeymapPrompt_spec (hpos : s.rawKeymapPos ≤ km.max) : wp (rawKeymapPrompt km opts)
    (fun _ s' => ∃ q, s.rawKeymapPos ≤ q ∧ q ≤ km.max ∧ Named km q ∧ (∀ i, s.rawKeymapPos ≤ i → i < q → ¬ Named km i) ∧
      s' = { s with rawKeymapPos := q })
    (fun stop s' => (∀ i, s.rawKeymapPos ≤ i → i ≤ km.max → ¬ Named km i) ∧ Ends km opts s stop s') s := by
  unfold rawKeymapPrompt
  generalize hfuel : km.max + 1 = fuel
  replace hfuel : km.max < s.rawKeymapPos + fuel := by omega
  induction fuel generalizing s with
  | zero => omega
  | succ fuel ih =>
    unfold promptFrom
    rw [wp_bind, wp_get, wp_ite]
    split
    · rename_i hnamed
      exact ⟨s.rawKeymapPos, Nat.le_refl _, hpos, hnamed, fun i hle hlt => absurd hlt (Nat.not_lt.mpr hle), rfl⟩
    · rename_i hnamed
      rw [wp_bind]
      refine wp_mono (rawKeymapNext_spec hpos) ?_ ?_
      · rintro _ _ ⟨hlt, rfl⟩
        have hskip : ∀ i, s.rawKeymapPos ≤ i → i = s.rawKeymapPos ∨ s.rawKeymapPos + 1 ≤ i := by omega
        refine wp_mono (ih (s := { s with rawKeymapPos := s.rawKeymapPos + 1 }) hlt (by dsimp only; omega)) ?_ ?_
        · rintro _ _ ⟨q, hle, hqmax, hq, hbetween, rfl⟩
          refine ⟨q, Nat.le_of_succ_le hle, hqmax, hq, fun i hi hiq => ?_, rfl⟩
          rcases hskip i hi with rfl | hi
          exacts [hnamed, hbetween i hi hiq]
        · rintro stop s' ⟨hnone, hends⟩
          refine ⟨fun i hi himax => ?_, hends⟩
          rcases hskip i hi with rfl | hi
          exacts [hnamed, hnone i hi himax]
      · rintro stop s' ⟨hend, hends⟩
        refine ⟨fun i hi himax => ?_, hends⟩
        obtain rfl : i = s.rawKeymapPos := by omega
        exact hnamed

/-! ### Events while mapping -/

section
variable {Q : Unit → Mapper → Prop} {E : MapperStop → Mapper → Prop}

theorem wp_keyReleased (hstarted : s.started = true) (key : UInt32) : wp (keyboardKey km opts key false) Q E s ↔
    wp (rawKeymapStore km opts (key + 8).toNat) (fun _ s' => wp (rawKeymapPrompt km opts) Q E s') E s := by
  unfold keyboardKey
  rw [wp_bind, wp_get, wp_ite, if_pos ⟨hstarted, rfl⟩, wp_bind]

theorem wp_clicked (hstarted : s.started = true) (button : Button) : wp (pointerButton km opts button false) Q E s ↔
    wp (clicked km opts button) (fun _ s' => wp (rawKeymapPrompt km opts) Q E s') E s := by
  have hno : ¬ s.started = false := by rw [hstarted]; exact Bool.noConfusion
  unfold pointerButton buttonReleased
  rw [if_neg Bool.false_ne_true, wp_bind, wp_bind, wp_get, wp_ite, if_neg hno]

end

theorem rawKeymapStore_spec (val : Nat) (hpos : s.rawKeymapPos ≤ km.max) : wp (rawKeymapStore km opts val)
    (fun _ s' => s.rawKeymapPos < km.max ∧ s' = { s with
      rawKeymap := Function.update s.rawKeymap s.rawKeymapPos val
      rawKeymapSet := Function.update s.rawKeymapSet s.rawKeymapPos true
      rawKeymapPos := s.rawKeymapPos + 1 })
    (fun stop s' => s.rawKeymapPos = km.max ∧ Ends km opts { s with
      rawKeymap := Function.update s.rawKeymap s.rawKeymapPos val
      rawKeymapSet := Function.update s.rawKeymapSet s.rawKeymapPos true } stop s') s := by
  unfold rawKeymapStore
  rw [wp_bind, wp_get, wp_ite, if_neg (Nat.not_lt.mpr hpos), wp_bind, wp_modify]
  exact rawKeymapNext_spec (s := { s with
    rawKeymap := Function.update s.rawKeymap s.rawKeymapPos val
    rawKeymapSet := Function.update s.rawKeymapSet s.rawKeymapPos true }) hpos

/-- The position is in the range of the key map, and once mapping is started, at a key that is asked for. -/
structure Asks (km : LocalKeymap) (s : Mapper) : Prop where
  low : km.min ≤ s.rawKeymapPos
  high : s.rawKeymapPos ≤ km.max
  named : s.started = true → Named km s.rawKeymapPos

theorem asks_prompt (hlow : km.min ≤ s.rawKeymapPos) (hhigh : s.rawKeymapPos ≤ km.max) :
    wp (rawKeymapPrompt km opts) (fun _ s' => Asks km s') (fun _ _ => True) s := by
  refine wp_mono (rawKeymapPrompt_spec hhigh) ?_ fun _ _ _ => trivial
  rintro _ _ ⟨q, hle, hmax, hq, -, rfl⟩
  exact ⟨Nat.le_trans hlow hle, hmax, fun _ => hq⟩

end Mapper
end Waynergy
