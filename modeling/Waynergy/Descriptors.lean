import Waynergy.ClipPath
import Waynergy.Lib.Handles
import Waynergy.PollEntry

/-!
# The descriptors of the client (`net.c`, `clip.c`, `config.c`, `wayland.c`, `main.c`)

The main loop next to the descriptors that the system has given to the client. What it does with the context is that
of `Net`. A stop is at `badClose` if a descriptor is closed that is not open: it may by then belong to another part of
the client. The callbacks of an update are run after it, as they do not touch what it works on.
-/

namespace Waynergy
open Lib

inductive FdStop
  | syn (stop : Stop)
  /-- a descriptor is closed that is not open -/
  | badClose
  /-- the system gave out a descriptor that is open -/
  | unreal
  /-- the data of an updater do not come -/
  | waits

structure FdState where
  kernel : Handles
  /-- ghost: the descriptors of configuration files -/
  lost : Multiset Nat
  syn : State
  clip : ClipFds
  /-- `POLLIN` in the `revents` of `netPollFd` -/
  revents : ClipEntry → Bool

abbrev FdProc (α : Type) := Proc FdStop FdState α

namespace FdState

def onSyn {α : Type} (m : Syn α) : FdProc α := fun s =>
  match m.run s.syn with
  | .ok a t => .ok a { s with syn := t }
  | .error stop t => .error (.syn stop) { s with syn := t }

def fdOpen (fd : Nat) : FdProc Unit :=
  zoom FdState.kernel (fun k s => { s with kernel := k }) (openHandle .unreal fd)

/-- `close` -/
def fdClose (fd : Int) : FdProc Unit :=
  zoom FdState.kernel (fun k s => { s with kernel := k }) (closeHandle .badClose fd)

/-- `read_file_dumb` and `configReadLines`: the file is opened, if it can be, and not closed. -/
def readFileDumb : Option Nat → FdProc Unit
  | none => pure ()
  | some fd => do
    fdOpen fd
    modify fun s => { s with lost := {fd} + s.lost }

def configWriteString : Option Nat → FdProc Unit
  | none => pure ()
  | some fd => do
    fdOpen fd
    fdClose fd

/-! ### The connection -/

/-- One address: `socket` fails or gives a descriptor; then the hash file may be opened for reading and for writing,
and the rest of the set-up succeeds or not. -/
inductive FdAttempt
  | noSocket
  | socket (fd : Nat) (hash stored : Option Nat) (ok : Bool)

def FdAttempt.outline : FdAttempt → Attempt
  | noSocket => .noSocket
  | socket fd _ _ ok => .socket fd ok

structure FdConnectEnv where
  attempts : Option (List FdAttempt)
  now : Nat

def FdConnectEnv.outline (e : FdConnectEnv) : ConnectEnv := ⟨e.attempts.map (List.map FdAttempt.outline), e.now⟩

def synNetDisconnect : FdProc Bool := do
  let s ← get
  if s.syn.net.fd = -1 then pure false
  else do
    fdClose s.syn.net.fd
    onSyn Waynergy.synNetDisconnect

def synConnectSetup (a : FdAttempt) : FdProc Bool :=
  match a with
  | .noSocket => onSyn (Waynergy.synConnectSetup .noSocket)
  | .socket fd hash stored ok => do
    fdOpen fd
    readFileDumb hash
    configWriteString stored
    onSyn (Waynergy.synConnectSetup (.socket fd ok))

def connectLoop (now : Nat) : List FdAttempt → FdProc Bool
  | [] => pure false
  | h :: hs => do
    if ← synConnectSetup h then
      onSyn (setCtx fun c => { c with lastMessageTime := now })
      pure true
    else
      let _ ← synNetDisconnect
      connectLoop now hs

def synConnect (e : FdConnectEnv) : FdProc Bool := do
  onSyn (emits [.connect])
  match e.attempts with
  | none => pure false
  | some hostinfo => do
    let _ ← synNetDisconnect
    connectLoop e.now hostinfo

def tryConnect (e : FdConnectEnv) : FdProc Unit := do
  let s ← get
  if s.syn.ctx.lastError.code > 0 ∧ s.syn.ctx.errorIsFatal s.syn.ctx.lastError then throw (.syn .exit)
  else do
    if ← synConnect e then onSyn (setCtx fun c => { c with connected := true })
    else onSyn (emits [.sleep 1000])

/-! ### The callbacks -/

/-- What the system answers to one callback: to `fopen` in `configReadLines`, and to `pipe` in `clipWlCopy`. -/
structure CallbackEnv where
  lines : Option Nat
  pipe : Option (Nat × Nat)

/-- Whether `wl-copy` can be spawned or not, both ends are closed. -/
def clipWlCopy : Option (Nat × Nat) → FdProc Unit
  | none => pure ()
  | some (fd₀, fd₁) => do
    fdOpen fd₀
    fdOpen fd₁
    fdClose fd₀
    fdClose fd₁

def callback (e : CallbackEnv) : Event → FdProc Unit
  | .screenActive _ => readFileDumb e.lines
  | .screensaver _ => readFileDumb e.lines
  | .clipboard _ format _ => if format = 0 then clipWlCopy e.pipe else pure ()
  | _ => pure ()

/-- The `k`-th callback first. -/
def callbacks (e : Nat → CallbackEnv) (k : Nat) : List Event → FdProc Unit
  | [] => pure ()
  | ev :: evs => do
    callback (e k) ev
    callbacks e (k + 1) evs

structure FdSynEnv where
  update : UpdateEnv
  callbacks : Nat → CallbackEnv
  connect : FdConnectEnv

def uSynergyUpdate (e : FdSynEnv) : FdProc Unit := do
  let s ← get
  if s.syn.ctx.connected then do
    onSyn (sUpdateContext e.update)
    let s' ← get
    callbacks e.callbacks 0 (s'.syn.out.drop s.syn.out.length)
  else tryConnect e.connect

/-! ### The clipboard sockets -/

/-- What the system answers while one entry is processed, and whether a message can be sent then. -/
structure ClipEnv where
  accept : Accept
  stream : Bytes
  reads : List Io
  heap : Heap
  sent : Bool

def setClip (f : ClipFds → ClipFds) : FdProc Unit := modify fun s => { s with clip := f s.clip }

def closeEntry (entry : ClipEntry) : FdProc Unit := do
  let s ← get
  fdClose (s.clip.fd entry)
  setClip (·.close entry)

def acceptUpdater (a : Accept) : FdProc Unit := do
  let s ← get
  match s.clip.updaters.findIdx? (· == -1), a with
  | none, _ => pure ()
  | some i, .fd fd => do
    fdOpen fd
    setClip fun fds => { fds with updaters := fds.updaters.set i fd }
  | some _, .retry => pure ()
  | some _, .broken => closeEntry .monitor

def clipMonitorPollProc (e : ClipEnv) (entry : ClipEntry) : FdProc Unit := do
  let s ← get
  if s.revents entry then
    if s.clip.fd entry = s.clip.monitor then acceptUpdater e.accept
    else
      match clipRead e.heap e.stream e.reads with
      | .waits => throw .waits
      | .aborts => throw (.syn .abort)
      | .done => closeEntry entry
      | .passes id len buf => do
        onSyn (uSynergyUpdateClipBuf e.heap e.sent id (passedOn len buf))
        closeEntry entry
  else pure ()

def clipEntries (e : ClipEntry → ClipEnv) : List ClipEntry → FdProc Unit
  | [] => pure ()
  | entry :: entries => do
    clipMonitorPollProc (e entry) entry
    clipEntries e entries

/-- The entries in the order in which they are processed. -/
def allEntries : List ClipEntry := .monitor :: (List.range 8).map .updater

/-! ### Polling -/

/-- What `wl_display_dispatch` hands on: a descriptor of the keymap; a line for `wl_log_handler`, which may be fatal, both
with what `fopen` answers to `configTryBool`; a change of the outputs. -/
inductive WlEvent
  | keymap (fd : Nat) (config : Option Nat)
  | log (config : Option Nat) (fatal : Bool)
  | res (sent : Bool) (width height : Nat)

def WlEvent.handle : WlEvent → FdProc Unit
  | keymap fd config => do
    fdOpen fd
    readFileDumb config
    fdClose fd
  | log config fatal => do
    readFileDumb config
    if fatal then throw (.syn .exit) else pure ()
  | res sent width height => onSyn (uSynergyUpdateRes sent width height)

def wlPollProc : List WlEvent → FdProc Unit
  | [] => pure ()
  | ev :: evs => do
    ev.handle
    wlPollProc evs

/-- Not connected, only the connection is polled. -/
def poll (ready : ClipEntry → Bool) : FdProc Unit := modify fun s =>
  if s.syn.ctx.connected then { s with revents := fun entry => ready entry && decide (0 ≤ s.clip.fd entry) } else s

structure FdRound where
  ready : ClipEntry → Bool
  readable : Bool
  env : FdSynEnv
  now : Nat
  wl : List WlEvent
  clip : ClipEntry → ClipEnv

def netPoll (timedOut : Bool) : List FdRound → FdProc Unit
  | [] => do
    if timedOut then
      poll fun _ => false
      let _ ← synNetDisconnect
      pure ()
    else pure ()
  | r :: rounds => do
    poll r.ready
    if r.readable then uSynergyUpdate r.env else pure ()
    let s ← get
    if elapsed r.now s.syn.ctx.lastMessageTime > idleTimeout then
      let _ ← synNetDisconnect
      pure ()
    else do
      if s.syn.ctx.connected then
        wlPollProc r.wl
        clipEntries r.clip allEntries
      else pure ()
      netPoll timedOut rounds

structure FdMainEnv where
  env : FdSynEnv
  timedOut : Bool
  rounds : List FdRound

/-- One iteration of the main loop. -/
def mainLoop (e : FdMainEnv) : FdProc Unit := do
  let s ← get
  if s.syn.ctx.connected then netPoll e.timedOut e.rounds else uSynergyUpdate e.env

/-- The state in which the main loop starts. `clipMonitorFd` is the socket of `clipSetupSockets`, or 0 if no
clipboard is used. -/
def start (cfg : Config) (k : Handles) (monitor : { fd // fd ∈ k.out }) : FdState where
  kernel := k
  lost := 0
  syn := .init cfg
  clip := ⟨(monitor.val : Nat), List.replicate 8 (-1)⟩
  revents _ := false

/-! ### What is done with the context -/

section
variable {α β : Type} {s s' : FdState} {Q : Unit → FdState → Prop} {E : FdStop → FdState → Prop}

@[simp] theorem wp_onSyn {Q : α → FdState → Prop} (m : Syn α) :
    wp (onSyn m) Q E s ↔ wp m (fun a t => Q a { s with syn := t }) (fun stop t => E (.syn stop) { s with syn := t })
      s.syn := by
  unfold wp onSyn EStateM.run
  beta_reduce
  cases m s.syn <;> rfl

@[simp] theorem wp_setClip (f : ClipFds → ClipFds) : wp (setClip f) Q E s ↔ Q () { s with clip := f s.clip } := Iff.rfl

/-- From `s`, what `m` does with the context is what `m'` does. -/
def Follows (m : FdProc α) (m' : Syn α) (s : FdState) : Prop :=
  wp m (fun a s' => m'.run s.syn = .ok a s'.syn) (fun _ _ => True) s

/-- From `s`, the procedure does nothing with the context. -/
def Silent (m : FdProc α) (s : FdState) : Prop := wp m (fun _ s' => s'.syn = s.syn) (fun _ _ => True) s

namespace Silent

theorem fdOpen (fd : Nat) : Silent (fdOpen fd) s := by
  unfold Silent FdState.fdOpen
  rw [wp_zoom]
  exact wp_mono (wp_true _ _) (fun _ _ _ => rfl) fun _ _ => id

theorem fdClose (fd : Int) : Silent (fdClose fd) s := by
  unfold Silent FdState.fdClose
  rw [wp_zoom]
  exact wp_mono (wp_true _ _) (fun _ _ _ => rfl) fun _ _ => id

theorem bind {m : FdProc α} {k : α → FdProc β} (h : Silent m s) (hk : ∀ a s', s'.syn = s.syn → Silent (k a) s') :
    Silent (m >>= k) s := by
  unfold Silent
  rw [wp_bind]
  refine wp_mono h (fun a s₁ h₁ => ?_) fun _ _ => id
  exact wp_mono (hk a s₁ h₁) (fun _ _ h => h.trans h₁) fun _ _ => id

theorem readFileDumb (file : Option Nat) : Silent (readFileDumb file) s := by
  cases file with
  | none => exact (rfl : s.syn = s.syn)
  | some fd => exact (fdOpen fd).bind fun _ s' _ => (rfl : s'.syn = s'.syn)

theorem configWriteString (file : Option Nat) : Silent (configWriteString file) s := by
  cases file with
  | none => exact (rfl : s.syn = s.syn)
  | some fd => exact (fdOpen fd).bind fun _ _ _ => fdClose _

theorem clipWlCopy (pipe : Option (Nat × Nat)) : Silent (clipWlCopy pipe) s := by
  rcases pipe with _ | ⟨fd₀, fd₁⟩
  · exact (rfl : s.syn = s.syn)
  · exact (fdOpen _).bind fun _ _ _ => (fdOpen _).bind fun _ _ _ => (fdClose _).bind fun _ _ _ => fdClose _

theorem callback (e : CallbackEnv) (ev : Event) : Silent (callback e ev) s := by
  unfold FdState.callback
  split
  · exact readFileDumb _
  · exact readFileDumb _
  · split
    · exact clipWlCopy _
    · exact (rfl : s.syn = s.syn)
  · exact (rfl : s.syn = s.syn)

theorem callbacks (e : Nat → CallbackEnv) (k : Nat) (evs : List Event) : Silent (callbacks e k evs) s := by
  induction evs generalizing k s with
  | nil => exact (rfl : s.syn = s.syn)
  | cons ev evs ih => exact (callback (e k) ev).bind fun _ _ _ => ih (k + 1)

theorem closeEntry (entry : ClipEntry) : Silent (closeEntry entry) s :=
  show Silent (FdState.fdClose _ >>= fun _ => setClip _) s from (fdClose _).bind fun _ s' _ => (rfl : s'.syn = s'.syn)

theorem acceptUpdater (a : Accept) : Silent (acceptUpdater a) s := by
  unfold Silent FdState.acceptUpdater
  rw [wp_bind, wp_get]
  split
  · exact rfl
  · exact (fdOpen _).bind fun _ s' _ => (rfl : s'.syn = s'.syn)
  · exact rfl
  · exact closeEntry _

theorem poll (ready : ClipEntry → Bool) : Silent (poll ready) s := by
  unfold Silent FdState.poll
  rw [wp_modify]
  split <;> rfl

end Silent

namespace Follows

theorem pure (a : α) : Follows (pure a) (pure a) s := rfl

theorem onSyn (m : Syn α) : Follows (onSyn m) m s := by
  unfold Follows
  rw [wp_onSyn]
  exact wp_mono (wp_run (wp_true m s.syn)) (fun _ _ h => h.2) fun _ _ _ => trivial

theorem bind {m : FdProc α} {m' : Syn α} {k : α → FdProc β} {k' : α → Syn β} (h : Follows m m' s)
    (hk : ∀ a s', Follows (k a) (k' a) s') : Follows (m >>= k) (m' >>= k') s := by
  unfold Follows
  rw [wp_bind]
  refine wp_mono h (fun a s₁ h₁ => ?_) fun _ _ => id
  refine wp_mono (hk a s₁) (fun b s₂ h₂ => ?_) fun _ _ => id
  exact (run_bind_ok h₁).trans h₂

/-- First something that has nothing to do with the context. -/
theorem after {m : FdProc α} {k : α → FdProc β} {m' : Syn β} (h : Silent m s) (hk : ∀ a s', Follows (k a) m' s') :
    Follows (m >>= k) m' s := by
  unfold Follows
  rw [wp_bind]
  refine wp_mono h (fun a s₁ h₁ => ?_) fun _ _ => id
  rw [← h₁]
  exact hk a s₁

/-- Last something that has nothing to do with the context. -/
theorem followed {m m' : FdProc Unit} {t : Syn Unit} (h : Follows m t s) (hm : ∀ s', Silent m' s') :
    Follows (m >>= fun _ => m') t s := by
  unfold Follows
  rw [wp_bind]
  refine wp_mono h (fun _ s₁ h₁ => ?_) fun _ _ => id
  refine wp_mono (hm s₁) (fun _ s₂ h₂ => ?_) fun _ _ => id
  rw [h₂]
  exact h₁

theorem read {k : FdState → FdProc β} {k' : State → Syn β} (hk : Follows (k s) (k' s.syn) s) :
    Follows ((get : FdProc FdState) >>= k) ((get : Syn State) >>= k') s := hk

theorem ite {c : Prop} [Decidable c] {m₁ m₂ : FdProc α} {m₁' m₂' : Syn α} (h : Follows m₁ m₁' s)
    (h' : Follows m₂ m₂' s) : Follows (if c then m₁ else m₂) (if c then m₁' else m₂') s := by
  split <;> assumption

theorem synNetDisconnect : Follows synNetDisconnect Waynergy.synNetDisconnect s := by
  unfold Follows FdState.synNetDisconnect
  rw [wp_bind, wp_get, wp_ite]
  split
  · rename_i hfd
    show (if s.syn.net.fd = -1 then (Pure.pure false : Syn Bool) else _).run s.syn = _
    rw [if_pos hfd]
    rfl
  · exact after (Silent.fdClose _) fun _ _ => onSyn _

theorem synConnectSetup (a : FdAttempt) : Follows (synConnectSetup a) (Waynergy.synConnectSetup a.outline) s := by
  cases a with
  | noSocket => exact onSyn (Waynergy.synConnectSetup .noSocket)
  | socket fd hash stored ok =>
    refine after (Silent.fdOpen fd) fun _ _ => after (Silent.readFileDumb hash) fun _ _ => ?_
    exact after (Silent.configWriteString stored) fun _ _ => onSyn _

theorem connectLoop (now : Nat) (hosts : List FdAttempt) :
    Follows (connectLoop now hosts) (Waynergy.connectLoop now (hosts.map FdAttempt.outline)) s := by
  induction hosts generalizing s with
  | nil => exact pure false
  | cons a hosts ih =>
    refine bind (synConnectSetup a) fun ok _ => ite ?_ ?_
    · exact bind (onSyn _) fun _ _ => pure true
    · exact bind synNetDisconnect fun _ _ => ih

theorem synConnect (e : FdConnectEnv) : Follows (synConnect e) (Waynergy.synConnect e.outline) s := by
  unfold FdState.synConnect Waynergy.synConnect FdConnectEnv.outline
  refine bind (onSyn _) fun _ _ => ?_
  cases e.attempts with
  | none => exact pure false
  | some hosts => exact bind synNetDisconnect fun _ _ => connectLoop _ hosts

theorem tryConnect (e : FdConnectEnv) : Follows (tryConnect e) (Waynergy.tryConnect e.outline) s := by
  refine read (ite trivial (bind (synConnect e) fun ok _ => ite ?_ ?_))
  · exact onSyn _
  · exact onSyn _

theorem uSynergyUpdate (e : FdSynEnv) :
    Follows (uSynergyUpdate e) (Waynergy.uSynergyUpdate ⟨e.update, e.connect.outline⟩) s := by
  refine read (ite ?_ (tryConnect e.connect))
  exact followed (onSyn _) fun s₁ => (Silent.callbacks e.callbacks 0 _ : Silent _ s₁)

end Follows

theorem handleAll_append (evs evs' : List LocalEvent) :
    handleAll (evs ++ evs') = (handleAll evs >>= fun _ => handleAll evs') := by
  induction evs with
  | nil => rfl
  | cons ev evs ih =>
    show (ev.handle >>= fun _ => handleAll (evs ++ evs')) = ((ev.handle >>= fun _ => handleAll evs) >>= _)
    rw [ih, bind_assoc]

/-- From `s`, the procedure handles local events that are as `P` says. -/
def LocalWork (P : List LocalEvent → Prop) (m : FdProc Unit) (s : FdState) : Prop :=
  wp m (fun _ s' => ∃ evs, P evs ∧ (handleAll evs).run s.syn = .ok () s'.syn) (fun _ _ => True) s

/-- What the client is told by an event. -/
def WlEvent.outline? : WlEvent → Option LocalEvent
  | res sent width height => some (.res sent width height)
  | keymap _ _ | log _ _ => none

/-- What the client is told where the entry is that of an updater. -/
def ClipEnv.outline? (e : ClipEnv) : Option LocalEvent :=
  match clipRead e.heap e.stream e.reads with
  | .passes id len buf => some (.clipBuf e.heap e.sent id (passedOn len buf))
  | .done | .waits | .aborts => none

namespace LocalWork
variable {P P' : List LocalEvent → Prop} {m m' : FdProc Unit}

theorem silent (h : Silent m s) (hP : P []) : LocalWork P m s :=
  wp_mono h (fun _ _ h => ⟨[], hP, congrArg (EStateM.Result.ok ()) h.symm⟩) fun _ _ => id

theorem follows (ev : LocalEvent) (h : Follows m ev.handle s) (hP : P [ev]) : LocalWork P m s := by
  refine wp_mono h (fun _ s₁ h₁ => ⟨[ev], hP, ?_⟩) fun _ _ => id
  exact (run_bind_ok h₁).trans rfl

theorem bind {P'' : List LocalEvent → Prop} (h : LocalWork P m s) (hm : ∀ s', LocalWork P' m' s')
    (hP : ∀ evs evs', P evs → P' evs' → P'' (evs ++ evs')) : LocalWork P'' (m >>= fun _ => m') s := by
  unfold LocalWork
  rw [wp_bind]
  refine wp_mono h ?_ fun _ _ => id
  rintro _ s₁ ⟨evs, hevs, h₁⟩
  refine wp_mono (hm s₁) ?_ fun _ _ => id
  rintro _ s₂ ⟨evs', hevs', h₂⟩
  refine ⟨evs ++ evs', hP evs evs' hevs hevs', ?_⟩
  rw [handleAll_append]
  exact (run_bind_ok h₁).trans h₂

theorem handle (ev : WlEvent) : LocalWork (fun evs => evs = ev.outline?.toList) ev.handle s := by
  cases ev with
  | keymap fd config =>
    exact silent ((Silent.fdOpen fd).bind fun _ _ _ => (Silent.readFileDumb config).bind fun _ _ _ => Silent.fdClose _) rfl
  | log config fatal =>
    refine silent ((Silent.readFileDumb config).bind fun _ s' _ => ?_) rfl
    cases fatal with
    | true => trivial
    | false => exact (rfl : s'.syn = s'.syn)
  | res sent width height => exact follows (.res sent width height) (Follows.onSyn _) rfl

theorem wlPollProc (evs : List WlEvent) :
    LocalWork (fun evs' => evs' = evs.filterMap WlEvent.outline?) (wlPollProc evs) s := by
  induction evs generalizing s with
  | nil => exact silent (rfl : s.syn = s.syn) rfl
  | cons ev evs ih =>
    refine bind (handle ev) (fun _ => ih) ?_
    rintro _ _ rfl rfl
    rw [List.filterMap_cons]
    cases ev.outline? <;> rfl

theorem clipMonitorPollProc (e : ClipEnv) (entry : ClipEntry) :
    LocalWork (fun evs => evs.Sublist e.outline?.toList) (clipMonitorPollProc e entry) s := by
  unfold LocalWork FdState.clipMonitorPollProc
  rw [wp_bind, wp_get, wp_ite]
  split
  · rw [wp_ite]
    split
    · exact silent (Silent.acceptUpdater _) (List.nil_sublist _)
    · split
      · trivial
      · trivial
      · exact silent (Silent.closeEntry entry) (List.nil_sublist _)
      · rename_i id len buf hread
        have hev : e.outline? = some (.clipBuf e.heap e.sent id (passedOn len buf)) := by
          unfold ClipEnv.outline?
          rw [hread]
        have hfirst : LocalWork (fun evs => evs = [.clipBuf e.heap e.sent id (passedOn len buf)])
            (onSyn (uSynergyUpdateClipBuf e.heap e.sent id (passedOn len buf))) s :=
          follows (.clipBuf e.heap e.sent id (passedOn len buf)) (Follows.onSyn _) rfl
        have hlast : ∀ s', LocalWork (fun evs => evs = []) (FdState.closeEntry entry) s' := fun s' =>
          silent (Silent.closeEntry entry) rfl
        refine hfirst.bind hlast ?_
        rintro _ _ rfl rfl
        rw [hev]
        exact List.Sublist.refl _
  · exact silent (rfl : s.syn = s.syn) (List.nil_sublist _)

theorem clipEntries (e : ClipEntry → ClipEnv) (entries : List ClipEntry) :
    LocalWork (fun evs => evs.Sublist (entries.filterMap fun entry => (e entry).outline?)) (clipEntries e entries) s := by
  induction entries generalizing s with
  | nil => exact silent (rfl : s.syn = s.syn) (List.nil_sublist _)
  | cons entry entries ih =>
    refine bind (clipMonitorPollProc _ entry) (fun _ => ih) fun evs evs' hevs hevs' => ?_
    have happ : (entry :: entries).filterMap (fun entry => (e entry).outline?) =
        (e entry).outline?.toList ++ entries.filterMap fun entry => (e entry).outline? := by
      rw [List.filterMap_cons]
      cases (e entry).outline? <;> rfl
    rw [happ]
    exact hevs.append hevs'

end LocalWork

/-- The local events of a round: those of the compositor, and copies that updaters may pass on, in the order of the
entries; or there are none, as the round does not come to them. -/
def FdRound.Tells (r : FdRound) (events : List LocalEvent) : Prop :=
  events = [] ∨ ∃ copies, copies.Sublist (allEntries.filterMap fun entry => (r.clip entry).outline?) ∧
    events = r.wl.filterMap WlEvent.outline? ++ copies

/-- The round without the descriptors; which of its local events there are depends on them. -/
def FdRound.outline (r : FdRound) (events : List LocalEvent) : Round :=
  ⟨r.readable, ⟨r.env.update, r.env.connect.outline⟩, r.now, events⟩

/-- The rounds are those without the descriptors. -/
abbrev Outlined (rounds : List FdRound) (rounds' : List Round) : Prop :=
  List.Forall₂ (fun r r' => ∃ events, r.Tells events ∧ r' = r.outline events) rounds rounds'

theorem outlined_quiet (rounds : List FdRound) : Outlined rounds (rounds.map (·.outline [])) := by
  induction rounds with
  | nil => exact .nil
  | cons r rounds ih => exact .cons ⟨[], .inl rfl, rfl⟩ ih

/-! ### Rounds -/

section
variable {timedOut again : Bool} {r : Round} {rounds : List Round} {t t₁ t₂ : State}

theorem pollRest_idle {b : Bool} (hidle : elapsed r.now t.ctx.lastMessageTime > idleTimeout)
    (hrun : Waynergy.synNetDisconnect.run t = .ok b t₁) : (Waynergy.pollRest r).run t = .ok false t₁ := by
  unfold Waynergy.pollRest
  rw [run_bind_ok (EStateM.run_get t), if_pos hidle]
  exact run_bind_ok hrun

theorem pollRest_busy (hidle : ¬ elapsed r.now t.ctx.lastMessageTime > idleTimeout)
    (hrun : (if t.ctx.connected then handleAll r.events else pure ()).run t = .ok () t₁) :
    (Waynergy.pollRest r).run t = .ok true t₁ := by
  unfold Waynergy.pollRest
  rw [run_bind_ok (EStateM.run_get t), if_neg hidle]
  dsimp only
  split at hrun
  · rename_i hup
    rw [if_pos hup]
    exact run_bind_ok hrun
  · rename_i hup
    cases hrun
    rw [if_neg hup]
    rfl

/-- A round of `netPoll`, from what its parts do. -/
theorem netPoll_cons_run (hupdate : (if r.readable then Waynergy.uSynergyUpdate r.env else pure ()).run t = .ok () t₁)
    (hrest : (Waynergy.pollRest r).run t₁ = .ok again t₂) : (Waynergy.netPoll timedOut (r :: rounds)).run t =
      (if again then Waynergy.netPoll timedOut rounds else pure ()).run t₂ := by
  have hbody : (pollBody r).run t = .ok again t₂ := by
    rw [pollBody_eq]
    exact (run_bind_ok hupdate).trans hrest
  rw [Waynergy.netPoll_cons]
  exact run_bind_ok hbody

end

/-- What follows the update in a round. It returns false if `netPoll` returns. -/
def pollRest (r : FdRound) : FdProc Bool := do
  let s ← get
  if elapsed r.now s.syn.ctx.lastMessageTime > idleTimeout then
    let _ ← synNetDisconnect
    pure false
  else do
    if s.syn.ctx.connected then
      wlPollProc r.wl
      clipEntries r.clip allEntries
    else pure ()
    pure true

theorem pollRest_bind (r : FdRound) (k : FdProc Unit) : (do if ← pollRest r then k else pure () : FdProc Unit) = (do
    let s ← get
    if elapsed r.now s.syn.ctx.lastMessageTime > idleTimeout then
      let _ ← synNetDisconnect
      pure ()
    else do
      if s.syn.ctx.connected then
        wlPollProc r.wl
        clipEntries r.clip allEntries
      else pure ()
      k) := by
  unfold pollRest
  rw [bind_assoc]
  refine bind_congr fun s => ?_
  split
  · rw [bind_assoc]
    rfl
  · split
    · rw [bind_assoc]
      refine bind_congr fun _ => ?_
      rw [bind_assoc]
      rfl
    · rfl

theorem netPoll_cons (timedOut : Bool) (r : FdRound) (rounds : List FdRound) : netPoll timedOut (r :: rounds) =
    (poll r.ready >>= fun _ => (if r.readable then uSynergyUpdate r.env else pure ()) >>= fun _ =>
      pollRest r >>= fun again => if again then netPoll timedOut rounds else pure ()) := by
  rw [netPoll]
  refine bind_congr fun _ => ?_
  split
  · exact bind_congr fun _ => (pollRest_bind r _).symm
  · exact (pollRest_bind r _).symm

theorem pollRest_outlined (r : FdRound) (s : FdState) :
    wp (pollRest r) (fun again s' => ∃ events, r.Tells events ∧
      (Waynergy.pollRest (r.outline events)).run s.syn = .ok again s'.syn) (fun _ _ => True) s := by
  unfold pollRest
  rw [wp_bind, wp_get, wp_ite]
  split
  · rename_i hidle
    rw [wp_bind]
    exact wp_mono Follows.synNetDisconnect (fun _ s' hrun => ⟨[], .inl rfl, pollRest_idle hidle hrun⟩) fun _ _ => id
  · rename_i hidle
    rw [wp_ite]
    split
    · rename_i hup
      rw [wp_bind]
      refine wp_mono (LocalWork.wlPollProc r.wl) ?_ fun _ _ => id
      rintro _ s₁ ⟨_, rfl, h₁⟩
      rw [wp_bind]
      refine wp_mono (LocalWork.clipEntries r.clip allEntries) ?_ fun _ _ => id
      rintro _ s₂ ⟨copies, hcopies, h₂⟩
      refine ⟨_, .inr ⟨copies, hcopies, rfl⟩, pollRest_busy hidle ?_⟩
      rw [if_pos hup, FdRound.outline, handleAll_append]
      exact (run_bind_ok h₁).trans h₂
    · rename_i hup
      exact ⟨[], .inl rfl, pollRest_busy hidle (by rw [if_neg hup]; rfl)⟩

theorem netPoll_outlined (timedOut : Bool) (rounds : List FdRound) (s : FdState) :
    wp (netPoll timedOut rounds) (fun _ s' => ∃ rounds', Outlined rounds rounds' ∧
      (Waynergy.netPoll timedOut rounds').run s.syn = .ok () s'.syn) (fun _ _ => True) s := by
  induction rounds generalizing s with
  | nil =>
    have hnil : Follows (netPoll timedOut []) (Waynergy.netPoll timedOut []) s := by
      unfold netPoll Waynergy.netPoll
      refine Follows.ite (Follows.after (Silent.poll _) fun _ _ => ?_) (Follows.pure ())
      exact Follows.bind Follows.synNetDisconnect fun _ _ => Follows.pure ()
    exact wp_mono hnil (fun _ s' h => ⟨[], .nil, h⟩) fun _ _ => id
  | cons r rounds ih =>
    have hupdate : ∀ s₁, Follows (if r.readable then uSynergyUpdate r.env else pure ())
        (if r.readable then Waynergy.uSynergyUpdate ⟨r.env.update, r.env.connect.outline⟩ else pure ()) s₁ :=
      fun _ => Follows.ite (Follows.uSynergyUpdate r.env) (Follows.pure ())
    rw [netPoll_cons, wp_bind]
    refine wp_mono (Silent.poll r.ready) (fun _ s₁ h₁ => ?_) fun _ _ => id
    rw [← h₁, wp_bind]
    refine wp_mono (hupdate s₁) (fun _ s₂ h₂ => ?_) fun _ _ => id
    rw [wp_bind]
    refine wp_mono (pollRest_outlined r s₂) ?_ fun _ _ => id
    rintro again s₃ ⟨events, htells, h₃⟩
    have hcons : ∀ rounds', (Waynergy.netPoll timedOut (r.outline events :: rounds')).run s₁.syn =
        (if again then Waynergy.netPoll timedOut rounds' else pure ()).run s₃.syn :=
      fun _ => netPoll_cons_run h₂ h₃
    cases again with
    | false => exact ⟨_, .cons ⟨events, htells, rfl⟩ (outlined_quiet rounds), hcons _⟩
    | true =>
      refine wp_mono (ih s₃) ?_ fun _ _ => id
      rintro _ s₄ ⟨rounds', hout, h₄⟩
      exact ⟨_, .cons ⟨events, htells, rfl⟩ hout, (hcons rounds').trans h₄⟩

end

theorem mainLoop_outlined (e : FdMainEnv) (s : FdState) :
    wp (mainLoop e) (fun _ s' => ∃ rounds', Outlined e.rounds rounds' ∧
      (Waynergy.mainLoop ⟨⟨e.env.update, e.env.connect.outline⟩, e.timedOut, rounds'⟩).run s.syn = .ok () s'.syn)
      (fun _ _ => True) s := by
  unfold mainLoop
  rw [wp_bind, wp_get, wp_ite]
  split
  · rename_i hup
    refine wp_mono (netPoll_outlined e.timedOut e.rounds s) ?_ fun _ _ => id
    rintro _ s' ⟨rounds', hout, hrun⟩
    refine ⟨rounds', hout, ?_⟩
    unfold Waynergy.mainLoop
    rw [run_bind_ok (EStateM.run_get _), if_pos hup]
    exact hrun
  · rename_i hdown
    refine wp_mono (Follows.uSynergyUpdate e.env) (fun _ s' hrun => ⟨_, outlined_quiet e.rounds, ?_⟩) fun _ _ => id
    unfold Waynergy.mainLoop
    rw [run_bind_ok (EStateM.run_get _), if_neg hdown]
    exact hrun

/-- The iteration is that without the descriptors. -/
structure Outlines (e : FdMainEnv) (e' : MainEnv) : Prop where
  env : e'.env = ⟨e.env.update, e.env.connect.outline⟩
  timedOut : e'.timedOut = e.timedOut
  rounds : Outlined e.rounds e'.rounds

/-- What a run of the main loop does with the context is a run of the main loop of `Net`. -/
theorem run_outlined {steps : List (FdState × FdMainEnv)} {s₀ : FdState} (hrun : Run mainLoop s₀ steps s) :
    ∃ steps', Run Waynergy.mainLoop s₀.syn steps' s.syn ∧
      List.Forall₂ (fun t t' => t'.1 = t.1.syn ∧ Outlines t.2 t'.2) steps steps' := by
  induction hrun with
  | nil => exact ⟨[], .nil, .nil⟩
  | @snoc steps t t' e _ hop ih =>
    obtain ⟨steps', hrun', hsteps⟩ := ih
    obtain ⟨rounds', hout, hop'⟩ := wp_ok (mainLoop_outlined e t) hop
    refine ⟨_, hrun'.snoc hop', List.rel_append hsteps ?_⟩
    exact .cons ⟨rfl, rfl, rfl, hout⟩ .nil

/-- The standard streams and the socket of the monitors are open. -/
def started : FdState := start .sample ⟨{0, 1, 2, 3}, by decide⟩ ⟨3, by decide⟩

/-- Nothing is read. -/
def FdSynEnv.idle : FdSynEnv :=
  ⟨⟨[], [], 0, fun _ => .smooth, 0⟩, fun _ => ⟨none, none⟩, none, 0⟩

/-- The second address can be connected to, and there is a hash file. -/
def FdMainEnv.connects : FdMainEnv where
  env := { FdSynEnv.idle with connect := ⟨some [.noSocket, .socket 4 (some 5) none true], 0⟩ }
  timedOut := false
  rounds := []

/-- A monitor has a copy; the compositor changes its keymap and its outputs. -/
def FdRound.accepts : FdRound :=
  ⟨fun | .monitor => true | .updater _ => false, false, .idle, 0, [.keymap 6 none, .res true 640 480],
    fun _ => ⟨.fd 6, [], [], MsgEnv.smooth.heap, true⟩⟩

/-- The client is connected, and the hash file is still open. -/
def linked : FdState :=
  { started with
    kernel := ⟨{5} + ({4} + {0, 1, 2, 3}), by decide⟩
    lost := {5}
    syn := ⟨{ uSynergyInit .sample with connected := true }, ⟨4⟩, [.connect]⟩ }

/-- And then there is an updater. -/
def accepted (t : State) : FdState :=
  { linked with
    kernel := ⟨{6} + ({5} + ({4} + {0, 1, 2, 3})), by decide⟩
    syn := t
    clip := ⟨3, [6, -1, -1, -1, -1, -1, -1, -1]⟩
    revents := fun entry => FdRound.accepts.ready entry && decide (0 ≤ linked.clip.fd entry) }

/-- An iteration with one round, in which nothing is read. -/
theorem run_round {e : FdSynEnv} {r : FdRound} {s₁ s₂ s₃ : FdState} (up : s.syn.ctx.connected = true)
    (hpoll : (poll r.ready).run s = .ok () s₁) (hread : r.readable = false)
    (hidle : ¬ elapsed r.now s₁.syn.ctx.lastMessageTime > idleTimeout) (up₁ : s₁.syn.ctx.connected = true)
    (hwl : (wlPollProc r.wl).run s₁ = .ok () s₂) (hclip : (clipEntries r.clip allEntries).run s₂ = .ok () s₃) :
    (mainLoop ⟨e, false, [r]⟩).run s = .ok () s₃ := by
  unfold mainLoop
  rw [run_bind_ok (EStateM.run_get _), if_pos up]
  unfold netPoll
  rw [run_bind_ok hpoll, hread, if_neg Bool.false_ne_true, run_bind_ok (EStateM.run_get _), if_neg hidle, if_pos up₁,
    run_bind_ok hwl]
  exact run_bind_ok hclip

theorem run_accepts : ∃ t, t.ctx.clientWidth = 640 ∧
    (mainLoop ⟨.idle, false, [.accepts]⟩).run linked = .ok () (accepted t) := by
  obtain ⟨t, hres, hwidth⟩ : ∃ t, (uSynergyUpdateRes true 640 480).run linked.syn = .ok () t ∧
      t.ctx.clientWidth = 640 := ⟨_, rfl, rfl⟩
  let polled : FdState :=
    { linked with revents := fun entry => FdRound.accepts.ready entry && decide (0 ≤ linked.clip.fd entry) }
  have hpoll : (poll FdRound.accepts.ready).run linked = .ok () polled := rfl
  have hkeymap : (WlEvent.keymap 6 none).handle.run polled = .ok () polled := rfl
  have hres' : (WlEvent.res true 640 480).handle.run polled = .ok () { polled with syn := t } := by
    show onSyn (uSynergyUpdateRes true 640 480) polled = _
    unfold onSyn
    rw [show (uSynergyUpdateRes true 640 480).run polled.syn = .ok () t from hres]
  have hwl : (wlPollProc FdRound.accepts.wl).run polled = .ok () { polled with syn := t } :=
    (run_bind_ok hkeymap).trans ((run_bind_ok hres').trans rfl)
  have hclip : (clipEntries FdRound.accepts.clip allEntries).run { polled with syn := t } = .ok () (accepted t) := rfl
  exact ⟨t, hwidth, run_round rfl hpoll rfl (by decide) rfl hwl hclip⟩

theorem run_outlined_connected : ∃ s steps, Run mainLoop started steps s ∧
    steps.map Prod.snd = [.connects, ⟨.idle, false, [.accepts]⟩] ∧ s.syn.ctx.clientWidth = 640 ∧
    ∃ steps', Run Waynergy.mainLoop started.syn steps' s.syn ∧
      List.Forall₂ (fun t t' => t'.1 = t.1.syn ∧ Outlines t.2 t'.2) steps steps' := by
  have hconnects : (mainLoop .connects).run started = .ok () linked := rfl
  obtain ⟨t, hwidth, haccepts⟩ := run_accepts
  have hrun := (Run.single hconnects).snoc haccepts
  exact ⟨_, _, hrun, rfl, hwidth, run_outlined hrun⟩

end FdState
end Waynergy
