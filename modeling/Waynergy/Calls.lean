import Waynergy.Backends
import Waynergy.Lib.Transducer

/-!
# A run of calls

A call that returns has handed over everything that it asked for, so the other side has the requests and records of all
the calls, in their order, whatever the flushes of the display have found. A call that stops the program has handed over
the first part of its own.
-/

namespace Waynergy
open Lib
variable {R : Type} {screen : Screen} {e : CallEnv}

/-! ### The connection -/

namespace Display

/-- What was ever asked for. -/
def asked (d : Display R) : List R := d.sent ++ d.queued

theorem write_all (d : Display R) : d.write d.queued.length = { d with queued := [], sent := d.asked } := by
  simp [asked, write]

theorem write_write (d : Display R) (m n : Nat) : (d.write m).write n = d.write (m + n) := by
  simp [write, List.take_add]

end Display

/-- The socket takes everything, at once or after it was polled. -/
def CallEnv.Drains (e : CallEnv) : Prop :=
  e.flush = .all ∨ (∃ n, e.flush = .again n) ∧ e.poll = .writable .all

/-- It returns only when everything was written. -/
theorem wlDisplayFlush_spec (e : CallEnv) (d : Display R) : wp (wlDisplayFlush e)
    (fun _ d' => e.Drains ∧ d' = { d with queued := [], sent := d.asked })
    (fun _ d' => ¬ e.Drains ∧ ∃ n, d' = d.write n) d := by
  unfold CallEnv.Drains wlDisplayFlush
  cases hflush : e.flush with
  | all => exact ⟨.inl rfl, d.write_all⟩
  | error => exact ⟨by simp, 0, by simp [Display.write]⟩
  | failed n => exact ⟨by simp, n, rfl⟩
  | again n =>
    cases hpoll : e.poll with
    | writable result =>
      cases result with
      | all =>
        refine ⟨.inr ⟨⟨n, rfl⟩, rfl⟩, ?_⟩
        show (d.write n).write (d.queued.drop n).length = _
        rw [d.write_write, ← d.write_all]
        simp [Display.write]
        omega
      | error => exact ⟨by simp, n, rfl⟩
      | again m => exact ⟨by simp, n + m, d.write_write n m⟩
      | failed m => exact ⟨by simp, n + m, d.write_write n m⟩
    | _ => exact ⟨by simp, n, rfl⟩

namespace Backend

/-- What the program asks of a backend, as a transducer. -/
def transducer (b : Backend R) : Transducer Screen (CallEnv × InputCall) R where
  next screen step := screenAfter screen step.2
  answer screen step := b.request screen step.1 step.2

/-- Nothing waits, the other side has what the calls asked for, and the screen is that of the last update. -/
structure Served (b : Backend R) (screen : Screen) (calls : List (CallEnv × InputCall)) (d : Display R) : Prop where
  queued : d.queued = []
  sent : d.sent = b.transducer.output screen calls
  screen : d.screen = b.transducer.after screen calls

theorem served_nil (b : Backend R) : b.Served screen [] ⟨screen, [], []⟩ := ⟨rfl, rfl, rfl⟩

/-- What is not flushed is not asked for by an update of the screen. -/
def Complete (b : Backend R) : Prop := b.flushes = true → b.updateGeom = none

/-- The records are written at once, an update only stores the screen, and requests are taken by the socket. -/
def Returns (b : Backend R) (step : CallEnv × InputCall) : Prop :=
  b.flushes = false ∨ (∃ screen, step.2 = .resUpdate screen) ∨ step.1.Drains

/-- A call that returns has handed over all that it asked for; one that does not, the first part of it. -/
theorem exec_spec {b : Backend R} (hb : b.Complete) (step : CallEnv × InputCall) {d : Display R} (hd : d.queued = []) :
    wp (b.exec step)
      (fun _ d' => b.Returns step ∧
        d' = ⟨screenAfter d.screen step.2, [], d.sent ++ b.request d.screen step.1 step.2⟩)
      (fun _ d' => ¬ b.Returns step ∧ ∃ part rest, b.request d.screen step.1 step.2 = part ++ rest ∧
        d' = ⟨screenAfter d.screen step.2, rest, d.sent ++ part⟩) d := by
  obtain ⟨e, call⟩ := step
  unfold exec flush Returns
  rw [wp_bind, wp_modify]
  simp only [hd, List.nil_append]
  cases hflush : b.flushes with
  | false =>
    rw [if_neg Bool.false_ne_true, wp_modify, Display.write_all]
    exact ⟨.inl rfl, rfl⟩
  | true =>
    rw [if_pos rfl]
    have hcall : ∀ call, (∀ screen', call ≠ .resUpdate screen') →
        wp (wlDisplayFlush e)
          (fun _ d' => (true = false ∨ (∃ screen', call = .resUpdate screen') ∨ e.Drains) ∧
            d' = ⟨screenAfter d.screen call, [], d.sent ++ b.request d.screen e call⟩)
          (fun _ d' => ¬ (true = false ∨ (∃ screen', call = .resUpdate screen') ∨ e.Drains) ∧
            ∃ part rest, b.request d.screen e call = part ++ rest ∧
              d' = ⟨screenAfter d.screen call, rest, d.sent ++ part⟩)
          ⟨screenAfter d.screen call, b.request d.screen e call, d.sent⟩ := by
      intro call hno
      refine wp_mono (wlDisplayFlush_spec e _) ?_ ?_
      · rintro _ _ ⟨hdrains, rfl⟩
        exact ⟨.inr (.inr hdrains), rfl⟩
      · rintro _ _ ⟨hdrains, n, rfl⟩
        exact ⟨by simp [hno, hdrains], _, _, (List.take_append_drop n _).symm, rfl⟩
    cases call with
    | resUpdate screen' =>
      have hnone : b.request d.screen e (.resUpdate screen') = [] := by rw [request, hb hflush]; rfl
      rw [hnone]
      exact ⟨.inr (.inl ⟨screen', rfl⟩), by simp⟩
    | _ => exact hcall _ (by simp)

theorem Served.exec {b : Backend R} (hb : b.Complete) {calls : List (CallEnv × InputCall)} {d : Display R}
    (hd : b.Served screen calls d) (step : CallEnv × InputCall) : wp (b.exec step)
      (fun _ d' => b.Served screen (calls ++ [step]) d') (fun _ _ => True) d := by
  refine wp_mono (exec_spec hb step hd.queued) ?_ fun _ _ _ => trivial
  rintro _ _ ⟨-, rfl⟩
  refine ⟨rfl, ?_, ?_⟩
  · rw [hd.sent, Transducer.output_append, hd.screen]
    exact congrArg (_ ++ ·) (List.append_nil _).symm
  · rw [hd.screen, Transducer.after_append]
    rfl

end Backend

/-! ### The keys of requests -/

def InputCall.key? : InputCall → Option (Int × Bool)
  | key code state => some (code, state)
  | _ => none

/-- The key that a request presses or releases, by the number that the request has for it. -/
def WlrRequest.key? : WlrRequest → Option (Nat × Bool)
  | key _ code state => some (code, state ≠ 0)
  | _ => none

def KdeRequest.key? : KdeRequest → Option (Nat × Bool)
  | keyboardKey code state => some (code, state ≠ 0)
  | _ => none

def UinputRequest.key? : UinputRequest → Option (Nat × Bool)
  | record .keyboard r => if r.type = Uinput.evKey then some (r.code, r.value ≠ 0) else none
  | _ => none

namespace Uinput

theorem emit_written {device : UinputDevice} (hwritten : ∀ i, e.written i = true) (rs : List InputRecord) :
    emit e device rs = rs.map (.record device) := by
  have hall : (rs.zipIdx.filter fun r => e.written r.2) = rs.zipIdx := List.filter_eq_self.mpr fun r _ => hwritten r.2
  have hrecords : ∀ n, (rs.zipIdx n).map (fun r => UinputRequest.record device r.1) = rs.map (.record device) := by
    induction rs with
    | nil => exact fun _ => rfl
    | cons r rs ih => exact fun n => congrArg (_ :: ·) (ih (List.filter_eq_self.mpr fun r _ => hwritten r.2) (n + 1))
  rw [emit, hall, hrecords]

/-- The mouse has no keys. -/
theorem keys_mouse (rs : List InputRecord) : (emit e .mouse rs).filterMap UinputRequest.key? = [] := by
  unfold emit
  rw [List.filterMap_map]
  exact List.filterMap_eq_nil_iff.mpr fun _ _ => rfl

theorem keys_updateGeom (buttonMap : List Int) : (updateGeom buttonMap e screen).filterMap UinputRequest.key? = [] := by
  unfold updateGeom tryIoctls
  rw [List.filterMap_map]
  exact List.filterMap_eq_nil_iff.mpr fun _ _ => rfl

end Uinput

theorem Wlr.keys_axis (wheelMult : Int) (ts : Timespec) (a : Nat) (d : Int) :
    (axis wheelMult ts a d).filterMap WlrRequest.key? = [] := by
  unfold axis
  split
  · rfl
  · split <;> rfl

theorem Kde.keys_axis (a : Nat) (d : Int) : (axis a d).filterMap KdeRequest.key? = [] := by
  unfold axis
  split
  · rfl
  · split <;> rfl

/-! ### The choice of a backend -/

/-- What `wlSetup` has found to work. -/
inductive InputBackend
  | wlr (wheelMult : Int)
  | kde
  | uinput
deriving DecidableEq

namespace InputBackend
variable {c : InputBackend} {buttonMap : List Int}

def Request : InputBackend → Type
  | wlr _ => WlrRequest
  | kde => KdeRequest
  | uinput => UinputRequest

def backend (buttonMap : List Int) : (c : InputBackend) → Backend c.Request
  | wlr wheelMult => wlrBackend wheelMult
  | kde => kdeBackend
  | uinput => uinputBackend buttonMap

theorem complete : (c.backend buttonMap).Complete := by
  cases c with
  | uinput => nofun
  | _ => exact fun _ => rfl

def key? : (c : InputBackend) → c.Request → Option (Nat × Bool)
  | wlr _ => WlrRequest.key?
  | kde => KdeRequest.key?
  | uinput => UinputRequest.key?

/-- The keys that are not dropped. -/
def passes : InputBackend → Int → Bool
  | uinput, code => code - 8 ≤ Uinput.uinputKeyMax
  | _, _ => true

/-- The number of a key in requests; the key codes of xkb are those of the kernel plus 8. -/
def number : InputBackend → Int → Nat
  | uinput, code => code16 (code - 8)
  | _, code => uint32 (code - 8)

/-- How often a key is pressed, or released, by some requests. -/
def times (c : InputBackend) (requests : List c.Request) (key : Int) (down : Bool) : Nat :=
  (requests.filterMap c.key?).count (c.number key, down)

theorem number_inj {key key' : Int} (hkey : 0 ≤ key ∧ key < 2 ^ 31) (hkey' : 0 ≤ key' ∧ key' < 2 ^ 31)
    (hpasses : c.passes key = true) (hpasses' : c.passes key' = true) (heq : c.number key = c.number key') :
    key = key' := by
  cases c with
  | uinput =>
    have hle : key - 8 ≤ 256 := of_decide_eq_true hpasses
    have hle' : key' - 8 ≤ 256 := of_decide_eq_true hpasses'
    have heq : code16 (key - 8) = code16 (key' - 8) := heq
    unfold code16 at heq
    omega
  | _ =>
    have heq : uint32 (key - 8) = uint32 (key' - 8) := heq
    unfold uint32 at heq
    omega

/-- Of the keys of a call those are asked for that are not dropped. -/
theorem keys_request (hwritten : c = uinput → ∀ i, e.written i = true) (call : InputCall) :
    ((c.backend buttonMap).request screen e call).filterMap c.key? =
      (call.key?.toList.filter fun k => c.passes k.1).map fun k => (c.number k.1, k.2) := by
  cases c with
  | wlr wheelMult =>
    cases call with
    | key code state => cases state <;> rfl
    | mouseWheel dx dy =>
      show ((_ :: (Wlr.axis wheelMult e.now 1 dx ++ Wlr.axis wheelMult e.later 0 dy) ++ [_] : List _).filterMap
        WlrRequest.key?) = []
      rw [List.filterMap_append, List.filterMap_cons, List.filterMap_append, Wlr.keys_axis, Wlr.keys_axis]
      rfl
    | _ => rfl
  | kde =>
    cases call with
    | key code state => cases state <;> rfl
    | mouseWheel dx dy =>
      show (Kde.axis 1 dx ++ Kde.axis 0 dy).filterMap KdeRequest.key? = []
      rw [List.filterMap_append, Kde.keys_axis, Kde.keys_axis, List.append_nil]
    | _ => rfl
  | uinput =>
    cases call with
    | key code state =>
      show (Uinput.key e code state).filterMap UinputRequest.key? =
        ([(code, state)].filter fun k => passes uinput k.1).map fun k => (number uinput k.1, k.2)
      unfold Uinput.key
      split
      · rename_i hgt
        have hdrop : passes uinput code = false := decide_eq_false (by omega)
        simp [hdrop]
      · rename_i hle
        have hpass : passes uinput code = true := decide_eq_true (by omega)
        rw [Uinput.emit_written (hwritten rfl)]
        cases state <;> simp [hpass, UinputRequest.key?, number, Uinput.report, Uinput.evKey, Uinput.evSyn]
    | resUpdate screen' => exact Uinput.keys_updateGeom buttonMap
    | _ => exact Uinput.keys_mouse _

theorem keys_output (calls : List (CallEnv × InputCall))
    (hwritten : c = uinput → ∀ step ∈ calls, ∀ i, step.1.written i = true) :
    ((c.backend buttonMap).transducer.output screen calls).filterMap c.key? =
      (((calls.map Prod.snd).filterMap InputCall.key?).filter fun k => c.passes k.1).map
        fun k => (c.number k.1, k.2) := by
  induction calls generalizing screen with
  | nil => rfl
  | cons step calls ih =>
    have hhead : ((step :: calls).map Prod.snd).filterMap InputCall.key? =
        step.2.key?.toList ++ (calls.map Prod.snd).filterMap InputCall.key? := by
      rw [List.map_cons, List.filterMap_cons]
      cases step.2.key? <;> rfl
    rw [Transducer.output_cons, List.filterMap_append, hhead, List.filter_append, List.map_append,
      ih fun hc step' hm => hwritten hc step' (List.mem_cons_of_mem _ hm)]
    exact congrArg (· ++ _) (keys_request (fun hc => hwritten hc step List.mem_cons_self) step.2)

/-- In a run of calls nothing waits between them, and the other side has the whole requests of all of them. The next call
returns, or stops the program and has handed over the first part of its own. -/
theorem calls_handed_over {steps : List (Display c.Request × (CallEnv × InputCall))} {d : Display c.Request}
    (hrun : Run (c.backend buttonMap).exec ⟨screen, [], []⟩ steps d) :
    d = ⟨(c.backend buttonMap).transducer.after screen (steps.map Prod.snd), [],
        (c.backend buttonMap).transducer.output screen (steps.map Prod.snd)⟩ ∧
      ∀ step, ((c.backend buttonMap).Returns step → ∃ d', ((c.backend buttonMap).exec step).run d = .ok () d') ∧
        (¬ (c.backend buttonMap).Returns step → ∃ part rest,
          (c.backend buttonMap).request d.screen step.1 step.2 = part ++ rest ∧
          ((c.backend buttonMap).exec step).run d =
            .error .errorWl ⟨Backend.screenAfter d.screen step.2, rest, d.sent ++ part⟩) := by
  have hserved : (c.backend buttonMap).Served screen (steps.map Prod.snd) d := by
    induction hrun with
    | nil => exact Backend.served_nil _
    | @snoc steps d d' step _ hop ih =>
      rw [List.map_append]
      exact wp_ok (Q := fun _ d' => Backend.Served _ screen (steps.map Prod.snd ++ [step]) d') (ih.exec complete step)
        hop
  refine ⟨?_, fun step => ?_⟩
  · obtain ⟨screen', queued, sent⟩ := d
    obtain ⟨rfl, rfl, rfl⟩ := hserved
    rfl
  have hspec := Backend.exec_spec (b := c.backend buttonMap) complete step hserved.queued
  cases hop : ((c.backend buttonMap).exec step).run d with
  | ok _ d' =>
    obtain ⟨hreturns, -⟩ := wp_ok hspec hop
    exact ⟨fun _ => ⟨d', rfl⟩, fun hno => absurd hreturns hno⟩
  | error stop d' =>
    obtain ⟨hno, part, rest, hrequest, rfl⟩ := wp_error hspec hop
    exact ⟨fun hreturns => absurd hreturns hno, fun _ => ⟨part, rest, hrequest, rfl⟩⟩

/-- The socket takes a part of the requests of the wheel, and is polled for the others; it fails in those of the key. -/
theorem calls_handed_over_wheel : ∃ d : Display WlrRequest,
    ((wlrBackend 1).exec ({ CallEnv.smooth with flush := .again 1, poll := .writable .all }, .mouseWheel 0 1)).run
      ⟨⟨800, 600⟩, [], []⟩ = .ok () d ∧
    d = ⟨⟨800, 600⟩, [], [.axisSource 0, .axisDiscrete 0 0 (-3840) (-1), .frame]⟩ ∧
    ∃ part rest, [.key 0 22 1, .modifiers ⟨0, 0, 0, 0⟩] = part ++ rest ∧
      ((wlrBackend 1).exec ({ CallEnv.smooth with flush := .failed 1 }, .key 30 true)).run d =
        .error .errorWl ⟨⟨800, 600⟩, rest, d.sent ++ part⟩ := by
  obtain ⟨d, hop⟩ : ∃ d : Display WlrRequest, ((wlrBackend 1).exec
      ({ CallEnv.smooth with flush := .again 1, poll := .writable .all }, .mouseWheel 0 1)).run ⟨⟨800, 600⟩, [], []⟩ =
        .ok () d := ⟨_, rfl⟩
  have hrun : Run ((wlr 1).backend []).exec ⟨⟨800, 600⟩, [], []⟩ _ d := Run.single hop
  obtain ⟨hd, hnext⟩ := calls_handed_over hrun
  refine ⟨d, hop, hd, ?_⟩
  obtain ⟨part, rest, hrequest, herror⟩ :=
    (hnext ({ CallEnv.smooth with flush := .failed 1 }, .key 30 true)).2 fun hreturns => by
      rcases hreturns with hflushes | ⟨_, hcall⟩ | hall | ⟨⟨_, hagain⟩, -⟩
      exacts [Bool.noConfusion hflushes, InputCall.noConfusion hcall, FlushResult.noConfusion hall,
        FlushResult.noConfusion hagain]
  subst hd
  exact ⟨part, rest, hrequest, herror⟩

end InputBackend
end Waynergy
