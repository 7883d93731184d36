import Waynergy.Descriptors

/-!
# What the client owns

The descriptors that are out are accounted for after every run of the main loop: none is closed twice, and none is lost
but those of configuration files, which are never closed. While the connection is down the entries of `poll` keep what
the last call reported; the invariant says that none of them reports anything then that has no descriptor.
-/

namespace Waynergy
open Lib

namespace FdState

variable {α : Type} {base rest : Multiset Nat} {s s' : FdState}

/-- What the variables hold. -/
def held (s : FdState) : Multiset Nat := slot s.syn.net.fd + slot s.clip.monitor + slots s.clip.updaters

/-- What is out is what was out before the client had anything, the files that were left open, and what the variables
hold, each once. -/
structure Owned (base : Multiset Nat) (s : FdState) : Prop where
  out : s.kernel.out = base + s.lost + s.held
  net : -1 ≤ s.syn.net.fd
  monitor : -1 ≤ s.clip.monitor
  updaters : ∀ fd ∈ s.clip.updaters, -1 ≤ fd

/-- Not the stop that is not to be reached. -/
abbrev Sound (stop : FdStop) (_ : FdState) : Prop := stop ≠ .badClose

theorem fdOpen_spec (fd : Nat) (s : FdState) :
    wp (fdOpen fd) (fun _ s' => ∃ k, s' = { s with kernel := k } ∧ k.out = {fd} + s.kernel.out) Sound s := by
  unfold fdOpen
  rw [wp_zoom]
  refine wp_mono (openHandle_spec FdStop.unreal fd s.kernel) (fun _ k hk => ⟨k, rfl, hk⟩) ?_
  rintro _ _ ⟨rfl, -⟩
  exact FdStop.noConfusion

theorem fdClose_spec {fd : Int} (hne : fd ≠ -1) (hfd : -1 ≤ fd) (hout : s.kernel.out = slot fd + rest) :
    wp (fdClose fd) (fun _ s' => ∃ k, s' = { s with kernel := k } ∧ k.out = rest) Sound s := by
  unfold fdClose
  rw [wp_zoom]
  exact wp_mono (closeHandle_spec FdStop.badClose hne hfd hout) (fun _ k hk => ⟨k, rfl, hk⟩) fun _ _ => False.elim

/-- A descriptor that is opened and closed again leaves nothing. -/
theorem fdClose_opened {fd : Nat} (hout : s.kernel.out = {fd} + rest) :
    wp (fdClose fd) (fun _ s' => ∃ k, s' = { s with kernel := k } ∧ k.out = rest) Sound s :=
  fdClose_spec (by omega) (by omega) hout

/-- The state is the same, but for the files that were left open. -/
structure Loses (s s' : FdState) : Prop where
  eq : ∃ k lost, s' = { s with kernel := k, lost := lost + s.lost } ∧ k.out = lost + s.kernel.out

namespace Loses

theorem refl (s : FdState) : Loses s s := ⟨s.kernel, 0, by rw [zero_add], by rw [zero_add]⟩

theorem trans {s'' : FdState} (h : Loses s s') (h' : Loses s' s'') : Loses s s'' := by
  obtain ⟨k, lost, rfl, hk⟩ := h
  obtain ⟨k', lost', rfl, hk'⟩ := h'
  exact ⟨k', lost' + lost, by rw [add_assoc], by rw [hk', hk, add_assoc]⟩

theorem owned (h : Loses s s') (hs : Owned base s) : Owned base s' := by
  obtain ⟨k, lost, rfl, hk⟩ := h
  refine ⟨?_, hs.net, hs.monitor, hs.updaters⟩
  show k.out = base + (lost + s.lost) + s.held
  rw [hk, hs.out]
  abel

theorem syn (h : Loses s s') : s'.syn = s.syn := by
  obtain ⟨k, lost, rfl, -⟩ := h
  rfl

theorem clip (h : Loses s s') : s'.clip = s.clip := by
  obtain ⟨k, lost, rfl, -⟩ := h
  rfl

theorem revents (h : Loses s s') : s'.revents = s.revents := by
  obtain ⟨k, lost, rfl, -⟩ := h
  rfl

/-- Closing what was opened last. -/
theorem closed {fd : Nat} {k : Handles} {lost : Multiset Nat} (hk : k.out = {fd} + (lost + s.kernel.out)) :
    wp (fdClose fd) (fun _ s' => Loses s s') Sound { s with kernel := k, lost := lost + s.lost } := by
  refine wp_mono (fdClose_opened hk) ?_ fun _ _ => id
  rintro _ _ ⟨k', rfl, hk'⟩
  exact ⟨k', lost, rfl, hk'⟩

end Loses

/-- The procedure leaves files open, and does nothing else. -/
abbrev OnlyLoses (m : FdProc Unit) : Prop := ∀ s, wp m (fun _ s' => Loses s s') Sound s

namespace OnlyLoses

theorem pure : OnlyLoses (pure ()) := Loses.refl

theorem bind {m m' : FdProc Unit} (h : OnlyLoses m) (h' : OnlyLoses m') : OnlyLoses (m >>= fun _ => m') := by
  intro s
  rw [wp_bind]
  exact wp_mono (h s) (fun _ s₁ h₁ => wp_mono (h' s₁) (fun _ _ => h₁.trans) fun _ _ => id) fun _ _ => id

theorem readFileDumb (file : Option Nat) : OnlyLoses (readFileDumb file) := by
  cases file with
  | none => exact pure
  | some fd =>
    intro s
    unfold FdState.readFileDumb
    rw [wp_bind]
    refine wp_mono (fdOpen_spec fd s) ?_ fun _ _ => id
    rintro _ _ ⟨k, rfl, hk⟩
    exact ⟨k, {fd}, rfl, hk⟩

theorem configWriteString (file : Option Nat) : OnlyLoses (configWriteString file) := by
  cases file with
  | none => exact pure
  | some fd =>
    intro s
    unfold FdState.configWriteString
    rw [wp_bind]
    refine wp_mono (fdOpen_spec fd s) ?_ fun _ _ => id
    rintro _ _ ⟨k, rfl, hk⟩
    refine wp_mono (fdClose_opened hk) ?_ fun _ _ => id
    rintro _ _ ⟨k', rfl, hk'⟩
    exact ⟨k', 0, by rw [zero_add], by rw [hk', zero_add]⟩

theorem clipWlCopy (pipe : Option (Nat × Nat)) : OnlyLoses (clipWlCopy pipe) := by
  rcases pipe with _ | ⟨fd₀, fd₁⟩
  · exact pure
  · intro s
    unfold FdState.clipWlCopy
    simp only [wp_bind]
    refine wp_mono (fdOpen_spec fd₀ s) ?_ fun _ _ => id
    rintro _ _ ⟨k₀, rfl, h₀⟩
    refine wp_mono (fdOpen_spec fd₁ _) ?_ fun _ _ => id
    rintro _ _ ⟨k₁, rfl, h₁⟩
    have hout : k₁.out = {fd₀} + ({fd₁} + s.kernel.out) := by
      rw [h₁, h₀]
      exact add_left_comm _ _ _
    refine wp_mono (fdClose_opened hout) ?_ fun _ _ => id
    rintro _ _ ⟨k₂, rfl, h₂⟩
    refine wp_mono (fdClose_opened h₂) ?_ fun _ _ => id
    rintro _ _ ⟨k₃, rfl, h₃⟩
    exact ⟨k₃, 0, by rw [zero_add], by rw [h₃, zero_add]⟩

theorem callback (e : CallbackEnv) (ev : Event) : OnlyLoses (callback e ev) := by
  unfold FdState.callback
  split
  · exact readFileDumb _
  · exact readFileDumb _
  · split
    · exact clipWlCopy _
    · exact pure
  · exact pure

theorem callbacks (e : Nat → CallbackEnv) (k : Nat) (evs : List Event) : OnlyLoses (callbacks e k evs) := by
  induction evs generalizing k with
  | nil => exact pure
  | cons ev evs ih => exact (callback (e k) ev).bind (ih (k + 1))

theorem log (config : Option Nat) (fatal : Bool) : OnlyLoses (WlEvent.log config fatal).handle := by
  refine (readFileDumb config).bind fun s => ?_
  cases fatal with
  | true => exact FdStop.noConfusion
  | false => exact pure s

theorem keymap (fd : Nat) (config : Option Nat) : OnlyLoses (WlEvent.keymap fd config).handle := by
  intro s
  unfold WlEvent.handle
  simp only [wp_bind]
  refine wp_mono (fdOpen_spec fd s) ?_ fun _ _ => id
  rintro _ _ ⟨k, rfl, hk⟩
  refine wp_mono (readFileDumb config _) ?_ fun _ _ => id
  rintro _ _ ⟨k', lost, rfl, hk'⟩
  refine Loses.closed ?_
  rw [hk', hk]
  exact add_left_comm _ _ _

end OnlyLoses

/-! ### The invariant is kept -/

/-- What the entries of `poll` report is settled: an entry without a descriptor reports nothing. -/
def Settled (s : FdState) (entries : List ClipEntry) : Prop :=
  ∀ entry ∈ entries, s.clip.fd entry = -1 → s.revents entry = false

/-- The client owns what it owns, and the entries of `poll` are as they were. -/
structure StillOwned (base : Multiset Nat) (s s' : FdState) : Prop where
  owned : Owned base s'
  clip : s'.clip = s.clip
  revents : s'.revents = s.revents

theorem StillOwned.trans {s'' : FdState} (h : StillOwned base s s') (h' : StillOwned base s' s'') :
    StillOwned base s s'' := ⟨h'.owned, h'.clip.trans h.clip, h'.revents.trans h.revents⟩

theorem StillOwned.settled {entries : List ClipEntry} (h : StillOwned base s s') (hs : Settled s entries) :
    Settled s' entries := by
  intro entry hentry
  rw [h.clip, h.revents]
  exact hs entry hentry

theorem Owned.refl (hs : Owned base s) : StillOwned base s s := ⟨hs, rfl, rfl⟩

theorem Owned.loses (hs : Owned base s) (h : Loses s s') : StillOwned base s s' := ⟨h.owned hs, h.clip, h.revents⟩

/-- The client works on the context, without changing its descriptor. -/
theorem Owned.onSyn {m : Syn α} {R : α → State → Prop} (hs : Owned base s)
    (hm : wp m (fun a t => t.net = s.syn.net ∧ R a t) (fun _ _ => True) s.syn) :
    wp (FdState.onSyn m) (fun a s' => StillOwned base s s' ∧ R a s'.syn) Sound s := by
  rw [wp_onSyn]
  refine wp_mono hm ?_ fun _ _ _ => FdStop.noConfusion
  rintro a t ⟨hnet, ha⟩
  refine ⟨⟨⟨?_, ?_, hs.monitor, hs.updaters⟩, rfl, rfl⟩, ha⟩
  · show s.kernel.out = base + s.lost + (slot t.net.fd + slot s.clip.monitor + slots s.clip.updaters)
    rw [hnet]
    exact hs.out
  · show -1 ≤ t.net.fd
    rw [hnet]
    exact hs.net

theorem synNetDisconnect_spec (hs : Owned base s) :
    wp synNetDisconnect (fun _ s' => StillOwned base s s' ∧ s'.syn.net.fd = -1) Sound s := by
  unfold synNetDisconnect
  rw [wp_bind, wp_get, wp_ite]
  split
  · rename_i hfd
    exact ⟨hs.refl, hfd⟩
  · rename_i hfd
    have hout : s.kernel.out = slot s.syn.net.fd + (base + s.lost + (slot s.clip.monitor + slots s.clip.updaters)) := by
      rw [hs.out, held]
      abel
    rw [wp_bind]
    refine wp_mono (fdClose_spec hfd hs.net hout) ?_ fun _ _ => id
    rintro _ _ ⟨k, rfl, hk⟩
    rw [wp_onSyn]
    unfold Waynergy.synNetDisconnect
    rw [wp_bind, wp_get, wp_ite, if_neg hfd]
    refine ⟨⟨⟨?_, le_refl _, hs.monitor, hs.updaters⟩, rfl, rfl⟩, rfl⟩
    show k.out = base + s.lost + (slot (-1) + slot s.clip.monitor + slots s.clip.updaters)
    rw [hk, slot_none, zero_add]

theorem synConnectSetup_spec (a : FdAttempt) (hs : Owned base s) (hfd : s.syn.net.fd = -1) :
    wp (synConnectSetup a) (fun _ s' => StillOwned base s s') Sound s := by
  cases a with
  | noSocket =>
    unfold synConnectSetup
    rw [wp_onSyn]
    refine ⟨⟨?_, le_refl _, hs.monitor, hs.updaters⟩, rfl, rfl⟩
    show s.kernel.out = base + s.lost + (slot (-1) + slot s.clip.monitor + slots s.clip.updaters)
    rw [hs.out, held, hfd]
  | socket fd hash stored ok =>
    unfold synConnectSetup
    simp only [wp_bind]
    refine wp_mono (fdOpen_spec fd s) ?_ fun _ _ => id
    rintro _ _ ⟨k, rfl, hk⟩
    refine wp_mono (OnlyLoses.readFileDumb hash _) (fun _ s₁ h₁ => ?_) fun _ _ => id
    refine wp_mono (OnlyLoses.configWriteString stored _) (fun _ s₂ h₂ => ?_) fun _ _ => id
    obtain ⟨k', lost, rfl, hk'⟩ := h₁.trans h₂
    rw [wp_onSyn]
    have hreal : (-1 : Int) ≤ fd := by omega
    refine ⟨⟨?_, hreal, hs.monitor, hs.updaters⟩, rfl, rfl⟩
    show k'.out = base + (lost + s.lost) + (slot fd + slot s.clip.monitor + slots s.clip.updaters)
    have hout : k.out = {fd} + (base + s.lost + (slot (-1) + slot s.clip.monitor + slots s.clip.updaters)) := by
      rw [hk, hs.out, held, hfd]
    rw [hk']
    show lost + k.out = _
    rw [hout, slot_none, slot_nat]
    abel

theorem connectLoop_spec (now : Nat) (hosts : List FdAttempt) (hs : Owned base s) (hfd : s.syn.net.fd = -1) :
    wp (connectLoop now hosts) (fun _ s' => StillOwned base s s') Sound s := by
  induction hosts generalizing s with
  | nil => exact hs.refl
  | cons a hosts ih =>
    unfold connectLoop
    rw [wp_bind]
    refine wp_mono (synConnectSetup_spec a hs hfd) (fun ok s₁ h₁ => ?_) fun _ _ => id
    rw [wp_ite]
    split
    · rw [wp_bind, wp_onSyn]
      exact h₁.trans ⟨⟨h₁.owned.out, h₁.owned.net, h₁.owned.monitor, h₁.owned.updaters⟩, rfl, rfl⟩
    · rw [wp_bind]
      refine wp_mono (synNetDisconnect_spec h₁.owned) ?_ fun _ _ => id
      rintro _ s₂ ⟨h₂, hfd₂⟩
      exact wp_mono (ih h₂.owned hfd₂) (fun _ _ h => (h₁.trans h₂).trans h) fun _ _ => id

theorem tryConnect_spec (e : FdConnectEnv) (hs : Owned base s) :
    wp (tryConnect e) (fun _ s' => StillOwned base s s') Sound s := by
  have hconnect : wp (synConnect e) (fun _ s' => StillOwned base s s') Sound s := by
    unfold synConnect
    rw [wp_bind]
    refine wp_mono (hs.onSyn (R := fun _ _ => True) ⟨rfl, trivial⟩) (fun _ s₁ h₁ => ?_) fun _ _ => id
    cases e.attempts with
    | none => exact h₁.1
    | some hosts =>
      rw [wp_bind]
      refine wp_mono (synNetDisconnect_spec h₁.1.owned) ?_ fun _ _ => id
      rintro _ s₂ ⟨h₂, hfd₂⟩
      exact wp_mono (connectLoop_spec _ hosts h₂.owned hfd₂) (fun _ _ h => (h₁.1.trans h₂).trans h) fun _ _ => id
  unfold tryConnect
  rw [wp_bind, wp_get, wp_ite]
  split
  · exact FdStop.noConfusion
  · rw [wp_bind]
    refine wp_mono hconnect (fun ok s₁ h₁ => ?_) fun _ _ => id
    rw [wp_ite]
    split
    · exact wp_mono (h₁.owned.onSyn (R := fun _ _ => True) ⟨rfl, trivial⟩) (fun _ _ h => h₁.trans h.1) fun _ _ => id
    · exact wp_mono (h₁.owned.onSyn (R := fun _ _ => True) ⟨rfl, trivial⟩) (fun _ _ h => h₁.trans h.1) fun _ _ => id

theorem uSynergyUpdate_spec (e : FdSynEnv) (hs : Owned base s) :
    wp (uSynergyUpdate e) (fun _ s' => StillOwned base s s') Sound s := by
  unfold uSynergyUpdate
  rw [wp_bind, wp_get, wp_ite]
  split
  · rw [wp_bind]
    have hnet : wp (sUpdateContext e.update) (fun _ t => t.net = s.syn.net ∧ True) (fun _ _ => True) s.syn :=
      wp_mono (KeepsNet.sUpdateContext e.update s.syn) (fun _ _ h => ⟨h, trivial⟩) fun _ _ _ => trivial
    refine wp_mono (hs.onSyn hnet) (fun _ s₁ h₁ => ?_) fun _ _ => id
    rw [wp_bind, wp_get]
    exact wp_mono (OnlyLoses.callbacks _ _ _ s₁) (fun _ _ h => h₁.1.trans (h₁.1.owned.loses h)) fun _ _ => id
  · exact tryConnect_spec _ hs

/-! ### The clipboard sockets -/

theorem updater_eq {i : Nat} (hfd : s.clip.fd (.updater i) ≠ -1) :
    s.clip.updaters[i]? = some (s.clip.fd (.updater i)) := by
  unfold ClipFds.fd at hfd ⊢
  dsimp only at hfd ⊢
  rw [List.getD_eq_getElem?_getD] at hfd ⊢
  cases h : s.clip.updaters[i]? with
  | none => exact absurd (by rw [h]; rfl) hfd
  | some fd => rfl

/-- What happens to the entries while `entry` is processed: others do not lose their descriptor, the monitor's entry
excepted. -/
structure Processed (base : Multiset Nat) (entry : ClipEntry) (s s' : FdState) : Prop where
  owned : Owned base s'
  up : s'.syn.ctx.connected = s.syn.ctx.connected
  revents : s'.revents = s.revents
  others : ∀ i, .updater i ≠ entry → s.clip.fd (.updater i) ≠ -1 → s'.clip.fd (.updater i) ≠ -1

theorem closeEntry_spec (entry : ClipEntry) (hs : Owned base s) (hfd : s.clip.fd entry ≠ -1) :
    wp (closeEntry entry) (fun _ s' => Processed base entry s s') Sound s := by
  unfold closeEntry
  simp only [wp_bind, wp_get, wp_setClip]
  cases entry with
  | monitor =>
    have hout : s.kernel.out = slot s.clip.monitor + (base + s.lost + (slot s.syn.net.fd + slots s.clip.updaters)) := by
      rw [hs.out, held]
      abel
    refine wp_mono (fdClose_spec hfd hs.monitor hout) ?_ fun _ _ => id
    rintro _ _ ⟨k, rfl, hk⟩
    refine ⟨⟨?_, hs.net, le_refl _, hs.updaters⟩, rfl, rfl, fun _ _ => id⟩
    show k.out = base + s.lost + (slot s.syn.net.fd + slot (-1) + slots s.clip.updaters)
    rw [hk, slot_none, add_zero]
  | updater i =>
    have hi := updater_eq hfd
    obtain ⟨others, hold, hnew⟩ := slots_split hi
    have hout : s.kernel.out =
        slot (s.clip.fd (.updater i)) + (base + s.lost + (slot s.syn.net.fd + slot s.clip.monitor + others)) := by
      rw [hs.out, held, hold]
      abel
    refine wp_mono (fdClose_spec hfd (hs.updaters _ (List.mem_of_getElem? hi)) hout) ?_ fun _ _ => id
    rintro _ _ ⟨k, rfl, hk⟩
    refine ⟨⟨?_, hs.net, hs.monitor, fun fd hmem => ?_⟩, rfl, rfl, fun j hj => ?_⟩
    · show k.out = base + s.lost + (slot s.syn.net.fd + slot s.clip.monitor + slots (s.clip.updaters.set i (-1)))
      rw [hk, hnew, slot_none, zero_add]
    · rcases List.mem_or_eq_of_mem_set hmem with hmem | rfl
      exacts [hs.updaters fd hmem, le_refl _]
    · have hne : j ≠ i := fun h => hj (h ▸ rfl)
      show s.clip.updaters.getD j (-1) ≠ -1 → (s.clip.updaters.set i (-1)).getD j (-1) ≠ -1
      rw [List.getD_eq_getElem?_getD, List.getD_eq_getElem?_getD, List.getElem?_set_ne hne.symm]
      exact id

theorem acceptUpdater_spec (a : Accept) (hs : Owned base s) (hfd : s.clip.monitor ≠ -1) (entry : ClipEntry) :
    wp (acceptUpdater a) (fun _ s' => Processed base entry s s') Sound s := by
  have hsame : Processed base entry s s := ⟨hs, rfl, rfl, fun _ _ => id⟩
  unfold acceptUpdater
  rw [wp_bind, wp_get]
  split
  · exact hsame
  · rename_i i fd hfree
    obtain ⟨hlt, hi, -⟩ := List.findIdx?_eq_some_iff_getElem.mp hfree
    have hi' : s.clip.updaters[i]? = some (-1) := List.getElem?_eq_some_iff.mpr ⟨hlt, eq_of_beq hi⟩
    obtain ⟨others, hold, hnew⟩ := slots_split hi'
    rw [wp_bind]
    refine wp_mono (fdOpen_spec fd s) ?_ fun _ _ => id
    rintro _ _ ⟨k, rfl, hk⟩
    rw [wp_setClip]
    refine ⟨⟨?_, hs.net, hs.monitor, fun fd' hmem => ?_⟩, rfl, rfl, fun j _ => ?_⟩
    · show k.out = base + s.lost + (slot s.syn.net.fd + slot s.clip.monitor + slots (s.clip.updaters.set i fd))
      rw [hk, hs.out, held, hold, hnew, slot_none, slot_nat]
      abel
    · rcases List.mem_or_eq_of_mem_set hmem with hmem | rfl
      exacts [hs.updaters fd' hmem, by omega]
    · show s.clip.updaters.getD j (-1) ≠ -1 → (s.clip.updaters.set i fd).getD j (-1) ≠ -1
      rw [List.getD_eq_getElem?_getD, List.getD_eq_getElem?_getD]
      by_cases hj : i = j
      · rw [← hj, hi', List.getElem?_set_self hlt]
        exact fun h => absurd rfl h
      · rw [List.getElem?_set_ne hj]
        exact id
  · exact hsame
  · refine wp_mono (closeEntry_spec .monitor hs hfd) (fun _ s' h => ?_) fun _ _ => id
    exact ⟨h.owned, h.up, h.revents, fun i _ => h.others i ClipEntry.noConfusion⟩

theorem handle_keeps (ev : LocalEvent) (t : State) :
    wp ev.handle (fun _ t' => t'.net = t.net ∧ t'.ctx.connected = t.ctx.connected) (fun _ _ => True) t := by
  refine wp_mono (handle_spec ev t) ?_ fun _ _ => id
  rintro _ t' ⟨⟨b, n, clip, width, height, info, hctx⟩, hnet⟩
  exact ⟨hnet, by rw [hctx]⟩

theorem clipMonitorPollProc_spec (e : ClipEnv) (entry : ClipEntry) (hs : Owned base s)
    (hready : s.clip.fd entry = -1 → s.revents entry = false) :
    wp (clipMonitorPollProc e entry) (fun _ s' => Processed base entry s s') Sound s := by
  unfold clipMonitorPollProc
  rw [wp_bind, wp_get, wp_ite]
  split
  · rename_i hread
    have hfd : s.clip.fd entry ≠ -1 := fun h => absurd (hready h) (by rw [hread]; decide)
    rw [wp_ite]
    split
    · rename_i hmonitor
      exact acceptUpdater_spec e.accept hs (hmonitor ▸ hfd) entry
    · split
      · exact FdStop.noConfusion
      · exact FdStop.noConfusion
      · exact closeEntry_spec entry hs hfd
      · rename_i id len buf _
        rw [wp_bind]
        refine wp_mono (hs.onSyn (handle_keeps (.clipBuf e.heap e.sent id (passedOn len buf)) s.syn)) ?_ fun _ _ h => h
        rintro _ s₁ ⟨h₁, hup⟩
        have hfd₁ : s₁.clip.fd entry ≠ -1 := by
          rw [h₁.clip]
          exact hfd
        refine wp_mono (closeEntry_spec entry h₁.owned hfd₁) (fun _ s₂ h₂ => ?_) fun _ _ h => h
        refine ⟨h₂.owned, h₂.up.trans hup, h₂.revents.trans h₁.revents, fun i hi hfdi => h₂.others i hi ?_⟩
        rw [h₁.clip]
        exact hfdi
  · exact ⟨hs, rfl, rfl, fun _ _ => id⟩

theorem Processed.settled {entry : ClipEntry} {is : List Nat} (h : Processed base entry s s')
    (hnew : ∀ i ∈ is, ClipEntry.updater i ≠ entry) (hs : Settled s (is.map .updater)) :
    Settled s' (is.map .updater) := by
  intro other hother hfd
  obtain ⟨i, hi, rfl⟩ := List.mem_map.mp hother
  rw [h.revents]
  refine hs _ hother ?_
  by_contra hne
  exact h.others i (hnew i hi) hne hfd

theorem updaters_spec (e : ClipEntry → ClipEnv) {is : List Nat} (hnodup : is.Nodup) (hs : Owned base s)
    (hready : Settled s (is.map .updater)) :
    wp (clipEntries e (is.map .updater)) (fun _ s' => Owned base s' ∧ s'.syn.ctx.connected = s.syn.ctx.connected)
      Sound s := by
  induction is generalizing s with
  | nil => exact ⟨hs, rfl⟩
  | cons i is ih =>
    obtain ⟨hi, hnodup⟩ := List.nodup_cons.mp hnodup
    rw [List.map_cons, clipEntries, wp_bind]
    refine wp_mono (clipMonitorPollProc_spec _ _ hs (hready _ (.head _))) (fun _ s₁ h₁ => ?_) fun _ _ => id
    have hready₁ : Settled s₁ (is.map .updater) := by
      refine h₁.settled (fun j hj heq => ?_) fun entry hentry => hready entry (.tail _ hentry)
      injection heq with heq
      exact hi (heq ▸ hj)
    refine wp_mono (ih hnodup h₁.owned hready₁) ?_ fun _ _ => id
    rintro _ s₂ ⟨h₂, hup⟩
    exact ⟨h₂, hup.trans h₁.up⟩

theorem clipEntries_spec (e : ClipEntry → ClipEnv) (hs : Owned base s) (hready : Settled s allEntries) :
    wp (clipEntries e allEntries) (fun _ s' => Owned base s' ∧ s'.syn.ctx.connected = s.syn.ctx.connected)
      Sound s := by
  unfold allEntries at hready ⊢
  rw [clipEntries, wp_bind]
  refine wp_mono (clipMonitorPollProc_spec _ _ hs (hready _ (.head _))) (fun _ s₁ h₁ => ?_) fun _ _ => id
  have hready₁ : Settled s₁ ((List.range 8).map .updater) :=
    h₁.settled (fun _ _ => ClipEntry.noConfusion) fun entry hentry => hready entry (.tail _ hentry)
  refine wp_mono (updaters_spec e List.nodup_range h₁.owned hready₁) ?_ fun _ _ => id
  rintro _ s₂ ⟨h₂, hup⟩
  exact ⟨h₂, hup.trans h₁.up⟩

/-! ### Polling -/

theorem wlPollProc_spec (evs : List WlEvent) (hs : Owned base s) :
    wp (wlPollProc evs) (fun _ s' => StillOwned base s s' ∧ s'.syn.ctx.connected = s.syn.ctx.connected) Sound s := by
  induction evs generalizing s with
  | nil => exact ⟨hs.refl, rfl⟩
  | cons ev evs ih =>
    have hev : wp ev.handle (fun _ s' => StillOwned base s s' ∧ s'.syn.ctx.connected = s.syn.ctx.connected) Sound s := by
      cases ev with
      | keymap fd config =>
        refine wp_mono (OnlyLoses.keymap fd config s) (fun _ s' h => ⟨hs.loses h, ?_⟩) fun _ _ => id
        rw [h.syn]
      | log config fatal =>
        refine wp_mono (OnlyLoses.log config fatal s) (fun _ s' h => ⟨hs.loses h, ?_⟩) fun _ _ => id
        rw [h.syn]
      | res sent width height => exact hs.onSyn (handle_keeps (.res sent width height) s.syn)
    unfold wlPollProc
    rw [wp_bind]
    refine wp_mono hev ?_ fun _ _ => id
    rintro _ s₁ ⟨h₁, hup₁⟩
    refine wp_mono (ih h₁.owned) ?_ fun _ _ => id
    rintro _ s₂ ⟨h₂, hup₂⟩
    exact ⟨h₁.trans h₂, hup₂.trans hup₁⟩

/-- Between two calls of `poll`: if only the connection is polled next, what the last call said of the other entries
stands. -/
structure Ready (base : Multiset Nat) (s : FdState) : Prop where
  owned : Owned base s
  settled : s.syn.ctx.connected = false → Settled s allEntries

theorem Ready.poll (hs : Ready base s) (ready : ClipEntry → Bool) :
    wp (poll ready) (fun _ s' => Owned base s' ∧ Settled s' allEntries) Sound s := by
  unfold FdState.poll
  rw [wp_modify]
  split
  · refine ⟨⟨hs.owned.out, hs.owned.net, hs.owned.monitor, hs.owned.updaters⟩, fun entry _ hfd => ?_⟩
    show (ready entry && decide (0 ≤ s.clip.fd entry)) = false
    have hfd' : s.clip.fd entry = -1 := hfd
    rw [hfd']
    exact Bool.and_false _
  · rename_i hdown
    exact ⟨hs.owned, hs.settled (eq_false_of_ne_true hdown)⟩

theorem disconnect_ready (hs : Owned base s) (hready : Settled s allEntries) :
    wp synNetDisconnect (fun _ s' => Ready base s') Sound s := by
  refine wp_mono (synNetDisconnect_spec hs) ?_ fun _ _ => id
  rintro _ s' ⟨h, -⟩
  exact ⟨h.owned, fun _ => h.settled hready⟩

theorem pollRest_spec (r : FdRound) (hs : Owned base s) (hready : Settled s allEntries) :
    wp (pollRest r) (fun _ s' => Ready base s') Sound s := by
  unfold pollRest
  rw [wp_bind, wp_get, wp_ite]
  split
  · rw [wp_bind]
    exact disconnect_ready hs hready
  · rw [wp_ite]
    split
    · rename_i hup
      rw [wp_bind]
      refine wp_mono (wlPollProc_spec r.wl hs) ?_ fun _ _ => id
      rintro _ s₁ ⟨h₁, hup₁⟩
      rw [wp_bind]
      refine wp_mono (clipEntries_spec r.clip h₁.owned (h₁.settled hready)) ?_ fun _ _ => id
      rintro _ s₂ ⟨h₂, hup₂⟩
      refine ⟨h₂, fun hdown => ?_⟩
      rw [hup₂, hup₁, hup] at hdown
      cases hdown
    · exact ⟨hs, fun _ => hready⟩

theorem netPoll_spec (timedOut : Bool) (rounds : List FdRound) (hs : Ready base s) :
    wp (netPoll timedOut rounds) (fun _ s' => Ready base s') Sound s := by
  induction rounds generalizing s with
  | nil =>
    unfold netPoll
    rw [wp_ite]
    split
    · rw [wp_bind]
      refine wp_mono (hs.poll fun _ => false) ?_ fun _ _ => id
      rintro _ s₁ ⟨h₁, hready⟩
      rw [wp_bind]
      exact disconnect_ready h₁ hready
    · exact hs
  | cons r rounds ih =>
    rw [netPoll_cons, wp_bind]
    refine wp_mono (hs.poll r.ready) ?_ fun _ _ => id
    rintro _ s₁ ⟨h₁, hready⟩
    have hupdate : wp (if r.readable then uSynergyUpdate r.env else pure ())
        (fun _ s₂ => StillOwned base s₁ s₂) Sound s₁ := by
      rw [wp_ite]
      split
      · exact uSynergyUpdate_spec r.env h₁
      · exact h₁.refl
    rw [wp_bind]
    refine wp_mono hupdate (fun _ s₂ h₂ => ?_) fun _ _ => id
    rw [wp_bind]
    refine wp_mono (pollRest_spec r h₂.owned (h₂.settled hready)) (fun again s₃ h₃ => ?_) fun _ _ => id
    cases again with
    | false => exact h₃
    | true => exact ih h₃

theorem mainLoop_spec (e : FdMainEnv) (hs : Ready base s) :
    wp (mainLoop e) (fun _ s' => Ready base s') Sound s := by
  unfold mainLoop
  rw [wp_bind, wp_get, wp_ite]
  split
  · exact netPoll_spec e.timedOut e.rounds hs
  · rename_i hdown
    refine wp_mono (uSynergyUpdate_spec e.env hs.owned) (fun _ s' h => ⟨h.owned, fun _ => ?_⟩) fun _ _ => id
    exact h.settled (hs.settled (eq_false_of_ne_true hdown))

theorem start_ready (cfg : Config) (k : Handles) (monitor : { fd // fd ∈ k.out }) :
    Ready (k.out.erase monitor.val) (start cfg k monitor) := by
  refine ⟨⟨?_, le_refl _, ?_, fun fd hfd => ?_⟩, fun _ _ _ _ => rfl⟩
  · show k.out = k.out.erase monitor.val + 0 + (slot (-1) + slot (monitor.val : Nat) + slots (List.replicate 8 (-1)))
    rw [slots_replicate, slot_none, slot_nat, add_zero, add_zero, zero_add, add_comm, Multiset.singleton_add,
      Multiset.cons_erase monitor.property]
  · show -1 ≤ ((monitor.val : Nat) : Int)
    omega
  · rw [List.eq_of_mem_replicate hfd]

/-- After every run of the main loop, what is out is what was out before, the files that were left open, and what the
variables hold, each once; and the next iteration closes nothing that is not open. -/
theorem descriptors_owned {cfg : Config} {k : Handles} {monitor : { fd // fd ∈ k.out }}
    {steps : List (FdState × FdMainEnv)} (hrun : Run mainLoop (start cfg k monitor) steps s) :
    s.kernel.out = k.out.erase monitor.val + s.lost +
        (slot s.syn.net.fd + slot s.clip.monitor + slots s.clip.updaters) ∧
      ∀ e s', (mainLoop e).run s ≠ .error .badClose s' := by
  have hready : Ready (k.out.erase monitor.val) s :=
    hrun.invariant (start_ready cfg k monitor) fun t e _ _ ht hop =>
      wp_ok (Q := fun _ s' => Ready (k.out.erase monitor.val) s') (mainLoop_spec e ht) hop
  refine ⟨hready.owned.out, fun e s' hbad => ?_⟩
  exact wp_error (E := Sound) (mainLoop_spec e hready) hbad rfl

theorem descriptors_owned_connected : ∃ s, Run mainLoop started [(started, .connects)] s ∧ s.lost = {5} ∧
    s.kernel.out = ({0, 1, 2, 3} : Multiset Nat).erase 3 + s.lost +
      (slot s.syn.net.fd + slot s.clip.monitor + slots s.clip.updaters) := by
  obtain ⟨s, hrun, hlost⟩ : ∃ s, (mainLoop .connects).run started = .ok () s ∧ s.lost = {5} := ⟨_, rfl, rfl⟩
  exact ⟨s, Run.single hrun, hlost, (descriptors_owned (Run.single hrun)).1⟩

end FdState
end Waynergy
