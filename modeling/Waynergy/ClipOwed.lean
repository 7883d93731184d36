import Waynergy.ClipSend

/-!
# What is sent when the screen is left

A local update that was not suppressed is owed to the server until the next CCLP or start message for its
clipboard, or the next COUT. `Owed` and `lastCopy` are read off the history of a run; the invariant is that
the slot is grabbed exactly while something is owed, and then holds the encoding of the last copy: an open stream
would write into the same block, but a slot is never grabbed while its stream is open.
-/

namespace Waynergy
open Lib
variable {s t : State} {i : Fin 2} {c : ClipSlot} {steps : List (State × Op)}

/-! ### The history -/

/-- In the state `t` the duplicate check finds `data`. -/
def Suppressed (i : Fin 2) (data : Bytes) (t : State) : Prop := (uSynergyClipBufContains i data).run t = .ok true t

def owedBy (i : Fin 2) (t : State) (owed : Prop) : ClipAct → Prop
  | .release j | .start _ j _ _ => owed ∧ j ≠ i
  | .leave => False
  | .update _ j data => owed ∨ j = i ∧ ¬ Suppressed j data t
  | _ => owed

/-- Since the last CCLP, start message or COUT that concerns clipboard `i` there was a local update of it that was
not suppressed. -/
def Owed (i : Fin 2) (steps : List (State × Op)) : Prop :=
  steps.foldl (fun owed step => owedBy i step.1 owed (step.2.act step.1)) False

def copiedBy (i : Fin 2) (last : Option Bytes) : ClipAct → Option Bytes
  | .update _ j data => if j = i then some data else last
  | _ => last

/-- The data of the last local update of clipboard `i`. -/
def lastCopy (i : Fin 2) (steps : List (State × Op)) : Option Bytes :=
  steps.foldl (fun last step => copiedBy i last (step.2.act step.1)) none

theorem owed_snoc (op : Op) : Owed i (steps ++ [(t, op)]) = owedBy i t (Owed i steps) (op.act t) := by
  simp [Owed]

theorem lastCopy_snoc (op : Op) : lastCopy i (steps ++ [(t, op)]) = copiedBy i (lastCopy i steps) (op.act t) := by
  simp [lastCopy]

/-- The data of a local update has a length whose encoding is an `int`. -/
def Op.Short : Op → Prop
  | .updateClipBuf _ _ _ data => data.length + 12 < 2 ^ 31
  | _ => True

theorem msgAct_ne_update (e : MsgEnv) (msg : SspBuf) (h : Heap) (data : Bytes) : msgAct e msg ≠ .update h i data := by
  have hdclp : ∀ hd rest, dclpAct e hd rest ≠ .update h i data := fun hd rest => by
    unfold dclpAct
    split_ifs <;> exact (nomatch ·)
  have hpkt : ∀ rest p, pktAct e rest p ≠ .update h i data := fun rest p => by
    unfold pktAct
    split
    · exact (nomatch ·)
    · split
      · split <;> exact (nomatch ·)
      · exact (nomatch ·)
    · split
      · exact hdclp _ _
      · exact (nomatch ·)
    · exact (nomatch ·)
  unfold msgAct
  split
  · split
    · split
      · exact hpkt _ _
      · exact (nomatch ·)
    · exact (nomatch ·)
  · exact (nomatch ·)

theorem Op.Short.of_update {op : Op} {h : Heap} {data : Bytes} (hop : op.Short) (hact : op.act t = .update h i data) :
    data.length + 12 < 2 ^ 31 := by
  cases op with
  | updateClipBuf h' sent j' data' =>
    cases hact
    exact hop
  | message e mem len =>
    rw [Op.act] at hact
    split at hact
    · exact absurd hact (msgAct_ne_update e _ h data)
    · cases hact
  | _ => cases hact

/-! ### The invariant -/

/-- The slot holds the encoding of `data`, and no stream is open. -/
structure ClipSlot.HoldsCopy (c : ClipSlot) (data : Bytes) : Prop where
  inStream : c.inStream = false
  pos : c.pos = data.length + 12
  front : c.mem.take c.pos = encodeText data
  short : data.length + 12 < 2 ^ 31

/-- The slot `c` is grabbed while something is owed, and then holds the last copy. -/
structure Copied (i : Fin 2) (steps : List (State × Op)) (c : ClipSlot) : Prop where
  owed : c.grabbed = true ↔ Owed i steps
  copy : c.grabbed = true → ∃ data, lastCopy i steps = some data ∧ c.HoldsCopy data

/-- The duplicate check finds no other text in a slot that holds a copy. -/
theorem ClipSlot.HoldsCopy.contains {data data' : Bytes} (h : c.HoldsCopy data) (hc : c.Contains data') :
    data' = data := by
  obtain ⟨more, hmem⟩ : ∃ more, c.mem = encodeText data ++ more :=
    ⟨c.mem.drop c.pos, by rw [← h.front, List.take_append_drop]⟩
  have hshort := h.short
  have hcount : wordAt c.mem 0 = 1 := by rw [hmem]; rfl
  have hsize : wordAt c.mem 8 = data.length := by
    have : wordAt c.mem 8 = beNat (be32 data.length) := by rw [hmem]; rfl
    rw [this, beNat_be32 (by omega)]
  obtain ⟨-, k, hk, -, hsize', hdata⟩ := hc
  obtain rfl : k = 0 := by omega
  have hlen : data'.length = data.length := by rw [← hsize', ← hsize]
  have hslice : slice c.mem 12 data.length = data := by
    have hdrop : (encodeText data ++ more).drop 12 = data ++ more := by
      rw [encodeText, List.append_assoc]
      exact List.drop_left' rfl
    rw [hmem, slice, hdrop, List.take_left]
  rw [← hdata, Nat.mul_zero, Nat.add_zero, hlen, hslice]

theorem ClipSlot.HoldsCopy.fits {data : Bytes} (h : c.HoldsCopy data) : c.pos ≤ c.cap ∧ c.pos ≤ maxSent := by
  have hlen := congrArg List.length h.front
  rw [List.length_take, length_encodeText, ← h.pos] at hlen
  have hshort := h.short
  have hpos := h.pos
  have hcap : c.cap = c.mem.length := rfl
  have hmax : maxSent = 2147484620 := rfl
  omega

theorem suppressed_iff {data : Bytes} (hs : (t.ctx.clip i).Sized) :
    Suppressed i data t ↔ (t.ctx.clip i).Contains data := by
  have hcontains := contains_iff i data t hs
  constructor
  · exact fun hrun => (wp_ok hcontains hrun).2.mp rfl
  · intro hc
    obtain ⟨b, t', hrun, ht', hb⟩ := exists_ok_of_wp (wp_mono hcontains (fun _ _ => id) fun _ _ h => h.2.2 hc)
    rw [hb.mpr hc, ht'] at hrun
    exact hrun

theorem HoldsCopy.updated {buf data : Bytes} (h : data.length + 12 < 2 ^ 31) :
    (c.updated buf data).HoldsCopy data := by
  have hmod : (data.length + 12) % 2 ^ 32 = data.length + 12 := Nat.mod_eq_of_lt (by omega)
  refine ⟨rfl, hmod, ?_, h⟩
  show (overwrite buf 0 (encodeText data)).take ((data.length + 12) % 2 ^ 32) = _
  rw [hmod, overwrite_zero, List.take_left' (length_encodeText data)]

theorem Copied.not_grabbed (h : Copied i steps c) (hstr : c.inStream = true) : c.grabbed = false := by
  by_contra hg
  obtain ⟨data, -, hcopy⟩ := h.copy (eq_true_of_ne_false hg)
  rw [hcopy.inStream] at hstr
  cases hstr

theorem Copied.step {op : Op} {clip : Fin 2 → ClipSlot} {ts : List (Nat × Nat × Bytes)}
    (h : Copied i steps (t.ctx.clip i)) (hs : ∀ i, (t.ctx.clip i).Sized) (hshort : op.Short)
    (hstep : ClipStep t.ctx (op.act t) clip ts) : Copied i (steps ++ [(t, op)]) (clip i) := by
  have after : ∀ c : ClipSlot, (c.grabbed = true ↔ owedBy i t (Owed i steps) (op.act t)) →
      (c.grabbed = true → ∃ data, copiedBy i (lastCopy i steps) (op.act t) = some data ∧ c.HoldsCopy data) →
      Copied i (steps ++ [(t, op)]) c :=
    fun c howed hcopy => ⟨by rw [owed_snoc]; exact howed, by rw [lastCopy_snoc]; exact hcopy⟩
  have hlen : ∀ (hp : Heap) (j : Fin 2) (data : Bytes), op.act t = .update hp j data → data.length + 12 < 2 ^ 31 :=
    fun hp j data => hshort.of_update
  generalize op.act t = act at hstep after hlen
  -- a slot that the step does not touch, or only where nothing is grabbed
  have hfree : ∀ c : ClipSlot, c.grabbed = false → ¬ owedBy i t (Owed i steps) act →
      Copied i (steps ++ [(t, op)]) c :=
    fun c hc hno => after c (by rw [hc]; exact ⟨(nomatch ·), fun h => absurd h hno⟩) (by rw [hc]; exact (nomatch ·))
  have hfalse : ∀ {j : Fin 2}, j = i → (t.ctx.clip j).inStream = true →
      ¬ Owed i steps ∧ (t.ctx.clip j).grabbed = false := by
    rintro j rfl hstr
    have hg := h.not_grabbed hstr
    exact ⟨fun ho => absurd (h.owed.mpr ho) (by rw [hg]; exact Bool.false_ne_true), hg⟩
  cases hstep with
  | none | drop | idle => exact after _ h.owed h.copy
  | release j =>
    by_cases hj : j = i
    · subst hj
      rw [Function.update_self]
      exact hfree _ rfl fun h => h.2 rfl
    · rw [Function.update_of_ne (Ne.symm hj)]
      exact after _ (h.owed.trans (and_iff_left hj).symm) h.copy
  | leave => exact hfree _ rfl id
  | @start e j len copied buf hroom =>
    by_cases hj : j = i
    · subst hj
      rw [Function.update_self]
      exact hfree _ rfl fun h => h.2 rfl
    · rw [Function.update_of_ne (Ne.symm hj)]
      exact after _ (h.owed.trans (and_iff_left hj).symm) h.copy
  | @accept j len copied haccept =>
    by_cases hj : j = i
    · have ⟨hno, hg⟩ := hfalse hj haccept.1
      subst hj
      rw [Function.update_self]
      exact hfree _ hg hno
    · rw [Function.update_of_ne (Ne.symm hj)]
      exact after _ h.owed h.copy
  | @finish j hstr =>
    by_cases hj : j = i
    · have ⟨hno, hg⟩ := hfalse hj hstr
      subst hj
      rw [Function.update_self]
      refine hfree _ ?_ hno
      unfold ClipSlot.ended
      split <;> exact hg
    · rw [Function.update_of_ne (Ne.symm hj)]
      exact after _ h.owed h.copy
  | @duplicate hp j data hdup =>
    have hsup := (suppressed_iff (hs j)).mpr hdup
    refine after _ (h.owed.trans ⟨.inl, fun ho => ho.resolve_right fun ho => ho.2 hsup⟩) fun hg => ?_
    obtain ⟨data', hlast, hcopy⟩ := h.copy hg
    by_cases hj : j = i
    · subst hj
      rw [hcopy.contains hdup]
      exact ⟨data', if_pos rfl, hcopy⟩
    · exact ⟨data', (if_neg hj).trans hlast, hcopy⟩
  | @update hp j data buf hnew hroom hfits =>
    by_cases hj : j = i
    · subst hj
      rw [Function.update_self]
      refine after _ ⟨fun _ => .inr ⟨rfl, fun hsup => hnew ((suppressed_iff (hs j)).mp hsup)⟩, fun _ => rfl⟩
        fun _ => ?_
      exact ⟨data, if_pos rfl, HoldsCopy.updated (hlen hp j data rfl)⟩
    · rw [Function.update_of_ne (Ne.symm hj)]
      refine after _ (h.owed.trans ⟨.inl, fun ho => ho.resolve_right fun ho => hj ho.1⟩) fun hg => ?_
      obtain ⟨data', hlast, hcopy⟩ := h.copy hg
      exact ⟨data', (if_neg hj).trans hlast, hcopy⟩

theorem copied_of_run {cfg : Config} (hrun : Run Op.exec (.init cfg) steps s) (hops : ∀ step ∈ steps, step.2.Short) :
    Copied i steps (s.ctx.clip i) := by
  induction hrun with
  | nil => exact ⟨⟨(nomatch ·), False.elim⟩, (nomatch ·)⟩
  | @snoc steps t s op hrun hop ih =>
    have hops' : ∀ step ∈ steps, step.2.Short := fun step hm => hops step (by simp [hm])
    have hshort : op.Short := hops (t, op) (by simp)
    have hs := sized_of_run hrun
    obtain ⟨clip, ts, hstep, h⟩ := wp_ok (clip_spec hs op) hop
    rw [h.clip]
    exact (ih hops').step hs hshort hstep

/-- As long as no reply could not be built, the reply cursor is at its base between two operations. -/
theorem cursor_of_run {cfg : Config} (hrun : Run Op.exec (.init cfg) steps s) (hreply : .replyError ∉ s.out) :
    s.ctx.replyCur = 4 := by
  induction hrun with
  | nil => rfl
  | @snoc steps t s op hrun hop ih =>
    obtain ⟨clip, ts, -, h⟩ := wp_ok (clip_spec (sized_of_run hrun) op) hop
    obtain ⟨evs, ho, -, hcur⟩ := h.out
    rw [ho, List.mem_append, not_or] at hreply
    exact hcur (ih hreply.1) hreply.2

/-! ### What COUT sends -/

/-- The mark and the string of a DCLP message for clipboard `i` that is sent. -/
def dclpSent (i : Fin 2) : Event → Option (Nat × Bytes)
  | .send frame =>
    let body := frame.drop 4
    if pktOf body = some .dclp ∧ (dclpOf body).id = i then some ((dclpOf body).mark, body.drop 14) else none
  | _ => none

/-- The DCLP messages for clipboard `i` that are sent. -/
def sentMessages (i : Fin 2) (evs : List Event) : List (Nat × Bytes) := evs.filterMap (dclpSent i)

/-- The payloads of the chunks among them, one behind the other. -/
def sentChunks (i : Fin 2) (evs : List Event) : Bytes :=
  ((sentMessages i evs).filterMap fun m => if m.1 = synDataChunk then some m.2 else none).flatten

theorem sentMessages_append (evs evs' : List Event) :
    sentMessages i (evs ++ evs') = sentMessages i evs ++ sentMessages i evs' := List.filterMap_append

/-- The event of sending a message. -/
abbrev sendBody (v : Bytes) : Event := .send (frame v)

theorem dclpSent_dclpBody {j : Fin 2} {seq mark : Nat} {text : Bytes} (hmark : mark < 256)
    (htext : text.length < 2 ^ 32) :
    dclpSent i (sendBody (dclpBody j seq mark text)) = if j = i then some (mark, text) else none := by
  have hbody : (frame (dclpBody j seq mark text)).drop 4 = dclpBody j seq mark text := List.drop_left' (length_be32 _)
  have hstring : (dclpBody j seq mark text).drop 14 = text := rfl
  simp only [dclpSent, hbody, pktOf_dclpBody, dclpOf_dclpBody (Nat.lt_trans j.isLt (by decide)) hmark htext, true_and,
    hstring, Fin.val_inj]

/-- The events of sending a clipboard. -/
def transferEvents (j : Fin 2) (seq len : Nat) (cs : List Bytes) : List Event :=
  sendBody (dclpBody j seq synDataStart (decimal len)) ::
    (cs.map (fun c => sendBody (dclpBody j seq synDataChunk c)) ++ [sendBody (dclpBody j seq synDataEnd [])])

theorem sentMessages_transferEvents {j : Fin 2} (seq : Nat) {len : Nat} (hlen : len ≤ maxSent) {cs : List Bytes}
    (hcs : ∀ c ∈ cs, c.length ≤ maxChunk) : sentMessages i (transferEvents j seq len cs) =
      if j = i then (synDataStart, decimal len) :: (cs.map (fun c => (synDataChunk, c)) ++ [(synDataEnd, [])])
      else [] := by
  have hdec := length_decimal_le (Nat.lt_of_le_of_lt hlen maxSent_lt)
  have hmax : maxChunk = 995 := rfl
  have hstart : dclpSent i (sendBody (dclpBody j seq synDataStart (decimal len))) = _ :=
    dclpSent_dclpBody (by decide) (by omega)
  have hend : dclpSent i (sendBody (dclpBody j seq synDataEnd [])) = _ := dclpSent_dclpBody (by decide) (by decide)
  have hchunks : sentMessages i (cs.map fun c => sendBody (dclpBody j seq synDataChunk c)) =
      if j = i then cs.map fun c => (synDataChunk, c) else [] := by
    induction cs with
    | nil => split <;> rfl
    | cons c cs ih =>
      have hc := hcs c (by simp)
      have ih := ih fun c hc => hcs c (by simp [hc])
      have hhead : dclpSent i (sendBody (dclpBody j seq synDataChunk c)) = _ :=
        dclpSent_dclpBody (by decide) (by omega)
      rw [sentMessages, List.map_cons, List.filterMap_cons, hhead, ← sentMessages, ih]
      by_cases hj : j = i
      · simp only [if_pos hj, List.map_cons]
      · simp only [if_neg hj]
  rw [transferEvents, sentMessages, List.filterMap_cons, hstart, List.filterMap_append, List.filterMap_cons, hend,
    ← sentMessages, hchunks]
  by_cases hj : j = i
  · simp only [if_pos hj]
    rfl
  · simp only [if_neg hj]
    rfl

/-- The messages of a transfer of `text`. -/
def IsTransfer (text : Bytes) (msgs : List (Nat × Bytes)) : Prop :=
  ∃ cs : List Bytes, msgs = (synDataStart, decimal text.length) ::
    (cs.map (fun c => (synDataChunk, c)) ++ [(synDataEnd, [])]) ∧ cs.flatten = text

theorem IsTransfer.sentChunks {text : Bytes} {evs : List Event} (h : IsTransfer text (sentMessages i evs)) :
    sentChunks i evs = text := by
  obtain ⟨cs, hmsgs, hflat⟩ := h
  have hchunks : ((cs.map fun c => (synDataChunk, c)).filterMap fun m : Nat × Bytes =>
      if m.1 = synDataChunk then some m.2 else none) = cs := by
    rw [List.filterMap_map]
    exact List.filterMap_some
  rw [Waynergy.sentChunks, hmsgs, List.filterMap_cons, List.filterMap_append, hchunks]
  simp [synDataStart, synDataChunk, synDataEnd, hflat]

/-- Sending what is owed, with the cursor at its base: the text up to the position, if the slot is grabbed. -/
theorem sendGrabbed_sends (e : MsgEnv) (j : Fin 2) (hcur : s.ctx.replyCur = 4)
    (hfit : (s.ctx.clip j).grabbed = true → (s.ctx.clip j).pos ≤ (s.ctx.clip j).cap ∧ (s.ctx.clip j).pos ≤ maxSent) :
    wp (sendGrabbed e j)
      (fun _ s' => ∃ b evs, s' = { s with
          ctx := { s.ctx with replyBuffer := b, clip := Function.update s.ctx.clip j (s.ctx.clip j).released }
          out := s.out ++ evs } ∧
        ((s.ctx.clip j).grabbed = true →
          IsTransfer ((s.ctx.clip j).mem.take (s.ctx.clip j).pos) (sentMessages j evs)) ∧
        ∀ i, (j = i → (s.ctx.clip j).grabbed = false) → sentMessages i evs = [])
      (fun _ _ => False) s := by
  unfold sendGrabbed
  simp only [wp_bind, wp_get, wp_ite, wp_setClip, wp_pure]
  split
  · rename_i hg
    obtain ⟨hcap, hmax⟩ := hfit hg
    have hmod : (s.ctx.clip j).pos % 2 ^ 32 = (s.ctx.clip j).pos :=
      Nat.mod_eq_of_lt (Nat.lt_of_le_of_lt hmax maxSent_lt)
    rw [hmod]
    refine wp_mono (uSynergySendClipboard_spec e.sent j hcur hcap hmax) ?_ fun _ _ => id
    rintro _ s' ⟨b, cs, hcs, rfl⟩
    refine ⟨b, transferEvents j s.ctx.sequenceNumber (s.ctx.clip j).pos cs, ?_, fun _ => ?_, fun i hi => ?_⟩
    · simp [State.sent, State.setSlot, transferEvents, ClipSlot.released]
    · have htake : ((s.ctx.clip j).mem.take (s.ctx.clip j).pos).length = (s.ctx.clip j).pos :=
        (List.length_take ..).trans (Nat.min_eq_left hcap)
      refine ⟨cs, ?_, hcs.flatten⟩
      rw [sentMessages_transferEvents _ hmax hcs.short, if_pos rfl, htake]
    · rw [sentMessages_transferEvents _ hmax hcs.short, if_neg fun h => by rw [hi h] at hg; cases hg]
  · rename_i hg
    have hfree := eq_false_of_ne_true hg
    have hsame : (s.ctx.clip j).released = s.ctx.clip j := by rw [ClipSlot.released, ← hfree]
    refine ⟨s.ctx.replyBuffer, [], ?_, fun h => absurd h hg, fun _ _ => rfl⟩
    rw [hsame, Function.update_eq_self, List.append_nil]

/-- What leaving the screen sends of clipboard `i`. -/
def SendsOwed (s : State) (i : Fin 2) (evs : List Event) : Prop :=
  ((s.ctx.clip i).grabbed = true → IsTransfer ((s.ctx.clip i).mem.take (s.ctx.clip i).pos) (sentMessages i evs)) ∧
    ((s.ctx.clip i).grabbed = false → sentMessages i evs = [])

theorem sentMessages_cnop (i : Fin 2) : sentMessages i [sendBody (ascii ['C', 'N', 'O', 'P'])] = [] := by
  have hpkt : pktOf ((frame (ascii ['C', 'N', 'O', 'P'])).drop 4) = none := by decide
  simp [sentMessages, dclpSent, hpkt]

theorem processCout_sends (e : MsgEnv) (hcur : s.ctx.replyCur = 4) (hfit : ∀ j, (s.ctx.clip j).grabbed = true →
    (s.ctx.clip j).pos ≤ (s.ctx.clip j).cap ∧ (s.ctx.clip j).pos ≤ maxSent) :
    wp (processCout e) (fun _ s' => ∃ evs, s'.out = s.out ++ evs ∧ ∀ i, SendsOwed s i evs) (fun _ _ => False) s := by
  unfold processCout
  rw [wp_bind, wp_setCtx, wp_bind]
  refine wp_mono (sendGrabbed_sends e 0 hcur (hfit 0)) ?_ fun _ _ => id
  rintro _ s₁ ⟨b₁, evs₁, hs₁, hchunks₁, hnone₁⟩
  have hcur₁ : s₁.ctx.replyCur = 4 := by rw [hs₁]; exact hcur
  have hslot₁ : s₁.ctx.clip 1 = s.ctx.clip 1 := by rw [hs₁]; rfl
  rw [wp_bind]
  refine wp_mono (sendGrabbed_sends e 1 hcur₁ (by rw [hslot₁]; exact hfit 1)) ?_ fun _ _ => id
  rintro _ s₂ ⟨b₂, evs₂, hs₂, hchunks₂, hnone₂⟩
  have hcur₂ : s₂.ctx.replyCur = 4 := by rw [hs₂]; exact hcur₁
  rw [hslot₁] at hchunks₂ hnone₂
  simp only [wp_bind, wp_get, wp_emits, replyCnop, wp_pure]
  refine wp_mono (reply_sent (.sAddBin _) e.sent hcur₂ (by decide)) ?_ fun _ _ => id
  rintro _ s₃ ⟨-, b₃, hs₃⟩
  have hactive : ∀ i, sentMessages i (screenActiveCallback s₂.ctx false) = [] := fun i => by
    unfold screenActiveCallback
    split <;> rfl
  refine ⟨evs₁ ++ evs₂ ++ screenActiveCallback s₂.ctx false ++ [sendBody (ascii ['C', 'N', 'O', 'P'])], ?_,
    fun i => ?_⟩
  · rw [hs₃]
    show s₂.out ++ _ ++ _ = _
    rw [hs₂]
    show s₁.out ++ evs₂ ++ _ ++ _ = _
    rw [hs₁]
    simp only [List.append_assoc]
    rfl
  · have hmsgs : sentMessages i (evs₁ ++ evs₂ ++ screenActiveCallback s₂.ctx false ++
        [sendBody (ascii ['C', 'N', 'O', 'P'])]) = sentMessages i evs₁ ++ sentMessages i evs₂ := by
      rw [sentMessages_append, sentMessages_append, sentMessages_append, hactive, sentMessages_cnop, List.append_nil,
        List.append_nil]
    unfold SendsOwed
    rw [hmsgs]
    rcases (by omega : i = 0 ∨ i = 1) with rfl | rfl
    · rw [hnone₂ 0 (fun h => absurd h (by decide)), List.append_nil]
      exact ⟨hchunks₁, fun hg => hnone₁ 0 fun _ => hg⟩
    · rw [hnone₁ 1 (fun h => absurd h (by decide)), List.nil_append]
      exact ⟨hchunks₂, fun hg => hnone₂ 1 fun _ => hg⟩

/-! ### Leaving the screen in a run -/

theorem dclpAct_ne_leave (e : MsgEnv) (h : DclpHeader) (rest : SspBuf) : dclpAct e h rest ≠ .leave := by
  unfold dclpAct
  split_ifs <;> exact (nomatch ·)

/-- Only COUT is asked to send what is owed. -/
theorem sProcessMessage_of_leave {e : MsgEnv} {msg : SspBuf} (h : msgAct e msg = .leave) :
    sProcessMessage e msg = processCout e := by
  unfold msgAct at h
  unfold sProcessMessage parse
  split at h
  · rename_i hw
    split at h
    · rename_i pktId rest hrun
      split at h
      · rename_i p hp
        rw [hw]
        simp only [hrun, hp]
        unfold pktAct at h
        split at h
        · rfl
        · split at h
          · split at h <;> cases h
          · cases h
        · split at h
          · exact absurd h (dclpAct_ne_leave _ _ _)
          · cases h
        · cases h
      · cases h
    · cases h
  · cases h

theorem leave_sends {op : Op} (hact : op.act s = .leave) (hcur : s.ctx.replyCur = 4)
    (hfit : ∀ j, (s.ctx.clip j).grabbed = true →
      (s.ctx.clip j).pos ≤ (s.ctx.clip j).cap ∧ (s.ctx.clip j).pos ≤ maxSent) :
    wp op.exec (fun _ s' => ∃ evs, s'.out = s.out ++ evs ∧ ∀ i, SendsOwed s i evs) (fun _ _ => False) s := by
  cases op with
  | message e mem len =>
    rw [Op.act] at hact
    split at hact
    · rename_i hup
      unfold Op.exec whenConnected handMessage
      simp only [wp_bind, wp_get, if_pos hup, wp_emits, sProcessMessage_of_leave hact]
      refine wp_mono (processCout_sends e hcur hfit) ?_ fun _ _ => id
      rintro _ s₁ ⟨evs, ho, hsent⟩
      have hmsgs : ∀ i, sentMessages i ([.message ⟨mem, 0, len⟩ s.ctx.receiveOfs] ++
          (evs ++ [.returned s₁.ctx.connected])) = sentMessages i evs := fun i => by
        rw [sentMessages_append, sentMessages_append]
        exact List.append_nil _
      refine ⟨_, by rw [ho, List.append_assoc, List.append_assoc], fun i => ?_⟩
      have hown : SendsOwed s i evs := hsent i
      unfold SendsOwed at hown ⊢
      rw [hmsgs]
      exact hown
    · cases hact
  | _ => cases hact

/-- In every run: a grabbed slot holds the encoding of the last copy, and a COUT sends exactly that, if and only if it
is owed; afterwards nothing is owed. -/
theorem owed_sent {cfg : Config} (hrun : Run Op.exec (.init cfg) steps s) (hops : ∀ step ∈ steps, step.2.Short)
    (hreply : .replyError ∉ s.out) :
    (∀ i, (s.ctx.clip i).grabbed = true → (s.ctx.clip i).inStream = false ∧
      ∃ data, lastCopy i steps = some data ∧ (s.ctx.clip i).mem.take (s.ctx.clip i).pos = encodeText data) ∧
    ∀ op : Op, op.act s = .leave → wp op.exec (fun _ s' => ∃ evs, s'.out = s.out ++ evs ∧
      ∀ i, (Owed i steps → ∃ data, lastCopy i steps = some data ∧ sentChunks i evs = encodeText data) ∧
        (¬ Owed i steps → sentMessages i evs = []) ∧ ¬ Owed i (steps ++ [(s, op)])) (fun _ _ => False) s := by
  have hcopied : ∀ i, Copied i steps (s.ctx.clip i) := fun i => copied_of_run hrun hops
  refine ⟨fun i hg => ?_, fun op hact => ?_⟩
  · obtain ⟨data, hlast, hcopy⟩ := (hcopied i).copy hg
    exact ⟨hcopy.inStream, data, hlast, hcopy.front⟩
  · have hcur := cursor_of_run hrun hreply
    have hnext : ∀ i, ¬ Owed i (steps ++ [(s, op)]) := fun i => by
      rw [owed_snoc, hact]
      exact id
    refine wp_mono (leave_sends hact hcur fun i hg => ?_) ?_ fun _ _ => id
    · obtain ⟨data, -, hcopy⟩ := (hcopied i).copy hg
      exact hcopy.fits
    · rintro _ s' ⟨evs, ho, hsent⟩
      refine ⟨evs, ho, fun i => ⟨fun howed => ?_, fun hnot => ?_, hnext i⟩⟩
      · have hg := (hcopied i).owed.mpr howed
        obtain ⟨data, hlast, hcopy⟩ := (hcopied i).copy hg
        exact ⟨data, hlast, ((hsent i).1 hg).sentChunks.trans hcopy.front⟩
      · exact (hsent i).2 (eq_false_of_ne_true fun hg => hnot ((hcopied i).owed.mp hg))

/-- A copy of the text `hi`, and a COUT after it. -/
theorem owed_sent_hi : ∃ s₁ s₂ evs, (Op.updateClipBuf MsgEnv.smooth.heap true 0 (ascii ['h', 'i'])).exec.run
      (.opened .sample) = .ok () s₁ ∧
    (Op.message .smooth (ascii ['C', 'O', 'U', 'T']) 4).exec.run s₁ = .ok () s₂ ∧ s₂.out = s₁.out ++ evs ∧
    sentChunks 0 evs = encodeText (ascii ['h', 'i']) := by
  obtain ⟨s₁, hcopy, hup, hreply⟩ : ∃ s₁, (Op.updateClipBuf MsgEnv.smooth.heap true 0 (ascii ['h', 'i'])).exec.run
      (.opened .sample) = .ok () s₁ ∧ s₁.ctx.connected = true ∧ .replyError ∉ s₁.out := ⟨_, rfl, rfl, by decide⟩
  have hact : (Op.message .smooth (ascii ['C', 'O', 'U', 'T']) 4).act s₁ = .leave := by
    rw [Op.act, if_pos hup]
    rfl
  have hrun := (Run.single (run_connect_init .sample)).snoc hcopy
  have hnew : ¬ Suppressed 0 (ascii ['h', 'i']) (.opened .sample) := by
    intro h
    have hfalse : (uSynergyClipBufContains 0 (ascii ['h', 'i'])).run (.opened .sample) =
      .ok false (.opened .sample) := rfl
    rw [Suppressed, hfalse] at h
    cases h
  obtain ⟨_, s₂, hout, evs, ho, hsent⟩ :=
    exists_ok_of_wp ((owed_sent hrun (by simp [Op.Short, ascii]) hreply).2 _ hact)
  obtain ⟨data, hlast, hchunks⟩ := (hsent 0).1 (.inr ⟨rfl, hnew⟩)
  obtain rfl : ascii ['h', 'i'] = data := Option.some.inj hlast
  exact ⟨s₁, s₂, evs, hcopy, hout, ho, hchunks⟩

end Waynergy
