import Waynergy.ClipTransfer

/-!
# Whether what is delivered is what was received

`streamOf` is what the history says of the stream of a clipboard: the length that its last start message
announced, and the payload of the chunks accepted since. The handlers do not look whether a string could be
copied out of its message, whether a stream has come to its announced end, and do not close a stream whose formats
are not complete. In a run in which none of this happens (`Complete`) the buffer that an end message parses is the
payload that was received.
-/

namespace Waynergy
open Lib
variable {s t : State} {i : Fin 2} {c : ClipSlot} {steps : List (State × Op)}

/-! ### The history -/

def streamBy (i : Fin 2) (t : State) (str : Option (Nat × Bytes)) : ClipAct → Option (Nat × Bytes)
  | .start _ j _ copied => if j = i then some (sizeOfInt (atoi (copied.getD [])), []) else str
  | .chunk j len copied =>
    if j = i ∧ (t.ctx.clip j).Accepts len then str.map fun str => (str.1, str.2 ++ copied.getD []) else str
  | _ => str

/-- The length that the last start message for clipboard `i` announced, and the payload of the chunks that were
accepted since. -/
def streamOf (i : Fin 2) (steps : List (State × Op)) : Option (Nat × Bytes) :=
  steps.foldl (fun str step => streamBy i step.1 str (step.2.act step.1)) none

def openBy (i : Fin 2) (isOpen : Prop) : ClipAct → Prop
  | .start _ j _ _ => isOpen ∨ j = i
  | .finish j => isOpen ∧ j ≠ i
  | _ => isOpen

/-- There was a start message for clipboard `i`, and no end message since. -/
def Started (i : Fin 2) (steps : List (State × Op)) : Prop :=
  steps.foldl (fun isOpen step => openBy i isOpen (step.2.act step.1)) False

theorem streamOf_snoc (op : Op) : streamOf i (steps ++ [(t, op)]) = streamBy i t (streamOf i steps) (op.act t) := by
  simp [streamOf]

theorem started_snoc (op : Op) : Started i (steps ++ [(t, op)]) = openBy i (Started i steps) (op.act t) := by
  simp [Started]

/-- In the state of the step: the string of a start message and that of a chunk that is accepted are wholly there;
and an end message finds complete formats, and, if the callback is told of any, all that was announced. -/
def Complete (step : State × Op) : Prop :=
  match step.2.act step.1 with
  | .start _ _ _ copied => copied ≠ none
  | .chunk j len copied => (step.1.ctx.clip j).Accepts len → copied ≠ none
  | .finish j => (step.1.ctx.clip j).inStream = true → (readClipboard (step.1.ctx.clip j).contents).2 = true ∧
      (step.1.ctx.tells j ≠ [] → (step.1.ctx.clip j).pos = (step.1.ctx.clip j).posExpect)
  | _ => True

/-! ### The invariant -/

/-- While the stream of the slot is open, it holds what was received. -/
structure ClipSlot.HoldsStream (c : ClipSlot) (i : Fin 2) (steps : List (State × Op)) : Prop where
  started : Started i steps
  received : ∃ got, streamOf i steps = some (c.posExpect, got) ∧ c.pos = got.length ∧ c.mem.take c.pos = got

/-- A chunk that was copied is appended to what is in front of it. -/
theorem ClipSlot.Sized.take_chunked {bs : Bytes} (hc : c.Sized) (h : c.Accepts bs.length)
    (hlen : bs.length < 2 ^ 32) :
    (c.chunked (some bs) bs.length).mem.take (c.pos + bs.length) = c.mem.take c.pos ++ bs := by
  have ⟨hadd, hcap⟩ := hc.accepts h hlen
  have hpos := hc.pos h.1
  have hcap' : c.cap = c.mem.length := rfl
  unfold ClipSlot.chunked ClipSlot.store
  by_cases hnull : c.buf = none ∧ c.pos = 0
  · -- an empty block: then the chunk is empty, too
    have hmem : c.mem = [] := by rw [ClipSlot.mem, hnull.1]; rfl
    have hcap₀ : c.pos + bs.length ≤ 0 := by rw [hcap', hmem] at hcap; exact hcap
    have hbs : bs = [] := List.length_eq_zero_iff.mp (by omega)
    rw [if_pos hnull, hbs, List.append_nil]
    rfl
  · rw [if_neg hnull]
    exact take_overwrite (by omega)

theorem ClipStep.holdsStream {op : Op} {clip : Fin 2 → ClipSlot} {ts : List (Nat × Nat × Bytes)}
    (hstep : ClipStep t.ctx (op.act t) clip ts) (hs : ∀ i, (t.ctx.clip i).Sized) (hwhole : Complete (t, op))
    (h : (t.ctx.clip i).inStream = true → (t.ctx.clip i).HoldsStream i steps) (hstr : (clip i).inStream = true) :
    (clip i).HoldsStream i (steps ++ [(t, op)]) := by
  have after : ∀ c : ClipSlot, openBy i (Started i steps) (op.act t) →
      (∃ got, streamBy i t (streamOf i steps) (op.act t) = some (c.posExpect, got) ∧ c.pos = got.length ∧
        c.mem.take c.pos = got) → c.HoldsStream i (steps ++ [(t, op)]) :=
    fun c hopen hrec => ⟨by rw [started_snoc]; exact hopen, by rw [streamOf_snoc]; exact hrec⟩
  unfold Complete at hwhole
  dsimp only at hwhole
  generalize op.act t = act at hstep after hwhole
  cases hstep with
  | none | duplicate => exact after _ (h hstr).started (h hstr).received
  | @idle j hidle =>
    have hj : j ≠ i := by
      rintro rfl
      exact absurd (hidle.symm.trans hstr) Bool.false_ne_true
    exact after _ ⟨(h hstr).started, hj⟩ (h hstr).received
  | drop hnot =>
    obtain ⟨hopen, got, hgot⟩ := h hstr
    exact after _ hopen ⟨got, (if_neg fun h => hnot h.2).trans hgot.1, hgot.2⟩
  | release j =>
    by_cases hj : j = i
    · subst hj
      rw [Function.update_self] at hstr ⊢
      exact after _ (h hstr).started (h hstr).received
    · rw [Function.update_of_ne (Ne.symm hj)] at hstr ⊢
      exact after _ (h hstr).started (h hstr).received
  | leave => exact after _ (h hstr).started (h hstr).received
  | @start e j len copied buf hroom =>
    by_cases hj : j = i
    · subst hj
      rw [Function.update_self]
      refine after _ (.inr rfl) ⟨[], ?_, rfl, rfl⟩
      obtain ⟨bs, rfl⟩ := Option.ne_none_iff_exists'.mp hwhole
      exact if_pos rfl
    · rw [Function.update_of_ne (Ne.symm hj)] at hstr ⊢
      obtain ⟨hopen, got, hgot⟩ := h hstr
      exact after _ (.inl hopen) ⟨got, (if_neg hj).trans hgot.1, hgot.2⟩
  | @accept j len copied haccept hlen hcopied =>
    by_cases hj : j = i
    · subst hj
      obtain ⟨bs, rfl⟩ := Option.ne_none_iff_exists'.mp (hwhole haccept)
      obtain rfl := hcopied bs rfl
      obtain ⟨hopen, got, hgot, hpos, hfront⟩ := h haccept.1
      have hadd := ((hs j).accepts haccept hlen).1
      have htake := (hs j).take_chunked haccept hlen
      rw [Function.update_self]
      refine after _ hopen ⟨got ++ bs, ?_, ?_, ?_⟩
      · rw [streamBy, if_pos ⟨rfl, haccept⟩, hgot]
        rfl
      · show sizeAdd _ _ = _
        rw [hadd, hpos, List.length_append]
      · show ((t.ctx.clip j).chunked (some bs) bs.length).mem.take (sizeAdd _ _) = _
        rw [hadd, htake, hfront]
    · rw [Function.update_of_ne (Ne.symm hj)] at hstr ⊢
      obtain ⟨hopen, got, hgot⟩ := h hstr
      exact after _ hopen ⟨got, (if_neg fun h => hj h.1).trans hgot.1, hgot.2⟩
  | @finish j hin =>
    by_cases hj : j = i
    · subst hj
      rw [Function.update_self, ClipSlot.ended, if_pos (hwhole hin).1] at hstr
      cases hstr
    · rw [Function.update_of_ne (Ne.symm hj)] at hstr ⊢
      exact after _ ⟨(h hstr).started, hj⟩ (h hstr).received
  | @update hp j data buf hnew hroom hfits =>
    by_cases hj : j = i
    · subst hj
      rw [Function.update_self] at hstr
      cases hstr
    · rw [Function.update_of_ne (Ne.symm hj)] at hstr ⊢
      exact after _ (h hstr).started (h hstr).received

theorem holdsStream_of_run {cfg : Config} (hrun : Run Op.exec (.init cfg) steps s)
    (hwhole : ∀ step ∈ steps, Complete step)
    (hstr : (s.ctx.clip i).inStream = true) : (s.ctx.clip i).HoldsStream i steps := by
  induction hrun with
  | nil => cases hstr
  | @snoc steps t s op hrun hop ih =>
    have hs := sized_of_run hrun
    obtain ⟨clip, ts, hstep, h⟩ := wp_ok (clip_spec hs op) hop
    rw [h.clip] at hstr ⊢
    exact hstep.holdsStream hs (hwhole (t, op) (by simp)) (ih fun step hm => hwhole step (by simp [hm])) hstr

/-! ### The messages of a stream -/

/-- A local copy of the text `hi`, a start message that announces the length of its encoding, the chunk with it, and an
end message. -/
def copyOp (i : Fin 2) : Op := .updateClipBuf MsgEnv.smooth.heap true i (ascii ['h', 'i'])

def announceOp : Op := .message .smooth (dclpBody 0 0 synDataStart (ascii ['1', '4'])) 16

def chunkOp : Op := .message .smooth (dclpBody 0 0 synDataChunk (encodeClipboard [(0, ascii ['h', 'i'])])) 28

def endOp : Op := .message .smooth (dclpBody 0 0 synDataEnd []) 14

theorem act_announceOp (hup : s.ctx.connected = true) :
    announceOp.act s = .start .smooth 0 2 (some (ascii ['1', '4'])) := by
  have h : Carries (.ofBytes (dclpBody 0 0 synDataStart (ascii ['1', '4'])))
    (dclpBody (0 : Fin 2) 0 synDataStart (ascii ['1', '4'])) := .ofBytes _
  rw [announceOp, Op.act, if_pos hup]
  exact msgAct_dclpBody h (by decide) (by decide) .smooth

theorem act_chunkOp (hup : s.ctx.connected = true) :
    chunkOp.act s = .chunk 0 14 (some (encodeClipboard [(0, ascii ['h', 'i'])])) := by
  rw [chunkOp, Op.act, if_pos hup]
  exact msgAct_dclpBody (i := 0) (.ofBytes _) (by decide) (by decide) .smooth

theorem act_endOp (hup : s.ctx.connected = true) : endOp.act s = .finish 0 := by
  rw [endOp, Op.act, if_pos hup]
  exact msgAct_dclpBody (i := 0) (.ofBytes _) (by decide) (by decide) .smooth

/-- An end message delivers what the block holds, whether it was received or not. -/
theorem endOp_tells (hup : s.ctx.connected = true) (hstr : (s.ctx.clip 0).inStream = true)
    (hcap : (s.ctx.clip 0).posExpect ≤ (s.ctx.clip 0).cap) (hlt : (s.ctx.clip 0).posExpect < 2 ^ 63) :
    wp endOp.exec (fun _ s' => ∃ evs, s'.out = s.out ++ evs ∧ told evs = s.ctx.tells 0) (fun _ _ => False) s := by
  have hcarries : Carries (.ofBytes (dclpBody 0 0 synDataEnd [])) (dclpBody (0 : Fin 2) 0 synDataEnd []) := .ofBytes _
  unfold endOp Op.exec whenConnected handMessage
  simp only [wp_bind, wp_get, if_pos hup, wp_emits]
  refine (wp_dclp hcarries (by decide) (by decide) MsgEnv.smooth).mpr ?_
  rw [if_neg (by decide), if_neg (by decide), if_pos rfl, if_pos hstr]
  refine wp_mono (dclpEnd_becomes .smooth hcap hlt) (fun _ s₁ h => ?_) fun _ _ => id
  obtain ⟨evs, ho, htold, -⟩ := h.out
  refine ⟨[.message ⟨dclpBody 0 0 synDataEnd [], 0, 14⟩ s.ctx.receiveOfs] ++ (evs ++ [.returned s₁.ctx.connected]),
    ?_, ?_⟩
  · rw [ho, List.append_assoc, List.append_assoc]
  · rw [told_append, told_append, htold]
    exact List.append_nil _

/-! ### What is delivered -/

/-- Every format read lies in the bytes that are read. -/
theorem mem_readFormats {n : Nat} {bs : Bytes} {entry : Nat × Bytes} (h : entry ∈ (readFormats n bs).1) :
    ∃ ofs, ofs + entry.2.length ≤ bs.length ∧ slice bs ofs entry.2.length = entry.2 := by
  induction n generalizing bs with
  | zero => cases h
  | succ n ih =>
    unfold readFormats at h
    split at h
    · cases h
    · rename_i hle
      rcases List.mem_cons.mp h with rfl | h
      · have hlen : (slice bs 8 (wordAt bs 4)).length = wordAt bs 4 := length_slice (by omega)
        exact ⟨8, by rw [hlen]; omega, by rw [hlen]⟩
      · obtain ⟨ofs, hofs, hslice⟩ := ih h
        rw [List.length_drop] at hofs
        rw [slice_drop] at hslice
        exact ⟨_, by omega, hslice⟩

theorem mem_readClipboard {bs : Bytes} {entry : Nat × Bytes} (h : entry ∈ (readClipboard bs).1) :
    ∃ ofs, ofs + entry.2.length ≤ bs.length ∧ slice bs ofs entry.2.length = entry.2 := by
  unfold readClipboard at h
  split at h
  · cases h
  · obtain ⟨ofs, hofs, hslice⟩ := mem_readFormats h
    rw [List.length_drop] at hofs
    rw [slice_drop] at hslice
    exact ⟨_, by omega, hslice⟩

/-- The operation `op` from `s` to `s'` tells the callback of nothing but parts of the payload received by the stream
that it ends, which is of the announced length and all that it parses; and an end message leaves the stream closed. -/
def DeliversReceived (steps : List (State × Op)) (s : State) (op : Op) (s' : State) : Prop :=
  ∃ evs, s'.out = s.out ++ evs ∧
    (∀ m ∈ told evs, ∃ i got, op.act s = .finish i ∧ m.1 = i ∧ streamOf i steps = some (got.length, got) ∧
      (s.ctx.clip i).contents = got ∧ ∃ ofs, ofs + m.2.2.length ≤ got.length ∧ slice got ofs m.2.2.length = m.2.2) ∧
    ∀ i, op.act s = .finish i → (s'.ctx.clip i).inStream = false

/-- As long as strings are whole and end messages come at the announced end of complete formats, what is delivered is
what was received, and a chunk is accepted only after a start message and before the end message. -/
theorem delivers_received {cfg : Config} (hrun : Run Op.exec (.init cfg) steps s)
    (hwhole : ∀ step ∈ steps, Complete step) :
    (∀ i len, (s.ctx.clip i).Accepts len → Started i steps) ∧
    ∀ op s', Complete (s, op) → op.exec.run s = .ok () s' → DeliversReceived steps s op s' := by
  have hs := sized_of_run hrun
  refine ⟨fun i len h => (holdsStream_of_run hrun hwhole h.1).started, fun op s' hw hop => ?_⟩
  obtain ⟨clip, ts, hstep, h⟩ := wp_ok (clip_spec hs op) hop
  obtain ⟨evs, ho, htold, -⟩ := h.out
  unfold Complete at hw
  dsimp only at hw
  refine ⟨evs, ho, fun m hm => ?_, fun i hact => ?_⟩
  · rw [htold] at hm
    generalize hact : op.act s = act at hstep hw
    cases hstep with
    | @finish i hin =>
      have ⟨hdone, hend⟩ := hw hin
      have hpos := hend (List.ne_nil_of_mem hm)
      obtain ⟨-, got, hgot, hlen, hfront⟩ := holdsStream_of_run hrun hwhole hin
      have hcontents : (s.ctx.clip i).contents = got := by rw [ClipSlot.contents, ← hpos, hfront]
      unfold Context.tells at hm
      split at hm
      · obtain ⟨entry, hentry, rfl⟩ := List.mem_map.mp hm
        rw [hcontents] at hentry
        exact ⟨i, got, rfl, rfl, by rw [hgot, ← hlen, hpos], hcontents, mem_readClipboard hentry⟩
      · cases hm
    | _ => cases hm
  · rw [h.clip]
    rw [hact] at hstep hw
    cases hstep with
    | finish hin =>
      rw [Function.update_self, ClipSlot.ended, if_pos (hw hin).1]
    | idle hidle => exact hidle

/-- The text comes in one chunk of the announced length, and then the end message delivers it and closes the stream. -/
theorem delivers_received_hi : ∃ steps s s' evs, Run Op.exec (.init .sample) steps s ∧
    endOp.exec.run s = .ok () s' ∧ DeliversReceived steps s endOp s' ∧
    s'.out = s.out ++ evs ∧ told evs = [(0, 0, ascii ['h', 'i'])] ∧ (s'.ctx.clip 0).inStream = false := by
  obtain ⟨s₁, h₁, hup₁, s₂, h₂, hup₂, hstr, hexpect, hpos, hcap, hread, htells⟩ :
    ∃ s₁, announceOp.exec.run (.opened .sample) = .ok () s₁ ∧ s₁.ctx.connected = true ∧
    ∃ s₂, chunkOp.exec.run s₁ = .ok () s₂ ∧ s₂.ctx.connected = true ∧
    (s₂.ctx.clip 0).inStream = true ∧ (s₂.ctx.clip 0).posExpect = 14 ∧ (s₂.ctx.clip 0).pos = 14 ∧
    (s₂.ctx.clip 0).cap = 14 ∧ (readClipboard (s₂.ctx.clip 0).contents).2 = true ∧
    s₂.ctx.tells 0 = [(0, 0, ascii ['h', 'i'])] :=
      ⟨_, rfl, rfl, _, rfl, rfl, rfl, by decide, by decide, by decide, by decide, by decide⟩
  obtain ⟨_, s₃, h₃, evs, hout, htold⟩ := exists_ok_of_wp
    (endOp_tells hup₂ hstr (by rw [hexpect, hcap]) (by rw [hexpect]; decide))
  have hrun := ((Run.single (run_connect_init .sample)).snoc h₁).snoc h₂
  have hwhole : ∀ step ∈ [(.init .sample, .connect ⟨some [.socket 3 true], 0⟩)] ++ [(.opened .sample, announceOp)] ++
      [(s₁, chunkOp)], Complete step := by
    rintro step hm
    simp only [List.append_assoc, List.mem_append, List.mem_singleton] at hm
    rcases hm with rfl | rfl | rfl
    · simp [Complete, Op.act]
    · simp [Complete, act_announceOp (s := .opened .sample) rfl]
    · simp [Complete, act_chunkOp hup₁]
  have hend : Complete (s₂, endOp) := by
    simp only [Complete, act_endOp hup₂]
    exact fun _ => ⟨hread, fun _ => hpos.trans hexpect.symm⟩
  have hdelivers := (delivers_received hrun hwhole).2 endOp s₃ hend h₃
  obtain ⟨-, -, -, hclosed⟩ := hdelivers
  exact ⟨_, s₂, s₃, evs, hrun, h₃, (delivers_received hrun hwhole).2 endOp s₃ hend h₃, hout, htold.trans htells,
    hclosed 0 (act_endOp hup₂)⟩

/-! ### A copy that comes back -/

/-- The early end message delivers the local copy, of which nothing was received. -/
theorem copy_comes_back : ¬ ∀ (cfg : Config) (steps : List (State × Op)) (s : State) (op : Op) (s' : State),
    Run Op.exec (.init cfg) steps s → op.exec.run s = .ok () s' → DeliversReceived steps s op s' := by
  intro hall
  obtain ⟨s₁, h₁, hup₁, s₂, h₂, hup₂, hstr, hexpect, hcap, htells⟩ :
    ∃ s₁, (copyOp 0).exec.run (.opened .sample) = .ok () s₁ ∧ s₁.ctx.connected = true ∧
    ∃ s₂, announceOp.exec.run s₁ = .ok () s₂ ∧ s₂.ctx.connected = true ∧
    (s₂.ctx.clip 0).inStream = true ∧ (s₂.ctx.clip 0).posExpect = 14 ∧ (s₂.ctx.clip 0).cap = 14 ∧
    s₂.ctx.tells 0 = [(0, 0, ascii ['h', 'i'])] :=
      ⟨_, rfl, rfl, _, rfl, rfl, rfl, by decide, by decide, by decide⟩
  obtain ⟨_, s₃, h₃, evs', ho', htold⟩ := exists_ok_of_wp
    (endOp_tells hup₂ hstr (by rw [hexpect, hcap]) (by rw [hexpect]; decide))
  have hrun := ((Run.single (run_connect_init .sample)).snoc h₁).snoc h₂
  obtain ⟨evs, ho, hparts, -⟩ := hall _ _ _ _ _ hrun h₃
  rw [ho, List.append_cancel_left_eq] at ho'
  rw [← ho', htells] at htold
  obtain ⟨i, got, -, hi, hgot, -⟩ := hparts (0, 0, ascii ['h', 'i']) (by rw [htold]; simp)
  obtain rfl : i = 0 := Fin.ext hi.symm
  rw [streamOf_snoc, act_announceOp hup₁, streamBy, if_pos rfl] at hgot
  obtain ⟨hlen, rfl⟩ := Prod.mk.inj (Option.some.inj hgot)
  exact absurd hlen (by decide)

end Waynergy
