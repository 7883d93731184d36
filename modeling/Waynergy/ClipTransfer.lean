import Waynergy.ClipBounds
import Mathlib.Data.List.Forall2

/-!
# A whole clipboard transfer at the receiver

`Transfer i p bodies`: the messages with the given bodies are a start message, chunks that together carry the
payload `p` of the announced length, and an end message. Whatever the slot was before, they leave the payload at
the front of the block, and the callback is told the formats of the payload.
-/

namespace Waynergy
open Lib
variable {s s' : State} {msg : SspBuf} {i : Fin 2}

/-! ### Encoded clipboards -/

def encodeEntry (entry : UInt32 × Bytes) : Bytes := be32 entry.1.toNat ++ (be32 entry.2.length ++ entry.2)

/-- The number of formats, and for each of them the format, the size and the data. -/
def encodeClipboard (entries : List (UInt32 × Bytes)) : Bytes :=
  be32 entries.length ++ (entries.map encodeEntry).flatten

/-- An entry as the callback is told of it. -/
def readEntry (entry : UInt32 × Bytes) : Nat × Bytes := (entry.1.toNat, entry.2)

theorem length_encodeEntry (entry : UInt32 × Bytes) : (encodeEntry entry).length = 8 + entry.2.length := by
  simp [encodeEntry]; omega

theorem wordAt_append {bs more : Bytes} {p : Nat} (h : p + 4 ≤ bs.length) : wordAt (bs ++ more) p = wordAt bs p := by
  rw [wordAt, wordAt, slice, slice, List.drop_append_of_le_length (by omega),
    List.take_append_of_le_length (by rw [List.length_drop]; omega)]

theorem readFormats_encode {entries : List (UInt32 × Bytes)} (h : ∀ entry ∈ entries, entry.2.length < 2 ^ 32) :
    readFormats entries.length (entries.map encodeEntry).flatten = (entries.map readEntry, true) := by
  induction entries with
  | nil => rfl
  | cons entry entries ih =>
    have hlen := h entry (by simp)
    have ih := ih fun entry he => h entry (by simp [he])
    generalize hrest : (entries.map encodeEntry).flatten = rest at ih
    have hbs : ((entry :: entries).map encodeEntry).flatten = encodeEntry entry ++ rest := by
      rw [List.map_cons, List.flatten_cons, hrest]
    have hformat : wordAt (encodeEntry entry ++ rest) 0 = entry.1.toNat := by
      have : wordAt (encodeEntry entry ++ rest) 0 = beNat (be32 entry.1.toNat) := rfl
      rw [this, beNat_be32 entry.1.toNat_lt]
    have hsize : wordAt (encodeEntry entry ++ rest) 4 = entry.2.length := by
      have : wordAt (encodeEntry entry ++ rest) 4 = beNat (be32 entry.2.length) := rfl
      rw [this, beNat_be32 hlen]
    have hdata : slice (encodeEntry entry ++ rest) 8 entry.2.length = entry.2 := by
      have : slice (encodeEntry entry ++ rest) 8 entry.2.length = (entry.2 ++ rest).take entry.2.length := rfl
      rw [this, List.take_left]
    have hdrop : (encodeEntry entry ++ rest).drop (8 + entry.2.length) = rest :=
      List.drop_left' (length_encodeEntry entry)
    rw [List.length_cons, hbs, readFormats, hformat, hsize, hdata, hdrop, ih, if_neg]
    · rfl
    · rw [List.length_append, length_encodeEntry]; omega

theorem length_le_flatten {α : Type} {ls : List (List α)} {l : List α} (h : l ∈ ls) : l.length ≤ ls.flatten.length :=
  (List.sublist_flatten_of_mem h).length_le

theorem length_encodeClipboard (entries : List (UInt32 × Bytes)) :
    (encodeClipboard entries).length = 4 + (entries.map encodeEntry).flatten.length := by
  simp [encodeClipboard]

theorem le_length_encodeClipboard (entries : List (UInt32 × Bytes)) :
    4 + 8 * entries.length ≤ (encodeClipboard entries).length := by
  rw [length_encodeClipboard]
  induction entries with
  | nil => exact Nat.le_refl _
  | cons entry entries ih =>
    rw [List.map_cons, List.flatten_cons, List.length_append, length_encodeEntry, List.length_cons]
    omega

theorem length_entry_le {entries : List (UInt32 × Bytes)} {entry : UInt32 × Bytes} (h : entry ∈ entries) :
    12 + entry.2.length ≤ (encodeClipboard entries).length := by
  have := length_encodeEntry entry ▸ length_le_flatten (List.mem_map_of_mem (f := encodeEntry) h)
  rw [length_encodeClipboard]
  omega

theorem count_encodeClipboard {entries : List (UInt32 × Bytes)} (h : (encodeClipboard entries).length < 2 ^ 32) :
    wordAt (encodeClipboard entries) 0 = entries.length := by
  have hcount := le_length_encodeClipboard entries
  have : wordAt (encodeClipboard entries) 0 = beNat (be32 entries.length) := rfl
  rw [this, beNat_be32 (by omega)]

theorem readClipboard_encode {entries : List (UInt32 × Bytes)} (h : (encodeClipboard entries).length < 2 ^ 32) :
    readClipboard (encodeClipboard entries) = (entries.map readEntry, true) := by
  have hlen := le_length_encodeClipboard entries
  have hdrop : (encodeClipboard entries).drop 4 = (entries.map encodeEntry).flatten := rfl
  rw [readClipboard, if_neg (by omega), count_encodeClipboard h, hdrop, readFormats_encode fun entry he => by
    have := length_entry_le he
    omega]

/-! ### One message -/

/-- A DCLP message with a clipboard index in range gets to the handler of its mark. -/
theorem wp_dclp {seq mark : Nat} {text : Bytes} (h : Carries msg (dclpBody i seq mark text))
    (hmark : mark < 256) (htext : text.length < 2 ^ 32) (e : MsgEnv) {Q : Unit → State → Prop}
    {E : Stop → State → Prop} : wp (sProcessMessage e msg) Q E s ↔
      wp (if mark = synDataStart then dclpStart e i text.length (msg.at 14)
        else if mark = synDataChunk then
          if (s.ctx.clip i).inStream then dclpChunk e i text.length (msg.at 14) else replyCnop e
        else if mark = synDataEnd then if (s.ctx.clip i).inStream then dclpEnd e i else replyCnop e
        else replyCnop e) Q E s := by
  have hid : (i : Nat) < 256 := Nat.lt_trans i.isLt (by decide)
  rw [h.processPkt (pktOf_dclpBody _ _ _ _), processPkt, processDclp, wp_parse, h.wp_dclpHeader, length_dclpBody,
    if_pos (by omega), dclpOf_dclpBody hid hmark htext]
  simp only [wp_ite, wp_bind, wp_clipIndex, dif_pos i.isLt, wp_get]

theorem payload_dclpBody {seq mark : Nat} {text : Bytes} (h : Carries msg (dclpBody i seq mark text))
    (htext : text.length < 2 ^ 32) : payload (msg.at 14) text.length = some text := by
  rw [h.payload (by omega), length_dclpBody, if_pos (Nat.le_refl _), slice_dclpBody]

/-- What a DCLP message with a clipboard index in range asks. -/
theorem msgAct_dclpBody {seq mark : Nat} {text : Bytes} (h : Carries msg (dclpBody i seq mark text))
    (hmark : mark < 256)
    (htext : text.length < 2 ^ 32) (e : MsgEnv) : msgAct e msg =
      if mark = synDataStart then .start e i text.length (some text)
      else if mark = synDataChunk then .chunk i text.length (some text)
      else if mark = synDataEnd then .finish i else .none := by
  have hid : (i : Nat) < 256 := Nat.lt_trans i.isLt (by decide)
  have hpkt := pktOf_dclpBody i seq mark text
  have hw : sIsWelcome msg = .ok none := by
    rw [sIsWelcome, h.findWelcome (by decide)]
    exact congrArg (Except.ok ∘ Option.map _) (welcomeOf_of_pktOf hpkt)
  have hid4 : (sspMemMove 4).run msg = .ok ((dclpBody i seq mark text).take 4) (msg.at 4) := by
    have hrun := h.sspTake_run (p := 0) (n := 4) (by decide)
    rwa [← h.eq_at, length_dclpBody, if_pos (by omega)] at hrun
  obtain ⟨_, b, hrun, rfl, rfl⟩ : ∃ hd b, dclpHeader.run (msg.at 4) = .ok hd b ∧
      hd = dclpOf (dclpBody i seq mark text) ∧ b = msg.at 14 := by
    refine exists_ok_of_wp ((h.wp_dclpHeader (E := fun _ => False)).mpr ?_)
    rw [if_pos (by rw [length_dclpBody]; omega)]
    exact ⟨rfl, rfl⟩
  have hofId : Pkt.ofId ((dclpBody i seq mark text).take 4) = some .dclp := hpkt
  unfold msgAct
  simp only [hw, hid4, hofId, pktAct, hrun, dclpOf_dclpBody hid hmark htext, dclpAct, dif_pos i.isLt,
    payload_dclpBody h htext]

/-- The allocator grants `n` bytes. -/
def MsgEnv.Grants (e : MsgEnv) (n : Nat) : Prop := e.heap.ok n = true

theorem start_run {e : MsgEnv} {seq : Nat} {text p : Bytes} (h : Carries msg (dclpBody i seq synDataStart text))
    (htext : text.length + 1 < 2 ^ 32) (hp : atoi text = p.length) (hp' : p.length < 2 ^ 31)
    (hgrants : e.Grants p.length) : wp (sProcessMessage e msg)
      (fun _ s' => ∃ buf, (s.ctx.clip i).Room e.heap p.length buf ∧
        Becomes (Function.update s.ctx.clip i ((s.ctx.clip i).started buf p.length)) [] s s')
      (fun _ _ => False) s := by
  have hannounced : announced e text.length (payload (msg.at 14) text.length) = p.length := by
    rw [payload_dclpBody h (by omega), announced, Option.getD_some, hp, sizeOfInt]
    omega
  rw [wp_dclp h (by decide) (by omega), if_pos rfl]
  refine wp_mono (dclpStart_spec e i text.length (msg.at 14) s) ?_ ?_
  · rintro _ s' ⟨buf, hroom, hsends⟩
    rw [hannounced] at hroom hsends
    exact ⟨buf, hroom, hsends.becomes⟩
  · rintro stop _ (⟨-, hlong⟩ | ⟨-, hout⟩ | ⟨-, hnone⟩)
    · omega
    · exact h.not_outside (by omega) hout
    · rw [hannounced, xrealloc, if_pos ⟨by omega, hgrants⟩] at hnone
      cases hnone

/-- The slot while its stream is open: of `L` bytes `got` arrived, and behind them is what `block` holds there. -/
def ClipSlot.receiving (c : ClipSlot) (block : Bytes) (L : Nat) (got : Bytes) : ClipSlot :=
  ⟨some (got ++ block.drop got.length), c.len, got.length, L, true, false⟩

/-- The slot after a transfer of `p`, where `rest` is what the block holds behind it. -/
def ClipSlot.received (c : ClipSlot) (p rest : Bytes) : ClipSlot :=
  ⟨some (p ++ rest), c.len, p.length, p.length, false, false⟩

section
variable {c : ClipSlot} {block got p : Bytes} {L : Nat}

theorem started_eq (c : ClipSlot) (block : Bytes) (L : Nat) : c.started (some block) L = c.receiving block L [] := rfl

theorem chunked_receiving {text : Bytes} (hlt : got.length + text.length < 2 ^ 64) :
    (c.receiving block L got).chunked (some text) text.length = c.receiving block L (got ++ text) := by
  have hadd : sizeAdd got.length text.length = (got ++ text).length := by
    rw [sizeAdd_eq (by omega), List.length_append]
  have hstore : overwrite (got ++ block.drop got.length) got.length text =
      got ++ text ++ block.drop (got ++ text).length := by
    rw [overwrite, List.take_left, List.drop_append, List.drop_drop, List.length_append,
      List.drop_of_length_le (by omega), List.nil_append, Nat.add_sub_cancel_left]
  have hbuf : (c.receiving block L got).store (some text) =
      some (got ++ text ++ block.drop (got ++ text).length) := by
    rw [ClipSlot.store, if_neg (by rintro ⟨h, -⟩; cases h)]
    exact congrArg some hstore
  unfold ClipSlot.chunked
  rw [hbuf]
  show ClipSlot.mk _ _ (sizeAdd got.length text.length) _ _ _ = _
  rw [hadd]
  rfl

theorem contents_receiving : (c.receiving block p.length p).contents = p := List.take_left

/-- The block with room for `L` bytes, and what it holds behind them. -/
theorem ClipSlot.Room.exists_block {h : Heap} {buf : Option Bytes} (hroom : c.Room h L buf) (hlen : c.len ≤ c.cap)
    (hL : 0 < L) : ∃ block, buf = some block ∧ L ≤ block.length ∧
      block.drop L = if c.len < L then [] else c.mem.drop L := by
  unfold ClipSlot.Room at hroom
  split at hroom
  · rename_i hgt
    obtain ⟨b, hb, rfl⟩ := hroom
    have hb := (length_xrealloc hb).1
    exact ⟨b, rfl, Nat.le_of_eq hb.symm, by rw [if_pos hgt, List.drop_of_length_le (Nat.le_of_eq hb)]⟩
  · rename_i hle
    cases hbuf : c.buf with
    | none =>
      have : c.cap = 0 := by rw [ClipSlot.cap, ClipSlot.mem, hbuf]; rfl
      omega
    | some b =>
      have hmem : c.mem = b := by rw [ClipSlot.mem, hbuf]; rfl
      refine ⟨b, hroom.trans hbuf, ?_, by rw [if_neg hle, hmem]⟩
      rw [ClipSlot.cap, hmem] at hlen
      omega

end

theorem chunk_run {e : MsgEnv} {seq L : Nat} {c : ClipSlot} {text got block : Bytes}
    (h : Carries msg (dclpBody i seq synDataChunk text)) (hc : s.ctx.clip i = c.receiving block L got)
    (hin : got.length + text.length ≤ L) (hL : L ≤ block.length) (hlt : L < 2 ^ 31)
    (htext : text.length < 2 ^ 32) :
    wp (sProcessMessage e msg)
      (fun _ s' => Becomes (Function.update s.ctx.clip i (c.receiving block L (got ++ text))) [] s s')
      (fun _ _ => False) s := by
  have hadd : sizeAdd got.length text.length = got.length + text.length := sizeAdd_eq (by omega)
  have hcap : (s.ctx.clip i).cap = block.length := by
    rw [hc]
    show (got ++ block.drop got.length).length = _
    rw [List.length_append, List.length_drop]
    omega
  rw [wp_dclp h (by decide) htext, if_neg (by decide), if_pos rfl, if_pos (by rw [hc]; rfl)]
  refine wp_mono (dclpChunk_spec e i text.length (msg.at 14) s) ?_ ?_
  · rw [payload_dclpBody h htext]
    rintro _ s' (⟨hlong, -⟩ | ⟨-, hsends⟩)
    · rw [hc] at hlong
      exact absurd (show L < sizeAdd got.length text.length from hlong) (by omega)
    · have hnext : (c.receiving block L got).chunked (some text) text.length = c.receiving block L (got ++ text) :=
        chunked_receiving (by omega)
      rw [← hnext, ← hc]
      exact hsends.becomes
  · rintro stop _ (⟨-, hout⟩ | ⟨-, hout, -⟩)
    · exact h.not_outside (by omega) hout
    · rw [hcap, hc] at hout
      exact absurd (show block.length < got.length + text.length from hout) (by omega)

/-- What the callback is told of the entries. -/
def entriesTold (callback : Bool) (i : Fin 2) (entries : List (UInt32 × Bytes)) : List (Nat × Nat × Bytes) :=
  if callback then entries.map fun entry => (i.val, readEntry entry) else []

/-- An end message after all of an encoded clipboard passes its entries on and closes the stream. -/
theorem end_run {e : MsgEnv} {seq : Nat} {c : ClipSlot} {tail block : Bytes} {entries : List (UInt32 × Bytes)}
    (h : Carries msg (dclpBody i seq synDataEnd tail)) (htail : tail.length < 2 ^ 32)
    (hc : s.ctx.clip i = c.receiving block (encodeClipboard entries).length (encodeClipboard entries))
    (hL : (encodeClipboard entries).length < 2 ^ 31) : wp (sProcessMessage e msg)
      (fun _ s' => Becomes (Function.update s.ctx.clip i
        (c.received (encodeClipboard entries) (block.drop (encodeClipboard entries).length)))
        (entriesTold s.ctx.callbacks.clipboard i entries) s s')
      (fun _ _ => False) s := by
  have hcap : (s.ctx.clip i).posExpect ≤ (s.ctx.clip i).cap := by
    rw [hc]
    show _ ≤ (_ ++ block.drop _).length
    rw [List.length_append]
    exact Nat.le_add_right _ _
  have hread : readClipboard (s.ctx.clip i).contents = (entries.map readEntry, true) := by
    rw [hc, contents_receiving, readClipboard_encode (by omega)]
  rw [wp_dclp h (by decide) htail, if_neg (by decide), if_neg (by decide), if_pos rfl, if_pos (by rw [hc]; rfl)]
  refine wp_mono (dclpEnd_becomes e hcap (by rw [hc]; exact Nat.lt_trans hL (by decide))) (fun _ s' h => ?_)
    fun _ _ => id
  rw [ClipSlot.ended, Context.tells, hread, if_pos rfl, hc] at h
  rw [entriesTold, ← Function.comp_def, ← List.map_map]
  exact h

/-! ### The messages of a transfer -/

/-- The rest of the messages of a transfer, which carry the rest of its payload. -/
inductive ChunkStream (i : Fin 2) : Bytes → List Bytes → Prop
  | done (seq : Nat) {tail : Bytes} (htail : tail.length < 2 ^ 32) :
      ChunkStream i [] [dclpBody i seq synDataEnd tail]
  | chunk (seq : Nat) {text p : Bytes} {bodies : List Bytes} (htext : text.length < 2 ^ 32)
      (h : ChunkStream i p bodies) : ChunkStream i (text ++ p) (dclpBody i seq synDataChunk text :: bodies)

/-- The messages of a transfer of `p`. -/
inductive Transfer (i : Fin 2) (p : Bytes) : List Bytes → Prop
  | start (seq : Nat) {text : Bytes} {bodies : List Bytes} (htext : text.length + 1 < 2 ^ 32)
      (hp : atoi text = p.length) (h : ChunkStream i p bodies) :
      Transfer i p (dclpBody i seq synDataStart text :: bodies)

/-- Process messages one after another, each with what the outside answers to it. -/
def processAll : List (MsgEnv × SspBuf) → Syn Unit
  | [] => pure ()
  | (e, msg) :: msgs => do
    sProcessMessage e msg
    processAll msgs

/-- The messages have the bodies `bodies`. -/
abbrev CarryAll (msgs : List (MsgEnv × SspBuf)) (bodies : List Bytes) : Prop :=
  List.Forall₂ (fun m body => Carries m.2 body) msgs bodies

theorem Becomes.update_twice {s₁ : State} {c c' : ClipSlot} {ts : List (Nat × Nat × Bytes)}
    (h : Becomes (Function.update s.ctx.clip i c) [] s s₁)
    (h' : Becomes (Function.update s₁.ctx.clip i c') ts s₁ s') :
    Becomes (Function.update s.ctx.clip i c') ts s s' := by
  have := h.trans h'
  rwa [h.clip, Function.update_idem, List.nil_append] at this

theorem stream_run {c : ClipSlot} {block got p : Bytes} {entries : List (UInt32 × Bytes)} {bodies : List Bytes}
    {msgs : List (MsgEnv × SspBuf)} (h : ChunkStream i p bodies) (hm : CarryAll msgs bodies)
    (hp : got ++ p = encodeClipboard entries) (hL : (encodeClipboard entries).length < 2 ^ 31)
    (hblock : (encodeClipboard entries).length ≤ block.length)
    (hc : s.ctx.clip i = c.receiving block (encodeClipboard entries).length got) :
    wp (processAll msgs)
      (fun _ s' => Becomes (Function.update s.ctx.clip i
        (c.received (encodeClipboard entries) (block.drop (encodeClipboard entries).length)))
        (entriesTold s.ctx.callbacks.clipboard i entries) s s')
      (fun _ _ => False) s := by
  induction h generalizing s got msgs with
  | done seq htail =>
    rw [List.append_nil] at hp
    rw [hp] at hc
    cases hm with
    | cons hmsg hm =>
      cases hm
      simp only [processAll, wp_bind, wp_pure]
      exact end_run hmsg htail hc hL
  | @chunk seq text p bodies htext h ih =>
    have hlen := congrArg List.length hp
    simp only [List.length_append] at hlen
    cases hm with
    | @cons m _ msgs _ hmsg hm =>
      simp only [processAll, wp_bind]
      refine wp_mono (chunk_run hmsg hc (by omega) hblock hL htext) (fun _ s₁ h₁ => ?_) fun _ _ => id
      have hc₁ : s₁.ctx.clip i = c.receiving block (encodeClipboard entries).length (got ++ text) := by
        rw [h₁.clip, Function.update_self]
      refine wp_mono (ih hm (by rw [List.append_assoc]; exact hp) hc₁) (fun _ s' h' => ?_) fun _ _ => id
      rw [h₁.callbacks] at h'
      exact h₁.update_twice h'

/-- A whole transfer of an encoded clipboard, into a slot whose recorded size is covered. -/
theorem transfer_run {entries : List (UInt32 × Bytes)} {bodies : List Bytes} {msgs : List (MsgEnv × SspBuf)}
    (h : Transfer i (encodeClipboard entries) bodies) (hm : CarryAll msgs bodies)
    (hL : (encodeClipboard entries).length < 2 ^ 31)
    (hgrants : ∀ m ∈ msgs, m.1.Grants (encodeClipboard entries).length)
    (hlen : (s.ctx.clip i).len ≤ (s.ctx.clip i).cap) : wp (processAll msgs)
      (fun _ s' => Becomes (Function.update s.ctx.clip i ((s.ctx.clip i).received (encodeClipboard entries)
          (if (s.ctx.clip i).len < (encodeClipboard entries).length then []
          else (s.ctx.clip i).mem.drop (encodeClipboard entries).length)))
        (entriesTold s.ctx.callbacks.clipboard i entries) s s')
      (fun _ _ => False) s := by
  have hpos : 0 < (encodeClipboard entries).length := by have := le_length_encodeClipboard entries; omega
  cases h with
  | start seq htext hp h =>
    cases hm with
    | @cons m _ msgs _ hmsg hm =>
      simp only [processAll, wp_bind]
      refine wp_mono (start_run hmsg htext hp hL (hgrants m (by simp))) ?_ fun _ _ => id
      rintro _ s₁ ⟨buf, hroom, h₁⟩
      obtain ⟨block, rfl, hblock, hdrop⟩ := hroom.exists_block hlen hpos
      have hc₁ : s₁.ctx.clip i = (s.ctx.clip i).receiving block (encodeClipboard entries).length [] := by
        rw [h₁.clip, Function.update_self, started_eq]
      refine wp_mono (stream_run h hm (List.nil_append _) hL hblock hc₁) (fun _ s' h' => ?_) fun _ _ => id
      rw [h₁.callbacks, hdrop] at h'
      exact h₁.update_twice h'

end Waynergy
