import Waynergy.Dispatch
import Waynergy.Handlers

/-!
# What the clipboard messages and the local update do to a slot

One lemma for each: the slot they leave, as a function of the slot they find and of what they are given, and
the stops they can make. The formats of a buffer are read by `readClipboard`, which is the loop of the end
message without the buffer.
-/

namespace Waynergy
open Lib
variable {s s' : State} {msg : SspBuf} {c : ClipSlot}

/-! ### Start -/

/-- What `sspMemMove` copies. -/
def payload (msg : SspBuf) (len : Nat) : Option Bytes :=
  match (sspMemMove len).run msg with
  | .ok bs _ => some bs
  | .error _ _ => none

/-- Copying `len` bytes out of the message leaves the memory. -/
def Outside (msg : SspBuf) (len : Nat) : Prop := ∃ b, (sspMemMove len).run msg = .error .outside b

theorem Carries.payload {body : Bytes} (h : Carries msg body) {p len : Nat} (hp : p + len < 2 ^ 64) :
    payload (msg.at p) len = if p + len ≤ body.length then some (slice body p len) else none := by
  unfold Waynergy.payload sspMemMove
  rw [h.sspTake_run hp]
  by_cases hle : p + len ≤ body.length
  · rw [if_pos hle, if_pos hle]
  · rw [if_neg hle, if_neg hle]

theorem Carries.not_outside {body : Bytes} (h : Carries msg body) {p len : Nat} (hp : p + len < 2 ^ 64) :
    ¬ Outside (msg.at p) len := by
  rintro ⟨b, hb⟩
  unfold sspMemMove at hb
  rw [h.sspTake_run hp] at hb
  split at hb <;> cases hb

theorem wp_copyOut {Q : Option Bytes → State → Prop} {E : Stop → State → Prop} {len : Nat}
    (hQ : Q (payload msg len) s) (hE : Outside msg len → E (.fault .message) s) : wp (copyOut msg len) Q E s := by
  unfold copyOut
  unfold payload at hQ
  split <;> rename_i heq <;> rw [heq] at hQ
  exacts [hQ, hQ, hE ⟨_, heq⟩]

/-- The length that a start message announces; after a failed copy, by the bytes found on the stack. -/
def announced (e : MsgEnv) (len : Nat) (copied : Option Bytes) : Nat :=
  sizeOfInt (atoi (copied.getD ((List.range len).map e.stack)))

/-- `buf` is the block after making room for `size` bytes, where `len` is the recorded length. -/
def ClipSlot.Room (h : Heap) (c : ClipSlot) (size : Nat) (buf : Option Bytes) : Prop :=
  if size > c.len then ∃ b, xrealloc h c.mem size = some b ∧ buf = some b else buf = c.buf

def ClipSlot.started (c : ClipSlot) (buf : Option Bytes) (expect : Nat) : ClipSlot :=
  { c with grabbed := false, inStream := true, pos := 0, posExpect := expect, buf := buf }

theorem growClip_spec (h : Heap) (i : Fin 2) (len : Nat) (s : State) : wp (growClip h i len)
    (fun _ s' => ∃ b, xrealloc h (s.ctx.clip i).mem len = some b ∧
      s' = s.setSlot i { s.ctx.clip i with buf := some b })
    (fun stop _ => stop = .abort ∧ xrealloc h (s.ctx.clip i).mem len = none) s := by
  unfold growClip
  rw [wp_bind, wp_get]
  split
  · rename_i b hb
    exact ⟨b, hb, rfl⟩
  · rename_i hnone
    exact ⟨rfl, hnone⟩

/-- Why a start message stops: `expected_len` is too long, the message leaves the memory, or there is no room. -/
def StartStop (e : MsgEnv) (c : ClipSlot) (len : Nat) (msg : SspBuf) (stop : Stop) : Prop :=
  stop = .fault .lengthBuffer ∧ 2 ^ 32 ≤ len + 1 ∨ stop = .fault .message ∧ Outside msg len ∨
    stop = .abort ∧ xrealloc e.heap c.mem (announced e len (payload msg len)) = none

theorem dclpStart_spec (e : MsgEnv) (i : Fin 2) (len : Nat) (msg : SspBuf) (s : State) :
    wp (dclpStart e i len msg)
      (fun _ s' => ∃ buf, (s.ctx.clip i).Room e.heap (announced e len (payload msg len)) buf ∧
        Sends (s.setSlot i ((s.ctx.clip i).started buf (announced e len (payload msg len)))) s')
      (fun stop _ => StartStop e (s.ctx.clip i) len msg stop) s := by
  unfold dclpStart
  rw [wp_bind, wp_setClip, wp_ite]
  split
  · rename_i hlong
    exact .inl ⟨rfl, hlong⟩
  · rw [wp_bind]
    refine wp_copyOut ?_ fun hout => .inr (.inl ⟨rfl, hout⟩)
    simp only [wp_bind, wp_setClip, wp_get, State.setSlot_self, State.setSlot_setSlot]
    have hcnop : ∀ {t : State}, wp (replyCnop e) (fun _ s' => Sends t s')
        (fun stop _ => StartStop e (s.ctx.clip i) len msg stop) t := fun {t} =>
      wp_mono (replyCnop_sends e t) (fun _ _ => id) fun _ _ => False.elim
    split
    · rename_i hgt
      rw [wp_bind]
      refine wp_mono (growClip_spec _ _ _ _) ?_ fun _ _ h => .inr (.inr ⟨h.1, ?_⟩)
      · rintro _ s₁ ⟨b, hb, rfl⟩
        simp only [State.setSlot_self, State.setSlot_setSlot] at hb ⊢
        exact wp_mono hcnop (fun _ _ h => ⟨some b, (if_pos hgt).mpr ⟨b, hb, rfl⟩, h⟩) fun _ _ => id
      · have := h.2
        rwa [State.setSlot_self] at this
    · rename_i hle
      exact wp_mono hcnop (fun _ _ h => ⟨_, (if_neg hle).mpr rfl, h⟩) fun _ _ => id

/-! ### Chunk -/

/-- The block after a chunk was stored: `copied` is what could be copied out of the message. -/
def ClipSlot.store (c : ClipSlot) (copied : Option Bytes) : Option Bytes :=
  if c.buf = none ∧ c.pos = 0 then c.buf
  else match copied with
    | none => c.buf
    | some bs => some (overwrite c.mem c.pos bs)

def ClipSlot.chunked (c : ClipSlot) (copied : Option Bytes) (len : Nat) : ClipSlot :=
  { c with buf := c.store copied, pos := sizeAdd c.pos len }

theorem length_sspTake (n : Nat) (buf : SspBuf) :
    wp (sspTake n) (fun bs _ => bs.length = n) (fun _ _ => True) buf := by
  unfold sspTake
  simp only [wp_bind, wp_get, wp_ite, wp_throw]
  split
  · trivial
  · split
    · trivial
    · exact length_slice (by omega)

theorem length_payload {len : Nat} {bs : Bytes} (h : payload msg len = some bs) : bs.length = len := by
  unfold payload sspMemMove at h
  split at h
  · rename_i bs' msg' hrun
    obtain rfl : bs' = bs := by simpa using h
    exact wp_ok (Q := fun bs _ => bs.length = len) (length_sspTake len msg) hrun
  · cases h

theorem storeChunk_spec (i : Fin 2) (len : Nat) (msg : SspBuf) (s : State) : wp (storeChunk i len msg)
    (fun _ s' => s' = s.setSlot i { s.ctx.clip i with buf := (s.ctx.clip i).store (payload msg len) })
    (fun stop _ => stop = .fault .message ∧ Outside msg len ∨
      stop = .fault .clipCopy ∧ (s.ctx.clip i).cap < (s.ctx.clip i).pos + len)
    s := by
  have hself : ∀ buf, buf = (s.ctx.clip i).buf → s.setSlot i { s.ctx.clip i with buf := buf } = s := by
    rintro _ rfl
    exact State.setSlot_clip s i
  unfold storeChunk
  rw [wp_bind, wp_get, wp_ite]
  split
  · rename_i hnull
    exact (hself _ (if_pos hnull)).symm
  · rename_i hnull
    rw [wp_bind]
    refine wp_copyOut ?_ fun hout => .inl ⟨rfl, hout⟩
    cases hp : payload msg len with
    | none => exact (hself _ (if_neg hnull)).symm
    | some bs =>
      have hlen := length_payload hp
      rw [wp_ite]
      split
      · rename_i hout
        exact .inr ⟨rfl, hlen ▸ hout⟩
      · rw [wp_setClip, ClipSlot.store, if_neg hnull]

theorem dclpChunk_spec (e : MsgEnv) (i : Fin 2) (len : Nat) (msg : SspBuf) (s : State) :
    wp (dclpChunk e i len msg)
      (fun _ s' => (s.ctx.clip i).posExpect < sizeAdd (s.ctx.clip i).pos len ∧ s' = s ∨
        sizeAdd (s.ctx.clip i).pos len ≤ (s.ctx.clip i).posExpect ∧
          Sends (s.setSlot i ((s.ctx.clip i).chunked (payload msg len) len)) s')
      (fun stop _ => stop = .fault .message ∧ Outside msg len ∨ stop = .fault .clipCopy ∧
        (s.ctx.clip i).cap < (s.ctx.clip i).pos + len ∧
        sizeAdd (s.ctx.clip i).pos len ≤ (s.ctx.clip i).posExpect) s := by
  unfold dclpChunk
  rw [wp_bind, wp_get, wp_ite]
  split
  · rename_i hlong
    exact .inl ⟨hlong, rfl⟩
  · rename_i hfits
    rw [wp_bind]
    refine wp_mono (storeChunk_spec i len msg s) ?_ fun stop _ h => h.imp_right fun h => ⟨h.1, h.2, by omega⟩
    rintro _ s₁ rfl
    simp only [wp_bind, wp_setClip, State.setSlot_self, State.setSlot_setSlot]
    exact wp_mono (replyCnop_sends e _) (fun _ _ h => .inr ⟨by omega, h⟩) fun _ _ => False.elim

/-! ### End -/

/-- The first `n` formats of `bs`, up to one that is not complete, and whether there is none. -/
def readFormats : Nat → Bytes → List (Nat × Bytes) × Bool
  | 0, _ => ([], true)
  | n + 1, bs =>
    if bs.length < 8 + wordAt bs 4 then ([], false)
    else
      let r := readFormats n (bs.drop (8 + wordAt bs 4))
      ((wordAt bs 0, slice bs 8 (wordAt bs 4)) :: r.1, r.2)

/-- The formats of a clipboard buffer with the contents `bs`. -/
def readClipboard (bs : Bytes) : List (Nat × Bytes) × Bool :=
  if bs.length < 4 then ([], false) else readFormats (wordAt bs 0) (bs.drop 4)

/-- What the clipboard callback is told. -/
def clipEvents (callback : Bool) (id : Nat) (entries : List (Nat × Bytes)) : List Event :=
  if callback then entries.map fun entry => .clipboard id entry.1 entry.2 else []

/-- What the loop over the formats emits: the formats, and a parse error if one is not complete. -/
def formatEvents (callback : Bool) (id : Nat) (r : List (Nat × Bytes) × Bool) : List Event :=
  clipEvents callback id r.1 ++ if r.2 then [] else [.parseError]

theorem slice_drop (bs : Bytes) (p i n : Nat) : slice (bs.drop p) i n = slice bs (p + i) n := by
  rw [slice, List.drop_drop, slice]

theorem wordAt_drop (bs : Bytes) (p i : Nat) : wordAt (bs.drop p) i = wordAt bs (p + i) := by
  rw [wordAt, slice_drop, wordAt]

theorem wp_formatHeader {body : Bytes} (h : Carries msg body) {p : Nat} (hp : p + 8 < 2 ^ 64)
    {Q : Nat × Nat → SspBuf → Prop} {E : ParseFail → Prop} :
    wp (do let format ← sspNetU32; let size ← sspNetU32; pure (format, size) : Parse (Nat × Nat)) Q
      (fun f _ => E f) (msg.at p) ↔
      if p + 8 ≤ body.length then Q (wordAt body p, wordAt body (p + 4)) (msg.at (p + 8)) else E .short := by
  simp only [sspNetU32, wp_bind, wp_pure, h.wp_sspNetInt (p := p) (n := 4) (by omega),
    h.wp_sspNetInt (p := p + 4) (n := 4) (by omega)]
  split_ifs <;> first | rfl | omega

theorem dclpFormats_spec {body : Bytes} (h : Carries msg body) (hlen : body.length < 2 ^ 63) (id : Nat)
    (callback : Bool) (n p : Nat) (hp : p ≤ body.length) (s : State) :
    wp (dclpFormats id callback n (msg.at p))
      (fun b s' => b = (readFormats n (body.drop p)).2 ∧
        s' = { s with out := s.out ++ formatEvents callback id (readFormats n (body.drop p)) })
      (fun _ _ => False) s := by
  induction n generalizing p s with
  | zero => exact ⟨rfl, by cases callback <;> simp [formatEvents, clipEvents, readFormats]⟩
  | succ n ih =>
    have hsize := wordAt_lt body (p + 4)
    have hrem : (body.drop p).length = body.length - p := List.length_drop
    have hread : readFormats (n + 1) (body.drop p) = if body.length - p < 8 + wordAt body (p + 4) then ([], false)
        else ((wordAt body p, slice body (p + 8) (wordAt body (p + 4))) ::
          (readFormats n (body.drop (p + 8 + wordAt body (p + 4)))).1,
          (readFormats n (body.drop (p + 8 + wordAt body (p + 4)))).2) := by
      rw [readFormats, hrem, wordAt_drop, wordAt_drop, slice_drop, List.drop_drop, Nat.add_zero, Nat.add_assoc]
      rfl
    rw [dclpFormats, wp_parse, wp_formatHeader h (by omega)]
    generalize wordAt body (p + 4) = size at *
    by_cases h8 : p + 8 ≤ body.length
    · rw [if_pos h8]
      show wp (if callback then _ else _) _ _ s
      by_cases hfit : p + 8 + size ≤ body.length
      · -- the entry is complete
        have hrest : ∀ t : State, wp (parse .clipParse (sspSeek size) (msg.at (p + 8)) false
            fun _ buf => dclpFormats id callback n buf)
            (fun b s' => b = (readFormats n (body.drop (p + 8 + size))).2 ∧
              s' = { t with out := t.out ++ formatEvents callback id (readFormats n (body.drop (p + 8 + size))) })
            (fun _ _ => False) t := by
          intro t
          rw [wp_parse, h.wp_sspSeek (by omega), if_pos hfit]
          exact ih (p + 8 + size) hfit t
        rw [hread, if_neg (show ¬ body.length - p < 8 + size by omega)]
        cases callback with
        | false => exact hrest s
        | true =>
          have hmem := h.mem.length_le
          have hadd : sizeAdd (msg.at (p + 8)).pos size = p + 8 + size := sizeAdd_eq (by simp only [SspBuf.at]; omega)
          have hin : ¬ (msg.at (p + 8)).data.length < (msg.at (p + 8)).pos + size := by
            simp only [SspBuf.at]; omega
          have hlen' : (msg.at (p + 8)).len = body.length := h.len
          rw [if_pos rfl, hadd, hlen', if_neg (Nat.not_lt.mpr hfit), if_neg hin, wp_bind, wp_emits]
          refine wp_mono (hrest _) ?_ fun _ _ h => h
          rintro b s' ⟨hb, rfl⟩
          refine ⟨hb, ?_⟩
          have hslice : slice (msg.at (p + 8)).data (msg.at (p + 8)).pos size = slice body (p + 8) size :=
            h.slice_eq hfit
          simp only [hslice, List.append_assoc]
          rfl
      · rw [hread, if_pos (show body.length - p < 8 + size by omega)]
        cases callback with
        | false =>
          rw [if_neg Bool.false_ne_true, wp_parse, h.wp_sspSeek (by omega), if_neg hfit]
          exact ⟨rfl, rfl⟩
        | true =>
          have hadd : sizeAdd (msg.at (p + 8)).pos size = p + 8 + size := sizeAdd_eq (by simp only [SspBuf.at]; omega)
          have hlen' : (msg.at (p + 8)).len = body.length := h.len
          rw [if_pos rfl, hadd, hlen', if_pos (Nat.lt_of_not_le hfit)]
          exact ⟨rfl, rfl⟩
    · rw [if_neg h8, hread, if_pos (show body.length - p < 8 + size by omega)]
      exact ⟨rfl, by cases callback <;> rfl⟩

/-- The bytes that an end message parses. -/
def ClipSlot.contents (c : ClipSlot) : Bytes := c.mem.take c.posExpect

theorem ClipSlot.carries (h : c.posExpect ≤ c.cap) : Carries ⟨c.mem, 0, c.posExpect⟩ c.contents :=
  ⟨rfl, by rw [contents, List.length_take]; exact (Nat.min_eq_left h).symm, List.take_prefix _ _⟩

/-- The state after the formats of slot `i` were passed on. -/
def State.delivered (s : State) (i : Fin 2) : State :=
  { s with out := s.out ++ formatEvents s.ctx.callbacks.clipboard i (readClipboard (s.ctx.clip i).contents) }

/-- An end message passes the formats on; it closes the stream if they are complete. -/
theorem dclpEnd_spec (e : MsgEnv) (i : Fin 2) (s : State) (hcap : (s.ctx.clip i).posExpect ≤ (s.ctx.clip i).cap)
    (hlt : (s.ctx.clip i).posExpect < 2 ^ 63) : wp (dclpEnd e i)
      (fun _ s' => if (readClipboard (s.ctx.clip i).contents).2
        then Sends ((s.delivered i).setSlot i { s.ctx.clip i with inStream := false }) s'
        else s' = s.delivered i) (fun _ _ => False) s := by
  have h := ClipSlot.carries hcap
  have hlen : (s.ctx.clip i).contents.length = (s.ctx.clip i).posExpect := by
    rw [ClipSlot.contents, List.length_take]; exact Nat.min_eq_left hcap
  unfold dclpEnd State.delivered
  rw [wp_bind, wp_get, wp_parse, sspNetU32, h.eq_at, h.wp_sspNetInt (by decide), readClipboard]
  by_cases h4 : 0 + 4 ≤ (s.ctx.clip i).contents.length
  · rw [if_pos h4, if_neg (show ¬ (s.ctx.clip i).contents.length < 4 by omega), wp_bind]
    refine wp_mono (dclpFormats_spec h (by omega) i _ _ (0 + 4) h4 s) ?_ fun _ _ h => h
    rintro b s₁ ⟨rfl, rfl⟩
    have hr : readFormats (beNat (slice (s.ctx.clip i).contents 0 4)) ((s.ctx.clip i).contents.drop (0 + 4)) =
        readFormats (wordAt (s.ctx.clip i).contents 0) ((s.ctx.clip i).contents.drop 4) := rfl
    rw [hr, wp_ite]
    split
    · rw [wp_bind, wp_setClip]
      exact wp_mono (replyCnop_sends e _) (fun _ _ h => h) fun _ _ => False.elim
    · rfl
  · rw [if_neg h4, if_pos (show (s.ctx.clip i).contents.length < 4 by omega)]
    simp only [Bool.false_eq_true, if_false]
    cases s.ctx.callbacks.clipboard <;> rfl

/-! ### The local update -/

theorem contains_spec (i : Fin 2) (data : Bytes) (s : State) : wp (uSynergyClipBufContains i data)
    (fun _ s' => s' = s) (fun stop s' => stop = .fault .clipCompare ∧ s' = s) s := by
  have hloop : ∀ (n : Nat) (buf : SspBuf), wp (containsLoop data n buf) (fun _ s' => s' = s)
      (fun stop s' => stop = .fault .clipCompare ∧ s' = s) s := by
    intro n
    induction n with
    | zero => exact fun _ => rfl
    | succ n ih =>
      intro buf
      unfold containsLoop
      split
      · split
        · split
          · exact ⟨rfl, rfl⟩
          · split
            exacts [rfl, ih _]
        · exact ih _
      · exact rfl
      · exact ⟨rfl, rfl⟩
  unfold uSynergyClipBufContains
  rw [wp_bind, wp_get]
  dsimp only
  split
  · exact rfl
  · rw [wp_ite]
    split
    · exact rfl
    · split
      exacts [hloop _ _, rfl, ⟨rfl, rfl⟩]

/-- The slot after a local update with `data`, where `buf` is the block after making room. -/
def ClipSlot.updated (c : ClipSlot) (buf data : Bytes) : ClipSlot :=
  { buf := some (overwrite buf 0 (encodeText data))
    len := max c.len ((data.length + 12) % 2 ^ 32)
    pos := (data.length + 12) % 2 ^ 32
    posExpect := c.posExpect
    inStream := false
    grabbed := true }

theorem length_encodeText (data : Bytes) : (encodeText data).length = data.length + 12 := by
  simp [encodeText]; omega

/-- An update that is not a duplicate makes room, stores the text and announces it, unless memory runs out or the block is
too small for it. -/
theorem wp_updateClipBuf {h : Heap} {sent : Bool} {i : Fin 2} {data : Bytes} {s : State} {Q : Unit → State → Prop}
    {E : Stop → State → Prop} (hrun : (uSynergyClipBufContains i data).run s = .ok false s)
    (hdone : ∀ buf, (s.ctx.clip i).Room h ((data.length + 12) % 2 ^ 32) buf → data.length + 12 ≤ (buf.getD []).length →
      wp (reply sent (sAddString (ascii ['C', 'C', 'L', 'P']) <&&> (sAddUInt8 i <&&> sAddUInt32 s.ctx.sequenceNumber)))
        (fun _ => Q ()) E (s.setSlot i ((s.ctx.clip i).updated (buf.getD []) data)))
    (habort : ∀ s', xrealloc h (s.ctx.clip i).mem ((data.length + 12) % 2 ^ 32) = none → E .abort s')
    (hsmall : ∀ buf s', (s.ctx.clip i).Room h ((data.length + 12) % 2 ^ 32) buf →
      (buf.getD []).length < data.length + 12 → E (.fault .clipEncode) s') :
    wp (uSynergyUpdateClipBuf h sent i data) Q E s := by
  have hpos : data.length + 4 + 4 + 4 = data.length + 12 := rfl
  unfold uSynergyUpdateClipBuf
  rw [wp_bind]
  refine wp_of_ok hrun ?_
  simp only [Bool.false_eq_true, if_false, hpos, wp_bind, wp_ite, wp_setClip, wp_get, wp_pure, State.setSlot_self,
    State.setSlot_setSlot, wp_throw, length_encodeText]
  split
  · rename_i hlt
    have hmax : max (s.ctx.clip i).len ((data.length + 12) % 2 ^ 32) = (data.length + 12) % 2 ^ 32 :=
      Nat.max_eq_right (Nat.le_of_lt hlt)
    refine wp_mono (growClip_spec h i _ _) ?_ ?_
    · rintro _ t ⟨b, hgrow, rfl⟩
      rw [State.setSlot_self] at hgrow
      have hroom : (s.ctx.clip i).Room h ((data.length + 12) % 2 ^ 32) (some b) := (if_pos hlt).mpr ⟨b, hgrow, rfl⟩
      simp only [State.setSlot_self, State.setSlot_setSlot]
      split
      · exact hsmall _ _ hroom ‹_›
      · have hreply := hdone _ hroom (Nat.le_of_not_lt ‹_›)
        rw [ClipSlot.updated, hmax] at hreply
        exact hreply
    · rintro _ s' ⟨rfl, hnone⟩
      rw [State.setSlot_self] at hnone
      exact habort s' hnone
  · rename_i hge
    have hmax : max (s.ctx.clip i).len ((data.length + 12) % 2 ^ 32) = (s.ctx.clip i).len :=
      Nat.max_eq_left (Nat.le_of_not_lt hge)
    have hroom : (s.ctx.clip i).Room h ((data.length + 12) % 2 ^ 32) (s.ctx.clip i).buf := (if_neg hge).mpr rfl
    split
    · exact hsmall _ _ hroom ‹_›
    · have hreply := hdone _ hroom (Nat.le_of_not_lt ‹_›)
      rw [ClipSlot.updated, hmax] at hreply
      exact hreply

theorem updateClipBuf_fresh (h : Heap) (sent : Bool) {i : Fin 2} {data : Bytes} {s : State}
    (hrun : (uSynergyClipBufContains i data).run s = .ok false s) : wp (uSynergyUpdateClipBuf h sent i data)
      (fun _ s' => ∃ buf, (s.ctx.clip i).Room h ((data.length + 12) % 2 ^ 32) buf ∧
        data.length + 12 ≤ (buf.getD []).length ∧
        Answers (s.setSlot i ((s.ctx.clip i).updated (buf.getD []) data)) s')
      (fun stop _ => stop = .abort ∧ xrealloc h (s.ctx.clip i).mem ((data.length + 12) % 2 ^ 32) = none ∨
        stop = .fault .clipEncode ∧ ∃ buf, (s.ctx.clip i).Room h ((data.length + 12) % 2 ^ 32) buf ∧
          (buf.getD []).length < data.length + 12) s := by
  have hreply := reply_fits ((Adds.sAddBin (ascii ['C', 'C', 'L', 'P'])).and
    ((Adds.sAddBin [UInt8.ofNat i]).and (Adds.sAddBin (be32 s.ctx.sequenceNumber))))
    ((Builder.sAddBin _).and ((Builder.sAddBin _).and (Builder.sAddBin _))) sent (by simp [ascii, replyBufferSize])
  refine wp_updateClipBuf hrun (fun buf hroom hlarge => ?_) (fun _ hnone => .inl ⟨rfl, hnone⟩)
    fun buf _ hroom hsmall => .inr ⟨rfl, buf, hroom, hsmall⟩
  exact wp_mono (hreply _) (fun _ s' hs => ⟨buf, hroom, hlarge, hs⟩) fun _ _ => False.elim

theorem updateClipBuf_duplicate (h : Heap) (sent : Bool) {i : Fin 2} {data : Bytes} {s : State}
    (hrun : (uSynergyClipBufContains i data).run s = .ok true s) :
    wp (uSynergyUpdateClipBuf h sent i data) (fun _ s' => s' = s) (fun _ _ => False) s := by
  unfold uSynergyUpdateClipBuf
  rw [wp_bind]
  exact wp_of_ok hrun rfl

/-- The duplicate check finds the data, or does not, or reads behind the block. -/
theorem contains_cases (i : Fin 2) (data : Bytes) (s : State) :
    (uSynergyClipBufContains i data).run s = .ok true s ∨ (uSynergyClipBufContains i data).run s = .ok false s ∨
      (uSynergyClipBufContains i data).run s = .error (.fault .clipCompare) s := by
  have hspec := wp_run (contains_spec i data s)
  unfold wp at hspec
  split at hspec
  · rename_i b s' hrun
    obtain ⟨rfl, -⟩ := hspec
    cases b
    · exact .inr (.inl hrun)
    · exact .inl hrun
  · rename_i stop s' hrun
    obtain ⟨⟨rfl, rfl⟩, -⟩ := hspec
    exact .inr (.inr hrun)

theorem updateClipBuf_spec (h : Heap) (sent : Bool) (i : Fin 2) (data : Bytes) (s : State) :
    wp (uSynergyUpdateClipBuf h sent i data)
      (fun _ s' => ((uSynergyClipBufContains i data).run s = .ok true s ∧ s' = s) ∨
        ((uSynergyClipBufContains i data).run s = .ok false s ∧
          ∃ buf, (s.ctx.clip i).Room h ((data.length + 12) % 2 ^ 32) buf ∧ data.length + 12 ≤ (buf.getD []).length ∧
            Answers (s.setSlot i ((s.ctx.clip i).updated (buf.getD []) data)) s'))
      (fun stop _ => stop = .fault .clipCompare ∨ stop = .abort ∨ stop = .fault .clipEncode ∧
        ∃ buf, (s.ctx.clip i).Room h ((data.length + 12) % 2 ^ 32) buf ∧ (buf.getD []).length < data.length + 12)
      s := by
  rcases contains_cases i data s with hrun | hrun | hrun
  · exact wp_mono (updateClipBuf_duplicate h sent hrun) (fun _ _ hs => .inl ⟨hrun, hs⟩) fun _ _ => False.elim
  · refine wp_mono (updateClipBuf_fresh h sent hrun) (fun _ _ hs => .inr ⟨hrun, hs⟩) fun _ _ hstop => .inr ?_
    exact hstop.imp And.left id
  · unfold uSynergyUpdateClipBuf
    rw [wp_bind]
    unfold wp
    rw [hrun]
    exact .inl rfl

end Waynergy
