import Waynergy.ClipTransfer

/-!
# Sending a clipboard

With the reply cursor at its base every message of `uSynergySendClipboard` fits, so what it sends is known
exactly: the messages of a transfer. Together with what a transfer does at the receiver this is the round trip.
-/

namespace Waynergy
open Lib
variable {s : State}

/-- The state `s` after the messages `bodies` were sent, each in a frame of its own. -/
def State.sent (s : State) (b : Buf replyBufferSize) (bodies : List Bytes) : State :=
  { s with ctx := { s.ctx with replyBuffer := b }, out := s.out ++ bodies.map fun v => .send (frame v) }

theorem State.sent_sent (s : State) (b b' : Buf replyBufferSize) (vs vs' : List Bytes) :
    (s.sent b vs).sent b' vs' = s.sent b' (vs ++ vs') := by
  simp [State.sent]

/-! ### The messages -/

theorem adds_dclpBody (id seq mark : Nat) (text : Bytes) :
    Adds (dclpBody id seq mark text) (addDclp id seq mark <&&> (sAddUInt32 text.length <&&> sAddBin text)) :=
  ((Adds.sAddBin _).and ((Adds.sAddBin _).and ((Adds.sAddBin _).and (Adds.sAddBin _)))).and
    ((Adds.sAddBin _).and (Adds.sAddBin _))

theorem adds_dclpEnd (id seq : Nat) :
    Adds (dclpBody id seq synDataEnd []) (addDclp id seq synDataEnd <&&> sAddUInt32 0) := by
  have h : dclpBody id seq synDataEnd [] =
      ascii ['D', 'C', 'L', 'P'] ++ ([UInt8.ofNat id] ++ (be32 seq ++ [UInt8.ofNat synDataEnd])) ++ be32 0 := rfl
  rw [h]
  exact ((Adds.sAddBin _).and ((Adds.sAddBin _).and ((Adds.sAddBin _).and (Adds.sAddBin _)))).and (Adds.sAddBin _)

theorem reply_sent {v : Bytes} {m : Syn Bool} (h : Adds v m) (sent : Bool) (hcur : s.ctx.replyCur = 4)
    (hfit : v.length ≤ 1020) :
    wp (reply sent m) (fun ok s' => ok = true ∧ ∃ b, s' = s.sent b [v]) (fun _ _ => False) s := by
  obtain ⟨b, hrun⟩ := reply_run h sent hcur (show 4 + v.length ≤ replyBufferSize by unfold replyBufferSize; omega)
  exact wp_of_ok hrun ⟨rfl, b, rfl⟩

/-! ### The chunk loop -/

/-- Chunks of `text` from `pos` to `len`. -/
structure Chunks (text : Bytes) (pos len : Nat) (cs : List Bytes) : Prop where
  flatten : cs.flatten = slice text pos (len - pos)
  short : ∀ c ∈ cs, c.length ≤ maxChunk

theorem Chunks.nil {text : Bytes} {pos len : Nat} (h : len ≤ pos) : Chunks text pos len [] :=
  ⟨by rw [Nat.sub_eq_zero_of_le h]; rfl, by simp⟩

theorem Chunks.cons {text : Bytes} {pos n len : Nat} {cs : List Bytes} (h : Chunks text (pos + n) len cs)
    (hn : n ≤ maxChunk) (hle : pos + n ≤ len) : Chunks text pos len (slice text pos n :: cs) := by
  refine ⟨?_, fun c hc => ?_⟩
  · rw [List.flatten_cons, h.flatten, slice, slice, slice, ← List.drop_drop, ← List.take_add]
    congr 1
    omega
  · rcases List.mem_cons.mp hc with rfl | hc
    · exact Nat.le_trans (List.length_take_le _ _) hn
    · exact h.short c hc

/-- The first position of a chunk that is not an `int`. -/
def maxSent : Nat := (intMax / maxChunk + 1) * maxChunk

theorem intMax_lt_maxSent : intMax < maxSent := by decide

theorem maxSent_lt : maxSent < 2 ^ 32 := by decide

/-- A chunk in front of `maxSent` is at a position that is an `int`. -/
theorem le_intMax_of_dvd {pos : Nat} (hdvd : maxChunk ∣ pos) (hlt : pos < maxSent) : pos ≤ intMax := by
  obtain ⟨k, rfl⟩ := hdvd
  have hchunk : maxChunk = 995 := rfl
  have hmax : intMax = 2147483647 := rfl
  have hsent : maxSent = 2147484620 := rfl
  rw [hchunk] at hlt ⊢
  omega

/-- The loop sends the chunks one after another, and comes to its end. -/
theorem sendChunks_spec (sent : Bool) (id seq : Nat) {len pos fuel : Nat} {text : Bytes} (hcur : s.ctx.replyCur = 4)
    (hlen : len ≤ text.length) (hmax : len ≤ maxSent) (hpos : maxChunk ∣ pos ∨ len ≤ pos) (hfuel : len ≤ pos + fuel) :
    wp (sendChunks sent id seq len text fuel pos)
      (fun ok s' => ok = true ∧ ∃ b cs, Chunks text pos len cs ∧
        s' = s.sent b (cs.map (dclpBody id seq synDataChunk)))
      (fun _ _ => False) s := by
  have hdone : len ≤ pos → ∃ b cs, Chunks text pos len cs ∧ s = s.sent b (cs.map (dclpBody id seq synDataChunk)) :=
    fun hle => ⟨s.ctx.replyBuffer, [], .nil hle, by simp [State.sent]⟩
  induction fuel generalizing pos s with
  | zero =>
    unfold sendChunks
    rw [if_neg (by omega)]
    exact ⟨rfl, hdone (by omega)⟩
  | succ fuel ih =>
    unfold sendChunks
    by_cases hlt : pos < len
    · rw [if_pos hlt]
      dsimp only
      generalize hn : (if len - pos > maxChunk then maxChunk else len - pos) = n
      have hmaxChunk : maxChunk = 995 := rfl
      have hn' : n ≤ maxChunk ∧ pos + n ≤ len ∧ 0 < n := by split at hn <;> omega
      have hint : pos ≤ intMax := le_intMax_of_dvd (hpos.resolve_right (by omega)) (by omega)
      have hnext : maxChunk ∣ pos + n ∨ len ≤ pos + n := by
        split at hn
        · subst hn
          exact .inl (Nat.dvd_add_self_right.mpr (hpos.resolve_right (by omega)))
        · exact .inr (by omega)
      have hslice : (slice text pos n).length = n := length_slice (by omega)
      have hadds := adds_dclpBody id seq synDataChunk (slice text pos n)
      rw [hslice] at hadds
      rw [if_neg (by omega), wp_bind]
      refine wp_mono (reply_sent hadds sent hcur (by rw [length_dclpBody, hslice]; omega)) ?_
        fun _ _ => False.elim
      rintro _ s₁ ⟨rfl, b₁, rfl⟩
      rw [if_pos rfl]
      refine wp_mono (ih hcur hnext (by omega) fun hle => ?_) ?_ fun _ _ => False.elim
      · exact ⟨b₁, [], .nil hle, by simp [State.sent]⟩
      · rintro _ s₂ ⟨rfl, b₂, cs, hcs, rfl⟩
        refine ⟨rfl, b₂, _, hcs.cons hn'.1 hn'.2.1, ?_⟩
        rw [State.sent_sent]
        rfl
    · rw [if_neg hlt]
      exact ⟨rfl, hdone (by omega)⟩

/-- A longer text has a chunk whose position is no `int`. -/
theorem sendChunks_overflows (sent : Bool) (id seq : Nat) {len pos fuel : Nat} {text : Bytes}
    (hcur : s.ctx.replyCur = 4) (hlen : len ≤ text.length) (hlong : maxSent < len) (hdvd : maxChunk ∣ pos)
    (hpos : pos ≤ maxSent) (hfuel : len ≤ pos + fuel) :
    wp (sendChunks sent id seq len text fuel pos) (fun _ _ => False) (fun stop _ => stop = .fault .clipSend) s := by
  have hchunk : maxChunk = 995 := rfl
  have hsent : maxSent = 2147484620 := rfl
  induction fuel generalizing pos s with
  | zero => omega
  | succ fuel ih =>
    unfold sendChunks
    rw [if_pos (by omega)]
    dsimp only
    rcases Nat.lt_or_ge intMax pos with hint | hint
    · rw [if_pos (.inl hint)]
      rfl
    · have hmax : intMax = 2147483647 := rfl
      have hnext : pos + maxChunk ≤ maxSent := by
        obtain ⟨k, rfl⟩ := hdvd
        rw [hchunk] at hint ⊢
        omega
      have hslice : (slice text pos maxChunk).length = maxChunk := length_slice (by omega)
      have hadds := adds_dclpBody id seq synDataChunk (slice text pos maxChunk)
      rw [hslice] at hadds
      rw [if_pos (show len - pos > maxChunk by omega), if_neg (by omega), wp_bind]
      refine wp_mono (reply_sent hadds sent hcur (by rw [length_dclpBody, hslice]; decide)) ?_ fun _ _ => False.elim
      rintro _ s₁ ⟨rfl, b, rfl⟩
      rw [if_pos rfl]
      exact ih hcur (Nat.dvd_add_self_right.mpr hdvd) hnext (by omega)

/-! ### The whole of it -/

theorem chunkStream_of_chunks {i : Fin 2} (seq : Nat) {cs : List Bytes} (h : ∀ c ∈ cs, c.length ≤ maxChunk) :
    ChunkStream i cs.flatten (cs.map (dclpBody i seq synDataChunk) ++ [dclpBody i seq synDataEnd []]) := by
  induction cs with
  | nil => exact .done seq (by decide)
  | cons c cs ih =>
    exact .chunk seq (Nat.lt_of_le_of_lt (h c (by simp)) (by decide)) (ih fun c hc => h c (by simp [hc]))

/-- With the cursor at its base, sending a clipboard sends the messages of a transfer of it. -/
theorem uSynergySendClipboard_spec (sent : Bool) (i : Fin 2) {len : Nat} {text : Bytes} (hcur : s.ctx.replyCur = 4)
    (hlen : len ≤ text.length) (hmax : len ≤ maxSent) :
    wp (uSynergySendClipboard sent i len text)
      (fun _ s' => ∃ b cs, Chunks text 0 len cs ∧ s' = s.sent b
        (dclpBody i s.ctx.sequenceNumber synDataStart (decimal len) ::
          (cs.map (dclpBody i s.ctx.sequenceNumber synDataChunk) ++ [dclpBody i s.ctx.sequenceNumber synDataEnd []])))
      (fun _ _ => False) s := by
  have hdec : (decimal len).length ≤ 10 := length_decimal_le (Nat.lt_of_le_of_lt hmax maxSent_lt)
  unfold uSynergySendClipboard
  rw [wp_bind, wp_get, wp_bind]
  refine wp_mono (reply_sent (adds_dclpBody i s.ctx.sequenceNumber synDataStart (decimal len)) sent hcur
    (by rw [length_dclpBody]; omega)) ?_ fun _ _ => id
  rintro _ s₁ ⟨rfl, b₁, rfl⟩
  rw [if_pos rfl, wp_bind]
  refine wp_mono (sendChunks_spec sent i s.ctx.sequenceNumber hcur hlen hmax (.inl (Nat.dvd_zero _)) (by omega)) ?_
    fun _ _ => id
  rintro _ s₂ ⟨rfl, b₂, cs, hcs, rfl⟩
  rw [if_pos rfl, wp_bind]
  refine wp_mono (reply_sent (adds_dclpEnd i s.ctx.sequenceNumber) sent hcur (by rw [length_dclpBody]; decide)) ?_
    fun _ _ => id
  rintro _ s₃ ⟨-, b₃, rfl⟩
  refine ⟨b₃, cs, hcs, ?_⟩
  rw [State.sent_sent, State.sent_sent]
  rfl

/-- A clipboard that is too long for the positions of its chunks is read in front of its first byte. -/
theorem uSynergySendClipboard_overflows (sent : Bool) (i : Fin 2) {len : Nat} {text : Bytes}
    (hcur : s.ctx.replyCur = 4) (hlen : len ≤ text.length) (hlong : maxSent < len) (hword : len < 2 ^ 32) :
    wp (uSynergySendClipboard sent i len text) (fun _ _ => False) (fun stop _ => stop = .fault .clipSend) s := by
  have hdec : (decimal len).length ≤ 10 := length_decimal_le hword
  unfold uSynergySendClipboard
  rw [wp_bind, wp_get, wp_bind]
  refine wp_mono (reply_sent (adds_dclpBody i s.ctx.sequenceNumber synDataStart (decimal len)) sent hcur
    (by rw [length_dclpBody]; omega)) ?_ fun _ _ => False.elim
  rintro _ s₁ ⟨rfl, b₁, rfl⟩
  rw [if_pos rfl, wp_bind]
  exact wp_mono (sendChunks_overflows sent i s.ctx.sequenceNumber hcur hlen hlong (Nat.dvd_zero _) (Nat.zero_le _)
    (by omega)) (fun _ _ => False.elim) fun _ _ => id

/-- The frames that send an encoded clipboard make a receiver pass on exactly its entries, in order. -/
theorem clipboard_round_trip {entries : List (UInt32 × Bytes)} (hL : (encodeClipboard entries).length ≤ intMax)
    (hcur : s.ctx.replyCur = 4) (sent : Bool) (i : Fin 2) :
    ∃ b bodies, (uSynergySendClipboard sent i (encodeClipboard entries).length (encodeClipboard entries)).run s =
        .ok () (s.sent b bodies) ∧
      ∀ (t : State) (msgs : List (MsgEnv × SspBuf)), CarryAll msgs bodies →
        (∀ m ∈ msgs, m.1.Grants (encodeClipboard entries).length) → t.ctx.callbacks.clipboard = true →
        (t.ctx.clip i).len ≤ (t.ctx.clip i).cap →
        ∃ t' evs, (processAll msgs).run t = .ok () t' ∧ t'.out = t.out ++ evs ∧
          told evs = entries.map (fun entry => (i.val, entry.1.toNat, entry.2)) ∧
          (t'.ctx.clip i).inStream = false := by
  have hL' : (encodeClipboard entries).length < 2 ^ 31 := Nat.lt_of_le_of_lt hL (by decide)
  obtain ⟨_, _, hrun, b, cs, hcs, rfl⟩ := exists_ok_of_wp
    (uSynergySendClipboard_spec sent i hcur (Nat.le_refl _) (Nat.le_of_lt (Nat.lt_of_le_of_lt hL intMax_lt_maxSent)))
  refine ⟨b, _, hrun, fun t msgs hm hgrants hcb hlen => ?_⟩
  have hflat : cs.flatten = encodeClipboard entries := by
    rw [hcs.flatten, slice, Nat.sub_zero]
    exact List.take_length
  have hstream := chunkStream_of_chunks (i := i) s.ctx.sequenceNumber hcs.short
  rw [hflat] at hstream
  have htransfer : Transfer i (encodeClipboard entries) _ := .start s.ctx.sequenceNumber
    (Nat.lt_of_le_of_lt (Nat.succ_le_succ (length_decimal_le (by omega))) (by decide)) (atoi_decimal hL') hstream
  obtain ⟨_, t', hrun', h⟩ := exists_ok_of_wp (transfer_run htransfer hm hL' hgrants hlen)
  obtain ⟨evs, ho, htold, -⟩ := h.out
  refine ⟨t', evs, hrun', ho, ?_, ?_⟩
  · rw [htold, entriesTold, hcb]
    rfl
  · rw [h.clip, Function.update_self]
    rfl

/-- The messages with exactly the bodies `bodies`. -/
def smoothAll (bodies : List Bytes) : List (MsgEnv × SspBuf) := bodies.map fun body => (.smooth, .ofBytes body)

theorem carryAll_smoothAll (bodies : List Bytes) : CarryAll (smoothAll bodies) bodies := by
  induction bodies with
  | nil => exact .nil
  | cons body bodies ih => exact .cons (.ofBytes body) ih

theorem grants_smoothAll (bodies : List Bytes) (n : Nat) : ∀ m ∈ smoothAll bodies, m.1.Grants n := by
  rintro m hm
  obtain ⟨body, -, rfl⟩ := List.mem_map.mp hm
  rfl

/-- Sent by a client that has just connected, and received by another one. -/
theorem clipboard_round_trip_hi : ∃ bodies t evs, (processAll (smoothAll bodies)).run (.opened .sample) = .ok () t ∧
    t.out = (State.opened .sample).out ++ evs ∧ told evs = [(0, 0, ascii ['h', 'i'])] := by
  have hL : (encodeClipboard [(0, ascii ['h', 'i'])]).length ≤ intMax := by decide
  obtain ⟨_, bodies, -, h⟩ := clipboard_round_trip (s := .opened .sample) hL rfl true 0
  obtain ⟨t, evs, hrun, ho, htold, -⟩ := h (.opened .sample) (smoothAll bodies) (carryAll_smoothAll bodies)
    (grants_smoothAll bodies _) rfl (by decide)
  exact ⟨bodies, t, evs, hrun, ho, htold⟩

end Waynergy
