import Waynergy.Served

/-!
# The clipboards are served

Leaving the screen sends the local clipboards that are owed, in the order of their ids and each in stretches; a
clipboard of the server is stored as it arrives and passed on when it is complete.
-/

namespace Waynergy
open Lib
variable {d : Desk} {s s' : State} {msg : SspBuf} {i : Fin 2}

/-! ### Sending a clipboard -/

theorem chunksOf_done {text : Bytes} {pos len : Nat} (h : len ≤ pos) : chunksOf (slice text pos (len - pos)) = [] := by
  rw [Nat.sub_eq_zero_of_le h, slice, List.take_zero, chunksOf, if_pos rfl]

theorem chunksOf_slice {text : Bytes} {pos n len : Nat} (hlen : len ≤ text.length) (hlt : pos < len)
    (hn : n = if len - pos > maxChunk then maxChunk else len - pos) :
    chunksOf (slice text pos (len - pos)) = slice text pos n :: chunksOf (slice text (pos + n) (len - (pos + n))) := by
  have hne : slice text pos (len - pos) ≠ [] := by
    have hl : (slice text pos (len - pos)).length = len - pos := length_slice (by omega)
    rw [← List.length_pos_iff, hl]
    omega
  have htake : (slice text pos (len - pos)).take maxChunk = slice text pos n := by
    rw [slice, List.take_take, slice]
    congr 1
    split at hn <;> omega
  have hdrop : (slice text pos (len - pos)).drop maxChunk = slice text (pos + n) (len - (pos + n)) := by
    rw [slice, List.drop_take, List.drop_drop, slice]
    split at hn
    · rw [hn, Nat.sub_sub]
    · rw [Nat.sub_eq_zero_of_le (by omega), Nat.sub_eq_zero_of_le (by omega), List.take_zero, List.take_zero]
  rw [chunksOf, if_neg hne, htake, hdrop]

/-- The chunks of what is left are sent. -/
theorem heard_chunks {t : State} {evs : List Event} (sent : Bool) (seq : Nat) {len pos fuel : Nat} {text : Bytes}
    (hlen : len ≤ text.length) (hmax : len ≤ intMax) (hfuel : len ≤ pos + fuel) (h : Tracks d t)
    (ho : t.out = s.out ++ evs) : wp (sendChunks sent i seq len text fuel pos)
      (fun ok s' => ok = true ∧ Tracks d s' ∧ s'.out = s.out ++ (evs ++ (chunksOf (slice text pos (len - pos))).map
        fun c => sendBody (dclpBody i seq synDataChunk c))) (fun _ _ => False) t := by
  have hdone : ∀ {pos : Nat} {t : State} {evs : List Event}, len ≤ pos → t.out = s.out ++ evs →
      t.out = s.out ++ (evs ++ (chunksOf (slice text pos (len - pos))).map
        fun c => sendBody (dclpBody i seq synDataChunk c)) := by
    intro pos t evs hle ho
    rw [chunksOf_done hle, List.map_nil, List.append_nil]
    exact ho
  induction fuel generalizing pos t evs with
  | zero =>
    unfold sendChunks
    rw [if_neg (by omega)]
    exact ⟨rfl, h, hdone (by omega) ho⟩
  | succ fuel ih =>
    unfold sendChunks
    by_cases hlt : pos < len
    · rw [if_pos hlt]
      dsimp only
      generalize hn : (if len - pos > maxChunk then maxChunk else len - pos) = n
      have hmaxChunk : maxChunk = 995 := rfl
      have hn' : n ≤ maxChunk ∧ pos + n ≤ len ∧ 0 < n := by split at hn <;> omega
      have hslice : (slice text pos n).length = n := length_slice (by omega)
      have hadds := adds_dclpBody i seq synDataChunk (slice text pos n)
      rw [hslice] at hadds
      rw [if_neg (by omega), wp_bind]
      refine wp_mono (heard_reply hadds (by rw [length_dclpBody, hslice]; omega) sent h ho) ?_ fun _ _ => id
      rintro _ t' ⟨rfl, h', ho'⟩
      rw [if_pos rfl]
      refine wp_mono (ih (by omega) h' ho') ?_ fun _ _ => id
      rintro _ s' ⟨rfl, h'', ho''⟩
      refine ⟨rfl, h'', ?_⟩
      rw [ho'', chunksOf_slice hlen hlt hn.symm, List.map_cons, List.append_assoc]
      rfl
    · rw [if_neg hlt]
      exact ⟨rfl, h, hdone (by omega) ho⟩

/-- All of a clipboard is sent. -/
theorem heard_clipboard {t : State} {evs : List Event} (sent : Bool) {mem text : Bytes}
    (htext : mem.take text.length = text) (hmax : text.length ≤ intMax) (h : Tracks d t) (ho : t.out = s.out ++ evs) :
    wp (uSynergySendClipboard sent i text.length mem) (fun _ s' => Tracks d s' ∧
      s'.out = s.out ++ (evs ++ transferEvents i d.sequence text.length (chunksOf text))) (fun _ _ => False) t := by
  have hdec : (decimal text.length).length ≤ 10 := length_decimal_le (Nat.lt_of_le_of_lt hmax (by decide))
  have hlen : text.length ≤ mem.length := by
    have := congrArg List.length htext
    rw [List.length_take] at this
    omega
  unfold uSynergySendClipboard
  rw [wp_bind, wp_get, wp_bind, h.sequence]
  refine wp_mono (heard_reply (adds_dclpBody i d.sequence synDataStart (decimal text.length))
    (by rw [length_dclpBody]; omega) sent h ho) ?_ fun _ _ => id
  rintro _ t₁ ⟨rfl, h₁, ho₁⟩
  rw [if_pos rfl, wp_bind]
  refine wp_mono (heard_chunks sent d.sequence hlen hmax (by omega) h₁ ho₁) ?_ fun _ _ => id
  rintro _ t₂ ⟨rfl, h₂, ho₂⟩
  rw [if_pos rfl, wp_bind]
  refine wp_mono (heard_reply (adds_dclpEnd i d.sequence) (by rw [length_dclpBody]; decide) sent h₂ ho₂) ?_
    fun _ _ => id
  rintro _ t₃ ⟨-, h₃, ho₃⟩
  refine ⟨h₃, ?_⟩
  have hslice : slice mem 0 (text.length - 0) = text := htext
  rw [ho₃, hslice]
  simp only [transferEvents, List.append_assoc, List.cons_append, List.nil_append]

/-- What is owed is sent, and then it is no longer owed. -/
theorem heard_settle {t : State} {evs : List Event} (e : MsgEnv) (h : Tracks d t) (ho : t.out = s.out ++ evs) :
    wp (sendGrabbed e i) (fun _ s' => Tracks { d with owed := Function.update d.owed i none } s' ∧
      s'.out = s.out ++ (evs ++ d.settle i)) (fun _ _ => False) t := by
  have hc := h.clip i
  unfold sendGrabbed
  rw [wp_bind, wp_get, wp_ite]
  cases howed : d.owed i with
  | none =>
    have hfree := hc.free howed
    rw [if_neg (by rw [hfree]; decide), wp_pure, Desk.settle, howed, List.append_nil]
    refine ⟨?_, ho⟩
    rw [← howed, Function.update_eq_self]
    exact h
  | some text =>
    have hcopy := hc.copy text howed
    have hmod : (t.ctx.clip i).pos % 2 ^ 32 = text.length := by
      have hmax : intMax = 2 ^ 31 - 1 := rfl
      have := hcopy.small
      rw [hcopy.pos]
      omega
    rw [if_pos hcopy.grabbed, hmod, wp_bind]
    refine wp_mono (heard_clipboard e.sent hcopy.bytes hcopy.small h ho) ?_ fun _ _ => id
    rintro _ t' ⟨h', ho'⟩
    rw [wp_setClip, Desk.settle, howed]
    exact ⟨h'.slot_owed (h'.clip i).released, ho'⟩

namespace Serves

theorem leave : Serves .leave := by
  rintro d s msg e h hmsg - - -
  refine wp_packet (p := .cout) (v := []) hmsg e ?_
  show wp (processCout e) _ _ s
  unfold processCout
  have h₀ : Tracks { d with captured := false } { s with ctx := { s.ctx with isCaptured := false } } :=
    { h with captured := rfl }
  rw [wp_bind, wp_setCtx, wp_bind]
  refine wp_mono (heard_settle e h₀ s.out_append_nil) ?_ fun _ _ => id
  rintro _ s₁ ⟨h₁, ho₁⟩
  rw [wp_bind]
  refine wp_mono (heard_settle e h₁ ho₁) ?_ fun _ _ => id
  rintro _ s₂ ⟨h₂, ho₂⟩
  have hnone : Function.update (Function.update d.owed 0 none) 1 none = fun _ => none := by
    funext i
    match i with
    | 0 => rfl
    | 1 => rfl
  dsimp only at h₂
  rw [hnone] at h₂
  have htell : screenActiveCallback s₂.ctx false = tell d.callbacks.screenActive (.screenActive false) := by
    rw [screenActiveCallback, h₂.callbacks]
    rfl
  have hsettle : Desk.settle { d with captured := false, owed := Function.update d.owed 0 none } 1 = d.settle 1 := rfl
  rw [wp_bind, wp_get, wp_bind, wp_emits, htell]
  refine heard_cnop e (h₂.told _) ?_
  show s₂.out ++ _ = _
  have hboth : (List.finRange 2).flatMap d.settle = d.settle 0 ++ d.settle 1 := by simp [List.finRange_succ]
  rw [ho₂, hsettle, List.nil_append, List.append_assoc, hboth]
  rfl

end Serves

/-! ### Receiving a clipboard -/

section
variable {c : ClipSlot} {e : MsgEnv} {Q : Unit → State → Prop} {E : Stop → State → Prop}

/-- A start message makes room, and answers. -/
theorem wp_dclpStart {text : Bytes} {n : Nat} (htext : text.length + 1 < 2 ^ 32)
    (hp : payload msg text.length = some text) (hn : atoi text = n) (hsmall : n < 2 ^ 31) (he : e.Serves)
    (h : ∀ buf, (s.ctx.clip i).Room e.heap n buf → wp (replyCnop e) Q E (s.setSlot i ((s.ctx.clip i).started buf n))) :
    wp (dclpStart e i text.length msg) Q E s := by
  have hexpect : sizeOfInt (atoi ((some text).getD ((List.range text.length).map e.stack))) = n := by
    rw [Option.getD_some, hn, sizeOfInt]
    omega
  have hgrants := he.grants n hsmall
  unfold dclpStart
  rw [wp_bind, wp_setClip, wp_ite, if_neg (by omega), wp_bind]
  refine wp_copyOut ?_ ?_
  · rw [hp]
    simp only [hexpect, wp_bind, wp_setClip, wp_get, State.setSlot_self, State.setSlot_setSlot]
    split
    · rename_i hgt
      rw [wp_bind]
      refine wp_mono (growClip_spec _ _ _ _) ?_ ?_
      · rintro _ s₁ ⟨b, hb, rfl⟩
        simp only [State.setSlot_self, State.setSlot_setSlot] at hb ⊢
        exact h (some b) ((if_pos hgt).mpr ⟨b, hb, rfl⟩)
      · rintro _ _ ⟨-, hnone⟩
        rw [xrealloc, if_pos ⟨by omega, hgrants⟩] at hnone
        cases hnone
    · rename_i hle
      exact h _ ((if_neg hle).mpr rfl)
  · rintro ⟨b, hb⟩
    rw [payload, hb] at hp
    cases hp

/-- An end message passes the formats on, and answers if they are complete. -/
theorem wp_dclpEnd (hc : (s.ctx.clip i).Sized) (hstr : (s.ctx.clip i).inStream = true)
    (hdone : (readClipboard (s.ctx.clip i).contents).2 = true →
      wp (replyCnop e) Q E ((s.delivered i).setSlot i { s.ctx.clip i with inStream := false }))
    (hbad : (readClipboard (s.ctx.clip i).contents).2 = false → Q () (s.delivered i)) :
    wp (dclpEnd e i) Q E s := by
  have hcap := hc.expect hstr
  have hlt := hc.cap
  have h := ClipSlot.carries hcap
  have hlen : (s.ctx.clip i).contents.length = (s.ctx.clip i).posExpect := by
    rw [ClipSlot.contents, List.length_take]
    exact Nat.min_eq_left hcap
  unfold dclpEnd
  rw [wp_bind, wp_get, wp_parse, sspNetU32, h.eq_at, h.wp_sspNetInt (by decide)]
  by_cases h4 : 0 + 4 ≤ (s.ctx.clip i).contents.length
  · have hread : readClipboard (s.ctx.clip i).contents =
        readFormats (beNat (slice (s.ctx.clip i).contents 0 4)) ((s.ctx.clip i).contents.drop (0 + 4)) := by
      rw [readClipboard, if_neg (by omega)]
      rfl
    rw [if_pos h4, wp_bind]
    refine wp_mono (dclpFormats_spec h (by omega) i _ _ (0 + 4) h4 s) ?_ fun _ _ => False.elim
    rintro b s₁ ⟨rfl, rfl⟩
    unfold State.delivered at hdone hbad
    rw [hread] at hdone hbad
    rw [wp_ite]
    split
    · rename_i hok
      rw [wp_bind, wp_setClip]
      exact hdone hok
    · rename_i hno
      exact hbad (eq_false_of_ne_true hno)
  · have hread : readClipboard (s.ctx.clip i).contents = ([], false) := by
      rw [readClipboard, if_pos (by omega)]
    rw [if_neg h4]
    unfold State.delivered at hbad
    rw [hread] at hbad
    have hnone : formatEvents s.ctx.callbacks.clipboard i ([], false) = [.parseError] := by
      cases s.ctx.callbacks.clipboard <;> rfl
    rw [hnone] at hbad
    exact hbad rfl

theorem ClipSlot.Receives.of_started {n : Nat} {h : Heap} {buf : Option Bytes} (hc : c.Sized) (hroom : c.Room h n buf)
    (hpos : 0 < n) (hsmall : n < 2 ^ 31) : (c.started buf n).Receives n [] := by
  refine ⟨rfl, rfl, ?_, rfl, hsmall, rfl, rfl⟩
  rintro hbuf
  have hlen := (hroom.length hc).1
  rw [show buf = none from hbuf] at hlen
  exact absurd hlen (by simp; omega)

theorem ClipSlot.Receives.sizeAdd_eq {n : Nat} {got text : Bytes} (h : c.Receives n got)
    (hfit : got.length + text.length < 2 ^ 64) : sizeAdd c.pos text.length = got.length + text.length := by
  rw [h.pos, Waynergy.sizeAdd_eq hfit]

theorem ClipSlot.Receives.chunked {n : Nat} {got text : Bytes} (h : c.Receives n got) (hcap : got.length ≤ c.cap)
    (hfit : got.length + text.length ≤ n) : (c.chunked (some text) text.length).Receives n (got ++ text) := by
  have hsmall := h.small
  have hstore : c.store (some text) = some (overwrite c.mem got.length text) := by
    rw [ClipSlot.store, if_neg, h.pos]
    rintro ⟨hnull, -⟩
    exact h.buf hnull
  refine ⟨h.stream, h.free, ?_, h.expect, h.small, ?_, ?_⟩
  · show c.store (some text) ≠ none
    rw [hstore]
    exact Option.some_ne_none _
  · show sizeAdd c.pos text.length = _
    rw [h.sizeAdd_eq (by omega), List.length_append]
  · show ((c.store (some text)).getD []).take _ = _
    rw [hstore, Option.getD_some, List.length_append, take_overwrite hcap, h.bytes]

end

namespace Serves

theorem clipSize (i : Fin 2) (seq : UInt32) (n : Nat) : Serves (.clipboard i seq (.size n)) := by
  rintro d s msg e h hmsg hlen ⟨hpos, hsmall⟩ he
  have hdec : (decimal n).length ≤ 10 := length_decimal_le (by omega)
  have hc := h.clip i
  change Carries msg (dclpBody i seq.toNat synDataStart (decimal n)) at hmsg
  rw [wp_dclp hmsg (by decide) (by omega), if_pos rfl]
  refine wp_dclpStart (by omega) (payload_dclpBody hmsg (by omega)) (atoi_decimal hsmall) hsmall he ?_
  intro buf hroom
  have hslot : SlotTracks (some (n, [])) none (d.seen i) (d.longest i) ((s.ctx.clip i).started buf n) := by
    refine ⟨hc.sized.started hroom, ?_, ?_, fun _ => rfl, ?_, ?_, hc.longest⟩
    · rintro hnone
      cases hnone
    · intro n' got hin
      cases hin
      exact .of_started hc.sized hroom hpos hsmall
    · rintro text howed
      cases howed
    · rintro hnone
      cases hnone
  exact heard_cnop e (h.slot_started hslot) s.out_append_nil

theorem clipChunk (i : Fin 2) (seq : UInt32) (text : Bytes) : Serves (.clipboard i seq (.chunk text)) := by
  rintro d s msg e h hmsg hlen - -
  change Carries msg (dclpBody i seq.toNat synDataChunk text) at hmsg
  change (dclpBody i seq.toNat synDataChunk text).length < _ at hlen
  rw [length_dclpBody] at hlen
  have hc := h.clip i
  rw [wp_dclp hmsg (by decide) (by omega), if_neg (by decide), if_pos rfl, Desk.hear, Desk.hearClip]
  cases hin : d.incoming i with
  | none =>
    rw [if_neg (by rw [hc.idle hin]; decide)]
    exact heard_cnop e h s.out_append_nil
  | some part =>
    obtain ⟨n, got⟩ := part
    have hr := hc.stream n got hin
    have hsmall := hr.small
    have hcap := hc.sized.expect hr.stream
    have hle := hc.sized.pos hr.stream
    have hn := hr.expect
    have hgot := hr.pos
    have hadd : sizeAdd (s.ctx.clip i).pos text.length = got.length + text.length := hr.sizeAdd_eq (by omega)
    rw [if_pos hr.stream]
    unfold dclpChunk
    rw [wp_bind, wp_get, wp_ite, hadd, hn]
    by_cases hlong : n < got.length + text.length
    · rw [if_pos hlong, wp_pure]
      simp only [if_pos hlong]
      exact .of_tracks h (List.append_nil _).symm
    · rw [if_neg hlong, wp_bind]
      simp only [if_neg hlong]
      refine wp_mono (storeChunk_spec i text.length (msg.at 14) s) ?_ ?_
      · rintro _ s₁ rfl
        rw [payload_dclpBody hmsg (by omega)]
        simp only [wp_bind, wp_setClip, State.setSlot_self, State.setSlot_setSlot]
        have haccept : (s.ctx.clip i).Accepts text.length := ⟨hr.stream, by omega⟩
        have hslot : SlotTracks (some (n, got ++ text)) (d.owed i) (d.seen i) (d.longest i)
            ((s.ctx.clip i).chunked (some text) text.length) := by
          refine ⟨hc.sized.chunked haccept (by omega) (by rintro _ ⟨⟩; rfl), ?_, ?_, fun _ => hr.free, ?_, ?_,
            hc.longest⟩
          · rintro hnone
            cases hnone
          · intro n' got' hin'
            cases hin'
            exact hr.chunked (by omega) (by omega)
          · intro text' howed
            have hgrab := (hc.copy text' howed).grabbed
            rw [hr.free] at hgrab
            cases hgrab
          · rintro hnone
            cases hnone
        exact heard_cnop e (h.slot_incoming hslot) s.out_append_nil
      · rintro stop _ (⟨-, hout⟩ | ⟨-, hout⟩)
        · exact hmsg.not_outside (by omega) hout
        · omega

theorem clipDone (i : Fin 2) (seq : UInt32) : Serves (.clipboard i seq .done) := by
  rintro d s msg e h hmsg hlen hadmits -
  change Carries msg (dclpBody i seq.toNat synDataEnd []) at hmsg
  have hc := h.clip i
  rw [wp_dclp hmsg (by decide) (by decide), if_neg (by decide), if_neg (by decide), if_pos rfl, Desk.hear,
    Desk.hearClip]
  cases hin : d.incoming i with
  | none =>
    rw [if_neg (by rw [hc.idle hin]; decide)]
    exact heard_cnop e h s.out_append_nil
  | some part =>
    obtain ⟨n, got⟩ := part
    have hr := hc.stream n got hin
    have hcontents : (s.ctx.clip i).contents = got := by
      rw [ClipSlot.contents, hr.expect, ← hadmits n got hin, hr.bytes]
    rw [if_pos hr.stream]
    refine wp_dclpEnd hc.sized hr.stream ?_ ?_
    all_goals
      unfold State.delivered
      rw [hcontents, h.callbacks]
      rintro hread
      simp only [hread, Bool.false_eq_true, if_true, if_false]
    · have hslot : SlotTracks none (d.owed i) got (d.longest i) { s.ctx.clip i with inStream := false } := by
        refine ⟨⟨hc.sized.len, hc.sized.cap, by rintro ⟨⟩, by rintro ⟨⟩⟩, fun _ => rfl, ?_, fun _ => hr.free, ?_,
          fun _ => ?_, hc.longest⟩
        · rintro n' got' hnone
          cases hnone
        · intro text howed
          have hgrab := (hc.copy text howed).grabbed
          rw [hr.free] at hgrab
          cases hgrab
        · rw [← hr.bytes]
          exact List.take_prefix _ _
      refine heard_cnop (s := s) e ((h.slot_seen hslot).told _) ?_
      rw [formatEvents, hread, if_pos rfl, List.append_nil]
      rfl
    · refine .of_tracks (h.told _) ?_
      rw [formatEvents, hread]
      rfl

/-- Every message is served. -/
theorem all (m : ServerMsg) : Serves m := by
  cases m with
  | hello imp major minor => exact hello imp major minor
  | queryInfo => exact queryInfo
  | infoAck => exact infoAck
  | resetOptions => exact resetOptions
  | enter x y seq mask => exact enter x y seq mask
  | leave => exact leave
  | screensaver on => exact screensaver on
  | mouseDown button => exact mouseDown button
  | mouseUp button => exact mouseUp button
  | mouseMove x y => exact mouseMove x y
  | mouseRelMove x y => exact mouseRelMove x y
  | mouseWheel x y => exact mouseWheel x y
  | keyDown id modifiers key => exact keyDown id modifiers key
  | keyRepeat id modifiers count key => exact keyRepeat id modifiers count key
  | keyUp id modifiers key => exact keyUp id modifiers key
  | joystickButtons joyNum state => exact joystickButtons joyNum state
  | joystickSticks joyNum a b c d => exact joystickSticks joyNum a b c d
  | setOptions options => exact setOptions options
  | keepAlive => exact keepAlive
  | grabClipboard i seq => exact grabClipboard i seq
  | clipboard i seq part =>
    cases part with
    | size n => exact clipSize i seq n
    | chunk text => exact clipChunk i seq text
    | done => exact clipDone i seq
  | close => exact close
  | incompatible => exact incompatible
  | busy => exact busy

end Serves

/-! ### Local events -/

/-- What the client hears of a local event. -/
def LocalEvent.input : LocalEvent → Input
  | clipBuf _ _ i data => .copy i data
  | res _ width height => .resize width height

theorem heard_resize (h : Tracks d s) (sent : Bool) (width height : Nat) :
    wp (uSynergyUpdateRes sent width height) (fun _ s' => Heard (d.take (.resize width height)) s s')
      (fun _ _ => False) s := by
  have hw : ((width : Int) % 65536).toNat = width % 65536 := by omega
  have hh : ((height : Int) % 65536).toNat = height % 65536 := by omega
  have hset : Replying [] { s with ctx := { s.ctx with
      clientWidth := width % 65536, clientHeight := height % 65536 } } := .base h.cur
  unfold uSynergyUpdateRes
  rw [wp_bind, wp_setCtx, wp_bind, wp_get, wp_ite, hw, hh, if_pos h.up]
  refine wp_mono (finishes_dinf sent _ _ (by decide) _ hset) ?_ fun _ _ => id
  rintro _ _ ⟨b, rfl⟩
  have hcfg := congrArg (fun c : Config => { c with clientWidth := width % 65536, clientHeight := height % 65536 })
    h.config
  exact .of_tracks { h with config := hcfg, info := rfl, cur := rfl } rfl

theorem wordAt_of_front {bs block : Bytes} {p : Nat} (h : bs <+: block) (hp : p + 4 ≤ bs.length) :
    wordAt block p = wordAt bs p := by
  obtain ⟨more, rfl⟩ := h
  exact wordAt_append hp

/-- As far as the places are inside what was seen and the recorded size `len`, the loop looks at what was seen. -/
theorem containsLoop_of_seen {seen block data : Bytes} {len n p : Nat} {b : Bool} (hseen : seen <+: block)
    (hlen : len ≤ block.length) (hcap : block.length < 2 ^ 63) (hp : p ≤ len)
    (hin : p + 8 * min n ((len - p) / 8) ≤ seen.length) (hlooks : looks seen data (min n ((len - p) / 8)) p = some b) :
    (containsLoop data n ⟨block, p, len⟩).run s = .ok b s := by
  have htake : (block.take len).length = len := by rw [List.length_take, Nat.min_eq_left hlen]
  induction n generalizing p with
  | zero =>
    rw [Nat.zero_min] at hlooks
    cases hlooks
    rfl
  | succ n ih =>
    have hfield := sizeField_run (List.take_prefix len block) (p := p) (by omega) (by omega)
    rw [htake] at hfield
    rcases hfield with ⟨_, hrun, hout⟩ | ⟨hrun, hword⟩
    · -- the size field is behind the recorded size
      have hnone : (len - p) / 8 = 0 := Nat.div_eq_of_lt (by omega)
      rw [hnone, Nat.min_zero] at hlooks
      cases hlooks
      rw [containsLoop, hrun]
      rfl
    · have hdiv : (len - p) / 8 = (len - (p + 8)) / 8 + 1 := by omega
      rw [hdiv, Nat.add_min_add_right] at hin hlooks
      have hsize : wordAt (block.take len) (p + 4) = wordAt seen (p + 4) := by
        rw [← wordAt_of_front (List.take_prefix len block) (by omega), wordAt_of_front hseen (by omega)]
      rw [containsLoop, hrun, hsize]
      dsimp only
      rw [looks] at hlooks
      by_cases hann : Announces seen data p
      · rw [if_pos hann] at hlooks
        rw [if_pos hann.2]
        by_cases hover : seen.length < p + 8 + data.length
        · rw [if_pos hover] at hlooks
          cases hlooks
        · have hle := hseen.length_le
          rw [if_neg hover] at hlooks
          rw [if_neg (by omega), (carries_of_front hseen).slice_eq (by omega)]
          split
          · rename_i hdata
            rw [if_pos hdata] at hlooks
            cases hlooks
            rfl
          · rename_i hdata
            rw [if_neg hdata] at hlooks
            exact ih hword (by omega) hlooks
      · rw [if_neg hann] at hlooks
        rw [if_neg fun h => hann ⟨by omega, h⟩]
        exact ih hword (by omega) hlooks

/-- The duplicate check answers what the desk says. -/
theorem Tracks.contains (h : Tracks d s) {data : Bytes} {b : Bool} (hfinds : d.finds i data = some b) :
    (uSynergyClipBufContains i data).run s = .ok b s := by
  have hc := h.clip i
  have hsized := hc.sized
  unfold uSynergyClipBufContains
  rw [EStateM.run_bind, EStateM.run_get]
  dsimp only
  unfold Desk.finds at hfinds
  cases hbuf : (s.ctx.clip i).buf with
  | none =>
    have hcap : (s.ctx.clip i).cap = 0 := by rw [ClipSlot.cap, ClipSlot.mem, hbuf]; rfl
    have hlong : d.longest i < 4 := by
      have := hsized.len
      rw [hcap, hc.longest] at this
      omega
    rw [if_pos (.inr hlong)] at hfinds
    cases hfinds
    rfl
  | some block =>
    have hmem : (s.ctx.clip i).mem = block := by rw [ClipSlot.mem, hbuf]; rfl
    have hlen : (s.ctx.clip i).len ≤ block.length := hmem ▸ hsized.len
    have hcap : block.length < 2 ^ 63 := hmem ▸ hsized.cap
    dsimp only
    cases hin : d.incoming i with
    | some part =>
      rw [hin, if_pos (.inl rfl)] at hfinds
      cases hfinds
      rw [(hc.stream part.1 part.2 hin).stream]
      rfl
    | none =>
      have hseen : d.seen i <+: block := hmem ▸ hc.seen hin
      have htake := (carries_of_front (List.take_prefix (s.ctx.clip i).len block)).sspTake_run (p := 0) (n := 4)
        (by decide)
      rw [List.length_take, Nat.min_eq_left hlen] at htake
      rw [hc.idle hin, if_neg Bool.false_ne_true, sspNetU32, sspNetInt, EStateM.run_bind,
        show (⟨block, 0, (s.ctx.clip i).len⟩ : SspBuf) = SspBuf.at ⟨block, 0, (s.ctx.clip i).len⟩ 0 from rfl, htake]
      rw [hin, ← hc.longest] at hfinds
      by_cases hfour : (s.ctx.clip i).len < 4
      · rw [if_pos (.inr hfour)] at hfinds
        cases hfinds
        rw [if_neg (by omega)]
        rfl
      · rw [if_neg (by simpa using hfour)] at hfinds
        dsimp only at hfinds
        split at hfinds
        · rename_i hplaces
          have hcount : beNat (slice (block.take (s.ctx.clip i).len) 0 4) = wordAt (d.seen i) 0 := by
            have hword := wordAt_of_front (List.take_prefix (s.ctx.clip i).len block) (p := 0)
              (by rw [List.length_take]; omega)
            rw [wordAt_of_front hseen (by omega)] at hword
            exact hword.symm
          rw [if_pos (by omega)]
          show (containsLoop data (beNat (slice (block.take (s.ctx.clip i).len) 0 4)) ⟨block, 4, _⟩).run s = _
          rw [hcount]
          exact containsLoop_of_seen hseen hlen hcap (Nat.le_of_not_lt hfour) hplaces hfinds
        · cases hfinds

theorem SlotTracks.updated {c : ClipSlot} {longest : Nat} {hp : Heap} {buf : Option Bytes} {data : Bytes}
    (hc : c.Sized) (hlongest : c.len = longest) (hroom : c.Room hp ((data.length + 12) % 2 ^ 32) buf)
    (hfits : data.length + 12 ≤ (buf.getD []).length) (hshort : data.length + 12 < 2 ^ 31) :
    SlotTracks none (some (encodeText data)) (encodeText data) (max longest (data.length + 12))
      (c.updated (buf.getD []) data) := by
  have hcopy : (c.updated (buf.getD []) data).HoldsCopy data := HoldsCopy.updated hshort
  have hmax : intMax = 2 ^ 31 - 1 := rfl
  have hmod : (data.length + 12) % 2 ^ 32 = data.length + 12 := Nat.mod_eq_of_lt (by omega)
  have hfront := hcopy.front
  rw [hcopy.pos, ← length_encodeText] at hfront
  refine ⟨hc.updated hroom hfits, fun _ => rfl, ?_, ?_, ?_, fun _ => ?_, ?_⟩
  · intro n got hin
    cases hin
  · intro howed
    cases howed
  · rintro text howed
    cases howed
    exact ⟨rfl, rfl, by rw [hcopy.pos, length_encodeText], by rw [length_encodeText]; omega, hfront⟩
  · rw [← hfront]
    exact List.take_prefix _ _
  · show max c.len ((data.length + 12) % 2 ^ 32) = _
    rw [hlongest, hmod]

/-- What was kept is found again, and nothing else is. -/
theorem Desk.finds_keep {data data' : Bytes} (hshort : data.length + 12 < 2 ^ 32) :
    (d.keep i data).finds i data' = some (decide (data' = data)) := by
  have hcount : wordAt (encodeText data) 0 = 1 := rfl
  have hsize : wordAt (encodeText data) (4 + 4) = data.length := by
    have hword : wordAt (encodeText data) 8 = beNat (be32 data.length) := rfl
    rw [hword, beNat_be32 (by omega)]
  have hslice : slice (encodeText data) (4 + 8) data.length = data := by
    have hdrop : (encodeText data).drop 12 = data := List.drop_left' rfl
    show ((encodeText data).drop 12).take data.length = data
    rw [hdrop, List.take_length]
  have hone : min 1 ((max (d.longest i) (data.length + 12) - 4) / 8) = 1 := by omega
  have hlen := length_encodeText data
  unfold Desk.finds Desk.keep
  simp only [Function.update_self, hcount, hone, Option.isSome_none, Bool.false_eq_true, false_or]
  rw [if_neg (by omega), if_pos (by omega), looks, looks]
  by_cases hsame : data'.length = data.length
  · rw [if_pos ⟨by omega, by rw [hsize, hsame]⟩, if_neg (by omega), hsame, hslice]
    by_cases hdata : data = data'
    · rw [if_pos hdata, hdata, decide_eq_true rfl]
    · rw [if_neg hdata, decide_eq_false (Ne.symm hdata)]
  · have hother : ¬ Announces (encodeText data) data' 4 := fun h => hsame (h.2.symm.trans hsize)
    rw [if_neg hother, decide_eq_false]
    rintro rfl
    exact hsame rfl
theorem Desk.take_copy {data : Bytes} {b : Bool} (hfinds : d.finds i data = some b) : d.take (.copy i data) =
    if b then (some d, []) else (some (d.keep i data), [sendBody (cclpBody i d.sequence)]) := by
  rw [Desk.take, hfinds]
  cases b <;> rfl

/-- A local copy is passed over if it is not new, and is kept and announced otherwise. -/
theorem heard_copy {hp : Heap} (h : Tracks d s) (hgrants : ∀ n < 2 ^ 31, hp.ok n = true) (sent : Bool) {data : Bytes}
    (hadmits : d.Admits (.copy i data)) : wp (uSynergyUpdateClipBuf hp sent i data)
      (fun _ s' => Heard (d.take (.copy i data)) s s') (fun _ _ => False) s := by
  obtain ⟨hshort, hknown⟩ := hadmits
  obtain ⟨b, hfinds⟩ := Option.ne_none_iff_exists'.mp hknown
  have hrun := h.contains hfinds
  rw [Desk.take_copy hfinds]
  cases b with
  | true =>
    refine wp_mono (updateClipBuf_duplicate hp sent hrun) ?_ fun _ _ => id
    rintro _ s' rfl
    exact .of_tracks h (List.append_nil _).symm
  | false =>
    have hc := h.clip i
    have hmod : (data.length + 12) % 2 ^ 32 = data.length + 12 := Nat.mod_eq_of_lt (by omega)
    refine wp_updateClipBuf hrun (fun buf hroom hlarge => ?_) (fun _ hnone => ?_) fun buf _ hroom hsmall => ?_
    · have ht := h.slot (i := i) (SlotTracks.updated hc.sized hc.longest hroom hlarge hshort)
      have hadds := (Adds.sAddBin (ascii ['C', 'C', 'L', 'P'])).and ((Adds.sAddBin [UInt8.ofNat i]).and
        (Adds.sAddBin (be32 d.sequence)))
      rw [h.sequence]
      refine wp_mono (heard_reply hadds (Nat.le_of_ble_eq_true rfl) sent ht s.out_append_nil) ?_ fun _ _ => id
      rintro _ s' ⟨-, h', ho⟩
      exact .of_tracks h' ho
    · rw [xrealloc, if_pos ⟨by omega, hgrants _ (by omega)⟩] at hnone
      cases hnone
    · have hlen := (hroom.length hc.sized).1
      omega

end Waynergy
