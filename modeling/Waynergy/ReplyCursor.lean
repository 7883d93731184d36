import Waynergy.Frames
import Waynergy.Session

/-!
# The reply cursor (`uSynergy.c`)

Every builder of a reply stops in the middle if the buffer is full, and then nothing resets the cursor. All replies
fit but the HelloBack with a name that is too long, so the cursor is at its base again after everything but that.
-/

namespace Waynergy
open Lib

/-! ### Operations -/

/-- The operations that build replies. -/
inductive ReplyOp
  | message (e : MsgEnv) (mem : Bytes) (len : Nat)
  | sendClipboard (sent : Bool) (i : Fin 2) (len : Fin (2 ^ 32)) (text : Bytes)
  | updateClipBuf (h : Heap) (sent : Bool) (i : Fin 2) (data : Bytes)
  | updateRes (sent : Bool) (width height : Int)

namespace ReplyOp

def exec : ReplyOp → Syn Unit
  | .message e mem len => sProcessMessage e ⟨mem, 0, len⟩
  | .sendClipboard sent i len text => uSynergySendClipboard sent i len text
  | .updateClipBuf h sent i data => uSynergyUpdateClipBuf h sent i data
  | .updateRes sent width height => uSynergyUpdateRes sent width height

/-- A hello with its version numbers. -/
def greets : ReplyOp → Bool
  | .message _ mem len => isHello ⟨mem, 0, len⟩ && decide (11 ≤ len)
  | _ => false

end ReplyOp

/-! ### What keeps the cursor at its base -/

/-- A cursor at its base is there again. -/
def CurRests (s s' : State) : Prop := s.ctx.replyCur = 4 → s'.ctx.replyCur = 4

instance : Frame CurRests := ⟨fun _ => id, fun h h' => h' ∘ h⟩

theorem rests_kept : KeptByReply CurRests where
  muted _ _ h := h.cur
  reply hb hadds hv sent s :=
    wp_mono (reply_fits hadds hb sent (hv []).length.2 s) (fun _ _ h => h.base) fun _ _ => False.elim

variable {s : State}

/-- The result of a builder is not looked at. -/
theorem wp_builder {m : Syn Bool} {k : Syn Unit} {Q : Unit → State → Prop} {E : Stop → State → Prop}
    (hm : Builder m) (hk : ∀ s', wp k Q E s') : wp (m >>= fun _ => k) Q E s := by
  rw [wp_bind]
  exact wp_mono (hm s) (fun _ s' _ => hk s') fun _ _ => False.elim

theorem updateRes_rests (sent : Bool) (width height : Int) : wp (uSynergyUpdateRes sent width height)
    (fun _ s' => CurRests s s') (fun _ _ => True) s := by
  unfold uSynergyUpdateRes
  rw [wp_bind, wp_setCtx, wp_bind, wp_get, wp_ite]
  split
  · -- what is sent may be cut short, but the cursor is reset
    refine wp_builder (.sAddBin _) fun _ => wp_builder (.sAddBin _) fun _ => wp_builder (.sAddBin _) fun _ =>
      wp_builder (.sAddBin _) fun _ => wp_builder (.sAddBin _) fun _ => wp_builder (.sAddBin _) fun _ =>
      wp_builder (.sAddBin _) fun _ => wp_builder (.sAddBin _) fun _ => ?_
    exact fun _ => rfl
  · exact id

/-! ### A HelloBack -/

/-- A part of a reply that fits moves the cursor, and one that does not leaves it. -/
theorem sAddBin_cur (v : Bytes) : wp (sAddBin v)
    (fun ok s' => ok = decide (s.ctx.replyCur + v.length ≤ replyBufferSize) ∧
      s'.ctx.replyCur = if ok then s.ctx.replyCur + v.length else s.ctx.replyCur) (fun _ _ => False) s := by
  rw [wp_sAddBin]
  split
  · rename_i hfull
    exact ⟨(decide_eq_false (Nat.not_le.mpr hfull)).symm, rfl⟩
  · rename_i hfits
    exact ⟨(decide_eq_true (Nat.le_of_not_gt hfits)).symm, rfl⟩

/-- The cursor behind the parts that fit, of which the last is behind `n` bytes. -/
theorem and_cur {v : Bytes} {n : Nat} {m : Syn Bool} {P : Nat → Prop} (hcur : s.ctx.replyCur = n)
    (hfits : n + v.length ≤ replyBufferSize)
    (hm : ∀ s', s'.ctx.replyCur = n + v.length →
      wp m (fun ok s' => ok = false ∧ P s'.ctx.replyCur) (fun _ _ => False) s') :
    wp (sAddBin v <&&> m) (fun ok s' => ok = false ∧ P s'.ctx.replyCur) (fun _ _ => False) s := by
  rw [wp_andM]
  refine wp_mono (sAddBin_cur v) ?_ fun _ _ => id
  rintro ok s' ⟨hok, hcur'⟩
  rw [hcur] at hok hcur'
  rw [decide_eq_true hfits] at hok
  subst hok
  rw [if_pos rfl]
  exact hm s' hcur'

/-- With a name that is too long, the cursor stays behind its length. -/
theorem addHelloBack_cur {imp name : Bytes} (himp : imp ∈ sImplementations) (hname : maxName < name.length)
    (hcur : s.ctx.replyCur = 4) : wp (Speaking.addHelloBack imp name) (fun ok s' => ok = false ∧ s'.ctx.replyCur = 19)
      (fun _ _ => False) s := by
  have hsize : replyBufferSize = 1024 := rfl
  have hmax : maxName = 1005 := rfl
  have himp := Outgoing.length_imp himp
  refine and_cur (P := (· = 19)) hcur (by omega) fun s₁ h₁ => ?_
  refine and_cur (P := (· = 19)) h₁ (by rw [length_be16]; omega) fun s₂ h₂ => ?_
  refine and_cur (P := (· = 19)) h₂ (by rw [length_be16, length_be16]; omega) fun s₃ h₃ => ?_
  refine and_cur (P := (· = 19)) h₃ (by rw [length_be16, length_be16, length_be32]; omega) fun s₄ h₄ => ?_
  rw [length_be16, length_be16, length_be32] at h₄
  refine wp_mono (sAddBin_cur name) ?_ fun _ _ => id
  rintro ok s' ⟨hok, hcur'⟩
  rw [decide_eq_false (by omega)] at hok
  subst hok
  refine ⟨rfl, ?_⟩
  rw [hcur', if_neg (by decide)]
  omega

theorem wp_sspTake {Q : Bytes → SspBuf → Prop} {E : ParseFail → SspBuf → Prop} {mem : Bytes} {pos len n : Nat} :
    wp (sspTake n) Q E ⟨mem, pos, len⟩ ↔ if sizeAdd pos n > len then E .short ⟨mem, pos, len⟩
      else if mem.length < pos + n then E .outside ⟨mem, pos, len⟩
      else Q (slice mem pos n) ⟨mem, pos + n, len⟩ := by
  unfold sspTake
  rw [wp_bind, wp_get, wp_ite, wp_ite]
  rfl

theorem versions_spec (mem : Bytes) (len : Nat) : wp (do let _ ← sspNetU16; sspNetU16 : Parse Nat)
    (fun _ _ => 11 ≤ len) (fun fail _ => fail = .short ∧ len < 11 ∨ fail = .outside ∧ mem.length < 11)
    ⟨mem, 7, len⟩ := by
  have h9 : sizeAdd 7 2 = 9 := rfl
  have h11 : sizeAdd (7 + 2) 2 = 11 := rfl
  unfold sspNetU16 sspNetInt
  rw [wp_bind, wp_bind, wp_sspTake, h9]
  split
  · exact .inl ⟨rfl, by omega⟩
  · split
    · exact .inr ⟨rfl, by omega⟩
    · rw [wp_pure, wp_bind, wp_sspTake, h11]
      split
      · exact .inl ⟨rfl, by omega⟩
      · split
        · exact .inr ⟨rfl, by omega⟩
        · rw [wp_pure]
          omega

/-- A HelloBack that is too long is not sent, and what was built of it is left. -/
theorem processHello_leaves {e : MsgEnv} {imp mem : Bytes} (himp : imp ∈ sImplementations) {len : Nat}
    (hlen : 11 ≤ len) (hmem : 11 ≤ mem.length) (hname : maxName < s.ctx.clientName.length) :
    wp (processHello e imp ⟨mem, 7, len⟩)
      (fun _ s' => s'.ctx.replyCur = 19 ∧ s'.ctx.connected = s.ctx.connected) (fun _ _ => False) s := by
  unfold processHello
  rw [wp_parse]
  refine wp_mono (versions_spec mem len) ?_ ?_
  · intro _ _ _
    rw [wp_bind, wp_setCtx, wp_bind, wp_get, wp_bind]
    refine wp_mono (wp_and (addHelloBack_cur himp hname rfl) (Speaking.builder_addHelloBack imp s.ctx.clientName _))
      ?_ fun _ _ => And.left
    rintro _ s' ⟨⟨rfl, hcur⟩, ⟨⟨b, n, hctx⟩, -⟩, -⟩
    exact ⟨hcur, by rw [hctx]⟩
  · rintro _ _ (⟨-, hshort⟩ | ⟨-, hshort⟩) <;> omega

/-- A hello that has its version numbers is answered if the name fits, and otherwise the HelloBack is not built. -/
theorem processHello_cur {e : MsgEnv} {imp mem : Bytes} (himp : imp ∈ sImplementations) (len : Nat)
    (hcur : s.ctx.replyCur = 4) : wp (processHello e imp ⟨mem, 7, len⟩)
      (fun _ s' => s'.ctx.replyCur = 4 ↔ ¬ (11 ≤ len ∧ maxName < s.ctx.clientName.length))
      (fun _ _ => mem.length < 11) s := by
  unfold processHello
  rw [wp_parse]
  refine wp_mono (versions_spec mem len) ?_ ?_
  · intro _ _ hlen
    rw [wp_bind, wp_setCtx, wp_bind, wp_get, wp_bind]
    show wp (Speaking.addHelloBack imp s.ctx.clientName) _ _ { s with ctx := { s.ctx with replyCur := 4 } }
    by_cases hname : s.ctx.clientName.length ≤ maxName
    · have hhello : Outgoing s.ctx.clientName (helloBody imp s.ctx.clientName) := .helloBack himp hname
      obtain ⟨b, n, hr, hv⟩ := Speaking.adds_addHelloBack imp s.ctx.clientName []
        { s with ctx := { s.ctx with replyCur := 4 } } (.base rfl) hhello.length.2
      obtain ⟨b', hsend⟩ := hv.sSendReply_run e.sent
      refine wp_of_ok hr ?_
      rw [if_pos rfl, wp_bind]
      refine wp_of_ok hsend ?_
      rw [wp_ite]
      split <;> exact iff_of_true rfl (by omega)
    · refine wp_mono (addHelloBack_cur himp (Nat.lt_of_not_le hname) rfl) ?_ fun _ _ => False.elim
      rintro _ s' ⟨rfl, hcur'⟩
      exact iff_of_false (by rw [hcur']; decide) (not_not_intro ⟨hlen, Nat.lt_of_not_le hname⟩)
  · rintro fail _ (⟨rfl, hlen⟩ | ⟨rfl, hmem⟩)
    · exact iff_of_true hcur (by omega)
    · exact hmem

/-! ### Every operation -/

theorem findWelcome_rest {mem imp : Bytes} {len : Nat} {rest : SspBuf} {imps : List Bytes}
    (himps : ∀ imp ∈ imps, imp.length = 7) (h : findWelcome ⟨mem, 0, len⟩ imps = .ok (some (imp, rest))) :
    rest = ⟨mem, 7, len⟩ := by
  induction imps with
  | nil => cases h
  | cons imp' imps ih =>
    obtain ⟨h7, himps⟩ := List.forall_mem_cons.mp himps
    have hseek : sizeAdd 0 7 = 7 := rfl
    unfold findWelcome at h
    split at h
    · exact ih himps h
    · rename_i hlen
      split at h
      · cases h
      · split at h
        · have hrun : (sspSeek imp'.length).run ⟨mem, 0, len⟩ = .ok () ⟨mem, 7, len⟩ := by
            have hlen : ¬ 7 > len := by rw [← h7]; exact hlen
            unfold sspSeek
            rw [h7, EStateM.run_bind, EStateM.run_get]
            dsimp only
            rw [hseek, if_neg hlen]
            rfl
          rw [hrun] at h
          cases h
          rfl
        · exact ih himps h

theorem message_rests (e : MsgEnv) (mem : Bytes) (len : Nat) (hcur : s.ctx.replyCur = 4) :
    wp (sProcessMessage e ⟨mem, 0, len⟩) (fun _ s' => s'.ctx.replyCur = 4 ↔
      ¬ ((ReplyOp.message e mem len).greets = true ∧ maxName < s.ctx.clientName.length)) (fun _ _ => True) s := by
  have hno : isHello ⟨mem, 0, len⟩ = false → ¬ (ReplyOp.message e mem len).greets = true := by
    intro hhello
    show ¬ (isHello ⟨mem, 0, len⟩ && decide (11 ≤ len)) = true
    rw [hhello]
    exact Bool.false_ne_true
  refine wp_sProcessMessage (fun imp rest hw => ?_) (fun p rest hhello _ => ?_) (fun hhello _ => ?_) fun hhello _ => ?_
  · have himp := Speaking.findWelcome_mem hw
    rw [findWelcome_rest (fun _ => Outgoing.length_imp) hw]
    have hhello : isHello ⟨mem, 0, len⟩ = true := by
      unfold isHello
      rw [hw]
    refine wp_mono (processHello_cur himp len hcur) (fun _ s' hs' => ?_) fun _ _ _ => trivial
    show _ ↔ ¬ ((isHello ⟨mem, 0, len⟩ && decide (11 ≤ len)) = true ∧ _)
    rw [hs', hhello, Bool.true_and, decide_eq_true_eq]
  · refine wp_mono (rests_kept.processPkt e rest p s) (fun _ s' h => ?_) fun _ _ _ => trivial
    exact iff_of_true (h hcur) fun h => hno hhello h.1
  · exact iff_of_true hcur fun h => hno hhello h.1
  · exact iff_of_true hcur fun h => hno hhello h.1

/-- Whatever operation builds a reply, the cursor is at its base again exactly if the operation is not a hello to be
answered with a name that is too long. -/
theorem cursor_at_base_iff (op : ReplyOp) (hcur : s.ctx.replyCur = 4) : wp op.exec
    (fun _ s' => s'.ctx.replyCur = 4 ↔ ¬ (op.greets = true ∧ maxName < s.ctx.clientName.length))
    (fun _ _ => True) s := by
  have hrests : ∀ {m : Syn Unit}, op.greets = false → wp m (fun _ s' => CurRests s s') (fun _ _ => True) s →
      wp m (fun _ s' => s'.ctx.replyCur = 4 ↔ ¬ (op.greets = true ∧ maxName < s.ctx.clientName.length))
        (fun _ _ => True) s := by
    intro m hgreets hm
    refine wp_mono hm (fun _ s' h => iff_of_true (h hcur) ?_) fun _ _ => id
    rw [hgreets]
    exact fun h => Bool.false_ne_true h.1
  cases op with
  | message e mem len => exact message_rests e mem len hcur
  | sendClipboard sent i len text =>
    have h := rests_kept.uSynergySendClipboard i sent len.isLt text s
    exact hrests rfl (wp_mono h (fun _ _ => id) fun _ _ _ => trivial)
  | updateClipBuf h sent i data =>
    have h := rests_kept.uSynergyUpdateClipBuf i h sent data s
    exact hrests rfl (wp_mono h (fun _ _ => id) fun _ _ _ => trivial)
  | updateRes sent width height => exact hrests rfl (updateRes_rests sent width height)

theorem cursor_at_base_iff_updateRes : (State.opened .sample).ctx.replyCur = 4 ∧
    wp (ReplyOp.updateRes true 640 480).exec (fun _ s' => s'.ctx.replyCur = 4 ↔
      ¬ ((ReplyOp.updateRes true 640 480).greets = true ∧ maxName < (State.opened .sample).ctx.clientName.length))
      (fun _ _ => True) (.opened .sample) := ⟨rfl, cursor_at_base_iff (.updateRes true 640 480) rfl⟩

/-! ### A name that is too long -/

/-- The hello of a server that speaks version 1.6. -/
def helloMem : Bytes := ascii ['S', 'y', 'n', 'e', 'r', 'g', 'y'] ++ [0, 1, 0, 6]

theorem sIsWelcome_helloMem : sIsWelcome ⟨helloMem, 0, 11⟩ =
    .ok (some (ascii ['S', 'y', 'n', 'e', 'r', 'g', 'y'], ⟨helloMem, 7, 11⟩)) := rfl

/-- The client has a name of 1006 bytes, and its HelloBack does not fit in the buffer with it. -/
theorem cursor_left_behind : ∃ s s', s.ctx.replyCur = 4 ∧ s.ctx.clientName = List.replicate 1006 97 ∧
    (ReplyOp.message .smooth helloMem 11).exec.run s = .ok () s' ∧ s'.ctx.replyCur ≠ 4 := by
  generalize hs : State.opened (mainConfig (List.replicate 1006 97) 0 0 true true fun _ => false) = s
  have hcur : s.ctx.replyCur = 4 := by
    subst hs
    rfl
  have hname : s.ctx.clientName = List.replicate 1006 97 := by
    subst hs
    rfl
  have hlong : maxName < s.ctx.clientName.length := by
    rw [hname, List.length_replicate]
    decide
  have himp : ascii ['S', 'y', 'n', 'e', 'r', 'g', 'y'] ∈ sImplementations := .tail _ (.head _)
  have hrun : wp (processHello .smooth (ascii ['S', 'y', 'n', 'e', 'r', 'g', 'y']) ⟨helloMem, 7, 11⟩)
      (fun _ s' => s'.ctx.replyCur ≠ 4) (fun _ _ => False) s := by
    refine wp_mono (processHello_cur himp 11 hcur) (fun _ s' h hbase => ?_) fun _ _ h => absurd h (by decide)
    exact h.mp hbase ⟨le_refl _, hlong⟩
  obtain ⟨_, s', hok, hcur'⟩ := exists_ok_of_wp hrun
  refine ⟨s, s', hcur, hname, ?_, hcur'⟩
  show (sProcessMessage .smooth ⟨helloMem, 0, 11⟩).run s = .ok () s'
  unfold sProcessMessage
  rw [sIsWelcome_helloMem]
  exact hok

end Waynergy
