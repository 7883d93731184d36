import Waynergy.ClipMachine

/-!
# The clipboard buffers are never left

A start message that grows the block does not record its size, a local update does; and a start message that
announces less than the recorded size leaves the block as it is. So the recorded size and the size of the block
differ, and what holds of every run is `Sized`: the block covers the recorded size, and, while a stream is
open, the announced length.
-/

namespace Waynergy
open Lib
variable {s : State} {c : ClipSlot}

namespace ClipSlot

theorem sized_zero : zero.Sized := ⟨Nat.le_refl _, by decide, (nomatch ·), (nomatch ·)⟩

theorem Room.length {h : Heap} {size : Nat} {buf : Option Bytes} (hroom : c.Room h size buf) (hc : c.Sized) :
    size ≤ (buf.getD []).length ∧ c.len ≤ (buf.getD []).length ∧ (buf.getD []).length < 2 ^ 63 := by
  have hlen := hc.len
  unfold Room at hroom
  split at hroom
  · obtain ⟨b, hb, rfl⟩ := hroom
    have := length_xrealloc hb
    simp only [Option.getD_some]
    omega
  · have hcap := hc.cap
    have : c.cap = (c.buf.getD []).length := rfl
    rw [hroom]
    omega

theorem Sized.started {h : Heap} {expect : Nat} {buf : Option Bytes} (hc : c.Sized) (hroom : c.Room h expect buf) :
    (c.started buf expect).Sized :=
  have ⟨hexpect, hlen, hcap⟩ := hroom.length hc
  ⟨hlen, hcap, fun _ => hexpect, fun _ => Nat.zero_le _⟩

theorem Sized.accepts {len : Nat} (hc : c.Sized) (h : c.Accepts len) (hlen : len < 2 ^ 32) :
    sizeAdd c.pos len = c.pos + len ∧ c.pos + len ≤ c.cap := by
  have hcap := hc.cap
  have hexpect := hc.expect h.1
  have hpos := hc.pos h.1
  have hadd : sizeAdd c.pos len = c.pos + len := sizeAdd_eq (by omega)
  exact ⟨hadd, by have := h.2; omega⟩

theorem Sized.cap_store {copied : Option Bytes} (h : ∀ bs, copied = some bs → c.pos + bs.length ≤ c.cap) :
    ((c.store copied).getD []).length = c.cap := by
  unfold store
  split
  · rfl
  · cases copied with
    | none => rfl
    | some bs => exact length_overwrite (h bs rfl)

theorem Sized.chunked {len : Nat} {copied : Option Bytes} (hc : c.Sized) (h : c.Accepts len) (hlen : len < 2 ^ 32)
    (hcopied : ∀ bs, copied = some bs → bs.length = len) : (c.chunked copied len).Sized := by
  have hin := hc.accepts h hlen
  have hcap : (c.chunked copied len).cap = c.cap :=
    Sized.cap_store fun bs hbs => by rw [hcopied bs hbs]; exact hin.2
  exact ⟨hcap ▸ hc.len, hcap ▸ hc.cap, fun hstr => hcap ▸ hc.expect hstr, fun _ => h.2⟩

theorem Sized.ended (hc : c.Sized) : c.ended.Sized := by
  unfold ClipSlot.ended
  split
  · exact ⟨hc.len, hc.cap, (nomatch ·), (nomatch ·)⟩
  · exact hc

theorem Sized.updated {h : Heap} {data : Bytes} {buf : Option Bytes} (hc : c.Sized)
    (hroom : c.Room h ((data.length + 12) % 2 ^ 32) buf) (hfits : data.length + 12 ≤ (buf.getD []).length) :
    (c.updated (buf.getD []) data).Sized := by
  have ⟨hsize, hlen, hlt⟩ := hroom.length hc
  have hcap : (c.updated (buf.getD []) data).cap = (buf.getD []).length :=
    length_overwrite (by rw [length_encodeText]; omega)
  exact ⟨hcap ▸ Nat.max_le.mpr ⟨hlen, hsize⟩, hcap ▸ hlt, (nomatch ·), (nomatch ·)⟩

end ClipSlot

theorem forall_update {P : ClipSlot → Prop} {clip : Fin 2 → ClipSlot} {i : Fin 2} (h : ∀ j, P (clip j)) (hc : P c)
    (j : Fin 2) : P (Function.update clip i c j) := by
  by_cases hj : j = i
  · rw [hj, Function.update_self]; exact hc
  · rw [Function.update_of_ne hj]; exact h j

theorem ClipStep.sized {ctx : Context} {act : ClipAct} {clip : Fin 2 → ClipSlot} {ts : List (Nat × Nat × Bytes)}
    (h : ClipStep ctx act clip ts) (hs : ∀ i, (ctx.clip i).Sized) : ∀ i, (clip i).Sized := by
  cases h with
  | none | drop | idle | duplicate => exact hs
  | release i => exact forall_update hs ⟨(hs i).len, (hs i).cap, (hs i).expect, (hs i).pos⟩
  | leave => exact fun i => ⟨(hs i).len, (hs i).cap, (hs i).expect, (hs i).pos⟩
  | start hroom => exact forall_update hs ((hs _).started hroom)
  | accept h hlen hcopied => exact forall_update hs ((hs _).chunked h hlen hcopied)
  | finish => exact forall_update hs (hs _).ended
  | update _ hroom hfits => exact forall_update hs ((hs _).updated hroom hfits)

theorem sized_of_run {cfg : Config} {steps : List (State × Op)} (hrun : Run Op.exec (.init cfg) steps s) (i : Fin 2) :
    (s.ctx.clip i).Sized := by
  refine hrun.invariant (P := fun s => ∀ i, (s.ctx.clip i).Sized) (fun _ => ClipSlot.sized_zero) ?_ i
  intro s op s' _ hs hop
  obtain ⟨clip, ts, hstep, h⟩ := wp_ok (clip_spec hs op) hop
  rw [h.clip]
  exact hstep.sized hs

theorem callbacks_of_run {cfg : Config} {steps : List (State × Op)} (hrun : Run Op.exec (.init cfg) steps s) :
    s.ctx.callbacks = cfg.callbacks := by
  induction hrun with
  | nil => rfl
  | snoc hrun hop ih =>
    obtain ⟨_, _, _, h⟩ := wp_ok (clip_spec (sized_of_run hrun) _) hop
    exact h.callbacks.trans ih

/-- In every run the recorded size, and the announced length of an open stream, are covered by the block, and no
operation stores, parses or encodes outside of it. -/
theorem clip_within {cfg : Config} {steps : List (State × Op)} (hrun : Run Op.exec (.init cfg) steps s) :
    (∀ i, (s.ctx.clip i).len ≤ (s.ctx.clip i).cap ∧
      ((s.ctx.clip i).inStream = true → (s.ctx.clip i).posExpect ≤ (s.ctx.clip i).cap)) ∧
    ∀ op : Op, op.Encodable → wp op.exec (fun _ _ => True) (fun stop _ => ¬ OutsideClip stop) s := by
  have hs := sized_of_run hrun
  exact ⟨fun i => ⟨(hs i).len, (hs i).expect⟩, fun op hop => wp_mono (clip_spec hs op) (fun _ _ _ => trivial)
    fun _ _ h => h hop⟩

/-- A run in which a stream of five bytes is announced. -/
theorem clip_within_started : ∃ s, (Op.message .smooth (dclpBody 0 0 synDataStart (ascii ['5'])) 15).exec.run
      (.opened .sample) = .ok () s ∧ (s.ctx.clip 0).posExpect ≤ (s.ctx.clip 0).cap ∧
    ∀ op : Op, op.Encodable → wp op.exec (fun _ _ => True) (fun stop _ => ¬ OutsideClip stop) s := by
  obtain ⟨s, hop, hstr⟩ : ∃ s, (Op.message .smooth (dclpBody 0 0 synDataStart (ascii ['5'])) 15).exec.run
    (.opened .sample) = .ok () s ∧ (s.ctx.clip 0).inStream = true := ⟨_, rfl, rfl⟩
  have h := clip_within ((Run.single (run_connect_init .sample)).snoc hop)
  exact ⟨s, hop, (h.1 0).2 hstr, h.2⟩

end Waynergy
