import Waynergy.Lib.Bytes

/-!
# Length-prefixed frames

A frame is a body behind its length as four big-endian bytes. `splitFrames` cuts a byte string into the
bodies of the complete frames at its front and the incomplete frame they leave. `Framed cap` are the
byte strings that a sender of frames of at most `cap` bytes has sent at some moment.
-/

namespace Lib

/-- The frame with body `v`. -/
def frame (v : Bytes) : Bytes := be32 v.length ++ v

/-- The length that the first four bytes announce. -/
def frameLen (s : Bytes) : Nat := beNat (s.take 4)

/-- A whole frame is at the front. -/
def Whole (s : Bytes) : Prop := 4 + frameLen s ≤ s.length ∧ 4 ≤ s.length

instance (s : Bytes) : Decidable (Whole s) := inferInstanceAs (Decidable (_ ∧ _))

/-- `splitFrames` for at most `fuel` frames. -/
def splitAux : Nat → Bytes → List Bytes × Bytes
  | 0, s => ([], s)
  | fuel + 1, s =>
    if Whole s then
      let r := splitAux fuel (s.drop (4 + frameLen s))
      (slice s 4 (frameLen s) :: r.1, r.2)
    else ([], s)

/-- The bodies of the complete frames at the front of `s`, and what follows them. -/
def splitFrames (s : Bytes) : List Bytes × Bytes := splitAux s.length s

@[simp] theorem length_frame (v : Bytes) : (frame v).length = 4 + v.length := by simp [frame]

theorem frameLen_frame_append {v : Bytes} (h : v.length < 2 ^ 32) (s : Bytes) :
    frameLen (frame v ++ s) = v.length := by
  rw [frameLen, frame, List.append_assoc, List.take_left' (length_be32 _), beNat_be32 h]

theorem whole_frame_append {v : Bytes} (h : v.length < 2 ^ 32) (s : Bytes) : Whole (frame v ++ s) := by
  rw [Whole, frameLen_frame_append h]; simp; omega

theorem splitAux_fuel : ∀ (fuel fuel' : Nat) (s : Bytes), s.length ≤ fuel → s.length ≤ fuel' →
    splitAux fuel s = splitAux fuel' s
  | 0, 0, _, _, _ => rfl
  | 0, _ + 1, s, h, _ => by
    rw [splitAux, splitAux, if_neg]
    exact fun hw => by have := hw.2; omega
  | _ + 1, 0, s, _, h => by
    rw [splitAux, splitAux, if_neg]
    exact fun hw => by have := hw.2; omega
  | fuel + 1, fuel' + 1, s, h, h' => by
    rw [splitAux, splitAux]
    split
    · rename_i hw
      have := hw.2
      rw [splitAux_fuel fuel fuel' (s.drop (4 + frameLen s)) (by simp; omega) (by simp; omega)]
    · rfl

theorem splitFrames_of_not_whole {s : Bytes} (h : ¬ Whole s) : splitFrames s = ([], s) := by
  unfold splitFrames
  cases s.length with
  | zero => rfl
  | succ n => rw [splitAux, if_neg h]

theorem splitFrames_frame_append {v : Bytes} (h : v.length < 2 ^ 32) (s : Bytes) :
    splitFrames (frame v ++ s) = (v :: (splitFrames s).1, (splitFrames s).2) := by
  have hbody : slice (frame v ++ s) 4 v.length = v := by
    rw [slice, frame, List.append_assoc, List.drop_left' (length_be32 _), List.take_left]
  have hrest : (frame v ++ s).drop (4 + v.length) = s := List.drop_left' (length_frame v)
  have hlen : (frame v ++ s).length = (3 + v.length + s.length) + 1 := by simp; omega
  rw [splitFrames, hlen, splitAux, if_pos (whole_frame_append h s), frameLen_frame_append h, hbody, hrest,
    splitAux_fuel _ s.length s (by omega) (Nat.le_refl _)]
  rfl

theorem Whole.eq_frame {s : Bytes} (h : Whole s) : ∃ v t, s = frame v ++ t ∧ v.length < 2 ^ 32 := by
  have hlen : (slice s 4 (frameLen s)).length = frameLen s := length_slice h.1
  have h4 : (s.take 4).length = 4 := by rw [List.length_take, Nat.min_eq_left h.2]
  refine ⟨slice s 4 (frameLen s), s.drop (4 + frameLen s), ?_, ?_⟩
  · rw [frame, hlen, frameLen, be32_beNat h4, slice, ← List.drop_drop, List.append_assoc, List.take_append_drop,
      List.take_append_drop]
  · rw [hlen]
    exact Nat.lt_of_lt_of_le (beNat_lt _) (by rw [h4]; decide)

/-- Nothing is lost by splitting, and what is left is no whole frame. -/
theorem splitFrames_join (s : Bytes) :
    ((splitFrames s).1.map frame).flatten ++ (splitFrames s).2 = s ∧ ¬ Whole (splitFrames s).2 := by
  induction hn : s.length using Nat.strongRecOn generalizing s with
  | ind n ih =>
    by_cases hw : Whole s
    · obtain ⟨v, t, rfl, hv⟩ := hw.eq_frame
      obtain ⟨hjoin, hrest⟩ := ih t.length (by rw [← hn, List.length_append, length_frame]; omega) t rfl
      rw [splitFrames_frame_append hv]
      exact ⟨by rw [List.map_cons, List.flatten_cons, List.append_assoc, hjoin], hrest⟩
    · rw [splitFrames_of_not_whole hw]
      exact ⟨rfl, hw⟩

/-- A frame that is complete is there with its header. -/
theorem length_le_of_mem_splitFrames {s v : Bytes} (h : v ∈ (splitFrames s).1) : v.length + 4 ≤ s.length := by
  have hjoin := (splitFrames_join s).1
  obtain ⟨pre, post, hsplit⟩ := List.append_of_mem h
  rw [hsplit, List.map_append, List.map_cons, List.flatten_append, List.flatten_cons] at hjoin
  rw [← hjoin]
  simp only [List.length_append, length_frame]
  omega

/-! ### What a sender of frames has sent so far -/

/-- Frames with bodies of at most `cap` bytes, then a proper initial part of such a frame. -/
inductive Framed (cap : Nat) : Bytes → Prop
  | part {w v : Bytes} (hv : v.length ≤ cap) (hw : w <+: frame v) (hlt : w.length < (frame v).length) :
      Framed cap w
  | cons {v w : Bytes} (hv : v.length ≤ cap) (hw : Framed cap w) : Framed cap (frame v ++ w)

theorem prefix_append_split {α : Type} {w a b : List α} (h : w <+: a ++ b) :
    w <+: a ∨ ∃ w', w = a ++ w' ∧ w' <+: b := by
  rcases List.prefix_or_prefix_of_prefix h (List.prefix_append a b) with hw | ⟨w', rfl⟩
  · exact .inl hw
  · exact .inr ⟨w', rfl, (List.prefix_append_right_inj a).mp h⟩

namespace Framed
variable {cap : Nat} {w : Bytes}

theorem nil : Framed cap [] := .part (v := []) (Nat.zero_le _) List.nil_prefix (by simp)

theorem of_part_frame {v : Bytes} (hv : v.length ≤ cap) (hw : w <+: frame v) : Framed cap w := by
  rcases Nat.lt_or_ge w.length (frame v).length with hlt | hge
  · exact .part hv hw hlt
  · rw [hw.eq_of_length_le hge, ← List.append_nil (frame v)]
    exact .cons hv nil

/-- An initial part of frames is again frames and part of a frame. -/
theorem of_initial {s : Bytes} (hs : Framed cap s) (hw : w <+: s) : Framed cap w := by
  induction hs generalizing w with
  | part hv hp _ => exact of_part_frame hv (hw.trans hp)
  | cons hv _ ih =>
    rcases prefix_append_split hw with hp | ⟨w', rfl, hp⟩
    · exact of_part_frame hv hp
    · exact .cons hv (ih hp)

theorem append {bodies : List Bytes} {tail : Bytes} (hb : ∀ v ∈ bodies, v.length ≤ cap)
    (ht : Framed cap tail) : Framed cap ((bodies.map frame).flatten ++ tail) := by
  induction bodies with
  | nil => simpa using ht
  | cons v bodies ih =>
    rw [List.map_cons, List.flatten_cons, List.append_assoc]
    exact .cons (hb v (by simp)) (ih fun v hv => hb v (by simp [hv]))

end Framed

/-! ### Part of a frame -/

section
variable {w v : Bytes}

theorem frameLen_of_part (hv : v.length < 2 ^ 32) (hw : w <+: frame v) (h4 : 4 ≤ w.length) :
    frameLen w = v.length := by
  obtain ⟨t, ht⟩ := hw
  have h := frameLen_frame_append hv []
  rwa [List.append_nil, ← ht, frameLen, List.take_append_of_le_length h4] at h

theorem not_whole_of_part (hv : v.length < 2 ^ 32) (hw : w <+: frame v)
    (hlt : w.length < (frame v).length) : ¬ Whole w := by
  rintro ⟨hlen, h4⟩
  rw [frameLen_of_part hv hw h4] at hlen
  rw [length_frame] at hlt
  omega

/-- The first two bytes of a frame of less than 65536 bytes are zero. -/
theorem getElem?_frame_of_lt_two (hv : v.length < 65536) {j : Nat} (hj : j < 2) (hw : w <+: frame v)
    (hjw : j < w.length) : w[j]? = some 0 := by
  obtain ⟨t, ht⟩ := hw
  have h : (frame v)[j]? = some 0 := by
    have h0 : v.length / 16777216 = 0 := by omega
    have h1 : v.length / 65536 = 0 := by omega
    rw [frame, List.getElem?_append_left (by simp; omega), be32, h0, h1]
    rcases (by omega : j = 0 ∨ j = 1) with rfl | rfl <;> rfl
  rwa [← ht, List.getElem?_append_left hjw] at h

end

theorem splitFrames_of_part {v w : Bytes} (hv : v.length < 2 ^ 32) (hw : w <+: frame v)
    (hlt : w.length < (frame v).length) : splitFrames w = ([], w) :=
  splitFrames_of_not_whole (not_whole_of_part hv hw hlt)

/-- Bytes that arrive later belong to the frame that was incomplete. -/
theorem splitFrames_more {cap : Nat} (hcap : cap < 2 ^ 32) {w : Bytes} (hw : Framed cap w) (t : Bytes) :
    splitFrames (w ++ t) = ((splitFrames w).1 ++ (splitFrames ((splitFrames w).2 ++ t)).1,
      (splitFrames ((splitFrames w).2 ++ t)).2) := by
  induction hw with
  | part hv hw hlt => rw [splitFrames_of_part (Nat.lt_of_le_of_lt hv hcap) hw hlt]; rfl
  | cons hv _ ih =>
    have hv := Nat.lt_of_le_of_lt hv hcap
    rw [List.append_assoc, splitFrames_frame_append hv, splitFrames_frame_append hv, ih]
    rfl

/-- Where a stream of frames is cut, some of them are complete, and the others go on. -/
theorem splitFrames_stream {bodies : List Bytes} {w t : Bytes} (hb : ∀ v ∈ bodies, v.length < 2 ^ 32)
    (h : w ++ t = (bodies.map frame).flatten) : ∃ later, bodies = (splitFrames w).1 ++ later ∧
      (splitFrames w).2 ++ t = (later.map frame).flatten := by
  induction bodies generalizing w with
  | nil =>
    obtain ⟨rfl, rfl⟩ := List.append_eq_nil_iff.mp h
    exact ⟨[], rfl, rfl⟩
  | cons v bodies ih =>
    have hv := hb v (by simp)
    rw [List.map_cons, List.flatten_cons] at h
    have hpre : w <+: frame v ++ (bodies.map frame).flatten := ⟨t, h⟩
    rcases Nat.lt_or_ge w.length (frame v).length with hlt | hge
    · have hw : w <+: frame v := List.prefix_of_prefix_length_le hpre (List.prefix_append _ _) hlt.le
      rw [splitFrames_of_part hv hw hlt]
      exact ⟨v :: bodies, rfl, h⟩
    · obtain ⟨w, rfl⟩ := List.prefix_of_prefix_length_le (List.prefix_append _ _) hpre hge
      rw [List.append_assoc, List.append_cancel_left_eq] at h
      obtain ⟨later, hl, ht⟩ := ih (fun u hu => hb u (by simp [hu])) h
      rw [splitFrames_frame_append hv]
      exact ⟨later, by rw [List.cons_append, ← hl], ht⟩

/-- The frame whose header is complete is the next of the stream. -/
theorem frameLen_of_stream {bodies : List Bytes} {w t : Bytes} (hb : ∀ v ∈ bodies, v.length < 2 ^ 32)
    (h : w ++ t = (bodies.map frame).flatten) (h4 : 4 ≤ w.length) :
    ∃ v more, bodies = v :: more ∧ frameLen w = v.length := by
  cases bodies with
  | nil =>
    obtain ⟨rfl, -⟩ := List.append_eq_nil_iff.mp h
    exact absurd h4 (by decide)
  | cons v more =>
    refine ⟨v, more, rfl, ?_⟩
    rw [List.map_cons, List.flatten_cons] at h
    rw [← frameLen_frame_append (hb v (by simp)) ((more.map frame).flatten), ← h, frameLen, frameLen,
      List.take_append_of_le_length h4]

/-- As many bytes as it takes are the rest of the next frame. -/
theorem frame_of_stream {v : Bytes} {more : List Bytes} {w x t : Bytes}
    (h : w ++ (x ++ t) = ((v :: more).map frame).flatten) (hlen : w.length + x.length = 4 + v.length) :
    w ++ x = frame v := by
  rw [List.map_cons, List.flatten_cons, ← List.append_assoc] at h
  exact (List.append_inj h (by rw [List.length_append, length_frame, hlen])).1

namespace Framed
variable {cap : Nat} {v w t : Bytes}

theorem frame_append_inj {u x y : Bytes} (hu : u.length < 2 ^ 32) (hv : v.length < 2 ^ 32)
    (h : frame u ++ x = frame v ++ y) : x = y := by
  have hlen : u.length = v.length := by
    rw [← frameLen_frame_append hu x, h, frameLen_frame_append hv]
  exact (List.append_inj h (by simp [hlen])).2

theorem of_frame_append (hcap : cap < 2 ^ 32) (hv : v.length < 2 ^ 32) (h : Framed cap (frame v ++ w)) :
    Framed cap w := by
  generalize hs : frame v ++ w = s at h
  cases h with
  | part hu hp hlt =>
    exact absurd (hs ▸ whole_frame_append hv w) (not_whole_of_part (Nat.lt_of_le_of_lt hu hcap) hp hlt)
  | cons hu hw => rwa [frame_append_inj hv (Nat.lt_of_le_of_lt hu hcap) hs]

theorem rest (hcap : cap < 2 ^ 32) (h : Framed cap (w ++ t)) : Framed cap ((splitFrames w).2 ++ t) := by
  have hw := h.of_initial (List.prefix_append w t)
  induction hw with
  | part hv hp hlt => rwa [splitFrames_of_part (Nat.lt_of_le_of_lt hv hcap) hp hlt]
  | cons hv _ ih =>
    have hv := Nat.lt_of_le_of_lt hv hcap
    rw [splitFrames_frame_append hv]
    exact ih (of_frame_append hcap hv (by rwa [List.append_assoc] at h))

theorem getElem?_of_lt_two (hcap : cap < 65536) (h : Framed cap w) {j : Nat} (hj : j < 2) (hjw : j < w.length) :
    w[j]? = some 0 := by
  cases h with
  | part hv hp _ => exact getElem?_frame_of_lt_two (Nat.lt_of_le_of_lt hv hcap) hj hp hjw
  | @cons u _ hv _ =>
    have hf : j < (frame u).length := by rw [length_frame]; omega
    rw [List.getElem?_append_left hf]
    exact getElem?_frame_of_lt_two (Nat.lt_of_le_of_lt hv hcap) hj (List.prefix_refl _) hf

end Framed

/-! ### Headers that are written over others -/

theorem frameLen_be32 {n : Nat} (h : n < 2 ^ 32) : frameLen (be32 n) = n := beNat_be32 h

/-- Four bytes spell less than 65536 exactly if the first two are zero. -/
theorem frameLen_lt_iff {b : Bytes} (h4 : 4 ≤ b.length) :
    frameLen b < 65536 ↔ b[0]? = some 0 ∧ b[1]? = some 0 := by
  match b, h4 with
  | b0 :: b1 :: b2 :: b3 :: rest, _ =>
    have h2 := b2.toNat_lt
    have h3 := b3.toNat_lt
    have hz : ∀ b : UInt8, b = 0 ↔ b.toNat = 0 := fun b => UInt8.toNat_inj.symm
    rw [frameLen, List.take_succ_cons, List.take_succ_cons, List.take_succ_cons, List.take_succ_cons,
      List.take_zero, beNat_four]
    simp only [List.getElem?_cons_zero, List.getElem?_cons_succ, Option.some.injEq, hz]
    omega

/-- Small frames that are written over a small header, or cover its first two bytes, leave a small header. -/
theorem Framed.frameLen_overwrite_lt {cap : Nat} {b w : Bytes} (hcap : cap < 65536) (hw : Framed cap w)
    (h4 : 4 ≤ b.length) (hb : ∀ j, j < 2 → j < w.length ∨ b[j]? = some 0) : frameLen (overwrite b 0 w) < 65536 := by
  have hget : ∀ j, j < 2 → (overwrite b 0 w)[j]? = some 0 := by
    intro j hj
    rcases Nat.lt_or_ge j w.length with hjw | hjw
    · rw [overwrite_zero, List.getElem?_append_left hjw]
      exact hw.getElem?_of_lt_two hcap hj hjw
    · rw [getElem?_overwrite_of_ge (by omega) (by omega)]
      exact (hb j hj).resolve_left (Nat.not_lt.mpr hjw)
  refine (frameLen_lt_iff ?_).mpr ⟨hget 0 (by decide), hget 1 (by decide)⟩
  rw [overwrite_zero, List.length_append, List.length_drop]
  omega

end Lib
