import Waynergy.Session
import Waynergy.Stream

/-!
# Oversized packets

A packet that the receive buffer cannot hold is discarded: the call reads on until all of it has arrived. Its
length is taken from the front of the buffer also while only a part of its header is there.
-/

namespace Waynergy
open Lib
variable {s s' : State} {w : Bytes}

/-! ### The reads of the discard loop -/

/-- Each read finds at least one byte and at most as many as it asks for, until `left` bytes are read. -/
def Pieces : Nat → List Bytes → Prop
  | left, [] => left = 0
  | left, bs :: reads =>
    bs ≠ [] ∧ bs.length ≤ left ∧ bs.length ≤ receiveBufferSize ∧ Pieces (left - bs.length) reads

theorem Pieces.length {left : Nat} {reads : List Bytes} (h : Pieces left reads) : reads.flatten.length = left := by
  induction reads generalizing left with
  | nil => exact (show left = 0 from h).symm
  | cons bs reads ih =>
    obtain ⟨-, hle, -, hmore⟩ := h
    rw [List.flatten_cons, List.length_append, ih hmore]
    omega

/-- While what is left is an `int`, it is asked for as far as the buffer holds it. -/
theorem ditchRequest_eq {packlen left : Nat} {n : Int} (hn : ((packlen - n) % 2 ^ 32).toNat = left)
    (hleft : left ≤ intMax) : ditchRequest packlen n = min left receiveBufferSize := by
  have hmax : intMax = 2147483647 := rfl
  have hsigned : signed 32 left = left := by
    rw [signed, Nat.mod_eq_of_lt (by omega), if_pos (by omega)]
  rw [ditchRequest, hn, hsigned]
  split <;> omega

/-- The loop reads exactly what is left of the packet. -/
theorem ditchTail_spec {packlen left : Nat} {n : Int} {reads : List Bytes} (hn : n + left = packlen) (hn' : -4 ≤ n)
    (hleft : left ≤ intMax) (hp : packlen ≤ intMax) (h : Pieces left reads) :
    wp (ditchTail packlen n reads) (fun _ s' => ∃ b, s' = { s with ctx := { s.ctx with receiveBuffer := b } })
      (fun _ _ => False) s := by
  have hmax : intMax = 2147483647 := rfl
  induction reads generalizing n left s with
  | nil =>
    obtain rfl : left = 0 := h
    unfold ditchTail
    rw [if_pos (by omega)]
    exact ⟨s.ctx.receiveBuffer, rfl⟩
  | cons bs reads ih =>
    obtain ⟨hne, hle, hsize, hmore⟩ := h
    have hpos : 0 < bs.length := List.length_pos_iff.mpr hne
    have htake : bs.take (ditchRequest packlen n).toNat = bs := by
      rw [ditchRequest_eq (by omega) hleft]
      exact List.take_of_length_le (by omega)
    unfold ditchTail
    rw [if_neg (by omega), wp_bind, wp_ditchRead, htake, if_neg hne, dif_pos (by omega)]
    simp only [wp_ite]
    rw [if_neg (by omega)]
    have hleft' : n + bs.length + (left - bs.length : Nat) = packlen := by omega
    refine wp_mono (ih hleft' (by omega) (by omega) hmore) ?_ fun _ _ => id
    rintro _ _ ⟨b, rfl⟩
    exact ⟨b, rfl⟩

/-! ### One call -/

/-- The number of bytes that the call discards after those that arrived first, `bs`. -/
def Context.ditchCount (c : Context) (bs : Bytes) : Nat :=
  if c.stopHeader bs > receiveBufferSize then c.stopHeader bs + 4 - (c.rest bs).length else 0

/-- All complete frames of `w` were handed over and what is left is at the front of the buffer, unless `n` bytes
were discarded, after which the buffer is empty; or the connection was lost at one of the frames. -/
def Served (w : Bytes) (n : Nat) (s s' : State) : Prop :=
  (s'.ctx.connected = true ∧ Front (if n = 0 then (splitFrames w).2 else []) s' ∧
    ∃ evs, s'.out = s.out ++ evs ∧ handed evs = (splitFrames w).1) ∨ LostAt w s s'

theorem ditchOversized_spec {packlen : Nat} {reads : List Bytes} (hofs : s.ctx.receiveOfs < packlen + 4)
    (hp : packlen ≤ intMax) (hleft : packlen + 4 ≤ intMax + s.ctx.receiveOfs)
    (h : receiveBufferSize < packlen → Pieces (packlen + 4 - s.ctx.receiveOfs) reads) :
    wp (ditchOversized packlen reads) (fun _ s' => s'.ctx.connected = s.ctx.connected ∧ s'.out = s.out ∧
      if packlen > receiveBufferSize then s'.ctx.receiveOfs = 0 else s' = s) (fun _ _ => False) s := by
  unfold ditchOversized
  rw [wp_ite]
  split
  · rename_i hbig
    rw [wp_bind, wp_get, wp_bind]
    refine wp_mono (ditchTail_spec (by omega) (by omega) (by omega) hp (h hbig)) ?_ fun _ _ => id
    rintro _ _ ⟨b, rfl⟩
    exact ⟨rfl, rfl, rfl⟩
  · exact ⟨rfl, rfl, rfl⟩

/-- A call of which the discarded bytes are an `int` ends, or a message stops it. -/
theorem sUpdateContext_serves {e : UpdateEnv} (hofs : s.ctx.receiveOfs ≤ receiveBufferSize)
    (up : s.ctx.connected = true) (hdel : Delivers s e.avail) (hp : s.ctx.stopHeader e.avail ≤ intMax)
    (hleft : s.ctx.stopHeader e.avail + 4 ≤ intMax + (s.ctx.rest e.avail).length)
    (hreads : Pieces (s.ctx.ditchCount e.avail) e.ditch) : wp (sUpdateContext e)
      (fun _ s' => Served (s.ctx.buffered ++ e.avail) (s.ctx.ditchCount e.avail) s s')
      (fun stop s' => ((s.ctx.buffered ++ e.avail).length < e.fuel →
        Whole (s.ctx.buffered ++ e.avail) ∧ MessageStop stop) ∧ HandsFirst (s.ctx.buffered ++ e.avail) s s') s := by
  have hmax : intMax = 2147483647 := rfl
  unfold sUpdateContext
  rw [wp_bind]
  refine wp_mono (receive_got hofs hdel e.now) ?_ fun _ _ => False.elim
  rintro _ s₁ ⟨rfl, hg⟩
  rw [if_pos rfl, wp_bind]
  refine wp_eatPackets_frames hg.front ?_ ?_ ?_
  · intro i' fuel' s₂ he hf
    obtain ⟨evs, ho, hh, -⟩ := he.out
    have hpl : s₂.ctx.packlen = s.ctx.stopHeader e.avail := by
      rw [he.packlen, hg.bytes, lastHeader_overwrite]; rfl
    have hgt := he.front.lt_packlen (splitFrames_join _).2
    have hofs₂ : s₂.ctx.receiveOfs = (s.ctx.rest e.avail).length := he.front.ofs
    rw [← he.front.ofs] at hgt
    cases fuel' with
    | zero => exact ⟨fun hlt => absurd (hf hlt) (Nat.lt_irrefl 0), evs, by rw [ho, hg.out], hh ▸ List.prefix_refl _⟩
    | succ fuel' =>
      rw [wp_eatPackets_succ, if_pos (by rw [packSize_eq (by omega)]; exact hgt)]
      refine wp_mono (ditchOversized_spec hgt (by omega) (by omega) fun hbig => ?_) ?_ fun _ _ => False.elim
      · rw [hpl] at hbig ⊢
        rw [Context.ditchCount, if_pos hbig] at hreads
        rwa [hofs₂]
      · rintro _ s₃ ⟨hup₃, ho₃, hend⟩
        refine .inl ⟨hup₃.trans (he.up (hg.up.trans up)), ?_, evs, by rw [ho₃, ho, hg.out], hh⟩
        rw [hpl] at hend
        rw [Context.ditchCount]
        split at hend
        · rename_i hbig
          rw [if_pos hbig, if_neg (by omega)]
          exact .nil hend
        · rename_i hbig
          rw [if_neg hbig, if_pos rfl, hend]
          exact he.front
  · intro s₂ hl
    obtain ⟨evs, n, ho, hrest⟩ := hl.out
    exact .inr ⟨hl.down, evs, n, by rw [ho, hg.out], hrest⟩
  · rintro stop s₂ hw hs ⟨evs, ho, hh⟩
    exact ⟨fun hlt => ⟨hw, hs hlt⟩, evs, by rw [ho, hg.out], hh⟩

/-- A call in which no frame is complete ends. -/
theorem sUpdateContext_part {e : UpdateEnv} (hofs : s.ctx.receiveOfs ≤ receiveBufferSize)
    (up : s.ctx.connected = true) (hdel : Delivers s e.avail) (hp : s.ctx.stopHeader e.avail ≤ intMax)
    (hleft : s.ctx.stopHeader e.avail + 4 ≤ intMax + (s.ctx.rest e.avail).length)
    (hreads : Pieces (s.ctx.ditchCount e.avail) e.ditch) (hw : ¬ Whole (s.ctx.buffered ++ e.avail))
    (hfuel : (s.ctx.buffered ++ e.avail).length < e.fuel) : ∃ s', (sUpdateContext e).run s = .ok () s' ∧
      s'.ctx.connected = true ∧ Front (if s.ctx.ditchCount e.avail = 0 then s.ctx.buffered ++ e.avail else []) s' := by
  have h := sUpdateContext_serves hofs up hdel hp hleft hreads
  obtain ⟨_, s', hrun, hs⟩ := exists_ok_of_wp (wp_mono h (fun _ _ => id) fun _ _ hstop => hw (hstop.1 hfuel).1)
  rcases hs with ⟨hup, hfront, -⟩ | hlost
  · rw [splitFrames_of_not_whole hw] at hfront
    exact ⟨s', hrun, hup, hfront⟩
  · obtain ⟨evs, n, -, hn, -⟩ := hlost.out
    rw [splitFrames_of_not_whole hw] at hn
    exact absurd hn (Nat.not_lt_zero n)

/-! ### Call after call -/

/-- What was read by a call that left `s`: the loop that loses the connection does not discard. -/
def UpdateEnv.readBy (e : UpdateEnv) (s : State) : Bytes :=
  e.avail ++ if s.ctx.connected then e.ditch.flatten else []

/-- From `s₀` the calls `steps` were made, each listed with what was read before it, and `got` is what is read
by now, every read having found at least one byte. -/
inductive Cut (s₀ : State) : List (Bytes × State × UpdateEnv) → Bytes → State → Prop
  | nil : Cut s₀ [] [] s₀
  | call {steps : List (Bytes × State × UpdateEnv)} {got : Bytes} {t s : State} {e : UpdateEnv}
      (before : Cut s₀ steps got t) (up : t.ctx.connected = true) (first : Delivers t e.avail)
      (more : Pieces (t.ctx.ditchCount e.avail) e.ditch) (run : (sUpdateContext e).run t = .ok () s) :
      Cut s₀ (steps ++ [(got, t, e)]) (got ++ e.readBy s) s

/-- A frame that fits the buffer, or that is oversized with a length that is an `int`. -/
def Sizable (v : Bytes) : Prop := v.length ≤ maxBody ∨ receiveBufferSize < v.length ∧ v.length ≤ intMax

/-- The bodies that fit the buffer. -/
def fitting (bodies : List Bytes) : List Bytes := bodies.filter (·.length ≤ maxBody)

/-- Where the call stops at a header of which only a part is there, it does not take an oversized packet for
the one to come, unless it guesses the length of that one, and what is left of it is an `int`. -/
def Clear (bodies : List Bytes) (got : Bytes) (s : State) (bs : Bytes) : Prop :=
  4 ≤ (s.ctx.rest bs).length ∨ s.ctx.stopHeader bs ≤ receiveBufferSize ∨
    ∃ v, bodies[(splitFrames (got ++ bs)).1.length]? = some v ∧ s.ctx.stopHeader bs = v.length ∧
      s.ctx.stopHeader bs + 4 ≤ intMax + (s.ctx.rest bs).length

/-- Of the bytes `got` the frames that fit were handed over, and the oversized ones were skipped to their last
byte; or the connection was lost at one of the former, the last one handed over. -/
def Skips (s₀ s : State) (got : Bytes) : Prop :=
  ∃ evs, s.out = s₀.out ++ evs ∧
    (s.ctx.connected = true → handed evs = fitting (splitFrames got).1 ∧
      s.ctx.receiveOfs = (splitFrames got).2.length ∧ s.ctx.buffered = (splitFrames got).2) ∧
    (s.ctx.connected = false → ∃ n, n < (fitting (splitFrames got).1).length ∧
      handed evs = (fitting (splitFrames got).1).take (n + 1))

theorem fitting_append (vs us : List Bytes) : fitting (vs ++ us) = fitting vs ++ fitting us :=
  List.filter_append vs us

theorem fitting_splitFrames (hw : w.length ≤ receiveBufferSize) : fitting (splitFrames w).1 = (splitFrames w).1 := by
  have hsize : receiveBufferSize = 65535 := rfl
  refine List.filter_eq_self.mpr fun v hv => decide_eq_true ?_
  have := length_le_of_mem_splitFrames hv
  show v.length ≤ 65531
  omega

section
variable {bodies : List Bytes} {got bs t : Bytes}

theorem Sizable.lt {v : Bytes} (h : Sizable v) : v.length < 2 ^ 32 := by
  have hmax : intMax = 2147483647 := rfl
  have hbody : maxBody = 65531 := rfl
  rcases h with h | ⟨-, h⟩ <;> omega

/-- At a header that is not small, the call stops in the frame that is sent. -/
theorem Clear.oversized (h : Clear bodies got s bs) (hb : ∀ v ∈ bodies, Sizable v)
    (hstream : got ++ bs ++ t = (bodies.map frame).flatten) (hrest : (splitFrames (got ++ bs)).2 = s.ctx.rest bs) :
    s.ctx.stopHeader bs ≤ receiveBufferSize ∨ ∃ v, bodies[(splitFrames (got ++ bs)).1.length]? = some v ∧
      s.ctx.stopHeader bs = v.length ∧ s.ctx.stopHeader bs + 4 ≤ intMax + (s.ctx.rest bs).length := by
  rcases h with h4 | hsmall | hv
  · obtain ⟨later, hl, ht⟩ := splitFrames_stream (fun v hv => (hb v hv).lt) hstream
    rw [hrest] at ht
    have hmem : ∀ v ∈ later, v ∈ bodies := fun v hv => by rw [hl]; exact List.mem_append_right _ hv
    obtain ⟨v, more, rfl, hlen⟩ := frameLen_of_stream (fun v hv => (hb v (hmem v hv)).lt) ht h4
    have hstop : s.ctx.stopHeader bs = v.length := by rw [Context.stopHeader, lastHeader_of_four h4]; exact hlen
    rcases hb v (hmem v (by simp)) with hfit | ⟨-, hint⟩
    · exact .inl (by rw [hstop]; exact Nat.le_trans hfit (by decide))
    · refine .inr ⟨v, ?_, hstop, by omega⟩
      rw [hl, List.getElem?_append_right (Nat.le_refl _), Nat.sub_self]
      rfl
  · exact .inl hsmall
  · exact .inr hv

theorem framed_of_stream (hb : ∀ v ∈ bodies, Sizable v) (hstream : got <+: (bodies.map frame).flatten) :
    Framed intMax got := by
  have hmax : intMax = 2147483647 := rfl
  have hbody : maxBody = 65531 := rfl
  have hall : Framed intMax ((bodies.map frame).flatten ++ []) :=
    .append (fun v hv => by rcases hb v hv with h | ⟨-, h⟩ <;> omega) .nil
  rw [List.append_nil] at hall
  exact hall.of_initial hstream

/-- What is complete is what was, and what the loop finds in the buffer. -/
theorem splitFrames_got (hgot : Framed intMax got) (h : Front (splitFrames got).2 s) (bs : Bytes) :
    splitFrames (got ++ bs) =
      ((splitFrames got).1 ++ (splitFrames (s.ctx.buffered ++ bs)).1, s.ctx.rest bs) := by
  rw [splitFrames_more (by decide) hgot, Context.rest, h.buffered_eq]

/-- The bytes that are discarded are the rest of the frame in which the loop stops. -/
theorem splitFrames_ditched {x : Bytes} (hb : ∀ v ∈ bodies, Sizable v)
    (hstream : got ++ bs ++ x <+: (bodies.map frame).flatten) (h : Front (splitFrames got).2 s)
    (hclear : Clear bodies got s bs) (hx : x.length = s.ctx.ditchCount bs) (hne : s.ctx.ditchCount bs ≠ 0) :
    ∃ v, receiveBufferSize < v.length ∧
      splitFrames (got ++ bs ++ x) = ((splitFrames (got ++ bs)).1 ++ [v], []) := by
  have hframed := framed_of_stream hb ((List.prefix_append _ x).trans hstream)
  have hrest : (splitFrames (got ++ bs)).2 = s.ctx.rest bs := by
    rw [splitFrames_got (hframed.of_initial (List.prefix_append _ _)) h]
  obtain ⟨t, ht⟩ := hstream
  rw [List.append_assoc] at ht
  unfold Context.ditchCount at hx hne
  split at hne
  · rename_i hbig
    rw [if_pos hbig] at hx
    rcases hclear.oversized hb ht hrest with hsmall | ⟨v, hv, hstop, -⟩
    · exact absurd hsmall (Nat.not_le.mpr hbig)
    · obtain ⟨later, hl, hlater⟩ := splitFrames_stream (fun v hv => (hb v hv).lt) ht
      rw [hl, List.getElem?_append_right (Nat.le_refl _), Nat.sub_self] at hv
      cases later with
      | nil => cases hv
      | cons u more =>
        obtain rfl : u = v := by simpa using hv
        have hframe := frame_of_stream hlater (by rw [hrest]; omega)
        refine ⟨u, by omega, ?_⟩
        have hu := (hb u (by rw [hl]; simp)).lt
        rw [splitFrames_more (by decide) hframed, hframe, ← List.append_nil (frame u), splitFrames_frame_append hu]
        rfl
  · exact absurd rfl hne

/-- What fits of what is complete is what did, and what the loop finds in the buffer. -/
theorem fitting_got (hgot : Framed intMax got) (h : Front (splitFrames got).2 s) (hdel : Delivers s bs) :
    fitting (splitFrames (got ++ bs)).1 = fitting (splitFrames got).1 ++ (splitFrames (s.ctx.buffered ++ bs)).1 := by
  have hlen : (s.ctx.buffered ++ bs).length ≤ receiveBufferSize := by
    have := h.fits
    have := hdel.2
    have := h.ofs
    rw [h.buffered_eq, List.length_append]
    omega
  rw [splitFrames_got hgot h, fitting_append, fitting_splitFrames hlen]

theorem splitFrames_readBy {e : UpdateEnv} (hb : ∀ v ∈ bodies, Sizable v)
    (hstream : got ++ e.readBy s' <+: (bodies.map frame).flatten) (h : Front (splitFrames got).2 s)
    (hdel : Delivers s e.avail) (hclear : Clear bodies got s e.avail)
    (hmore : Pieces (s.ctx.ditchCount e.avail) e.ditch) :
    fitting (splitFrames (got ++ e.readBy s')).1 =
        fitting (splitFrames got).1 ++ (splitFrames (s.ctx.buffered ++ e.avail)).1 ∧
      (s'.ctx.connected = true → (splitFrames (got ++ e.readBy s')).2 =
        if s.ctx.ditchCount e.avail = 0 then s.ctx.rest e.avail else []) := by
  have hframed := (framed_of_stream hb hstream).of_initial (List.prefix_append _ _)
  have hfit := fitting_got hframed h hdel
  cases hup : s'.ctx.connected with
  | false =>
    rw [UpdateEnv.readBy, hup, if_neg (by decide), List.append_nil]
    exact ⟨hfit, Bool.noConfusion⟩
  | true =>
    rw [UpdateEnv.readBy, hup, if_pos rfl, ← List.append_assoc] at hstream ⊢
    by_cases hn : s.ctx.ditchCount e.avail = 0
    · rw [hn] at hmore
      rw [List.length_eq_zero_iff.mp hmore.length, List.append_nil, if_pos hn, hfit, splitFrames_got hframed h]
      exact ⟨rfl, fun _ => rfl⟩
    · obtain ⟨v, hv, hsplit⟩ := splitFrames_ditched hb hstream h hclear hmore.length hn
      have hlarge : fitting [v] = [] := by
        have hsize : receiveBufferSize = 65535 := rfl
        have hbody : maxBody = 65531 := rfl
        exact List.filter_eq_nil_iff.mpr fun u hu => by
          rw [List.mem_singleton.mp hu, decide_eq_true_eq]
          omega
      rw [hsplit, fitting_append, hlarge, List.append_nil, hfit, if_neg hn]
      exact ⟨rfl, fun _ => rfl⟩

theorem serves_of_clear {e : UpdateEnv} (hb : ∀ v ∈ bodies, Sizable v)
    (hstream : got ++ e.avail <+: (bodies.map frame).flatten) (h : Front (splitFrames got).2 s)
    (up : s.ctx.connected = true) (hdel : Delivers s e.avail) (hclear : Clear bodies got s e.avail)
    (hmore : Pieces (s.ctx.ditchCount e.avail) e.ditch) : wp (sUpdateContext e)
      (fun _ s' => Served (s.ctx.buffered ++ e.avail) (s.ctx.ditchCount e.avail) s s')
      (fun stop s' => ((s.ctx.buffered ++ e.avail).length < e.fuel →
        Whole (s.ctx.buffered ++ e.avail) ∧ MessageStop stop) ∧ HandsFirst (s.ctx.buffered ++ e.avail) s s') s := by
  have hmax : intMax = 2147483647 := rfl
  have hsize : receiveBufferSize = 65535 := rfl
  have hframed := (framed_of_stream hb hstream).of_initial (List.prefix_append _ _)
  obtain ⟨t, ht⟩ := hstream
  have hover := hclear.oversized hb ht (by rw [splitFrames_got hframed h])
  have hint : s.ctx.stopHeader e.avail ≤ intMax := by
    rcases hover with hsmall | ⟨v, hv, hstop, -⟩
    · omega
    · rcases hb v (List.mem_of_getElem? hv) with hle | ⟨-, hle⟩
      · have hbody : maxBody = 65531 := rfl
        omega
      · omega
  refine sUpdateContext_serves (by rw [h.ofs]; exact h.fits) up hdel hint ?_ hmore
  rcases hover with hsmall | ⟨v, -, -, hleft⟩
  · omega
  · exact hleft

end

/-- The state between two calls, while the connection stands. -/
theorem skips_of_cut {s₀ : State} {bodies : List Bytes} {steps : List (Bytes × State × UpdateEnv)} {got : Bytes}
    (h₀ : Fresh s₀) (hcut : Cut s₀ steps got s) (hb : ∀ v ∈ bodies, Sizable v)
    (hstream : got <+: (bodies.map frame).flatten)
    (hclear : ∀ step ∈ steps, Clear bodies step.1 step.2.1 step.2.2.avail) :
    Skips s₀ s got ∧ (s.ctx.connected = true → Front (splitFrames got).2 s) := by
  induction hcut with
  | nil =>
    have hfront : Front [] s₀ := .nil h₀.ofs
    refine ⟨⟨[], by simp, fun _ => ⟨rfl, hfront.ofs, hfront.buffered_eq⟩, fun hdown => ?_⟩, fun _ => hfront⟩
    rw [h₀.up] at hdown
    cases hdown
  | @call steps got t s e before up first more run ih =>
    have hc := hclear (got, t, e) (by simp)
    obtain ⟨⟨evs, ho, hfr, -⟩, hfront⟩ := ih ((List.prefix_append _ _).trans hstream)
      fun step hm => hclear step (List.mem_append_left _ hm)
    have hfront := hfront up
    obtain ⟨hh, -, -⟩ := hfr up
    have hbs : got ++ e.avail <+: (bodies.map frame).flatten := by
      refine List.IsPrefix.trans ?_ hstream
      rw [UpdateEnv.readBy, ← List.append_assoc]
      exact List.prefix_append _ _
    obtain ⟨hfit, hrest⟩ := splitFrames_readBy hb hstream hfront first hc more
    rcases wp_ok (serves_of_clear hb hbs hfront up first hc more) run with ⟨hup, hfr', evs', ho', hh'⟩ | hlost
    · have hfront' : Front (splitFrames (got ++ e.readBy s)).2 s := by
        rw [hrest hup]
        exact hfr'
      refine ⟨⟨evs ++ evs', by rw [ho', ho, List.append_assoc], fun _ => ⟨?_, hfront'.ofs, hfront'.buffered_eq⟩,
        fun hdown => ?_⟩, fun _ => hfront'⟩
      · rw [handed_append, hh, hh', hfit]
      · rw [hup] at hdown
        cases hdown
    · obtain ⟨evs', n, ho', hn, hh', -⟩ := hlost.out
      refine ⟨⟨evs ++ evs', by rw [ho', ho, List.append_assoc], fun hup => ?_, fun _ => ?_⟩, fun hup => ?_⟩
      · rw [hlost.down] at hup
        cases hup
      · refine ⟨(fitting (splitFrames got).1).length + n, ?_, ?_⟩
        · rw [hfit, List.length_append]
          exact Nat.add_lt_add_left hn _
        · rw [handed_append, hh, hh', hfit, Nat.add_assoc, List.take_length_add_append]
      · rw [hlost.down] at hup
        cases hup

/-- Oversized packets are skipped exactly, as long as no call takes an oversized packet for another one. -/
theorem oversized_skipped {s₀ : State} {bodies : List Bytes} {steps : List (Bytes × State × UpdateEnv)} {got : Bytes}
    (h₀ : Fresh s₀) (hcut : Cut s₀ steps got s) (hb : ∀ v ∈ bodies, Sizable v)
    (hstream : got <+: (bodies.map frame).flatten)
    (hclear : ∀ step ∈ steps, Clear bodies step.1 step.2.1 step.2.2.avail) :
    Skips s₀ s got ∧
      -- a further call ends, or a message stops it; also then only frames that fit were handed over
      ∀ e, s.ctx.connected = true → Delivers s e.avail → got ++ e.avail <+: (bodies.map frame).flatten →
        Clear bodies got s e.avail → Pieces (s.ctx.ditchCount e.avail) e.ditch → receiveBufferSize < e.fuel →
        wp (sUpdateContext e) (fun _ _ => True) (fun stop s' => MessageStop stop ∧ ∃ evs, s'.out = s₀.out ++ evs ∧
          handed evs <+: fitting (splitFrames (got ++ e.avail)).1) s := by
  obtain ⟨hskips, hfront⟩ := skips_of_cut h₀ hcut hb hstream hclear
  refine ⟨hskips, fun e hup hdel hbs hc hmore hfuel => ?_⟩
  have h := hfront hup
  obtain ⟨evs, ho, hfr, -⟩ := hskips
  refine wp_mono (serves_of_clear hb hbs h hup hdel hc hmore) (fun _ _ _ => trivial) ?_
  rintro stop s' ⟨hstop, evs', ho', hh'⟩
  refine ⟨(hstop ?_).2, evs ++ evs', by rw [ho', ho, List.append_assoc], ?_⟩
  · have := h.fits
    have := hdel.2
    have := h.ofs
    rw [h.buffered_eq, List.length_append]
    omega
  · rw [fitting_got (framed_of_stream hb hstream) h hdel, handed_append, (hfr hup).1]
    exact (List.prefix_append_right_inj _).mpr hh'

/-! ### A header that arrives split -/

theorem stopHeader_opened (cfg : Config) (bs : Bytes) :
    (State.opened cfg).ctx.stopHeader bs = lastHeader [0, 0, 0, 0] bs :=
  lastHeader_congr rfl

theorem pieces_pair {left : Nat} {bs bs' : Bytes} (hpos : 0 < bs.length) (hpos' : 0 < bs'.length)
    (hsize : bs.length ≤ receiveBufferSize) (hsize' : bs'.length ≤ receiveBufferSize)
    (hlen : bs.length + bs'.length = left) : Pieces left [bs, bs'] :=
  ⟨List.ne_nil_of_length_pos hpos, by omega, hsize, List.ne_nil_of_length_pos hpos', by omega, hsize',
    show left - bs.length - bs'.length = 0 by omega⟩

/-- The first call of a fresh client stops at an oversized header, and discards two pieces. -/
theorem cut_opened {e : UpdateEnv} {bs bs' : Bytes} (hdel : Delivers (.opened .sample) e.avail)
    (hw : ¬ Whole e.avail) (hbig : lastHeader [0, 0, 0, 0] e.avail = 65536) (hditch : e.ditch = [bs, bs'])
    (hpos : 0 < bs.length) (hpos' : 0 < bs'.length) (hsize : bs.length ≤ receiveBufferSize)
    (hsize' : bs'.length ≤ receiveBufferSize) (hlen : e.avail.length + (bs.length + bs'.length) = 65540)
    (hfuel : e.avail.length < e.fuel) : ∃ s, (sUpdateContext e).run (.opened .sample) = .ok () s ∧
      Cut (.opened .sample) [([], .opened .sample, e)] (e.readBy s) s ∧ s.ctx.connected = true ∧ Front [] s ∧
      e.readBy s = e.avail ++ (bs ++ bs') := by
  have hmax : intMax = 2147483647 := rfl
  have hrest : (State.opened .sample).ctx.rest e.avail = e.avail := congrArg Prod.snd (splitFrames_of_not_whole hw)
  have hstop := (stopHeader_opened .sample e.avail).trans hbig
  have hcount : (State.opened .sample).ctx.ditchCount e.avail = bs.length + bs'.length := by
    rw [Context.ditchCount, hstop, hrest, if_pos (by decide)]
    omega
  have hreads : Pieces ((State.opened .sample).ctx.ditchCount e.avail) e.ditch := by
    rw [hcount, hditch]
    exact pieces_pair hpos hpos' hsize hsize' rfl
  obtain ⟨s, hrun, hup, hfront⟩ := sUpdateContext_part (Nat.zero_le _) rfl hdel (by omega) (by omega) hreads hw hfuel
  rw [hcount, if_neg (by omega)] at hfront
  refine ⟨s, hrun, .call .nil rfl hdel hreads hrun, hup, hfront, ?_⟩
  rw [UpdateEnv.readBy, hup, if_pos rfl, hditch, List.flatten_cons, List.flatten_cons, List.flatten_nil,
    List.append_nil]

/-- An oversized packet of 65536 bytes, of which the first read finds the header. -/
def bigEnv : UpdateEnv := ⟨[0, 1, 0, 0], [List.replicate 65535 0, [0]], 0, fun _ => .smooth, 5⟩

theorem oversized_skipped_bigEnv : ∃ s, (sUpdateContext bigEnv).run (.opened .sample) = .ok () s ∧
    Skips (.opened .sample) s (frame (List.replicate 65536 0)) := by
  have hlen : (List.replicate 65536 (0 : UInt8)).length = 65536 := List.length_replicate
  have hlen' : (List.replicate 65535 (0 : UInt8)).length = 65535 := List.length_replicate
  obtain ⟨s, hrun, hcut, -, -, hgot⟩ := cut_opened (e := bigEnv) ⟨by decide, by decide⟩ (by decide) (by decide) rfl
    (by rw [hlen']; decide) (by decide) (by rw [hlen']) (by decide) (by rw [hlen']; decide) (by decide)
  have hread : bigEnv.readBy s = frame (List.replicate 65536 0) := by
    show _ = be32 _ ++ _
    rw [hgot, hlen, show 65536 = 65535 + 1 from rfl, List.replicate_add]
    rfl
  have hstream : bigEnv.readBy s <+: ([List.replicate 65536 0].map frame).flatten := by
    rw [hread]
    exact List.prefix_append _ []
  have hrest : (State.opened .sample).ctx.rest bigEnv.avail = bigEnv.avail :=
    congrArg Prod.snd (splitFrames_of_not_whole (by decide))
  have hskips := (oversized_skipped (fresh_opened .sample) hcut
    (fun v hv => by rw [List.mem_singleton.mp hv, Sizable, hlen]; decide) hstream
    (fun step hstep => by rw [List.mem_singleton.mp hstep]; exact .inl (by rw [hrest]; decide))).1
  rw [hread] at hskips
  exact ⟨s, hrun, hskips⟩

/-- The body of a packet of 65544 bytes that ends like a frame CBYE. -/
def byeBody : Bytes := List.replicate 65536 0 ++ frame cbye

/-- The first half of its header arrives, and then what is discarded. -/
def halfEnv : UpdateEnv :=
  ⟨[0, 1], [[0, 8] ++ List.replicate 65533 0, List.replicate 3 0], 0, fun _ => .smooth, 3⟩

/-- Its last bytes arrive. -/
def lastEnv : UpdateEnv := ⟨frame cbye, [], 0, fun _ => .smooth, 9⟩

theorem length_byeBody : byeBody.length = 65544 := by
  rw [byeBody, List.length_append, List.length_replicate]
  rfl

theorem frame_byeBody : [0, 1] ++ (([0, 8] ++ List.replicate 65533 0) ++ List.replicate 3 0) ++ frame cbye =
    frame byeBody := by
  show _ = be32 byeBody.length ++ (List.replicate (65533 + 3) 0 ++ frame cbye)
  rw [length_byeBody, List.replicate_add]
  simp only [List.append_assoc]
  rfl

/-- The end of an oversized packet is handed over as a message. -/
theorem oversized_not_skipped : ¬ ∀ (s₀ s : State) (bodies : List Bytes) (steps : List (Bytes × State × UpdateEnv))
    (got : Bytes), Fresh s₀ → Cut s₀ steps got s → (∀ v ∈ bodies, Sizable v) →
    got <+: (bodies.map frame).flatten → Skips s₀ s got := by
  intro h
  have hlen : ([0, 8] ++ List.replicate 65533 (0 : UInt8)).length = 65535 := by
    rw [List.length_append, List.length_replicate]
    rfl
  obtain ⟨t, -, hcut, hup, hfront, hgot⟩ := cut_opened (e := halfEnv) ⟨by decide, by decide⟩ (by decide) (by decide) rfl
    (by rw [hlen]; decide) (by decide) (by rw [hlen]) (by decide) (by rw [hlen]; decide) (by decide)
  have hdel : Delivers t lastEnv.avail := ⟨by decide, by rw [hfront.ofs]; decide⟩
  obtain ⟨s, hrun, hdown, -⟩ := sUpdateContext_cbye hfront hdel (List.append_nil _).symm (by decide)
  have hmore : Pieces (t.ctx.ditchCount lastEnv.avail) lastEnv.ditch := by
    have hstop : t.ctx.stopHeader lastEnv.avail = 4 := by
      rw [Context.stopHeader, hfront.buffered_eq, List.nil_append, ← List.append_nil lastEnv.avail]
      exact (lastHeader_frame_append (by decide)).trans (by decide)
    show t.ctx.ditchCount lastEnv.avail = 0
    rw [Context.ditchCount, hstop]
    rfl
  have hread : halfEnv.readBy t ++ lastEnv.readBy s = frame byeBody ++ [] := by
    rw [hgot, UpdateEnv.readBy, hdown, if_neg (by decide), List.append_nil, List.append_nil]
    exact frame_byeBody
  have hcut' := Cut.call hcut hup hdel hmore hrun
  rw [hread] at hcut'
  obtain ⟨evs, -, -, hlost⟩ := h _ s [byeBody] _ _ (fresh_opened .sample) hcut'
    (fun v hv => by rw [List.mem_singleton.mp hv, Sizable, length_byeBody]; decide) (List.prefix_refl _)
  obtain ⟨n, hn, -⟩ := hlost hdown
  have hnone : fitting [byeBody] = [] := by
    rw [fitting, List.filter_cons, if_neg (by rw [length_byeBody]; decide)]
    rfl
  rw [splitFrames_frame_append (by rw [length_byeBody]; decide), show (splitFrames []).1 = [] from rfl, hnone] at hn
  exact Nat.not_lt_zero n hn

end Waynergy
