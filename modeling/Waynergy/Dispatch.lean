import Waynergy.Message

/-!
# Which handler a message gets

`Carries msg body`: `msg` shows the bytes `body`, all of which are in memory, as every message that the loop
hands over in bounds does. What is read from it, and which handler it gets, then depends on `body` alone.
-/

namespace Waynergy
open Lib

/-- `msg` shows exactly the bytes `body`. -/
structure Carries (msg : SspBuf) (body : Bytes) : Prop where
  pos : msg.pos = 0
  len : msg.len = body.length
  mem : body <+: msg.data

theorem Carries.ofBytes (body : Bytes) : Carries (.ofBytes body) body := ⟨rfl, rfl, List.prefix_refl body⟩

/-- The message with the position moved to `p`. -/
def SspBuf.at (msg : SspBuf) (p : Nat) : SspBuf := { msg with pos := p }

namespace Carries
variable {msg : SspBuf} {body : Bytes} (h : Carries msg body)
include h

theorem eq_at : msg = msg.at 0 := by
  obtain ⟨data, pos, len⟩ := msg
  obtain rfl : pos = 0 := h.pos
  rfl

theorem slice_eq {p n : Nat} (hp : p + n ≤ body.length) : slice msg.data p n = slice body p n := by
  obtain ⟨more, hm⟩ := h.mem
  rw [← hm, slice, slice, List.drop_append_of_le_length (by omega),
    List.take_append_of_le_length (by rw [List.length_drop]; omega)]

/-- Reads stop at the end of the body, and never leave the memory. -/
theorem sspTake_run {p n : Nat} (hp : p + n < 2 ^ 64) : (sspTake n).run (msg.at p) =
    if p + n ≤ body.length then .ok (slice body p n) (msg.at (p + n)) else .error .short (msg.at p) := by
  unfold sspTake
  simp only [EStateM.run_bind, EStateM.run_get, SspBuf.at, sizeAdd_eq hp, h.len]
  by_cases hle : p + n ≤ body.length
  · have hmem := h.mem.length_le
    rw [if_neg (by omega), if_neg (by omega), if_pos hle, ← h.slice_eq hle]
    rfl
  · rw [if_pos (by omega), if_neg hle]
    rfl

theorem sspSeek_run {p n : Nat} (hp : p + n < 2 ^ 64) : (sspSeek n).run (msg.at p) =
    if p + n ≤ body.length then .ok () (msg.at (p + n)) else .error .short (msg.at p) := by
  unfold sspSeek
  simp only [EStateM.run_bind, EStateM.run_get, SspBuf.at, sizeAdd_eq hp, h.len]
  by_cases hle : p + n ≤ body.length
  · rw [if_neg (by omega), if_pos hle]
    rfl
  · rw [if_pos (by omega), if_neg hle]
    rfl

theorem wp_sspTake {p n : Nat} (hp : p + n < 2 ^ 64) {Q : Bytes → SspBuf → Prop} {E : ParseFail → SspBuf → Prop} :
    wp (sspTake n) Q E (msg.at p) ↔
      if p + n ≤ body.length then Q (slice body p n) (msg.at (p + n)) else E .short (msg.at p) := by
  rw [wp, h.sspTake_run hp]
  by_cases hle : p + n ≤ body.length
  · rw [if_pos hle, if_pos hle]
  · rw [if_neg hle, if_neg hle]

theorem wp_sspSeek {p n : Nat} (hp : p + n < 2 ^ 64) {Q : Unit → SspBuf → Prop} {E : ParseFail → SspBuf → Prop} :
    wp (sspSeek n) Q E (msg.at p) ↔
      if p + n ≤ body.length then Q () (msg.at (p + n)) else E .short (msg.at p) := by
  rw [wp, h.sspSeek_run hp]
  by_cases hle : p + n ≤ body.length
  · rw [if_pos hle, if_pos hle]
  · rw [if_neg hle, if_neg hle]

theorem wp_sspNetInt {p n : Nat} (hp : p + n < 2 ^ 64) {Q : Nat → SspBuf → Prop} {E : ParseFail → SspBuf → Prop} :
    wp (sspNetInt n) Q E (msg.at p) ↔
      if p + n ≤ body.length then Q (beNat (slice body p n)) (msg.at (p + n)) else E .short (msg.at p) := by
  simp only [sspNetInt, wp_bind, wp_pure, h.wp_sspTake hp]

end Carries

/-! ### Dispatch -/

/-- The implementation whose hello `body` is. -/
def welcomeOf (body : Bytes) : Option Bytes := sImplementations.find? (·.isPrefixOf body)

theorem Carries.findWelcome {msg : SspBuf} {body : Bytes} (h : Carries msg body) {imps : List Bytes}
    (himps : ∀ imp ∈ imps, imp.length < 2 ^ 64) :
    findWelcome msg imps = .ok ((imps.find? (·.isPrefixOf body)).map fun imp => (imp, msg.at imp.length)) := by
  induction imps with
  | nil => rfl
  | cons imp imps ih =>
    have ih := ih fun i hi => himps i (by simp [hi])
    have hlt := himps imp (by simp)
    have hpre : imp.isPrefixOf body = true ↔ imp <+: body := List.isPrefixOf_iff_prefix
    unfold Waynergy.findWelcome
    rw [h.len, List.find?_cons]
    by_cases hlen : imp.length > body.length
    · have : imp.isPrefixOf body = false := by
        rw [← Bool.not_eq_true, hpre]
        exact fun hp => absurd hp.length_le (by omega)
      rw [if_pos hlen, ih, this]
    · have hmem := h.mem.length_le
      have htake : msg.data.take imp.length = body.take imp.length := by
        obtain ⟨more, hm⟩ := h.mem
        rw [← hm, List.take_append_of_le_length (by omega)]
      rw [if_neg hlen, if_neg (by omega), htake]
      by_cases hp : imp <+: body
      · rw [hpre.mpr hp, if_pos (List.prefix_iff_eq_take.mp hp).symm]
        have hrun := h.sspSeek_run (p := 0) (n := imp.length) (by omega)
        rw [← h.eq_at, Nat.zero_add, if_pos (by omega)] at hrun
        rw [hrun]; rfl
      · have : imp.isPrefixOf body = false := by rw [← Bool.not_eq_true, hpre]; exact hp
        rw [this, if_neg fun heq => hp (List.prefix_iff_eq_take.mpr heq.symm), ih]

theorem Carries.sIsWelcome {msg : SspBuf} {body : Bytes} (h : Carries msg body) :
    sIsWelcome msg = .ok ((welcomeOf body).map fun imp => (imp, msg.at imp.length)) :=
  h.findWelcome (by decide)

/-- What a message does is settled by its body: a hello, a packet, or nothing. -/
theorem Carries.sProcessMessage {msg : SspBuf} {body : Bytes} (h : Carries msg body) (e : MsgEnv) :
    sProcessMessage e msg = match welcomeOf body with
      | some imp => processHello e imp (msg.at imp.length)
      | none =>
        if body.length < 4 then do parseError; pure ()
        else match Pkt.ofId (body.take 4) with
          | some p => processPkt e (msg.at 4) p
          | none => pure () := by
  unfold Waynergy.sProcessMessage
  rw [h.sIsWelcome]
  cases welcomeOf body with
  | some imp => rfl
  | none =>
    have hrun := h.sspTake_run (p := 0) (n := 4) (by decide)
    rw [← h.eq_at, Nat.zero_add] at hrun
    simp only [Option.map_none, parse, sspMemMove, hrun]
    by_cases hlen : body.length < 4
    · rw [if_neg (by omega), if_pos hlen]
    · rw [if_pos (by omega), if_neg hlen]
      rfl

/-- The packet that `body` is. -/
def pktOf (body : Bytes) : Option Pkt := Pkt.ofId (body.take 4)

theorem Pkt.code_of_ofId {id : Bytes} {p : Pkt} (h : Pkt.ofId id = some p) : p.code = id := by
  have := List.find?_some h
  simpa using this

theorem length_of_pktOf {body : Bytes} {p : Pkt} (h : pktOf body = some p) : 4 ≤ body.length := by
  have hc := congrArg List.length (Pkt.code_of_ofId h)
  rw [List.length_take] at hc
  have : p.code.length = 4 := by cases p <;> rfl
  omega

/-- No packet is a hello. -/
theorem welcomeOf_of_pktOf {body : Bytes} {p : Pkt} (h : pktOf body = some p) : welcomeOf body = none := by
  have hc := Pkt.code_of_ofId h
  refine List.find?_eq_none.mpr fun imp himp hpre => ?_
  rw [List.isPrefixOf_iff_prefix] at hpre
  have h4 : imp.take 4 = p.code := by
    have hlen : 4 ≤ imp.length := by
      rcases List.mem_cons.mp himp with rfl | himp
      · decide
      · rw [List.mem_singleton.mp himp]; decide
    obtain ⟨more, hm⟩ := hpre
    rw [hc, ← hm, List.take_append_of_le_length hlen]
  have hne : ∀ imp ∈ sImplementations, ∀ p ∈ Pkt.all, imp.take 4 ≠ p.code := by decide
  exact hne imp himp p (by cases p <;> decide) h4

theorem Carries.processPkt {msg : SspBuf} {body : Bytes} (h : Carries msg body) {p : Pkt}
    (hp : pktOf body = some p) (e : MsgEnv) : Waynergy.sProcessMessage e msg = processPkt e (msg.at 4) p := by
  rw [h.sProcessMessage, welcomeOf_of_pktOf hp]
  have h4 := length_of_pktOf hp
  unfold pktOf at hp
  simp only [if_neg (Nat.not_lt.mpr h4), hp]

/-! ### The fields of the clipboard messages -/

/-- The byte of `body` at `i`. -/
def byteAt (body : Bytes) (i : Nat) : Nat := beNat (slice body i 1)

/-- The 32-bit number of `body` at `i`. -/
def wordAt (body : Bytes) (i : Nat) : Nat := beNat (slice body i 4)

/-- The header of a DCLP message. -/
def dclpOf (body : Bytes) : DclpHeader := ⟨byteAt body 4, byteAt body 9, wordAt body 10⟩

theorem beNat_slice_lt (body : Bytes) (i n : Nat) : beNat (slice body i n) < 256 ^ n :=
  Nat.lt_of_lt_of_le (beNat_lt _) (Nat.pow_le_pow_right (by decide) (by rw [slice, List.length_take]; omega))

theorem wordAt_lt (body : Bytes) (i : Nat) : wordAt body i < 2 ^ 32 := beNat_slice_lt body i 4

namespace Carries
variable {msg : SspBuf} {body : Bytes} (h : Carries msg body)
include h

theorem wp_dclpHeader {Q : DclpHeader → SspBuf → Prop} {E : ParseFail → Prop} :
    wp dclpHeader Q (fun f _ => E f) (msg.at 4) ↔
      if 14 ≤ body.length then Q (dclpOf body) (msg.at 14) else E .short := by
  simp only [dclpHeader, sspUChar, sspNetU32, wp_bind, wp_pure,
    h.wp_sspNetInt (p := 4) (n := 1) (by decide), h.wp_sspNetInt (p := 4 + 1) (n := 4) (by decide),
    h.wp_sspNetInt (p := 4 + 1 + 4) (n := 1) (by decide), h.wp_sspNetInt (p := 4 + 1 + 4 + 1) (n := 4) (by decide)]
  split_ifs <;> first | rfl | omega

theorem wp_cclpHeader {Q : Nat → SspBuf → Prop} {E : ParseFail → Prop} :
    wp (do let id ← sspUChar; let _seq ← sspNetU32; pure id : Parse Nat) Q (fun f _ => E f) (msg.at 4) ↔
      if 9 ≤ body.length then Q (byteAt body 4) (msg.at 9) else E .short := by
  simp only [sspUChar, sspNetU32, wp_bind, wp_pure,
    h.wp_sspNetInt (p := 4) (n := 1) (by decide), h.wp_sspNetInt (p := 4 + 1) (n := 4) (by decide)]
  split_ifs <;> first | rfl | omega

end Carries

/-! ### The bodies of DCLP messages -/

/-- The body of a DCLP message with the string `text`. -/
def dclpBody (id seq mark : Nat) (text : Bytes) : Bytes :=
  ascii ['D', 'C', 'L', 'P'] ++ ([UInt8.ofNat id] ++ (be32 seq ++ [UInt8.ofNat mark])) ++ (be32 text.length ++ text)

theorem length_dclpBody (id seq mark : Nat) (text : Bytes) :
    (dclpBody id seq mark text).length = 14 + text.length := by
  simp [dclpBody, ascii]; omega

theorem pktOf_dclpBody (id seq mark : Nat) (text : Bytes) : pktOf (dclpBody id seq mark text) = some .dclp := by
  have h4 : (dclpBody id seq mark text).take 4 = Pkt.dclp.code := rfl
  rw [pktOf, h4]
  decide

theorem dclpOf_dclpBody {id seq mark : Nat} {text : Bytes} (hid : id < 256) (hmark : mark < 256)
    (htext : text.length < 2 ^ 32) : dclpOf (dclpBody id seq mark text) = ⟨id, mark, text.length⟩ := by
  have hbyte : ∀ {n : Nat}, n < 256 → beNat [UInt8.ofNat n] = n := fun {n} hn => by
    rw [beNat_cons, beNat_nil, UInt8.toNat_ofNat']
    simp; omega
  have h4 : byteAt (dclpBody id seq mark text) 4 = beNat [UInt8.ofNat id] := rfl
  have h9 : byteAt (dclpBody id seq mark text) 9 = beNat [UInt8.ofNat mark] := rfl
  have h10 : wordAt (dclpBody id seq mark text) 10 = beNat (be32 text.length) := rfl
  rw [dclpOf, h4, h9, h10, hbyte hid, hbyte hmark, beNat_be32 htext]

theorem slice_dclpBody (id seq mark : Nat) (text : Bytes) : slice (dclpBody id seq mark text) 14 text.length = text :=
  List.take_length

theorem wp_parse {α β : Type} {f : Fault} {p : Parse α} {buf : SspBuf} {bad : β} {k : α → SspBuf → Syn β}
    {Q : β → State → Prop} {E : Stop → State → Prop} {s : State} : wp (parse f p buf bad k) Q E s ↔
      wp p (fun a b => wp (k a b) Q E s)
        (fun fail _ => match fail with
          | .short => Q bad { s with out := s.out ++ [.parseError] }
          | .outside => E (.fault f) s) buf := by
  unfold parse
  rw [wp.eq_def (m := p)]
  cases p.run buf with
  | ok a b => rfl
  | error fail b => cases fail <;> rfl

theorem wp_clipIndex {Q : Fin 2 → State → Prop} {E : Stop → State → Prop} {s : State} {id : Nat} :
    wp (clipIndex id) Q E s ↔ if h : id < 2 then Q ⟨id, h⟩ s else E (.fault .clipIndex) s := by
  unfold clipIndex
  split <;> rfl

end Waynergy
