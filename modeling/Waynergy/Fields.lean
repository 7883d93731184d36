import Waynergy.SspMemory
import Waynergy.Dispatch
import Waynergy.Client

/-!
# Fields written and read back (`uSynergy.c`, `ssp.c`)

Every message is a row of integers and byte strings. `fields_exact`: what the `sAdd…` functions append is what the readers
give back, a field that does not fit is not written at all, and no reader leaves the `len` bytes of its buffer.
-/

namespace Waynergy
open Lib

/-! ### Writing -/

/-- What can be appended to a reply. A string is what is in front of its terminating zero. -/
inductive Field
  | u8 (n : UInt8)
  | u16 (n : UInt16)
  | u32 (n : UInt32)
  | string (s : Bytes) (noNul : 0 ∉ s)
  | bin (val : Bytes)

/-- What is read back: a number, or bytes. -/
inductive Value
  | num (n : Nat)
  | bytes (bs : Bytes)
deriving DecidableEq

namespace Field

def add : Field → Syn Bool
  | u8 n => sAddUInt8 n.toNat
  | u16 n => sAddUInt16 n.toNat
  | u32 n => sAddUInt32 n.toNat
  | string s _ => sAddString s
  | bin val => sAddBin val

def encode : Field → Bytes
  | u8 n => [n]
  | u16 n => be16 n.toNat
  | u32 n => be32 n.toNat
  | string s _ => s
  | bin val => val

def value : Field → Value
  | u8 n => .num n.toNat
  | u16 n => .num n.toNat
  | u32 n => .num n.toNat
  | string s _ => .bytes s
  | bin val => .bytes val

/-- Read a field of this kind and length. -/
def read : Field → Parse Value
  | u8 _ => do
    let n ← sspUChar
    pure (.num n)
  | u16 _ => do
    let n ← sspNetU16
    pure (.num n)
  | u32 _ => do
    let n ← sspNetU32
    pure (.num n)
  | string s _ => do
    let bs ← sspMemMove s.length
    pure (.bytes bs)
  | bin val => do
    let bs ← sspMemMove val.length
    pure (.bytes bs)

theorem add_eq (f : Field) : f.add = sAddBin f.encode := by
  cases f with
  | u8 n => rw [add, sAddUInt8, UInt8.ofNat_toNat, encode]
  | u16 n => rfl
  | u32 n => rfl
  | string s noNul => rfl
  | bin val => rfl

end Field

/-- Append the fields, as long as they fit. -/
def addFields : List Field → Syn Bool
  | [] => pure true
  | f :: fs => f.add <&&> addFields fs

def encodeFields (fs : List Field) : Bytes := fs.flatMap Field.encode

/-- The reply under construction grew by `v`, and nothing else changed. -/
structure Appended (v : Bytes) (s s' : State) : Prop where
  same : ∃ b n, s' = s.withReply b n
  bytes : s'.ctx.replyBuffer.bytes = overwrite s.ctx.replyBuffer.bytes s.ctx.replyCur v
  cur : s'.ctx.replyCur = s.ctx.replyCur + v.length

section
variable {s s' s'' : State} {v w : Bytes} {f : Field} {fs : List Field}

theorem Appended.nil (s : State) : Appended [] s s :=
  ⟨⟨s.ctx.replyBuffer, s.ctx.replyCur, rfl⟩, (overwrite_nil _ _).symm, rfl⟩

theorem Appended.trans (h : Appended v s s') (h' : Appended w s' s'')
    (hfit : s.ctx.replyCur + v.length ≤ replyBufferSize) : Appended (v ++ w) s s'' := by
  obtain ⟨b, n, hs⟩ := h.same
  obtain ⟨b', n', hs'⟩ := h'.same
  refine ⟨⟨b', n', by rw [hs', hs]; rfl⟩, ?_, ?_⟩
  · rw [h'.bytes, h.bytes, h.cur, overwrite_append w (by rw [s.ctx.replyBuffer.size]; exact hfit)]
  · rw [h'.cur, h.cur, List.length_append, Nat.add_assoc]

theorem sAddBin_fits (hfit : s.ctx.replyCur + v.length ≤ replyBufferSize) :
    ∃ s', (sAddBin v).run s = .ok true s' ∧ Appended v s s' := by
  have hw : wp (sAddBin v) (fun r s' => r = true ∧ Appended v s s') (fun _ _ => False) s := by
    rw [wp_sAddBin, dif_neg (Nat.not_lt.mpr hfit)]
    exact ⟨rfl, ⟨_, _, rfl⟩, rfl, rfl⟩
  obtain ⟨r, s', hrun, rfl, happ⟩ := exists_ok_of_wp hw
  exact ⟨s', hrun, happ⟩

/-- A write that does not fit returns false, and changes nothing. -/
theorem sAddBin_short (hshort : replyBufferSize < s.ctx.replyCur + v.length) : (sAddBin v).run s = .ok false s := by
  have hw : wp (sAddBin v) (fun r s' => r = false ∧ s' = s) (fun _ _ => False) s := by
    rw [wp_sAddBin, dif_pos hshort]
    exact ⟨rfl, rfl⟩
  obtain ⟨r, s', hrun, rfl, rfl⟩ := exists_ok_of_wp hw
  exact hrun

theorem andM_run_true {m m' : Syn Bool} (h : m.run s = .ok true s') : (m <&&> m').run s = m'.run s' := by
  simp only [andM, EStateM.run_bind, h]
  rfl

theorem andM_run_false {m m' : Syn Bool} (h : m.run s = .ok false s') : (m <&&> m').run s = .ok false s' := by
  simp only [andM, EStateM.run_bind, h]
  rfl

theorem encodeFields_cons (f : Field) (fs : List Field) : encodeFields (f :: fs) = f.encode ++ encodeFields fs :=
  List.flatMap_cons

theorem addFields_fits (hfit : s.ctx.replyCur + (encodeFields fs).length ≤ replyBufferSize) :
    ∃ s', (addFields fs).run s = .ok true s' ∧ Appended (encodeFields fs) s s' := by
  induction fs generalizing s with
  | nil => exact ⟨s, rfl, .nil s⟩
  | cons f fs ih =>
    rw [encodeFields_cons, List.length_append] at hfit
    have hfst : s.ctx.replyCur + f.encode.length ≤ replyBufferSize := by omega
    obtain ⟨s₁, hrun, happ⟩ := sAddBin_fits hfst
    have hrest : s₁.ctx.replyCur + (encodeFields fs).length ≤ replyBufferSize := by
      rw [happ.cur]
      omega
    obtain ⟨s₂, hrun', happ'⟩ := ih hrest
    rw [addFields, f.add_eq, andM_run_true hrun, encodeFields_cons]
    exact ⟨s₂, hrun', happ.trans happ' hfst⟩

/-- The fields in front of the first that does not fit are written, and that one is not touched. -/
theorem addFields_short (hne : fs ≠ [])
    (hshort : replyBufferSize < s.ctx.replyCur + (encodeFields fs).length) : ∃ pre f post s',
      fs = pre ++ f :: post ∧ (addFields pre).run s = .ok true s' ∧ Appended (encodeFields pre) s s' ∧
      replyBufferSize < s'.ctx.replyCur + f.encode.length ∧ f.add.run s' = .ok false s' ∧
      (addFields fs).run s = .ok false s' := by
  induction fs generalizing s with
  | nil => exact absurd rfl hne
  | cons f fs ih =>
    rw [encodeFields_cons, List.length_append] at hshort
    by_cases hfst : s.ctx.replyCur + f.encode.length ≤ replyBufferSize
    · have hrest : fs ≠ [] := by
        rintro rfl
        rw [encodeFields, List.flatMap_nil, List.length_nil] at hshort
        omega
      obtain ⟨s₁, hrun, happ⟩ := sAddBin_fits hfst
      have hshort₁ : replyBufferSize < s₁.ctx.replyCur + (encodeFields fs).length := by
        rw [happ.cur]
        omega
      obtain ⟨pre, g, post, s', rfl, hpre, happ', hg, hgrun, hall⟩ := ih hrest hshort₁
      refine ⟨f :: pre, g, post, s', rfl, ?_, ?_, hg, hgrun, ?_⟩
      · rw [addFields, f.add_eq, andM_run_true hrun, hpre]
      · rw [encodeFields_cons]
        exact happ.trans happ' hfst
      · rw [addFields, f.add_eq, andM_run_true hrun, hall]
    · have hrun : f.add.run s = .ok false s := by rw [f.add_eq, sAddBin_short (Nat.not_le.mp hfst)]
      refine ⟨[], f, fs, s, rfl, rfl, .nil s, Nat.not_le.mp hfst, hrun, ?_⟩
      rw [addFields, andM_run_false hrun]

end

/-! ### Reading back -/

def readFields : List Field → Parse (List Value)
  | [] => pure []
  | f :: fs => do
    let v ← f.read
    let vs ← readFields fs
    pure (v :: vs)

/-- What was written behind offset `cur` of the reply buffer. -/
def State.writtenFrom (s : State) (cur : Nat) : SspBuf :=
  ⟨s.ctx.replyBuffer.bytes.drop cur, 0, s.ctx.replyCur - cur⟩

section
variable {msg : SspBuf} {body : Bytes} {p : Nat} {f : Field} {fs : List Field}

theorem Field.read_run (h : Carries msg body) (hbody : body.length < 2 ^ 64) {pre rest : Bytes}
    (hsplit : body = pre ++ f.encode ++ rest) :
    f.read.run (msg.at pre.length) = .ok f.value (msg.at (pre ++ f.encode).length) := by
  have hlen : pre.length + f.encode.length ≤ body.length := by
    rw [hsplit, List.length_append, List.length_append]
    omega
  have htake : (sspTake f.encode.length).run (msg.at pre.length) = .ok f.encode (msg.at (pre ++ f.encode).length) := by
    have hslice : slice body pre.length f.encode.length = f.encode := by
      rw [hsplit, List.append_assoc, slice, List.drop_left, List.take_left]
    rw [h.sspTake_run (by omega), if_pos hlen, hslice, List.length_append]
  have hnum : (do let n ← sspNetInt f.encode.length; pure (.num n) : Parse Value).run (msg.at pre.length) =
      .ok (.num (beNat f.encode)) (msg.at (pre ++ f.encode).length) := by
    simp only [sspNetInt, EStateM.run_bind, htake]
    rfl
  have hbytes : (do let bs ← sspMemMove f.encode.length; pure (.bytes bs) : Parse Value).run (msg.at pre.length) =
      .ok (.bytes f.encode) (msg.at (pre ++ f.encode).length) := by
    simp only [sspMemMove, EStateM.run_bind, htake]
    rfl
  cases f with
  | u8 n =>
    have hval : beNat (u8 n).encode = n.toNat := by simp [encode, beNat]
    rw [hval] at hnum
    exact hnum
  | u16 n =>
    have hval : beNat (u16 n).encode = n.toNat := beNat_be16 n.toNat_lt
    rw [hval] at hnum
    exact hnum
  | u32 n =>
    have hval : beNat (u32 n).encode = n.toNat := beNat_be32 n.toNat_lt
    rw [hval] at hnum
    exact hnum
  | string s noNul => exact hbytes
  | bin val => exact hbytes

theorem readFields_run (h : Carries msg body) (hbody : body.length < 2 ^ 64) {pre : Bytes}
    (hsplit : body = pre ++ encodeFields fs) :
    (readFields fs).run (msg.at pre.length) = .ok (fs.map Field.value) (msg.at body.length) := by
  induction fs generalizing pre with
  | nil =>
    rw [hsplit, encodeFields, List.flatMap_nil, List.append_nil]
    rfl
  | cons f fs ih =>
    rw [encodeFields_cons, ← List.append_assoc] at hsplit
    simp only [readFields, EStateM.run_bind, f.read_run h hbody hsplit, ih hsplit]
    rfl

end

/-- What was written is read back to its end. -/
theorem Appended.readFields {s s' : State} {fs : List Field} (h : Appended (encodeFields fs) s s')
    (hfit : s.ctx.replyCur + (encodeFields fs).length ≤ replyBufferSize) :
    (readFields fs).run (s'.writtenFrom s.ctx.replyCur) = .ok (fs.map Field.value)
      { s'.writtenFrom s.ctx.replyCur with pos := (s'.writtenFrom s.ctx.replyCur).len } := by
  have hsize := s.ctx.replyBuffer.size
  have hcur : (s.ctx.replyBuffer.bytes.take s.ctx.replyCur).length = s.ctx.replyCur := by
    rw [List.length_take, hsize]
    omega
  have hlen : (s'.writtenFrom s.ctx.replyCur).len = (encodeFields fs).length := by
    show s'.ctx.replyCur - s.ctx.replyCur = _
    rw [h.cur]
    omega
  have hmem : encodeFields fs <+: (s'.writtenFrom s.ctx.replyCur).data := by
    show encodeFields fs <+: s'.ctx.replyBuffer.bytes.drop s.ctx.replyCur
    rw [h.bytes, overwrite, List.append_assoc, List.drop_append, hcur, Nat.sub_self, List.drop_zero,
      List.drop_of_length_le (Nat.le_of_eq hcur), List.nil_append]
    exact List.prefix_append _ _
  have hcarries : Carries (s'.writtenFrom s.ctx.replyCur) (encodeFields fs) := ⟨rfl, hlen, hmem⟩
  have hbody : (encodeFields fs).length < 2 ^ 64 :=
    Nat.lt_of_le_of_lt (Nat.le_trans (Nat.le_add_left _ _) hfit) (by decide)
  have hrun := readFields_run hcarries hbody (List.nil_append (encodeFields fs)).symm
  rw [hlen]
  exact hrun

/-! ### Reading anything -/

/-- A call of one of the readers, with the object that its destination points to. -/
inductive ReadCall
  | seek (len : Nat)
  | netInt (len : Nat) (res : Option Bytes)
  | memMove (len : Nat) (dest : Option Bytes)

namespace ReadCall

def len : ReadCall → Nat
  | seek len => len
  | netInt len _ => len
  | memMove len _ => len

def dest : ReadCall → Option Bytes
  | seek _ => none
  | netInt _ res => res
  | memMove _ dest => dest

def run (build : Build) (b : SspMem) : ReadCall → ReadResult
  | seek len => ⟨(b.sspSeek len).1, (b.sspSeek len).2, none⟩
  | netInt len res => b.sspNetInt build len res
  | memMove len dest => b.sspMemMove len dest

end ReadCall

/-- One call after another. -/
def runCalls (build : Build) (calls : List ReadCall) (b : SspMem) : SspMem :=
  calls.foldl (fun b c => (c.run build b).buf) b

/-- The position is inside the buffer, and so is what was read. -/
structure SspMem.Inside (b : SspMem) : Prop where
  pos : b.pos ≤ b.len
  touched : ∀ i ∈ b.touched, i < b.len

namespace SspMem
variable {build : Build} {b : SspMem} {n : Nat}

theorem Inside.advance (h : b.Inside) (hle : b.pos + n ≤ b.len) : (b.advance n).Inside := by
  refine ⟨hle, fun i hi => ?_⟩
  rcases List.mem_append.mp hi with hi | hi
  · exact h.touched i hi
  · have := List.mem_range'_1.mp hi
    show i < b.len
    omega

theorem Inside.seek (h : b.Inside) (hle : b.pos + n ≤ b.len) : { b with pos := b.pos + n }.Inside := ⟨hle, h.touched⟩

end SspMem

section
variable {build : Build} {b : SspMem} {c : ReadCall} {calls : List ReadCall}

/-- A read past the end returns false and changes neither the position nor the destination. -/
theorem ReadCall.run_short (hpos : b.pos + c.len < 2 ^ 64) (hshort : b.len < b.pos + c.len) :
    c.run build b = ⟨false, b, c.dest⟩ := by
  cases c with
  | seek len =>
    have hseek : b.sspSeek len = (false, b) := SspMem.sspSeek_short hpos hshort
    unfold run
    dsimp only
    rw [hseek]
    rfl
  | netInt len res => exact SspMem.sspNetInt_short hpos hshort res
  | memMove len dest => exact SspMem.sspMemMove_short hpos hshort dest

/-- Any call keeps the buffer and what it says of itself, and reads inside it. -/
theorem ReadCall.run_inside (h : b.Inside) (hpos : b.pos + c.len < 2 ^ 64) :
    (c.run build b).buf.Inside ∧ (c.run build b).buf.len = b.len ∧ (c.run build b).buf.data = b.data := by
  by_cases hle : b.pos + c.len ≤ b.len
  · cases c with
    | seek len =>
      have hseek : b.sspSeek len = (true, { b with pos := b.pos + len }) := SspMem.sspSeek_fits hpos hle
      unfold run
      dsimp only
      rw [hseek]
      exact ⟨h.seek hle, rfl, rfl⟩
    | netInt len res =>
      cases res with
      | none =>
        have hseek : b.sspSeek len = (true, { b with pos := b.pos + len }) := SspMem.sspSeek_fits hpos hle
        unfold run SspMem.sspNetInt
        dsimp only
        rw [hseek]
        exact ⟨h.seek hle, rfl, rfl⟩
      | some res =>
        have hread : (netInt len (some res)).run build b =
            ⟨true, b.advance len, some (SspMem.netIntLoop build len len 0 b res).2⟩ := SspMem.sspNetInt_fits hpos hle res
        rw [hread]
        exact ⟨h.advance hle, rfl, rfl⟩
    | memMove len dest =>
      cases dest with
      | none => exact ⟨h, rfl, rfl⟩
      | some dest =>
        have hread : (memMove len (some dest)).run build b =
            ⟨true, b.advance len, some (overwrite dest 0 (b.bytes len))⟩ := SspMem.sspMemMove_fits hpos hle dest
        rw [hread]
        exact ⟨h.advance hle, rfl, rfl⟩
  · rw [run_short hpos (Nat.not_le.mp hle)]
    exact ⟨h, rfl, rfl⟩

theorem runCalls_inside (h : b.Inside) (hlen : b.len < 2 ^ 63) (hcalls : ∀ c ∈ calls, c.len < 2 ^ 32) :
    (runCalls build calls b).Inside ∧ (runCalls build calls b).len = b.len ∧ (runCalls build calls b).data = b.data := by
  induction calls generalizing b with
  | nil => exact ⟨h, rfl, rfl⟩
  | cons c calls ih =>
    obtain ⟨hc, hcalls⟩ := List.forall_mem_cons.mp hcalls
    have hpos := h.pos
    obtain ⟨hin, hlen', hdata⟩ := @ReadCall.run_inside build b c h (by omega)
    obtain ⟨hrun, hrlen, hrdata⟩ := ih hin (by omega) hcalls
    exact ⟨hrun, hrlen.trans hlen', hrdata.trans hdata⟩

end

/-! ### All of it -/

/-- The fields are written and read back if they fit, and otherwise the first that does not fit leaves everything as
it is. -/
structure FieldsExact (fs : List Field) (s : State) : Prop where
  back : s.ctx.replyCur + (encodeFields fs).length ≤ replyBufferSize → ∃ s', (addFields fs).run s = .ok true s' ∧
    Appended (encodeFields fs) s s' ∧ (readFields fs).run (s'.writtenFrom s.ctx.replyCur) = .ok (fs.map Field.value)
      { s'.writtenFrom s.ctx.replyCur with pos := (s'.writtenFrom s.ctx.replyCur).len }
  clean : fs ≠ [] → replyBufferSize < s.ctx.replyCur + (encodeFields fs).length → ∃ pre f post s',
    fs = pre ++ f :: post ∧ (addFields pre).run s = .ok true s' ∧ Appended (encodeFields pre) s s' ∧
    replyBufferSize < s'.ctx.replyCur + f.encode.length ∧ f.add.run s' = .ok false s' ∧
    (addFields fs).run s = .ok false s'

/-- After the calls, what was read is inside the buffer, and a call that goes beyond its end does nothing. -/
structure ReadsInside (build : Build) (calls : List ReadCall) (b : SspMem) : Prop where
  inside : (runCalls build calls b).Inside
  len : (runCalls build calls b).len = b.len
  clean : ∀ c : ReadCall, c.len < 2 ^ 32 → b.len < (runCalls build calls b).pos + c.len →
    c.run build (runCalls build calls b) = ⟨false, runCalls build calls b, c.dest⟩

/-- Fields are written, refused and read back exactly, and no reader leaves its buffer. -/
theorem fields_exact (fs : List Field) (s : State) (build : Build) (calls : List ReadCall) (b : SspMem)
    (hpos : b.pos ≤ b.len) (hlen : b.len < 2 ^ 63) (htouched : b.touched = []) (hcalls : ∀ c ∈ calls, c.len < 2 ^ 32) :
    FieldsExact fs s ∧ ReadsInside build calls b := by
  have hin : b.Inside := ⟨hpos, fun i hi => by rw [htouched] at hi; cases hi⟩
  obtain ⟨hrun, hrlen, -⟩ := @runCalls_inside build b calls hin hlen hcalls
  refine ⟨⟨fun hfit => ?_, addFields_short⟩, hrun, hrlen, fun c hc hshort => ?_⟩
  · obtain ⟨s', hadd, happ⟩ := addFields_fits hfit
    exact ⟨s', hadd, happ, happ.readFields hfit⟩
  · have hle := hrun.pos
    exact ReadCall.run_short (by omega) (by omega)

/-- Three fields of seven bytes, and reads of a buffer of eight bytes of which the last goes beyond it. -/
theorem fields_exact_three : FieldsExact [.u8 1, .u16 515, .bin [4, 5, 6, 7]] (.init .sample) ∧
    ReadsInside .littleEndian [.netInt 4 (some [0, 0, 0, 0]), .seek 2, .memMove 3 (some [0, 0, 0])]
      ⟨fun i => UInt8.ofNat i, 0, 8, []⟩ :=
  fields_exact _ _ _ _ _ (by decide) (by decide) rfl (by decide)

end Waynergy
