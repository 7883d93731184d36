import Waynergy.ClipHandlers
import Waynergy.Rules

/-!
# The clipboard slots as a machine of their own

`ClipAct` is what an operation asks of the clipboard, and `Effect` what then becomes of the two slots and what
the clipboard callback is told. `clip_spec` shows that every operation of the client does just that, and that
it stays inside the clipboard buffers, as long as the recorded sizes are covered by the blocks (`Sized`).
Everything about histories of the clipboard is derived from it.
-/

namespace Waynergy
open Lib
variable {s s' s'' : State} {c : ClipSlot}

/-! ### What is asked -/

/-- What an operation asks of the clipboard; `copied` is what could be copied out of a message. -/
inductive ClipAct
  | none
  | release (i : Fin 2)
  | leave
  | start (e : MsgEnv) (i : Fin 2) (len : Nat) (copied : Option Bytes)
  | chunk (i : Fin 2) (len : Nat) (copied : Option Bytes)
  | finish (i : Fin 2)
  | update (h : Heap) (i : Fin 2) (data : Bytes)

/-- The clipboard index of a CCLP message. -/
def cclpId : Parse Nat := do
  let id ← sspUChar
  let _seq ← sspNetU32
  pure id

def dclpAct (e : MsgEnv) (h : DclpHeader) (rest : SspBuf) : ClipAct :=
  if hid : h.id < 2 then
    if h.mark = synDataStart then .start e ⟨h.id, hid⟩ h.len (payload rest h.len)
    else if h.mark = synDataChunk then .chunk ⟨h.id, hid⟩ h.len (payload rest h.len)
    else if h.mark = synDataEnd then .finish ⟨h.id, hid⟩
    else .none
  else .none

def pktAct (e : MsgEnv) (rest : SspBuf) : Pkt → ClipAct
  | .cout => .leave
  | .cclp => match cclpId.run rest with
    | .ok id _ => if hid : id < 2 then .release ⟨id, hid⟩ else .none
    | .error .. => .none
  | .dclp => match dclpHeader.run rest with
    | .ok h rest => dclpAct e h rest
    | .error .. => .none
  | _ => .none

/-- What a message asks of the clipboard. -/
def msgAct (e : MsgEnv) (msg : SspBuf) : ClipAct :=
  match sIsWelcome msg with
  | .ok none => match (sspMemMove 4).run msg with
    | .ok pktId rest => match Pkt.ofId pktId with
      | some p => pktAct e rest p
      | none => .none
    | .error .. => .none
  | _ => .none

/-- What an operation asks of the clipboard in the state `s`. -/
def Op.act (s : State) : Op → ClipAct
  | .message e mem len => if s.ctx.connected then msgAct e ⟨mem, 0, len⟩ else .none
  | .updateClipBuf h _ i data => .update h i data
  | _ => .none

/-! ### What becomes of it -/

/-- What the clipboard callback was told. -/
def told (evs : List Event) : List (Nat × Nat × Bytes) := evs.filterMap fun
  | .clipboard id format data => some (id, format, data)
  | _ => none

theorem told_append (evs evs' : List Event) : told (evs ++ evs') = told evs ++ told evs' := List.filterMap_append

theorem told_of_calm {evs : List Event} (h : ∀ ev ∈ evs, ev.Calm) : told evs = [] := by
  refine List.filterMap_eq_nil_iff.mpr fun ev hev => ?_
  have := h ev hev
  cases ev <;> simp_all [Event.Calm]

/-- The slots are `clip` now, and the callback was told `ts`. -/
structure Becomes (clip : Fin 2 → ClipSlot) (ts : List (Nat × Nat × Bytes)) (s s' : State) : Prop where
  clip : s'.ctx.clip = clip
  callbacks : s'.ctx.callbacks = s.ctx.callbacks
  out : ∃ evs, s'.out = s.out ++ evs ∧ told evs = ts ∧
    (s.ctx.replyCur = 4 → .replyError ∉ evs → s'.ctx.replyCur = 4)

theorem Becomes.trans {clip clip' : Fin 2 → ClipSlot} {ts ts' : List (Nat × Nat × Bytes)}
    (h : Becomes clip ts s s') (h' : Becomes clip' ts' s' s'') : Becomes clip' (ts ++ ts') s s'' := by
  obtain ⟨evs, ho, ht, hcur⟩ := h.out
  obtain ⟨evs', ho', ht', hcur'⟩ := h'.out
  refine ⟨h'.clip, h'.callbacks.trans h.callbacks, evs ++ evs', by rw [ho', ho, List.append_assoc],
    by rw [told_append, ht, ht'], fun hbase hev => ?_⟩
  rw [List.mem_append, not_or] at hev
  exact hcur' (hcur hbase hev.1) hev.2

/-- The clipboard is not touched, and nothing is told. -/
abbrev Keeps (s s' : State) : Prop := Becomes s.ctx.clip [] s s'

instance : Frame Keeps where
  refl s := ⟨rfl, rfl, [], by simp, rfl, fun h _ => h⟩
  trans h h' := by
    have := Becomes.trans h h'
    rwa [h.clip] at this

theorem Keeps.refl (s : State) : Keeps s s := Frame.refl s

theorem Keeps.ctx {c : Context} (hclip : c.clip = s.ctx.clip) (hcb : c.callbacks = s.ctx.callbacks)
    (hcur : s.ctx.replyCur = 4 → c.replyCur = 4) : Keeps s { s with ctx := c } :=
  ⟨hclip, hcb, [], by simp, rfl, fun h _ => hcur h⟩

theorem Keeps.emits {evs : List Event} (h : told evs = []) : Keeps s { s with out := s.out ++ evs } :=
  ⟨rfl, rfl, evs, rfl, h, fun h _ => h⟩

theorem Keeps.of_grows {ok : Event → Prop} (hclip : s'.ctx.clip = s.ctx.clip)
    (hcb : s'.ctx.callbacks = s.ctx.callbacks) (hout : Grows ok s s') (hok : ∀ ev, ok ev → ev.Calm) : Keeps s s' := by
  obtain ⟨evs, ho, he, hcur⟩ := hout
  exact ⟨hclip, hcb, evs, ho, told_of_calm fun ev hev => hok ev (he ev hev), hcur⟩

theorem Plain.keeps (h : Plain s s') : Keeps s s' := .of_grows h.ctx.clip (by rw [h.ctx.cfg]) h.out fun _ => id

theorem Sends.keeps (h : Sends s s') : Keeps s s' := h.plain.keeps

theorem Lost.keeps (h : Lost s s') : Keeps s s' := by
  obtain ⟨⟨b, hc⟩, -, hout⟩ := h
  exact .of_grows (by rw [hc]) (by rw [hc]) hout fun _ => Event.IsHello.calm

theorem Left.becomes (h : Left s s') : Becomes (fun i => (s.ctx.clip i).released) [] s s' := by
  obtain ⟨⟨b, n, hc⟩, -, pre, post, ho, he, hcur⟩ := h
  have hcalm : ∀ evs, (∀ ev ∈ evs, ev ∈ pre ++ post) → told evs = [] := fun evs hsub =>
    told_of_calm fun ev hev => (he ev (hsub ev hev)).calm
  have hactive : told (screenActiveCallback s.ctx false) = [] := by
    unfold screenActiveCallback
    split <;> rfl
  refine ⟨by rw [hc], by rw [hc], _, ho, ?_, fun hbase hev => hcur hbase fun hm => hev ?_⟩
  · rw [told_append, told_append, hactive, hcalm pre (by simp +contextual), hcalm post (by simp +contextual)]
    rfl
  · simp only [List.mem_append] at hm ⊢
    tauto

/-- The clipboard slots with slot `i` replaced, and nothing told. -/
theorem Sends.becomes {i : Fin 2} {c : ClipSlot} (h : Sends (s.setSlot i c) s') :
    Becomes (Function.update s.ctx.clip i c) [] s s' := by
  obtain ⟨hclip, hcb, hout⟩ := h.keeps
  exact ⟨hclip, hcb, hout⟩

/-- A chunk of `len` bytes is accepted. -/
def ClipSlot.Accepts (c : ClipSlot) (len : Nat) : Prop := c.inStream = true ∧ sizeAdd c.pos len ≤ c.posExpect

instance (c : ClipSlot) (len : Nat) : Decidable (c.Accepts len) := inferInstanceAs (Decidable (_ ∧ _))

/-- The slot after an end message. -/
def ClipSlot.ended (c : ClipSlot) : ClipSlot :=
  if (readClipboard c.contents).2 then { c with inStream := false } else c

/-- What the callback is told of the formats of slot `i` at an end message. -/
def Context.tells (c : Context) (i : Fin 2) : List (Nat × Nat × Bytes) :=
  if c.callbacks.clipboard then (readClipboard (c.clip i).contents).1.map fun entry => (i.val, entry) else []

/-- The duplicate check finds `data`: behind one of the size fields that it looks at. -/
def ClipSlot.Contains (c : ClipSlot) (data : Bytes) : Prop :=
  c.inStream = false ∧ ∃ k < wordAt c.mem 0, 12 + 8 * k ≤ c.len ∧ wordAt c.mem (8 + 8 * k) = data.length ∧
    slice c.mem (12 + 8 * k) data.length = data

/-- What becomes of the slots, and what the callback is told, when `act` is asked. -/
inductive ClipStep (ctx : Context) : ClipAct → (Fin 2 → ClipSlot) → List (Nat × Nat × Bytes) → Prop
  | none : ClipStep ctx .none ctx.clip []
  | release (i : Fin 2) : ClipStep ctx (.release i) (Function.update ctx.clip i (ctx.clip i).released) []
  | leave : ClipStep ctx .leave (fun i => (ctx.clip i).released) []
  | start {e : MsgEnv} {i : Fin 2} {len : Nat} {copied buf : Option Bytes}
      (hroom : (ctx.clip i).Room e.heap (announced e len copied) buf) :
      ClipStep ctx (.start e i len copied)
        (Function.update ctx.clip i ((ctx.clip i).started buf (announced e len copied))) []
  | accept {i : Fin 2} {len : Nat} {copied : Option Bytes} (h : (ctx.clip i).Accepts len) (hlen : len < 2 ^ 32)
      (hcopied : ∀ bs, copied = some bs → bs.length = len) :
      ClipStep ctx (.chunk i len copied) (Function.update ctx.clip i ((ctx.clip i).chunked copied len)) []
  | drop {i : Fin 2} {len : Nat} {copied : Option Bytes} (h : ¬ (ctx.clip i).Accepts len) :
      ClipStep ctx (.chunk i len copied) ctx.clip []
  | finish {i : Fin 2} (h : (ctx.clip i).inStream = true) :
      ClipStep ctx (.finish i) (Function.update ctx.clip i (ctx.clip i).ended) (ctx.tells i)
  | idle {i : Fin 2} (h : (ctx.clip i).inStream = false) : ClipStep ctx (.finish i) ctx.clip []
  | duplicate {h : Heap} {i : Fin 2} {data : Bytes} (hdup : (ctx.clip i).Contains data) :
      ClipStep ctx (.update h i data) ctx.clip []
  | update {h : Heap} {i : Fin 2} {data : Bytes} {buf : Option Bytes} (hnew : ¬ (ctx.clip i).Contains data)
      (hroom : (ctx.clip i).Room h ((data.length + 12) % 2 ^ 32) buf)
      (hfits : data.length + 12 ≤ (buf.getD []).length) :
      ClipStep ctx (.update h i data) (Function.update ctx.clip i ((ctx.clip i).updated (buf.getD []) data)) []

/-- The operation did what was asked of the clipboard. -/
def Effect (act : ClipAct) (s s' : State) : Prop := ∃ clip ts, ClipStep s.ctx act clip ts ∧ Becomes clip ts s s'

theorem Keeps.effect (h : Keeps s s') : Effect .none s s' := ⟨_, _, .none, h⟩

/-! ### Inside the buffers -/

/-- The recorded sizes are covered by the block. -/
structure ClipSlot.Sized (c : ClipSlot) : Prop where
  len : c.len ≤ c.cap
  cap : c.cap < 2 ^ 63
  expect : c.inStream = true → c.posExpect ≤ c.cap
  pos : c.inStream = true → c.pos ≤ c.posExpect

/-- The stops at an access outside a clipboard buffer: storing a chunk, parsing, or storing the local data. -/
def OutsideClip : Stop → Prop
  | .fault .clipCopy | .fault .clipParse | .fault .clipEncode => True
  | _ => False

/-! ### The duplicate check -/

theorem wp_sizeField {msg : SspBuf} {body : Bytes} (h : Carries msg body) {p : Nat} (hp : p + 8 < 2 ^ 64) :
    wp (do sspSeek 4; sspNetU32 : Parse Nat)
      (fun flen buf => p + 8 ≤ body.length ∧ flen = wordAt body (p + 4) ∧ buf = msg.at (p + 8))
      (fun fail _ => fail = .short ∧ body.length < p + 8) (msg.at p) := by
  simp only [sspNetU32, wp_bind, h.wp_sspSeek (p := p) (n := 4) (by omega),
    h.wp_sspNetInt (p := p + 4) (n := 4) (by omega)]
  split
  · split
    · exact ⟨by omega, rfl, trivial⟩
    · exact ⟨trivial, by omega⟩
  · exact ⟨trivial, by omega⟩

/-- One of the `n` size fields from `p + 4` on, at distance 8, and the bytes behind it are those of `data`. -/
def FoundIn (mem : Bytes) (len : Nat) (data : Bytes) (n p : Nat) : Prop :=
  ∃ k < n, p + 8 * k + 8 ≤ len ∧ wordAt mem (p + 8 * k + 4) = data.length ∧
    slice mem (p + 8 * k + 8) data.length = data

theorem foundIn_succ {mem data : Bytes} {len n p : Nat} : FoundIn mem len data (n + 1) p ↔
    (p + 8 ≤ len ∧ wordAt mem (p + 4) = data.length ∧ slice mem (p + 8) data.length = data) ∨
      FoundIn mem len data n (p + 8) := by
  constructor
  · rintro ⟨k, hk, hlen, hsize, hdata⟩
    cases k with
    | zero => exact .inl ⟨hlen, hsize, hdata⟩
    | succ k =>
      have hp : p + 8 * (k + 1) = p + 8 + 8 * k := by omega
      rw [hp] at hlen hsize hdata
      exact .inr ⟨k, by omega, hlen, hsize, hdata⟩
  · rintro (⟨hlen, hsize, hdata⟩ | ⟨k, hk, hlen, hsize, hdata⟩)
    · exact ⟨0, by omega, hlen, hsize, hdata⟩
    · have hp : p + 8 + 8 * k = p + 8 * (k + 1) := by omega
      rw [hp] at hlen hsize hdata
      exact ⟨k + 1, by omega, hlen, hsize, hdata⟩

theorem containsLoop_spec {mem : Bytes} {len : Nat} (hlen : len ≤ mem.length) (hcap : mem.length < 2 ^ 63)
    (data : Bytes) (s : State) (n p : Nat) (hp : p ≤ len) : wp (containsLoop data n ⟨mem, p, len⟩)
      (fun b s' => s' = s ∧ (b = true ↔ FoundIn mem len data n p))
      (fun stop s' => stop = .fault .clipCompare ∧ s' = s ∧ ¬ FoundIn mem len data n p) s := by
  have h : Carries ⟨mem, 0, len⟩ (mem.take len) :=
    ⟨rfl, by rw [List.length_take]; exact (Nat.min_eq_left hlen).symm, List.take_prefix _ _⟩
  have hbody : (mem.take len).length = len := by rw [List.length_take]; exact Nat.min_eq_left hlen
  induction n generalizing p with
  | zero => exact ⟨rfl, by simp [FoundIn]⟩
  | succ n ih =>
    have hfield := wp_sizeField h (p := p) (by omega)
    rw [hbody] at hfield
    have hword : p + 8 ≤ len → wordAt (mem.take len) (p + 4) = wordAt mem (p + 4) := fun hin => by
      rw [wordAt, wordAt]
      exact congrArg beNat (h.slice_eq (by omega)).symm
    unfold containsLoop
    cases hrun : (do sspSeek 4; sspNetU32 : Parse Nat).run ((⟨mem, 0, len⟩ : SspBuf).at p) with
    | error fail b =>
      obtain ⟨rfl, hout⟩ := wp_error hfield hrun
      have hrun' : (do sspSeek 4; sspNetU32 : Parse Nat).run ⟨mem, p, len⟩ = .error .short b := hrun
      simp only [hrun', wp_pure]
      refine ⟨trivial, fun h => absurd h Bool.false_ne_true, ?_⟩
      rintro ⟨k, -, hin, -⟩
      omega
    | ok flen b =>
      obtain ⟨hin, rfl, rfl⟩ := wp_ok hfield hrun
      have hrun' : (do sspSeek 4; sspNetU32 : Parse Nat).run ⟨mem, p, len⟩ =
        .ok (wordAt (mem.take len) (p + 4)) ⟨mem, p + 8, len⟩ := hrun
      have ih := ih (p + 8) hin
      simp only [hrun', hword hin, foundIn_succ, wp_ite, wp_throw, wp_pure]
      split
      · rename_i hsize
        split
        · rename_i hout
          have hno : ∀ q, p + 8 ≤ q → q ≤ len → slice mem q data.length ≠ data := by
            intro q hq hqlen heq
            have := congrArg List.length heq
            rw [slice, List.length_take, List.length_drop] at this
            omega
          refine ⟨trivial, trivial, ?_⟩
          rintro (⟨-, -, heq⟩ | ⟨k, -, hk, -, heq⟩)
          · exact hno _ (Nat.le_refl _) hin heq
          · exact hno _ (by omega) hk heq
        · split
          · rename_i heq
            exact ⟨trivial, fun _ => .inl ⟨hin, hsize, heq⟩, fun _ => trivial⟩
          · rename_i hne
            refine wp_mono ih ?_ ?_
            · rintro b s' ⟨hs', hb⟩
              exact ⟨hs', hb.trans ⟨.inr, fun h => h.resolve_left fun h => hne h.2.2⟩⟩
            · rintro stop s' ⟨hstop, hs', hnot⟩
              exact ⟨hstop, hs', fun h => hnot (h.resolve_left fun h => hne h.2.2)⟩
      · rename_i hsize
        refine wp_mono ih ?_ ?_
        · rintro b s' ⟨hs', hb⟩
          exact ⟨hs', hb.trans ⟨.inr, fun h => h.resolve_left fun h => hsize h.2.1⟩⟩
        · rintro stop s' ⟨hstop, hs', hnot⟩
          exact ⟨hstop, hs', fun h => hnot (h.resolve_left fun h => hsize h.2.1)⟩

theorem contains_iff (i : Fin 2) (data : Bytes) (s : State) (hs : (s.ctx.clip i).Sized) :
    wp (uSynergyClipBufContains i data)
      (fun b s' => s' = s ∧ (b = true ↔ (s.ctx.clip i).Contains data))
      (fun stop s' => stop = .fault .clipCompare ∧ s' = s ∧ ¬ (s.ctx.clip i).Contains data) s := by
  have hlen := hs.len
  have hcap := hs.cap
  have hfound : (s.ctx.clip i).Contains data ↔ (s.ctx.clip i).inStream = false ∧
      FoundIn (s.ctx.clip i).mem (s.ctx.clip i).len data (wordAt (s.ctx.clip i).mem 0) 4 := by
    have h8 : ∀ k, 4 + 8 * k + 8 = 12 + 8 * k := fun k => by omega
    have h4 : ∀ k, 4 + 8 * k + 4 = 8 + 8 * k := fun k => by omega
    simp only [FoundIn, h8, h4, ClipSlot.Contains]
  have hshort : (s.ctx.clip i).len < 4 → ¬ (s.ctx.clip i).Contains data := by
    rintro h4 ⟨-, k, -, hk, -⟩
    omega
  unfold uSynergyClipBufContains
  rw [wp_bind, wp_get]
  dsimp only
  split
  · rename_i hnull
    have : (s.ctx.clip i).cap = 0 := by rw [ClipSlot.cap, ClipSlot.mem, hnull]; rfl
    exact ⟨rfl, fun h => absurd h Bool.false_ne_true, fun h => absurd h (hshort (by omega))⟩
  · rename_i mem hmem
    have hmem' : (s.ctx.clip i).mem = mem := by rw [ClipSlot.mem, hmem]; rfl
    rw [ClipSlot.cap, hmem'] at hlen hcap
    rw [wp_ite]
    split
    · rename_i hstr
      exact ⟨rfl, fun h => absurd h Bool.false_ne_true, fun h => nomatch h.1.symm.trans hstr⟩
    · rename_i hstr
      have h : Carries ⟨mem, 0, (s.ctx.clip i).len⟩ (mem.take (s.ctx.clip i).len) :=
        ⟨rfl, by rw [List.length_take]; exact (Nat.min_eq_left hlen).symm, List.take_prefix _ _⟩
      have hbody : (mem.take (s.ctx.clip i).len).length = (s.ctx.clip i).len := by
        rw [List.length_take]; exact Nat.min_eq_left hlen
      have hrun := h.sspTake_run (p := 0) (n := 4) (by decide)
      have hcount : (sspNetU32 : Parse Nat).run ⟨mem, 0, (s.ctx.clip i).len⟩ =
          if 0 + 4 ≤ (s.ctx.clip i).len then .ok (wordAt mem 0) ⟨mem, 4, (s.ctx.clip i).len⟩
          else .error .short ⟨mem, 0, (s.ctx.clip i).len⟩ := by
        rw [hbody] at hrun
        simp only [sspNetU32, sspNetInt, EStateM.run_bind]
        rw [h.eq_at, hrun]
        by_cases h4 : 0 + 4 ≤ (s.ctx.clip i).len
        · rw [if_pos h4, if_pos h4, ← h.slice_eq (by omega)]
          rfl
        · rw [if_neg h4, if_neg h4]
      rw [hcount]
      by_cases h4 : 0 + 4 ≤ (s.ctx.clip i).len
      · simp only [if_pos h4, hfound, hmem', eq_false_of_ne_true hstr, true_and]
        exact containsLoop_spec hlen hcap data s _ 4 h4
      · simp only [if_neg h4, wp_pure]
        exact ⟨trivial, fun h => absurd h Bool.false_ne_true, fun h => absurd h (hshort (by omega))⟩

/-! ### What messages do -/

theorem dclpHeader_len (msg : SspBuf) : wp dclpHeader (fun h _ => h.len < 2 ^ 32) (fun _ _ => True) msg := by
  unfold dclpHeader sspUChar sspNetU32 sspNetInt
  simp only [wp_bind, wp_pure]
  refine wp_mono (length_sspTake _ _) (fun _ buf _ => ?_) fun _ _ => id
  refine wp_mono (length_sspTake _ _) (fun _ buf _ => ?_) fun _ _ => id
  refine wp_mono (length_sspTake _ _) (fun _ buf _ => ?_) fun _ _ => id
  refine wp_mono (length_sspTake _ _) (fun bs _ h => ?_) fun _ _ => id
  have := beNat_lt bs
  rwa [h] at this

/-- A return does what was asked, and a stop is not at an access outside a clipboard buffer. -/
abbrev Does (act : ClipAct) (m : Syn Unit) (s : State) : Prop :=
  wp m (fun _ s' => Effect act s s') (fun stop _ => ¬ OutsideClip stop) s

theorem IsPlain.does {m : Syn Unit} (h : IsPlain m) : Does .none m s :=
  wp_mono (h s) (fun _ _ h => h.keeps.effect) fun _ _ h => h.2 ▸ id

theorem does_replyCnop (e : MsgEnv) : Does .none (replyCnop e) s :=
  wp_mono (replyCnop_sends e s) (fun _ _ h => h.keeps.effect) fun _ _ => False.elim

theorem Does.parse {α : Type} {p : Parse α} {buf : SspBuf} {k : α → SspBuf → Syn Unit} {act : ClipAct}
    (hok : ∀ a b, p.run buf = .ok a b → Does act (k a b) s)
    (herr : ∀ fail b, p.run buf = .error fail b → act = .none) : Does act (parse .message p buf () k) s := by
  unfold Waynergy.parse
  cases hrun : p.run buf with
  | ok a b => exact hok a b hrun
  | error fail b =>
    rw [herr fail b hrun]
    cases fail with
    | short => exact Keeps.effect (.emits rfl)
    | outside => exact id

theorem processCclp_does (e : MsgEnv) (rest : SspBuf) : Does (pktAct e rest .cclp) (processCclp e rest) s := by
  refine Does.parse (p := cclpId) (fun n b hrun => ?_) fun fail b hrun => ?_
  · simp only [pktAct, hrun, wp_bind, wp_clipIndex, wp_setClip]
    split
    · exact wp_mono (replyCnop_sends e _) (fun _ _ h => ⟨_, _, .release _, h.becomes⟩) fun _ _ => False.elim
    · exact id
  · simp only [pktAct, hrun]

theorem told_formatEvents (s : State) (i : Fin 2) :
    told (formatEvents s.ctx.callbacks.clipboard i (readClipboard (s.ctx.clip i).contents)) = s.ctx.tells i := by
  have herr : told (if (readClipboard (s.ctx.clip i).contents).2 then [] else [.parseError]) = [] := by
    split <;> rfl
  unfold formatEvents clipEvents Context.tells
  rw [told_append, herr, List.append_nil]
  split
  · exact List.filterMap_map.trans (by rw [← List.filterMap_eq_map]; rfl)
  · rfl

theorem dclpEnd_becomes (e : MsgEnv) {i : Fin 2} (hcap : (s.ctx.clip i).posExpect ≤ (s.ctx.clip i).cap)
    (hlt : (s.ctx.clip i).posExpect < 2 ^ 63) : wp (dclpEnd e i)
      (fun _ s' => Becomes (Function.update s.ctx.clip i (s.ctx.clip i).ended) (s.ctx.tells i) s s')
      (fun _ _ => False) s := by
  refine wp_mono (dclpEnd_spec e i s hcap hlt) (fun _ s' h => ?_) fun _ _ => id
  have hdel : Becomes s.ctx.clip (s.ctx.tells i) s (s.delivered i) :=
    ⟨rfl, rfl, _, rfl, told_formatEvents s i, fun h _ => h⟩
  rw [ClipSlot.ended]
  split at h
  · rename_i hok
    rw [if_pos hok]
    have := hdel.trans h.becomes
    rwa [List.append_nil] at this
  · rename_i hok
    rw [if_neg hok, Function.update_eq_self, h]
    exact hdel

variable (hs : ∀ i, (s.ctx.clip i).Sized)
include hs

theorem dclpChunk_does (e : MsgEnv) (i : Fin 2) {len : Nat} (hlen : len < 2 ^ 32) (rest : SspBuf) :
    Does (.chunk i len (payload rest len))
      (if (s.ctx.clip i).inStream then dclpChunk e i len rest else replyCnop e) s := by
  split
  · rename_i hstr
    have hcap := (hs i).cap
    have hexp := (hs i).expect hstr
    have hpos := (hs i).pos hstr
    have hadd : sizeAdd (s.ctx.clip i).pos len = (s.ctx.clip i).pos + len := sizeAdd_eq (by omega)
    refine wp_mono (dclpChunk_spec e i len rest s) ?_ ?_
    · rintro _ s' (⟨hlong, hs'⟩ | ⟨hfits, h⟩)
      · rw [hs']
        exact ⟨_, _, .drop fun h => absurd h.2 (Nat.not_le.mpr hlong), Keeps.refl s⟩
      · exact ⟨_, _, .accept ⟨hstr, hfits⟩ hlen fun bs => length_payload, h.becomes⟩
    · rintro stop _ (⟨rfl, -⟩ | ⟨rfl, hout, hfits⟩)
      · exact id
      · omega
  · rename_i hstr
    exact wp_mono (replyCnop_sends e s) (fun _ _ h => ⟨_, _, .drop fun h => hstr h.1, h.keeps⟩) fun _ _ => False.elim

theorem dclpEnd_does (e : MsgEnv) (i : Fin 2) :
    Does (.finish i) (if (s.ctx.clip i).inStream then dclpEnd e i else replyCnop e) s := by
  split
  · rename_i hstr
    have hcap := (hs i).cap
    have hexp := (hs i).expect hstr
    exact wp_mono (dclpEnd_becomes e hexp (by omega)) (fun _ _ h => ⟨_, _, .finish hstr, h⟩) fun _ _ => False.elim
  · rename_i hstr
    exact wp_mono (replyCnop_sends e s) (fun _ _ h => ⟨_, _, .idle (eq_false_of_ne_true hstr), h.keeps⟩)
      fun _ _ => False.elim

theorem processDclp_does (e : MsgEnv) (rest : SspBuf) : Does (pktAct e rest .dclp) (processDclp e rest) s := by
  refine Does.parse (p := dclpHeader) (fun h b hrun => ?_) fun fail b hrun => ?_
  · have hlen : h.len < 2 ^ 32 := wp_ok (Q := fun h _ => h.len < 2 ^ 32) (dclpHeader_len rest) hrun
    simp only [pktAct, hrun, dclpAct, wp_ite, wp_bind, wp_clipIndex, wp_get]
    by_cases hid : h.id < 2
    · simp only [dif_pos hid]
      split
      · refine wp_mono (dclpStart_spec e ⟨h.id, hid⟩ h.len b s) ?_ ?_
        · rintro _ s' ⟨buf, hroom, hsends⟩
          exact ⟨_, _, .start hroom, hsends.becomes⟩
        · rintro stop _ (⟨rfl, -⟩ | ⟨rfl, -⟩ | ⟨rfl, -⟩) <;> exact id
      · split
        · exact (wp_ite _ _).mp (dclpChunk_does hs e ⟨h.id, hid⟩ hlen b)
        · split
          · exact (wp_ite _ _).mp (dclpEnd_does hs e ⟨h.id, hid⟩)
          · exact does_replyCnop e
    · simp only [dif_neg hid]
      split
      · exact id
      · split
        · exact id
        · split
          · exact id
          · exact does_replyCnop e
  · simp only [pktAct, hrun]

theorem processPkt_does (e : MsgEnv) (rest : SspBuf) (p : Pkt) : Does (pktAct e rest p) (processPkt e rest p) s := by
  by_cases hp : p.Special
  · cases p with
    | cout => exact wp_mono (processCout_spec e s) (fun _ _ h => ⟨_, _, .leave, h.becomes⟩) fun _ _ h => h.2 ▸ id
    | cclp => exact processCclp_does e rest
    | dclp => exact processDclp_does hs e rest
    | cbye | ebad | ebsy => exact Keeps.effect (.ctx rfl rfl fun _ => rfl)
    | _ => exact absurd hp (by decide)
  · have hnone : pktAct e rest p = .none := by cases p <;> first | rfl | exact absurd (by decide) hp
    rw [hnone]
    exact (IsPlain.processPkt e rest hp).does

theorem sProcessMessage_does (e : MsgEnv) (msg : SspBuf) : Does (msgAct e msg) (sProcessMessage e msg) s := by
  unfold sProcessMessage msgAct
  cases hw : sIsWelcome msg with
  | error f => exact fun h => by rw [findWelcome_error hw] at h; exact h
  | ok found =>
    cases found with
    | some found =>
      refine wp_mono (processHello_spec e found.1 found.2 s) (fun _ _ h => ?_) fun _ _ h => h.2 ▸ id
      exact Keeps.effect (h.elim Plain.keeps fun h => h.2.keeps)
    | none =>
      refine Does.parse (p := sspMemMove 4) (fun pktId b hrun => ?_) fun fail b hrun => ?_
      · simp only [hrun]
        cases Pkt.ofId pktId with
        | some p => exact processPkt_does hs e b p
        | none => exact Keeps.effect (Keeps.refl s)
      · simp only [hrun]

theorem handMessage_does (e : MsgEnv) (msg : SspBuf) : Does (msgAct e msg) (handMessage e msg) s := by
  unfold handMessage
  simp only [Does, wp_bind, wp_get, wp_emits]
  refine wp_mono (sProcessMessage_does (s := { s with out := s.out ++ [.message msg s.ctx.receiveOfs] }) hs e msg) ?_
    fun _ _ => id
  rintro _ s₁ ⟨clip, ts, hstep, h⟩
  have hpre : Keeps s { s with out := s.out ++ [.message msg s.ctx.receiveOfs] } := .emits rfl
  have hpost : Keeps s₁ { s₁ with out := s₁.out ++ [.returned s₁.ctx.connected] } := .emits rfl
  have := (hpre.trans h).trans hpost
  rw [List.append_nil, List.nil_append, h.clip] at this
  exact ⟨clip, ts, hstep, this⟩

/-! ### What the other operations do -/

theorem updateClipBuf_does (h : Heap) (sent : Bool) (i : Fin 2) (data : Bytes) :
    wp (uSynergyUpdateClipBuf h sent i data) (fun _ s' => Effect (.update h i data) s s')
      (fun stop _ => data.length + 12 < 2 ^ 32 → ¬ OutsideClip stop) s := by
  have hcontains := contains_iff i data s (hs i)
  have hroom : data.length + 12 < 2 ^ 32 → ∀ buf, (s.ctx.clip i).Room h ((data.length + 12) % 2 ^ 32) buf →
      data.length + 12 ≤ (buf.getD []).length := by
    intro hdata buf hbuf
    rw [Nat.mod_eq_of_lt hdata] at hbuf
    unfold ClipSlot.Room at hbuf
    split at hbuf
    · obtain ⟨b, hb, rfl⟩ := hbuf
      exact Nat.le_of_eq (length_xrealloc hb).1.symm
    · have := (hs i).len
      rw [hbuf]
      show _ ≤ (s.ctx.clip i).cap
      omega
  refine wp_mono (updateClipBuf_spec h sent i data s) ?_ ?_
  · rintro _ s' (⟨hrun, hs'⟩ | ⟨hrun, buf, hbuf, hfits, hsends⟩)
    · rw [hs']
      exact ⟨_, _, .duplicate ((wp_ok hcontains hrun).2.mp rfl), Keeps.refl s⟩
    · exact ⟨_, _, .update (fun hc => absurd ((wp_ok hcontains hrun).2.mpr hc) Bool.false_ne_true) hbuf hfits,
        hsends.becomes⟩
  · rintro stop _ (rfl | rfl | ⟨rfl, buf, hbuf, hsmall⟩) hdata
    · exact id
    · exact id
    · exact absurd (hroom hdata buf hbuf) (Nat.not_le.mpr hsmall)

omit hs

theorem Keeps.byRead : KeptByRead Keeps where
  failed _ := .ctx rfl rfl id
  down _ := .ctx rfl rfl fun _ => rfl
  stored _ _ _ := .ctx rfl rfl id
  timed _ _ := .ctx rfl rfl id
  slept _ _ := .emits rfl

theorem Keeps.byNet : KeptByNet Keeps where
  closed _ := ⟨rfl, rfl, [], by simp, rfl, fun h _ => h⟩
  opened _ _ := ⟨rfl, rfl, [], by simp, rfl, fun h _ => h⟩
  timed _ _ := .ctx rfl rfl id
  tried _ := .emits rfl

/-- The stops of the operations that do not touch the clipboard. -/
abbrev IsKept {α : Type} (m : Syn α) : Prop := Within Keeps (¬ OutsideClip ·) m

namespace IsKept

theorem setCtx {f : Context → Context} (hclip : ∀ c, (f c).clip = c.clip)
    (hcb : ∀ c, (f c).callbacks = c.callbacks) (hcur : ∀ c, c.replyCur = 4 → (f c).replyCur = 4) :
    IsKept (Waynergy.setCtx f) :=
  fun s => .ctx (hclip s.ctx) (hcb s.ctx) (hcur s.ctx)

theorem emits {evs : List Event} (h : told evs = []) : IsKept (Waynergy.emits evs) := fun _ => .emits h

theorem consume (packlen : Nat) : IsKept (consume packlen) := by
  refine Within.read fun s => Within.ite (Within.throw id) (Within.bind (emits rfl) fun _ => ?_)
  exact setCtx (fun _ => rfl) (fun _ => rfl) fun _ => id

theorem resetReceive : IsKept resetReceive := by
  unfold Waynergy.resetReceive
  exact setCtx (fun _ => rfl) (fun _ => rfl) fun _ => id

theorem uSynergyUpdateRes (sent : Bool) (width height : Int) : IsKept (uSynergyUpdateRes sent width height) := by
  intro s
  refine wp_mono (uSynergyUpdateRes_spec sent width height s) ?_ fun _ _ => False.elim
  rintro _ s' ⟨t, hsends, rfl⟩
  obtain ⟨hclip, hcb, hout⟩ := hsends.keeps
  exact ⟨hclip, hcb, hout⟩

end IsKept

theorem whenConnected_does {m : Syn Unit} {act : ClipAct} (h : s.ctx.connected = true → Does act m s) :
    Does (if s.ctx.connected then act else .none) (whenConnected m) s := by
  rw [Does, wp_whenConnected]
  split
  · rename_i hup
    exact h hup
  · exact Keeps.effect (Keeps.refl s)

theorem IsKept.does {m : Syn Unit} (h : IsKept m) : Does .none m s :=
  wp_mono (h s) (fun _ _ h => h.effect) fun _ _ h => h.2

/-- The data of a local update has a length in 32 bits with room for the header of its encoding. -/
def Op.Encodable : Op → Prop
  | .updateClipBuf _ _ _ data => data.length + 12 < 2 ^ 32
  | _ => True

/-- Every operation does to the clipboard what is asked of it, and stays inside the clipboard buffers unless the
length of its encoding overflows. -/
theorem clip_spec (hs : ∀ i, (s.ctx.clip i).Sized) (op : Op) :
    wp op.exec (fun _ s' => Effect (op.act s) s s') (fun stop _ => op.Encodable → ¬ OutsideClip stop) s := by
  have of_does : ∀ {act : ClipAct} {m : Syn Unit}, Does act m s →
      wp m (fun _ s' => Effect act s s') (fun stop _ => op.Encodable → ¬ OutsideClip stop) s := fun h =>
    wp_mono h (fun _ _ => id) fun _ _ h _ => h
  have ignore : ∀ {α : Type} {m : Syn α}, IsKept m → IsKept (m >>= fun _ => pure ()) := fun h =>
    Within.bind h fun _ => Within.pure ()
  have up : ∀ {m : Syn Unit}, IsKept m → Does .none (whenConnected m) s := fun h => by
    have := whenConnected_does (s := s) (fun _ => h.does)
    rwa [ite_self] at this
  cases op with
  | connect e =>
    have htry : IsKept (tryConnect e) := Keeps.byNet.tryConnect id (fun _ => .ctx rfl rfl id) (fun _ => .emits rfl) e
    have h : IsKept (Op.connect e).exec := Within.read fun _ => Within.ite (Within.pure ()) htry
    exact of_does h.does
  | receive avail now => exact of_does (up (ignore (Keeps.byRead.receive id avail now)))
  | message e mem len => exact of_does (whenConnected_does fun _ => handMessage_does hs e _)
  | consume packlen => exact of_does (up (IsKept.consume packlen))
  | ditch packlen n avail => exact of_does (up (ignore (Keeps.byRead.ditchRead id packlen n avail)))
  | resetReceive => exact of_does IsKept.resetReceive.does
  | netDisconnect => exact of_does (ignore Keeps.byNet.synNetDisconnect).does
  | updateClipBuf h sent i data => exact updateClipBuf_does hs h sent i data
  | updateRes sent width height => exact of_does (IsKept.uSynergyUpdateRes sent width height).does

end Waynergy
