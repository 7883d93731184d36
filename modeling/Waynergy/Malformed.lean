import Waynergy.Dispatch
import Waynergy.Client
import Mathlib.Data.List.Find

/-!
# Messages that are too short or too long

`Takes n p f`: the reader `p` reads `n` bytes and makes `f` of them, or fails. What a message does then depends on
the bytes of its layout alone: a message without all of them does nothing, and what follows them is not looked at,
but in a DCLP.
-/

namespace Waynergy
open Lib

/-! ### Readers of a fixed size -/

/-- Wherever there are `n` bytes, `p` makes `f` of them and moves behind them; where there are fewer, it fails. -/
def Takes {α : Type} (n : Nat) (p : Parse α) (f : Bytes → α) : Prop :=
  ∀ msg body, Carries msg body → ∀ i, i ≤ body.length → i + n < 2 ^ 64 →
    (i + n ≤ body.length → p.run (msg.at i) = .ok (f (slice body i n)) (msg.at (i + n))) ∧
    (body.length < i + n → ∃ b, p.run (msg.at i) = .error .short b)

theorem take_slice_add (bs : Bytes) (i n m : Nat) : (slice bs i (n + m)).take n = slice bs i n := by
  rw [slice, slice, List.take_take, Nat.min_eq_left (Nat.le_add_right n m)]

theorem drop_slice_add (bs : Bytes) (i n m : Nat) : (slice bs i (n + m)).drop n = slice bs (i + n) m := by
  rw [slice, slice, List.drop_take, Nat.add_sub_cancel_left, List.drop_drop]

namespace Takes
variable {α β : Type} {n m : Nat} {p : Parse α} {f : Bytes → α}

theorem sspTake (n : Nat) : Takes n (sspTake n) id := by
  intro msg body h i _ hi
  rw [h.sspTake_run hi]
  refine ⟨fun hle => if_pos hle, fun hlt => ?_⟩
  rw [if_neg (Nat.not_le.mpr hlt)]
  exact ⟨_, rfl⟩

theorem sspSeek (n : Nat) : Takes n (sspSeek n) fun _ => () := by
  intro msg body h i _ hi
  rw [h.sspSeek_run hi]
  refine ⟨fun hle => if_pos hle, fun hlt => ?_⟩
  rw [if_neg (Nat.not_le.mpr hlt)]
  exact ⟨_, rfl⟩

theorem pure (a : α) : Takes 0 (pure a) fun _ => a := by
  intro msg body h i hi _
  exact ⟨fun _ => rfl, fun hlt => absurd hi (Nat.not_le.mpr hlt)⟩

theorem bind {k : α → Parse β} {g : α → Bytes → β} (hp : Takes n p f) (hk : ∀ a, Takes m (k a) (g a)) :
    Takes (n + m) (p >>= k) fun bs => g (f (bs.take n)) (bs.drop n) := by
  intro msg body h i hi hlt
  obtain ⟨hok, hshort⟩ := hp msg body h i hi (by omega)
  rcases Nat.lt_or_ge body.length (i + n) with hn | hn
  · obtain ⟨b, hb⟩ := hshort hn
    refine ⟨fun hle => absurd hle (by omega), fun _ => ⟨b, ?_⟩⟩
    rw [EStateM.run_bind, hb]
  · obtain ⟨hok', hshort'⟩ := hk (f (slice body i n)) msg body h (i + n) hn (by omega)
    rw [EStateM.run_bind, hok hn]
    refine ⟨fun hle => ?_, fun hlt => hshort' (by omega)⟩
    beta_reduce
    rw [take_slice_add, drop_slice_add, ← Nat.add_assoc]
    exact hok' (by omega)

theorem map (hp : Takes n p f) (g : α → β) : Takes n (p >>= fun a => Pure.pure (g a)) fun bs => g (f bs) := by
  intro msg body h i hi hlt
  obtain ⟨hok, hshort⟩ := hp msg body h i hi hlt
  refine ⟨fun hle => ?_, fun hlt => ?_⟩
  · rw [EStateM.run_bind, hok hle]
    rfl
  · obtain ⟨b, hb⟩ := hshort hlt
    exact ⟨b, by rw [EStateM.run_bind, hb]⟩

theorem sspNetInt (n : Nat) : Takes n (sspNetInt n) beNat := (sspTake n).map beNat

theorem sspChar : Takes 1 sspChar fun bs => signed 8 (beNat bs) := (sspNetInt 1).map (signed 8)

theorem sspNet16 : Takes 2 sspNet16 fun bs => signed 16 (beNat bs) := (sspNetInt 2).map (signed 16)

/-! ### The readers of the messages -/

/-- A message that is parsed with `p`: where its bytes end before those that `p` reads, it is a parse error. -/
theorem parse {γ : Type} {flt : Fault} {bad : γ} {k : α → SspBuf → Syn γ} {msg : SspBuf} {body : Bytes} {i : Nat}
    (hp : Takes n p f) (h : Carries msg body) (hi : i ≤ body.length) (hlt : i + n < 2 ^ 64) :
    parse flt p (msg.at i) bad k = if i + n ≤ body.length then k (f (slice body i n)) (msg.at (i + n))
      else parseError >>= fun _ => Pure.pure bad := by
  obtain ⟨hok, hshort⟩ := hp msg body h i hi hlt
  unfold Waynergy.parse
  by_cases hle : i + n ≤ body.length
  · rw [hok hle, if_pos hle]
  · obtain ⟨b, hb⟩ := hshort (Nat.lt_of_not_le hle)
    rw [hb, if_neg hle]

end Takes

/-- What the handler does after the packet id is settled by the next `n` bytes, which it needs. -/
def Fixed (n : Nat) (handler : SspBuf → Syn Unit) : Prop :=
  ∃ act : Bytes → Syn Unit, ∀ {msg : SspBuf} {body : Bytes}, Carries msg body → 4 ≤ body.length →
    handler (msg.at 4) = if 4 + n ≤ body.length then act (slice body 4 n) else parseError >>= fun _ => pure ()

theorem Takes.fixed {α : Type} {n : Nat} {p : Parse α} {f : Bytes → α} (hp : Takes n p f) (k : α → Syn Unit)
    (hn : 4 + n < 2 ^ 64) : Fixed n fun msg => Waynergy.parse .message p msg () fun a _ => k a :=
  ⟨fun bs => k (f bs), fun h h4 => hp.parse h h4 hn⟩

theorem Fixed.const (m : Syn Unit) : Fixed 0 fun _ => m :=
  ⟨fun _ => m, fun _ h4 => (if_pos h4).symm⟩

theorem takes_coordinates : ∃ f, Takes 4 coordinates f :=
  ⟨_, Takes.sspNet16.bind fun _ => Takes.sspNet16.map _⟩

theorem takes_keyData : ∃ f, Takes 6 keyData f :=
  ⟨_, (Takes.sspNetInt 2).bind fun _ => (Takes.sspNetInt 2).bind fun _ => (Takes.sspNetInt 2).map _⟩

theorem takes_repeatData : ∃ f, Takes 8 repeatData f :=
  ⟨_, (Takes.sspNetInt 2).bind fun _ => (Takes.sspNetInt 2).bind fun _ => (Takes.sspNetInt 2).bind fun _ =>
    (Takes.sspNetInt 2).map _⟩

theorem takes_dclpHeader : Takes 10 dclpHeader fun bs =>
    ⟨beNat (bs.take 1), beNat (((bs.drop 1).drop 4).take 1), beNat (((bs.drop 1).drop 4).drop 1)⟩ :=
  (Takes.sspNetInt 1).bind fun _ => (Takes.sspNetInt 4).bind fun _ => (Takes.sspNetInt 1).bind fun _ =>
    (Takes.sspNetInt 4).map _

/-! ### Layouts -/

/-- The bytes that a packet needs, its id among them. -/
def Pkt.layout : Pkt → Nat
  | cinn | dkrp => 12
  | csec | dmdn | dmup => 5
  | dmmv | dmrm | dmwm => 8
  | dkdn | dkup => 10
  | dgbt => 7
  | dgst | cclp => 9
  | dclp => 14
  | qinf | ciak | crop | cout | dsop | calv | cbye | ebad | ebsy => 4

theorem processPkt_fixed (e : MsgEnv) {p : Pkt} (hp : p ≠ .dclp) :
    Fixed (p.layout - 4) fun msg => processPkt e msg p := by
  obtain ⟨_, hxy⟩ := takes_coordinates
  obtain ⟨_, hkey⟩ := takes_keyData
  obtain ⟨_, hrep⟩ := takes_repeatData
  cases p with
  | dclp => exact absurd rfl hp
  | cinn =>
    exact ((Takes.sspSeek 2).bind fun _ => (Takes.sspSeek 2).bind fun _ => Takes.sspNetInt 4).fixed _ (by decide)
  | csec | dmdn | dmup => exact Takes.sspChar.fixed _ (by decide)
  | dmmv | dmrm | dmwm => exact hxy.fixed _ (by decide)
  | dkdn | dkup => exact hkey.fixed _ (by decide)
  | dkrp => exact hrep.fixed _ (by decide)
  | dgbt => exact ((Takes.sspNetInt 1).bind fun _ => (Takes.sspNetInt 2).map _).fixed _ (by decide)
  | dgst => exact ((Takes.sspNetInt 1).bind fun _ => (Takes.sspTake 4).map _).fixed _ (by decide)
  | cclp => exact ((Takes.sspNetInt 1).bind fun _ => (Takes.sspNetInt 4).map _).fixed _ (by decide)
  | qinf | ciak | crop | cout | dsop | calv | cbye | ebad | ebsy => exact Fixed.const _

/-- The bytes that the code of `body` needs: for a hello two version numbers behind the name. -/
def layoutOf (body : Bytes) : Nat :=
  match welcomeOf body with
  | some imp => imp.length + 4
  | none =>
    match pktOf body with
    | some p => p.layout
    | none => 4

theorem length_of_welcomeOf {body imp : Bytes} (h : welcomeOf body = some imp) :
    imp.length = 7 ∧ imp.length ≤ body.length := by
  have hmem := List.mem_of_find?_eq_some h
  have hpre := List.find?_some h
  have hall : ∀ imp ∈ sImplementations, imp.length = 7 := by decide
  exact ⟨hall imp hmem, (List.isPrefixOf_iff_prefix.mp hpre).length_le⟩

theorem welcomeOf_take (body : Bytes) {n : Nat} (hn : 7 ≤ n) : welcomeOf (body.take n) = welcomeOf body := by
  have hall : ∀ imp ∈ sImplementations, imp.length = 7 := by decide
  have hsame : ∀ imp ∈ sImplementations, imp.isPrefixOf (body.take n) = imp.isPrefixOf body := by
    intro imp himp
    have hlen := hall imp himp
    rw [Bool.eq_iff_iff, List.isPrefixOf_iff_prefix, List.isPrefixOf_iff_prefix, List.prefix_take_iff]
    exact ⟨And.left, fun h => ⟨h, by omega⟩⟩
  exact List.find?_congr hsame

/-- What a hello does is settled by the implementation that it names. -/
theorem hello_fixed (e : MsgEnv) (imp : Bytes) : ∃ act : Syn Unit, ∀ msg body, Carries msg body →
    welcomeOf body = some imp → sProcessMessage e msg =
      if imp.length + 4 ≤ body.length then act else parseError >>= fun _ => pure () := by
  refine ⟨?act, fun msg body h hw => ?_⟩
  rotate_left
  obtain ⟨h7, hlen⟩ := length_of_welcomeOf hw
  have htakes := (Takes.sspNetInt 2).bind fun _ => Takes.sspNetInt 2
  rw [h.sProcessMessage, hw]
  exact htakes.parse h hlen (by omega)

/-! ### Truncated messages, and trailing bytes -/

theorem parseError_run (s : State) :
    (parseError >>= fun _ => pure () : Syn Unit).run s = .ok () { s with out := s.out ++ [.parseError] } := rfl

/-- A message without all bytes of its layout does nothing but log a parse error. -/
theorem truncated_run (e : MsgEnv) {msg : SspBuf} {body : Bytes} (h : Carries msg body)
    (hshort : body.length < layoutOf body) (s : State) :
    (sProcessMessage e msg).run s = .ok () { s with out := s.out ++ [.parseError] } := by
  unfold layoutOf at hshort
  cases hw : welcomeOf body with
  | some imp =>
    rw [hw] at hshort
    obtain ⟨act, hact⟩ := hello_fixed e imp
    rw [hact msg body h hw, if_neg (Nat.not_le.mpr hshort), parseError_run]
  | none =>
    rw [hw] at hshort
    cases hp : pktOf body with
    | none =>
      rw [hp] at hshort
      rw [h.sProcessMessage, hw]
      dsimp only
      rw [if_pos hshort]
      rfl
    | some p =>
      rw [hp] at hshort
      dsimp only at hshort
      have h4 := length_of_pktOf hp
      rw [h.processPkt hp]
      by_cases hd : p = .dclp
      · subst hd
        have h14 : ¬ 4 + 10 ≤ body.length := Nat.not_le.mpr hshort
        rw [processPkt, processDclp, takes_dclpHeader.parse h h4 (by decide), if_neg h14]
        rfl
      · obtain ⟨act, hact⟩ := processPkt_fixed e hd
        have hrun := hact h h4
        dsimp only at hrun
        rw [hrun, if_neg (by omega), parseError_run]

theorem Pkt.four_le_layout (p : Pkt) : 4 ≤ p.layout := by cases p <;> decide

theorem slice_of_take {body body' : Bytes} {n : Nat} (h : body'.take n = body.take n) :
    slice body' 4 (n - 4) = slice body 4 (n - 4) := by
  rw [slice, slice, ← List.drop_take, ← List.drop_take, h]

/-- What follows the layout of a hello, or of a packet other than DCLP, is not looked at. -/
theorem trailing_run (e : MsgEnv) {msg msg' : SspBuf} {body body' : Bytes} (h : Carries msg body)
    (h' : Carries msg' body') (hkind : welcomeOf body ≠ none ∨ ∃ p, pktOf body = some p ∧ p ≠ .dclp)
    (hlong : layoutOf body ≤ body.length) (hsame : body'.take (layoutOf body) = body.take (layoutOf body)) :
    sProcessMessage e msg' = sProcessMessage e msg := by
  have hlen : layoutOf body ≤ body'.length := by
    have := congrArg List.length hsame
    rw [List.length_take, List.length_take] at this
    omega
  cases hw : welcomeOf body with
  | some imp =>
    have h7 := (length_of_welcomeOf hw).1
    have hl : layoutOf body = imp.length + 4 := by rw [layoutOf, hw]
    rw [hl] at hlong hlen hsame
    have hw' : welcomeOf body' = some imp := by
      rw [← welcomeOf_take body' (n := imp.length + 4) (by omega), hsame, welcomeOf_take body (by omega), hw]
    obtain ⟨act, hact⟩ := hello_fixed e imp
    rw [hact _ _ h hw, hact _ _ h' hw', if_pos hlong, if_pos hlen]
  | none =>
    obtain ⟨p, hp, hd⟩ := hkind.resolve_left (not_not.mpr hw)
    have hl : layoutOf body = p.layout := by rw [layoutOf, hw, hp]
    rw [hl] at hlong hlen hsame
    have h4 := p.four_le_layout
    have hp' : pktOf body' = some p := by
      have := congrArg (List.take 4) hsame
      rw [List.take_take, List.take_take, Nat.min_eq_left h4] at this
      rw [pktOf, this]
      exact hp
    obtain ⟨act, hact⟩ := processPkt_fixed e hd
    have hrun := hact h (by omega)
    have hrun' := hact h' (by omega)
    dsimp only at hrun hrun'
    rw [h.processPkt hp, h'.processPkt hp', hrun, hrun', if_pos (by omega), if_pos (by omega),
      slice_of_take hsame]

/-- A truncated message is atomic, and bytes behind the layout of another one have no influence. -/
theorem malformed_atomic (e : MsgEnv) {msg : SspBuf} {body : Bytes} (h : Carries msg body) (s : State) :
    (body.length < layoutOf body →
      (sProcessMessage e msg).run s = .ok () { s with out := s.out ++ [.parseError] }) ∧
    ∀ msg' body', Carries msg' body' → (welcomeOf body ≠ none ∨ ∃ p, pktOf body = some p ∧ p ≠ .dclp) →
      layoutOf body ≤ body.length → body'.take (layoutOf body) = body.take (layoutOf body) →
      (sProcessMessage e msg').run s = (sProcessMessage e msg).run s := by
  refine ⟨fun hshort => truncated_run e h hshort s, fun msg' body' h' hkind hlong hsame => ?_⟩
  rw [trailing_run e h h' hkind hlong hsame]

/-- A CINN without its last byte, and one with a byte more. -/
theorem malformed_atomic_cinn :
    (sProcessMessage .smooth (.ofBytes (ascii ['C', 'I', 'N', 'N'] ++ [0, 1, 0, 2, 0, 0, 0]))).run (.init .sample) =
      .ok () { State.init .sample with out := [.parseError] } ∧
    (sProcessMessage .smooth (.ofBytes (ascii ['C', 'I', 'N', 'N'] ++ [0, 1, 0, 2, 0, 0, 0, 3, 4]))).run
        (.init .sample) =
      (sProcessMessage .smooth (.ofBytes (ascii ['C', 'I', 'N', 'N'] ++ [0, 1, 0, 2, 0, 0, 0, 3]))).run
        (.init .sample) :=
  ⟨(malformed_atomic .smooth (.ofBytes _) _).1 (by decide),
    (malformed_atomic .smooth (.ofBytes _) _).2 _ _ (.ofBytes _) (.inr ⟨.cinn, by decide, by decide⟩) (by decide)
      (by decide)⟩

end Waynergy
