import Waynergy.FullIo

/-!
# Full reads and writes are exact (`fdio_full.h`, `net.c`)

`Moving` says how a loop of calls may go on that moves `count` bytes of `src`, whatever a call may ask for and whichever
failures are tried again. All three loops go on like that, and what it says of their calls is `Exact`.
-/

namespace Waynergy
open Lib

/-! ### Writing to TLS -/

/-- How a call of `tls_write` turns out. -/
inductive TlsIo
  | moved (n : Nat)
  | wantPollin
  | wantPollout
  | failed
deriving DecidableEq

/-- The loop of `tls_write_full`, with `buf` left to write: what it returned, if it returned, and its calls. -/
def tlsWriteLoop (pos : Nat) (buf : Bytes) : List TlsIo → Option Bool × List IoCall
  | [] => (if buf.length = 0 then some true else none, [])
  | io :: ios =>
    if buf.length = 0 then (some true, [])
    else
      let call : IoCall := ⟨pos, buf.length, []⟩
      match io with
      | .moved n =>
        let bytes := buf.take (n + 1)
        let t := tlsWriteLoop (pos + bytes.length) (buf.drop bytes.length) ios
        (t.1, { call with bytes } :: t.2)
      | .wantPollin | .wantPollout =>
        let t := tlsWriteLoop pos buf ios
        (t.1, call :: t.2)
      | .failed => (some false, [call])

def tlsWriteFull (buf : Bytes) (ios : List TlsIo) : Option Bool × List IoCall := tlsWriteLoop 0 buf ios

/-- Which way a frame goes, and how the calls turn out. -/
inductive Channel
  | tls (ios : List TlsIo)
  | plain (ios : List Io)

def synSend (buf : Bytes) : Channel → Option Bool × List IoCall
  | .tls ios => tlsWriteFull buf ios
  | .plain ios => ((writeFull .none buf ios).ret, (writeFull .none buf ios).calls)

/-- The failures that are tried again. -/
def Io.retried (flags : IoFlags) : Io → Bool
  | .intr => !flags.intr
  | .again => !flags.nb
  | _ => false

def TlsIo.retried : TlsIo → Bool
  | .wantPollin | .wantPollout => true
  | _ => false

/-! ### Loops that move bytes -/

/-- What the calls moved. -/
def movedBy (calls : List IoCall) : Bytes := calls.flatMap IoCall.bytes

/-- A loop at `pos`, with `count` bytes of `src` to move, that asks for `ask n` bytes when `n` are left. -/
inductive Moving {ι : Type} (ask : Nat → Nat) (retried : ι → Bool) :
    Nat → Nat → Bytes → List ι → Option Bool → List IoCall → Prop
  | done (pos : Nat) (src : Bytes) (ios : List ι) : Moving ask retried pos 0 src ios (some true) []
  | spent {pos count : Nat} (src : Bytes) (hcount : count ≠ 0) : Moving ask retried pos count src [] none []
  | stop {pos count : Nat} (src : Bytes) {io : ι} (ios : List ι) (hcount : count ≠ 0) (hio : retried io = false) :
    Moving ask retried pos count src (io :: ios) (some false) [⟨pos, ask count, []⟩]
  | again {pos count : Nat} {src : Bytes} {io : ι} {ios : List ι} {ret : Option Bool} {calls : List IoCall}
    (hcount : count ≠ 0) (h : Moving ask retried pos count src ios ret calls) :
    Moving ask retried pos count src (io :: ios) ret (⟨pos, ask count, []⟩ :: calls)
  | moved {pos count : Nat} {src bytes : Bytes} {io : ι} {ios : List ι} {ret : Option Bool} {calls : List IoCall}
    (hcount : count ≠ 0) (hio : retried io = false) (hfront : bytes <+: src) (hle : bytes.length ≤ ask count)
    (h : Moving ask retried (pos + bytes.length) (count - bytes.length) (src.drop bytes.length) ios ret calls) :
    Moving ask retried pos count src (io :: ios) ret (⟨pos, ask count, bytes⟩ :: calls)

/-- A call after `before` was moved: it asks for what comes next, and moves the front of it. -/
structure CallAt (ask : Nat → Nat) (pos count : Nat) (src before : Bytes) (call : IoCall) : Prop where
  start : call.pos = pos + before.length
  asks : call.count = ask (count - before.length)
  left : before.length < count
  le : call.bytes.length ≤ call.count
  front : call.bytes <+: src.drop before.length

namespace Moving
variable {ι : Type} {ask : Nat → Nat} {retried : ι → Bool} {pos count : Nat} {src : Bytes} {ios : List ι}
  {ret : Option Bool} {calls : List IoCall}

theorem bytes_eq (h : Moving ask retried pos count src ios ret calls) : movedBy calls <+: src := by
  induction h with
  | done | spent | stop => exact List.nil_prefix
  | again _ _ ih => exact ih
  | @moved pos count src bytes io ios ret calls _ _ hfront _ _ ih =>
    obtain ⟨rest, rfl⟩ := hfront
    rw [List.drop_left] at ih
    exact (List.prefix_append_right_inj bytes).mpr ih

theorem length_le (hask : ∀ n, ask n ≤ n) (h : Moving ask retried pos count src ios ret calls) :
    (movedBy calls).length ≤ count := by
  induction h with
  | done | spent | stop => exact Nat.zero_le _
  | again _ _ ih => exact ih
  | @moved pos count src bytes io ios ret calls _ _ _ hle _ ih =>
    have := hask count
    show (bytes ++ movedBy calls).length ≤ count
    rw [List.length_append]
    omega

/-- The loop returns true exactly if it moved all. -/
theorem ret_eq_true (hask : ∀ n, ask n ≤ n) (h : Moving ask retried pos count src ios ret calls) :
    ret = some true ↔ (movedBy calls).length = count := by
  induction h with
  | done => exact iff_of_true rfl rfl
  | spent _ hcount => exact iff_of_false (by decide) (Ne.symm hcount)
  | stop _ _ hcount => exact iff_of_false (by decide) (Ne.symm hcount)
  | again _ _ ih => exact ih
  | @moved pos count src bytes io ios ret calls _ _ _ hle _ ih =>
    have := hask count
    rw [ih]
    show _ ↔ (bytes ++ movedBy calls).length = count
    rw [List.length_append]
    omega

theorem callAt (h : Moving ask retried pos count src ios ret calls) {pre post : List IoCall}
    {call : IoCall} (hcalls : calls = pre ++ call :: post) : CallAt ask pos count src (movedBy pre) call := by
  induction h generalizing pre with
  | done | spent => cases pre <;> cases hcalls
  | @stop pos count src io ios hcount =>
    cases pre with
    | nil =>
      cases hcalls
      exact ⟨rfl, rfl, Nat.pos_of_ne_zero hcount, Nat.zero_le _, List.nil_prefix⟩
    | cons c pre =>
      have htail := (List.cons.inj hcalls).2
      cases pre <;> cases htail
  | again hcount _ ih =>
    cases pre with
    | nil =>
      cases hcalls
      exact ⟨rfl, rfl, Nat.pos_of_ne_zero hcount, Nat.zero_le _, List.nil_prefix⟩
    | cons c pre =>
      obtain ⟨rfl, htail⟩ := List.cons.inj hcalls
      have hcall := ih htail
      exact hcall
  | @moved pos count src bytes io ios ret calls hcount _ hfront hle _ ih =>
    cases pre with
    | nil =>
      cases hcalls
      exact ⟨rfl, rfl, Nat.pos_of_ne_zero hcount, hle, hfront⟩
    | cons c pre =>
      obtain ⟨rfl, htail⟩ := List.cons.inj hcalls
      obtain ⟨hpos, hc, hleft, hle', hfront'⟩ := ih htail
      have hlen : (movedBy (⟨pos, ask count, bytes⟩ :: pre)).length = bytes.length + (movedBy pre).length :=
        List.length_append
      refine ⟨?_, ?_, ?_, hle', ?_⟩
      · rw [hpos, hlen, Nat.add_assoc]
      · rw [hc, hlen, Nat.sub_sub]
      · omega
      · rwa [hlen, ← List.drop_drop]

/-- What the calls stored in a buffer, each at its position, is what they moved, from the first position on. -/
theorem stored (hask : ∀ n, ask n ≤ n) (h : Moving ask retried pos count src ios ret calls) {mem : Bytes}
    (hmem : pos + count ≤ mem.length) :
    calls.foldl (fun mem call => overwrite mem call.pos call.bytes) mem = overwrite mem pos (movedBy calls) := by
  induction h generalizing mem with
  | done | spent => exact (overwrite_nil mem _).symm
  | stop => rfl
  | again _ _ ih =>
    rw [List.foldl_cons, overwrite_nil, ih hmem]
    rfl
  | @moved pos count src bytes io ios ret calls _ _ _ hle _ ih =>
    have := hask count
    have hfit : pos + bytes.length ≤ mem.length := by omega
    rw [List.foldl_cons, ih (by rw [length_overwrite hfit]; omega), overwrite_append _ hfit]
    rfl

theorem head (hcount : count ≠ 0) (h : Moving ask retried pos count src ios ret calls) :
    (calls = [] → ret = none) ∧ ∀ next ∈ calls.head?, next.pos = pos ∧ next.count = ask count := by
  cases h with
  | done => exact absurd rfl hcount
  | spent => exact ⟨fun _ => rfl, fun next hnext => (by cases hnext)⟩
  | stop | again | moved =>
    refine ⟨fun hnil => (by cases hnil), fun next hnext => ?_⟩
    cases hnext
    exact ⟨rfl, rfl⟩

/-- A failure that is tried again moves nothing, and the next call is the same. -/
theorem retry (h : Moving ask retried pos count src ios ret calls) {pre post : List IoCall} {call : IoCall} {io : ι}
    (hcalls : calls = pre ++ call :: post) (hio : ios[pre.length]? = some io) (hretried : retried io = true) :
    call.bytes = [] ∧ (post = [] → ret = none) ∧ ∀ next ∈ post.head?, next.pos = call.pos ∧ next.count = call.count := by
  induction h generalizing pre with
  | done | spent => cases pre <;> cases hcalls
  | stop _ _ _ hstop =>
    cases pre with
    | nil =>
      cases hio
      rw [hstop] at hretried
      cases hretried
    | cons c pre =>
      have htail := (List.cons.inj hcalls).2
      cases pre <;> cases htail
  | again hcount hrest ih =>
    cases pre with
    | nil =>
      cases hcalls
      exact ⟨rfl, hrest.head hcount⟩
    | cons c pre => exact ih (List.cons.inj hcalls).2 hio
  | moved _ hmoved _ _ _ ih =>
    cases pre with
    | nil =>
      cases hio
      rw [hmoved] at hretried
      cases hretried
    | cons c pre => exact ih (List.cons.inj hcalls).2 hio

end Moving

/-! ### The three loops -/

theorem moveFull_moving (flags : IoFlags) (pos count : Nat) (src : Bytes) (ios : List Io) :
    Moving (min · ssizeMax) (Io.retried flags) pos count src ios (moveFull flags pos count src ios).ret
      (moveFull flags pos count src ios).calls := by
  induction ios generalizing pos count src with
  | nil =>
    unfold moveFull
    by_cases hcount : count = 0
    · rw [if_pos hcount, hcount]
      exact .done ..
    · rw [if_neg hcount]
      exact .spent src hcount
  | cons io ios ih =>
    unfold moveFull
    split
    · rename_i hcount
      rw [hcount]
      exact .done ..
    · rename_i hcount
      cases io with
      | moved n =>
        dsimp only
        split
        · exact .stop src ios hcount rfl
        · refine .moved hcount rfl (List.take_prefix _ _) ?_ (ih _ _ _)
          rw [List.length_take]
          omega
      | intr =>
        cases hflag : flags.intr with
        | true => exact .stop src ios hcount (by rw [Io.retried, hflag]; rfl)
        | false => exact .again hcount (ih pos count src)
      | again =>
        cases hflag : flags.nb with
        | true => exact .stop src ios hcount (by rw [Io.retried, hflag]; rfl)
        | false => exact .again hcount (ih pos count src)
      | failed => exact .stop src ios hcount rfl

theorem tlsWriteLoop_moving (pos : Nat) (buf : Bytes) (ios : List TlsIo) :
    Moving id TlsIo.retried pos buf.length buf ios (tlsWriteLoop pos buf ios).1 (tlsWriteLoop pos buf ios).2 := by
  induction ios generalizing pos buf with
  | nil =>
    unfold tlsWriteLoop
    by_cases hbuf : buf.length = 0
    · rw [if_pos hbuf, hbuf]
      exact .done ..
    · rw [if_neg hbuf]
      exact .spent buf hbuf
  | cons io ios ih =>
    unfold tlsWriteLoop
    split
    · rename_i hbuf
      rw [hbuf]
      exact .done ..
    · rename_i hbuf
      cases io with
      | moved n =>
        refine .moved hbuf rfl (List.take_prefix _ _) (List.length_take_le' _ _) ?_
        have hrest := ih (pos + (buf.take (n + 1)).length) (buf.drop (buf.take (n + 1)).length)
        rw [List.length_drop] at hrest
        exact hrest
      | wantPollin => exact .again hbuf (ih pos buf)
      | wantPollout => exact .again hbuf (ih pos buf)
      | failed => exact .stop buf ios hbuf rfl

/-! ### Exactness -/

/-- What a loop that is to move `count` bytes of `src` did is exact. -/
structure Exact {ι : Type} (retried : ι → Bool) (count : Nat) (src : Bytes) (ios : List ι) (ret : Option Bool)
    (calls : List IoCall) : Prop where
  /-- all bytes, in order -/
  all : ret = some true → movedBy calls = src.take count ∧ (movedBy calls).length = count
  /-- less than all, in order -/
  part : ret = some false → movedBy calls <+: src ∧ (movedBy calls).length < count
  /-- each call starts where the ones before it ended, and moves what comes next -/
  next : ∀ pre call post, calls = pre ++ call :: post →
    call.pos = (movedBy pre).length ∧ call.bytes.length ≤ call.count ∧ call.bytes <+: src.drop call.pos
  /-- it asks for something inside the buffer -/
  inside : ∀ call ∈ calls, 0 < call.count ∧ call.pos + call.count ≤ count
  /-- a failure that is tried again does not end the loop, and changes neither position nor count -/
  retry : ∀ pre call post io, calls = pre ++ call :: post → ios[pre.length]? = some io → retried io = true →
    call.bytes = [] ∧ (post = [] → ret = none) ∧ ∀ next ∈ post.head?, next.pos = call.pos ∧ next.count = call.count

theorem Moving.exact {ι : Type} {ask : Nat → Nat} {retried : ι → Bool} {count : Nat} {src : Bytes} {ios : List ι}
    {ret : Option Bool} {calls : List IoCall} (hask : ∀ n, ask n ≤ n) (hpos : ∀ n, 0 < n → 0 < ask n)
    (h : Moving ask retried 0 count src ios ret calls) : Exact retried count src ios ret calls := by
  refine ⟨fun hret => ?_, fun hret => ⟨h.bytes_eq, ?_⟩, fun pre call post hcalls => ?_, fun call hcall => ?_,
    fun pre call post io hcalls hio hretried => h.retry hcalls hio hretried⟩
  · have hlen := (h.ret_eq_true hask).mp hret
    exact ⟨by rw [List.prefix_iff_eq_take.mp h.bytes_eq, hlen], hlen⟩
  · have hle := h.length_le hask
    have hne : (movedBy calls).length ≠ count := fun hlen => by
      rw [(h.ret_eq_true hask).mpr hlen] at hret
      cases hret
    omega
  · obtain ⟨hstart, -, -, hle, hfront⟩ := h.callAt hcalls
    rw [Nat.zero_add] at hstart
    exact ⟨hstart, hle, by rw [hstart]; exact hfront⟩
  · obtain ⟨pre, post, hcalls⟩ := List.append_of_mem hcall
    obtain ⟨hstart, hasks, hleft, -, -⟩ := h.callAt hcalls
    have hlow := hpos (count - (movedBy pre).length) (by omega)
    have hhigh := hask (count - (movedBy pre).length)
    omega

theorem min_ssizeMax_pos (n : Nat) (h : 0 < n) : 0 < min n ssizeMax := by
  have : 0 < ssizeMax := by decide
  omega

theorem moveFull_exact (flags : IoFlags) (count : Nat) (src : Bytes) (ios : List Io) :
    Exact (Io.retried flags) count src ios (moveFull flags 0 count src ios).ret (moveFull flags 0 count src ios).calls :=
  (moveFull_moving flags 0 count src ios).exact (fun n => Nat.min_le_left n ssizeMax) min_ssizeMax_pos

theorem tlsWriteFull_exact (buf : Bytes) (ios : List TlsIo) :
    Exact TlsIo.retried buf.length buf ios (tlsWriteFull buf ios).1 (tlsWriteFull buf ios).2 :=
  (tlsWriteLoop_moving 0 buf ios).exact Nat.le_refl fun _ h => h

/-- The reads leave in the buffer, from its start, what they moved. -/
theorem readFull_stored (flags : IoFlags) (mem stream : Bytes) (ios : List Io) :
    (readFull flags mem.length stream ios).calls.foldl (fun mem call => overwrite mem call.pos call.bytes) mem =
      overwrite mem 0 (movedBy (readFull flags mem.length stream ios).calls) :=
  (moveFull_moving flags 0 mem.length stream ios).stored (fun n => Nat.min_le_left n ssizeMax) (by omega)

/-- A frame is sent whole, or a strict prefix of it is. -/
theorem synSend_exact (buf : Bytes) (ch : Channel) : ((synSend buf ch).1 = some true → movedBy (synSend buf ch).2 = buf) ∧
    ((synSend buf ch).1 = some false → movedBy (synSend buf ch).2 <+: buf ∧ movedBy (synSend buf ch).2 ≠ buf) := by
  have hall : ∀ {bs : Bytes}, bs = buf.take buf.length ∧ bs.length = buf.length → bs = buf := fun h => by
    rw [h.1, List.take_length]
  have hpart : ∀ {bs : Bytes}, bs <+: buf ∧ bs.length < buf.length → bs <+: buf ∧ bs ≠ buf := fun h =>
    ⟨h.1, fun hbs => by rw [hbs] at h; exact Nat.lt_irrefl _ h.2⟩
  cases ch with
  | tls ios =>
    have h := tlsWriteFull_exact buf ios
    exact ⟨fun hret => hall (h.all hret), fun hret => hpart (h.part hret)⟩
  | plain ios =>
    have h := moveFull_exact .none buf.length buf ios
    exact ⟨fun hret => hall (h.all hret), fun hret => hpart (h.part hret)⟩

/-- Reads and writes in full are exact, however the calls turn out. -/
theorem full_io_exact (flags : IoFlags) (buf mem stream : Bytes) (ios : List Io) (tlsIos : List TlsIo) :
    Exact (Io.retried flags) buf.length buf ios (writeFull flags buf ios).ret (writeFull flags buf ios).calls ∧
    Exact (Io.retried flags) mem.length stream ios (readFull flags mem.length stream ios).ret
      (readFull flags mem.length stream ios).calls ∧
    (readFull flags mem.length stream ios).calls.foldl (fun mem call => overwrite mem call.pos call.bytes) mem =
      overwrite mem 0 (movedBy (readFull flags mem.length stream ios).calls) ∧
    Exact TlsIo.retried buf.length buf tlsIos (tlsWriteFull buf tlsIos).1 (tlsWriteFull buf tlsIos).2 :=
  ⟨moveFull_exact flags buf.length buf ios, moveFull_exact flags mem.length stream ios,
    readFull_stored flags mem stream ios, tlsWriteFull_exact buf tlsIos⟩

end Waynergy
