import Waynergy.Lib.Bytes

/-!
# Reading and writing without shortness (`fdio_full.h`)

The two loops differ in where the bytes come from: `write_full` takes them from the buffer, of which there are as many
as were asked for, and `read_full` from the stream, which may end before that.
-/

namespace Waynergy
open Lib

/-- How a call of `read` or `write` turns out: it moves `n + 1` bytes or what there is of them, it fails with `EINTR` or
with `EAGAIN`, or it fails for good. -/
inductive Io
  | moved (n : Nat)
  | intr
  | again
  | failed
deriving DecidableEq

/-- `enum fdio_full_flag`: not to block on non-blocking sockets, and to bail out on `EINTR`. -/
structure IoFlags where
  nb : Bool
  intr : Bool

def IoFlags.none : IoFlags := ⟨false, false⟩

def ssizeMax : Nat := 2 ^ 63 - 1

/-- A call at `pos` in the buffer, for `count` bytes, that moved `bytes`. -/
structure IoCall where
  pos : Nat
  count : Nat
  bytes : Bytes

/-- What came of the loop: what it returned, if it returned, its calls, and how the calls after them turn out. -/
structure IoResult where
  ret : Option Bool
  calls : List IoCall
  ios : List Io

def IoResult.bytes (t : IoResult) : Bytes := t.calls.flatMap IoCall.bytes

def IoResult.after (call : IoCall) (t : IoResult) : IoResult := { t with calls := call :: t.calls }

/-- The loop, at `pos`, with `count` bytes of `src` to move. -/
def moveFull (flags : IoFlags) (pos count : Nat) (src : Bytes) : List Io → IoResult
  | [] => ⟨if count = 0 then some true else none, [], []⟩
  | io :: ios =>
    if count = 0 then ⟨some true, [], io :: ios⟩
    else
      let call : IoCall := ⟨pos, min count ssizeMax, []⟩
      match io with
      | .moved n =>
        let bytes := src.take (min (n + 1) (min count ssizeMax))
        -- nothing is moved at the end of the file only
        if bytes = [] then ⟨some false, [call], ios⟩
        else (moveFull flags (pos + bytes.length) (count - bytes.length) (src.drop bytes.length) ios).after
          { call with bytes }
      | .intr => if flags.intr then ⟨some false, [call], ios⟩ else (moveFull flags pos count src ios).after call
      | .again => if flags.nb then ⟨some false, [call], ios⟩ else (moveFull flags pos count src ios).after call
      | .failed => ⟨some false, [call], ios⟩

def readFull (flags : IoFlags) (count : Nat) (stream : Bytes) (ios : List Io) : IoResult :=
  moveFull flags 0 count stream ios

def writeFull (flags : IoFlags) (buf : Bytes) (ios : List Io) : IoResult := moveFull flags 0 buf.length buf ios

section
variable {flags : IoFlags} {pos count : Nat} {src : Bytes} {ios : List Io}

@[simp] theorem IoResult.ret_after (call : IoCall) (t : IoResult) : (t.after call).ret = t.ret := rfl

@[simp] theorem IoResult.ios_after (call : IoCall) (t : IoResult) : (t.after call).ios = t.ios := rfl

@[simp] theorem IoResult.bytes_after (call : IoCall) (t : IoResult) : (t.after call).bytes = call.bytes ++ t.bytes :=
  List.flatMap_cons

/-- What the loop has moved is the front of the source, all of it exactly if it returned true. -/
structure IoResult.Moves (t : IoResult) (count : Nat) (src : Bytes) : Prop where
  front : t.bytes = src.take t.bytes.length
  le : t.bytes.length ≤ count
  all : t.ret = some true ↔ t.bytes.length = count

theorem IoResult.Moves.after {t : IoResult} {call : IoCall} {bytes : Bytes} (hcall : call.bytes = bytes)
    (hbytes : bytes = src.take bytes.length) (hle : bytes.length ≤ count)
    (h : t.Moves (count - bytes.length) (src.drop bytes.length)) : (t.after call).Moves count src := by
  have hlen : (t.after call).bytes.length = bytes.length + t.bytes.length := by
    rw [bytes_after, List.length_append, hcall]
  refine ⟨?_, ?_, ?_⟩
  · rw [hlen, bytes_after, hcall, List.take_add, ← hbytes, ← h.front]
  · have := h.le
    omega
  · have := h.le
    rw [ret_after, h.all, hlen]
    omega

theorem IoResult.Moves.stop {ret : Option Bool} {calls : List IoCall} (hret : ret ≠ some true) (hcount : count ≠ 0)
    (hcalls : ∀ call ∈ calls, call.bytes = []) : IoResult.Moves ⟨ret, calls, ios⟩ count src := by
  have hbytes : IoResult.bytes ⟨ret, calls, ios⟩ = [] := List.flatMap_eq_nil_iff.mpr hcalls
  refine ⟨?_, ?_, iff_of_false hret ?_⟩ <;> rw [hbytes]
  · rfl
  · exact Nat.zero_le _
  · exact Ne.symm hcount

theorem moveFull_moves (flags : IoFlags) (pos count : Nat) (src : Bytes) (ios : List Io) :
    (moveFull flags pos count src ios).Moves count src := by
  induction ios generalizing pos count src with
  | nil =>
    unfold moveFull
    by_cases hcount : count = 0
    · rw [if_pos hcount, hcount]
      exact ⟨rfl, Nat.le_refl _, iff_of_true rfl rfl⟩
    · rw [if_neg hcount]
      exact .stop (by simp) hcount (by simp)
  | cons io ios ih =>
    unfold moveFull
    split
    · rename_i hcount
      rw [hcount]
      exact ⟨rfl, Nat.le_refl _, iff_of_true rfl rfl⟩
    · rename_i hcount
      have hagain : ((moveFull flags pos count src ios).after ⟨pos, min count ssizeMax, []⟩).Moves count src :=
        .after rfl (by simp) (Nat.zero_le _) (ih pos count src)
      have hstop : IoResult.Moves ⟨some false, [⟨pos, min count ssizeMax, []⟩], ios⟩ count src :=
        .stop (by simp) hcount (by simp)
      cases io with
      | moved n =>
        dsimp only
        split
        · exact hstop
        · refine .after rfl ?_ ?_ (ih _ _ _)
          · rw [List.length_take, ← List.take_eq_take_min]
          · rw [List.length_take]
            omega
      | intr =>
        dsimp only
        split
        exacts [hstop, hagain]
      | again =>
        dsimp only
        split
        exacts [hstop, hagain]
      | failed => exact hstop

/-- The number of calls that move something. -/
def moves (ios : List Io) : Nat := ios.countP fun io => io matches .moved _

/-- The calls move bytes, or fail for now. -/
def Flows (ios : List Io) : Prop := ∀ io ∈ ios, io ≠ .failed

/-- With enough calls that move something, and without flags, the loop returns true. -/
theorem moveFull_flows (hios : Flows ios) (hcount : count ≤ moves ios) (hsrc : count ≤ src.length) :
    (moveFull .none pos count src ios).ret = some true ∧ Flows (moveFull .none pos count src ios).ios ∧
      moves ios ≤ moves (moveFull .none pos count src ios).ios + count := by
  induction ios generalizing pos count src with
  | nil =>
    obtain rfl : count = 0 := Nat.le_zero.mp hcount
    exact ⟨rfl, hios, Nat.le_refl _⟩
  | cons io ios ih =>
    unfold moveFull
    split
    · rename_i hzero
      exact ⟨rfl, hios, Nat.le_add_right _ _⟩
    · rename_i hzero
      have hrest : Flows ios := fun io h => hios io (List.mem_cons_of_mem _ h)
      cases io with
      | moved n =>
        have hmoves : moves (.moved n :: ios) = moves ios + 1 := List.countP_cons_of_pos rfl
        have hmax : 1 ≤ ssizeMax := by decide
        have hlen : (src.take (min (n + 1) (min count ssizeMax))).length = min (n + 1) (min count ssizeMax) := by
          rw [List.length_take]
          omega
        dsimp only
        rw [if_neg fun h => by rw [h, List.length_nil] at hlen; omega, IoResult.ret_after, IoResult.ios_after, hlen]
        obtain ⟨hret, hflows, hleft⟩ := @ih (pos + min (n + 1) (min count ssizeMax))
          (count - min (n + 1) (min count ssizeMax)) (src.drop (min (n + 1) (min count ssizeMax))) hrest (by omega)
          (by rw [List.length_drop]; omega)
        exact ⟨hret, hflows, by omega⟩
      | intr => exact ih hrest hcount hsrc
      | again => exact ih hrest hcount hsrc
      | failed => exact absurd rfl (hios _ (.head _))

/-! ### Reads and writes -/

theorem readFull_moves (flags : IoFlags) (count : Nat) (stream : Bytes) (ios : List Io) :
    (readFull flags count stream ios).Moves count stream := moveFull_moves _ _ _ _ _

theorem writeFull_moves (flags : IoFlags) (buf : Bytes) (ios : List Io) :
    (writeFull flags buf ios).Moves buf.length buf := moveFull_moves _ _ _ _ _

/-- A read that returns true has the front of the stream. -/
theorem bytes_readFull (hret : (readFull flags count src ios).ret = some true) :
    (readFull flags count src ios).bytes = src.take count ∧ count ≤ src.length := by
  have hmoves := readFull_moves flags count src ios
  have hlen := hmoves.all.mp hret
  have hfront := hmoves.front
  rw [hlen] at hfront
  refine ⟨hfront, ?_⟩
  have := congrArg List.length hfront
  rw [hlen, List.length_take] at this
  omega

/-- A write that returns true has written the buffer. -/
theorem bytes_writeFull (hret : (writeFull flags src ios).ret = some true) :
    (writeFull flags src ios).bytes = src := by
  have hmoves := writeFull_moves flags src ios
  rw [hmoves.front, hmoves.all.mp hret, List.take_length]

theorem readFull_flows (hios : Flows ios) (hcount : count ≤ moves ios) (hsrc : count ≤ src.length) :
    (readFull .none count src ios).ret = some true ∧ Flows (readFull .none count src ios).ios ∧
      moves ios ≤ moves (readFull .none count src ios).ios + count := moveFull_flows hios hcount hsrc

theorem writeFull_flows (hios : Flows ios) (hcount : src.length ≤ moves ios) :
    (writeFull .none src ios).ret = some true ∧ Flows (writeFull .none src ios).ios ∧
      moves ios ≤ moves (writeFull .none src ios).ios + src.length := moveFull_flows hios hcount (Nat.le_refl _)

end
end Waynergy
