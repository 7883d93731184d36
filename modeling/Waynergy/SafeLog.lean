import Waynergy.Lib.CString

/-!
# Logging from signal handlers (`log.c`)

A signal handler may not call `printf`, so that the numbers and the timestamps are printed by hand there. Every access to
the buffer is checked: `none` is one outside it.
-/

namespace Waynergy
open Lib

def int32Buflen : Nat := 12

/-! ### The buffer -/

/-- Store `v` at index `i`. -/
def put (buf : Bytes) (i : Int) (v : Bytes) : Option Bytes :=
  if 0 ≤ i ∧ i + v.length ≤ buf.length then some (overwrite buf i.toNat v) else none

/-- The `n` bytes from index `i`. -/
def fetch (buf : Bytes) (i n : Int) : Option Bytes :=
  if 0 ≤ i ∧ 0 ≤ n ∧ i + n ≤ buf.length then some (slice buf i.toNat n.toNat) else none

/-- The string at the front, which `strlen` looks for the end of. -/
def strOf (buf : Bytes) : Option Bytes := if 0 ∈ buf then some (cString buf) else none

/-! ### Numbers -/

/-- The loop that stores the digits of `n` in front of one another, down from `out[i]`: where it ends, and the buffer. -/
def digitLoop (out : Nat) : Nat → Int → Nat → Bytes → Option (Int × Bytes)
  | 0, _, _, _ => none
  | fuel + 1, i, n, buf =>
    if n = 0 then some (i, buf)
    else do
      let buf ← put buf (out + i) [digit (n % 10)]
      digitLoop out fuel (i - 1) (n / 10) buf

/-- `uint32_to_str`, to the address of `buf[out]`. -/
def uint32ToStr (n : Nat) (out : Nat) (buf : Bytes) : Option Bytes :=
  if n = 0 then put buf out (ascii ['0'] ++ [0])
  else do
    let (i, buf) ← digitLoop out (n + 1) (int32Buflen - 2) n buf
    -- shift back by number of unused digits
    let digits := int32Buflen - 2 - i
    let moved ← fetch buf (out + i + 1) digits
    let buf ← put buf out moved
    put buf (out + digits) [0]

def int32ToStr (n : Int) (buf : Bytes) : Option Bytes :=
  if n = -2 ^ 31 then put buf 0 (ascii ['I', 'N', 'T', '_', 'M', 'I', 'N'] ++ [0])
  else if n < 0 then do
    let buf ← uint32ToStr (-n).toNat 1 buf
    put buf 0 (ascii ['-'])
  else uint32ToStr n.toNat 0 buf

/-- `%d` -/
def signedDecimal (n : Int) : Bytes := if n < 0 then ascii ['-'] ++ decimal n.natAbs else decimal n.natAbs

/-- `%0wd` -/
def zeroPadded (width : Nat) (n : Int) : Bytes :=
  if n < 0 then ascii ['-'] ++ List.replicate (width - 1 - (decimal n.natAbs).length) 48 ++ decimal n.natAbs
  else List.replicate (width - (decimal n.natAbs).length) 48 ++ decimal n.natAbs

/-! ### Timestamps -/

/-- `struct timespec` -/
structure Timespec where
  sec : Int
  nsec : Int

/-- The time since the log was started, as both functions normalise it. -/
def Timespec.since (ts start : Timespec) : Timespec :=
  let sec := ts.sec - start.sec
  let nsec := ts.nsec - start.nsec
  if nsec < 0 then ⟨sec - 1, nsec + 1000000000⟩ else ⟨sec, nsec⟩

/-- What `log_print_ts` prints. -/
def logPrintTs (ts start : Timespec) : Bytes :=
  let ts := ts.since start
  signedDecimal ts.sec ++ ascii ['.'] ++ zeroPadded 9 ts.nsec

inductive LogLevel
  | none
  | err
  | warn
  | info
  | dbg
  | dbgSyn
  | invalid
deriving DecidableEq

def LogLevel.code : LogLevel → Nat
  | .none => 0
  | .err => 1
  | .warn => 2
  | .info => 3
  | .dbg => 4
  | .dbgSyn => 5
  | .invalid => 6

/-- What `log_print_ts_ss` writes, with the uninitialised buffer `buf`. -/
def logPrintTsSs (logLevel level : LogLevel) (ts start : Timespec) (buf : Bytes) : Option Bytes :=
  if level.code > logLevel.code then some []
  else do
    let ts := ts.since start
    let buf ← uint32ToStr (ts.sec % 2 ^ 32).toNat 0 buf
    let secs ← strOf buf
    let buf ← uint32ToStr (ts.nsec % 2 ^ 32).toNat 0 buf
    let nsecs ← strOf buf
    some (secs ++ ascii ['.'] ++ List.replicate (9 - nsecs.length) 48 ++ nsecs)

/-! ### The digits -/

variable {buf : Bytes}

theorem put_eq {i : Nat} {v : Bytes} (h : i + v.length ≤ buf.length) : put buf i v = some (overwrite buf i v) := by
  unfold put
  rw [if_pos (by omega), Int.toNat_natCast]

theorem fetch_eq {i n : Nat} (h : i + n ≤ buf.length) : fetch buf i n = some (slice buf i n) := by
  unfold fetch
  rw [if_pos (by omega), Int.toNat_natCast, Int.toNat_natCast]

/-- The digits that the loop stores: none for zero. -/
def digitsOf (n : Nat) : Bytes := if n = 0 then [] else decimal n

theorem digitsOf_eq {n : Nat} (h : n ≠ 0) : digitsOf n = digitsOf (n / 10) ++ [digit (n % 10)] := by
  unfold digitsOf
  rw [if_neg h, decimal_eq]

/-- The loop leaves the digits right-aligned. -/
theorem digitLoop_eq {out : Nat} (fuel n i : Nat) (hfuel : n < fuel) (hroom : (digitsOf n).length ≤ i)
    (hbuf : out + i < buf.length) : digitLoop out fuel i n buf =
      some (((i - (digitsOf n).length : Nat) : Int), overwrite buf (out + i + 1 - (digitsOf n).length) (digitsOf n)) := by
  induction fuel generalizing n i buf with
  | zero => exact absurd hfuel (Nat.not_lt_zero n)
  | succ fuel ih =>
    unfold digitLoop
    by_cases hn : n = 0
    · rw [if_pos hn, hn]
      exact congrArg some (Prod.ext rfl (overwrite_nil buf _).symm)
    · have hdigits := digitsOf_eq hn
      have hlen : (digitsOf n).length = (digitsOf (n / 10)).length + 1 := by rw [hdigits, List.length_append]; rfl
      have hput : put buf (out + i) [digit (n % 10)] = some (overwrite buf (out + i) [digit (n % 10)]) :=
        put_eq (show out + i + 1 ≤ buf.length by omega)
      have hi : (i : Int) - 1 = ((i - 1 : Nat) : Int) := by omega
      have hbuf' : out + (i - 1) < (overwrite buf (out + i) [digit (n % 10)]).length := by
        rw [length_overwrite (show out + i + 1 ≤ buf.length by omega)]
        omega
      have hcount : i - 1 - (digitsOf (n / 10)).length = i - (digitsOf n).length := by omega
      -- the new digit stands right behind the others
      have hpos : out + (i - 1) + 1 - (digitsOf (n / 10)).length = out + i + 1 - (digitsOf n).length := by omega
      have hbehind : out + i = out + i + 1 - (digitsOf n).length + (digitsOf (n / 10)).length := by omega
      have hstored : overwrite (overwrite buf (out + i) [digit (n % 10)]) (out + i + 1 - (digitsOf n).length)
          (digitsOf (n / 10)) = overwrite buf (out + i + 1 - (digitsOf n).length) (digitsOf n) := by
        rw [congrArg (overwrite buf · [digit (n % 10)]) hbehind, overwrite_prepend _ (by omega), ← hdigits]
      rw [if_neg hn, hput, hi]
      refine (ih (n / 10) (i - 1) (by omega) (by omega) hbuf').trans ?_
      rw [hcount, hpos, hstored]

/-- The string `text` was stored at `buf[out]`, and nothing changed in front of it. -/
structure Prints (text : Bytes) (out : Nat) (buf buf' : Bytes) : Prop where
  length : buf'.length = buf.length
  front : buf'.take out = buf.take out
  text : ∃ rest, buf'.drop out = text ++ 0 :: rest

theorem Prints.overwrite {text buf' : Bytes} {out : Nat} (hlen : buf'.length = buf.length)
    (hfront : buf'.take out = buf.take out) (hfit : out + (text ++ [0]).length ≤ buf.length) :
    Prints text out buf (overwrite buf' out (text ++ [0])) := by
  have hout : (buf'.take out).length = out := List.length_take_of_le (by omega)
  have happend : Lib.overwrite buf' out (text ++ [0]) =
      buf'.take out ++ (text ++ [0] ++ buf'.drop (out + (text ++ [0]).length)) := List.append_assoc ..
  refine ⟨(length_overwrite (by omega)).trans hlen, ?_, ?_⟩
  · rw [happend, List.take_left' hout, hfront]
  · rw [happend, List.drop_left' hout, List.append_assoc]
    exact ⟨_, rfl⟩

theorem uint32ToStr_prints {n out : Nat} (hn : n < 2 ^ 32) (hbuf : out + 11 ≤ buf.length) :
    ∃ buf', uint32ToStr n out buf = some buf' ∧ Prints (decimal n) out buf buf' := by
  have hten := length_decimal_le hn
  have hfit : out + (decimal n ++ [0]).length ≤ buf.length := by
    rw [List.length_append, List.length_singleton]
    omega
  unfold uint32ToStr
  by_cases hzero : n = 0
  · subst hzero
    rw [if_pos rfl]
    exact ⟨_, put_eq hfit, .overwrite rfl rfl hfit⟩
  · have hdigits : digitsOf n = decimal n := if_neg hzero
    have hloop : digitLoop out (n + 1) (int32Buflen - 2) n buf = some (((10 - (decimal n).length : Nat) : Int),
        overwrite buf (out + 10 + 1 - (decimal n).length) (decimal n)) := by
      rw [← hdigits]
      exact digitLoop_eq (n + 1) n 10 (Nat.lt_succ_self n) (by rw [hdigits]; exact hten) (by omega)
    -- the digits, and their place before and after the shift
    generalize hbs : decimal n = bs at *
    have hright : out + 10 + 1 - bs.length + bs.length ≤ buf.length := by omega
    have hshifted : (overwrite buf (out + 10 + 1 - bs.length) bs).length = buf.length := length_overwrite hright
    have hcount : ((int32Buflen : Int) - 2 - ((10 - bs.length : Nat) : Int)) = bs.length := by
      have : int32Buflen = 12 := rfl
      omega
    have hstart : (out : Int) + ((10 - bs.length : Nat) : Int) + 1 = ((out + 10 + 1 - bs.length : Nat) : Int) := by omega
    have hslice : slice (overwrite buf (out + 10 + 1 - bs.length) bs) (out + 10 + 1 - bs.length) bs.length = bs := by
      have hfront : (buf.take (out + 10 + 1 - bs.length)).length = out + 10 + 1 - bs.length :=
        List.length_take_of_le (by omega)
      rw [slice, Lib.overwrite, List.append_assoc, List.drop_left' hfront, List.take_left]
    have hfetch : fetch (overwrite buf (out + 10 + 1 - bs.length) bs) ((out + 10 + 1 - bs.length : Nat) : Int) bs.length =
        some bs := by
      rw [fetch_eq (hshifted.symm ▸ hright), hslice]
    have hput : put (overwrite buf (out + 10 + 1 - bs.length) bs) out bs =
        some (overwrite (overwrite buf (out + 10 + 1 - bs.length) bs) out bs) := put_eq (by omega)
    have hclose : put (overwrite (overwrite buf (out + 10 + 1 - bs.length) bs) out bs) (out + bs.length : Nat) [0] =
        some (overwrite (overwrite buf (out + 10 + 1 - bs.length) bs) out (bs ++ [0])) := by
      have hroom : out + bs.length + 1 ≤ buf.length := by
        rw [List.length_append, ← Nat.add_assoc] at hfit
        exact hfit
      have hlen : (overwrite (overwrite buf (out + 10 + 1 - bs.length) bs) out bs).length = buf.length := by
        rw [length_overwrite (by omega), hshifted]
      rw [put_eq (hlen.symm ▸ hroom), overwrite_append _ (by omega)]
    rw [if_neg hzero, hloop]
    simp only [Option.bind_eq_bind, Option.bind_some]
    rw [hcount, hstart, hfetch]
    simp only [Option.bind_some]
    rw [hput]
    refine ⟨_, hclose, .overwrite hshifted ?_ hfit⟩
    rw [Lib.overwrite, List.append_assoc, List.take_append_of_le_length (by rw [List.length_take]; omega), List.take_take,
      Nat.min_eq_left (by omega)]

/-! ### The strings -/

theorem not_mem_decimal (n : Nat) : (0 : UInt8) ∉ decimal n := fun h => absurd ((numeral_decimal n).digits 0 h).1 (by decide)

/-- The string at the front ends at the first zero. -/
theorem strOf_eq {text : Bytes} (rest : Bytes) (hnul : 0 ∉ text) : strOf (text ++ 0 :: rest) = some text := by
  have hstr : cString (text ++ 0 :: rest) = text := by
    have hall : ∀ b ∈ text, decide (b ≠ 0) = true := fun b hb => decide_eq_true fun h0 => by
      rw [h0] at hb
      exact hnul hb
    rw [cString, upTo, List.takeWhile_append_of_pos hall]
    exact List.append_nil text
  unfold strOf
  rw [if_pos (List.mem_append_right _ List.mem_cons_self), hstr]

theorem uint32ToStr_text {n : Nat} (hn : n < 2 ^ 32) (hbuf : int32Buflen ≤ buf.length) :
    ∃ buf', uint32ToStr n 0 buf = some buf' ∧ buf'.length = buf.length ∧ strOf buf' = some (decimal n) := by
  have h12 : int32Buflen = 12 := rfl
  obtain ⟨buf', hrun, hlen, -, rest, hrest⟩ := uint32ToStr_prints hn (show 0 + 11 ≤ buf.length by omega)
  refine ⟨buf', hrun, hlen, ?_⟩
  rw [List.drop_zero] at hrest
  rw [hrest]
  exact strOf_eq rest (not_mem_decimal n)

theorem int32ToStr_text {n : Int} (hlo : -2 ^ 31 < n) (hhi : n < 2 ^ 31) (hbuf : int32Buflen ≤ buf.length) :
    ∃ buf', int32ToStr n buf = some buf' ∧ strOf buf' = some (signedDecimal n) := by
  have h12 : int32Buflen = 12 := rfl
  have hlt : n.natAbs < 2 ^ 32 := by omega
  unfold int32ToStr signedDecimal
  rw [if_neg (by omega)]
  by_cases hneg : n < 0
  · have habs : (-n).toNat = n.natAbs := by omega
    obtain ⟨buf', hrun, hlen, -, rest, hrest⟩ := uint32ToStr_prints hlt (show 1 + 11 ≤ buf.length by omega)
    have hput : put buf' 0 (ascii ['-']) = some (overwrite buf' 0 (ascii ['-'])) :=
      put_eq (show 0 + 1 ≤ buf'.length by omega)
    rw [if_pos hneg, if_pos hneg, habs, hrun]
    refine ⟨_, hput, ?_⟩
    -- the sign in front of what was stored behind it
    have hsigned : overwrite buf' 0 (ascii ['-']) = ascii ['-'] ++ decimal n.natAbs ++ 0 :: rest := by
      rw [overwrite_zero, List.append_assoc, ← hrest]
      rfl
    rw [hsigned]
    refine strOf_eq rest fun h => ?_
    rcases List.mem_append.mp h with h | h
    · revert h
      decide
    · exact not_mem_decimal _ h
  · have habs : n.toNat = n.natAbs := by omega
    rw [if_neg hneg, if_neg hneg, habs]
    obtain ⟨buf', hrun, -, hstr⟩ := uint32ToStr_text hlt hbuf
    exact ⟨buf', hrun, hstr⟩

/-! ### The timestamp -/

theorem logPrintTsSs_eq {logLevel level : LogLevel} {ts start : Timespec} (hlevel : level.code ≤ logLevel.code)
    (hsec : 0 ≤ (ts.since start).sec ∧ (ts.since start).sec < 2 ^ 32)
    (hnsec : 0 ≤ (ts.since start).nsec ∧ (ts.since start).nsec < 10 ^ 9) (hbuf : int32Buflen ≤ buf.length) :
    logPrintTsSs logLevel level ts start buf = some (logPrintTs ts start) := by
  unfold logPrintTsSs logPrintTs
  rw [if_neg (Nat.not_lt.mpr hlevel)]
  dsimp only
  generalize ts.since start = t at hsec hnsec
  have hs : (t.sec % 2 ^ 32).toNat = t.sec.natAbs := by omega
  have hn : (t.nsec % 2 ^ 32).toNat = t.nsec.natAbs := by omega
  obtain ⟨buf₁, hrun₁, hlen₁, hstr₁⟩ := uint32ToStr_text (show t.sec.natAbs < 2 ^ 32 by omega) hbuf
  obtain ⟨buf₂, hrun₂, -, hstr₂⟩ := uint32ToStr_text (show t.nsec.natAbs < 2 ^ 32 by omega) (hlen₁.symm ▸ hbuf)
  rw [hs, hn, hrun₁]
  simp only [Option.bind_eq_bind, Option.bind_some]
  rw [hstr₁]
  simp only [Option.bind_some]
  rw [hrun₂]
  simp only [Option.bind_some]
  rw [hstr₂]
  simp only [Option.bind_some]
  unfold signedDecimal zeroPadded
  rw [if_neg (by omega), if_neg (by omega), List.append_assoc (_ ++ _)]

theorem int32ToStr_min (hbuf : int32Buflen ≤ buf.length) : ∃ buf', int32ToStr (-2 ^ 31) buf = some buf' ∧
    strOf buf' = some (ascii ['I', 'N', 'T', '_', 'M', 'I', 'N']) := by
  have h12 : int32Buflen = 12 := rfl
  have hput : put buf 0 (ascii ['I', 'N', 'T', '_', 'M', 'I', 'N'] ++ [0]) =
      some (overwrite buf 0 (ascii ['I', 'N', 'T', '_', 'M', 'I', 'N'] ++ [0])) := put_eq (show 0 + 8 ≤ buf.length by omega)
  unfold int32ToStr
  rw [if_pos rfl]
  refine ⟨_, hput, ?_⟩
  rw [overwrite_zero, List.append_assoc]
  exact strOf_eq _ (by decide)

/-- The signal-safe functions print what `printf` does, whatever the buffer held, and never leave it. -/
theorem safe_log_agrees (buf : Buf int32Buflen) :
    (∀ (logLevel level : LogLevel) (ts start : Timespec), 0 ≤ (ts.since start).sec → (ts.since start).sec < 2 ^ 32 →
      0 ≤ (ts.since start).nsec → (ts.since start).nsec < 10 ^ 9 → logPrintTsSs logLevel level ts start buf.bytes =
        some (if level.code > logLevel.code then [] else logPrintTs ts start)) ∧
    (∀ n < 2 ^ 32, ∃ buf' digits, uint32ToStr n 0 buf.bytes = some buf' ∧ strOf buf' = some digits ∧ Numeral n digits) ∧
    (∀ n : Int, -2 ^ 31 < n → n < 2 ^ 31 → ∃ buf', int32ToStr n buf.bytes = some buf' ∧
      strOf buf' = some (signedDecimal n)) ∧
    ∃ buf', int32ToStr (-2 ^ 31) buf.bytes = some buf' ∧ strOf buf' = some (ascii ['I', 'N', 'T', '_', 'M', 'I', 'N']) := by
  have hbuf : int32Buflen ≤ buf.bytes.length := Nat.le_of_eq buf.size.symm
  refine ⟨fun logLevel level ts start hlo hhi hnlo hnhi => ?_, fun n hn => ?_,
    fun n hlo hhi => int32ToStr_text hlo hhi hbuf, int32ToStr_min hbuf⟩
  · by_cases hlevel : level.code > logLevel.code
    · unfold logPrintTsSs
      rw [if_pos hlevel, if_pos hlevel]
    · rw [if_neg hlevel]
      exact logPrintTsSs_eq (Nat.not_lt.mp hlevel) ⟨hlo, hhi⟩ ⟨hnlo, hnhi⟩ hbuf
  · obtain ⟨buf', hrun, -, hstr⟩ := uint32ToStr_text hn hbuf
    exact ⟨buf', decimal n, hrun, hstr, numeral_decimal n⟩

/-- A difference that borrows a second. -/
theorem safe_log_agrees_borrow : logPrintTsSs .info .err ⟨5, 100⟩ ⟨3, 200⟩ (Buf.zero int32Buflen).bytes =
    some (logPrintTs ⟨5, 100⟩ ⟨3, 200⟩) :=
  (safe_log_agrees (Buf.zero int32Buflen)).1 .info .err ⟨5, 100⟩ ⟨3, 200⟩ (by decide) (by decide) (by decide) (by decide)

example : logPrintTs ⟨5, 100⟩ ⟨3, 200⟩ = ascii ['1', '.', '9', '9', '9', '9', '9', '9', '9', '0', '0'] := by decide

end Waynergy
