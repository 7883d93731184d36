import Waynergy.Ssb

/-!
# Reading whole files (`ssb.h`, `config.c`)

`ssbReadfileLog` is `ssb_readfile` with the calls that it makes, in the arithmetic of `size_t`. A `fread` of no bytes is
taken for the end of the file, so that none may be asked of it: `readfile_exact`.
-/

namespace Waynergy
open Lib

/-- Subtraction of `size_t`, which wraps around below zero. -/
def sizeSub (a b : Nat) : Nat := if b ≤ a then a - b else 2 ^ 64 - (b - a)

theorem sizeSub_eq {a b : Nat} (h : b ≤ a) : sizeSub a b = a - b := if_pos h

/-- A call of `fread`: where in the block, for how many bytes, and how large the block is and is taken to be. -/
structure FreadCall where
  pos : Nat
  count : Nat
  alloc : Nat
  size : Nat

/-- What came of reading a file: what was returned, if the calls of `fread` suffice, these calls, and the sizes that were
asked of `realloc`. -/
structure ReadLog where
  ret : Option (Bool × Ssb)
  calls : List FreadCall
  allocs : List Nat

/-- The size that `ssb_grow_min` truncates to. -/
def Ssb.newsize (s : Ssb) (min : Nat) : Nat :=
  let min := sizeAdd min s.size
  let newsize := match s.grow with
    | .by1_5 => sizeAdd s.size (s.size / 2)
    | .by2_0 => s.size * 2 % 2 ^ 64
    | .exact => min
  if newsize ≥ min then newsize else min

theorem ssbGrowMin_newsize (h : Heap) (s : Ssb) (min : Nat) : ssbGrowMin h s min = ssbTruncate h s (s.newsize min) := rfl

/-- Whether there is too little room. -/
def Ssb.Tight (s : Ssb) : Prop := sizeSub s.size s.pos ≤ 2

instance (s : Ssb) : Decidable s.Tight := inferInstanceAs (Decidable (_ ≤ _))

/-- The sizes asked of `realloc` before a call of `fread`. -/
def Ssb.asks (s : Ssb) : List Nat := if s.Tight then [sizeAdd (s.newsize ssbReadLen) 1] else []

def Ssb.grown (h : Heap) (s : Ssb) : Option Ssb := if s.Tight then ssbGrowMin h s ssbReadLen else some s

/-- The call of `fread` at the write position. -/
def Ssb.freadCall (s : Ssb) : FreadCall := ⟨s.pos, sizeSub (sizeSub s.size s.pos) 1, s.buf.length, s.size⟩

def ssbReadfileLog (h : Heap) (s : Ssb) (file : Bytes) : List Fread → ReadLog
  | [] =>
    match s.grown h with
    | none => ⟨some (false, s), [], s.asks⟩
    | some t => ⟨none, [t.freadCall], s.asks⟩
  | fread :: freads =>
    match s.grown h with
    | none => ⟨some (false, s), [], s.asks⟩
    | some t =>
      match fread with
      | .error => ⟨some (false, t.close), [t.freadCall], s.asks⟩
      | .moved n =>
        let bytes := file.take (min (n + 1) t.freadCall.count)
        -- which is the end of the file if `feof` says so
        if bytes = [] then ⟨some (decide (file = []), t.close), [t.freadCall], s.asks⟩
        else
          let log := ssbReadfileLog h (t.stored bytes) (file.drop bytes.length) freads
          ⟨log.ret, t.freadCall :: log.calls, s.asks ++ log.allocs⟩

/-- `read_file_dumb`, of a file that could be opened or not: the block that is returned, or the null pointer. -/
def readFileDumb (h : Heap) (freads : List Fread) : Option Bytes → Option (Option Bytes)
  | none => some none
  | some file =>
    match ssbReadfile h .zero file freads with
    | none => none
    | some (false, _) => some none
    | some (true, s) =>
      match ssbTruncate h s s.pos with
      | none => some none
      | some s => some (some s.buf)

/-! ### One read -/

variable {h : Heap} {s t : Ssb} {content file : Bytes} {freads : List Fread}

/-- The allocator grants the size. -/
def Heap.Gives (h : Heap) (n : Nat) : Prop := n < 2 ^ 63 ∧ h.ok n = true

theorem xrealloc_gives {old : Bytes} {n : Nat} (hn : h.Gives n) :
    xrealloc h old n = some (old.take n ++ (List.range (n - old.length)).map h.fresh) := if_pos hn

theorem Ssb.Holds.tight_iff (hs : s.Holds content) : s.Tight ↔ s.size - s.pos ≤ 2 := by
  have hle := hs.le
  unfold Ssb.Tight
  rw [sizeSub_eq hle]

theorem Ssb.Holds.grown_eq (hs : s.Holds content) : s.grown h = ssbRoom h s := by
  unfold Ssb.grown ssbRoom
  by_cases htight : s.Tight
  · rw [if_pos htight, if_pos (hs.tight_iff.mp htight)]
  · rw [if_neg htight, if_neg (mt hs.tight_iff.mpr htight)]

/-- If the allocator gives what is asked for, there is room. -/
theorem Ssb.Holds.granted (hs : s.Holds content) (hasks : ∀ n ∈ s.asks, h.Gives n) :
    ∃ t, ssbRoom h s = some t ∧ t.Holds content ∧ t.pos + 2 < t.size := by
  have hroom : ∃ t, ssbRoom h s = some t := by
    rw [← hs.grown_eq]
    unfold Ssb.asks at hasks
    unfold Ssb.grown
    split
    · rename_i htight
      rw [if_pos htight] at hasks
      rw [ssbGrowMin_newsize, ssbTruncate, xrealloc_gives (hasks _ (.head _))]
      exact ⟨_, rfl⟩
    · exact ⟨s, rfl⟩
  obtain ⟨t, ht⟩ := hroom
  exact ⟨t, ht, ssbRoom_holds hs ht⟩

/-- A call that asks for something, and stays inside the block with room for the terminating zero. -/
structure FreadCall.Safe (call : FreadCall) : Prop where
  asks : 1 ≤ call.count
  inside : call.pos + call.count + 1 ≤ call.alloc
  size : call.alloc = call.size

theorem Ssb.Holds.freadCall (ht : t.Holds content) (hroom : t.pos + 2 < t.size) :
    t.freadCall.count = t.size - t.pos - 1 ∧ t.freadCall.Safe := by
  have hsize := ht.size
  have hcount : t.freadCall.count = t.size - t.pos - 1 := by
    have hsub : sizeSub t.size t.pos = t.size - t.pos := sizeSub_eq (by omega)
    show sizeSub (sizeSub t.size t.pos) 1 = _
    rw [hsub, sizeSub_eq (by omega)]
  refine ⟨hcount, by omega, ?_, hsize⟩
  rw [hcount]
  show t.pos + (t.size - t.pos - 1) + 1 ≤ t.buf.length
  omega

/-! ### The whole file -/

theorem ssbReadfileLog_refused (hs : s.Holds content) (hroom : ssbRoom h s = none) (file : Bytes) (freads : List Fread) :
    ssbReadfileLog h s file freads = ⟨some (false, s), [], s.asks⟩ := by
  cases freads <;> simp only [ssbReadfileLog, hs.grown_eq, hroom]

theorem ssbReadfileLog_nil (hs : s.Holds content) (hroom : ssbRoom h s = some t) (file : Bytes) :
    ssbReadfileLog h s file [] = ⟨none, [t.freadCall], s.asks⟩ := by
  simp only [ssbReadfileLog, hs.grown_eq, hroom]

theorem ssbReadfileLog_error (hs : s.Holds content) (hroom : ssbRoom h s = some t) (file : Bytes)
    (freads : List Fread) :
    ssbReadfileLog h s file (.error :: freads) = ⟨some (false, t.close), [t.freadCall], s.asks⟩ := by
  simp only [ssbReadfileLog, hs.grown_eq, hroom]

/-- What a call of `fread` reads into `t`. -/
def Ssb.taken (t : Ssb) (file : Bytes) (n : Nat) : Bytes := file.take (min (n + 1) (t.size - t.pos - 1))

theorem Ssb.length_taken (t : Ssb) (file : Bytes) (n : Nat) : (t.taken file n).length ≤ t.size - t.pos - 1 := by
  unfold Ssb.taken
  rw [List.length_take]
  omega

theorem ssbReadfileLog_moved (hs : s.Holds content) (hroom : ssbRoom h s = some t) (file : Bytes) (n : Nat)
    (freads : List Fread) : ssbReadfileLog h s file (.moved n :: freads) =
      if t.taken file n = [] then ⟨some (decide (file = []), t.close), [t.freadCall], s.asks⟩
      else
        let log := ssbReadfileLog h (t.stored (t.taken file n)) (file.drop (t.taken file n).length) freads
        ⟨log.ret, t.freadCall :: log.calls, s.asks ++ log.allocs⟩ := by
  obtain ⟨ht, htroom⟩ := ssbRoom_holds hs hroom
  obtain ⟨hcount, -⟩ := ht.freadCall htroom
  have htaken : file.take (min (n + 1) t.freadCall.count) = t.taken file n := by rw [hcount, Ssb.taken]
  simp only [ssbReadfileLog, hs.grown_eq, hroom, htaken]

theorem ssbReadfile_moved (hroom : ssbRoom h s = some t) (file : Bytes) (n : Nat) (freads : List Fread) :
    ssbReadfile h s file (.moved n :: freads) = if t.taken file n = [] then some (decide (file = []), t.close)
      else ssbReadfile h (t.stored (t.taken file n)) (file.drop (t.taken file n).length) freads := by
  have htaken : file.take (min (n + 1) (t.size - t.pos - 1)) = t.taken file n := rfl
  simp only [ssbReadfile, hroom, htaken]

/-- The log is that of `ssbReadfile`. -/
theorem ssbReadfileLog_ret (hs : s.Holds content) (file : Bytes) (freads : List Fread) :
    (ssbReadfileLog h s file freads).ret = ssbReadfile h s file freads := by
  induction freads generalizing s content file with
  | nil =>
    cases hroom : ssbRoom h s with
    | none =>
      rw [ssbReadfileLog_refused hs hroom]
      simp only [ssbReadfile, hroom]
    | some t =>
      rw [ssbReadfileLog_nil hs hroom]
      simp only [ssbReadfile, hroom]
  | cons fread freads ih =>
    cases hroom : ssbRoom h s with
    | none =>
      rw [ssbReadfileLog_refused hs hroom]
      simp only [ssbReadfile, hroom]
    | some t =>
      obtain ⟨ht, htroom⟩ := ssbRoom_holds hs hroom
      cases fread with
      | error =>
        rw [ssbReadfileLog_error hs hroom]
        simp only [ssbReadfile, hroom]
      | moved n =>
        have hlen := t.length_taken file n
        rw [ssbReadfileLog_moved hs hroom, ssbReadfile_moved hroom]
        split
        · rfl
        · exact ih (ht.stored (by omega)) _

/-- Every call is safe, whatever the calls before it did. -/
theorem ssbReadfileLog_safe (hs : s.Holds content) (file : Bytes) (freads : List Fread) :
    ∀ call ∈ (ssbReadfileLog h s file freads).calls, call.Safe := by
  induction freads generalizing s content file with
  | nil =>
    cases hroom : ssbRoom h s with
    | none =>
      rw [ssbReadfileLog_refused hs hroom]
      exact List.forall_mem_nil _
    | some t =>
      obtain ⟨ht, htroom⟩ := ssbRoom_holds hs hroom
      rw [ssbReadfileLog_nil hs hroom]
      exact List.forall_mem_singleton.mpr (ht.freadCall htroom).2
  | cons fread freads ih =>
    cases hroom : ssbRoom h s with
    | none =>
      rw [ssbReadfileLog_refused hs hroom]
      exact List.forall_mem_nil _
    | some t =>
      obtain ⟨ht, htroom⟩ := ssbRoom_holds hs hroom
      obtain ⟨-, hsafe⟩ := ht.freadCall htroom
      cases fread with
      | error =>
        rw [ssbReadfileLog_error hs hroom]
        exact List.forall_mem_singleton.mpr hsafe
      | moved n =>
        have hlen := t.length_taken file n
        rw [ssbReadfileLog_moved hs hroom]
        split
        · exact List.forall_mem_singleton.mpr hsafe
        · exact List.forall_mem_cons.mpr ⟨hsafe, ih (ht.stored (by omega)) _⟩

/-- What is asked before the first call is in the log. -/
theorem asks_subset (hs : s.Holds content) (file : Bytes) (freads : List Fread) :
    s.asks ⊆ (ssbReadfileLog h s file freads).allocs := by
  cases hroom : ssbRoom h s with
  | none => rw [ssbReadfileLog_refused hs hroom]; exact List.Subset.refl _
  | some t =>
    cases freads with
    | nil => rw [ssbReadfileLog_nil hs hroom]; exact List.Subset.refl _
    | cons fread freads =>
      cases fread with
      | error => rw [ssbReadfileLog_error hs hroom]; exact List.Subset.refl _
      | moved n =>
        rw [ssbReadfileLog_moved hs hroom]
        split
        · exact List.Subset.refl _
        · exact List.subset_append_left _ _

/-- The zero that the file is closed with. -/
theorem Ssb.Holds.closed (hs : s.Holds content) (hroom : s.pos < s.size) : s.close.buf[s.close.pos]? = some 0 := by
  have hsize := hs.size
  have hlen : (s.buf.take s.pos).length = s.pos := List.length_take_of_le (by omega)
  show (overwrite s.buf s.pos [0])[s.pos]? = some 0
  rw [overwrite, List.append_assoc, List.getElem?_append_right (by omega), hlen, Nat.sub_self]
  rfl

/-- If no call fails and no allocation does, the file is read to its end. -/
theorem ssbReadfileLog_reads (hs : s.Holds content) (hfreads : ∀ fread ∈ freads, fread ≠ .error)
    (hcalls : file.length < freads.length) (hallocs : ∀ n ∈ (ssbReadfileLog h s file freads).allocs, h.Gives n) :
    ∃ s', (ssbReadfileLog h s file freads).ret = some (true, s') ∧ s'.Holds (content ++ file) ∧ s'.pos < s'.size ∧
      s'.buf[s'.pos]? = some 0 := by
  induction freads generalizing s content file with
  | nil => exact absurd hcalls (Nat.not_lt_zero _)
  | cons fread freads ih =>
    obtain ⟨t, hroom, ht, htroom⟩ := hs.granted fun n hn => hallocs n (asks_subset hs file _ hn)
    cases fread with
    | error => exact absurd rfl (hfreads _ (.head _))
    | moved n =>
      obtain ⟨hend, hsplit⟩ := take_fread file (show 0 < t.size - t.pos - 1 by omega) n
      have hlen := t.length_taken file n
      rw [ssbReadfileLog_moved hs hroom] at hallocs ⊢
      by_cases hread : t.taken file n = []
      · rw [if_pos hread]
        obtain rfl := hend hread
        rw [List.append_nil]
        exact ⟨t.close, rfl, ht.close (by omega), Nat.lt_of_le_of_lt (Nat.le_add_right _ 2) htroom, ht.closed (by omega)⟩
      · rw [if_neg hread] at hallocs ⊢
        have hne : 0 < (t.taken file n).length := List.length_pos_iff.mpr hread
        have hle : (t.taken file n).length ≤ file.length := List.length_take_le' _ _
        have hrest : (file.drop (t.taken file n).length).length < freads.length := by
          rw [List.length_drop]
          rw [List.length_cons] at hcalls
          omega
        have hnext := ih (ht.stored (by omega)) (fun fread h => hfreads fread (List.mem_cons_of_mem _ h)) hrest
          fun n hn => hallocs n (List.mem_append_right _ hn)
        rwa [List.append_assoc, Ssb.taken, hsplit] at hnext

/-- Truncated to what was read, the block is the file and a zero. -/
theorem Ssb.Holds.truncated (hs : s.Holds file) (hroom : s.pos < s.size) (hgives : h.Gives (file.length + 1)) :
    ∃ t, ssbTruncate h s s.pos = some t ∧ t.buf = file ++ [0] ∧ t.size = file.length + 1 := by
  have hsize := hs.size
  have hpos := hs.pos
  have hadd : sizeAdd s.pos 1 = s.pos + 1 := sizeAdd_eq (by have := hs.small; omega)
  have hnone : List.range (s.pos + 1 - s.buf.length) = [] := List.range_eq_nil.mpr (by omega)
  rw [← hpos] at hgives
  unfold ssbTruncate
  rw [hadd, xrealloc_gives hgives, hnone, List.map_nil, List.append_nil]
  dsimp only
  rw [if_pos (Nat.le_refl s.pos)]
  refine ⟨_, rfl, ?_, by rw [← hpos]⟩
  have hfront : (s.buf.take (s.pos + 1)).take s.pos = file := by
    rw [List.take_take, Nat.min_eq_left (Nat.le_succ s.pos), hs.front]
  show overwrite (s.buf.take (s.pos + 1)) s.pos [0] = file ++ [0]
  rw [overwrite, hfront, List.drop_of_length_le (by rw [List.length_take]; exact Nat.min_le_left _ _), List.append_nil]

def Ssb.empty (grow : SsbGrow) : Ssb := ⟨grow, [], 0, 0⟩

theorem Ssb.holds_empty (grow : SsbGrow) : (Ssb.empty grow).Holds [] := ⟨rfl, Nat.two_pow_pos 63, .inl rfl, rfl, rfl⟩

/-- A file is read exactly, by calls that are all safe, and truncated exactly. -/
structure ReadsExactly (h : Heap) (grow : SsbGrow) (file : Bytes) (freads : List Fread) : Prop where
  read : ∃ s, (ssbReadfileLog h (.empty grow) file freads).ret = some (true, s) ∧
    ssbReadfile h (.empty grow) file freads = some (true, s) ∧ s.buf.take s.pos = file ∧ s.pos = file.length ∧
    s.buf[s.pos]? = some 0 ∧ s.pos < s.size ∧ s.buf.length = s.size ∧
    ∃ t, ssbTruncate h s s.pos = some t ∧ t.buf = file ++ [0] ∧ t.size = file.length + 1
  safe : ∀ call ∈ (ssbReadfileLog h (.empty grow) file freads).calls, call.Safe
  dumb : grow = Ssb.zero.grow → readFileDumb h freads (some file) = some (some (file ++ [0]))

/-- However short the reads are, a file is read to its end, if no read and no allocation fails. -/
theorem readfile_exact (h : Heap) (grow : SsbGrow) (file : Bytes) (freads : List Fread)
    (hfreads : ∀ fread ∈ freads, fread ≠ .error) (hcalls : file.length < freads.length)
    (hallocs : ∀ n ∈ (ssbReadfileLog h (.empty grow) file freads).allocs, h.Gives n)
    (hshrink : h.Gives (file.length + 1)) : ReadsExactly h grow file freads := by
  have hempty := Ssb.holds_empty grow
  obtain ⟨s, hret, hs, hroom, hzero⟩ := ssbReadfileLog_reads hempty hfreads hcalls hallocs
  rw [List.nil_append] at hs
  have hread := ssbReadfileLog_ret (h := h) hempty file freads
  rw [hret] at hread
  obtain ⟨t, htrunc, hbuf, hsize⟩ := hs.truncated hroom hshrink
  refine ⟨⟨s, hret, hread.symm, hs.front, hs.pos, hzero, hroom, hs.size, t, htrunc, hbuf, hsize⟩,
    ssbReadfileLog_safe hempty file freads, fun hgrow => ?_⟩
  subst hgrow
  have hread : ssbReadfile h .zero file freads = some (true, s) := hread.symm
  unfold readFileDumb
  dsimp only
  rw [hread]
  dsimp only
  rw [htrunc, ← hbuf]

/-- A file of two bytes, read by one at a time. -/
theorem readfile_exact_hi :
    ReadsExactly ⟨fun _ => true, fun _ => 0⟩ .exact (ascii ['h', 'i']) [.moved 0, .moved 0, .moved 0] := by
  refine readfile_exact _ _ _ _ (by decide) (by decide) (fun n hn => ?_) ⟨by decide, rfl⟩
  have hallocs : (ssbReadfileLog ⟨fun _ => true, fun _ => 0⟩ (.empty .exact) (ascii ['h', 'i'])
      [.moved 0, .moved 0, .moved 0]).allocs = [4097] := rfl
  rw [hallocs, List.mem_singleton] at hn
  subst hn
  exact ⟨by decide, rfl⟩

end Waynergy
