import Waynergy.Clipboard

/-!
# The string builder (`ssb.h`), as far as whole files are read with it

The allocator is a `Heap`: `realloc` fails where `xrealloc` aborts.
-/

namespace Waynergy
open Lib

inductive SsbGrow
  | by1_5
  | by2_0
  | exact
deriving DecidableEq

/-- `struct ssb`, with the block that `buf` points to. -/
structure Ssb where
  grow : SsbGrow
  buf : Bytes
  size : Nat
  pos : Nat

/-- `struct ssb s = {0}`. -/
def Ssb.zero : Ssb := ⟨.by1_5, [], 0, 0⟩

/-- The length used for `ssb_readfile`. -/
def ssbReadLen : Nat := 4096

def ssbTruncate (h : Heap) (s : Ssb) (newsize : Nat) : Option Ssb :=
  match xrealloc h s.buf (sizeAdd newsize 1) with
  | none => none
  | some buf => some { s with
      buf := if s.pos ≥ newsize then overwrite buf newsize [0] else buf
      size := sizeAdd newsize 1 }

def ssbGrowMin (h : Heap) (s : Ssb) (min : Nat) : Option Ssb :=
  let min := sizeAdd min s.size
  let newsize := match s.grow with
    | .by1_5 => sizeAdd s.size (s.size / 2)
    | .by2_0 => s.size * 2 % 2 ^ 64
    | .exact => min
  ssbTruncate h s (if newsize ≥ min then newsize else min)

/-- How a call of `fread` turns out: it reads `n + 1` bytes or what there is of them, or it fails. -/
inductive Fread
  | moved (n : Nat)
  | error
deriving DecidableEq

/-- Room for the next read. -/
def ssbRoom (h : Heap) (s : Ssb) : Option Ssb := if s.size - s.pos ≤ 2 then ssbGrowMin h s ssbReadLen else some s

/-- The result would be NUL terminated. -/
def Ssb.close (s : Ssb) : Ssb := { s with buf := overwrite s.buf s.pos [0] }

/-- `bytes` were read to the write position. -/
def Ssb.stored (s : Ssb) (bytes : Bytes) : Ssb :=
  { s with buf := overwrite s.buf s.pos bytes, pos := s.pos + bytes.length }

/-- Read an entire file into a buffer: what is returned, or `none` if the calls of `fread` do not suffice. -/
def ssbReadfile (h : Heap) (s : Ssb) (file : Bytes) : List Fread → Option (Bool × Ssb)
  | [] =>
    match ssbRoom h s with
    | none => some (false, s)
    | some _ => none
  | fread :: freads =>
    match ssbRoom h s with
    | none => some (false, s)
    | some s =>
      match fread with
      | .error => some (false, s.close)
      | .moved n =>
        let bytes := file.take (min (n + 1) (s.size - s.pos - 1))
        if bytes = [] then some (decide (file = []), s.close)
        else ssbReadfile h (s.stored bytes) (file.drop bytes.length) freads

variable {h : Heap} {s s' : Ssb} {content file : Bytes}

/-- The block has its size, and the text stands at its front with room behind it. -/
structure Ssb.Holds (s : Ssb) (content : Bytes) : Prop where
  size : s.buf.length = s.size
  small : s.size < 2 ^ 63
  room : s.pos = 0 ∨ s.pos < s.size
  pos : s.pos = content.length
  front : s.buf.take s.pos = content

theorem Ssb.holds_zero : Ssb.zero.Holds [] := ⟨rfl, by decide, .inl rfl, rfl, rfl⟩

theorem Ssb.Holds.le (hs : s.Holds content) : s.pos ≤ s.size := by
  rcases hs.room with h | h <;> omega

theorem Ssb.Holds.stored {bytes : Bytes} (hs : s.Holds content) (hroom : s.pos + bytes.length < s.size) :
    (s.stored bytes).Holds (content ++ bytes) := by
  have hsize := hs.size
  refine ⟨(length_overwrite (by omega)).trans hsize, hs.small, .inr hroom, ?_, ?_⟩
  · rw [List.length_append, ← hs.pos]
    rfl
  · show (overwrite s.buf s.pos bytes).take (s.pos + bytes.length) = _
    rw [take_overwrite (by omega), hs.front]

theorem take_overwrite_front {buf bytes : Bytes} {pos : Nat} (h : pos ≤ buf.length) :
    (overwrite buf pos bytes).take pos = buf.take pos := by
  have hlen : (buf.take pos).length = pos := List.length_take_of_le h
  rw [overwrite, List.append_assoc, List.take_append_of_le_length (Nat.le_of_eq hlen.symm), List.take_take, Nat.min_self]

theorem Ssb.Holds.close (hs : s.Holds content) (hroom : s.pos < s.size) : s.close.Holds content := by
  have hsize := hs.size
  refine ⟨(length_overwrite (by show s.pos + 1 ≤ _; omega)).trans hsize, hs.small, hs.room, hs.pos, ?_⟩
  show (overwrite s.buf s.pos [0]).take s.pos = content
  rw [take_overwrite_front (by omega), hs.front]

theorem take_xrealloc {old buf : Bytes} {len n : Nat} (hr : xrealloc h old len = some buf) (hold : n ≤ old.length)
    (hlen : n ≤ len) : buf.take n = old.take n := by
  unfold xrealloc at hr
  split at hr
  · cases hr
    rw [List.take_append_of_le_length (by rw [List.length_take]; omega), List.take_take, Nat.min_eq_left hlen]
  · cases hr

/-- A larger block holds the same text. -/
theorem ssbTruncate_holds {newsize : Nat} (hs : s.Holds content) (hnew : s.size ≤ newsize) (hlt : newsize < 2 ^ 64 - 1)
    (hr : ssbTruncate h s newsize = some s') : s'.Holds content ∧ s'.size = newsize + 1 := by
  have hadd : sizeAdd newsize 1 = newsize + 1 := sizeAdd_eq (by omega)
  have hle := hs.le
  have hsize := hs.size
  unfold ssbTruncate at hr
  rw [hadd] at hr
  split at hr
  · cases hr
  · rename_i buf hbuf
    obtain ⟨hlen, hsmall⟩ := length_xrealloc hbuf
    have htake := take_xrealloc (n := s.pos) hbuf (by omega) (by omega)
    cases hr
    refine ⟨⟨?_, hsmall, .inr (by show s.pos < newsize + 1; omega), hs.pos, ?_⟩, rfl⟩
    · show (if s.pos ≥ newsize then overwrite buf newsize [0] else buf).length = newsize + 1
      split
      · rw [length_overwrite (by rw [hlen]; exact Nat.le_refl _), hlen]
      · exact hlen
    · show (if s.pos ≥ newsize then overwrite buf newsize [0] else buf).take s.pos = content
      rw [← hs.front, ← htake]
      split
      · rename_i hge
        obtain rfl : newsize = s.pos := by omega
        exact take_overwrite_front (by omega)
      · rfl

/-- The new size is at least what is asked for more, and at most that or twice the old one. -/
theorem ssbGrowMin_eq (h : Heap) (hsmall : s.size < 2 ^ 63) : ∃ newsize, s.size + ssbReadLen ≤ newsize ∧
    newsize ≤ max (2 * s.size) (s.size + ssbReadLen) ∧ ssbGrowMin h s ssbReadLen = ssbTruncate h s newsize := by
  have hread : ssbReadLen = 4096 := rfl
  unfold ssbGrowMin
  rw [sizeAdd_eq (by omega : ssbReadLen + s.size < 2 ^ 64)]
  dsimp only
  generalize hnew : (match s.grow with
    | .by1_5 => sizeAdd s.size (s.size / 2)
    | .by2_0 => s.size * 2 % 2 ^ 64
    | .exact => ssbReadLen + s.size) = newsize
  have hle : newsize ≤ max (2 * s.size) (s.size + ssbReadLen) := by
    subst hnew
    split
    · rw [sizeAdd_eq (by omega)]
      omega
    · omega
    · omega
  exact ⟨_, by split <;> omega, by split <;> omega, rfl⟩

/-- The block gets larger by what is asked for at least. -/
theorem ssbGrowMin_holds (hs : s.Holds content) (hr : ssbGrowMin h s ssbReadLen = some s') :
    s'.Holds content ∧ s.size + ssbReadLen < s'.size := by
  have hsmall := hs.small
  have hread : ssbReadLen = 4096 := rfl
  obtain ⟨newsize, hmin, hmax, heq⟩ := ssbGrowMin_eq h hsmall
  rw [heq] at hr
  obtain ⟨hholds, hsize⟩ := ssbTruncate_holds hs (by omega) (by omega) hr
  exact ⟨hholds, by omega⟩

theorem ssbRoom_holds (hs : s.Holds content) (hr : ssbRoom h s = some s') : s'.Holds content ∧ s'.pos + 2 < s'.size := by
  have hle := hs.le
  have hread : ssbReadLen = 4096 := rfl
  unfold ssbRoom at hr
  split at hr
  · obtain ⟨hholds, hsize⟩ := ssbGrowMin_holds hs hr
    have := hholds.pos
    have := hs.pos
    exact ⟨hholds, by omega⟩
  · cases hr
    exact ⟨hs, by omega⟩

/-- A call of `fread` that finds nothing is at the end, and one that finds something splits the file. -/
theorem take_fread (file : Bytes) {request : Nat} (hrequest : 0 < request) (n : Nat) :
    (file.take (min (n + 1) request) = [] → file = []) ∧
      file.take (min (n + 1) request) ++ file.drop (file.take (min (n + 1) request)).length = file := by
  constructor
  · intro h
    rcases List.take_eq_nil_iff.mp h with h | h
    · omega
    · exact h
  · have htake : file.take (min (n + 1) request) = file.take (file.take (min (n + 1) request)).length := by
      rw [List.length_take, ← List.take_eq_take_min]
    generalize (file.take (min (n + 1) request)).length = len at htake ⊢
    rw [htake, List.take_append_drop]

/-- A text that is read until the end of the file is the text that was there and the file. -/
theorem ssbReadfile_true {freads : List Fread} (hs : s.Holds content)
    (hr : ssbReadfile h s file freads = some (true, s')) : s'.Holds (content ++ file) ∧ s'.pos < s'.size := by
  induction freads generalizing s content file with
  | nil =>
    unfold ssbReadfile at hr
    split at hr <;> cases hr
  | cons fread freads ih =>
    unfold ssbReadfile at hr
    split at hr
    · cases hr
    · rename_i t hroom
      obtain ⟨ht, htroom⟩ := ssbRoom_holds hs hroom
      cases fread with
      | error => cases hr
      | moved n =>
        obtain ⟨hend, hsplit⟩ := take_fread file (show 0 < t.size - t.pos - 1 by omega) n
        have hlen : (file.take (min (n + 1) (t.size - t.pos - 1))).length ≤ t.size - t.pos - 1 := by
          rw [List.length_take]
          omega
        dsimp only at hr
        generalize file.take (min (n + 1) (t.size - t.pos - 1)) = bytes at hr hend hsplit hlen
        split at hr
        · rename_i hread
          obtain rfl := hend hread
          rw [decide_eq_true rfl] at hr
          cases hr
          rw [List.append_nil]
          exact ⟨ht.close (by omega), by show t.pos < t.size; omega⟩
        · rw [← hsplit, ← List.append_assoc]
          exact ih (ht.stored (by omega)) hr

/-! ### Where nothing fails -/

/-- Every size that an object can have is granted. -/
def Heap.Grants (h : Heap) : Prop := ∀ n < 2 ^ 63, h.ok n = true

theorem ssbRoom_grants (hgrants : h.Grants) (hsize : s.size ≤ 2 * s.pos + 4101)
    (hpos : s.pos < 2 ^ 61) : ∃ t, ssbRoom h s = some t ∧ t.pos = s.pos ∧ t.size ≤ 2 * t.pos + 4101 := by
  have hread : ssbReadLen = 4096 := rfl
  unfold ssbRoom
  split
  · obtain ⟨newsize, hmin, hmax, heq⟩ := ssbGrowMin_eq h (show s.size < 2 ^ 63 by omega)
    have hadd : sizeAdd newsize 1 = newsize + 1 := sizeAdd_eq (by omega)
    rw [heq]
    unfold ssbTruncate xrealloc
    rw [hadd, if_pos ⟨by omega, hgrants _ (by omega)⟩]
    exact ⟨_, rfl, rfl, by show newsize + 1 ≤ 2 * s.pos + 4101; omega⟩
  · exact ⟨s, rfl, rfl, hsize⟩

theorem ssbReadfile_grants {freads : List Fread} (hgrants : h.Grants) (hs : s.Holds content)
    (hsize : s.size ≤ 2 * s.pos + 4101) (hfile : content.length + file.length < 2 ^ 61)
    (hfreads : ∀ fread ∈ freads, fread ≠ .error) (hcalls : file.length < freads.length) :
    ∃ s', ssbReadfile h s file freads = some (true, s') := by
  induction freads generalizing s content file with
  | nil => exact absurd hcalls (Nat.not_lt_zero _)
  | cons fread freads ih =>
    obtain ⟨t, hroom, htpos, htsize⟩ := ssbRoom_grants hgrants hsize (by have := hs.pos; omega)
    obtain ⟨ht, htroom⟩ := ssbRoom_holds hs hroom
    have htsize' := ht.size
    unfold ssbReadfile
    rw [hroom]
    cases fread with
    | error => exact absurd rfl (hfreads _ (.head _))
    | moved n =>
      obtain ⟨hend, -⟩ := take_fread file (show 0 < t.size - t.pos - 1 by omega) n
      have hlen : (file.take (min (n + 1) (t.size - t.pos - 1))).length ≤ min (t.size - t.pos - 1) file.length := by
        rw [List.length_take]
        omega
      dsimp only
      generalize file.take (min (n + 1) (t.size - t.pos - 1)) = bytes at hend hlen
      split
      · rename_i hread
        exact ⟨t.close, by rw [decide_eq_true (hend hread)]⟩
      · rename_i hread
        have hne : 0 < bytes.length := List.length_pos_iff.mpr hread
        refine ih (ht.stored (by omega)) ?_ ?_ (fun fread h => hfreads fread (List.mem_cons_of_mem _ h)) ?_
        · show t.size ≤ 2 * (t.pos + bytes.length) + 4101
          omega
        · rw [List.length_append, List.length_drop]
          omega
        · rw [List.length_drop]
          rw [List.length_cons] at hcalls
          omega

end Waynergy
