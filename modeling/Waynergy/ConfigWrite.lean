import Waynergy.FullIo
import Waynergy.IniLookup

/-!
# Writing a setting (`config.c`)

`configWriteString` opens the file without `O_TRUNC`, and with `O_EXCL` if its flag `overwrite` is set. The flag means
what its name says only where it makes no difference, that is where there is no file yet.
-/

namespace Waynergy
open Lib

/-! ### What the flag promises -/

/-- The INI has a property of that name: of the section in front of the first slash, or of the global section. -/
def Ini.HasEntry (ini : Ini) (name : Bytes) : Prop :=
  if 47 ∈ name then ini.meant (upTo 47 name) ((name.dropWhile (· ≠ 47)).drop 1) ≠ none
  else ∃ q ∈ ini.ofSection 0, SameLetters name q.name

namespace Conf

def HasEntry (c : Conf) (name : Bytes) : Prop := ∃ ini ∈ c.ini, ini.HasEntry name

/-- The same configuration, had there not been the file. -/
def without (c : Conf) (name : Bytes) : Conf :=
  { c with file := fun other => if other = name then none else c.file other }

/-- Without `overwrite` a file that is there is kept and the call fails, what is written is all that is in the file
afterwards, and with `overwrite` the call does not fail for a file that is there. -/
structure Honours (c : Conf) (name : Bytes) (overwrite : Bool) : Prop where
  keeps : overwrite = false → ∀ old, c.file name = some old → ∀ w val,
    (c.configWriteString w name val overwrite).1 = false ∧
      (c.configWriteString w name val overwrite).2.file name = some old
  writes : ∀ w val c', 0 ∉ val → c.configWriteString w name val overwrite = (true, c') →
    c'.file name = some val ∧ (¬ c.HasEntry name → c'.configReadFile name = some val)
  replaces : overwrite = true → c.file name ≠ none → ∀ w val,
    ((c.without name).configWriteString w name val overwrite).1 = true →
      (c.configWriteString w name val overwrite).1 = true

/-! ### What becomes of the file -/

/-- `write_full` on the file that was opened. -/
def writeOf (opened : Bool) (t : IoResult) : Write := if opened then .wrote t.bytes.length else .noFile

variable {c c' : Conf} {name val : Bytes} {overwrite : Bool} {w : Write}

theorem configWriteString_wrote (n : Nat) : (c.configWriteString (.wrote n) name val overwrite).1 = true ↔
    ¬ (overwrite = true ∧ c.file name ≠ none) ∧ val.length ≤ n := by
  unfold configWriteString
  dsimp only
  split
  · rename_i hex
    exact iff_of_false Bool.false_ne_true fun h => h.1 hex
  · rename_i hex
    rw [decide_eq_true_eq]
    exact (and_iff_right hex).symm

/-- The call returns what `write_full` does, if the file can be opened. -/
theorem configWriteString_writeFull (opened : Bool) (ios : List Io) :
    (c.configWriteString (writeOf opened (writeFull .none val ios)) name val overwrite).1 = true ↔
      opened = true ∧ ¬ (overwrite = true ∧ c.file name ≠ none) ∧ (writeFull .none val ios).ret = some true := by
  have hmoves := writeFull_moves .none val ios
  have hle := hmoves.le
  rw [hmoves.all]
  unfold writeOf
  cases opened with
  | false => exact iff_of_false Bool.false_ne_true fun h => Bool.false_ne_true h.1
  | true =>
    rw [if_pos rfl, configWriteString_wrote]
    exact ⟨fun h => ⟨rfl, h.1, Nat.le_antisymm hle h.2⟩, fun h => ⟨h.2.1, Nat.le_of_eq h.2.2.symm⟩⟩

/-- A new file has what was written, and the INI is as before. -/
theorem configWriteString_new (hfile : c.file name = none)
    (h : c.configWriteString w name val overwrite = (true, c')) : c'.file name = some val ∧ c'.ini = c.ini := by
  cases w with
  | noFile => cases h
  | wrote n =>
    unfold configWriteString at h
    dsimp only at h
    rw [if_neg fun hex => hex.2 hfile, hfile, Option.getD_none, List.drop_nil, List.append_nil, Prod.mk.injEq,
      decide_eq_true_eq] at h
    obtain ⟨hn, rfl⟩ := h
    dsimp only
    rw [if_pos rfl, List.take_of_length_le hn]
    exact ⟨rfl, rfl⟩

theorem tryReadIni_of_ini (h : c'.ini = c.ini) (name : Bytes) : c'.tryReadIni name = c.tryReadIni name := by
  unfold tryReadIni
  rw [h]

/-! ### Where the promise is kept -/

theorem Honours.file (h : c.Honours name overwrite) : c.file name = none := by
  by_contra hfile
  cases overwrite with
  | false =>
    obtain ⟨old, hold⟩ := Option.ne_none_iff_exists'.mp hfile
    have hkept := (h.keeps rfl old hold (.wrote 0) []).1
    rw [(configWriteString_wrote 0).mpr ⟨fun hex => Bool.false_ne_true hex.1, Nat.le_refl _⟩] at hkept
    cases hkept
  | true =>
    have hnew : (c.without name).file name = none := if_pos rfl
    have hreplaced := h.replaces rfl hfile (.wrote 0) []
      ((configWriteString_wrote 0).mpr ⟨fun hex => hex.2 hnew, Nat.le_refl _⟩)
    exact ((configWriteString_wrote 0).mp hreplaced).1 ⟨rfl, hfile⟩

/-- What the INI has for another name would be read in place of whatever is written. -/
theorem Honours.ini (h : c.Honours name overwrite) (hfound : c.tryReadIni name ≠ none) : c.HasEntry name := by
  by_contra hentry
  obtain ⟨v, hv⟩ := Option.ne_none_iff_exists'.mp hfound
  have hread : ∀ val, 0 ∉ val → v = val := by
    intro val hval
    obtain ⟨c', hwrite⟩ : ∃ c', c.configWriteString (.wrote val.length) name val overwrite = (true, c') :=
      ⟨_, Prod.ext ((configWriteString_wrote _).mpr ⟨fun hex => hex.2 h.file, Nat.le_refl _⟩) rfl⟩
    have hback := (h.writes _ val c' hval hwrite).2 hentry
    unfold configReadFile at hback
    rw [tryReadIni_of_ini (configWriteString_new h.file hwrite).2, hv] at hback
    exact Option.some.inj hback
  have hempty := hread [] (by simp)
  have hone := hread [97] (by decide)
  exact List.cons_ne_nil _ _ (hone.symm.trans hempty)

/-- The flag is honoured exactly where there is no file yet, and where the INI is not mistaken to have an entry of
that name. -/
theorem configWriteString_honours_iff (c : Conf) (name : Bytes) (overwrite : Bool) : c.Honours name overwrite ↔
    c.file name = none ∧ (c.tryReadIni name ≠ none → c.HasEntry name) := by
  refine ⟨fun h => ⟨h.file, h.ini⟩, fun ⟨hfile, hini⟩ => ⟨?_, ?_, ?_⟩⟩
  · intro _ old hold
    rw [hfile] at hold
    cases hold
  · intro w val c' hval hwrite
    obtain ⟨hwritten, hsame⟩ := configWriteString_new hfile hwrite
    refine ⟨hwritten, fun hentry => ?_⟩
    have hnone : c.tryReadIni name = none := by
      by_contra hfound
      exact hentry (hini hfound)
    unfold configReadFile
    rw [tryReadIni_of_ini hsame, hnone, hwritten]
    exact congrArg some (upTo_eq hval)
  · exact fun _ hex => absurd hfile hex

/-- Without `overwrite`, the front of an old certificate hash is replaced by the new one. -/
theorem configWriteString_mixed :
    let name := ascii ['t', 'l', 's', '/', 'h', 'a', 's', 'h', '/', 'h']
    let c : Conf := ⟨none, fun other => if other = name then some (ascii ['a', 'b', 'c']) else none, fun _ => none⟩
    (c.configWriteString (.wrote 1) name (ascii ['x']) false).1 = true ∧
      (c.configWriteString (.wrote 1) name (ascii ['x']) false).2.file name = some (ascii ['x', 'b', 'c']) ∧
      ¬ c.Honours name false := by
  refine ⟨rfl, by decide, fun h => ?_⟩
  cases h.file

end Conf
end Waynergy
