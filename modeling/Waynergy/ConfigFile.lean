import Waynergy.Lib.CString
import Waynergy.Message

/-!
# The configuration (`config.c`)

A setting is looked up in the INI first, and then in the file of its name. Of `ini_t` the model keeps the names of
the sections and the properties; they are found by how their names start, regardless of case. A file that is there
can be read.
-/

namespace Waynergy
open Lib

/-! ### The INI (`ini.h`) -/

structure IniProperty where
  sec : Nat
  name : Bytes
  value : Bytes

/-- The global section is the first one. -/
structure Ini where
  sections : List Bytes
  properties : List IniProperty

namespace Ini

def findSection (ini : Ini) (name : Bytes) : Option Nat := ini.sections.findIdx? fun other => StartsAs name other

def ofSection (ini : Ini) (sec : Nat) : List IniProperty := ini.properties.filter fun p => p.sec = sec

/-- `ini_property_value` of what `ini_find_property` finds. -/
def findValue (ini : Ini) (sec : Nat) (name : Bytes) : Option Bytes :=
  ((ini.ofSection sec).find? fun p => StartsAs name p.name).map IniProperty.value

end Ini

/-! ### Reading -/

/-- What there is to read: the INI if one is loaded, the files by their names, and the directories as
`read_full_section_dir` reads them. -/
structure Conf where
  ini : Option Ini
  file : Bytes → Option Bytes
  dir : Bytes → Option (List (Bytes × Bytes))

namespace Conf
variable (c : Conf)

/-- The name is that of a property of the global section, unless a section stands in front of a slash. -/
def tryReadIni (name : Bytes) : Option Bytes :=
  match c.ini with
  | none => none
  | some ini =>
    if 47 ∈ name then
      match ini.findSection (upTo 47 name) with
      | none => none
      | some sec => ini.findValue sec ((name.dropWhile (· ≠ 47)).drop 1)
    else ini.findValue 0 name

def readFullSectionIni (name : Bytes) : Option (List (Bytes × Bytes)) :=
  match c.ini with
  | none => none
  | some ini => (ini.findSection name).map fun sec => (ini.ofSection sec).map fun p => (p.name, p.value)

def configReadFullSection (name : Bytes) : Option (List (Bytes × Bytes)) :=
  match c.readFullSectionIni name with
  | some entries => some entries
  | none => c.dir name

def configReadFile (name : Bytes) : Option Bytes :=
  match c.tryReadIni name with
  | some val => some val
  | none => (c.file name).map cString

/-- The first line; without a file, the default. -/
def configTryString (name : Bytes) (default : Option Bytes) : Option Bytes :=
  match c.configReadFile name with
  | none => default
  | some output => some (upTo 10 output)

def configTryLong (name : Bytes) (default : Int) : Int :=
  match c.configReadFile name with
  | none => default
  | some s => if (strtolBase0 s).erange then default else (strtolBase0 s).value

def configTryBool (name : Bytes) (default : Bool) : Bool :=
  match c.configReadFile name with
  | none => default
  | some s => ascii ['y', 'e', 's'] <:+: s ∨ ascii ['t', 'r', 'u', 'e'] <:+: s ∨ ascii ['o', 'n'] <:+: s

end Conf

/-! ### Writing -/

/-- What becomes of a write: the file cannot be opened, or this many bytes are written until the end or an error. -/
inductive Write
  | noFile
  | wrote (n : Nat)

/-- Bytes that are not written over stay. The flag that is called `overwrite` is the one that forbids it. -/
def Conf.configWriteString (c : Conf) (w : Write) (name val : Bytes) (overwrite : Bool) : Bool × Conf :=
  match w with
  | .noFile => (false, c)
  | .wrote n =>
    if overwrite ∧ c.file name ≠ none then (false, c)
    else
      let content := val.take n ++ ((c.file name).getD []).drop (min n val.length)
      (val.length ≤ n, { c with file := fun other => if other = name then some content else c.file other })

namespace Conf
variable {c c' : Conf} {name val : Bytes}

theorem configTryString_eq_none :
    c.configTryString name none = none ↔ c.tryReadIni name = none ∧ c.file name = none := by
  unfold configTryString configReadFile
  cases c.tryReadIni name with
  | some val => simp
  | none => cases c.file name <;> simp

theorem configWriteString_ini (c : Conf) (w : Write) (name val : Bytes) (overwrite : Bool) :
    (c.configWriteString w name val overwrite).2.ini = c.ini := by
  unfold configWriteString
  cases w with
  | noFile => rfl
  | wrote n =>
    dsimp only
    split <;> rfl

/-- What is written is read back, if there was nothing, and it is one line without a NUL. -/
theorem configTryString_written {w : Write} (h : c.configTryString name none = none) (hline : 10 ∉ val)
    (hnul : 0 ∉ val) (hw : c.configWriteString w name val false = (true, c')) :
    c'.configTryString name none = some val := by
  obtain ⟨hini, hfile⟩ := configTryString_eq_none.mp h
  cases w with
  | noFile => cases hw
  | wrote n =>
    simp only [configWriteString, Bool.false_eq_true, false_and, if_false, hfile, Option.getD_none, List.drop_nil,
      List.append_nil, Prod.mk.injEq, decide_eq_true_eq] at hw
    obtain ⟨hn, rfl⟩ := hw
    have hini' : tryReadIni { c with file := fun other => if other = name then some (val.take n) else c.file other }
        name = none := hini
    unfold configTryString configReadFile
    rw [hini']
    simp only [if_true, Option.map_some, cString, List.take_of_length_le hn, upTo_eq hnul, upTo_eq hline]

end Conf

/-- Conversion of a `long` to `int`. -/
def intOfLong (n : Int) : Int := signed 32 (sizeOfInt n)

theorem intOfLong_eq {n : Int} (hlow : -2 ^ 31 ≤ n) (hhigh : n ≤ intMax) : intOfLong n = n := by
  unfold intMax at hhigh
  unfold intOfLong signed sizeOfInt
  split <;> omega

end Waynergy
