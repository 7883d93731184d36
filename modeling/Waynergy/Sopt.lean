import Waynergy.Lib.CString

/-!
# The option parser (`sopt.h`)

`sopt_getopt` keeps two positions between its calls: that of the word, and that of the character in a word of
combined short options. A word of `argv` is its bytes in front of the NUL, and `none` is a read behind the NUL or
behind the null pointer that ends `argv`.
-/

namespace Waynergy
open Lib

/-! ### The options -/

/-- `enum sopt_argtype` -/
inductive SoptArgtype
  | null
  | str
  | char
  | schar
  | uchar
  | short
  | ushort
  | int
  | uint
  | long
  | ulong
  | longlong
  | ulonglong
  | float
  | dbl
  | longdbl
deriving DecidableEq

/-- `struct sopt`, without the description for the usage text. -/
structure Sopt where
  val : Int
  name : Option Bytes
  argtype : SoptArgtype
  arg : Option Bytes

/-- `SOPT_INVAL` -/
def soptInval : Int := 63

/-- `SOPT_AFTER` -/
def soptAfter : Int := -1

/-- `SOPT_INIT_END` -/
def soptInitEnd : Sopt := ⟨soptInval, none, .null, none⟩

/-- `union sopt_arg`, with the member that was written last. The number that a text stands for in a floating point
member is left to `strtold`. -/
inductive SoptArg
  | zero
  | str (s : Bytes)
  | int (t : SoptArgtype) (n : Int)
  | float (t : SoptArgtype) (s : Bytes)

/-! ### Arguments -/

def soptArgconvInt (s : Bytes) : Option Int :=
  let n := strtolBase0 s
  if ¬n.moved ∨ n.erange then none else some n.value

def soptArgconvUint (s : Bytes) : Option Nat :=
  match s.dropWhile IsSpace with
  | [] => none
  | 45 :: _ => none
  | s =>
    let n := strtoulBase0 s
    if ¬n.moved ∨ n.erange then none else some n.value

/-- How the switch of `sopt_getopt` treats a type; `char` is signed. -/
inductive SoptKind
  | str
  | signed (bits : Nat)
  | unsigned (bits : Nat)
  | float
  | other

def SoptArgtype.kind : SoptArgtype → SoptKind
  | .str => .str
  | .char => .signed 8
  | .schar => .signed 8
  | .short => .signed 16
  | .int => .signed 32
  | .long => .signed 64
  | .longlong => .signed 64
  | .uchar => .unsigned 8
  | .ushort => .unsigned 16
  | .uint => .unsigned 32
  | .ulong => .unsigned 64
  | .ulonglong => .unsigned 64
  | .float => .float
  | .dbl => .float
  | .longdbl => .float
  | .null => .other

/-- The argument that is stored, or the message if there is one. `ldbl` is whether `sopt_argconv_ldbl` accepts the
text. -/
def soptConvert (ldbl : Bytes → Bool) (t : SoptArgtype) (s : Bytes) : Except (Option Bytes) SoptArg :=
  match t.kind with
  | .str => .ok (.str s)
  | .signed bits =>
    match soptArgconvInt s with
    | none => .error (some (ascii "Argument is not an integer".toList))
    | some n =>
      if -2 ^ (bits - 1) ≤ n ∧ n ≤ 2 ^ (bits - 1) - 1 then .ok (.int t n)
      else .error (some (ascii "Argument out of range".toList))
  | .unsigned bits =>
    match soptArgconvUint s with
    | none => .error (some (ascii "Argument is not an unsigned integer".toList))
    | some n =>
      if 2 ^ bits - 1 < n then .error (some (ascii "Argument out of range".toList)) else .ok (.int t n)
  | .float =>
    if ldbl s then .ok (.float t s)
    else .error (some (ascii "Argument is not a valid floating-point number".toList))
  | .other => .error none

/-- `isalnum` in the C locale. -/
def IsAlnum (c : Int) : Prop := 48 ≤ c ∧ c ≤ 57 ∨ 65 ≤ c ∧ c ≤ 90 ∨ 97 ≤ c ∧ c ≤ 122

instance (c : Int) : Decidable (IsAlnum c) := inferInstanceAs (Decidable (_ ∨ _))

/-- `sopt_perror`: what goes to the standard error. -/
def soptPerror (opt : Sopt) (msg : Bytes) : Bytes :=
  ascii "Error parsing argument ".toList ++
    (if IsAlnum opt.val then
      [45, UInt8.ofNat opt.val.toNat] ++ (if opt.name = none then [] else [47]) else []) ++
    (match opt.name with
    | none => []
    | some name => [45, 45] ++ name) ++
    ascii ": ".toList ++ msg ++ [10]

/-! ### `sopt_getopt` -/

/-- What the parser keeps, and what it wrote to the standard error. -/
structure SoptState where
  cpos : Nat
  optind : Nat
  arg : SoptArg
  stderr : Bytes

def SoptState.init : SoptState := ⟨0, 0, .zero, []⟩

/-- `argv[i][j]` -/
def argChar (argv : List Bytes) (i j : Nat) : Option UInt8 := argv[i]?.bind fun w => (w ++ [0])[j]?

/-- `argv[i]`, which is a null pointer behind the last word. -/
def argWord (argv : List Bytes) (i : Nat) : Option (Option Bytes) :=
  if i ≤ argv.length then some argv[i]? else none

/-- The value of a `char`. -/
def charVal (c : UInt8) : Int := signed 8 c.toNat

/-- The loops over the options end at the last one. -/
def findOpt (opts : List Sopt) (p : Sopt → Bool) : Sopt := (opts.find? p).getD soptInitEnd

def shortOpt (opts : List Sopt) (c : UInt8) : Sopt := findOpt opts fun opt => opt.val = charVal c

def longOpt (opts : List Sopt) (name : Bytes) : Sopt := findOpt opts fun opt => opt.name = some name

section
variable (ldbl : Bytes → Bool) (argv : List Bytes) (opts : List Sopt)

/-- The argument of the option, if it takes one. -/
def soptTakeArg (opt : Sopt) (s : SoptState) : Option (Int × SoptState) :=
  if opt.arg = none then some (opt.val, s)
  else
    let s := { s with optind := s.optind + 1 }
    (argWord argv s.optind).bind fun
      | none =>
        some (soptInval, { s with stderr := s.stderr ++ soptPerror opt (ascii "Missing required argument".toList) })
      | some word =>
        match soptConvert ldbl opt.argtype word with
        | .ok arg => some (opt.val, { s with arg })
        | .error msg =>
          some (soptInval, { s with stderr := s.stderr ++ (msg.map (soptPerror opt)).getD [] })

/-- The part behind the label `shortopt`. -/
def soptShort (s : SoptState) : Option (Int × SoptState) :=
  let cpos := if s.cpos = 0 then 1 else s.cpos
  (argChar argv s.optind cpos).bind fun c =>
    let opt := shortOpt opts c
    (argChar argv s.optind (cpos + 1)).bind fun next =>
      if next = 0 then soptTakeArg ldbl argv opt { s with cpos := 0 }
      else if opt.arg = none then some (opt.val, { s with cpos := cpos + 1 })
      else some (soptInval, { s with cpos := cpos + 1 })

/-- `sopt_getopt`, with pointers that are not null: the value that is returned. -/
def soptGetopt (s : SoptState) : Option (Int × SoptState) :=
  if argv.length = 0 then some (-1, s)
  else if s.cpos ≠ 0 then soptShort ldbl argv opts s
  else
    let s := { s with optind := s.optind + 1 }
    if argv.length ≤ s.optind then some (-1, s)
    else
      (argChar argv s.optind 0).bind fun c₀ =>
        if c₀ ≠ 45 then some (-1, s)
        else
          (argChar argv s.optind 1).bind fun c₁ =>
            if c₁ = 45 then
              (argChar argv s.optind 2).bind fun c₂ =>
                if c₂ = 0 then some (-1, { s with optind := s.optind + 1 })
                else soptTakeArg ldbl argv (longOpt opts ((argv.getD s.optind []).drop 2)) s
            else soptShort ldbl argv opts s

end

end Waynergy
