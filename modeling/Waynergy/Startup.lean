import Waynergy.ConfigFile
import Waynergy.Net
import Waynergy.SoptGrammar

/-!
# From the configuration and the command line to the settings (`main.c`)

`main` takes each setting from the configuration, and then lets the options on the command line change it one after
another, until the options end, or one of them ends the program.
-/

namespace Waynergy
open Lib

/-! ### The options of the program -/

/-- The value of an option with one letter. -/
def letterOpt (c : Char) : Int := c.toNat

/-- `CHAR_MAX` -/
def charMax : Int := 127

/-- `SOPT_INITL` -/
def soptInitl (val : Int) (name : String) : Sopt := ⟨val, some (ascii name.toList), .null, none⟩

/-- `SOPT_INIT_ARGL` -/
def soptInitArgl (val : Int) (name : String) (type : SoptArgtype) (param : String) : Sopt :=
  ⟨val, some (ascii name.toList), type, some (ascii param.toList)⟩

def optspec : OptSpec where
  opts :=
    [soptInitl (letterOpt 'h') "help",
      soptInitl (letterOpt 'v') "version",
      soptInitArgl (letterOpt 'b') "backend" .str "backend",
      soptInitArgl (letterOpt 'c') "host" .str "host",
      soptInitArgl (letterOpt 'p') "port" .str "port",
      soptInitArgl (letterOpt 'W') "width" .short "width",
      soptInitArgl (letterOpt 'H') "height" .short "height",
      soptInitArgl (letterOpt 'N') "name" .str "name",
      soptInitArgl (letterOpt 'l') "logfile" .str "file",
      soptInitArgl (letterOpt 'L') "loglevel" .str "level",
      soptInitl (letterOpt 'n') "no-clip",
      soptInitl (letterOpt 'e') "enable-crypto",
      soptInitl (letterOpt 'E') "disable-crypto",
      soptInitl (letterOpt 't') "enable-tofu",
      soptInitl (charMax + SynError.none.code) "fatal-none",
      soptInitl (charMax + SynError.ebad.code) "fatal-ebad",
      soptInitl (charMax + SynError.ebsy.code) "fatal-ebsy",
      soptInitl (charMax + SynError.timeout.code) "fatal-timeout"]
  valid := by decide
  options := by decide

/-- `-nc h -- x` -/
example : soptRun (fun _ => false) ⟨[119], [[45, 110, 99], [104], [45, 45], [120]], by decide⟩ optspec =
    ([(letterOpt 'n', .zero), (letterOpt 'c', .str [104])], .ended 4) := rfl

/-! ### The log level (`log.c`) -/

/-- `LOG__INVALID` -/
def logInvalid : Nat := 6

def logLevelStr : List Bytes := ["NONE", "ERROR", "WARN", "INFO", "DEBUG", "DEBUGSYN"].map fun s => ascii s.toList

/-- A number is converted to the unsigned type of the enumeration before it is compared. -/
def logLevelFromString (s : Bytes) : Nat :=
  match logLevelStr.findIdx? fun name => SameLetters name s with
  | some ll => ll
  | none =>
    let n := strtolBase0 s
    if ¬n.moved then logInvalid
    else if n.erange then logInvalid
    else if logInvalid ≤ (n.value % 2 ^ 32).toNat then logInvalid
    else (n.value % 2 ^ 32).toNat

/-! ### The settings -/

structure Settings where
  port : Option Bytes
  host : Option Bytes
  name : Option Bytes
  backend : Option Bytes
  logPath : Option Bytes
  logLevel : Nat
  clientWidth : Nat
  clientHeight : Nat
  useClipboard : Bool
  enableCrypto : Bool
  enableTofu : Bool
  errorIsFatal : SynError → Bool

/-- Conversion to `uint16_t`. -/
def uint16 (n : Int) : Nat := (n % 2 ^ 16).toNat

/-- What `main` loads in front of the options. -/
def Settings.ofConf (c : Conf) (hostname : Bytes) : Settings where
  port := c.configTryString (ascii "port".toList) (some (ascii "24800".toList))
  host := c.configTryString (ascii "host".toList) (some (ascii "localhost".toList))
  name := c.configTryString (ascii "name".toList) (some hostname)
  backend := c.configTryString (ascii "backend".toList) none
  logPath := c.configTryString (ascii "log/path".toList) none
  logLevel := (c.configTryLong (ascii "log/level".toList) 2 % 2 ^ 32).toNat
  clientWidth := uint16 (c.configTryLong (ascii "width".toList) 0)
  clientHeight := uint16 (c.configTryLong (ascii "height".toList) 0)
  useClipboard := true
  enableCrypto := c.configTryBool (ascii "tls/enable".toList) false
  enableTofu := c.configTryBool (ascii "tls/tofu".toList) false
  errorIsFatal _ := false

/-- Why the options do not lead to settings: the program is done, it fails, or a member of the union is read that
was not written. -/
inductive OptExit
  | done
  | error
  | misread
deriving DecidableEq

def SoptArg.str? : SoptArg → Option Bytes
  | .str s => some s
  | _ => none

def SoptArg.short? : SoptArg → Option Int
  | .int .short n => some n
  | _ => none

/-- Store what is in a member of the union. -/
def takeMember {α : Type} (member : Option α) (store : α → Settings) : Except OptExit Settings :=
  match member with
  | some v => .ok (store v)
  | none => .error .misread

/-- The switch over the option. -/
def handleOption (opt : Int) (soptarg : SoptArg) (s : Settings) : Except OptExit Settings :=
  if opt = letterOpt 'h' then .error .done
  else if opt = letterOpt 'v' then .error .done
  else if opt = letterOpt 'b' then takeMember soptarg.str? fun v => { s with backend := some v }
  else if opt = letterOpt 'c' then takeMember soptarg.str? fun v => { s with host := some v }
  else if opt = letterOpt 'p' then takeMember soptarg.str? fun v => { s with port := some v }
  else if opt = letterOpt 'W' then takeMember soptarg.short? fun n => { s with clientWidth := uint16 n }
  else if opt = letterOpt 'H' then takeMember soptarg.short? fun n => { s with clientHeight := uint16 n }
  else if opt = letterOpt 'N' then takeMember soptarg.str? fun v => { s with name := some v }
  else if opt = letterOpt 'L' then
    match soptarg.str? with
    | none => .error .misread
    | some v =>
      if logLevelFromString v = logInvalid then .error .error else .ok { s with logLevel := logLevelFromString v }
  else if opt = letterOpt 'l' then takeMember soptarg.str? fun v => { s with logPath := some v }
  else if opt = letterOpt 'n' then .ok { s with useClipboard := false }
  else if opt = letterOpt 'e' then .ok { s with enableCrypto := true }
  else if opt = letterOpt 'E' then .ok { s with enableCrypto := false }
  else if opt = letterOpt 't' then .ok { s with enableTofu := true }
  else if charMax ≤ opt ∧ opt ≤ charMax + SynError.timeout.code then
    .ok { s with errorIsFatal := fun e => s.errorIsFatal e || e.code = opt - charMax }
  else .error .error

inductive Parsed
  | settings (s : Settings)
  | exit (e : OptExit)
  | outside
  | spinning

/-- The loop over the options. -/
def parseOptions (ldbl : Bytes → Bool) (argv : List Bytes) (opts : List Sopt) : Nat → SoptState → Settings → Parsed
  | 0, _, _ => .spinning
  | fuel + 1, p, s =>
    match soptGetopt ldbl argv opts p with
    | none => .outside
    | some (opt, p') =>
      if opt = -1 then .settings s
      else
        match handleOption opt p'.arg s with
        | .error e => .exit e
        | .ok s' => parseOptions ldbl argv opts fuel p' s'

inductive Startup
  /-- with settings, and whether the dimensions are given by hand -/
  | runs (s : Settings) (manGeom : Bool)
  | exit (e : OptExit)
  | outside
  | spinning

/-- The decision about manual geometry. -/
def chooseGeometry (s : Settings) : Startup :=
  if s.clientWidth ≠ 0 ∨ s.clientHeight ≠ 0 then
    if ¬(s.clientWidth ≠ 0 ∧ s.clientHeight ≠ 0) then .exit .error else .runs s true
  else .runs s false

/-- `main`, from the name of the host to the decision about the geometry. -/
def startup (ldbl : Bytes → Bool) (c : Conf) (hostname : Bytes) (l : CommandLine) : Startup :=
  match parseOptions ldbl l.argv optspec.opts (l.words.flatten.length + 1) .init (.ofConf c hostname) with
  | .settings s => chooseGeometry s
  | .exit e => .exit e
  | .outside => .outside
  | .spinning => .spinning

/-! ### What the options change -/

section
variable {α β : Type}

/-- What the last element to have something has. -/
def lastHit (f : α → Option β) (l : List α) : Option β := l.reverse.findSome? f

@[simp] theorem lastHit_nil (f : α → Option β) : lastHit f [] = none := rfl

@[simp] theorem lastHit_singleton (f : α → Option β) (a : α) : lastHit f [a] = f a := by simp [lastHit]

theorem lastHit_append (f : α → Option β) (l l' : List α) :
    lastHit f (l ++ l') = (lastHit f l').or (lastHit f l) := by
  rw [lastHit, List.reverse_append, List.findSome?_append]
  rfl

end

def strOfOpt (c : Char) (o : Int × SoptArg) : Option Bytes := if o.1 = letterOpt c then o.2.str? else none

def shortOfOpt (c : Char) (o : Int × SoptArg) : Option Int := if o.1 = letterOpt c then o.2.short? else none

def cryptoOfOpt (o : Int × SoptArg) : Option Bool :=
  if o.1 = letterOpt 'e' then some true else if o.1 = letterOpt 'E' then some false else none

/-- The settings after the options: of those for one setting the last one counts. -/
def Settings.override (s : Settings) (occs : List (Int × SoptArg)) : Settings where
  port := (lastHit (strOfOpt 'p') occs).or s.port
  host := (lastHit (strOfOpt 'c') occs).or s.host
  name := (lastHit (strOfOpt 'N') occs).or s.name
  backend := (lastHit (strOfOpt 'b') occs).or s.backend
  logPath := (lastHit (strOfOpt 'l') occs).or s.logPath
  logLevel := ((lastHit (strOfOpt 'L') occs).map logLevelFromString).getD s.logLevel
  clientWidth := ((lastHit (shortOfOpt 'W') occs).map uint16).getD s.clientWidth
  clientHeight := ((lastHit (shortOfOpt 'H') occs).map uint16).getD s.clientHeight
  useClipboard := s.useClipboard && !occs.any fun o => o.1 = letterOpt 'n'
  enableCrypto := (lastHit cryptoOfOpt occs).getD s.enableCrypto
  enableTofu := s.enableTofu || occs.any fun o => o.1 = letterOpt 't'
  errorIsFatal e := s.errorIsFatal e || occs.any fun o => o.1 = charMax + e.code

/-- The option changes a setting and ends nothing. -/
def Sets (o : Int × SoptArg) : Prop :=
  o.1 ≠ letterOpt 'h' ∧ o.1 ≠ letterOpt 'v' ∧ ∀ v ∈ strOfOpt 'L' o, logLevelFromString v ≠ logInvalid

section
variable {s : Settings} {occs : List (Int × SoptArg)}

@[simp] theorem Settings.override_nil : s.override [] = s := by simp [Settings.override]

theorem Settings.override_append (occs' : List (Int × SoptArg)) :
    (s.override occs).override occs' = s.override (occs ++ occs') := by
  simp only [Settings.override, lastHit_append, List.any_append, Option.or_assoc, Option.map_or, Bool.not_or,
    Bool.and_assoc, Bool.or_assoc]
  congr 1 <;> cases lastHit _ occs' <;> rfl

/-! ### One option -/

variable {ldbl : Bytes → Bool} {a a' : SoptArg} {val : Int} {w : Bytes}

theorem soptConvert_str (h : soptConvert ldbl .str w = .ok a) : a = .str w := by
  cases h
  rfl

theorem soptConvert_short (h : soptConvert ldbl .short w = .ok a) : ∃ n, a = .int .short n := by
  unfold soptConvert at h
  simp only [SoptArgtype.kind] at h
  split at h
  · cases h
  · split at h
    · cases h
      exact ⟨_, rfl⟩
    · cases h

theorem sets_of_ne (hh : val ≠ letterOpt 'h') (hv : val ≠ letterOpt 'v') (hL : val ≠ letterOpt 'L') : Sets (val, a) := by
  refine ⟨hh, hv, fun v hmem => ?_⟩
  rw [strOfOpt, if_neg hL] at hmem
  cases hmem

theorem errorIsFatal_of_lt {n : Int} (hn : n < charMax - 1) (s : Settings) :
    (fun e => s.errorIsFatal e || decide (n = charMax + e.code)) = s.errorIsFatal := by
  funext e
  have hcode : -1 ≤ e.code := by cases e <;> decide
  have hne : n ≠ charMax + e.code := by omega
  simp [hne]

theorem handleOption_flag {c : Char} (hc : c ∈ ['n', 'e', 'E', 't']) (s : Settings) :
    handleOption (letterOpt c) a s = .ok (s.override [(letterOpt c, a)]) := by
  simp only [List.mem_cons, List.not_mem_nil, or_false] at hc
  rcases hc with rfl | rfl | rfl | rfl
  all_goals
    simp [handleOption, Settings.override, strOfOpt, shortOfOpt, cryptoOfOpt, letterOpt]
    exact (errorIsFatal_of_lt (by decide) s).symm

theorem handleOption_str {c : Char} (hc : c ∈ ['b', 'c', 'p', 'N', 'l']) (w : Bytes) (s : Settings) :
    handleOption (letterOpt c) (.str w) s = .ok (s.override [(letterOpt c, .str w)]) := by
  simp only [List.mem_cons, List.not_mem_nil, or_false] at hc
  rcases hc with rfl | rfl | rfl | rfl | rfl
  all_goals
    simp [handleOption, takeMember, Settings.override, strOfOpt, shortOfOpt, cryptoOfOpt, letterOpt, SoptArg.str?]
    exact (errorIsFatal_of_lt (by decide) s).symm

theorem handleOption_short {c : Char} (hc : c ∈ ['W', 'H']) (n : Int) (s : Settings) :
    handleOption (letterOpt c) (.int .short n) s = .ok (s.override [(letterOpt c, .int .short n)]) := by
  simp only [List.mem_cons, List.not_mem_nil, or_false] at hc
  rcases hc with rfl | rfl
  all_goals
    simp [handleOption, takeMember, Settings.override, strOfOpt, shortOfOpt, cryptoOfOpt, letterOpt, SoptArg.short?]
    exact (errorIsFatal_of_lt (by decide) s).symm

theorem handleOption_level (hlevel : logLevelFromString w ≠ logInvalid) (s : Settings) :
    handleOption (letterOpt 'L') (.str w) s = .ok (s.override [(letterOpt 'L', .str w)]) := by
  simp [handleOption, Settings.override, strOfOpt, shortOfOpt, cryptoOfOpt, letterOpt, SoptArg.str?, hlevel]
  exact (errorIsFatal_of_lt (by decide) s).symm

theorem handleOption_fatal {e : SynError} (he : e ≠ .init) (s : Settings) :
    handleOption (charMax + e.code) a s = .ok (s.override [(charMax + e.code, a)]) := by
  cases e with
  | init => exact absurd rfl he
  | none => simp [handleOption, Settings.override, strOfOpt, shortOfOpt, cryptoOfOpt, letterOpt, charMax, SynError.code]
  | _ =>
    simp [handleOption, Settings.override, strOfOpt, shortOfOpt, cryptoOfOpt, letterOpt, charMax, SynError.code]
    funext e'
    cases e' <;> rfl

/-- The option changes its setting, or ends the program. -/
def Handled (val : Int) (a : SoptArg) (s : Settings) : Prop :=
  Sets (val, a) ∧ handleOption val a s = .ok (s.override [(val, a)]) ∨
    ¬ Sets (val, a) ∧ ∃ e, e ≠ .misread ∧ handleOption val a s = .error e

theorem handled_exit {c : Char} (hc : c ∈ ['h', 'v']) (s : Settings) : Handled (letterOpt c) a s := by
  simp only [List.mem_cons, List.not_mem_nil, or_false] at hc
  rcases hc with rfl | rfl
  · exact .inr ⟨fun h => h.1 rfl, .done, nofun, rfl⟩
  · exact .inr ⟨fun h => h.2.1 rfl, .done, nofun, rfl⟩

theorem handled_level (w : Bytes) (s : Settings) : Handled (letterOpt 'L') (.str w) s := by
  by_cases hlevel : logLevelFromString w = logInvalid
  · refine .inr ⟨fun h => h.2.2 w rfl hlevel, .error, nofun, ?_⟩
    simp [handleOption, letterOpt, SoptArg.str?, hlevel]
  · have hne : letterOpt 'L' ≠ letterOpt 'h' ∧ letterOpt 'L' ≠ letterOpt 'v' := by decide
    refine .inl ⟨⟨hne.1, hne.2, ?_⟩, handleOption_level hlevel s⟩
    intro v hv
    cases hv
    exact hlevel

theorem handled_flag {c : Char} (hc : c ∈ ['n', 'e', 'E', 't']) (s : Settings) : Handled (letterOpt c) a s := by
  refine .inl ⟨?_, handleOption_flag hc s⟩
  simp only [List.mem_cons, List.not_mem_nil, or_false] at hc
  rcases hc with rfl | rfl | rfl | rfl <;> exact sets_of_ne (by decide) (by decide) (by decide)

theorem handled_str {c : Char} (hc : c ∈ ['b', 'c', 'p', 'N', 'l']) (w : Bytes) (s : Settings) :
    Handled (letterOpt c) (.str w) s := by
  refine .inl ⟨?_, handleOption_str hc w s⟩
  simp only [List.mem_cons, List.not_mem_nil, or_false] at hc
  rcases hc with rfl | rfl | rfl | rfl | rfl <;> exact sets_of_ne (by decide) (by decide) (by decide)

theorem handled_short {c : Char} (hc : c ∈ ['W', 'H']) (n : Int) (s : Settings) :
    Handled (letterOpt c) (.int .short n) s := by
  refine .inl ⟨?_, handleOption_short hc n s⟩
  simp only [List.mem_cons, List.not_mem_nil, or_false] at hc
  rcases hc with rfl | rfl <;> exact sets_of_ne (by decide) (by decide) (by decide)

theorem handled_fatal {e : SynError} (he : e ≠ .init) (s : Settings) : Handled (charMax + e.code) a s := by
  refine .inl ⟨?_, handleOption_fatal he s⟩
  cases e with
  | init => exact absurd rfl he
  | _ => exact sets_of_ne (by decide) (by decide) (by decide)

/-- No member of the union is read but the one that was written for the option. -/
theorem handled_of (h : OfOption ldbl optspec.opts a val a') (s : Settings) : Handled val a' s := by
  obtain ⟨opt, hopt, rfl, hcase⟩ := h
  have hstr : opt.argtype = .str → opt.arg ≠ none → ∃ w, a' = .str w := by
    intro htype harg
    rcases hcase with ⟨hflag, -⟩ | ⟨-, w, hconv⟩
    · exact absurd hflag harg
    · rw [htype] at hconv
      exact ⟨w, soptConvert_str hconv⟩
  have hshort : opt.argtype = .short → opt.arg ≠ none → ∃ n, a' = .int .short n := by
    intro htype harg
    rcases hcase with ⟨hflag, -⟩ | ⟨-, w, hconv⟩
    · exact absurd hflag harg
    · rw [htype] at hconv
      exact soptConvert_short hconv
  simp only [optspec, List.mem_cons, List.not_mem_nil, or_false] at hopt
  rcases hopt with rfl | rfl | rfl | rfl | rfl | rfl | rfl | rfl | rfl | rfl | rfl | rfl | rfl | rfl | rfl | rfl |
    rfl | rfl
  · exact handled_exit (c := 'h') (by decide) s
  · exact handled_exit (c := 'v') (by decide) s
  · obtain ⟨w, rfl⟩ := hstr rfl nofun
    exact handled_str (c := 'b') (by decide) w s
  · obtain ⟨w, rfl⟩ := hstr rfl nofun
    exact handled_str (c := 'c') (by decide) w s
  · obtain ⟨w, rfl⟩ := hstr rfl nofun
    exact handled_str (c := 'p') (by decide) w s
  · obtain ⟨n, rfl⟩ := hshort rfl nofun
    exact handled_short (c := 'W') (by decide) n s
  · obtain ⟨n, rfl⟩ := hshort rfl nofun
    exact handled_short (c := 'H') (by decide) n s
  · obtain ⟨w, rfl⟩ := hstr rfl nofun
    exact handled_str (c := 'N') (by decide) w s
  · obtain ⟨w, rfl⟩ := hstr rfl nofun
    exact handled_str (c := 'l') (by decide) w s
  · obtain ⟨w, rfl⟩ := hstr rfl nofun
    exact handled_level w s
  · exact handled_flag (c := 'n') (by decide) s
  · exact handled_flag (c := 'e') (by decide) s
  · exact handled_flag (c := 'E') (by decide) s
  · exact handled_flag (c := 't') (by decide) s
  · exact handled_fatal (e := .none) nofun s
  · exact handled_fatal (e := .ebad) nofun s
  · exact handled_fatal (e := .ebsy) nofun s
  · exact handled_fatal (e := .timeout) nofun s

/-! ### All options -/

/-- The switch over one option after another, and what follows the last. -/
def settle : List (Int × SoptArg) → SoptStop → Settings → Parsed
  | [], .ended _, s => .settings s
  | [], .invalid, _ => .exit .error
  | [], .outside, _ => .outside
  | [], .spinning, _ => .spinning
  | o :: occs, stop, s =>
    match handleOption o.1 o.2 s with
    | .error e => .exit e
    | .ok s' => settle occs stop s'

theorem parseOptions_eq {argv : List Bytes} {opts : List Sopt} (fuel : Nat) (p : SoptState) (s : Settings) :
    parseOptions ldbl argv opts fuel p s =
      settle (soptLoop ldbl argv opts fuel p).1 (soptLoop ldbl argv opts fuel p).2 s := by
  induction fuel generalizing p s with
  | zero => rfl
  | succ fuel ih =>
    rw [parseOptions, soptLoop]
    cases hcall : soptGetopt ldbl argv opts p with
    | none => rfl
    | some r =>
      obtain ⟨val, p'⟩ := r
      dsimp only
      by_cases hend : val = -1
      · rw [if_pos hend, if_pos hend]
        rfl
      · rw [if_neg hend, if_neg hend]
        by_cases hinval : val = soptInval
        · rw [if_pos hinval, hinval]
          rfl
        · rw [if_neg hinval, settle]
          cases handleOption val p'.arg s with
          | error e => rfl
          | ok s' => exact ih p' s'

/-- What a caller finds are options of the list. -/
theorem nextLoop_of {opts : List Sopt} {cs : Bytes} {ws : List Bytes} (argc fuel : Nat) :
    ∀ o ∈ (nextLoop ldbl argc opts fuel a cs ws).1, ∃ a, OfOption ldbl opts a o.1 o.2 := by
  induction fuel generalizing a cs ws with
  | zero => simp [nextLoop]
  | succ fuel ih =>
    rw [nextLoop]
    cases hnext : soptNext ldbl opts a cs ws with
    | found val a' cs' ws' =>
      intro o ho
      rcases List.mem_cons.mp ho with rfl | ho
      · exact ⟨a, soptNext_found_of hnext⟩
      · exact ih o ho
    | _ => rintro _ ⟨⟩

/-- Options that only change settings change them all. -/
theorem settle_of_sets {stop : SoptStop} (hof : ∀ o ∈ occs, ∃ a, OfOption ldbl optspec.opts a o.1 o.2)
    (hsets : ∀ o ∈ occs, Sets o) (s : Settings) : settle occs stop s = settle [] stop (s.override occs) := by
  induction occs generalizing s with
  | nil => rw [Settings.override_nil]
  | cons o occs ih =>
    obtain ⟨⟨a, hopt⟩, hof⟩ := List.forall_mem_cons.mp hof
    obtain ⟨hset, hsets⟩ := List.forall_mem_cons.mp hsets
    rcases handled_of hopt s with ⟨-, hhandle⟩ | ⟨hnot, -⟩
    · rw [settle, hhandle]
      dsimp only
      rw [ih hof hsets, Settings.override_append, List.singleton_append]
    · exact absurd hset hnot

/-- An option that does not change a setting ends the program. -/
theorem settle_of_not_sets {stop : SoptStop} (hof : ∀ o ∈ occs, ∃ a, OfOption ldbl optspec.opts a o.1 o.2)
    (hsets : ¬ ∀ o ∈ occs, Sets o) (s : Settings) : ∃ e, e ≠ .misread ∧ settle occs stop s = .exit e := by
  induction occs generalizing s with
  | nil => exact absurd (List.forall_mem_nil _) hsets
  | cons o occs ih =>
    obtain ⟨⟨a, hopt⟩, hof⟩ := List.forall_mem_cons.mp hof
    rw [settle]
    rcases handled_of hopt s with ⟨hset, hhandle⟩ | ⟨-, e, he, hhandle⟩
    · rw [hhandle]
      refine ih hof (fun hall => hsets ?_) _
      exact List.forall_mem_cons.mpr ⟨hset, hall⟩
    · exact ⟨e, he, by rw [hhandle]⟩

end

section
variable (ldbl : Bytes → Bool) (c : Conf) (hostname : Bytes) (l : CommandLine)

theorem parseOptions_soptRun (s : Settings) :
    parseOptions ldbl l.argv optspec.opts (l.words.flatten.length + 1) .init s =
      settle (soptRun ldbl l optspec).1 (soptRun ldbl l optspec).2 s := parseOptions_eq _ _ s

theorem soptRun_of : ∀ o ∈ (soptRun ldbl l optspec).1, ∃ a, OfOption ldbl optspec.opts a o.1 o.2 := by
  rw [soptRun_eq_nextLoop]
  exact nextLoop_of _ _

theorem chooseGeometry_runs {s s' : Settings} {manGeom : Bool} : chooseGeometry s' = .runs s manGeom ↔
    s = s' ∧ (manGeom = true ∧ s.clientWidth ≠ 0 ∧ s.clientHeight ≠ 0 ∨
      manGeom = false ∧ s.clientWidth = 0 ∧ s.clientHeight = 0) := by
  unfold chooseGeometry
  constructor
  · intro h
    split at h
    · split at h
      · cases h
      · cases h
        exact ⟨rfl, .inl ⟨rfl, not_not.mp ‹_›⟩⟩
    · rename_i hnone
      cases h
      exact ⟨rfl, .inr ⟨rfl, by simpa [not_or] using hnone⟩⟩
  · rintro ⟨rfl, ⟨rfl, hw, hh⟩ | ⟨rfl, hw, hh⟩⟩
    · rw [if_pos (.inl hw), if_neg (not_not.mpr ⟨hw, hh⟩)]
    · rw [if_neg (by simp [hw, hh])]

theorem parseOptions_cases (s : Settings) :
    ((∀ o ∈ (soptRun ldbl l optspec).1, Sets o) ∧
      parseOptions ldbl l.argv optspec.opts (l.words.flatten.length + 1) .init s =
        settle [] (soptRun ldbl l optspec).2 (s.override (soptRun ldbl l optspec).1)) ∨
    ((¬ ∀ o ∈ (soptRun ldbl l optspec).1, Sets o) ∧ ∃ e, e ≠ .misread ∧
      parseOptions ldbl l.argv optspec.opts (l.words.flatten.length + 1) .init s = .exit e) := by
  rw [parseOptions_soptRun]
  by_cases hsets : ∀ o ∈ (soptRun ldbl l optspec).1, Sets o
  · exact .inl ⟨hsets, settle_of_sets (soptRun_of ldbl l) hsets s⟩
  · exact .inr ⟨hsets, settle_of_not_sets (soptRun_of ldbl l) hsets s⟩

/-- The program runs with settings if and only if the command line spells options that only change settings. Of those
for one setting the last one counts, and the configuration if there is none. The dimensions are given by hand if
both of them are. -/
theorem startup_runs_iff (s : Settings) (manGeom : Bool) : startup ldbl c hostname l = .runs s manGeom ↔
    ∃ occs left optind, Spelled ldbl optspec.opts .zero [] l.words occs left ∧ l.EndsAt left optind ∧
      (∀ o ∈ occs, Sets o) ∧ s = (Settings.ofConf c hostname).override occs ∧
      (manGeom = true ∧ s.clientWidth ≠ 0 ∧ s.clientHeight ≠ 0 ∨
        manGeom = false ∧ s.clientWidth = 0 ∧ s.clientHeight = 0) := by
  have hrun := parseOptions_cases ldbl l (.ofConf c hostname)
  unfold startup
  constructor
  · intro h
    rcases hrun with ⟨hsets, hparse⟩ | ⟨-, e, -, hparse⟩
    · rw [hparse] at h
      cases hstop : (soptRun ldbl l optspec).2 with
      | ended optind =>
        rw [hstop] at h
        obtain ⟨left, hspelled, hend⟩ := (soptRun_ended_iff ldbl l optspec _ optind).mp (Prod.ext rfl hstop)
        exact ⟨_, left, optind, hspelled, hend, hsets, chooseGeometry_runs.mp h⟩
      | _ =>
        rw [hstop] at h
        cases h
    · rw [hparse] at h
      cases h
  · rintro ⟨occs, left, optind, hspelled, hend, hsets, hs⟩
    have hfound := (soptRun_ended_iff ldbl l optspec occs optind).mpr ⟨left, hspelled, hend⟩
    rw [hfound] at hrun
    rcases hrun with ⟨-, hparse⟩ | ⟨hnot, -⟩
    · rw [hparse]
      exact chooseGeometry_runs.mpr hs
    · exact absurd hsets hnot

/-- Reading the options comes to an end, reads no member of the union that was not written, and reads behind the end
of a word if and only if the word is a single dash behind options that only change settings. -/
theorem startup_reads : startup ldbl c hostname l ≠ .spinning ∧ startup ldbl c hostname l ≠ .exit .misread ∧
    (startup ldbl c hostname l = .outside ↔
      ∃ occs rest, Spelled ldbl optspec.opts .zero [] l.words occs ([45] :: rest) ∧ ∀ o ∈ occs, Sets o) := by
  have hrun := parseOptions_cases ldbl l (.ofConf c hostname)
  have hgeometry : ∀ s, chooseGeometry s ≠ .spinning ∧ chooseGeometry s ≠ .exit .misread ∧
      chooseGeometry s ≠ .outside := by
    intro s
    unfold chooseGeometry
    split
    · split <;> exact ⟨nofun, nofun, nofun⟩
    · exact ⟨nofun, nofun, nofun⟩
  have hspin := soptRun_ne_spinning ldbl l optspec
  unfold startup
  rcases hrun with ⟨hsets, hparse⟩ | ⟨hnot, e, he, hparse⟩
  · rw [hparse]
    cases hstop : (soptRun ldbl l optspec).2 with
    | ended optind =>
      obtain ⟨hspinning, hmisread, houtside⟩ := hgeometry ((Settings.ofConf c hostname).override (soptRun ldbl l optspec).1)
      refine ⟨hspinning, hmisread, fun h => absurd h houtside, ?_⟩
      rintro ⟨occs, rest, hspelled, -⟩
      have hout := (soptRun_outside_iff ldbl l optspec occs).mpr ⟨rest, hspelled⟩
      rw [hout] at hstop
      cases hstop
    | invalid =>
      refine ⟨nofun, nofun, nofun, ?_⟩
      rintro ⟨occs, rest, hspelled, -⟩
      have hout := (soptRun_outside_iff ldbl l optspec occs).mpr ⟨rest, hspelled⟩
      rw [hout] at hstop
      cases hstop
    | outside =>
      obtain ⟨rest, hspelled⟩ := (soptRun_outside_iff ldbl l optspec _).mp (Prod.ext rfl hstop)
      exact ⟨nofun, nofun, fun _ => ⟨_, rest, hspelled, hsets⟩, fun _ => rfl⟩
    | spinning => exact absurd hstop hspin
  · rw [hparse]
    refine ⟨nofun, fun h => he (by injection h), nofun, ?_⟩
    rintro ⟨occs, rest, hspelled, hsets⟩
    have hout := (soptRun_outside_iff ldbl l optspec occs).mpr ⟨rest, hspelled⟩
    rw [hout] at hnot
    exact absurd hsets hnot

end

end Waynergy
