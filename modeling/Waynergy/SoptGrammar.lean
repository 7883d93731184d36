import Waynergy.Sopt

/-!
# What a command line spells

`soptNext` reads the characters and the words that are left instead of positions in them, and `sopt_getopt` does
the same at every position that it can reach (`soptGetopt_next`). The options that a caller gets until `sopt_getopt`
returns -1 are those that the words in front of the rest spell.
-/

namespace Waynergy
open Lib

/-- The words of a command line end where their first NUL is. -/
structure CommandLine where
  prog : Bytes
  words : List Bytes
  noNul : ∀ w ∈ prog :: words, 0 ∉ w

abbrev CommandLine.argv (l : CommandLine) : List Bytes := l.prog :: l.words

/-- The options in front of `SOPT_INIT_END`; `SOPT_AFTER`, which is for the usage text only, is not among them. -/
structure OptSpec where
  opts : List Sopt
  valid : ∀ o ∈ opts, o.val ≠ soptInval
  options : ∀ o ∈ opts, o.val ≠ soptAfter

/-! ### A caller -/

inductive SoptStop
  /-- -1 was returned -/
  | ended (optind : Nat)
  | invalid
  | outside
  | spinning

section
variable (ldbl : Bytes → Bool)

/-- What the calls return and store until the first one that returns -1 or `SOPT_INVAL`. -/
def soptLoop (argv : List Bytes) (opts : List Sopt) : Nat → SoptState → List (Int × SoptArg) × SoptStop
  | 0, _ => ([], .spinning)
  | fuel + 1, s =>
    match soptGetopt ldbl argv opts s with
    | none => ([], .outside)
    | some (r, s') =>
      if r = -1 then ([], .ended s'.optind)
      else if r = soptInval then ([], .invalid)
      else ((r, s'.arg) :: (soptLoop argv opts fuel s').1, (soptLoop argv opts fuel s').2)

/-- There are not more options than characters. -/
def soptRun (l : CommandLine) (spec : OptSpec) : List (Int × SoptArg) × SoptStop :=
  soptLoop ldbl l.argv spec.opts (l.words.flatten.length + 1) .init

/-! ### The characters and the words that are left -/

inductive SoptNext
  | found (val : Int) (a : SoptArg) (cs : Bytes) (ws : List Bytes)
  | invalid
  | outside
  | rest (ws : List Bytes)

def nextArg (opt : Sopt) (a : SoptArg) (ws : List Bytes) : SoptNext :=
  if opt.arg = none then .found opt.val a [] ws
  else
    match ws with
    | [] => .invalid
    | w :: ws =>
      match soptConvert ldbl opt.argtype w with
      | .ok v => .found opt.val v [] ws
      | .error _ => .invalid

def nextShort (opts : List Sopt) (a : SoptArg) (c : UInt8) (cs : Bytes) (ws : List Bytes) : SoptNext :=
  match opts.find? fun opt => opt.val = charVal c with
  | none => .invalid
  | some opt =>
    if cs = [] then nextArg ldbl opt a ws
    else if opt.arg = none then .found opt.val a cs ws
    else .invalid

/-- One call, in front of the characters `cs` of a word and the words `ws`. -/
def soptNext (opts : List Sopt) (a : SoptArg) : Bytes → List Bytes → SoptNext
  | c :: cs, ws => nextShort ldbl opts a c cs ws
  | [], [] => .rest []
  | [], w :: ws =>
    match w with
    | [45] => .outside
    | [45, 45] => .rest ws
    | 45 :: 45 :: name =>
      match opts.find? fun opt => opt.name = some name with
      | none => .invalid
      | some opt => nextArg ldbl opt a ws
    | 45 :: c :: cs => nextShort ldbl opts a c cs ws
    | w => .rest (w :: ws)

/-- The calls until the first one that finds no option, of `argc` words. -/
def nextLoop (argc : Nat) (opts : List Sopt) :
    Nat → SoptArg → Bytes → List Bytes → List (Int × SoptArg) × SoptStop
  | 0, _, _, _ => ([], .spinning)
  | fuel + 1, a, cs, ws =>
    match soptNext ldbl opts a cs ws with
    | .found val a cs ws =>
      ((val, a) :: (nextLoop argc opts fuel a cs ws).1, (nextLoop argc opts fuel a cs ws).2)
    | .invalid => ([], .invalid)
    | .outside => ([], .outside)
    | .rest ws => ([], .ended (argc - ws.length))

end

/-! ### The positions -/

/-- Where the parser stands if `cs` and `ws` are left. -/
structure SoptAt (argv : List Bytes) (a : SoptArg) (cs : Bytes) (ws : List Bytes) (s : SoptState) : Prop where
  fresh : cs = [] → s.cpos = 0
  inWord : cs ≠ [] → s.cpos ≠ 0 ∧ ∃ w, argv[s.optind]? = some w ∧ w.drop s.cpos = cs
  here : s.optind < argv.length
  rest : argv.drop (s.optind + 1) = ws
  arg : s.arg = a

section
variable {ldbl : Bytes → Bool} {argv : List Bytes} {opts : List Sopt} {a : SoptArg} {c : UInt8} {cs w : Bytes}
  {ws : List Bytes} {s : SoptState}

theorem argChar_eq {i : Nat} (hw : argv[i]? = some w) (j : Nat) : argChar argv i j = (w ++ [0])[j]? := by
  rw [argChar, hw]
  rfl

theorem argChar_drop {i j : Nat} (hw : argv[i]? = some w) (hcs : w.drop j = c :: cs) (k : Nat) :
    argChar argv i (j + k) = (c :: cs ++ [0])[k]? := by
  have hj : j ≤ w.length := by
    by_contra hlt
    rw [List.drop_eq_nil_of_le (by omega)] at hcs
    simp at hcs
  rw [argChar_eq hw, ← hcs, ← List.drop_append_of_le_length hj, List.getElem?_drop]

theorem drop_next {i : Nat} (h : argv.drop i = w :: ws) :
    argv[i]? = some w ∧ i < argv.length ∧ argv.drop (i + 1) = ws := by
  have hlt : i < argv.length := by
    by_contra hlt
    rw [List.drop_eq_nil_of_le (by omega)] at h
    simp at h
  rw [List.drop_eq_getElem_cons hlt] at h
  obtain ⟨hw, hws⟩ := List.cons.inj h
  exact ⟨by rw [List.getElem?_eq_getElem hlt, hw], hlt, hws⟩

/-- An option of the list has a value of its own. -/
theorem findOpt_eq {p : Sopt → Bool} {opt : Sopt} (h : opts.find? p = some opt) : findOpt opts p = opt := by
  rw [findOpt, h]
  rfl

theorem findOpt_none {p : Sopt → Bool} (h : opts.find? p = none) : findOpt opts p = soptInitEnd := by
  rw [findOpt, h]
  rfl

/-- The call returns what the reading of the characters says, and stands where it says. -/
def Agrees (argv : List Bytes) (r : Option (Int × SoptState)) : SoptNext → Prop
  | .found val a cs ws => ∃ s, r = some (val, s) ∧ SoptAt argv a cs ws s
  | .invalid => ∃ s, r = some (soptInval, s)
  | .outside => r = none
  | .rest ws => ∃ s, r = some (-1, s) ∧ s.optind + ws.length = argv.length

theorem soptTakeArg_next (opt : Sopt) (h : SoptAt argv a [] ws s) :
    Agrees argv (soptTakeArg ldbl argv opt s) (nextArg ldbl opt a ws) := by
  obtain ⟨fresh, -, here, rest, arg⟩ := h
  unfold soptTakeArg nextArg
  split
  · exact ⟨s, rfl, fresh, by simp, here, rest, arg⟩
  · have hword : argWord argv (s.optind + 1) = some argv[s.optind + 1]? := if_pos here
    dsimp only
    rw [hword, Option.bind_some]
    cases ws with
    | nil =>
      have hlast : argv[s.optind + 1]? = none := by
        rw [List.getElem?_eq_none_iff]
        exact List.drop_eq_nil_iff.mp rest
      rw [hlast]
      exact ⟨_, rfl⟩
    | cons w ws =>
      obtain ⟨hw, hlt, hws⟩ := drop_next rest
      rw [hw]
      dsimp only
      cases soptConvert ldbl opt.argtype w with
      | ok v => exact ⟨_, rfl, fun _ => fresh rfl, by simp, hlt, hws, rfl⟩
      | error msg => exact ⟨_, rfl⟩

theorem soptShort_next (hnul : ∀ w ∈ argv, 0 ∉ w) (h : SoptAt argv a (c :: cs) ws s) :
    Agrees argv (soptShort ldbl argv opts s) (nextShort ldbl opts a c cs ws) := by
  obtain ⟨-, inWord, here, rest, arg⟩ := h
  obtain ⟨hpos, w, hw, hcs⟩ := inWord (List.cons_ne_nil c cs)
  have hchar : argChar argv s.optind s.cpos = some c := argChar_drop hw hcs 0
  have hnext : argChar argv s.optind (s.cpos + 1) = (cs ++ [0])[0]? := argChar_drop hw hcs 1
  unfold soptShort nextShort
  dsimp only
  rw [if_neg hpos, hchar, hnext, Option.bind_some]
  cases cs with
  | nil =>
    have hfresh : SoptAt argv a [] ws { s with cpos := 0 } := ⟨fun _ => rfl, by simp, here, rest, arg⟩
    simp only [List.nil_append, List.getElem?_cons_zero, Option.bind_some, if_true]
    cases hfind : opts.find? fun opt => opt.val = charVal c with
    | none =>
      rw [shortOpt, findOpt_none hfind]
      exact ⟨_, rfl⟩
    | some opt =>
      rw [shortOpt, findOpt_eq hfind]
      exact soptTakeArg_next opt hfresh
  | cons d cs =>
    -- the word goes on, and it has no NUL in it
    have hd : d ≠ 0 := by
      rintro rfl
      have hmem : (0 : UInt8) ∈ w.drop s.cpos := by simp [hcs]
      exact hnul w (List.mem_of_getElem? hw) (List.mem_of_mem_drop hmem)
    have hmore : w.drop (s.cpos + 1) = d :: cs := by rw [← List.drop_drop, hcs]; rfl
    simp only [List.cons_append, List.getElem?_cons_zero, Option.bind_some, if_neg hd, List.cons_ne_nil, if_false]
    cases hfind : opts.find? fun opt => opt.val = charVal c with
    | none =>
      rw [shortOpt, findOpt_none hfind]
      exact ⟨_, rfl⟩
    | some opt =>
      rw [shortOpt, findOpt_eq hfind]
      dsimp only
      split
      · exact ⟨_, rfl, by simp, fun _ => ⟨Nat.succ_ne_zero _, w, hw, hmore⟩, here, rest, arg⟩
      · exact ⟨_, rfl⟩

theorem soptNext_plain (h : w.head? ≠ some 45) : soptNext ldbl opts a [] (w :: ws) = .rest (w :: ws) := by
  cases w with
  | nil => rfl
  | cons b w =>
    have hb : b ≠ 45 := fun hb => h (congrArg some hb)
    simp only [soptNext]
    split <;> simp_all

theorem soptNext_of_plain (h : ∀ w ∈ ws.head?, w.head? ≠ some 45) : soptNext ldbl opts a [] ws = .rest ws := by
  rcases ws with _ | ⟨w, ws⟩
  · rfl
  · exact soptNext_plain (h w rfl)

theorem soptNext_long {name : Bytes} (h : name ≠ []) : soptNext ldbl opts a [] ((45 :: 45 :: name) :: ws) =
    match opts.find? fun opt => opt.name = some name with
    | none => .invalid
    | some opt => nextArg ldbl opt a ws := by
  cases name with
  | nil => exact absurd rfl h
  | cons d name => rfl

theorem soptNext_group (h : c ≠ 45) :
    soptNext ldbl opts a [] ((45 :: c :: cs) :: ws) = nextShort ldbl opts a c cs ws := by
  simp only [soptNext]
  split <;> simp_all

/-- What there is in front of a word. -/
theorem soptNext_word (ldbl : Bytes → Bool) (opts : List Sopt) (a : SoptArg) (w : Bytes) (ws : List Bytes) :
    (w.head? ≠ some 45 ∧ soptNext ldbl opts a [] (w :: ws) = .rest (w :: ws)) ∨
    (w = [45] ∧ soptNext ldbl opts a [] (w :: ws) = .outside) ∨
    (w = [45, 45] ∧ soptNext ldbl opts a [] (w :: ws) = .rest ws) ∨
    (∃ name, name ≠ [] ∧ w = 45 :: 45 :: name ∧ soptNext ldbl opts a [] (w :: ws) =
      match opts.find? fun opt => opt.name = some name with
      | none => .invalid
      | some opt => nextArg ldbl opt a ws) ∨
    (∃ c cs, c ≠ 45 ∧ w = 45 :: c :: cs ∧ soptNext ldbl opts a [] (w :: ws) = nextShort ldbl opts a c cs ws) := by
  by_cases hplain : w.head? = some 45
  · obtain ⟨w, rfl⟩ : ∃ w', w = 45 :: w' := List.head?_eq_some_iff.mp hplain
    rcases w with _ | ⟨c, cs⟩
    · exact .inr (.inl ⟨rfl, rfl⟩)
    · by_cases hc : c = 45
      · subst hc
        rcases cs with _ | ⟨d, name⟩
        · exact .inr (.inr (.inl ⟨rfl, rfl⟩))
        · exact .inr (.inr (.inr (.inl ⟨d :: name, List.cons_ne_nil _ _, rfl, rfl⟩)))
      · exact .inr (.inr (.inr (.inr ⟨c, cs, hc, rfl, soptNext_group hc⟩)))
  · exact .inl ⟨hplain, soptNext_plain hplain⟩

/-- Each call does what the reading of characters and words says. -/
theorem soptGetopt_next (hnul : ∀ w ∈ argv, 0 ∉ w) (h : SoptAt argv a cs ws s) :
    Agrees argv (soptGetopt ldbl argv opts s) (soptNext ldbl opts a cs ws) := by
  have hargc : argv.length ≠ 0 := fun h0 => absurd h.here (by omega)
  unfold soptGetopt
  rw [if_neg hargc]
  cases cs with
  | cons c cs =>
    rw [if_pos (h.inWord (List.cons_ne_nil c cs)).1]
    exact soptShort_next hnul h
  | nil =>
    obtain ⟨fresh, -, here, rest, arg⟩ := h
    rw [if_neg (not_not.mpr (fresh rfl))]
    dsimp only
    cases ws with
    | nil =>
      have hlen := List.drop_eq_nil_iff.mp rest
      rw [if_pos hlen]
      exact ⟨_, rfl, Nat.le_antisymm here hlen⟩
    | cons w ws =>
      obtain ⟨hw, hlt, hws⟩ := drop_next rest
      have hleft : s.optind + 1 + (w :: ws).length = argv.length := by
        have := congrArg List.length hws
        rw [List.length_drop] at this
        rw [List.length_cons]
        omega
      rw [if_neg (Nat.not_le.mpr hlt), argChar_eq hw, argChar_eq hw, argChar_eq hw]
      by_cases hplain : w.head? = some 45
      · obtain ⟨w, rfl⟩ : ∃ w', w = 45 :: w' := List.head?_eq_some_iff.mp hplain
        have hzero : (0 : UInt8) ∉ 45 :: w := hnul _ (List.mem_of_getElem? hw)
        rw [List.cons_append, List.getElem?_cons_zero, Option.bind_some, if_neg (not_not.mpr rfl),
          List.getElem?_cons_succ]
        cases w with
        | nil =>
          -- behind the NUL of a single dash
          show soptShort ldbl argv opts { s with optind := s.optind + 1 } = none
          unfold soptShort
          dsimp only
          rw [if_pos (fresh rfl), argChar_eq hw, argChar_eq hw]
          rfl
        | cons c cs =>
          rw [List.cons_append, List.getElem?_cons_zero, Option.bind_some, List.getElem?_cons_succ]
          by_cases hc : c = 45
          · rw [if_pos hc, hc]
            cases cs with
            | nil => exact ⟨_, rfl, by rw [List.length_cons] at hleft; dsimp only; omega⟩
            | cons d name =>
              have hd : d ≠ 0 := by
                rintro rfl
                simp at hzero
              have hname : (argv.getD (s.optind + 1) []).drop 2 = d :: name := by
                rw [List.getD_eq_getElem?_getD, hw, hc]
                rfl
              rw [soptNext_long (List.cons_ne_nil d name), List.cons_append, List.getElem?_cons_succ,
                List.getElem?_cons_zero, Option.bind_some, if_neg hd, hname]
              cases hfind : opts.find? fun opt => opt.name = some (d :: name) with
              | none =>
                rw [longOpt, findOpt_none hfind]
                exact ⟨_, rfl⟩
              | some opt =>
                rw [longOpt, findOpt_eq hfind]
                exact soptTakeArg_next opt ⟨fun _ => fresh rfl, by simp, hlt, hws, arg⟩
          · rw [if_neg hc, soptNext_group hc]
            have hstart : soptShort ldbl argv opts { s with optind := s.optind + 1 } =
                soptShort ldbl argv opts { s with cpos := 1, optind := s.optind + 1 } := by
              unfold soptShort
              rw [fresh rfl]
              rfl
            rw [hstart]
            exact soptShort_next hnul ⟨by simp, fun _ => ⟨Nat.one_ne_zero, _, hw, rfl⟩, hlt, hws, arg⟩
      · rw [soptNext_plain hplain]
        have hfirst : ∃ c₀, (w ++ [0])[0]? = some c₀ ∧ c₀ ≠ 45 := by
          cases w with
          | nil => exact ⟨0, rfl, by decide⟩
          | cons c₀ w => exact ⟨c₀, rfl, fun h => hplain (congrArg some h)⟩
        obtain ⟨c₀, h₀, hne⟩ := hfirst
        rw [h₀, Option.bind_some, if_pos hne]
        exact ⟨_, rfl, hleft⟩

/-! ### The calls -/

theorem nextArg_found {opt : Sopt} {val : Int} {a' : SoptArg} {cs' : Bytes} {ws' : List Bytes}
    (h : nextArg ldbl opt a ws = .found val a' cs' ws') :
    val = opt.val ∧ cs' = [] ∧ (opt.arg = none ∧ a' = a ∧ ws' = ws ∨
      opt.arg ≠ none ∧ ∃ w, ws = w :: ws' ∧ soptConvert ldbl opt.argtype w = .ok a') := by
  unfold nextArg at h
  split at h
  · cases h
    exact ⟨rfl, rfl, .inl ⟨‹_›, rfl, rfl⟩⟩
  · cases ws with
    | nil => cases h
    | cons w ws =>
      dsimp only at h
      split at h
      · cases h
        exact ⟨rfl, rfl, .inr ⟨‹_›, w, rfl, ‹_›⟩⟩
      · cases h

theorem nextShort_found {val : Int} {a' : SoptArg} {cs' : Bytes} {ws' : List Bytes}
    (h : nextShort ldbl opts a c cs ws = .found val a' cs' ws') :
    ∃ opt, opts.find? (fun o => o.val = charVal c) = some opt ∧
      (cs = [] ∧ nextArg ldbl opt a ws = .found val a' cs' ws' ∨
        opt.arg = none ∧ val = opt.val ∧ a' = a ∧ cs' = cs ∧ ws' = ws) := by
  unfold nextShort at h
  split at h
  · cases h
  · rename_i opt hopt
    refine ⟨opt, hopt, ?_⟩
    split at h
    · exact .inl ⟨‹_›, h⟩
    · split at h
      · cases h
        exact .inr ⟨‹_›, rfl, rfl, rfl, rfl⟩
      · cases h

/-- The words that are read for options: a long option, one of them with its argument, and a group of short options
of which only the last may have an argument. -/
inductive Spelled (ldbl : Bytes → Bool) (opts : List Sopt) :
    SoptArg → Bytes → List Bytes → List (Int × SoptArg) → List Bytes → Prop
  | nil {a : SoptArg} {ws : List Bytes} : Spelled ldbl opts a [] ws [] ws
  | long {a : SoptArg} {ws left : List Bytes} {occs : List (Int × SoptArg)} {name : Bytes} {opt : Sopt}
      (hname : name ≠ []) (hopt : opts.find? (fun o => o.name = some name) = some opt) (hflag : opt.arg = none)
      (h : Spelled ldbl opts a [] ws occs left) :
      Spelled ldbl opts a [] ((45 :: 45 :: name) :: ws) ((opt.val, a) :: occs) left
  | longArg {a v : SoptArg} {ws left : List Bytes} {occs : List (Int × SoptArg)} {name w : Bytes} {opt : Sopt}
      (hname : name ≠ []) (hopt : opts.find? (fun o => o.name = some name) = some opt) (harg : opt.arg ≠ none)
      (hconv : soptConvert ldbl opt.argtype w = .ok v) (h : Spelled ldbl opts v [] ws occs left) :
      Spelled ldbl opts a [] ((45 :: 45 :: name) :: w :: ws) ((opt.val, v) :: occs) left
  | group {a : SoptArg} {ws left : List Bytes} {occs : List (Int × SoptArg)} {c : UInt8} {cs : Bytes}
      (hc : c ≠ 45) (h : Spelled ldbl opts a (c :: cs) ws occs left) :
      Spelled ldbl opts a [] ((45 :: c :: cs) :: ws) occs left
  | flag {a : SoptArg} {ws left : List Bytes} {occs : List (Int × SoptArg)} {c : UInt8} {cs : Bytes} {opt : Sopt}
      (hopt : opts.find? (fun o => o.val = charVal c) = some opt) (hflag : opt.arg = none)
      (h : Spelled ldbl opts a cs ws occs left) : Spelled ldbl opts a (c :: cs) ws ((opt.val, a) :: occs) left
  | flagArg {a v : SoptArg} {ws left : List Bytes} {occs : List (Int × SoptArg)} {c : UInt8} {w : Bytes} {opt : Sopt}
      (hopt : opts.find? (fun o => o.val = charVal c) = some opt) (harg : opt.arg ≠ none)
      (hconv : soptConvert ldbl opt.argtype w = .ok v) (h : Spelled ldbl opts v [] ws occs left) :
      Spelled ldbl opts a [c] (w :: ws) ((opt.val, v) :: occs) left

variable {occs : List (Int × SoptArg)} {left : List Bytes}

theorem Spelled.short {val : Int} {a' : SoptArg} {cs' : Bytes} {ws' : List Bytes}
    (hnext : nextShort ldbl opts a c cs ws = .found val a' cs' ws') (h : Spelled ldbl opts a' cs' ws' occs left) :
    Spelled ldbl opts a (c :: cs) ws ((val, a') :: occs) left := by
  obtain ⟨opt, hopt, hcase⟩ := nextShort_found hnext
  rcases hcase with ⟨rfl, hlast⟩ | ⟨hflag, rfl, rfl, rfl, rfl⟩
  · obtain ⟨rfl, rfl, hcase⟩ := nextArg_found hlast
    rcases hcase with ⟨hflag, rfl, rfl⟩ | ⟨harg, w, rfl, hconv⟩
    · exact .flag hopt hflag h
    · exact .flagArg hopt harg hconv h
  · exact .flag hopt hflag h

theorem Spelled.cons {val : Int} {a' : SoptArg} {cs' : Bytes} {ws' : List Bytes}
    (hnext : soptNext ldbl opts a cs ws = .found val a' cs' ws') (h : Spelled ldbl opts a' cs' ws' occs left) :
    Spelled ldbl opts a cs ws ((val, a') :: occs) left := by
  rcases cs with _ | ⟨c, cs⟩
  · rcases ws with _ | ⟨w, ws⟩
    · cases hnext
    rcases soptNext_word ldbl opts a w ws with
      ⟨-, hw⟩ | ⟨-, hw⟩ | ⟨-, hw⟩ | ⟨name, hname, rfl, hw⟩ | ⟨c, cs, hc, rfl, hw⟩ <;> rw [hw] at hnext
    · cases hnext
    · cases hnext
    · cases hnext
    · split at hnext
      · cases hnext
      · rename_i opt hopt
        obtain ⟨rfl, rfl, hcase⟩ := nextArg_found hnext
        rcases hcase with ⟨hflag, rfl, rfl⟩ | ⟨harg, w, rfl, hconv⟩
        · exact .long hname hopt hflag h
        · exact .longArg hname hopt harg hconv h
    · exact .group hc (.short hnext h)
  · exact .short hnext h

/-- The call finds an option, or what is invalid. -/
def SoptNext.Goes : SoptNext → Prop
  | .found .. => True
  | .invalid => True
  | _ => False

theorem nextArg_goes (opt : Sopt) : (nextArg ldbl opt a ws).Goes := by
  unfold nextArg
  split
  · trivial
  · split
    · trivial
    · split <;> trivial

theorem nextShort_goes : (nextShort ldbl opts a c cs ws).Goes := by
  unfold nextShort
  split
  · trivial
  · split
    · exact nextArg_goes _
    · split <;> trivial

/-- What ends the options, and that nothing but a single dash is read behind its end. -/
theorem soptNext_ends (h : ¬ (soptNext ldbl opts a cs ws).Goes) : cs = [] ∧
    ((∀ w ∈ ws.head?, w.head? ≠ some 45) ∧ soptNext ldbl opts a cs ws = .rest ws ∨
      (∃ rest, ws = [45, 45] :: rest ∧ soptNext ldbl opts a cs ws = .rest rest) ∨
      ∃ rest, ws = [45] :: rest ∧ soptNext ldbl opts a cs ws = .outside) := by
  rcases cs with _ | ⟨c, cs⟩
  · refine ⟨rfl, ?_⟩
    rcases ws with _ | ⟨w, ws⟩
    · exact .inl ⟨by simp, rfl⟩
    rcases soptNext_word ldbl opts a w ws with
      ⟨hplain, hw⟩ | ⟨rfl, hw⟩ | ⟨rfl, hw⟩ | ⟨name, -, rfl, hw⟩ | ⟨c, cs, -, rfl, hw⟩
    · exact .inl ⟨by simpa using hplain, hw⟩
    · exact .inr (.inr ⟨ws, rfl, hw⟩)
    · exact .inr (.inl ⟨ws, rfl, hw⟩)
    · rw [hw] at h
      split at h
      · exact absurd trivial h
      · exact absurd (nextArg_goes _) h
    · rw [hw] at h
      exact absurd nextShort_goes h
  · exact absurd nextShort_goes h

/-! ### The run of a caller -/

theorem nextArg_found_lt {opt : Sopt} {val : Int} {a' : SoptArg} {cs' : Bytes} {ws' : List Bytes}
    (h : nextArg ldbl opt a ws = .found val a' cs' ws') : cs'.length + ws'.flatten.length ≤ ws.flatten.length := by
  obtain ⟨-, rfl, hcase⟩ := nextArg_found h
  rcases hcase with ⟨-, -, rfl⟩ | ⟨-, w, rfl, -⟩ <;> simp

theorem nextShort_found_lt {val : Int} {a' : SoptArg} {cs' : Bytes} {ws' : List Bytes}
    (h : nextShort ldbl opts a c cs ws = .found val a' cs' ws') :
    cs'.length + ws'.flatten.length < (c :: cs).length + ws.flatten.length := by
  obtain ⟨opt, -, hcase⟩ := nextShort_found h
  rw [List.length_cons]
  rcases hcase with ⟨rfl, hlast⟩ | ⟨-, -, -, rfl, rfl⟩
  · have := nextArg_found_lt hlast
    omega
  · omega

/-- An option takes a character at least. -/
theorem soptNext_found_lt {val : Int} {a' : SoptArg} {cs' : Bytes} {ws' : List Bytes}
    (h : soptNext ldbl opts a cs ws = .found val a' cs' ws') :
    cs'.length + ws'.flatten.length < cs.length + ws.flatten.length := by
  rcases cs with _ | ⟨c, cs⟩
  · rcases ws with _ | ⟨w, ws⟩
    · cases h
    rcases soptNext_word ldbl opts a w ws with
      ⟨-, hw⟩ | ⟨-, hw⟩ | ⟨-, hw⟩ | ⟨name, -, rfl, hw⟩ | ⟨c, cs, -, rfl, hw⟩ <;> rw [hw] at h
    · cases h
    · cases h
    · cases h
    · split at h
      · cases h
      · have := nextArg_found_lt h
        simp only [List.flatten_cons, List.length_append, List.length_cons]
        omega
    · have := nextShort_found_lt h
      simp only [List.flatten_cons, List.length_append, List.length_cons] at this ⊢
      omega
  · exact nextShort_found_lt h

/-- What is stored belongs to an option of the list. -/
def OfOption (ldbl : Bytes → Bool) (opts : List Sopt) (a : SoptArg) (val : Int) (a' : SoptArg) : Prop :=
  ∃ opt ∈ opts, val = opt.val ∧
    (opt.arg = none ∧ a' = a ∨ opt.arg ≠ none ∧ ∃ w, soptConvert ldbl opt.argtype w = .ok a')

theorem nextArg_found_of {opt : Sopt} {val : Int} {a' : SoptArg} {cs' : Bytes} {ws' : List Bytes}
    (hopt : opt ∈ opts) (h : nextArg ldbl opt a ws = .found val a' cs' ws') : OfOption ldbl opts a val a' := by
  obtain ⟨hval, -, hcase⟩ := nextArg_found h
  refine ⟨opt, hopt, hval, ?_⟩
  rcases hcase with ⟨hflag, rfl, -⟩ | ⟨harg, w, -, hconv⟩
  · exact .inl ⟨hflag, rfl⟩
  · exact .inr ⟨harg, w, hconv⟩

theorem nextShort_found_of {val : Int} {a' : SoptArg} {cs' : Bytes} {ws' : List Bytes}
    (h : nextShort ldbl opts a c cs ws = .found val a' cs' ws') : OfOption ldbl opts a val a' := by
  obtain ⟨opt, hopt, hcase⟩ := nextShort_found h
  have hmem := List.mem_of_find?_eq_some hopt
  rcases hcase with ⟨-, hlast⟩ | ⟨hflag, rfl, rfl, -⟩
  · exact nextArg_found_of hmem hlast
  · exact ⟨opt, hmem, rfl, .inl ⟨hflag, rfl⟩⟩

theorem soptNext_found_of {val : Int} {a' : SoptArg} {cs' : Bytes} {ws' : List Bytes}
    (h : soptNext ldbl opts a cs ws = .found val a' cs' ws') : OfOption ldbl opts a val a' := by
  rcases cs with _ | ⟨c, cs⟩
  · rcases ws with _ | ⟨w, ws⟩
    · cases h
    rcases soptNext_word ldbl opts a w ws with
      ⟨-, hw⟩ | ⟨-, hw⟩ | ⟨-, hw⟩ | ⟨name, -, rfl, hw⟩ | ⟨c, cs, -, rfl, hw⟩ <;> rw [hw] at h
    · cases h
    · cases h
    · cases h
    · split at h
      · cases h
      · rename_i opt hopt
        exact nextArg_found_of (List.mem_of_find?_eq_some hopt) h
    · exact nextShort_found_of h
  · exact nextShort_found_of h

theorem OfOption.proper {spec : OptSpec} {val : Int} {a' : SoptArg} (h : OfOption ldbl spec.opts a val a') :
    val ≠ -1 ∧ val ≠ soptInval := by
  obtain ⟨opt, hopt, rfl, -⟩ := h
  exact ⟨spec.options opt hopt, spec.valid opt hopt⟩

/-- The calls go through the positions as through the characters and words. -/
theorem soptLoop_eq_nextLoop {spec : OptSpec} (hnul : ∀ w ∈ argv, 0 ∉ w) (fuel : Nat)
    (h : SoptAt argv a cs ws s) :
    soptLoop ldbl argv spec.opts fuel s = nextLoop ldbl argv.length spec.opts fuel a cs ws := by
  induction fuel generalizing a cs ws s with
  | zero => rfl
  | succ fuel ih =>
    have hcall : Agrees argv (soptGetopt ldbl argv spec.opts s) (soptNext ldbl spec.opts a cs ws) :=
      soptGetopt_next hnul h
    rw [soptLoop, nextLoop]
    cases hnext : soptNext ldbl spec.opts a cs ws with
    | found val a' cs' ws' =>
      rw [hnext] at hcall
      obtain ⟨s', hs', hat⟩ := hcall
      obtain ⟨hafter, hinval⟩ := (soptNext_found_of hnext).proper
      rw [hs']
      dsimp only
      rw [if_neg hafter, if_neg hinval, ih hat, hat.arg]
    | invalid =>
      rw [hnext] at hcall
      obtain ⟨s', hs'⟩ := hcall
      rw [hs']
      rfl
    | outside =>
      rw [hnext] at hcall
      have hs' : soptGetopt ldbl argv spec.opts s = none := hcall
      rw [hs']
    | rest left =>
      rw [hnext] at hcall
      obtain ⟨s', hs', hleft⟩ := hcall
      rw [hs']
      dsimp only
      rw [if_pos rfl, ← hleft, Nat.add_sub_cancel]

/-- With a call for each character, and one more, the run comes to its end. -/
theorem nextLoop_ends {argc fuel : Nat} (hfuel : cs.length + ws.flatten.length < fuel) :
    (nextLoop ldbl argc opts fuel a cs ws).2 ≠ .spinning := by
  induction fuel generalizing a cs ws with
  | zero => exact absurd hfuel (Nat.not_lt_zero _)
  | succ fuel ih =>
    rw [nextLoop]
    cases hnext : soptNext ldbl opts a cs ws with
    | found val a' cs' ws' =>
      have := soptNext_found_lt hnext
      exact ih (by omega)
    | invalid => nofun
    | outside => nofun
    | rest left => nofun

theorem nextLoop_of_not_goes {argc : Nat} (h : ¬ (soptNext ldbl opts a cs ws).Goes) (fuel : Nat) :
    nextLoop ldbl argc opts (fuel + 1) a cs ws = ([], (nextLoop ldbl argc opts 1 a cs ws).2) := by
  rw [nextLoop, nextLoop]
  cases hnext : soptNext ldbl opts a cs ws with
  | found val a' cs' ws' => exact absurd (show (soptNext ldbl opts a cs ws).Goes by rw [hnext]; trivial) h
  | _ => rfl

/-- What a run finds until it ends is spelled in front of its end. -/
theorem spelled_of_nextLoop {argc fuel : Nat} {stop : SoptStop}
    (hrun : nextLoop ldbl argc opts fuel a cs ws = (occs, stop)) (hvalid : stop ≠ .invalid)
    (hspin : stop ≠ .spinning) : ∃ a' left, Spelled ldbl opts a cs ws occs left ∧
      ¬ (soptNext ldbl opts a' [] left).Goes ∧ nextLoop ldbl argc opts 1 a' [] left = ([], stop) := by
  induction fuel generalizing a cs ws occs with
  | zero =>
    cases hrun
    exact absurd rfl hspin
  | succ fuel ih =>
    by_cases hgo : (soptNext ldbl opts a cs ws).Goes
    · rw [nextLoop] at hrun
      cases hnext : soptNext ldbl opts a cs ws with
      | found val a₁ cs₁ ws₁ =>
        rw [hnext] at hrun
        obtain ⟨rfl, rfl⟩ := Prod.mk.inj hrun
        obtain ⟨a', left, hspelled, hend⟩ := ih rfl
        exact ⟨a', left, hspelled.cons hnext, hend⟩
      | invalid =>
        rw [hnext] at hrun
        cases hrun
        exact absurd rfl hvalid
      | _ =>
        rw [hnext] at hgo
        exact absurd hgo not_false
    · obtain ⟨rfl, -⟩ := soptNext_ends hgo
      rw [nextLoop_of_not_goes hgo] at hrun
      obtain ⟨rfl, rfl⟩ := Prod.mk.inj hrun
      exact ⟨a, ws, .nil, hgo, nextLoop_of_not_goes hgo 0⟩

/-- What is spelled is found, one option in each call. -/
theorem Spelled.nextLoop_append (h : Spelled ldbl opts a cs ws occs left) (argc : Nat) : ∃ a', ∀ fuel,
    nextLoop ldbl argc opts (occs.length + fuel) a cs ws =
      (occs ++ (nextLoop ldbl argc opts fuel a' [] left).1, (nextLoop ldbl argc opts fuel a' [] left).2) := by
  induction h with
  | @nil a ws => exact ⟨a, fun fuel => by simp⟩
  | long hname hopt hflag _ ih =>
    obtain ⟨a', ih⟩ := ih
    refine ⟨a', fun fuel => ?_⟩
    rw [List.length_cons, Nat.add_right_comm, nextLoop, soptNext_long hname, hopt]
    simp [nextArg, hflag, ih]
  | longArg hname hopt harg hconv _ ih =>
    obtain ⟨a', ih⟩ := ih
    refine ⟨a', fun fuel => ?_⟩
    rw [List.length_cons, Nat.add_right_comm, nextLoop, soptNext_long hname, hopt]
    simp [nextArg, harg, hconv, ih]
  | @group a ws left occs c cs hc _ ih =>
    obtain ⟨a', ih⟩ := ih
    refine ⟨a', fun fuel => ?_⟩
    rw [← ih]
    cases occs.length + fuel with
    | zero => rfl
    | succ n =>
      rw [nextLoop, nextLoop, soptNext_group hc]
      rfl
  | @flag a ws left occs c cs opt hopt hflag _ ih =>
    obtain ⟨a', ih⟩ := ih
    refine ⟨a', fun fuel => ?_⟩
    have hnext : soptNext ldbl opts a (c :: cs) ws = .found opt.val a cs ws := by
      rw [soptNext, nextShort, hopt]
      simp only [nextArg, if_pos hflag]
      split
      · rename_i hlast
        rw [hlast]
      · rfl
    rw [List.length_cons, Nat.add_right_comm, nextLoop, hnext]
    simp [ih]
  | flagArg hopt harg hconv _ ih =>
    obtain ⟨a', ih⟩ := ih
    refine ⟨a', fun fuel => ?_⟩
    rw [List.length_cons, Nat.add_right_comm, nextLoop, soptNext, nextShort, hopt]
    simp [nextArg, harg, hconv, ih]

theorem Spelled.length_le (h : Spelled ldbl opts a cs ws occs left) :
    occs.length + left.flatten.length ≤ cs.length + ws.flatten.length := by
  induction h with
  | nil => simp
  | _ =>
    simp_all
    omega

theorem Spelled.suffix (h : Spelled ldbl opts a cs ws occs left) : left <:+ ws := by
  induction h with
  | nil => exact List.suffix_refl _
  | long _ _ _ _ ih => exact ih.trans (List.suffix_cons _ _)
  | longArg _ _ _ _ _ ih => exact (ih.trans (List.suffix_cons _ _)).trans (List.suffix_cons _ _)
  | group _ _ ih => exact ih.trans (List.suffix_cons _ _)
  | flag _ _ _ ih => exact ih
  | flagArg _ _ _ _ ih => exact ih.trans (List.suffix_cons _ _)

end

section
variable (ldbl : Bytes → Bool) (l : CommandLine) (spec : OptSpec)

theorem soptRun_eq_nextLoop : soptRun ldbl l spec =
    nextLoop ldbl l.argv.length spec.opts (l.words.flatten.length + 1) .zero [] l.words :=
  soptLoop_eq_nextLoop l.noNul _ ⟨fun _ => rfl, by simp, Nat.succ_pos _, rfl, rfl⟩

theorem soptRun_ne_spinning : (soptRun ldbl l spec).2 ≠ .spinning := by
  rw [soptRun_eq_nextLoop]
  exact nextLoop_ends (by simp)

/-- What is spelled in front of an end is what is found. -/
theorem soptRun_of_spelled {occs : List (Int × SoptArg)} {left : List Bytes}
    (h : Spelled ldbl spec.opts .zero [] l.words occs left) : ∃ a', soptRun ldbl l spec =
      (occs ++ (nextLoop ldbl l.argv.length spec.opts (l.words.flatten.length + 1 - occs.length) a' [] left).1,
        (nextLoop ldbl l.argv.length spec.opts (l.words.flatten.length + 1 - occs.length) a' [] left).2) := by
  obtain ⟨a', hrun⟩ := h.nextLoop_append l.argv.length
  have hle := h.length_le
  rw [List.length_nil] at hle
  refine ⟨a', ?_⟩
  rw [soptRun_eq_nextLoop, ← hrun]
  congr 1
  omega

/-- `argv` from `optind` on. -/
def CommandLine.Behind (optind : Nat) (rest : List Bytes) : Prop :=
  optind ≤ l.argv.length ∧ l.argv.drop optind = rest

/-- The options end at a word that is none, at the end, or behind a double dash, and `optind` is there. -/
def CommandLine.EndsAt (left : List Bytes) (optind : Nat) : Prop :=
  (∀ w ∈ left.head?, w.head? ≠ some 45) ∧ l.Behind optind left ∨
    ∃ rest, left = [45, 45] :: rest ∧ l.Behind optind rest

theorem CommandLine.behind_iff {rest : List Bytes} (h : rest <:+ l.words) (optind : Nat) :
    l.Behind optind rest ↔ l.argv.length - rest.length = optind := by
  obtain ⟨pre, hpre⟩ := h
  have hargv : l.argv = l.prog :: pre ++ rest := by rw [List.cons_append, hpre]
  have hlen := congrArg List.length hargv
  simp only [List.cons_append, List.length_cons, List.length_append] at hlen
  constructor
  · rintro ⟨hle, hdrop⟩
    have := congrArg List.length hdrop
    rw [List.length_drop] at this
    omega
  · rintro rfl
    refine ⟨Nat.sub_le _ _, ?_⟩
    rw [hargv]
    exact List.drop_left' (by simp; omega)

/-- The options that are found are those that are spelled, and `optind` is where they end. -/
theorem soptRun_ended_iff (occs : List (Int × SoptArg)) (optind : Nat) :
    soptRun ldbl l spec = (occs, .ended optind) ↔
      ∃ left, Spelled ldbl spec.opts .zero [] l.words occs left ∧ l.EndsAt left optind := by
  constructor
  · intro hrun
    rw [soptRun_eq_nextLoop] at hrun
    obtain ⟨a', left, hspelled, hgo, hstop⟩ := spelled_of_nextLoop hrun nofun nofun
    refine ⟨left, hspelled, ?_⟩
    rw [nextLoop] at hstop
    rcases (soptNext_ends hgo).2 with ⟨hplain, hnext⟩ | ⟨rest, rfl, hnext⟩ | ⟨rest, rfl, hnext⟩ <;>
      rw [hnext] at hstop
    · refine .inl ⟨hplain, (l.behind_iff hspelled.suffix _).mpr ?_⟩
      injection hstop with _ hstop
      injection hstop
    · refine .inr ⟨rest, rfl, (l.behind_iff ((List.suffix_cons _ _).trans hspelled.suffix) _).mpr ?_⟩
      injection hstop with _ hstop
      injection hstop
    · cases hstop
  · rintro ⟨left, hspelled, hend⟩
    obtain ⟨a', hrun⟩ := soptRun_of_spelled ldbl l spec hspelled
    have hle := hspelled.length_le
    rw [List.length_nil] at hle
    obtain ⟨k, hk⟩ : ∃ k, l.words.flatten.length + 1 - occs.length = k + 1 :=
      ⟨l.words.flatten.length - occs.length, by omega⟩
    rw [hrun, hk, nextLoop]
    rcases hend with ⟨hplain, hbehind⟩ | ⟨rest, rfl, hbehind⟩
    · rw [l.behind_iff hspelled.suffix] at hbehind
      rw [soptNext_of_plain hplain]
      simp only [List.append_nil, hbehind]
    · rw [l.behind_iff ((List.suffix_cons _ _).trans hspelled.suffix)] at hbehind
      simp only [soptNext, List.append_nil, hbehind]

/-- A caller makes `sopt_getopt` read behind the end of a word if and only if the word is a single dash, and options
are spelled up to it. -/
theorem soptRun_outside_iff (occs : List (Int × SoptArg)) : soptRun ldbl l spec = (occs, .outside) ↔
    ∃ rest, Spelled ldbl spec.opts .zero [] l.words occs ([45] :: rest) := by
  constructor
  · intro hrun
    rw [soptRun_eq_nextLoop] at hrun
    obtain ⟨a', left, hspelled, hgo, hstop⟩ := spelled_of_nextLoop hrun nofun nofun
    rw [nextLoop] at hstop
    rcases (soptNext_ends hgo).2 with ⟨-, hnext⟩ | ⟨_, -, hnext⟩ | ⟨rest, rfl, -⟩
    · rw [hnext] at hstop
      cases hstop
    · rw [hnext] at hstop
      cases hstop
    · exact ⟨rest, hspelled⟩
  · rintro ⟨rest, hspelled⟩
    obtain ⟨a', hrun⟩ := soptRun_of_spelled ldbl l spec hspelled
    have hle := hspelled.length_le
    rw [List.length_nil] at hle
    obtain ⟨k, hk⟩ : ∃ k, l.words.flatten.length + 1 - occs.length = k + 1 :=
      ⟨l.words.flatten.length - occs.length, by omega⟩
    rw [hrun, hk, nextLoop]
    simp only [soptNext, List.append_nil]

/-- A caller that goes on until -1 or `SOPT_INVAL` is returned stops for every command line. It is stopped by -1 if and
only if the words spell options up to an end, which are those that it finds; and it reads behind the end of a word if
and only if options are spelled up to a single dash. -/
theorem soptRun_spec : (soptRun ldbl l spec).2 ≠ .spinning ∧
    (∀ occs optind, soptRun ldbl l spec = (occs, .ended optind) ↔
      ∃ left, Spelled ldbl spec.opts .zero [] l.words occs left ∧ l.EndsAt left optind) ∧
    ∀ occs, soptRun ldbl l spec = (occs, .outside) ↔
      ∃ rest, Spelled ldbl spec.opts .zero [] l.words occs ([45] :: rest) :=
  ⟨soptRun_ne_spinning ldbl l spec, soptRun_ended_iff ldbl l spec, soptRun_outside_iff ldbl l spec⟩

end

end Waynergy
