import Waynergy.Context

/-!
# Section directories (`config.c`)

`read_full_section_dir` returns the names and the contents of the files in a directory in two arrays, which grow by one
element a file and get their `NULL` at the end. The element that is to be the `NULL` is indeterminate until then, so
the arrays are right only where nothing fails on the way.
-/

namespace Waynergy
open Lib

/-! ### Arrays of strings -/

/-- An element of a `char **`. What `xmalloc` and `xreallocarray` add is indeterminate. -/
inductive CharPtr
  | indeterminate
  | null
  | str (s : Bytes)
deriving DecidableEq

/-- `xreallocarray` -/
def growArray (a : List CharPtr) (nmemb : Nat) : List CharPtr :=
  a.take nmemb ++ List.replicate (nmemb - a.length) .indeterminate

/-- The loop of `strfreev`: whether all that it touches are strings of the array and its `NULL`. -/
def freesStrings : List CharPtr → Bool
  | [] => false
  | .indeterminate :: _ => false
  | .null :: _ => true
  | .str _ :: strv => freesStrings strv

def strfreev (strv : Option (List CharPtr)) : Bool := strv.elim true freesStrings

/-! ### The directory -/

/-- An entry of a directory: whether it is a regular file, if `stat` can tell, and what `read_file_dumb` reads. -/
structure DirEnt where
  name : Bytes
  isReg : Option Bool
  content : Option Bytes

def DirEnt.read (ent : DirEnt) : CharPtr := ent.content.elim .null .str

/-- What is returned, and what `*key` and `*val` are afterwards. -/
structure SectionDir where
  ret : Int
  key : Option (List CharPtr)
  val : Option (List CharPtr)
deriving DecidableEq

/-- The loop over the entries, with `count` of them stored. There is no result if `count` overflows. -/
def readEntries (count : Nat) (key val : List CharPtr) : List DirEnt → Option SectionDir
  | [] => some ⟨count, some (key.set count .null), some (val.set count .null)⟩
  | ent :: ents =>
    match ent.isReg with
    | none => some ⟨-1, some key, some val⟩
    | some false => readEntries count key val ents
    | some true =>
      if intMax < count + 2 then none
      else readEntries (count + 1) ((growArray key (count + 2)).set count (.str ent.name))
        ((growArray val (count + 2)).set count ent.read) ents

/-- For callers that have set `*key` and `*val` to `NULL`. Without entries the directory cannot be opened. -/
def readFullSectionDir : Option (List DirEnt) → Option SectionDir
  | none => some ⟨-1, none, none⟩
  | some ents => readEntries 0 [.indeterminate] [.indeterminate] ents

/-! ### What the callers need -/

/-- Strings, and then a `NULL`. -/
def Terminated (strv : List CharPtr) : Prop :=
  ∃ (ss : List Bytes) (rest : List CharPtr), strv = ss.map .str ++ .null :: rest

/-- What a loop over the `count` entries reads, if all of it are strings. -/
def readPairs (key val : List CharPtr) (count : Nat) : Option (List (Bytes × Bytes)) :=
  (List.range count).mapM fun i =>
    match key[i]?, val[i]? with
    | some (CharPtr.str k), some (CharPtr.str v) => some (k, v)
    | _, _ => none

def SectionDir.pairs (r : SectionDir) : Option (List (Bytes × Bytes)) :=
  readPairs (r.key.getD []) (r.val.getD []) r.ret.toNat

def regulars (ents : List DirEnt) : List DirEnt := ents.filter fun ent => ent.isReg = some true

/-- The files in the order of the directory with their contents, or -1 and arrays that can be freed. -/
inductive SectionDir.Shaped (dir : Option (List DirEnt)) : SectionDir → Prop
  | listed (ents : List DirEnt) (pairs : List (Bytes × Bytes)) (hdir : dir = some ents)
      (hpairs : (regulars ents).map (fun ent => (ent.name, ent.content)) = pairs.map fun p => (p.1, some p.2)) :
      Shaped dir ⟨pairs.length, some (pairs.map (fun p => CharPtr.str p.1) ++ [.null]),
        some (pairs.map (fun p => CharPtr.str p.2) ++ [.null])⟩
  | failed (key val : Option (List CharPtr)) (hkey : ∀ strv ∈ key, Terminated strv)
      (hval : ∀ strv ∈ val, Terminated strv) : Shaped dir ⟨-1, key, val⟩

/-- What is returned has its shape, and the callers touch strings and the `NULL` behind them only. -/
structure SectionDir.Usable (dir : Option (List DirEnt)) (r : SectionDir) : Prop where
  shaped : r.Shaped dir
  key : strfreev r.key = true
  val : strfreev r.val = true
  pairs : r.pairs ≠ none

/-- `stat` succeeds on all entries, all files can be read, and their number is in the range of the count. -/
def ReadableDir (ents : List DirEnt) : Prop :=
  (∀ ent ∈ ents, ent.isReg ≠ none ∧ (ent.isReg = some true → ent.content ≠ none)) ∧ (regulars ents).length < intMax

/-! ### The loop -/

variable {ents : List DirEnt} {ent : DirEnt} {count : Nat} {dir : Option (List DirEnt)}

theorem regulars_file (h : ent.isReg = some true) : regulars (ent :: ents) = ent :: regulars ents :=
  List.filter_cons_of_pos (decide_eq_true h)

theorem regulars_other (h : ent.isReg = some false) : regulars (ent :: ents) = regulars ents :=
  List.filter_cons_of_neg (by rw [h]; decide)

/-- The new element is stored in place of the one that was to be the `NULL`, which is then behind it. -/
theorem set_growArray {a : List CharPtr} (ha : a.length = count) (p : CharPtr) :
    (growArray (a ++ [.indeterminate]) (count + 2)).set count p = (a ++ [p]) ++ [.indeterminate] := by
  have hgrow : growArray (a ++ [.indeterminate]) (count + 2) = a ++ [.indeterminate, .indeterminate] := by
    have hlen : (a ++ [CharPtr.indeterminate]).length = count + 1 := by
      rw [List.length_append, List.length_singleton, ha]
    unfold growArray
    rw [List.take_of_length_le (by omega), hlen, show count + 2 - (count + 1) = 1 by omega, List.append_assoc]
    rfl
  rw [hgrow, ← ha, List.set_append_right _ _ (Nat.le_refl _), Nat.sub_self, List.append_assoc]
  rfl

/-- Without a failure all files are stored, and the `NULL` behind them. -/
theorem readEntries_listed {key val : List CharPtr} (hkey : key.length = count) (hval : val.length = count)
    (hstat : ∀ ent ∈ ents, ent.isReg ≠ none) (hroom : count + (regulars ents).length < intMax) :
    readEntries count (key ++ [.indeterminate]) (val ++ [.indeterminate]) ents =
      some ⟨(count + (regulars ents).length : Nat),
        some (key ++ (regulars ents).map (fun ent => CharPtr.str ent.name) ++ [.null]),
        some (val ++ (regulars ents).map DirEnt.read ++ [.null])⟩ := by
  induction ents generalizing count key val with
  | nil =>
    unfold readEntries
    rw [List.set_append_right _ _ (Nat.le_of_eq hkey), List.set_append_right _ _ (Nat.le_of_eq hval), hkey, hval,
      Nat.sub_self]
    simp [regulars]
  | cons ent ents ih =>
    obtain ⟨hent, hents⟩ := List.forall_mem_cons.mp hstat
    unfold readEntries
    cases hreg : ent.isReg with
    | none => exact absurd hreg hent
    | some reg =>
      cases reg with
      | false =>
        rw [regulars_other hreg] at hroom ⊢
        exact ih hkey hval hents hroom
      | true =>
        rw [regulars_file hreg, List.length_cons] at hroom
        rw [regulars_file hreg]
        dsimp only
        rw [if_neg (by omega), set_growArray hkey, set_growArray hval,
          ih (by simp [hkey]) (by simp [hval]) hents (by omega)]
        simp only [List.length_cons, List.map_cons, List.append_assoc, List.singleton_append]
        rw [Nat.add_right_comm, Nat.add_assoc]

/-- Where `stat` fails, the arrays are left with an indeterminate element behind the files. -/
theorem readEntries_failed {key : List Bytes} {val : List CharPtr} {r : SectionDir} (hkey : key.length = count)
    (hval : val.length = count) (hstat : ∃ ent ∈ ents, ent.isReg = none)
    (hr : readEntries count (key.map CharPtr.str ++ [.indeterminate]) (val ++ [.indeterminate]) ents = some r) :
    r.ret = -1 ∧ ∃ names : List Bytes, r.key = some (names.map CharPtr.str ++ [.indeterminate]) := by
  induction ents generalizing count key val with
  | nil =>
    obtain ⟨ent, hent, -⟩ := hstat
    cases hent
  | cons ent ents ih =>
    unfold readEntries at hr
    cases hreg : ent.isReg with
    | none =>
      rw [hreg] at hr
      cases hr
      exact ⟨rfl, key, rfl⟩
    | some reg =>
      have hents : ∃ ent ∈ ents, ent.isReg = none := by
        obtain ⟨ent', hent', hnone⟩ := hstat
        rcases List.mem_cons.mp hent' with rfl | hent'
        · rw [hnone] at hreg
          cases hreg
        · exact ⟨ent', hent', hnone⟩
      rw [hreg] at hr
      cases reg with
      | false => exact ih hkey hval hents hr
      | true =>
        dsimp only at hr
        split at hr
        · cases hr
        · rw [set_growArray ((List.length_map _).trans hkey), set_growArray hval] at hr
          have hnames : key.map CharPtr.str ++ [.str ent.name] = (key ++ [ent.name]).map CharPtr.str := by simp
          rw [hnames] at hr
          exact ih (by simp [hkey]) (by simp [hval]) hents hr

/-- Too many files overflow the count. -/
theorem readEntries_overflow {key val : List CharPtr} (hstat : ∀ ent ∈ ents, ent.isReg ≠ none)
    (hcount : count < intMax) (hroom : intMax ≤ count + (regulars ents).length) :
    readEntries count key val ents = none := by
  induction ents generalizing count key val with
  | nil =>
    simp only [regulars, List.filter_nil, List.length_nil] at hroom
    omega
  | cons ent ents ih =>
    obtain ⟨hent, hents⟩ := List.forall_mem_cons.mp hstat
    unfold readEntries
    cases hreg : ent.isReg with
    | none => exact absurd hreg hent
    | some reg =>
      cases reg with
      | false =>
        rw [regulars_other hreg] at hroom
        exact ih hents hcount hroom
      | true =>
        rw [regulars_file hreg, List.length_cons] at hroom
        dsimp only
        split
        · rfl
        · exact ih hents (by omega) (by omega)

/-! ### Freeing and reading -/

theorem freesStrings_iff {strv : List CharPtr} : freesStrings strv = true ↔ Terminated strv := by
  unfold Terminated
  induction strv with
  | nil => exact iff_of_false (by simp [freesStrings]) (by simp)
  | cons p strv ih =>
    cases p with
    | indeterminate =>
      refine iff_of_false (by simp [freesStrings]) ?_
      rintro ⟨ss, rest, h⟩
      cases ss <;> cases h
    | null => exact iff_of_true rfl ⟨[], strv, rfl⟩
    | str s =>
      unfold freesStrings
      rw [ih]
      constructor
      · rintro ⟨ss, rest, rfl⟩
        exact ⟨s :: ss, rest, rfl⟩
      · rintro ⟨ss, rest, h⟩
        cases ss with
        | nil => cases h
        | cons s' ss =>
          rw [List.map_cons, List.cons_append, List.cons.injEq] at h
          exact ⟨ss, rest, h.2⟩

theorem strfreev_iff {strv : Option (List CharPtr)} : strfreev strv = true ↔ ∀ a ∈ strv, Terminated a := by
  cases strv with
  | none => exact iff_of_true rfl fun a ha => by cases ha
  | some a => simp [strfreev, freesStrings_iff]

theorem not_terminated {ss : List Bytes} : ¬ Terminated (ss.map CharPtr.str ++ [.indeterminate]) := by
  rw [← freesStrings_iff]
  induction ss with
  | nil => exact Bool.false_ne_true
  | cons s ss ih => exact ih

/-- The loops read the pairs that were stored. -/
theorem readPairs_eq (pairs : List (Bytes × Bytes)) (rest rest' : List CharPtr) :
    readPairs (pairs.map (fun p => CharPtr.str p.1) ++ rest) (pairs.map (fun p => CharPtr.str p.2) ++ rest')
      pairs.length = some pairs := by
  induction pairs with
  | nil => rfl
  | cons p pairs ih =>
    unfold readPairs at ih ⊢
    rw [List.length_cons, List.range_succ_eq_map, List.mapM_cons, List.mapM_map]
    simp only [List.map_cons, List.cons_append, List.getElem?_cons_zero, Function.comp_def, List.getElem?_cons_succ]
    rw [ih]
    rfl

theorem SectionDir.Shaped.usable {r : SectionDir} (h : r.Shaped dir) : r.Usable dir := by
  refine ⟨h, ?_, ?_, ?_⟩
  · rw [strfreev_iff]
    cases h with
    | listed ents pairs hdir hpairs =>
      rintro _ ⟨rfl⟩
      exact ⟨pairs.map Prod.fst, [], by rw [List.map_map]; rfl⟩
    | failed key val hkey hval => exact hkey
  · rw [strfreev_iff]
    cases h with
    | listed ents pairs hdir hpairs =>
      rintro _ ⟨rfl⟩
      exact ⟨pairs.map Prod.snd, [], by rw [List.map_map]; rfl⟩
    | failed key val hkey hval => exact hval
  · unfold SectionDir.pairs
    cases h with
    | listed ents pairs hdir hpairs =>
      rw [Option.getD_some, Option.getD_some, Int.toNat_natCast, readPairs_eq]
      exact Option.some_ne_none _
    | failed key val hkey hval => exact Option.some_ne_none []

/-! ### When the directory can be read -/

/-- The names of the files, and what is in them. -/
def sectionEntries (ents : List DirEnt) : List (Bytes × Bytes) :=
  (regulars ents).map fun ent => (ent.name, ent.content.getD [])

theorem ReadableDir.entries (h : ReadableDir ents) : (regulars ents).map (fun ent => (ent.name, ent.content)) =
    (sectionEntries ents).map fun p => (p.1, some p.2) := by
  unfold sectionEntries
  rw [List.map_map]
  refine List.map_congr_left fun ent hent => ?_
  obtain ⟨hmem, hreg⟩ := List.mem_filter.mp hent
  obtain ⟨content, hcontent⟩ := Option.ne_none_iff_exists'.mp ((h.1 ent hmem).2 (of_decide_eq_true hreg))
  show (ent.name, ent.content) = (ent.name, some (ent.content.getD []))
  rw [hcontent, Option.getD_some]

theorem readFullSectionDir_listed (hstat : ∀ ent ∈ ents, ent.isReg ≠ none) (hroom : (regulars ents).length < intMax) :
    readFullSectionDir (some ents) = some ⟨(regulars ents).length,
      some ((regulars ents).map (fun ent => CharPtr.str ent.name) ++ [.null]),
      some ((regulars ents).map DirEnt.read ++ [.null])⟩ := by
  have hlisted := readEntries_listed (@List.length_nil CharPtr) (@List.length_nil CharPtr) hstat (by omega)
  rwa [Nat.zero_add] at hlisted

/-- Where everything can be read, the files are listed. -/
theorem ReadableDir.listed (h : ReadableDir ents) : readFullSectionDir (some ents) =
    some ⟨(sectionEntries ents).length, some ((sectionEntries ents).map (fun p => CharPtr.str p.1) ++ [.null]),
      some ((sectionEntries ents).map (fun p => CharPtr.str p.2) ++ [.null])⟩ := by
  have hread : (regulars ents).map DirEnt.read = (sectionEntries ents).map fun p => CharPtr.str p.2 := by
    have hsnd := congrArg (List.map fun p : Bytes × Option Bytes => p.2.elim CharPtr.null .str) h.entries
    rwa [List.map_map, List.map_map] at hsnd
  have hname : (regulars ents).map (fun ent => CharPtr.str ent.name) =
      (sectionEntries ents).map fun p => CharPtr.str p.1 := by
    unfold sectionEntries
    rw [List.map_map]
    rfl
  rw [readFullSectionDir_listed (fun ent hent => (h.1 ent hent).1) h.2, hread, hname]
  unfold sectionEntries
  rw [List.length_map]

/-- The callers read the names and the contents. -/
theorem ReadableDir.pairs (h : ReadableDir ents) :
    (readFullSectionDir (some ents)).bind SectionDir.pairs = some (sectionEntries ents) := by
  rw [h.listed, Option.bind_some]
  unfold SectionDir.pairs
  rw [Option.getD_some, Option.getD_some, Int.toNat_natCast, readPairs_eq]

theorem SectionDir.Usable.readable {r : SectionDir} (h : r.Usable (some ents))
    (hr : readFullSectionDir (some ents) = some r) : ReadableDir ents := by
  have hstat : ∀ ent ∈ ents, ent.isReg ≠ none := by
    by_contra hno
    push Not at hno
    obtain ⟨-, names, hkey⟩ := readEntries_failed (@List.length_nil Bytes) (@List.length_nil CharPtr) hno hr
    exact not_terminated (strfreev_iff.mp h.key _ hkey)
  have hroom : (regulars ents).length < intMax := by
    by_contra hno
    have hnone : readFullSectionDir (some ents) = none := readEntries_overflow hstat (by decide) (by omega)
    exact Option.some_ne_none r (hr.symm.trans hnone)
  refine ⟨fun ent hent => ⟨hstat ent hent, fun hreg hcontent => ?_⟩, hroom⟩
  have hret : 0 ≤ r.ret := by
    cases hr.symm.trans (readFullSectionDir_listed hstat hroom)
    exact Int.natCast_nonneg _
  cases h.shaped with
  | failed =>
    have hret : (0 : Int) ≤ -1 := hret
    omega
  | listed ents' pairs hdir hpairs =>
    cases hdir
    have hmem : (ent.name, ent.content) ∈ (regulars ents).map fun ent => (ent.name, ent.content) :=
      List.mem_map_of_mem (List.mem_filter.mpr ⟨hent, decide_eq_true hreg⟩)
    rw [hpairs] at hmem
    obtain ⟨p, -, hp⟩ := List.mem_map.mp hmem
    have hp : some p.2 = ent.content := congrArg Prod.snd hp
    rw [hcontent] at hp
    cases hp

/-- What is returned for a directory is what the callers need exactly if nothing fails in it. -/
theorem readFullSectionDir_usable_iff (dir : Option (List DirEnt)) :
    (∃ r, readFullSectionDir dir = some r ∧ r.Usable dir) ↔ ∀ ents ∈ dir, ReadableDir ents := by
  constructor
  · rintro ⟨r, hr, h⟩ ents rfl
    exact h.readable hr
  · intro h
    cases dir with
    | none => exact ⟨_, rfl, (SectionDir.Shaped.failed none none (by simp) (by simp)).usable⟩
    | some ents =>
      have hents := h ents rfl
      exact ⟨_, hents.listed, (SectionDir.Shaped.listed ents _ rfl hents.entries).usable⟩

/-- A link behind a file is dangling: the arrays are not terminated. -/
theorem readFullSectionDir_dangling :
    let dir := some [⟨ascii ['a'], some true, some (ascii ['1'])⟩, ⟨ascii ['b'], none, none⟩]
    readFullSectionDir dir = some ⟨-1, some [.str (ascii ['a']), .indeterminate],
      some [.str (ascii ['1']), .indeterminate]⟩ ∧
      ¬ ∃ r, readFullSectionDir dir = some r ∧ r.Usable dir := by
  refine ⟨by decide, ?_⟩
  rintro ⟨r, hr, h⟩
  obtain ⟨hstat, -⟩ := h.readable hr
  exact (hstat _ (.tail _ (.head _))).1 rfl

end Waynergy
