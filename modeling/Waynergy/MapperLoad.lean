import Waynergy.IniLoad
import Waynergy.MapperOutput

/-!
# Loading what the mapper printed (`mapper.c`, `wl_input.c`)

The client reads the `[raw-keymap]` section of the mapper as its configuration.
-/

namespace Waynergy
open Lib
namespace Mapper

/-! ### The section as an INI -/

/-- The INI that the lines for some keys and codes are. -/
def rawIni (pairs : List (Nat × Nat)) : Ini where
  sections := [[], ascii "raw-keymap".toList]
  properties := pairs.map fun p => ⟨1, decimal p.2 ++ [32], decimal p.1⟩

def rawEntries (pairs : List (Nat × Nat)) : Entries := pairs.map fun p => (decimal p.2 ++ [32], decimal p.1)

variable {pairs : List (Nat × Nat)} {p : Nat × Nat} {n : Nat}

theorem forall_decimal {P : UInt8 → Prop} (hP : ∀ b, IsDigit b → P b) (n : Nat) : ∀ b ∈ decimal n, P b :=
  fun b hb => hP b ((numeral_decimal n).digits b hb)

theorem digit_not_blank {b : UInt8} (h : IsDigit b) : ¬ Blank b = true := by
  unfold Blank
  unfold IsDigit at h
  simp only [decide_eq_true_eq]
  omega

theorem digit_ne {b c : UInt8} (h : IsDigit b) (hc : ¬ IsDigit c) : b ≠ c := fun heq => hc (heq ▸ h)

/-- The value is the number that the line ends with. -/
theorem loadValue_line (ini : Ini) (s : Nat) (name : Bytes) (key : Nat) (more : Bytes) :
    ini.loadValue s name (32 :: (decimal key ++ 10 :: more)) = (ini.propertyAdd s name (decimal key), 10 :: more) := by
  have hne : decimal key ≠ [] := (numeral_decimal key).ne_nil
  have hstart : (32 :: (decimal key ++ 10 :: more)).dropWhile (fun b => Blank b ∧ b ≠ 10) = decimal key ++ 10 :: more := by
    rw [List.dropWhile_cons_of_pos (by decide)]
    obtain ⟨d, ds, hd, hdigit⟩ := decimal_cons key
    rw [hd]
    refine List.dropWhile_cons_of_neg ?_
    simp [digit_not_blank hdigit]
  have hline : (decimal key ++ 10 :: more).takeWhile (· ≠ 10) = decimal key := by
    rw [List.takeWhile_append_of_pos (forall_decimal (fun b hb => by simpa using digit_ne hb (by decide)) key)]
    simp
  have htrim : ((decimal key).reverse.dropWhile Blank).reverse = decimal key := by
    rw [decimal_eq, List.reverse_append, List.reverse_singleton, List.singleton_append, List.dropWhile_cons_of_neg
      (digit_not_blank (isDigit_digit key)), List.reverse_cons, List.reverse_reverse]
  unfold Ini.loadValue ofLength
  dsimp only
  rw [hstart, hline, htrim, if_neg hne, if_neg hne, List.drop_left]

/-- One line of the section is one property. -/
theorem loadFrom_line (ini : Ini) (s code key : Nat) (more : Bytes) :
    ini.loadFrom s (10 :: (rawLine code key ++ more)) =
      (ini.propertyAdd s (decimal code ++ [32]) (decimal key)).loadFrom s (10 :: more) := by
  have hline : rawLine code key ++ more = decimal code ++ (32 :: 61 :: 32 :: (decimal key ++ 10 :: more)) := by
    unfold rawLine
    simp only [List.append_assoc]
    rfl
  have hall := forall_decimal (P := fun b => decide (b ≠ 61 ∧ b ≠ 10) = true)
    (fun b hb => decide_eq_true ⟨digit_ne hb (by decide), digit_ne hb (by decide)⟩) code
  obtain ⟨d, ds, hd, hdigit⟩ := decimal_cons code
  have hskip : (10 :: (rawLine code key ++ more)).dropWhile Blank =
      d :: (ds ++ (32 :: 61 :: 32 :: (decimal key ++ 10 :: more))) := by
    rw [List.dropWhile_cons_of_pos (by decide), hline, hd, List.cons_append]
    exact List.dropWhile_cons_of_neg (digit_not_blank hdigit)
  have hname : (d :: (ds ++ (32 :: 61 :: 32 :: (decimal key ++ 10 :: more)))).takeWhile
      (fun b => b ≠ 61 ∧ b ≠ 10) = decimal code ++ [32] := by
    rw [← List.cons_append, ← hd, List.takeWhile_append_of_pos hall]
    rfl
  have hrest : (d :: (ds ++ (32 :: 61 :: 32 :: (decimal key ++ 10 :: more)))).dropWhile
      (fun b => b ≠ 61 ∧ b ≠ 10) = 61 :: 32 :: (decimal key ++ 10 :: more) := by
    rw [← List.cons_append, ← hd, List.dropWhile_append_of_pos hall]
    rfl
  have hone : ini.loadOne s d (ds ++ (32 :: 61 :: 32 :: (decimal key ++ 10 :: more))) =
      (ini.propertyAdd s (decimal code ++ [32]) (decimal key), s, 10 :: more) := by
    unfold Ini.loadOne
    rw [if_neg (digit_ne hdigit (by decide)), if_neg (digit_ne hdigit (by decide)), hrest, hname]
    unfold ofLength
    dsimp only
    rw [if_neg (List.append_ne_nil_of_right_ne_nil _ (List.cons_ne_nil _ _))]
    show ((ini.loadValue s _ (32 :: (decimal key ++ 10 :: more))).1, s, (ini.loadValue s _ _).2) = _
    rw [loadValue_line]
  rw [Ini.loadFrom_cons ini s hskip, hone]

theorem loadFrom_lines (ini : Ini) (s : Nat) :
    ini.loadFrom s (10 :: (pairs.map fun p => rawLine p.2 p.1).flatten) =
      { ini with properties := ini.properties ++ pairs.map fun p => ⟨s, decimal p.2 ++ [32], decimal p.1⟩ } := by
  induction pairs generalizing ini with
  | nil =>
    rw [Ini.loadFrom_nil ini s rfl, List.map_nil, List.append_nil]
  | cons p pairs ih =>
    rw [List.map_cons, List.flatten_cons, loadFrom_line, ih, List.map_cons]
    unfold Ini.propertyAdd
    rw [List.append_assoc, List.singleton_append]

/-- There is no NUL in the section. -/
theorem cString_lines : cString (rawHeader :: pairs.map fun p => rawLine p.2 p.1).flatten =
    (rawHeader :: pairs.map fun p => rawLine p.2 p.1).flatten := by
  have hdecimal : ∀ n, 0 ∉ decimal n := fun n h => absurd rfl (forall_decimal (fun b hb => digit_ne hb (by decide)) n 0 h)
  refine upTo_eq ?_
  rw [List.flatten_cons, List.mem_append, not_or]
  refine ⟨by decide, fun hmem => ?_⟩
  obtain ⟨_, hline, hzero⟩ := List.mem_flatten.mp hmem
  obtain ⟨p, -, rfl⟩ := List.mem_map.mp hline
  unfold rawLine at hzero
  simp only [List.mem_append] at hzero
  rcases hzero with hzero | hzero | hzero | hzero
  · exact hdecimal _ hzero
  · revert hzero
    decide
  · exact hdecimal _ hzero
  · revert hzero
    decide

theorem load_lines (pairs : List (Nat × Nat)) :
    Ini.load (some (rawHeader :: pairs.map fun p => rawLine p.2 p.1).flatten) = rawIni pairs := by
  have hheader : ∀ more : Bytes, Ini.create.loadOne 0 91 (ascii "raw-keymap]\n".toList ++ more) =
      (⟨[[], ascii "raw-keymap".toList], []⟩, 1, 10 :: more) := fun _ => rfl
  have hskip : ∀ more : Bytes, (rawHeader ++ more).dropWhile Blank = 91 :: (ascii "raw-keymap]\n".toList ++ more) :=
    fun _ => rfl
  unfold Ini.load
  dsimp only
  rw [cString_lines, List.flatten_cons, Ini.loadFrom_cons _ _ (hskip _), hheader, loadFrom_lines]
  rfl

/-! ### The entries -/

theorem numeric_decimal {rest : Bytes} (hrest : ∀ b ∈ rest.head?, digitValue b = none) (hn : n < 2 ^ 32) :
    numeric (decimal n ++ rest) = some (n : Int) := by
  have hlong : (n : Int) ≤ longMax := by
    unfold longMax
    omega
  unfold numeric
  dsimp only
  rw [strtolBase0_decimal hrest hlong]
  exact if_neg (by simp)

/-- Both numbers of an entry are read. -/
theorem numeric_entry (h : p.1 < 2 ^ 32 ∧ p.2 < 2 ^ 32) :
    numeric (decimal p.2 ++ [32]) = some (p.2 : Int) ∧ numeric (decimal p.1) = some (p.1 : Int) := by
  obtain ⟨hkey, hcode⟩ := h
  have hplain : numeric (decimal p.1 ++ []) = some (p.1 : Int) := numeric_decimal (by simp) hkey
  rw [List.append_nil] at hplain
  exact ⟨numeric_decimal (by simp; decide) hcode, hplain⟩

theorem forall_rawEntries {P : Bytes × Bytes → Prop} :
    (∀ e ∈ rawEntries pairs, P e) ↔ ∀ p ∈ pairs, P (decimal p.2 ++ [32], decimal p.1) := List.forall_mem_map

theorem lastFor_rawEntries_none {k : Nat} (hsmall : ∀ p ∈ pairs, p.1 < 2 ^ 32 ∧ p.2 < 2 ^ 32)
    (hk : ∀ p ∈ pairs, p.2 ≠ k) : lastFor k (rawEntries pairs) = none := by
  refine List.findSome?_eq_none_iff.mpr fun e he => ?_
  obtain ⟨p, hp, rfl⟩ := List.mem_map.mp (List.mem_reverse.mp he)
  refine if_neg fun hcode => hk p hp ?_
  rw [(numeric_entry (hsmall p hp)).1] at hcode
  exact Int.ofNat.inj (Option.some.inj hcode)

/-- A code that is stored once is mapped to its key. -/
theorem lastFor_rawEntries (hsmall : ∀ p ∈ pairs, p.1 < 2 ^ 32 ∧ p.2 < 2 ^ 32) (hnodup : (pairs.map Prod.snd).Nodup)
    (hp : p ∈ pairs) : lastFor p.2 (rawEntries pairs) = some (p.1 : Int) := by
  induction pairs with
  | nil => cases hp
  | cons q pairs ih =>
    obtain ⟨hq, hrest⟩ := List.forall_mem_cons.mp hsmall
    rw [List.map_cons, List.nodup_cons] at hnodup
    obtain ⟨hnew, hnodup⟩ := hnodup
    have hcons : rawEntries (q :: pairs) = (decimal q.2 ++ [32], decimal q.1) :: rawEntries pairs := rfl
    obtain ⟨hcode, hkey⟩ := numeric_entry hq
    rw [hcons, lastFor_cons, hcode, hkey]
    rcases List.mem_cons.mp hp with rfl | hp
    · rw [lastFor_rawEntries_none hrest fun r hr heq => hnew (List.mem_map.mpr ⟨r, hr, heq⟩), if_pos rfl]
      rfl
    · rw [ih hrest hnodup hp]
      rfl

/-! ### Loading -/

/-- The configuration has the lines as its INI, and no offset. -/
structure Reads (conf : Conf) (pairs : List (Nat × Nat)) : Prop where
  ini : conf.ini = some (rawIni pairs)
  offset : offsetSum conf = 0

section
variable {conf : Conf} {h : Heap} {max : Nat} {t : KeyTables}

theorem Reads.entries (hreads : Reads conf pairs) : sectionOf conf "raw-keymap" = rawEntries pairs := by
  have hfind : (rawIni pairs).findSection (ascii "raw-keymap".toList) = some 1 := by
    show [[], ascii "raw-keymap".toList].findIdx? _ = some 1
    decide
  have hall : (rawIni pairs).ofSection 1 = (rawIni pairs).properties := by
    refine List.filter_eq_self.mpr fun q hq => ?_
    obtain ⟨p, -, rfl⟩ := List.mem_map.mp hq
    rfl
  unfold sectionOf Conf.configReadFullSection Conf.readFullSectionIni
  rw [hreads.ini]
  dsimp only
  rw [hfind, Option.map_some, hall]
  unfold rawIni rawEntries
  dsimp only
  rw [Option.getD_some, List.map_map]
  rfl

theorem Reads.ids (hreads : Reads conf pairs) (hdir : ∀ name, conf.dir name = none) : sectionOf conf "id-keymap" = [] := by
  have hfind : (rawIni pairs).findSection (ascii "id-keymap".toList) = none := by
    show [[], ascii "raw-keymap".toList].findIdx? _ = none
    decide
  unfold sectionOf Conf.configReadFullSection Conf.readFullSectionIni
  rw [hreads.ini]
  dsimp only
  rw [hfind, Option.map_none, hdir]
  rfl

theorem Reads.rawOffset (hreads : Reads conf pairs) : rawOffset conf = 0 := by
  unfold Waynergy.rawOffset
  rw [hreads.offset]
  rfl

theorem Reads.explicitOffset (hreads : Reads conf pairs) : explicitOffset conf = 0 := by
  unfold Waynergy.explicitOffset
  rw [hreads.rawOffset, ite_self]

/-- The directories are not looked at. -/
theorem Reads.withoutDir (hreads : Reads conf pairs) : Reads { conf with dir := fun _ => none } pairs ∧
    loadRawKeymap h conf max = loadRawKeymap h { conf with dir := fun _ => none } max := by
  have hreads' : Reads { conf with dir := fun _ => none } pairs := ⟨hreads.ini, hreads.offset⟩
  refine ⟨hreads', ?_⟩
  unfold loadRawKeymap
  rw [hreads.entries, hreads'.entries]
  rfl

theorem ranged_rawEntries (hsmall : ∀ p ∈ pairs, p.1 < intMax ∧ p.2 < intMax) : Ranged (rawEntries pairs) := by
  refine forall_rawEntries.mpr fun p hp => ?_
  obtain ⟨hkey, hcode⟩ := hsmall p hp
  have hmax : intMax = 2 ^ 31 - 1 := rfl
  obtain ⟨hnum, hnum'⟩ := numeric_entry (p := p) ⟨by omega, by omega⟩
  rw [hnum, hnum']
  rintro _ ⟨⟩
  refine ⟨Int.natCast_nonneg _, Int.ofNat_lt.mpr hcode, ?_⟩
  rintro _ ⟨⟩
  unfold FitsInt intMax
  omega

/-- Small codes are mapped as the lines say, and the others to themselves. -/
theorem Reads.load (hreads : Reads conf pairs) (hgrants : ∀ n, h.ok n = true) (hmax : max < intMax)
    (hsmall : ∀ p ∈ pairs, p.1 < intMax ∧ p.2 < intMax) : wp (loadRawKeymap h conf max)
      (fun _ t' => ∀ k : Nat, t'.rawKeymap[k]? =
        if k ≤ largestKey max (rawEntries pairs) then some ((lastFor k (rawEntries pairs)).getD k) else none)
      (fun _ _ => False) t := by
  have hranged := ranged_rawEntries hsmall
  obtain ⟨hreads', hsame⟩ : Reads { conf with dir := fun _ => none } pairs ∧
    loadRawKeymap h conf max = loadRawKeymap h { conf with dir := fun _ => none } max := hreads.withoutDir
  have hentries := hreads'.entries
  have hids := hreads'.ids fun _ => rfl
  have hraw := hreads'.rawOffset
  have hexplicit := hreads'.explicitOffset
  have hlargest : largestKey max (rawEntries pairs) < intMax := largestKey_lt hranged hmax (Nat.le_refl _)
  rw [hsame]
  refine wp_mono (loadRawKeymap_spec ?_ ?_) ?_ ?_
  · unfold intMax at hmax
    unfold xkbKeycodeMax
    omega
  · rw [hentries]
    exact hranged
  · intro _ t' hget k
    rw [hget k, hentries, hraw, hexplicit]
    simp
  · rintro stop _ (⟨-, n, hn⟩ | ⟨-, hsums⟩)
    · rw [hgrants n] at hn
      cases hn
    · refine hsums ⟨?_, ?_, ?_, ?_, ?_⟩
      · rw [hreads'.offset]
        decide
      · rw [hentries]
        exact hlargest
      · rw [hentries, hraw]
        intro k hk
        unfold FitsInt intMax at *
        omega
      · rw [hentries, hexplicit]
        intro e he i hi v hv
        rw [add_zero]
        exact (hranged e he i hi).2.2 v hv
      · rw [hentries, hids, List.append_nil]
        refine forall_rawEntries.mpr fun p hp _ _ v hv => ?_
        obtain ⟨hkey, hcode⟩ := hsmall p hp
        have hmax : intMax = 2 ^ 31 - 1 := rfl
        rw [(numeric_entry (p := p) ⟨by omega, by omega⟩).2] at hv
        cases hv
        exact Int.ofNat_lt.mpr hkey

/-! ### What loading needs -/

/-- A code whose conversion to `int` is negative is no index. -/
theorem secondPass_needs (offset : Int) (es : Entries) : wp (secondPass (storeRaw offset) es)
    (fun _ _ => ∀ e ∈ es, ∀ i v, numeric e.1 = some i → numeric e.2 = some v → 0 ≤ intOfLong i) (fun _ _ => True) t := by
  induction es generalizing t with
  | nil => exact fun _ he => absurd he List.not_mem_nil
  | cons e es ih =>
    unfold secondPass
    rw [wp_bind]
    have hstored : wp (storeEntry (storeRaw offset) e)
        (fun _ _ => ∀ i v, numeric e.1 = some i → numeric e.2 = some v → 0 ≤ intOfLong i) (fun _ _ => True) t := by
      unfold storeEntry
      split
      · rename_i i v hi hv
        unfold storeRaw
        rw [wp_ite]
        split
        · rw [wp_bind, wp_get]
          split
          · trivial
          · rename_i hin
            refine wp_mono (wp_true _ _) (fun _ _ _ i' v' hi' _ => ?_) fun _ _ => id
            rw [hi] at hi'
            cases hi'
            omega
        · trivial
      · rename_i hno
        exact fun i v hi hv => absurd hv (hno i v hi)
    refine wp_mono hstored (fun _ t₁ hhead => ?_) fun _ _ => id
    refine wp_mono ih (fun _ _ htail => ?_) fun _ _ => id
    exact List.forall_mem_cons.mpr ⟨hhead, htail⟩

theorem initKeys_needs (offset : Int) (i n : Nat) :
    wp (initKeys offset i n) (fun _ _ => n = 0 ∨ i + n ≤ intMax) (fun _ _ => True) t := by
  induction n generalizing i with
  | zero => exact .inl rfl
  | succ n ih =>
    unfold initKeys
    rw [wp_ite]
    split
    · rename_i hfits
      rw [wp_bind]
      refine wp_mono (ih (i + 1)) (fun _ _ hn => .inr ?_) fun _ _ => id
      rcases hn with rfl | hn <;> omega
    · trivial

/-- If no code is negative, the table covers them all. -/
theorem firstPass_needs {es : Entries} (hes : ∀ e ∈ es, ∀ i, numeric e.1 = some i → 0 ≤ intOfLong i ∧ intOfLong i ≤ intMax)
    {n : Nat} : wp (firstPass n es) (fun m _ => n ≤ m ∧ ∀ e ∈ es, ∀ i, numeric e.1 = some i → intOfLong i < m)
      (fun _ _ => True) t := by
  induction es generalizing n with
  | nil => exact ⟨Nat.le_refl _, fun _ he => absurd he List.not_mem_nil⟩
  | cons e es ih =>
    obtain ⟨he, hes⟩ := List.forall_mem_cons.mp hes
    have hmax : intMax = 2 ^ 31 - 1 := rfl
    unfold firstPass
    cases hi : numeric e.1 with
    | none =>
      refine wp_mono (ih hes) (fun m _ hm => ⟨hm.1, List.forall_mem_cons.mpr ⟨fun i hi' => ?_, hm.2⟩⟩) fun _ _ => id
      rw [hi] at hi'
      cases hi'
    | some i =>
      obtain ⟨hlow, hhigh⟩ := he i hi
      rw [Option.map_some]
      dsimp only
      rw [sizeOfInt_eq hlow hhigh]
      have hhead : ∀ {m : Nat}, intOfLong i < m → ∀ i', numeric e.1 = some i' → intOfLong i' < m := fun hlt i' hi' => by
        rw [hi] at hi'
        cases hi'
        exact hlt
      split
      · split
        · trivial
        · rw [sizeOfInt_eq (by omega) (by omega)]
          refine wp_mono (ih hes) ?_ fun _ _ => id
          rintro m _ ⟨hle, hcover⟩
          exact ⟨by omega, List.forall_mem_cons.mpr ⟨hhead (by omega), hcover⟩⟩
      · refine wp_mono (ih hes) ?_ fun _ _ => id
        rintro m _ ⟨hle, hcover⟩
        exact ⟨hle, List.forall_mem_cons.mpr ⟨hhead (by omega), hcover⟩⟩

theorem intOfLong_code {n : Nat} (hn : n < 2 ^ 32) (hsign : 0 ≤ intOfLong n) : intOfLong n = n ∧ n ≤ intMax := by
  have hmax : intMax = 2 ^ 31 - 1 := rfl
  unfold intOfLong signed sizeOfInt at *
  split at hsign
  · rw [if_pos (by assumption)]
    omega
  · omega

/-- If the lines are loaded, the table has fewer than `INT_MAX` elements, and so are the codes smaller. -/
theorem Reads.needs (hreads : Reads conf pairs) (hmax : max ≤ xkbKeycodeMax)
    (hsmall : ∀ p ∈ pairs, p.1 < 2 ^ 32 ∧ p.2 < 2 ^ 32) : wp (loadRawKeymap h conf max)
      (fun _ _ => max < intMax ∧ ∀ p ∈ pairs, p.2 < intMax) (fun _ _ => True) t := by
  have hentries := hreads.entries
  have hmod : (max + 1) % 2 ^ 32 = max + 1 := Nat.mod_eq_of_lt (by unfold xkbKeycodeMax at hmax; omega)
  -- the table covers all codes only if the second pass is going to store them all
  have hfirst : wp (firstPass (max + 1) (rawEntries pairs)) (fun m _ => (∀ p ∈ pairs, 0 ≤ intOfLong p.2) →
      max + 1 ≤ m ∧ ∀ p ∈ pairs, p.2 < m) (fun _ _ => True) t := by
    by_cases hsigns : ∀ p ∈ pairs, 0 ≤ intOfLong p.2
    · refine wp_mono (firstPass_needs (forall_rawEntries.mpr fun p hp i hi => ?_)) ?_ fun _ _ => id
      · rw [(numeric_entry (hsmall p hp)).1] at hi
        cases hi
        obtain ⟨heq, hle⟩ := intOfLong_code (hsmall p hp).2 (hsigns p hp)
        exact ⟨hsigns p hp, by omega⟩
      · rintro m _ ⟨hle, hcover⟩ -
        refine ⟨hle, fun p hp => ?_⟩
        have hlt := forall_rawEntries.mp hcover p hp p.2 (numeric_entry (hsmall p hp)).1
        rw [(intOfLong_code (hsmall p hp).2 (hsigns p hp)).1] at hlt
        exact Int.ofNat_lt.mp hlt
    · exact wp_mono (wp_true _ _) (fun _ _ _ h => absurd h hsigns) fun _ _ => id
  unfold loadRawKeymap
  rw [hentries, hmod, wp_bind]
  refine wp_mono hfirst ?_ fun _ _ => id
  intro m _ hcover
  rw [wp_bind]
  refine wp_mono (wp_true _ _) (fun _ _ _ => ?_) fun _ _ => id
  rw [wp_ite]
  split
  · trivial
  rw [wp_bind]
  refine wp_mono (initKeys_needs _ _ _) ?_ fun _ _ => id
  intro keys _ hm
  rw [wp_bind, wp_modify]
  refine wp_mono (secondPass_needs _ _) (fun _ _ hstored => ?_) fun _ _ => id
  obtain ⟨hle, hcodes⟩ := hcover fun p hp => by
    obtain ⟨hcode, hkey⟩ := numeric_entry (hsmall p hp)
    exact forall_rawEntries.mp hstored p hp _ _ hcode hkey
  refine ⟨by omega, fun p hp => ?_⟩
  have hlt := hcodes p hp
  omega

end

end Mapper
end Waynergy
