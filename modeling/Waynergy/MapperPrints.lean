import Waynergy.MapperLoad
import Mathlib.Data.List.Nodup

/-!
# From the mapper to the client (`mapper.c`, `wl_input.c`)

What is stored in the mapper is printed, and loaded by the client, but for the key at the maximum, and for codes that are
too large for an `int`.
-/

namespace Waynergy
open Lib
namespace Mapper

/-- The keys that are answered with another code, and so have a line in the `[raw-keymap]` section. -/
def lined (km : LocalKeymap) (answers : List Answer) : List (Nat × Nat) :=
  (answered km answers).filter fun p => p.2 ≠ p.1

/-- All codes that are stored are printed, and those of the `[raw-keymap]` section are loaded. -/
structure Prints (km : LocalKeymap) (answers : List Answer) : Prop where
  raw : ∃ body, printed km ⟨none, false⟩ answers = rawHeader :: body ∧
    body.Perm ((lined km answers).map fun p => rawLine p.2 p.1)
  xkb : ∀ secName, ∃ pairs, pairs.Perm (answered km answers) ∧
    printed km ⟨some secName, false⟩ answers = xkbSection km secName pairs
  loads : ((answered km answers).map Prod.snd).Nodup → ∀ (h : Heap) (conf : Conf) (t : KeyTables),
    (∀ n, h.ok n = true) → conf.ini = some (Ini.load (some (printed km ⟨none, false⟩ answers).flatten)) →
    offsetSum conf = 0 → ∀ p ∈ answered km answers,
      wp (loadRawKeymap h conf km.max) (fun _ t' => t'.rawKeymap[p.2]? = some (p.1 : Int)) (fun _ _ => False) t

variable {km : LocalKeymap} {answers : List Answer} {pairs : List (Nat × Nat)} {p : Nat × Nat}

/-! ### The keys that are answered -/

theorem mem_answered : p ∈ answered km answers ↔
    km.min ≤ p.1 ∧ p.1 ≤ km.max ∧ answerFor km answers p.1 = some p.2 := by
  have hle := km.min_le
  unfold answered
  rw [mem_answeredIn, List.mem_range'_1]
  constructor
  · rintro ⟨⟨hlow, hhigh⟩, hcode⟩
    exact ⟨hlow, by omega, hcode⟩
  · rintro ⟨hlow, hhigh, hcode⟩
    exact ⟨⟨hlow, by omega⟩, hcode⟩

theorem answerFor_lt {k code : Nat} (h : answerFor km answers k = some code) : code < 2 ^ 32 := by
  unfold answerFor at h
  split at h
  · obtain ⟨a, -, ha⟩ := Option.bind_eq_some_iff.mp h
    cases a with
    | store code' =>
      cases ha
      exact code'.toNat_lt
    | skip => cases ha
  · cases h

/-- Keys and codes are numbers of 32 bits. -/
theorem answered_small (hp : p ∈ answered km answers) : p.1 < 2 ^ 32 ∧ p.2 < 2 ^ 32 := by
  obtain ⟨-, hhigh, hcode⟩ := mem_answered.mp hp
  have hmax : km.max ≤ 0xFFFFFFFF - 1 := km.max_le
  exact ⟨by omega, answerFor_lt hcode⟩

/-- The loops reach all keys that are answered, if the one at the maximum is not. -/
theorem answered_eq_looped (h : ∀ code, (km.max, code) ∉ answered km answers) :
    answered km answers = answeredIn km answers (looped km) := by
  have hlast : answeredIn km answers [km.max] = [] := List.eq_nil_iff_forall_not_mem.mpr fun p hp => by
    obtain ⟨hkey, hcode⟩ := mem_answeredIn.mp hp
    have hkey : p.1 = km.max := List.mem_singleton.mp hkey
    refine h p.2 (mem_answered.mpr ⟨km.min_le, Nat.le_refl _, ?_⟩)
    rw [← hkey]
    exact hcode
  rw [answered_eq, hlast, List.append_nil]

/-! ### The key at the maximum -/

theorem length_xkbSection (secName : Bytes) :
    (xkbSection km secName pairs).length = if pairs = [] then 0 else pairs.length + 4 := by
  unfold xkbSection
  split
  · rfl
  · unfold xkbHeader
    simp only [List.length_append, List.length_cons, List.length_nil, List.length_map]
    omega

/-- A code that is stored for the key at the maximum is not printed. -/
theorem Prints.not_max (h : Prints km answers) (code : Nat) : (km.max, code) ∉ answered km answers := by
  intro hmem
  obtain ⟨pairs, hperm, hprinted⟩ := h.xkb []
  have hlast : (km.max, code) ∈ answeredIn km answers [km.max] := by
    obtain ⟨-, -, hcode⟩ := mem_answered.mp hmem
    exact mem_answeredIn.mpr ⟨List.mem_singleton_self _, hcode⟩
  have hone := List.length_pos_of_mem hlast
  have hpairs : pairs.length = (answeredIn km answers (looped km)).length + (answeredIn km answers [km.max]).length := by
    rw [hperm.length_eq, answered_eq, List.length_append]
  have hne : pairs ≠ [] := List.ne_nil_of_length_pos (by omega)
  rw [printed_xkb] at hprinted
  have hlen := congrArg List.length hprinted
  rw [length_xkbSection, length_xkbSection, if_neg hne] at hlen
  split at hlen <;> omega

/-! ### Without an offset -/

theorem not_startsAs_decimal {rest : Bytes} (n : Nat) {c : UInt8} {cs : Bytes} (hc : ¬ IsDigit (toLower c)) :
    ¬ StartsAs (c :: cs) (decimal n ++ rest) := by
  intro h
  obtain ⟨d, ds, hd, hdigit⟩ := decimal_cons n
  have hsame : toLower d = d := by
    unfold toLower
    unfold IsDigit at hdigit
    rw [if_neg (by omega)]
  rw [startsAs_iff, hd, List.cons_append, List.map_cons, List.map_cons, List.cons_prefix_cons, hsame] at h
  exact hc (h.1 ▸ hdigit)

/-- The lines are no setting of an offset. -/
theorem offsetSum_rawIni : offsetSum ⟨some (rawIni pairs), fun _ => none, fun _ => none⟩ = 0 := by
  have hfind : (rawIni pairs).findSection (upTo 47 (ascii "raw-keymap/offset".toList)) = some 1 := by
    show [[], ascii "raw-keymap".toList].findIdx? _ = some 1
    decide
  have hnone : (rawIni pairs).findValue 1 (((ascii "raw-keymap/offset".toList).dropWhile (· ≠ 47)).drop 1) = none := by
    unfold Ini.findValue
    rw [List.find?_eq_none.mpr, Option.map_none]
    intro q hq
    obtain ⟨p, -, rfl⟩ := List.mem_map.mp (List.mem_filter.mp hq).1
    rw [decide_eq_true_eq]
    exact @not_startsAs_decimal [32] p.2 111 (ascii "ffset".toList) (by decide)
  have hglobal : (rawIni pairs).findValue 0 (ascii "xkb_key_offset".toList) = none := by
    have hempty : (rawIni pairs).ofSection 0 = [] := by
      refine List.filter_eq_nil_iff.mpr fun q hq => ?_
      obtain ⟨p, -, rfl⟩ := List.mem_map.mp hq
      exact Bool.false_ne_true
    unfold Ini.findValue
    rw [hempty]
    rfl
  unfold offsetSum Conf.configTryLong Conf.configReadFile Conf.tryReadIni
  dsimp only
  rw [if_pos (by decide), if_neg (by decide), hfind]
  dsimp only
  rw [hnone, hglobal]
  rfl

/-! ### All of it -/

theorem mem_lined : p ∈ lined km answers ↔ p ∈ answered km answers ∧ p.2 ≠ p.1 := by
  unfold lined
  rw [List.mem_filter, decide_eq_true_eq]

theorem lined_small : ∀ p ∈ lined km answers, p.1 < 2 ^ 32 ∧ p.2 < 2 ^ 32 :=
  fun _ hp => answered_small (mem_lined.mp hp).1

theorem printed_raw_lined (h : ∀ code, (km.max, code) ∉ answered km answers) :
    printed km ⟨none, false⟩ answers = rawHeader :: (lined km answers).map fun p => rawLine p.2 p.1 := by
  unfold lined
  rw [printed_raw, answered_eq_looped h]

/-- The configuration of the client is made of the lines. -/
theorem load_printed (h : ∀ code, (km.max, code) ∉ answered km answers) :
    Ini.load (some (printed km ⟨none, false⟩ answers).flatten) = rawIni (lined km answers) := by
  rw [printed_raw_lined h, load_lines]

/-- The codes are loaded only if they and the key map are small enough. -/
theorem Prints.fits (h : Prints km answers) (hnodup : ((answered km answers).map Prod.snd).Nodup)
    (hp : p ∈ answered km answers) : km.max < intMax ∧ (p.2 ≠ p.1 → p.2 < intMax) := by
  have hreads : Reads ⟨some (rawIni (lined km answers)), fun _ => none, fun _ => none⟩ (lined km answers) :=
    ⟨rfl, offsetSum_rawIni⟩
  have hloads := h.loads hnodup allowAll _ ⟨[], [], 0⟩ (fun _ => rfl) (congrArg some (load_printed h.not_max).symm)
    offsetSum_rawIni p hp
  obtain ⟨_, _, -, -, hmax, hcodes⟩ := exists_ok_of_wp
    (wp_mono (wp_and hloads (hreads.needs km.max_le lined_small)) (fun _ _ => id) fun _ _ => And.left)
  exact ⟨hmax, fun hne => hcodes p (mem_lined.mpr ⟨hp, hne⟩)⟩

/-- What the lines map a code to. -/
theorem lastFor_lined (hnodup : ((answered km answers).map Prod.snd).Nodup) (hp : p ∈ answered km answers) :
    p.2 ≤ largestKey km.max (rawEntries (lined km answers)) ∧
      (lastFor p.2 (rawEntries (lined km answers))).getD p.2 = p.1 := by
  by_cases hne : p.2 = p.1
  · -- the code is its key: it has no line, and no other key has that code
    have hnone : lastFor p.2 (rawEntries (lined km answers)) = none := by
      refine lastFor_rawEntries_none lined_small fun q hq heq => ?_
      obtain ⟨hq, hqne⟩ := mem_lined.mp hq
      obtain rfl : q = p := List.inj_on_of_nodup_map hnodup hq hp heq
      exact hqne hne
    have hle : p.2 ≤ km.max := hne ▸ (mem_answered.mp hp).2.1
    rw [hnone, Option.getD_none, hne]
    exact ⟨Nat.le_trans (hne ▸ hle) le_largestKey, rfl⟩
  · have hmem : p ∈ lined km answers := mem_lined.mpr ⟨hp, hne⟩
    have hentry : (decimal p.2 ++ [32], decimal p.1) ∈ rawEntries (lined km answers) := List.mem_map.mpr ⟨p, hmem, rfl⟩
    have hle : p.2 ≤ largestKey km.max (rawEntries (lined km answers)) :=
      le_largestKey_of_mem (i := p.2) hentry (numeric_entry (lined_small p hmem)).1
    have hsub : ((lined km answers).map Prod.snd).Nodup := hnodup.sublist (List.filter_sublist.map _)
    rw [lastFor_rawEntries lined_small hsub hmem, Option.getD_some]
    exact ⟨hle, rfl⟩

/-- Everything that is stored is printed and loaded exactly if no code is stored for the key at the maximum and, where
the codes are different, the codes that are printed are small enough and the key map is as well. -/
theorem prints_iff (km : LocalKeymap) (answers : List Answer) : Prints km answers ↔
    (∀ code, (km.max, code) ∉ answered km answers) ∧
    (((answered km answers).map Prod.snd).Nodup → ∀ p ∈ answered km answers,
      km.max < intMax ∧ (p.2 ≠ p.1 → p.2 < intMax)) := by
  constructor
  · exact fun h => ⟨h.not_max, fun hnodup p hp => h.fits hnodup hp⟩
  rintro ⟨hall, hfits⟩
  constructor
  · exact ⟨_, printed_raw_lined hall, List.Perm.refl _⟩
  · intro secName
    refine ⟨_, List.Perm.refl _, ?_⟩
    rw [printed_xkb, answered_eq_looped hall]
  · intro hnodup h conf t hgrants hconf hoffset p hp
    rw [load_printed hall] at hconf
    have hint : ∀ q ∈ lined km answers, q.1 < intMax ∧ q.2 < intMax := by
      intro q hq
      obtain ⟨hq, hne⟩ := mem_lined.mp hq
      obtain ⟨hmax, hcode⟩ := hfits hnodup q hq
      exact ⟨Nat.lt_of_le_of_lt (mem_answered.mp hq).2.1 hmax, hcode hne⟩
    have hreads : Reads conf (lined km answers) := ⟨hconf, hoffset⟩
    obtain ⟨hle, hlast⟩ := lastFor_lined hnodup hp
    refine wp_mono (hreads.load hgrants (hfits hnodup p hp).1 hint) (fun _ t' hget => ?_) fun _ _ => id
    rw [hget, if_pos hle, hlast]

/-- The code 30 is stored for the last of two keys. -/
theorem last_not_printed : (9, 30) ∈ answered .sample [.skip, .store 30] ∧ ¬ Prints .sample [.skip, .store 30] := by
  have hmem : (9, 30) ∈ answered .sample [.skip, .store 30] := by decide
  exact ⟨hmem, fun h => h.not_max 30 hmem⟩

end Mapper
end Waynergy
