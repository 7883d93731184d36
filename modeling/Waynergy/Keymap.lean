import Waynergy.ConfigFile
import Waynergy.Input

/-!
# Loading the key maps (`wl_input.c`)

Each key map is loaded in two passes over a section of the configuration: the first finds the size of the table,
the second stores the entries. An entry counts in a pass if `strtol` reads a number where the pass looks for one.
-/

namespace Waynergy
open Lib

/-- The key maps, and the size that the key state is going to have. -/
structure KeyTables where
  rawKeymap : List Int
  idKeymap : List (Option Int)
  keyPressStateLen : Nat

abbrev Layout (α : Type) := Proc Stop KeyTables α

abbrev Entries := List (Bytes × Bytes)

def FitsInt (n : Int) : Prop := -2 ^ 31 ≤ n ∧ n ≤ intMax

instance (n : Int) : Decidable (FitsInt n) := inferInstanceAs (Decidable (_ ∧ _))

/-- The number at the front of a string, if there is one and it is in the range of a `long`. -/
def numeric (s : Bytes) : Option Int :=
  let n := strtolBase0 s
  if n.erange ∨ n.moved = false then none else some n.value

/-- `XKB_KEYCODE_MAX` -/
def xkbKeycodeMax : Nat := 0xFFFFFFFF - 1

/-- `xcalloc` -/
def xcalloc (h : Heap) (nmemb size : Nat) : Layout Unit :=
  if nmemb * size < 2 ^ 63 ∧ h.ok (nmemb * size) then pure () else throw .abort

/-- First pass: just find the real maximum keycode. -/
def firstPass (count : Nat) : Entries → Layout Nat
  | [] => pure count
  | e :: es =>
    match (numeric e.1).map intOfLong with
    | none => firstPass count es
    | some lkey =>
      if count ≤ sizeOfInt lkey then
        if lkey = intMax then throw (.fault .overflow) else firstPass (sizeOfInt (lkey + 1)) es
      else firstPass count es

def storeEntry (store : Int → Int → Layout Unit) (e : Bytes × Bytes) : Layout Unit :=
  match numeric e.1, numeric e.2 with
  | some lkey, some rkey => store (intOfLong lkey) (intOfLong rkey)
  | _, _ => pure ()

/-- Second pass: store any actual mappings. -/
def secondPass (store : Int → Int → Layout Unit) : Entries → Layout Unit
  | [] => pure ()
  | e :: es => do
    storeEntry store e
    secondPass store es

/-- As a `size_t` a negative code is large, and the next one may be 0. -/
def trackMaximum (rkey : Int) : Layout Unit := do
  let t ← get
  if t.keyPressStateLen ≤ sizeOfInt rkey then
    if rkey = intMax then throw (.fault .overflow)
    else modify fun t => { t with keyPressStateLen := sizeOfInt (rkey + 1) }
  else pure ()

/-! ### The raw key map -/

def sectionOf (conf : Conf) (name : String) : Entries := (conf.configReadFullSection (ascii name.toList)).getD []

/-- The sum of two settings, before it is stored as an `int`. -/
def offsetSum (conf : Conf) : Int :=
  intOfLong (conf.configTryLong (ascii "raw-keymap/offset".toList) 0) +
    conf.configTryLong (ascii "xkb_key_offset".toList) 0

def rawOffset (conf : Conf) : Int := intOfLong (offsetSum conf)

def offsetOnExplicit (conf : Conf) : Bool :=
  conf.configTryBool (ascii "raw-keymap/offset_on_explicit".toList) true

/-- What is added to the code of an entry. -/
def explicitOffset (conf : Conf) : Int := if offsetOnExplicit conf then rawOffset conf else 0

/-- `n` elements of the raw key map, from the index `i` on. -/
def initKeys (offset : Int) (i : Nat) : Nat → Layout (List Int)
  | 0 => pure []
  | n + 1 =>
    if FitsInt (i + offset) ∧ i < intMax then do
      let keys ← initKeys offset (i + 1) n
      pure ((i + offset) :: keys)
    else throw (.fault .overflow)

def storeRaw (offset lkey rkey : Int) : Layout Unit :=
  if FitsInt (rkey + offset) then do
    let t ← get
    if lkey < 0 ∨ t.rawKeymap.length ≤ lkey.toNat then throw (.fault .keyTable)
    else do
      modify fun t => { t with rawKeymap := t.rawKeymap.set lkey.toNat (rkey + offset) }
      trackMaximum rkey
  else throw (.fault .overflow)

def loadRawKeymap (h : Heap) (conf : Conf) (maxKeycode : Nat) : Layout Unit := do
  -- start with the xkb maximum, an unsigned number
  let keyCount ← firstPass ((maxKeycode + 1) % 2 ^ 32) (sectionOf conf "raw-keymap")
  xcalloc h keyCount 4
  if offsetSum conf < longMin ∨ longMax < offsetSum conf then throw (.fault .overflow)
  else do
    let keys ← initKeys (rawOffset conf) 0 keyCount
    modify fun t => { t with rawKeymap := keys }
    secondPass (storeRaw (explicitOffset conf)) (sectionOf conf "raw-keymap")

/-! ### The id key map -/

def storeId (lkey rkey : Int) : Layout Unit := do
  let t ← get
  if lkey < 0 ∨ t.idKeymap.length ≤ lkey.toNat then throw (.fault .keyTable)
  else do
    modify fun t => { t with idKeymap := t.idKeymap.set lkey.toNat (some rkey) }
    trackMaximum rkey

def loadIdKeymap (h : Heap) (conf : Conf) : Layout Unit := do
  -- start with the known synergy maximum
  let idCount ← firstPass 0xF000 (sectionOf conf "id-keymap")
  xcalloc h idCount 4
  xcalloc h idCount 1
  modify fun t => { t with idKeymap := List.replicate idCount none }
  secondPass storeId (sectionOf conf "id-keymap")

/-- The part of the layout that the configuration is read for. A length over `INT_MAX` is that of a negative key
code, which `xcalloc` does not allocate. -/
def wlKeySetConfigLayout (h : Heap) (conf : Conf) (maxKeycode : Nat) : Layout KeyConfig := do
  modify fun t => { t with keyPressStateLen := 0 }
  loadRawKeymap h conf maxKeycode
  loadIdKeymap h conf
  let t ← get
  xcalloc h t.keyPressStateLen 4
  if hlen : t.keyPressStateLen ≤ intMax then
    pure { rawKeymap := t.rawKeymap, idKeymap := t.idKeymap, maxKeycode, keyPressStateLen := _, len_le := hlen }
  else throw .abort

/-! ### What the configuration says -/

/-- The number that the last valid entry for `k` maps it to. -/
def lastFor (k : Nat) (es : Entries) : Option Int :=
  es.reverse.findSome? fun e => if numeric e.1 = some (k : Int) then numeric e.2 else none

/-- The larger of `m` and the largest numeric key. -/
def largestKey (m : Nat) (es : Entries) : Nat := es.foldl (fun n e => max n ((numeric e.1).elim 0 Int.toNat)) m

/-- The raw key that a key and an id are mapped to. -/
def Conf.keyFor (conf : Conf) (maxKeycode key id : Nat) : Option Int :=
  match lastFor id (sectionOf conf "id-keymap") with
  | some r => some r
  | none =>
    if key ≤ largestKey maxKeycode (sectionOf conf "raw-keymap") then
      match lastFor key (sectionOf conf "raw-keymap") with
      | some r => some (r + explicitOffset conf)
      | none => some (key + rawOffset conf)
    else none

/-- Keys are in the range of an index, and values in that of an `int`. -/
def Ranged (es : Entries) : Prop :=
  ∀ e ∈ es, ∀ k ∈ numeric e.1, 0 ≤ k ∧ k < intMax ∧ ∀ v ∈ numeric e.2, FitsInt v

instance (es : Entries) : Decidable (Ranged es) := inferInstanceAs (Decidable (∀ e ∈ es, ∀ k ∈ numeric e.1, _))

/-- No sum overflows: that of the offsets, the index behind the table, the defaults, the values with their offset,
and the size behind a value. -/
structure Conf.SumsFit (conf : Conf) (maxKeycode : Nat) : Prop where
  offset : longMin ≤ offsetSum conf ∧ offsetSum conf ≤ longMax
  index : largestKey maxKeycode (sectionOf conf "raw-keymap") < intMax
  default : ∀ k ≤ largestKey maxKeycode (sectionOf conf "raw-keymap"), FitsInt (k + rawOffset conf)
  explicit : ∀ e ∈ sectionOf conf "raw-keymap", ∀ _ ∈ numeric e.1, ∀ v ∈ numeric e.2,
    FitsInt (v + explicitOffset conf)
  size : ∀ e ∈ sectionOf conf "raw-keymap" ++ sectionOf conf "id-keymap", ∀ _ ∈ numeric e.1, ∀ v ∈ numeric e.2,
    v < intMax

/-! ### The passes -/

section
variable {t : KeyTables} {es : Entries} {k n : Nat}

theorem lastFor_cons (e : Bytes × Bytes) : lastFor k (e :: es) =
    (lastFor k es).or (if numeric e.1 = some (k : Int) then numeric e.2 else none) := by
  unfold lastFor
  rw [List.reverse_cons, List.findSome?_append, List.findSome?_singleton]

theorem le_largestKey : n ≤ largestKey n es := by
  induction es generalizing n with
  | nil => exact Nat.le_refl n
  | cons e es ih => exact Nat.le_trans (Nat.le_max_left _ _) ih

theorem le_largestKey_of_mem {e : Bytes × Bytes} {i : Int} (he : e ∈ es) (hi : numeric e.1 = some i) :
    i.toNat ≤ largestKey n es := by
  induction es generalizing n with
  | nil => cases he
  | cons e' es ih =>
    rcases List.mem_cons.mp he with rfl | he
    · have hmax : i.toNat ≤ max n ((numeric e.1).elim 0 Int.toNat) := by
        rw [hi]
        exact Nat.le_max_right _ _
      exact Nat.le_trans hmax le_largestKey
    · exact ih he

theorem lastFor_eq_none (hk : largestKey n es < k) : lastFor k es = none := by
  refine List.findSome?_eq_none_iff.mpr fun e he => if_neg fun hi => ?_
  have := le_largestKey_of_mem (n := n) (List.mem_reverse.mp he) hi
  omega

theorem Ranged.tail {e : Bytes × Bytes} (h : Ranged (e :: es)) : Ranged es :=
  fun e' he' => h e' (List.mem_cons_of_mem _ he')

theorem firstPass_eq (h : Ranged es) : firstPass (n + 1) es = pure (largestKey n es + 1) := by
  induction es generalizing n with
  | nil => rfl
  | cons e es ih =>
    have hmax : largestKey n (e :: es) = largestKey (max n ((numeric e.1).elim 0 Int.toNat)) es := rfl
    unfold firstPass
    rw [hmax]
    cases hi : numeric e.1 with
    | none =>
      rw [Option.elim_none, Nat.max_eq_left (Nat.zero_le n)]
      exact ih h.tail
    | some i =>
      obtain ⟨hlow, hhigh, -⟩ := h e List.mem_cons_self i hi
      rw [Option.elim_some, Option.map_some, intOfLong_eq (by omega) (by omega)]
      dsimp only
      rw [sizeOfInt_eq hlow (by omega)]
      split
      · rw [if_neg (by omega), sizeOfInt_eq (by omega) (by omega), Nat.max_eq_right (by omega),
          Int.toNat_add hlow (by decide)]
        exact ih h.tail
      · rw [Nat.max_eq_left (by omega)]
        exact ih h.tail

theorem initKeys_spec (offset : Int) (i n : Nat) : wp (initKeys offset i n)
    (fun keys t' => t' = t ∧ ∀ k : Nat, keys[k]? = if k < n then some ((i + k : Nat) + offset) else none)
    (fun stop _ => stop = .fault .overflow ∧ ∃ k : Nat, i ≤ k ∧ k < i + n ∧ ¬ (FitsInt (k + offset) ∧ k < intMax))
    t := by
  induction n generalizing i with
  | zero => exact ⟨rfl, fun k => by simp⟩
  | succ n ih =>
    unfold initKeys
    rw [wp_ite]
    split
    · rw [wp_bind]
      refine wp_mono (ih (i + 1)) ?_ ?_
      · rintro keys _ ⟨rfl, hkeys⟩
        refine ⟨rfl, fun k => ?_⟩
        cases k with
        | zero => simp
        | succ k =>
          rw [List.getElem?_cons_succ, hkeys, show i + 1 + k = i + (k + 1) by omega]
          simp only [Nat.add_lt_add_iff_right]
      · rintro stop _ ⟨rfl, k, hlow, hhigh, hk⟩
        exact ⟨rfl, k, by omega, by omega, hk⟩
    · rename_i hno
      exact ⟨rfl, i, Nat.le_refl _, by omega, hno⟩

/-- Every store that an entry of `es` causes puts its value in the place of its key. -/
def Stores {β : Type} (table : KeyTables → List β) (value : Int → β) (store : Int → Int → Layout Unit)
    (E : Stop → Prop) (es : Entries) : Prop :=
  ∀ t, ∀ e ∈ es, ∀ i v, numeric e.1 = some i → numeric e.2 = some v → 0 ≤ i → i.toNat < (table t).length →
    wp (store i v) (fun _ t' => table t' = (table t).set i.toNat (value v)) (fun stop _ => E stop) t

variable {β : Type} {table : KeyTables → List β} {value : Int → β} {store : Int → Int → Layout Unit}
  {E : Stop → Prop}

theorem storeEntry_spec {e : Bytes × Bytes} (hstore : Stores table value store E es) (hes : Ranged es) (he : e ∈ es)
    (hin : ∀ i, numeric e.1 = some i → i.toNat < (table t).length) : wp (storeEntry store e)
      (fun _ t' => (table t').length = (table t).length ∧ ∀ k : Nat, (table t')[k]? = (table t)[k]?.map fun old =>
        ((if numeric e.1 = some (k : Int) then numeric e.2 else none).map value).getD old)
      (fun stop _ => E stop) t := by
  unfold storeEntry
  split
  · rename_i i v hi hv
    obtain ⟨hlow, hhigh, hval⟩ := hes e he i hi
    obtain ⟨hvlow, hvhigh⟩ := hval v hv
    have hin := hin i hi
    rw [intOfLong_eq (by omega) (by omega), intOfLong_eq hvlow hvhigh]
    refine wp_mono (hstore t e he i v hi hv hlow hin) ?_ fun _ _ => id
    intro _ t' hset
    refine ⟨by rw [hset, List.length_set], fun k => ?_⟩
    rw [hset, hi, hv]
    by_cases hk : k = i.toNat
    · subst hk
      rw [List.getElem?_set_self hin, List.getElem?_eq_getElem hin, if_pos (by rw [Int.toNat_of_nonneg hlow])]
      rfl
    · rw [List.getElem?_set_ne (Ne.symm hk), if_neg (by rw [Option.some.injEq]; omega)]
      cases (table t)[k]? <;> rfl
  · rename_i hno
    refine ⟨rfl, fun k => ?_⟩
    have hnone : (if numeric e.1 = some (k : Int) then numeric e.2 else none) = none := by
      split
      · rename_i hi
        exact Option.eq_none_iff_forall_ne_some.mpr fun v hv => hno _ _ hi hv
      · rfl
    rw [hnone]
    cases (table t)[k]? <;> rfl

/-- The second pass leaves in every element what its last entry stores, or what was there. -/
theorem secondPass_spec (hstore : Stores table value store E es) (hes : Ranged es)
    (hin : ∀ e ∈ es, ∀ i, numeric e.1 = some i → i.toNat < (table t).length) : wp (secondPass store es)
      (fun _ t' => ∀ k : Nat, (table t')[k]? = (table t)[k]?.map fun old => ((lastFor k es).map value).getD old)
      (fun stop _ => E stop) t := by
  induction es generalizing t with
  | nil => exact fun k => by cases (table t)[k]? <;> rfl
  | cons e es ih =>
    unfold secondPass
    rw [wp_bind]
    refine wp_mono (storeEntry_spec hstore hes List.mem_cons_self (hin e List.mem_cons_self)) ?_ fun _ _ => id
    rintro _ t₁ ⟨hlen, hget⟩
    have hstore' : Stores table value store E es := fun t e' he' => hstore t e' (List.mem_cons_of_mem _ he')
    have hin' : ∀ e' ∈ es, ∀ i, numeric e'.1 = some i → i.toNat < (table t₁).length := by
      rw [hlen]
      exact fun e' he' => hin e' (List.mem_cons_of_mem _ he')
    refine wp_mono (ih hstore' hes.tail hin') (fun _ t' h k => ?_) fun _ _ => id
    rw [h, hget, lastFor_cons, Option.map_map]
    cases lastFor k es <;> rfl

end

/-! ### The key maps -/

section
variable {h : Heap} {conf : Conf} {maxKeycode : Nat} {t : KeyTables}

/-- Loading stops in an allocation that is not granted, or where a sum overflows. -/
def Refuses (h : Heap) (conf : Conf) (maxKeycode : Nat) (stop : Stop) : Prop :=
  stop = .abort ∧ (∃ n, h.ok n = false) ∨ stop = .fault .overflow ∧ ¬ conf.SumsFit maxKeycode

theorem xcalloc_spec {nmemb size : Nat} (hsize : nmemb * size < 2 ^ 63) :
    wp (xcalloc h nmemb size) (fun _ t' => t' = t) (fun stop _ => Refuses h conf maxKeycode stop) t := by
  unfold xcalloc
  rw [wp_ite]
  split
  · rfl
  · rename_i hno
    exact .inl ⟨rfl, _, Bool.eq_false_iff.mpr fun hok => hno ⟨hsize, hok⟩⟩

theorem largestKey_lt {es : Entries} {n b : Nat} (h : Ranged es) (hn : n < b) (hb : intMax ≤ b) :
    largestKey n es < b := by
  induction es generalizing n with
  | nil => exact hn
  | cons e es ih =>
    refine ih h.tail (Nat.max_lt.mpr ⟨hn, ?_⟩)
    cases hi : numeric e.1 with
    | none => exact Nat.lt_of_le_of_lt (Nat.zero_le n) hn
    | some i =>
      obtain ⟨hlow, hhigh, -⟩ := h e List.mem_cons_self i hi
      rw [Option.elim_some]
      omega

/-- The size of the key state changes, unless the sum behind the code overflows. -/
theorem trackMaximum_spec {e : Bytes × Bytes} {i v : Int}
    (he : e ∈ sectionOf conf "raw-keymap" ++ sectionOf conf "id-keymap") (hi : numeric e.1 = some i)
    (hv : numeric e.2 = some v) : wp (trackMaximum v)
      (fun _ t' => t'.rawKeymap = t.rawKeymap ∧ t'.idKeymap = t.idKeymap)
      (fun stop _ => Refuses h conf maxKeycode stop) t := by
  unfold trackMaximum
  rw [wp_bind, wp_get, wp_ite]
  split
  · rw [wp_ite]
    split
    · rename_i hmax
      exact .inr ⟨rfl, fun hsums => Int.ne_of_lt (hsums.size e he i hi v hv) hmax⟩
    · exact ⟨rfl, rfl⟩
  · exact ⟨rfl, rfl⟩

theorem storeRaw_stores : Stores KeyTables.rawKeymap (· + explicitOffset conf) (storeRaw (explicitOffset conf))
    (Refuses h conf maxKeycode) (sectionOf conf "raw-keymap") := by
  intro t e he i v hi hv hlow hin
  unfold storeRaw
  rw [wp_ite]
  split
  · rw [wp_bind, wp_get, if_neg (by omega), wp_bind, wp_modify]
    exact wp_mono (trackMaximum_spec (List.mem_append_left _ he) hi hv) (fun _ _ h => h.1) fun _ _ => id
  · rename_i hno
    exact .inr ⟨rfl, fun hsums => hno (hsums.explicit e he i hi v hv)⟩

theorem storeId_stores : Stores KeyTables.idKeymap some storeId (Refuses h conf maxKeycode)
    (sectionOf conf "id-keymap") := by
  intro t e he i v hi hv hlow hin
  unfold storeId
  rw [wp_bind, wp_get, if_neg (by omega), wp_bind, wp_modify]
  exact wp_mono (trackMaximum_spec (List.mem_append_right _ he) hi hv) (fun _ _ h => h.2) fun _ _ => id

/-- The raw key map covers the largest key. An element is what the last entry says, or the default. -/
theorem loadRawKeymap_spec (hm : maxKeycode ≤ xkbKeycodeMax) (hraw : Ranged (sectionOf conf "raw-keymap")) :
    wp (loadRawKeymap h conf maxKeycode)
      (fun _ t' => ∀ k : Nat, t'.rawKeymap[k]? =
        if k ≤ largestKey maxKeycode (sectionOf conf "raw-keymap") then
          some (((lastFor k (sectionOf conf "raw-keymap")).map (· + explicitOffset conf)).getD (k + rawOffset conf))
        else none)
      (fun stop _ => Refuses h conf maxKeycode stop) t := by
  have hcount : largestKey maxKeycode (sectionOf conf "raw-keymap") < 2 ^ 32 :=
    largestKey_lt hraw (Nat.lt_of_le_of_lt hm (by decide)) (by decide)
  unfold loadRawKeymap
  rw [Nat.mod_eq_of_lt (by unfold xkbKeycodeMax at hm; omega), firstPass_eq hraw, pure_bind, wp_bind]
  refine wp_mono (xcalloc_spec (by omega)) ?_ fun _ _ => id
  rintro _ _ rfl
  rw [wp_ite]
  split
  · rename_i hoff
    exact .inr ⟨rfl, fun hsums => by have := hsums.offset; omega⟩
  · rw [wp_bind]
    refine wp_mono (initKeys_spec _ 0 _) ?_ ?_
    · rintro keys _ ⟨rfl, hkeys⟩
      have hin : ∀ e ∈ sectionOf conf "raw-keymap", ∀ i, numeric e.1 = some i → i.toNat < keys.length := by
        intro e he i hi
        have hle := le_largestKey_of_mem (n := maxKeycode) he hi
        refine (List.getElem?_eq_some_iff.mp ((hkeys i.toNat).trans (if_pos ?_))).1
        omega
      rw [wp_bind, wp_modify]
      refine wp_mono (secondPass_spec storeRaw_stores hraw hin) (fun _ t' hget k => ?_) fun _ _ => id
      rw [hget, hkeys]
      by_cases hk : k ≤ largestKey maxKeycode (sectionOf conf "raw-keymap")
      · rw [if_pos (by omega), if_pos hk, Option.map_some, Nat.zero_add]
      · rw [if_neg (by omega), if_neg hk, Option.map_none]
    · rintro stop _ ⟨rfl, k, -, hk, hno⟩
      refine .inr ⟨rfl, fun hsums => hno ⟨hsums.default k (by omega), ?_⟩⟩
      have := hsums.index
      omega

theorem loadIdKeymap_spec (hids : Ranged (sectionOf conf "id-keymap")) : wp (loadIdKeymap h conf)
    (fun _ t' => ∀ k : Nat, t'.idKeymap[k]? =
      if k ≤ largestKey 0xEFFF (sectionOf conf "id-keymap") then some (lastFor k (sectionOf conf "id-keymap"))
      else none)
    (fun stop _ => Refuses h conf maxKeycode stop) t := by
  have hcount : largestKey 0xEFFF (sectionOf conf "id-keymap") < 2 ^ 32 := largestKey_lt hids (by decide) (by decide)
  unfold loadIdKeymap
  rw [firstPass_eq (n := 0xEFFF) hids, pure_bind, wp_bind]
  refine wp_mono (xcalloc_spec (by omega)) ?_ fun _ _ => id
  rintro _ t₁ rfl
  rw [wp_bind]
  refine wp_mono (xcalloc_spec (by omega)) ?_ fun _ _ => id
  rintro _ t₂ rfl
  have hin : ∀ e ∈ sectionOf conf "id-keymap", ∀ i, numeric e.1 = some i →
      i.toNat < (List.replicate (largestKey 0xEFFF (sectionOf conf "id-keymap") + 1) (none : Option Int)).length := by
    intro e he i hi
    rw [List.length_replicate]
    exact Nat.lt_succ_of_le (le_largestKey_of_mem he hi)
  rw [wp_bind, wp_modify]
  refine wp_mono (secondPass_spec storeId_stores hids hin) (fun _ t' hget k => ?_) fun _ _ => id
  rw [hget, List.getElem?_replicate]
  by_cases hk : k ≤ largestKey 0xEFFF (sectionOf conf "id-keymap")
  · rw [if_pos (by omega), if_pos hk]
    cases lastFor k (sectionOf conf "id-keymap") <;> rfl
  · rw [if_neg (by omega), if_neg hk, Option.map_none]

/-- Reading the id key map leaves the raw one alone. -/
instance : Frame (fun t t' : KeyTables => t'.rawKeymap = t.rawKeymap) := ⟨fun _ => rfl, fun h h' => h'.trans h⟩

theorem firstPass_keeps {es : Entries} {n : Nat} :
    Within (fun t t' => t'.rawKeymap = t.rawKeymap) (fun _ => True) (firstPass n es) := by
  induction es generalizing n with
  | nil => exact Within.pure _
  | cons e es ih =>
    unfold firstPass
    split
    · exact ih
    · exact Within.ite (Within.ite (Within.throw trivial) ih) ih

theorem storeId_keeps (lkey rkey : Int) :
    Within (fun t t' => t'.rawKeymap = t.rawKeymap) (fun _ => True) (storeId lkey rkey) := by
  refine Within.read fun _ => Within.ite (Within.throw trivial) (Within.bind (Within.modify fun _ => rfl) fun _ => ?_)
  refine Within.read fun _ => Within.ite (Within.ite (Within.throw trivial) ?_) (Within.pure _)
  exact Within.modify fun _ => rfl

theorem secondPass_keeps {es : Entries} :
    Within (fun t t' => t'.rawKeymap = t.rawKeymap) (fun _ => True) (secondPass storeId es) := by
  induction es with
  | nil => exact Within.pure _
  | cons e es ih =>
    refine Within.bind ?_ fun _ => ih
    unfold storeEntry
    split
    · exact storeId_keeps _ _
    · exact Within.pure _

theorem loadIdKeymap_keeps :
    Within (fun t t' => t'.rawKeymap = t.rawKeymap) (fun _ => True) (loadIdKeymap h conf) := by
  have hcalloc : ∀ n size, Within (fun t t' => t'.rawKeymap = t.rawKeymap) (fun _ => True) (xcalloc h n size) :=
    fun _ _ => Within.ite (Within.pure _) (Within.throw trivial)
  refine Within.bind firstPass_keeps fun _ => Within.bind (hcalloc _ _) fun _ => Within.bind (hcalloc _ _) fun _ => ?_
  exact Within.bind (Within.modify fun _ => rfl) fun _ => secondPass_keeps

/-- A configuration with these tables maps keys as it is said. -/
def Loaded (conf : Conf) (maxKeycode : Nat) (t : KeyTables) : Prop := ∀ c : KeyConfig,
  c.rawKeymap = t.rawKeymap → c.idKeymap = t.idKeymap → ∀ key id, c.remap key id = conf.keyFor maxKeycode key id

theorem loadKeymaps_spec (hm : maxKeycode ≤ xkbKeycodeMax) (hraw : Ranged (sectionOf conf "raw-keymap"))
    (hids : Ranged (sectionOf conf "id-keymap")) :
    wp (loadRawKeymap h conf maxKeycode >>= fun _ => loadIdKeymap h conf)
      (fun _ t' => Loaded conf maxKeycode t') (fun stop _ => Refuses h conf maxKeycode stop) t := by
  rw [wp_bind]
  refine wp_mono (loadRawKeymap_spec hm hraw) ?_ fun _ _ => id
  intro _ t₁ hget
  refine wp_mono (wp_and (loadIdKeymap_spec hids) (loadIdKeymap_keeps t₁)) ?_ fun _ _ => And.left
  rintro _ t₂ ⟨hids₂, hkeep⟩ c hcraw hcid key id
  unfold KeyConfig.remap Conf.keyFor
  rw [hcraw, hcid, hids₂, hkeep, hget]
  by_cases hid : id ≤ largestKey 0xEFFF (sectionOf conf "id-keymap")
  · rw [if_pos hid]
    cases lastFor id (sectionOf conf "id-keymap") with
    | some r => rfl
    | none =>
      dsimp only
      split
      · cases lastFor key (sectionOf conf "raw-keymap") <;> rfl
      · rfl
  · rw [if_neg hid, lastFor_eq_none (Nat.lt_of_not_le hid)]
    dsimp only
    split
    · cases lastFor key (sectionOf conf "raw-keymap") <;> rfl
    · rfl

/-- The layout of the client maps keys as the configuration says. -/
theorem wlKeySetConfigLayout_spec (hm : maxKeycode ≤ xkbKeycodeMax) (hraw : Ranged (sectionOf conf "raw-keymap"))
    (hids : Ranged (sectionOf conf "id-keymap")) : wp (wlKeySetConfigLayout h conf maxKeycode)
      (fun c _ => ∀ key id, c.remap key id = conf.keyFor maxKeycode key id)
      (fun stop _ => stop = .abort ∨ Refuses h conf maxKeycode stop) t := by
  unfold wlKeySetConfigLayout
  rw [wp_bind, wp_modify, ← bind_assoc, wp_bind]
  refine wp_mono (loadKeymaps_spec hm hraw hids) ?_ fun _ _ => .inr
  intro _ t₁ hloaded
  rw [wp_bind, wp_get, wp_bind]
  unfold xcalloc
  rw [wp_ite]
  split
  · rw [wp_pure]
    split
    · exact fun key id => hloaded _ rfl rfl key id
    · exact .inl rfl
  · exact .inl rfl

end

/-- Two entries for the key 3, one for the id 7, and an offset of 2. -/
def Conf.sample : Conf where
  ini := some
    { sections := ["", "raw-keymap", "id-keymap"].map fun name => ascii name.toList
      properties := [(1, "3", "10"), (1, "offset", "2"), (1, "3", "11"), (2, "7", "0x20")].map fun p =>
        ⟨p.1, ascii p.2.1.toList, ascii p.2.2.toList⟩ }
  file _ := none
  dir _ := none

example : (List.range 10).map (Conf.sample.keyFor 8 · 0) =
    [some 2, some 3, some 4, some 13, some 6, some 7, some 8, some 9, some 10, none] := by decide

end Waynergy
