import Waynergy.Keymap
import Waynergy.KeyCounts
import Waynergy.Keys

/-!
# The tables of the input (`wl_input.c`)

The key maps are indexed by what the configuration says, and the key state and the button map by what the server
sends. Loading stays inside the tables, and asks for no length that wraps around, where the codes of the
configuration are no negative `int`; an event does exactly where the button or the raw key is none.
-/

namespace Waynergy
open Lib

/-! ### The mouse buttons -/

/-- `WL_INPUT_BUTTON_COUNT` -/
def wlInputButtonCount : Nat := 8

/-- Why an event is not handled to its end: for a reason of the keys, or outside of the button map. -/
inductive InputStop
  | keys (stop : Stop)
  | buttonMap
deriving DecidableEq

structure Inputs where
  input : WlInput
  buttonMap : Fin wlInputButtonCount → Int
  /-- the buttons and states that the backend was called with -/
  buttons : List (Int × Bool)

def wlMouseButton (button : Int) (state : Bool) : Proc InputStop Inputs Unit :=
  if wlInputButtonCount ≤ button then pure ()
  else if h : 0 ≤ button ∧ button.toNat < wlInputButtonCount then
    modify fun s => { s with buttons := s.buttons ++ [(s.buttonMap ⟨button.toNat, h.2⟩, state)] }
  else throw .buttonMap

/-! ### Input events -/

/-- What an event does to the keys. -/
def onKeys (m : Keys Unit) : Proc InputStop Inputs Unit := fun s =>
  match m.run s.input with
  | .ok _ input => .ok () { s with input := input }
  | .error e input => .error (.keys e) { s with input := input }

/-- The callbacks of `main.c` that reach the tables. -/
def inputCallback (h : Heap) : Event → Proc InputStop Inputs Unit
  | .mouseButtonDown button => wlMouseButton button true
  | .mouseButtonUp button => wlMouseButton button false
  | ev => onKeys (callback h ev)

/-- As the protocol layer delivers it: a button is a signed byte, and a key and an id have 16 bits. -/
def Event.Delivered : Event → Prop
  | .mouseButtonDown button | .mouseButtonUp button => ∃ b : UInt8, button = signed 8 b.toNat
  | .keyboard key id .. => key < 2 ^ 16 ∧ id < 2 ^ 16
  | _ => True

namespace Inputs

def init (config : KeyConfig) (buttonMap : Fin wlInputButtonCount → Int) : Inputs := ⟨.init config, buttonMap, []⟩

def exec (step : Event × Heap) : Proc InputStop Inputs Unit := inputCallback step.2 step.1

/-- The button is in the button map, or dropped; so is the raw key, and the code behind it is an `int`. -/
def Fits (s : Inputs) : Event → Prop
  | .mouseButtonDown button | .mouseButtonUp button => 0 ≤ button
  | .keyboard key id _ _ rpt => rpt = false → ∀ r ∈ s.input.config.remap key id, -1 ≤ r ∧ r < intMax
  | _ => True

/-- The event is handled inside the tables. It may ask for the length that the raw key needs and not get it, and the
count of the raw key may be at the end of its range. -/
def InRange (h : Heap) (s : Inputs) (ev : Event) : Prop :=
  wp (inputCallback h ev) (fun _ _ => True) (fun stop _ => ∃ key id modifiers down, ∃ r ∈ s.input.config.remap key id,
    ev = .keyboard key id modifiers down false ∧ 0 ≤ r ∧
      (stop = .keys .abort ∧ r < intMax ∧ h.ok ((r + 1).toNat * 4) = false ∨
        stop = .keys (.fault .overflow) ∧ s.input.count r = intMax)) s

end Inputs

variable {s : Inputs} {h : Heap}

theorem wp_onKeys {m : Keys Unit} {Q : Unit → Inputs → Prop} {E : InputStop → Inputs → Prop} :
    wp (onKeys m) Q E s ↔ wp m (fun _ input => Q () { s with input := input })
      (fun e input => E (.keys e) { s with input := input }) s.input := by
  unfold wp onKeys EStateM.run
  beta_reduce
  cases m s.input <;> rfl

theorem wp_wlMouseButton {button : Int} {state : Bool} {E : InputStop → Inputs → Prop} :
    wp (wlMouseButton button state) (fun _ _ => True) E s ↔ 0 ≤ button ∨ E .buttonMap s := by
  unfold wlMouseButton wlInputButtonCount
  rw [wp_ite]
  split
  · exact iff_of_true trivial (.inl (by omega))
  · split
    · rename_i hin
      exact iff_of_true trivial (.inl hin.1)
    · rename_i hout
      exact ⟨.inr, fun h => h.resolve_left fun h0 => hout ⟨h0, by omega⟩⟩

/-! ### The raw keys -/

section
variable {input : WlInput} {key : Int} {state : Bool}

/-- Where the key state has no length for the key, an allocation was refused. -/
theorem wlKeyRaw_refused (hkey : 0 ≤ key) (hmax : key < intMax) : wp (wlKeyRaw h key state) (fun _ _ => True)
    (fun stop _ => stop = .abort → h.ok ((key + 1).toNat * 4) = false) input := by
  have hsend : ∀ input, wp (sendKey key state) (fun _ _ => True)
      (fun stop _ => stop = .abort → h.ok ((key + 1).toNat * 4) = false) input := by
    intro input
    unfold sendKey
    rw [wp_bind, wp_get, wp_ite]
    split
    · exact (nomatch ·)
    · rw [wp_ite]
      split
      · trivial
      · rw [wp_bind, wp_modify]
        generalize (if state = true then (1 : Int) else -1) = d
        rw [wp_ite]
        split
        exacts [(nomatch ·), trivial]
  unfold wlKeyRaw trackKeySize
  rw [wp_bind, wp_bind, wp_get, wp_ite]
  split
  · rw [if_neg (by omega), sizeOfInt_eq (by omega) (by omega)]
    unfold growKeys
    split
    · rename_i counts hgrow
      exact hsend _
    · rename_i hgrow
      intro _
      by_contra hok
      rw [Bool.not_eq_false] at hok
      have hmax' : (key + 1).toNat * 4 < 2 ^ 63 := by
        unfold intMax at hmax
        omega
      rw [if_pos ⟨hmax', hok⟩] at hgrow
      cases hgrow
  · exact hsend _

/-- A raw key of 2^31 - 1 or more has no place in the key state, and the sum behind it is no `int`. -/
theorem wlKeyRaw_large (hs : input.Balanced) (hkey : intMax ≤ key) : wp (wlKeyRaw h key state) (fun _ _ => False)
    (fun stop _ => stop ≠ .abort ∧ input.count key ≠ intMax) input := by
  have hzero : input.count key = 0 := by
    unfold WlInput.count
    rw [if_neg (by omega)]
    have := hs.size
    exact List.getD_eq_default _ _ (by omega)
  have hcount : input.count key ≠ intMax := by rw [hzero]; decide
  unfold wlKeyRaw trackKeySize
  rw [wp_bind, wp_bind, wp_get, wp_ite]
  split
  · exact ⟨(nomatch ·), hcount⟩
  · unfold sendKey
    have := hs.size
    rw [wp_pure, wp_bind, wp_get, if_pos (by omega)]
    exact ⟨(nomatch ·), hcount⟩

end

/-! ### One event -/

/-- What an event of the keys does, as the statement about the tables sees it. -/
theorem inRange_key {key id : Nat} {modifiers : Nat} {down : Bool} : s.InRange h (.keyboard key id modifiers down false) ↔
    wp (wlKey h key id down) (fun _ _ => True) (fun stop _ => ∃ r ∈ s.input.config.remap key id, 0 ≤ r ∧
      (stop = .abort ∧ r < intMax ∧ h.ok ((r + 1).toNat * 4) = false ∨
        stop = .fault .overflow ∧ s.input.count r = intMax)) s.input := by
  have hcall : inputCallback h (.keyboard key id modifiers down false) = onKeys (wlKey h key id down) := rfl
  unfold Inputs.InRange
  rw [hcall, wp_onKeys]
  constructor
  · refine fun hwp => wp_mono hwp (fun _ _ _ => trivial) ?_
    rintro stop _ ⟨key', id', _, _, r, hr, heq, hr0, hstop⟩
    injection heq with hkey hid
    subst hkey hid
    simp only [InputStop.keys.injEq] at hstop
    exact ⟨r, hr, hr0, hstop⟩
  · refine fun hwp => wp_mono hwp (fun _ _ _ => trivial) ?_
    rintro stop _ ⟨r, hr, hr0, hstop⟩
    simp only [← InputStop.keys.injEq] at hstop
    exact ⟨key, id, modifiers, down, r, hr, rfl, hr0, hstop⟩

theorem inRange_iff (hs : s.input.Balanced) (ev : Event) : s.InRange h ev ↔ s.Fits ev := by
  cases ev with
  | mouseButtonDown button | mouseButtonUp button =>
    refine wp_wlMouseButton.trans (or_iff_left ?_)
    rintro ⟨_, _, _, _, _, _, heq, -⟩
    cases heq
  | keyboard key id modifiers down rpt =>
    cases rpt with
    | true => exact iff_of_true trivial fun hrpt => Bool.noConfusion hrpt
    | false =>
      rw [inRange_key]
      show _ ↔ (false = false → ∀ r ∈ s.input.config.remap key id, -1 ≤ r ∧ r < intMax)
      unfold wlKey
      rw [wp_bind, wp_get]
      cases hremap : s.input.config.remap key id with
      | none => exact iff_of_true trivial fun _ r hr => by cases hr
      | some r =>
        simp only [Option.mem_some_iff, exists_eq_left', forall_eq', true_implies]
        rw [wp_ite]
        split
        · subst r
          exact iff_of_true trivial (by decide)
        · by_cases hr0 : 0 ≤ r
          · rcases Int.lt_or_le r intMax with hlt | hge
            · refine iff_of_true (wp_mono (wp_and (WlInput.wlKeyRaw_sends h hr0 (Int.le_of_lt hlt) hs)
                (wlKeyRaw_refused hr0 hlt)) (fun _ _ _ => trivial) ?_) ⟨by omega, hlt⟩
              rintro stop _ ⟨⟨-, rfl | ⟨rfl, rfl | hcount⟩⟩, hrefused⟩
              · exact ⟨hr0, .inl ⟨rfl, hlt, hrefused rfl⟩⟩
              · exact absurd hlt (Int.lt_irrefl _)
              · exact ⟨hr0, .inr ⟨rfl, hcount.2⟩⟩
            · refine iff_of_false (fun hwp => ?_) fun hfits => by omega
              refine not_wp_false (wp_mono (wp_and hwp (wlKeyRaw_large hs hge)) (fun _ _ => And.right) ?_)
              rintro stop _ ⟨⟨-, ⟨rfl, -⟩ | ⟨-, hcount⟩⟩, hstop, hzero⟩
              exacts [hstop rfl, hzero hcount]
          · refine iff_of_false (fun hwp => ?_) fun hfits => by omega
            refine not_wp_false (wp_mono (wp_and hwp (wlKeyRaw_negative h down (Int.not_le.mp hr0)))
              (fun _ _ => And.right) ?_)
            rintro stop _ ⟨⟨h0, -⟩, -⟩
            exact hr0 h0
  | screenActive active =>
    refine iff_of_true ?_ trivial
    refine wp_onKeys.mpr ?_
    cases active with
    | true => trivial
    | false => exact wp_mono (wlKeyReleaseAll_spec h hs) (fun _ _ _ => trivial) fun _ _ => False.elim
  | _ => exact iff_of_true trivial trivial

theorem balanced_of_inputs {config : KeyConfig} {buttonMap : Fin wlInputButtonCount → Int}
    {steps : List (Inputs × (Event × Heap))} (hrun : Run Inputs.exec (.init config buttonMap) steps s) :
    s.input.Balanced := by
  refine hrun.invariant (P := fun s => s.input.Balanced) (WlInput.balanced_init config) ?_
  rintro s ⟨ev, h⟩ s' - hs hop
  have hbutton : ∀ button state, wp (wlMouseButton button state) (fun _ s' => s'.input.Balanced) (fun _ _ => True) s := by
    intro button state
    unfold wlMouseButton
    rw [wp_ite]
    split
    · exact hs
    · split
      exacts [hs, trivial]
  have hkeys : wp (onKeys (callback h ev)) (fun _ s' => s'.input.Balanced) (fun _ _ => True) s :=
    wp_onKeys.mpr (wp_mono (callback_balanced ev hs) (fun _ _ => id) fun _ _ _ => trivial)
  have hwp : wp (inputCallback h ev) (fun _ s' => s'.input.Balanced) (fun _ _ => True) s := by
    unfold inputCallback
    split
    exacts [hbutton _ _, hbutton _ _, hkeys]
  exact wp_ok hwp hop

/-! ### Loading -/

/-- The numeric keys of a section, as the loaders store them. -/
def keyCodes (es : Entries) : List Int := es.filterMap fun e => (numeric e.1).map intOfLong

/-- The length of a table of at least `n` elements with a place for every key. -/
def tableLength (n : Nat) (codes : List Int) : Nat := codes.foldl (fun n k => max n (k.toNat + 1)) n

/-- Each numeric key is an index and has an `int` behind it, and so has each value, which may also be the -1 that
drops the key. -/
def Indexable (es : Entries) : Prop := ∀ e ∈ es, ∀ k ∈ numeric e.1, (0 ≤ intOfLong k ∧ intOfLong k < intMax) ∧
  ∀ v ∈ numeric e.2, -1 ≤ intOfLong v ∧ intOfLong v < intMax

instance (es : Entries) : Decidable (Indexable es) :=
  inferInstanceAs (Decidable (∀ e ∈ es, ∀ k ∈ numeric e.1, _ ∧ ∀ v ∈ numeric e.2, _))

namespace Conf

/-- The codes of the configuration are none that a loader takes for the end of a `size_t`. -/
structure TablesFit (conf : Conf) (maxKeycode : Nat) : Prop where
  keycode : maxKeycode < intMax
  raw : Indexable (sectionOf conf "raw-keymap")
  ids : Indexable (sectionOf conf "id-keymap")

/-- No sum of a value and an offset overflows. -/
structure ValuesFit (conf : Conf) (maxKeycode : Nat) : Prop where
  offset : longMin ≤ offsetSum conf ∧ offsetSum conf ≤ longMax
  default : ∀ k < tableLength (maxKeycode + 1) (keyCodes (sectionOf conf "raw-keymap")), FitsInt (k + rawOffset conf)
  explicit : ∀ e ∈ sectionOf conf "raw-keymap", ∀ _ ∈ numeric e.1, ∀ v ∈ numeric e.2,
    FitsInt (intOfLong v + explicitOffset conf)

end Conf

/-- Loading ends early where a length in the range of an `int` is not granted, or a value is no `int`. -/
def LoadStop (h : Heap) (conf : Conf) (maxKeycode : Nat) (stop : Stop) : Prop :=
  stop = .abort ∧ (∃ n ≤ intMax, ∃ size ≤ 4, h.ok (n * size) = false) ∨
    stop = .fault .overflow ∧ ¬ conf.ValuesFit maxKeycode

section
variable {conf : Conf} {maxKeycode : Nat} {t : KeyTables} {es : Entries} {n : Nat}

theorem Indexable.tail {e : Bytes × Bytes} (hes : Indexable (e :: es)) : Indexable es :=
  fun e' he' => hes e' (List.mem_cons_of_mem _ he')

theorem le_tableLength {codes : List Int} : n ≤ tableLength n codes := by
  induction codes generalizing n with
  | nil => exact Nat.le_refl n
  | cons k codes ih => exact Nat.le_trans (Nat.le_max_left _ _) ih

theorem lt_tableLength {codes : List Int} {k : Int} (hk : k ∈ codes) : k.toNat < tableLength n codes := by
  induction codes generalizing n with
  | nil => cases hk
  | cons k' codes ih =>
    rcases List.mem_cons.mp hk with rfl | hk
    · exact Nat.lt_of_lt_of_le (Nat.le_max_right n (k.toNat + 1)) le_tableLength
    · exact ih hk

/-- The first pass does not stop, and finds a length that is no more than the range of the indices. -/
theorem firstPass_codes (hes : Indexable es) (hn : n ≤ intMax) :
    firstPass n es = pure (tableLength n (keyCodes es)) ∧ tableLength n (keyCodes es) ≤ intMax := by
  induction es generalizing n with
  | nil => exact ⟨rfl, hn⟩
  | cons e es ih =>
    have hcodes : keyCodes (e :: es) = ((numeric e.1).map intOfLong).toList ++ keyCodes es := by
      unfold keyCodes
      rw [List.filterMap_cons]
      cases numeric e.1 <;> rfl
    unfold firstPass
    rw [hcodes]
    cases hk : numeric e.1 with
    | none => exact ih hes.tail hn
    | some k =>
      obtain ⟨hlow, hhigh⟩ := (hes e List.mem_cons_self k hk).1
      have hlen : tableLength n (((some k).map intOfLong).toList ++ keyCodes es) =
          tableLength (max n ((intOfLong k).toNat + 1)) (keyCodes es) := rfl
      rw [hlen, Option.map_some]
      dsimp only
      rw [sizeOfInt_eq hlow (by omega)]
      split
      · rw [if_neg (by omega), sizeOfInt_eq (by omega) (by omega), Nat.max_eq_right (by omega),
          Int.toNat_add hlow (by decide)]
        exact ih hes.tail (by omega)
      · rw [Nat.max_eq_left (by omega)]
        exact ih hes.tail hn

theorem xcalloc_grants {size : Nat} (hn : n ≤ intMax) (hsize : size ≤ 4) :
    wp (xcalloc h n size) (fun _ t' => t' = t) (fun stop _ => LoadStop h conf maxKeycode stop) t := by
  unfold xcalloc
  rw [wp_ite]
  split
  · rfl
  · rename_i hno
    have hbound : n * size < 2 ^ 63 := by
      have := Nat.mul_le_mul hn hsize
      unfold intMax at this
      omega
    exact .inl ⟨rfl, n, hn, size, hsize, Bool.eq_false_iff.mpr fun hok => hno ⟨hbound, hok⟩⟩

/-- What every store of an entry keeps, the second pass keeps. -/
theorem wp_secondPass {store : Int → Int → Layout Unit} {I : KeyTables → Prop} {E : Stop → Prop}
    (hstore : ∀ e ∈ es, ∀ k v, numeric e.1 = some k → numeric e.2 = some v → ∀ t, I t →
      wp (store (intOfLong k) (intOfLong v)) (fun _ => I) (fun stop _ => E stop) t) (ht : I t) :
    wp (secondPass store es) (fun _ => I) (fun stop _ => E stop) t := by
  induction es generalizing t with
  | nil => exact ht
  | cons e es ih =>
    have hentry : wp (storeEntry store e) (fun _ => I) (fun stop _ => E stop) t := by
      unfold storeEntry
      split
      · exact hstore e List.mem_cons_self _ _ ‹_› ‹_› t ht
      · exact ht
    unfold secondPass
    rw [wp_bind]
    exact wp_mono hentry (fun _ _ => ih fun e' he' => hstore e' (List.mem_cons_of_mem _ he')) fun _ _ => id

theorem trackMaximum_grows {v : Int} (hlow : -1 ≤ v) (hhigh : v < intMax) (ht : t.keyPressStateLen ≤ intMax)
    {E : Stop → KeyTables → Prop} : wp (trackMaximum v) (fun _ t' => t'.rawKeymap = t.rawKeymap ∧
      t'.idKeymap = t.idKeymap ∧ t'.keyPressStateLen ≤ intMax) E t := by
  have hnext : sizeOfInt (v + 1) ≤ intMax := by rw [sizeOfInt_eq (by omega) (by omega)]; omega
  unfold trackMaximum
  rw [wp_bind, wp_get, wp_ite]
  split
  · rw [if_neg (by omega)]
    exact ⟨rfl, rfl, hnext⟩
  · exact ⟨rfl, rfl, ht⟩

theorem loadRawKeymap_inside (hfit : conf.TablesFit maxKeycode) (ht : t.keyPressStateLen ≤ intMax) :
    wp (loadRawKeymap h conf maxKeycode) (fun _ t' => t'.keyPressStateLen ≤ intMax)
      (fun stop _ => LoadStop h conf maxKeycode stop) t := by
  obtain ⟨hpass, hlen⟩ := firstPass_codes (n := maxKeycode + 1) hfit.raw (Nat.succ_le_of_lt hfit.keycode)
  have hmax : intMax = 2 ^ 31 - 1 := rfl
  unfold loadRawKeymap
  rw [Nat.mod_eq_of_lt (by have := hfit.keycode; omega), hpass, pure_bind, wp_bind]
  refine wp_mono (xcalloc_grants hlen (Nat.le_refl 4)) ?_ fun _ _ => id
  rintro _ _ rfl
  rw [wp_ite]
  split
  · rename_i hoff
    exact .inr ⟨rfl, fun hvals => by have := hvals.offset; omega⟩
  · rw [wp_bind]
    refine wp_mono (initKeys_spec _ 0 _) ?_ ?_
    · rintro keys _ ⟨rfl, hkeys⟩
      rw [wp_bind, wp_modify]
      refine wp_mono (wp_secondPass (I := fun t => (∀ k < tableLength (maxKeycode + 1) (keyCodes
        (sectionOf conf "raw-keymap")), k < t.rawKeymap.length) ∧ t.keyPressStateLen ≤ intMax) ?_ ⟨?_, ht⟩)
        (fun _ _ => And.right) fun _ _ => id
      · rintro e he k v hk hv t ⟨hlen, ht⟩
        obtain ⟨⟨hlow, hhigh⟩, hval⟩ := hfit.raw e he k hk
        obtain ⟨hvlow, hvhigh⟩ := hval v hv
        have hin := hlen _ (lt_tableLength (List.mem_filterMap.mpr ⟨e, he, by rw [hk]; rfl⟩))
        unfold storeRaw
        rw [wp_ite]
        split
        · rw [wp_bind, wp_get, if_neg (by omega), wp_bind, wp_modify]
          refine wp_mono (trackMaximum_grows hvlow hvhigh (by exact ht)) ?_ fun _ _ => id
          rintro _ t' ⟨hraw, -, ht'⟩
          refine ⟨fun k hk => ?_, ht'⟩
          rw [hraw, List.length_set]
          exact hlen k hk
        · rename_i hno
          exact .inr ⟨rfl, fun hvals => hno (hvals.explicit e he k hk v hv)⟩
      · intro k hk
        exact (List.getElem?_eq_some_iff.mp ((hkeys k).trans (if_pos hk))).1
    · rintro stop _ ⟨rfl, k, -, hk, hno⟩
      exact .inr ⟨rfl, fun hvals => hno ⟨hvals.default k (by omega), by omega⟩⟩

theorem loadIdKeymap_inside (hfit : conf.TablesFit maxKeycode) (ht : t.keyPressStateLen ≤ intMax) :
    wp (loadIdKeymap h conf) (fun _ t' => t'.keyPressStateLen ≤ intMax)
      (fun stop _ => LoadStop h conf maxKeycode stop) t := by
  obtain ⟨hpass, hlen⟩ := firstPass_codes (n := 0xF000) hfit.ids (by decide)
  unfold loadIdKeymap
  rw [hpass, pure_bind, wp_bind]
  refine wp_mono (xcalloc_grants hlen (Nat.le_refl 4)) ?_ fun _ _ => id
  rintro _ _ rfl
  rw [wp_bind]
  refine wp_mono (xcalloc_grants hlen (by decide)) ?_ fun _ _ => id
  rintro _ t₁ rfl
  rw [wp_bind, wp_modify]
  refine wp_mono (wp_secondPass (I := fun t => t.idKeymap.length = tableLength 0xF000 (keyCodes
    (sectionOf conf "id-keymap")) ∧ t.keyPressStateLen ≤ intMax) ?_ ⟨List.length_replicate, ht⟩)
    (fun _ _ => And.right) fun _ _ => id
  rintro e he k v hk hv t ⟨hlen, ht⟩
  obtain ⟨⟨hlow, hhigh⟩, hval⟩ := hfit.ids e he k hk
  obtain ⟨hvlow, hvhigh⟩ := hval v hv
  have hin : (intOfLong k).toNat < tableLength 0xF000 (keyCodes (sectionOf conf "id-keymap")) :=
    lt_tableLength (List.mem_filterMap.mpr ⟨e, he, by rw [hk]; rfl⟩)
  unfold storeId
  rw [wp_bind, wp_get, if_neg (by omega), wp_bind, wp_modify]
  refine wp_mono (trackMaximum_grows hvlow hvhigh (by exact ht)) ?_ fun _ _ => id
  rintro _ t' ⟨-, hids, ht'⟩
  refine ⟨?_, ht'⟩
  rw [hids, List.length_set, hlen]

theorem wlKeySetConfigLayout_inside (hfit : conf.TablesFit maxKeycode) :
    wp (wlKeySetConfigLayout h conf maxKeycode) (fun _ _ => True)
      (fun stop _ => LoadStop h conf maxKeycode stop) t := by
  unfold wlKeySetConfigLayout
  rw [wp_bind, wp_modify, wp_bind]
  refine wp_mono (loadRawKeymap_inside hfit (Nat.zero_le _)) ?_ fun _ _ => id
  intro _ t₁ ht₁
  rw [wp_bind]
  refine wp_mono (loadIdKeymap_inside hfit ht₁) ?_ fun _ _ => id
  intro _ t₂ ht₂
  rw [wp_bind, wp_get, wp_bind]
  refine wp_mono (xcalloc_grants ht₂ (Nat.le_refl 4)) ?_ fun _ _ => id
  rintro _ _ rfl
  rw [dif_pos ht₂]
  trivial

end

/-- Where the codes of the configuration are indices, loading asks for no length that wraps around and stores nothing
outside of the tables; and in every run of events with that layout, an event stays inside the tables exactly if it
fits. -/
theorem input_tables_in_range (h : Heap) (conf : Conf) (maxKeycode : Nat) (t : KeyTables)
    (hfit : conf.TablesFit maxKeycode) : wp (wlKeySetConfigLayout h conf maxKeycode)
      (fun c _ => ∀ buttonMap steps s, Run Inputs.exec (.init c buttonMap) steps s →
        ∀ h' ev, s.InRange h' ev ↔ s.Fits ev)
      (fun stop _ => LoadStop h conf maxKeycode stop) t := by
  refine wp_mono (wlKeySetConfigLayout_inside hfit) ?_ fun _ _ => id
  rintro c _ - buttonMap steps s hrun h' ev
  exact inRange_iff (balanced_of_inputs hrun) ev

/-- The sample can be loaded without a stop. -/
theorem sample_fits : Conf.TablesFit .sample 8 ∧ Conf.ValuesFit .sample 8 :=
  ⟨⟨by decide, by decide, by decide⟩, by decide, by decide, by decide⟩

theorem LoadStop.elim {conf : Conf} {maxKeycode : Nat} (hvals : conf.ValuesFit maxKeycode) {stop : Stop}
    (hstop : LoadStop allowAll conf maxKeycode stop) : False := by
  rcases hstop with ⟨-, n, -, size, -, hok⟩ | ⟨-, hno⟩
  exacts [Bool.noConfusion hok, hno hvals]

theorem input_tables_in_range_sample : wp (wlKeySetConfigLayout allowAll .sample 8)
    (fun c _ => ∀ steps s, Run Inputs.exec (.init c fun i => i) steps s → ∀ h' ev, s.InRange h' ev ↔ s.Fits ev)
    (fun _ _ => False) ⟨[], [], 0⟩ := by
  have hfits := sample_fits
  -- the configuration is not to be evaluated
  generalize Conf.sample = conf at hfits ⊢
  refine wp_mono (input_tables_in_range allowAll conf 8 _ hfits.1) ?_ fun _ _ => LoadStop.elim hfits.2
  exact fun c _ hruns => hruns _

/-- The button of a DMDN with the byte 0xFF is -1, and in front of the button map. -/
theorem mouse_button_out_of_range : ¬ ∀ h conf maxKeycode t, wp (wlKeySetConfigLayout h conf maxKeycode)
    (fun c _ => ∀ buttonMap steps s, Run Inputs.exec (.init c buttonMap) steps s →
      ∀ h' ev, ev.Delivered → s.InRange h' ev)
    (fun stop _ => LoadStop h conf maxKeycode stop) t := by
  intro hall
  have hfits := sample_fits
  generalize Conf.sample = conf at hfits
  have hload := wp_mono (hall allowAll conf 8 ⟨[], [], 0⟩) (fun _ _ => id) fun _ _ => LoadStop.elim hfits.2
  obtain ⟨c, _, -, hruns⟩ := exists_ok_of_wp hload
  have hin : (0 : Int) ≤ -1 := (inRange_iff (WlInput.balanced_init c) _).mp
    (hruns (fun i => i) [] _ .nil allowAll (.mouseButtonDown (-1)) ⟨0xFF, by decide⟩)
  exact absurd hin (by decide)

end Waynergy
