import Waynergy.Mapper

/-!
# What the mapper prints (`mapper.c`)

The keys that are asked for are answered one after another. The arrays hold the answers when the mapper prints them, but
the loops of the printers stop in front of the maximum.
-/

namespace Waynergy
open Lib

/-! ### Answers -/

/-- What the mapper is told for a key. -/
inductive Answer
  | store (code : UInt32)
  | skip

/-- The code of a released key is 8 less than that of its answer. -/
def Answer.event : Answer → MapperEvent
  | .store code => .key (code - 8) false
  | .skip => .button .left false

def Answer.code : Answer → Option Nat
  | .store code => some code.toNat
  | .skip => none

namespace Mapper

/-- How many keys are asked for in front of `k`. -/
def askedBefore (km : LocalKeymap) (k : Nat) : Nat := (List.range' km.min (k - km.min)).countP fun i => Named km i

/-- The code that `k` is answered with. -/
def answerFor (km : LocalKeymap) (answers : List Answer) (k : Nat) : Option Nat :=
  if Named km k then answers[askedBefore km k]?.bind Answer.code else none

/-- The keys of a range and the codes that they are answered with. -/
def answeredIn (km : LocalKeymap) (answers : List Answer) (keys : List Nat) : List (Nat × Nat) :=
  keys.filterMap fun k => (answerFor km answers k).map fun code => (k, code)

def answered (km : LocalKeymap) (answers : List Answer) : List (Nat × Nat) :=
  answeredIn km answers (List.range' km.min (km.max + 1 - km.min))

/-- The mapping is started, the answers are given, and the output is asked for, if it is not printed before. -/
def session (answers : List Answer) : List MapperEvent :=
  .button .left false :: (answers.map Answer.event ++ [.button .right false])

/-- What is printed in a session. -/
def printed (km : LocalKeymap) (opts : MapperOptions) (answers : List Answer) : List Bytes :=
  printedAfter km opts (session answers) (rawKeymapInit km)

variable {km : LocalKeymap} {opts : MapperOptions} {answers : List Answer} {s s' : Mapper} {p q n : Nat}

theorem askedBefore_succ (h : km.min ≤ p) :
    askedBefore km (p + 1) = askedBefore km p + if Named km p then 1 else 0 := by
  have hlen : p + 1 - km.min = p - km.min + 1 := by omega
  have hlast : km.min + (p - km.min) = p := by omega
  unfold askedBefore
  rw [hlen, List.range'_1_concat, List.countP_append, hlast, List.countP_singleton]
  simp

theorem askedBefore_mono (hp : km.min ≤ p) (h : p ≤ q) : askedBefore km p ≤ askedBefore km q := by
  induction q, h using Nat.le_induction with
  | base => exact Nat.le_refl _
  | succ q hpq ih =>
    rw [askedBefore_succ (Nat.le_trans hp hpq)]
    exact Nat.le_trans ih (Nat.le_add_right _ _)

theorem askedBefore_eq (hp : km.min ≤ p) (h : p ≤ q) (hnone : ∀ i, p ≤ i → i < q → ¬ Named km i) :
    askedBefore km q = askedBefore km p := by
  induction q, h using Nat.le_induction with
  | base => rfl
  | succ q hpq ih =>
    rw [askedBefore_succ (Nat.le_trans hp hpq), if_neg (hnone q hpq (Nat.lt_succ_self q)), Nat.add_zero]
    exact ih fun i hi hlt => hnone i hi (Nat.lt_succ_of_lt hlt)

theorem answerFor_unnamed (h : ¬ Named km p) : answerFor km answers p = none := if_neg h

/-! ### The arrays -/

/-- The arrays hold the answers for the keys in front of `p`, and are as they were from there on. -/
structure Agrees (km : LocalKeymap) (answers : List Answer) (p : Nat) (s : Mapper) : Prop where
  codes : ∀ i, km.min ≤ i → s.rawKeymap i =
    (if i < p then answerFor km answers i else none).getD (if i < km.max then i else 0)
  marks : ∀ i, km.min ≤ i → s.rawKeymapSet i = (if i < p then answerFor km answers i else none).isSome
  out : s.outFile = []

theorem agrees_init : Agrees km answers km.min (rawKeymapInit km) :=
  ⟨fun i hi => by rw [if_neg (Nat.not_lt.mpr hi)]; rfl, fun i hi => by rw [if_neg (Nat.not_lt.mpr hi)]; rfl, rfl⟩

theorem Agrees.pass (h : Agrees km answers p s) (hle : p ≤ q)
    (hnone : ∀ i, p ≤ i → i < q → answerFor km answers i = none) : Agrees km answers q s := by
  have hsame : ∀ i, (if i < p then answerFor km answers i else none) = if i < q then answerFor km answers i else none := by
    intro i
    by_cases hp : i < p
    · rw [if_pos hp, if_pos (Nat.lt_of_lt_of_le hp hle)]
    · rw [if_neg hp]
      split
      · rename_i hq
        exact (hnone i (Nat.not_lt.mp hp) hq).symm
      · rfl
  exact ⟨fun i hi => by rw [h.codes i hi, hsame], fun i hi => by rw [h.marks i hi, hsame], h.out⟩

theorem Agrees.store {code : Nat} (h : Agrees km answers p s) (hcode : answerFor km answers p = some code) :
    Agrees km answers (p + 1) { s with
      rawKeymap := Function.update s.rawKeymap p code
      rawKeymapSet := Function.update s.rawKeymapSet p true } := by
  have hother : ∀ i, i ≠ p → (if i < p + 1 then answerFor km answers i else none) =
      if i < p then answerFor km answers i else none := fun i hne => by
    by_cases hp : i < p
    · rw [if_pos hp, if_pos (Nat.lt_succ_of_lt hp)]
    · rw [if_neg hp, if_neg (by omega)]
  refine ⟨fun i hi => ?_, fun i hi => ?_, h.out⟩
  · by_cases hip : i = p
    · subst hip
      rw [if_pos (Nat.lt_succ_self i), hcode]
      exact Function.update_self ..
    · rw [hother i hip, ← h.codes i hi]
      exact Function.update_of_ne hip ..
  · by_cases hip : i = p
    · subst hip
      rw [if_pos (Nat.lt_succ_self i), hcode]
      exact Function.update_self ..
    · rw [hother i hip, ← h.marks i hi]
      exact Function.update_of_ne hip ..

/-! ### A session -/

/-- The mapper asks for the key that gets the answer number `n`. -/
structure Prompts (km : LocalKeymap) (answers : List Answer) (n : Nat) (s : Mapper) : Prop extends Asks km s where
  started : s.started = true
  count : askedBefore km s.rawKeymapPos = n
  agrees : Agrees km answers s.rawKeymapPos s

/-- The mapper has printed all answers. -/
def Finished (km : LocalKeymap) (opts : MapperOptions) (answers : List Answer) (stop : MapperStop) (s' : Mapper) : Prop :=
  ∃ s, Agrees km answers (km.max + 1) s ∧ Ends km opts s stop s'

theorem prompts_next (hlow : km.min ≤ s.rawKeymapPos) (hhigh : s.rawKeymapPos ≤ km.max) (hstarted : s.started = true)
    (hcount : askedBefore km s.rawKeymapPos = n) (h : Agrees km answers s.rawKeymapPos s) :
    wp (rawKeymapPrompt km opts) (fun _ s' => Prompts km answers n s') (Finished km opts answers) s := by
  refine wp_mono (rawKeymapPrompt_spec hhigh) ?_ ?_
  · rintro _ _ ⟨q, hle, hmax, hq, hbetween, rfl⟩
    have hcount' : askedBefore km q = n := (askedBefore_eq hlow hle hbetween).trans hcount
    obtain ⟨hcodes, hmarks, hout⟩ := h.pass hle fun i hi hlt => answerFor_unnamed (hbetween i hi hlt)
    exact ⟨⟨Nat.le_trans hlow hle, hmax, fun _ => hq⟩, hstarted, hcount', hcodes, hmarks, hout⟩
  · rintro stop s' ⟨hnone, hends⟩
    exact ⟨s, h.pass (Nat.le_succ_of_le hhigh) fun i hi hlt => answerFor_unnamed (hnone i hi (Nat.le_of_lt_succ hlt)), hends⟩

/-- An answer is taken. -/
theorem Prompts.answer {a : Answer} (h : Prompts km answers n s) (ha : answers[n]? = some a) :
    wp (a.event.exec km opts) (fun _ s' => Prompts km answers (n + 1) s') (Finished km opts answers) s := by
  have hnamed : Named km s.rawKeymapPos := h.named h.started
  have hanswer : answerFor km answers s.rawKeymapPos = a.code := by
    unfold answerFor
    rw [if_pos hnamed, h.count, ha]
    rfl
  have hcount : askedBefore km (s.rawKeymapPos + 1) = n + 1 := by rw [askedBefore_succ h.low, if_pos hnamed, h.count]
  have hlow : km.min ≤ s.rawKeymapPos + 1 := Nat.le_succ_of_le h.low
  cases a with
  | store code =>
    have hstored := h.agrees.store hanswer
    have hcode : code - 8 + 8 = code := UInt32.sub_add_cancel code 8
    show wp (keyboardKey km opts (code - 8) false) _ _ s
    rw [wp_keyReleased h.started, hcode]
    refine wp_mono (rawKeymapStore_spec code.toNat h.high) ?_ ?_
    · rintro _ _ ⟨hlt, rfl⟩
      exact prompts_next hlow hlt h.started hcount ⟨hstored.codes, hstored.marks, hstored.out⟩
    · rintro stop s' ⟨hend, hends⟩
      rw [hend] at hstored hends
      exact ⟨_, hstored, hends⟩
  | skip =>
    have hpassed : Agrees km answers (s.rawKeymapPos + 1) s := h.agrees.pass (Nat.le_succ _) fun i hi hlt => by
      obtain rfl : i = s.rawKeymapPos := by omega
      exact hanswer
    show wp (pointerButton km opts .left false) _ _ s
    rw [wp_clicked h.started]
    refine wp_mono (rawKeymapNext_spec h.high) ?_ ?_
    · rintro _ _ ⟨hlt, rfl⟩
      exact prompts_next hlow hlt h.started hcount ⟨hpassed.codes, hpassed.marks, hpassed.out⟩
    · rintro stop s' ⟨hend, hends⟩
      rw [hend] at hpassed
      exact ⟨s, hpassed, hends⟩

theorem forM_cons_wp {e : MapperEvent} {es : List MapperEvent} {Q : Unit → Mapper → Prop}
    {E : MapperStop → Mapper → Prop} : wp ((e :: es).forM (MapperEvent.exec km opts)) Q E s ↔
      wp (e.exec km opts) (fun _ s' => wp (es.forM (MapperEvent.exec km opts)) Q E s') E s :=
  wp_bind (e.exec km opts) fun _ => es.forM (MapperEvent.exec km opts)

/-- The answers that are left are taken, and then the output is printed. -/
theorem Prompts.finish {rest : List Answer} (h : Prompts km answers n s) (hrest : answers.drop n = rest) :
    wp ((rest.map Answer.event ++ [MapperEvent.button .right false]).forM (MapperEvent.exec km opts)) (fun _ _ => False)
      (Finished km opts answers) s := by
  induction rest generalizing n s with
  | nil =>
    have hlen : answers.length ≤ n := List.drop_eq_nil_iff.mp hrest
    rw [List.map_nil, List.nil_append, forM_cons_wp]
    show wp (pointerButton km opts .right false) _ _ s
    rw [wp_clicked h.started]
    refine wp_mono printOutput_spec (fun _ _ => False.elim) fun stop s' hends => ⟨s, ?_, hends⟩
    -- no answer is left for the keys from here on
    refine h.agrees.pass (Nat.le_succ_of_le h.high) fun i hi _ => ?_
    have hcount := askedBefore_mono h.low hi
    rw [h.count] at hcount
    unfold answerFor
    rw [List.getElem?_eq_none (Nat.le_trans hlen hcount), Option.bind_none, ite_self]
  | cons a rest ih =>
    have ha : answers[n]? = some a := by
      rw [← List.head?_drop, hrest]
      rfl
    have hrest' : answers.drop (n + 1) = rest := by
      rw [← List.drop_drop, hrest]
      rfl
    rw [List.map_cons, List.cons_append, forM_cons_wp]
    exact wp_mono (h.answer ha) (fun _ s' h' => ih h' hrest') fun _ _ => id

theorem session_finishes : wp ((session answers).forM (MapperEvent.exec km opts)) (fun _ _ => False)
    (Finished km opts answers) (rawKeymapInit km) := by
  have hzero : askedBefore km km.min = 0 := by
    unfold askedBefore
    rw [Nat.sub_self]
    rfl
  have hinit : Agrees km answers km.min (rawKeymapInit km) := agrees_init
  have hstarted : (rawKeymapInit km).started = false := rfl
  unfold session
  rw [forM_cons_wp]
  show wp (pointerButton km opts .left false) _ _ _
  unfold pointerButton buttonReleased
  rw [wp_ite, if_neg Bool.false_ne_true, wp_bind, wp_bind, wp_get, wp_ite, if_pos hstarted, wp_modify]
  refine wp_mono (prompts_next (Nat.le_refl _) km.min_le rfl hzero ⟨hinit.codes, hinit.marks, hinit.out⟩) ?_ fun _ _ => id
  exact fun _ s' h => h.finish rfl

/-- In the end the lines for all answers are printed. -/
theorem printed_eq (km : LocalKeymap) (opts : MapperOptions) (answers : List Answer) :
    ∃ s, Agrees km answers (km.max + 1) s ∧ printed km opts answers = outputLines km opts s := by
  have hsession : wp ((session answers).forM (MapperEvent.exec km opts)) (fun _ _ => False)
    (Finished km opts answers) (rawKeymapInit km) := session_finishes
  unfold printed printedAfter
  unfold wp at hsession
  split at hsession
  · exact hsession.elim
  · rename_i stop s' heq
    obtain ⟨s, hagrees, -, hout⟩ := hsession
    rw [heq]
    refine ⟨s, hagrees, ?_⟩
    rw [hagrees.out] at hout
    exact hout

/-! ### The lines -/

/-- The `xkb_keycodes` section for some keys and codes. Without keys there is none. -/
def xkbSection (km : LocalKeymap) (secName : Bytes) (pairs : List (Nat × Nat)) : List Bytes :=
  if pairs = [] then []
  else xkbHeader secName (pairs.map Prod.snd) ++
    pairs.map (fun p => xkbLine ((km.keyName p.1).getD []) p.2) ++ [xkbEnd]

theorem mem_answeredIn {keys : List Nat} {pair : Nat × Nat} :
    pair ∈ answeredIn km answers keys ↔ pair.1 ∈ keys ∧ answerFor km answers pair.1 = some pair.2 := by
  obtain ⟨k, code⟩ := pair
  unfold answeredIn
  simp only [List.mem_filterMap, Option.map_eq_some_iff, Prod.mk.injEq]
  constructor
  · rintro ⟨_, hk, _, hcode, rfl, rfl⟩
    exact ⟨hk, hcode⟩
  · rintro ⟨hk, hcode⟩
    exact ⟨k, hk, code, hcode, rfl, rfl⟩

theorem mem_looped {i : Nat} : i ∈ looped km ↔ km.min ≤ i ∧ i < km.max := by
  have hle := km.min_le
  unfold looped
  rw [List.mem_range'_1]
  omega

/-- All keys but the one at the maximum are in the range of the loops. -/
theorem answered_eq : answered km answers = answeredIn km answers (looped km) ++ answeredIn km answers [km.max] := by
  have hle := km.min_le
  have hlen : km.max + 1 - km.min = km.max - km.min + 1 := by omega
  have hlast : km.min + (km.max - km.min) = km.max := by omega
  unfold answered looped
  rw [hlen, List.range'_1_concat, hlast]
  exact List.filterMap_append

theorem Agrees.code {i : Nat} (h : Agrees km answers (km.max + 1) s) (hi : i ∈ looped km) :
    s.rawKeymap i = (answerFor km answers i).getD i := by
  obtain ⟨hlow, hhigh⟩ := mem_looped.mp hi
  rw [h.codes i hlow, if_pos (Nat.lt_succ_of_lt hhigh), if_pos hhigh]

theorem Agrees.mark {i : Nat} (h : Agrees km answers (km.max + 1) s) (hi : i ∈ looped km) :
    s.rawKeymapSet i = (answerFor km answers i).isSome := by
  obtain ⟨hlow, hhigh⟩ := mem_looped.mp hi
  rw [h.marks i hlow, if_pos (Nat.lt_succ_of_lt hhigh)]

theorem Agrees.rawLines (h : Agrees km answers (km.max + 1) s) : rawLines km s =
    ((answeredIn km answers (looped km)).filter fun p => p.2 ≠ p.1).map fun p => rawLine p.2 p.1 := by
  unfold Mapper.rawLines answeredIn
  rw [List.filter_filterMap, List.map_filterMap]
  refine List.filterMap_congr fun i hi => ?_
  rw [h.code hi]
  cases hcode : answerFor km answers i with
  | none => simp
  | some code => by_cases hne : code = i <;> simp [hne]

theorem Agrees.counted (h : Agrees km answers (km.max + 1) s) (xkbOutName : Option Bytes) :
    counted km ⟨xkbOutName, false⟩ s = (answeredIn km answers (looped km)).map Prod.fst := by
  have hmark : ∀ i ∈ looped km, (s.rawKeymapSet i || false) = (answerFor km answers i).isSome := fun i hi => by
    rw [h.mark hi, Bool.or_false]
  unfold Mapper.counted answeredIn
  rw [List.filter_congr hmark, List.map_filterMap, ← List.filterMap_eq_filter]
  refine List.filterMap_congr fun i _ => ?_
  cases hanswer : answerFor km answers i <;> simp [Option.guard, hanswer]

theorem printed_raw (km : LocalKeymap) (answers : List Answer) (skipped : Bool) : printed km ⟨none, skipped⟩ answers =
    rawHeader :: ((answeredIn km answers (looped km)).filter fun p => p.2 ≠ p.1).map fun p => rawLine p.2 p.1 := by
  obtain ⟨s, hagrees, hprinted⟩ := printed_eq km ⟨none, skipped⟩ answers
  rw [hprinted, ← hagrees.rawLines]
  rfl

theorem printed_xkb (km : LocalKeymap) (answers : List Answer) (secName : Bytes) :
    printed km ⟨some secName, false⟩ answers = xkbSection km secName (answeredIn km answers (looped km)) := by
  obtain ⟨s, hagrees, hprinted⟩ := printed_eq km ⟨some secName, false⟩ answers
  have hcode : ∀ p ∈ answeredIn km answers (looped km), s.rawKeymap p.1 = p.2 := fun p hp => by
    obtain ⟨hloop, hanswer⟩ := mem_answeredIn.mp hp
    rw [hagrees.code hloop, hanswer, Option.getD_some]
  have hname : ∀ p ∈ answeredIn km answers (looped km), km.keyName p.1 = some ((km.keyName p.1).getD []) := fun p hp => by
    obtain ⟨-, hanswer⟩ := mem_answeredIn.mp hp
    by_cases hnamed : Named km p.1
    · obtain ⟨name, hname⟩ := Option.isSome_iff_exists.mp hnamed
      rw [hname, Option.getD_some]
    · rw [answerFor_unnamed hnamed] at hanswer
      cases hanswer
  rw [hprinted]
  unfold outputLines xkbSection xkbLines
  dsimp only
  have hcodes : ((answeredIn km answers (looped km)).map Prod.fst).map s.rawKeymap =
      (answeredIn km answers (looped km)).map Prod.snd := by
    rw [List.map_map]
    exact List.map_congr_left hcode
  have hlines : (((answeredIn km answers (looped km)).map Prod.fst).filterMap fun i =>
      (km.keyName i).map fun name => xkbLine name (s.rawKeymap i)) =
      (answeredIn km answers (looped km)).map fun p => xkbLine ((km.keyName p.1).getD []) p.2 := by
    rw [List.filterMap_map, ← List.filterMap_eq_map]
    refine List.filterMap_congr fun p hp => ?_
    show (km.keyName p.1).map _ = some _
    rw [hname p hp, Option.map_some, hcode p hp]
  rw [hagrees.counted, hcodes, hlines]
  simp only [List.map_eq_nil_iff]

end Mapper
end Waynergy
