import Waynergy.ClipTransfer

/-!
# What the duplicate check looks at

The check goes from the size field of one entry to the size field 8 bytes behind it, as if no entry had data. Up to
the first entry with data it looks at the entries; behind that it looks at whatever there is at these places.
-/

namespace Waynergy
open Lib
variable {mem data : Bytes} {entries : List (UInt32 × Bytes)} {s : State} {i : Fin 2} {n p : Nat}

/-! ### Looks -/

/-- The size field behind `p` is inside and is the length of `data`. -/
def Announces (mem data : Bytes) (p : Nat) : Prop := p + 8 ≤ mem.length ∧ wordAt mem (p + 4) = data.length

/-- The size field behind `p` is the length of `data`, and `data` stands behind it. -/
def Spells (mem data : Bytes) (p : Nat) : Prop :=
  Announces mem data p ∧ p + 8 + data.length ≤ mem.length ∧ slice mem (p + 8) data.length = data

/-- The size field behind `p` is the length of `data`, and there are too few bytes behind it. -/
def Overruns (mem data : Bytes) (p : Nat) : Prop := Announces mem data p ∧ mem.length < p + 8 + data.length

instance : Decidable (Announces mem data p) := inferInstanceAs (Decidable (_ ∧ _))

/-- What comes of `n` looks from `p` on: the answer, if none of them is behind the end. -/
def looks (mem data : Bytes) : Nat → Nat → Option Bool
  | 0, _ => some false
  | n + 1, p =>
    if Announces mem data p then
      if mem.length < p + 8 + data.length then none
      else if slice mem (p + 8) data.length = data then some true
      else looks mem data n (p + 8)
    else looks mem data n (p + 8)

theorem looks_of_length_lt (h : mem.length < p + 8) : looks mem data n p = some false := by
  induction n generalizing p with
  | zero => rfl
  | succ n ih =>
    have hno : ¬ Announces mem data p := fun ha => absurd ha.1 (by omega)
    rw [looks, if_neg hno]
    exact ih (by omega)

theorem looks_none (h : Overruns mem data p) : looks mem data (n + 1) p = none := by
  rw [looks, if_pos h.1, if_pos h.2]

theorem looks_true (h : Spells mem data p) : looks mem data (n + 1) p = some true := by
  rw [looks, if_pos h.1, if_neg (Nat.not_lt.mpr h.2.1), if_pos h.2.2]

theorem looks_next (hs : ¬ Spells mem data p) (ho : ¬ Overruns mem data p) :
    looks mem data (n + 1) p = looks mem data n (p + 8) := by
  rw [looks]
  split
  · rename_i ha
    have hin : ¬ mem.length < p + 8 + data.length := fun h => ho ⟨ha, h⟩
    have hne : slice mem (p + 8) data.length ≠ data := fun h => hs ⟨ha, Nat.le_of_not_lt hin, h⟩
    rw [if_neg hin, if_neg hne]
  · rfl

/-- Nothing is found if `data` is spelled nowhere, and no look is behind the end. -/
theorem looks_eq_false : looks mem data n p = some false ↔
    ∀ k < n, ¬ Spells mem data (p + 8 * k) ∧ ¬ Overruns mem data (p + 8 * k) := by
  induction n generalizing p with
  | zero => simp [looks]
  | succ n ih =>
    have hshift : ∀ k, p + 8 + 8 * k = p + 8 * (k + 1) := fun k => by omega
    rw [Nat.forall_lt_succ_left, Nat.mul_zero, Nat.add_zero]
    by_cases hs : Spells mem data p
    · rw [looks_true hs]
      exact iff_of_false (by simp) fun h => h.1.1 hs
    · by_cases ho : Overruns mem data p
      · rw [looks_none ho]
        exact iff_of_false (by simp) fun h => h.1.2 ho
      · rw [looks_next hs ho, ih]
        simp only [hshift]
        exact ⟨fun h => ⟨⟨hs, ho⟩, h⟩, And.right⟩

/-- The first place where `data` is spelled is before the first look behind the end. -/
theorem looks_eq_true : looks mem data n p = some true ↔
    ∃ k < n, Spells mem data (p + 8 * k) ∧ ∀ j < k, ¬ Overruns mem data (p + 8 * j) := by
  induction n generalizing p with
  | zero => simp [looks]
  | succ n ih =>
    have hshift : ∀ k, p + 8 + 8 * k = p + 8 * (k + 1) := fun k => by omega
    by_cases hs : Spells mem data p
    · rw [looks_true hs]
      exact iff_of_true rfl ⟨0, by omega, hs, fun _ h => absurd h (Nat.not_lt_zero _)⟩
    · by_cases ho : Overruns mem data p
      · rw [looks_none ho]
        refine iff_of_false (by simp) ?_
        rintro ⟨k, -, hk, hbefore⟩
        cases k with
        | zero => exact hs hk
        | succ k => exact hbefore 0 (Nat.succ_pos k) ho
      · rw [looks_next hs ho, ih]
        simp only [hshift]
        constructor
        · rintro ⟨k, hk, hspells, hbefore⟩
          refine ⟨k + 1, by omega, hspells, ?_⟩
          rw [Nat.forall_lt_succ_left]
          exact ⟨ho, hbefore⟩
        · rintro ⟨k, hk, hspells, hbefore⟩
          cases k with
          | zero => exact absurd hspells hs
          | succ k =>
            rw [Nat.forall_lt_succ_left] at hbefore
            exact ⟨k, by omega, hspells, hbefore.2⟩

/-! ### The loop -/

theorem carries_of_front {block : Bytes} (h : mem <+: block) : Carries ⟨block, 0, mem.length⟩ mem := ⟨rfl, rfl, h⟩

theorem sizeField_run {block : Bytes} (h : mem <+: block) (hcap : mem.length < 2 ^ 63) (hp : p ≤ mem.length) :
    (∃ b, (do sspSeek 4; sspNetU32 : Parse Nat).run ⟨block, p, mem.length⟩ = .error .short b ∧ mem.length < p + 8) ∨
      (do sspSeek 4; sspNetU32 : Parse Nat).run ⟨block, p, mem.length⟩ =
        .ok (wordAt mem (p + 4)) ⟨block, p + 8, mem.length⟩ ∧ p + 8 ≤ mem.length := by
  have hfield := wp_sizeField (carries_of_front h) (p := p) (by omega)
  cases hrun : (do sspSeek 4; sspNetU32 : Parse Nat).run ((⟨block, 0, mem.length⟩ : SspBuf).at p) with
  | error fail b =>
    obtain ⟨rfl, hout⟩ := wp_error hfield hrun
    exact .inl ⟨b, hrun, hout⟩
  | ok flen b =>
    obtain ⟨hin, rfl, rfl⟩ := wp_ok hfield hrun
    exact .inr ⟨hrun, hin⟩

/-- A look that finds nothing inside is followed by the next. -/
theorem containsLoop_next {block : Bytes} (h : mem <+: block)
    (hrun : (do sspSeek 4; sspNetU32 : Parse Nat).run ⟨block, p, mem.length⟩ =
      .ok (wordAt mem (p + 4)) ⟨block, p + 8, mem.length⟩)
    (hin : p + 8 ≤ mem.length) (hs : ¬ Spells mem data p) (ho : ¬ Overruns mem data p) :
    (containsLoop data (n + 1) ⟨block, p, mem.length⟩).run s =
      (containsLoop data n ⟨block, p + 8, mem.length⟩).run s := by
  have hle := h.length_le
  rw [containsLoop, hrun]
  dsimp only
  split
  · rename_i hsize
    have hall : p + 8 + data.length ≤ mem.length := Nat.le_of_not_lt fun h => ho ⟨⟨hin, hsize⟩, h⟩
    have hslice : slice block (p + 8) data.length ≠ data := by
      rw [(carries_of_front h).slice_eq hall]
      exact fun h => hs ⟨⟨hin, hsize⟩, hall, h⟩
    rw [if_neg (by omega), if_neg hslice]
  · rfl

/-- If no look is behind the end, the answer does not depend on what is there. -/
theorem containsLoop_of_looks {block : Bytes} {b : Bool} (h : mem <+: block) (hcap : mem.length < 2 ^ 63)
    (hp : p ≤ mem.length) (hlooks : looks mem data n p = some b) :
    (containsLoop data n ⟨block, p, mem.length⟩).run s = .ok b s := by
  induction n generalizing p with
  | zero =>
    cases hlooks
    rfl
  | succ n ih =>
    rcases sizeField_run h hcap hp with ⟨_, hrun, hout⟩ | ⟨hrun, hin⟩
    · rw [looks_of_length_lt hout] at hlooks
      cases hlooks
      rw [containsLoop, hrun]
      rfl
    · have hle := h.length_le
      by_cases hs : Spells mem data p
      · have hslice : slice block (p + 8) data.length = data := ((carries_of_front h).slice_eq hs.2.1).trans hs.2.2
        rw [looks_true hs] at hlooks
        cases hlooks
        rw [containsLoop, hrun]
        dsimp only
        rw [if_pos hs.1.2, if_neg (by have := hs.2.1; omega), if_pos hslice]
        rfl
      · by_cases ho : Overruns mem data p
        · rw [looks_none ho] at hlooks
          cases hlooks
        · rw [looks_next hs ho] at hlooks
          exact (containsLoop_next h hrun hin hs ho).trans (ih hin hlooks)

/-- A look behind the end is one behind the block if the block ends there. -/
theorem containsLoop_of_looks_none (hcap : mem.length < 2 ^ 63) (hp : p ≤ mem.length)
    (hlooks : looks mem data n p = none) :
    (containsLoop data n ⟨mem, p, mem.length⟩).run s = .error (.fault .clipCompare) s := by
  induction n generalizing p with
  | zero => cases hlooks
  | succ n ih =>
    rcases sizeField_run (List.prefix_refl mem) hcap hp with ⟨_, hrun, hout⟩ | ⟨hrun, hin⟩
    · rw [looks_of_length_lt hout] at hlooks
      cases hlooks
    · by_cases ho : Overruns mem data p
      · rw [containsLoop, hrun]
        dsimp only
        rw [if_pos ho.1.2, if_pos ho.2]
        rfl
      · by_cases hs : Spells mem data p
        · rw [looks_true hs] at hlooks
          cases hlooks
        · rw [looks_next hs ho] at hlooks
          exact (containsLoop_next (List.prefix_refl mem) hrun hin hs ho).trans (ih hin hlooks)

/-! ### The entries -/

/-- `data` is that of an entry before which no entry has data. -/
def Leads (data : Bytes) : List (UInt32 × Bytes) → Prop
  | [] => False
  | entry :: entries => entry.2 = data ∨ entry.2 = [] ∧ Leads data entries

/-- The number of looks at entries: the empty ones at the front, and the first with data. -/
def alignedLooks : List (UInt32 × Bytes) → Nat
  | [] => 0
  | entry :: entries => if entry.2 = [] then alignedLooks entries + 1 else 1

instance decidableLeads (data : Bytes) : ∀ entries, Decidable (Leads data entries)
  | [] => inferInstanceAs (Decidable False)
  | entry :: entries =>
    have := decidableLeads data entries
    inferInstanceAs (Decidable (entry.2 = data ∨ entry.2 = [] ∧ Leads data entries))

theorem Leads.exists_mem (h : Leads data entries) : ∃ entry ∈ entries, entry.2 = data := by
  induction entries with
  | nil => exact h.elim
  | cons entry entries ih =>
    rcases h with h | ⟨-, h⟩
    · exact ⟨entry, .head _, h⟩
    · obtain ⟨entry', hmem, hdata⟩ := ih h
      exact ⟨entry', .tail _ hmem, hdata⟩

/-- The looks at entries see the entries, and the others follow. -/
theorem looks_entries (h : (entries.map encodeEntry).flatten <+: mem.drop p)
    (hsizes : ∀ entry ∈ entries, entry.2.length < 2 ^ 32) : looks mem data entries.length p =
      if Leads data entries then some true
      else looks mem data (entries.length - alignedLooks entries) (p + 8 * alignedLooks entries) := by
  induction entries generalizing p with
  | nil => rfl
  | cons entry entries ih =>
    obtain ⟨hsize, hsizes⟩ := List.forall_mem_cons.mp hsizes
    obtain ⟨more, hmore⟩ := h
    rw [List.map_cons, List.flatten_cons, encodeEntry, List.append_assoc, List.append_assoc, List.append_assoc] at hmore
    have hin : p + 8 + entry.2.length ≤ mem.length := by
      have := congrArg List.length hmore
      simp only [List.length_append, length_be32, List.length_drop] at this
      omega
    have hword : wordAt mem (p + 4) = entry.2.length := by
      rw [← wordAt_drop, ← hmore]
      have : ∀ bs, wordAt (be32 entry.1.toNat ++ (be32 entry.2.length ++ bs)) 4 = beNat (be32 entry.2.length) :=
        fun _ => rfl
      rw [this, beNat_be32 hsize]
    have hrest : mem.drop (p + 8) = entry.2 ++ ((entries.map encodeEntry).flatten ++ more) := by
      rw [← List.drop_drop, ← hmore]
      rfl
    have hdata : slice mem (p + 8) entry.2.length = entry.2 := by
      rw [slice, hrest, List.take_left]
    by_cases heq : entry.2 = data
    · subst heq
      rw [List.length_cons, looks_true ⟨⟨by omega, hword⟩, hin, hdata⟩, if_pos (.inl rfl)]
    · have hs : ¬ Spells mem data p := by
        rintro ⟨⟨-, hlen⟩, -, hslice⟩
        rw [← hlen, hword, hdata] at hslice
        exact heq hslice
      have ho : ¬ Overruns mem data p := by
        rintro ⟨⟨-, hlen⟩, hshort⟩
        omega
      have hleads : Leads data (entry :: entries) ↔ entry.2 = [] ∧ Leads data entries :=
        ⟨fun h => h.resolve_left heq, .inr⟩
      rw [List.length_cons, looks_next hs ho]
      simp only [hleads, alignedLooks]
      by_cases hempty : entry.2 = []
      · rw [hempty, List.nil_append] at hrest
        rw [ih ⟨more, hrest.symm⟩ hsizes, if_pos hempty, Nat.add_sub_add_right, Nat.mul_add, ← Nat.add_assoc,
          Nat.add_right_comm]
        simp only [hempty, true_and]
      · rw [if_neg hempty, if_neg fun h => hempty h.1]
        rfl

/-! ### The check -/

/-- The slot with a block that ends where the recorded size does. -/
def ClipSlot.cut (c : ClipSlot) : ClipSlot := { c with buf := c.buf.map (·.take c.len) }

/-- The check answers whether `data` is that of an entry, and it stays inside the recorded size: it would go through
if the block ended there. -/
def FindsExactly (i : Fin 2) (data : Bytes) (entries : List (UInt32 × Bytes)) (s : State) : Prop :=
  (∃ b, (uSynergyClipBufContains i data).run s = .ok b s ∧ (b = true ↔ ∃ entry ∈ entries, entry.2 = data)) ∧
    ∃ b, (uSynergyClipBufContains i data).run (s.setSlot i (s.ctx.clip i).cut) = .ok b (s.setSlot i (s.ctx.clip i).cut)

/-- The looks that are not at an entry: after the first entry with data, one for each entry that is left. -/
def StrayLook (entries : List (UInt32 × Bytes)) (p : Nat) : Prop :=
  ∃ k, alignedLooks entries ≤ k ∧ k < entries.length ∧ p = 4 + 8 * k

/-- What the looks that are not at an entry must see: nothing like `data` if no entry has it, and otherwise `data`, by
chance, before they see its length too near to the end. -/
def StraysAgree (mem data : Bytes) (entries : List (UInt32 × Bytes)) : Prop :=
  if ∃ entry ∈ entries, entry.2 = data then
    ∃ p, StrayLook entries p ∧ Spells mem data p ∧ ∀ q < p, StrayLook entries q → ¬ Overruns mem data q
  else ∀ p, StrayLook entries p → ¬ Spells mem data p ∧ ¬ Overruns mem data p

theorem looks_agree_iff (hn : alignedLooks entries ≤ entries.length) :
    (∃ b, looks mem data (entries.length - alignedLooks entries) (4 + 8 * alignedLooks entries) = some b ∧
      (b = true ↔ ∃ entry ∈ entries, entry.2 = data)) ↔ StraysAgree mem data entries := by
  have hplace : ∀ k, 4 + 8 * alignedLooks entries + 8 * k = 4 + 8 * (alignedLooks entries + k) := fun k => by omega
  unfold StraysAgree
  split
  · rename_i hmem
    simp only [iff_true_intro hmem, iff_true, exists_eq_right, looks_eq_true, hplace]
    constructor
    · rintro ⟨k, hk, hspells, hbefore⟩
      refine ⟨_, ⟨_, Nat.le_add_right _ k, by omega, rfl⟩, hspells, ?_⟩
      rintro q hq ⟨j, hj, -, rfl⟩
      have := hbefore (j - alignedLooks entries) (by omega)
      rwa [Nat.add_sub_cancel' hj] at this
    · rintro ⟨_, ⟨k, hk, hkn, rfl⟩, hspells, hbefore⟩
      refine ⟨k - alignedLooks entries, by omega, by rwa [Nat.add_sub_cancel' hk], fun j hj => ?_⟩
      exact hbefore _ (by omega) ⟨_, Nat.le_add_right _ j, by omega, rfl⟩
  · rename_i hmem
    simp only [iff_false_intro hmem, iff_false, Bool.not_eq_true, exists_eq_right, looks_eq_false, hplace]
    constructor
    · rintro hnone _ ⟨k, hk, hkn, rfl⟩
      have := hnone (k - alignedLooks entries) (by omega)
      rwa [Nat.add_sub_cancel' hk] at this
    · exact fun hnone k hk => hnone _ ⟨_, Nat.le_add_right _ k, by omega, rfl⟩

theorem alignedLooks_le : alignedLooks entries ≤ entries.length := by
  induction entries with
  | nil => exact Nat.le_refl _
  | cons entry entries ih =>
    rw [alignedLooks, List.length_cons]
    split <;> omega

/-- The check with the block `block`, of which the first bytes are those inside the recorded size. -/
theorem contains_run {c : ClipSlot} {block inside : Bytes} (hc : s.ctx.clip i = c) (hbuf : c.buf = some block)
    (hstr : c.inStream = false) (hlen : c.len = inside.length) (hblock : inside <+: block)
    (hentries : encodeClipboard entries <+: inside) (hinside : inside.length < 2 ^ 32) :
    (uSynergyClipBufContains i data).run s =
      (containsLoop data entries.length ⟨block, 4, inside.length⟩).run s := by
  have hcount := count_encodeClipboard (Nat.lt_of_le_of_lt hentries.length_le hinside)
  have hle := le_length_encodeClipboard entries
  have hle' := hentries.length_le
  have hcarries := carries_of_front hblock
  have hword : beNat (slice inside 0 4) = entries.length := by
    obtain ⟨more, rfl⟩ := hentries
    rw [← hcount]
    exact wordAt_append (by omega)
  have htake := hcarries.sspTake_run (p := 0) (n := 4) (by decide)
  rw [if_pos (by omega)] at htake
  have hrun : (sspNetU32 : Parse Nat).run ⟨block, 0, inside.length⟩ =
      .ok entries.length ⟨block, 4, inside.length⟩ := by
    rw [sspNetU32, sspNetInt, EStateM.run_bind, hcarries.eq_at, htake, ← hword]
    rfl
  unfold uSynergyClipBufContains
  rw [EStateM.run_bind, EStateM.run_get]
  dsimp only
  rw [hc, hbuf]
  dsimp only
  rw [hstr, hlen, hrun]
  rfl

/-- The answer is that of the looks, with the block as it is and with the block cut. -/
theorem findsExactly_iff_looks {c : ClipSlot} {block : Bytes} (hc : s.ctx.clip i = c) (hbuf : c.buf = some block)
    (hstr : c.inStream = false) (hlen : c.len ≤ block.length) (hword : c.len < 2 ^ 32)
    (hentries : encodeClipboard entries <+: block.take c.len) : FindsExactly i data entries s ↔
      ∃ b, looks (block.take c.len) data entries.length 4 = some b ∧
        (b = true ↔ ∃ entry ∈ entries, entry.2 = data) := by
  have hinlen : c.len = (block.take c.len).length := by rw [List.length_take, Nat.min_eq_left hlen]
  have hblock : block.take c.len <+: block := List.take_prefix _ _
  have hfour : 4 ≤ (block.take c.len).length := by
    have hencoded := le_length_encodeClipboard entries
    have hinside := hentries.length_le
    omega
  have hbufcut : c.cut.buf = some (block.take c.len) := by rw [ClipSlot.cut, hbuf, Option.map_some]
  generalize block.take c.len = inside at *
  have hsmall : inside.length < 2 ^ 32 := hinlen ▸ hword
  have hrun : (uSynergyClipBufContains i data).run s = _ :=
    contains_run hc hbuf hstr hinlen hblock hentries hsmall
  have hcut : (uSynergyClipBufContains i data).run (s.setSlot i c.cut) = _ :=
    contains_run (State.setSlot_self s i c.cut) hbufcut hstr hinlen (List.prefix_refl inside) hentries hsmall
  unfold FindsExactly
  rw [hc, hrun, hcut]
  cases hb : looks inside data entries.length 4 with
  | none =>
    rw [containsLoop_of_looks_none (by omega) hfour hb]
    refine iff_of_false ?_ ?_
    · rintro ⟨-, b, h⟩
      cases h
    · rintro ⟨b, h, -⟩
      cases h
  | some b =>
    rw [containsLoop_of_looks hblock (by omega) hfour hb,
      containsLoop_of_looks (List.prefix_refl inside) (by omega) hfour hb]
    constructor
    · rintro ⟨⟨b', hb', hiff⟩, -⟩
      cases hb'
      exact ⟨b, rfl, hiff⟩
    · rintro ⟨b', hb', hiff⟩
      cases hb'
      exact ⟨⟨b, rfl, hiff⟩, b, rfl⟩

/-- The check is right exactly if the text is that of an entry before which no entry has data, or what is looked at
behind that looks right by chance. -/
theorem finds_exactly_iff (data : Bytes) (hstr : (s.ctx.clip i).inStream = false)
    (hlen : (s.ctx.clip i).len ≤ (s.ctx.clip i).cap) (hword : (s.ctx.clip i).len < 2 ^ 32)
    (hentries : encodeClipboard entries <+: (s.ctx.clip i).mem.take (s.ctx.clip i).len) :
    FindsExactly i data entries s ↔
      Leads data entries ∨ StraysAgree ((s.ctx.clip i).mem.take (s.ctx.clip i).len) data entries := by
  have hlen4 := le_length_encodeClipboard entries
  generalize hc : s.ctx.clip i = c at *
  cases hbuf : c.buf with
  | none =>
    have hmem : c.mem = [] := by rw [ClipSlot.mem, hbuf]; rfl
    have := hentries.length_le
    rw [hmem, List.take_nil, List.length_nil] at this
    omega
  | some block =>
    have hmem : c.mem = block := by rw [ClipSlot.mem, hbuf]; rfl
    rw [ClipSlot.cap, hmem] at hlen
    rw [hmem] at hentries ⊢
    have hflat : (entries.map encodeEntry).flatten <+: (block.take c.len).drop 4 := by
      obtain ⟨more, hmore⟩ := hentries
      rw [← hmore]
      exact ⟨more, rfl⟩
    have hlooks : looks (block.take c.len) data entries.length 4 = _ := looks_entries hflat fun entry he => by
      have hentry := length_entry_le he
      have hinside := hentries.length_le
      rw [List.length_take] at hinside
      omega
    rw [findsExactly_iff_looks hc hbuf hstr hlen hword hentries, hlooks]
    split
    · rename_i hleads
      exact iff_of_true ⟨true, rfl, iff_of_true rfl hleads.exists_mem⟩ (.inl hleads)
    · rename_i hleads
      rw [looks_agree_iff alignedLooks_le]
      exact ⟨.inr, fun h => h.resolve_left hleads⟩

/-! ### Two texts -/

/-- Two texts of one byte. -/
def twoTexts : List (UInt32 × Bytes) := [(0, ascii ['a']), (0, ascii ['b'])]

/-- A slot that holds exactly the two texts. -/
def ClipSlot.twoTexts : ClipSlot :=
  { ClipSlot.zero with buf := some (encodeClipboard Waynergy.twoTexts), len := 22 }

theorem finds_exactly_iff_first : FindsExactly 0 (ascii ['a']) twoTexts ((State.opened .sample).setSlot 0 .twoTexts) ↔
    Leads (ascii ['a']) twoTexts ∨ StraysAgree (ClipSlot.twoTexts.mem.take 22) (ascii ['a']) twoTexts :=
  @finds_exactly_iff twoTexts ((State.opened .sample).setSlot 0 .twoTexts) 0 _ rfl (by decide) (by decide) (by decide)

/-- The second text is there, and it is not found. -/
theorem second_not_found : ¬ FindsExactly 0 (ascii ['b']) twoTexts ((State.opened .sample).setSlot 0 .twoTexts) := by
  rintro ⟨⟨b, hrun, hiff⟩, -⟩
  rw [contains_run (State.setSlot_self _ _ _) rfl rfl rfl (List.prefix_refl _) (List.prefix_refl _) (by decide),
    containsLoop_of_looks (List.prefix_refl _) (by decide) (by decide) (b := false) (by decide)] at hrun
  cases hrun
  exact Bool.false_ne_true (hiff.mpr ⟨(0, ascii ['b']), .tail _ (.head _), rfl⟩)

end Waynergy
