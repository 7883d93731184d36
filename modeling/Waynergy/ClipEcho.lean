import Waynergy.ClipSend

/-!
# When the text of a server is recognised as it comes back

After a transfer the local clipboard holds a text of the server, and the next local update reports it. The
duplicate check then looks in the block, but it goes by the recorded size, which the start message did not set,
and from one size field to the next without the data between them.
-/

namespace Waynergy
open Lib
variable {s : State} {i : Fin 2} {c : ClipSlot} {t : Bytes}

/-- The local update leaves the clipboard as it is and sends nothing. -/
def Ignores (h : Heap) (sent : Bool) (i : Fin 2) (t : Bytes) (s : State) : Prop :=
  wp (uSynergyUpdateClipBuf h sent i t) (fun _ s' => s'.ctx.clip = s.ctx.clip ∧ s'.out = s.out) (fun _ _ => False) s

theorem ignores_iff {h : Heap} {sent : Bool} (hs : (s.ctx.clip i).Sized) (hfree : (s.ctx.clip i).grabbed = false) :
    Ignores h sent i t s ↔ (s.ctx.clip i).Contains t := by
  have hcontains := contains_iff i t s hs
  constructor
  · intro hig
    by_contra hnot
    refine not_wp_false (wp_mono (wp_and hig (updateClipBuf_spec h sent i t s)) ?_ fun _ _ h => h.1)
    rintro _ s' ⟨⟨hclip, -⟩, ⟨hrun, -⟩ | ⟨-, buf, -, -, hsends⟩⟩
    · exact hnot ((wp_ok hcontains hrun).2.mp rfl)
    · have hgrabbed : (s'.ctx.clip i).grabbed = true := by
        rw [hsends.becomes.clip, Function.update_self]
        rfl
      rw [hclip, hfree] at hgrabbed
      cases hgrabbed
  · intro hyes
    unfold Ignores uSynergyUpdateClipBuf
    rw [wp_bind]
    refine wp_mono hcontains ?_ fun _ _ h => h.2.2 hyes
    rintro b s' ⟨hs', hb⟩
    rw [hs', hb.mpr hyes, if_pos rfl]
    exact ⟨rfl, rfl⟩

/-- What the block holds behind the payload `p` after a transfer. -/
def ClipSlot.behind (c : ClipSlot) (p : Bytes) : Bytes := if c.len < p.length then [] else c.mem.drop p.length

/-- One of the size fields that the check looks at is covered by the recorded size and is the length of `t`, and
the bytes behind it are `t`. -/
def Recognised (c : ClipSlot) (p t : Bytes) : Prop :=
  ∃ k < wordAt p 0, 12 + 8 * k ≤ c.len ∧ wordAt p (8 + 8 * k) = t.length ∧
    slice (p ++ c.behind p) (12 + 8 * k) t.length = t

theorem ClipSlot.Sized.received {p : Bytes} (hc : c.Sized) (hp : p.length < 2 ^ 31) :
    (c.received p (c.behind p)).Sized := by
  have hlen := hc.len
  have hcap := hc.cap
  have hcap' : (c.received p (c.behind p)).cap = p.length + (c.behind p).length := List.length_append
  have hbehind : (c.behind p).length = if c.len < p.length then 0 else c.cap - p.length := by
    unfold ClipSlot.behind
    split
    exacts [rfl, List.length_drop]
  have hlen' : c.len ≤ p.length + (c.behind p).length := by rw [hbehind]; split <;> omega
  refine ⟨hcap' ▸ hlen', ?_, (nomatch ·), (nomatch ·)⟩
  rw [hcap', hbehind]
  split <;> omega

theorem received_contains (entries : List (UInt32 × Bytes)) (hp : (encodeClipboard entries).length < 2 ^ 32) :
    (c.received (encodeClipboard entries) (c.behind (encodeClipboard entries))).Contains t ↔
      Recognised c (encodeClipboard entries) t := by
  have hlen := le_length_encodeClipboard entries
  have hcount := count_encodeClipboard hp
  have hword : ∀ {p}, p + 4 ≤ (encodeClipboard entries).length →
      wordAt (encodeClipboard entries ++ c.behind (encodeClipboard entries)) p = wordAt (encodeClipboard entries) p :=
    wordAt_append
  have hmem : (c.received (encodeClipboard entries) (c.behind (encodeClipboard entries))).mem =
    encodeClipboard entries ++ c.behind (encodeClipboard entries) := rfl
  unfold ClipSlot.Contains Recognised
  rw [hmem, hword (by omega)]
  constructor
  · rintro ⟨-, k, hk, hle, hsize, hdata⟩
    rw [hword (by omega)] at hsize
    exact ⟨k, hk, hle, hsize, hdata⟩
  · rintro ⟨k, hk, hle, hsize, hdata⟩
    rw [← hword (by omega)] at hsize
    exact ⟨rfl, k, hk, hle, hsize, hdata⟩

theorem Transfer.length_lt {p : Bytes} {bodies : List Bytes} (h : Transfer i p bodies) : p.length < 2 ^ 31 := by
  cases h with
  | @start seq text bodies htext hp h =>
    have := atoi_lt text
    omega

/-- After a transfer a text is ignored exactly if the check recognises it. -/
theorem transfer_ignores {entries : List (UInt32 × Bytes)} {bodies : List Bytes} {msgs : List (MsgEnv × SspBuf)}
    (hs : (s.ctx.clip i).Sized) (hT : Transfer i (encodeClipboard entries) bodies) (hm : CarryAll msgs bodies)
    (hgrants : ∀ m ∈ msgs, m.1.Grants (encodeClipboard entries).length) (h : Heap) (sent : Bool) :
    ∃ s', (processAll msgs).run s = .ok () s' ∧
      ∀ t, (Ignores h sent i t s' ↔ Recognised (s.ctx.clip i) (encodeClipboard entries) t) := by
  have hL := hT.length_lt
  obtain ⟨_, s', hrun, hb⟩ := exists_ok_of_wp (transfer_run hT hm hL hgrants hs.len)
  have hslot : s'.ctx.clip i = (s.ctx.clip i).received (encodeClipboard entries)
      ((s.ctx.clip i).behind (encodeClipboard entries)) := by
    rw [hb.clip, Function.update_self]
    rfl
  refine ⟨s', hrun, fun t => ?_⟩
  rw [ignores_iff (by rw [hslot]; exact hs.received hL) (by rw [hslot]; rfl), hslot]
  exact received_contains entries (by omega)

/-- A single text is recognised if the recorded size covers the header of its encoding. -/
theorem recognised_single (ht : t.length < 2 ^ 31 - 12) : Recognised c (encodeClipboard [(0, t)]) t ↔ 12 ≤ c.len := by
  have hp : encodeClipboard [(0, t)] = be32 1 ++ be32 0 ++ be32 t.length ++ t := by
    simp [encodeClipboard, encodeEntry]
  have hcount : wordAt (encodeClipboard [(0, t)]) 0 = 1 :=
    count_encodeClipboard (by rw [hp]; simp only [List.length_append, length_be32]; omega)
  have hsize : wordAt (encodeClipboard [(0, t)]) 8 = t.length := by
    have : wordAt (encodeClipboard [(0, t)]) 8 = beNat (be32 t.length) := rfl
    rw [this, beNat_be32 (by omega)]
  have hdata : ∀ more, slice (encodeClipboard [(0, t)] ++ more) 12 t.length = t := by
    intro more
    have hdrop : (be32 1 ++ be32 0 ++ be32 t.length ++ (t ++ more)).drop 12 = t ++ more := List.drop_left' rfl
    rw [hp, slice, List.append_assoc, hdrop, List.take_left]
  constructor
  · rintro ⟨k, -, hle, -⟩
    omega
  · exact fun hle => ⟨0, by omega, hle, hsize, hdata _⟩

/-- In every reachable state, after every transfer: the local update with a text of it does nothing exactly if
the text is recognised. -/
theorem echo_ignored_iff {cfg : Config} {steps : List (State × Op)} {entries : List (UInt32 × Bytes)}
    {bodies : List Bytes} {msgs : List (MsgEnv × SspBuf)} (hrun : Run Op.exec (.init cfg) steps s)
    (hT : Transfer i (encodeClipboard entries) bodies) (hm : CarryAll msgs bodies)
    (hgrants : ∀ m ∈ msgs, m.1.Grants (encodeClipboard entries).length) (h : Heap)
    (sent : Bool) : ∃ s', (processAll msgs).run s = .ok () s' ∧
      ∀ t, (Ignores h sent i t s' ↔ Recognised (s.ctx.clip i) (encodeClipboard entries) t) :=
  transfer_ignores (sized_of_run hrun i) hT hm hgrants h sent

/-! ### The first text of a server -/

/-- The messages of a transfer of the text `hi`. -/
def hiBodies : List Bytes :=
  [dclpBody 0 0 synDataStart (decimal 14), dclpBody 0 0 synDataChunk (encodeClipboard [(0, ascii ['h', 'i'])]),
    dclpBody 0 0 synDataEnd []]

theorem transfer_hiBodies : Transfer 0 (encodeClipboard [(0, ascii ['h', 'i'])]) hiBodies := by
  refine .start 0 (by decide) (atoi_decimal (n := 14) (by decide)) ?_
  have hdone : ChunkStream 0 [] [dclpBody 0 0 synDataEnd []] := .done 0 (by decide)
  have hlen : (encodeClipboard [(0, ascii ['h', 'i'])]).length < 2 ^ 32 := by decide
  have := ChunkStream.chunk 0 hlen hdone
  rwa [List.append_nil] at this

/-- A client whose clipboard was copied before recognises the text. -/
theorem echo_ignored_iff_copied : ∃ s s',
    (Op.updateClipBuf MsgEnv.smooth.heap true 0 (ascii ['h', 'i'])).exec.run (.opened .sample) = .ok () s ∧
    (processAll (smoothAll hiBodies)).run s = .ok () s' ∧ Ignores MsgEnv.smooth.heap true 0 (ascii ['h', 'i']) s' := by
  obtain ⟨s, hcopy, hlen⟩ : ∃ s,
      (Op.updateClipBuf MsgEnv.smooth.heap true 0 (ascii ['h', 'i'])).exec.run (.opened .sample) = .ok () s ∧
        (s.ctx.clip 0).len = 14 := ⟨_, rfl, rfl⟩
  obtain ⟨s', hrun, hiff⟩ := echo_ignored_iff ((Run.single (run_connect_init .sample)).snoc hcopy) transfer_hiBodies
    (carryAll_smoothAll _) (grants_smoothAll _ _) MsgEnv.smooth.heap true
  exact ⟨s, s', hcopy, hrun, (hiff _).mpr ((recognised_single (by decide)).mpr (by rw [hlen]; decide))⟩

/-- A client that has no clipboard yet does not recognise the first text. -/
theorem echo_not_ignored : ¬ ∀ (cfg : Config) (steps : List (State × Op)) (s s' : State) (i : Fin 2)
    (entries : List (UInt32 × Bytes)) (bodies : List Bytes) (msgs : List (MsgEnv × SspBuf)) (h : Heap) (sent : Bool)
    (t : Bytes), Run Op.exec (.init cfg) steps s →
    Transfer i (encodeClipboard entries) bodies → CarryAll msgs bodies →
    (∀ m ∈ msgs, m.1.Grants (encodeClipboard entries).length) → (0, t) ∈ entries →
    (processAll msgs).run s = .ok () s' → Ignores h sent i t s' := by
  intro hall
  have hsized : ((State.opened .sample).ctx.clip 0).Sized := ClipSlot.sized_zero
  obtain ⟨s', hrun, hiff⟩ := transfer_ignores hsized transfer_hiBodies (carryAll_smoothAll _) (grants_smoothAll _ _)
    MsgEnv.smooth.heap true
  have hig := hall .sample _ _ s' 0 _ _ _ MsgEnv.smooth.heap true (ascii ['h', 'i'])
    (Run.single (run_connect_init .sample))
    transfer_hiBodies (carryAll_smoothAll _) (grants_smoothAll _ _) (by simp) hrun
  obtain ⟨k, -, hle, -⟩ := (hiff _).mp hig
  have hlen : ((State.opened .sample).ctx.clip 0).len = 0 := rfl
  omega

end Waynergy
