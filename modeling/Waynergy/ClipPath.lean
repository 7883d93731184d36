import Waynergy.ClipOwed
import Waynergy.FullIo
import Waynergy.Ssb

/-!
# From a local clipboard to the protocol (`clip-update.c`, `clip.c`)

`waynergy-clip-update` writes a letter, the size of the clipboard as a `size_t`, and the clipboard itself. The client
reads all three, and passes the size on as a `uint32_t`.
-/

namespace Waynergy
open Lib

/-- The bytes of a `size_t`, in the order of the host of both programs. -/
def sizeBytes (n : Nat) : Bytes := (List.range 8).map fun k => UInt8.ofNat (n / 256 ^ k)

def sizeOfBytes (bs : Bytes) : Nat := beNat bs.reverse

/-- The low bytes of a number, the lowest first. -/
theorem beNat_lowBytes (n k : Nat) :
    beNat ((List.range k).map fun j => UInt8.ofNat (n / 256 ^ j)).reverse = n % 256 ^ k := by
  induction k with
  | zero => rw [Nat.pow_zero, Nat.mod_one]; rfl
  | succ k ih =>
    have hbyte : (UInt8.ofNat (n / 256 ^ k)).toNat = n / 256 ^ k % 256 := rfl
    rw [List.range_succ, List.map_append, List.map_singleton, List.reverse_append, List.reverse_singleton,
      List.singleton_append, beNat_cons, ih, hbyte, List.length_reverse, List.length_map, List.length_range,
      Nat.pow_succ, Nat.mod_mul, Nat.mul_comm, Nat.add_comm]

theorem sizeOfBytes_sizeBytes {n : Nat} (h : n < 2 ^ 64) : sizeOfBytes (sizeBytes n) = n := by
  rw [sizeOfBytes, sizeBytes, beNat_lowBytes]
  exact Nat.mod_eq_of_lt h

/-! ### `waynergy-clip-update` -/

/-- What is asked of the system, and how it turns out. -/
structure UpdaterEnv where
  heap : Heap
  freads : List Fread
  connects : Bool
  writes : List Io

/-- What arrives of the parts that are written one after another. -/
def writeParts : List Bytes → List Io → Bytes
  | [], _ => []
  | part :: parts, writes =>
    let t := writeFull .none part writes
    if t.ret = some true then t.bytes ++ writeParts parts t.ios else t.bytes

/-- `main`: what arrives in the socket. -/
def clipUpdate (u : UpdaterEnv) (cid : UInt8) (stdin : Bytes) : Bytes :=
  match ssbReadfile u.heap .zero stdin u.freads with
  | some (true, s) => if u.connects then writeParts [[cid], sizeBytes s.pos, s.buf.take s.pos] u.writes else []
  | _ => []

/-! ### The client -/

/-- What comes of the data on a socket. -/
inductive ClipRead
  | done
  | waits
  | aborts
  /-- the arguments of `uSynergyUpdateClipBuf`, before they are converted -/
  | passes (id : Fin 2) (len : Nat) (buf : Bytes)

/-- Read `count` bytes, and go on with them if they are there. -/
def readThen (count : Nat) (stream : Bytes) (reads : List Io) (k : Bytes → Bytes → List Io → ClipRead) : ClipRead :=
  let t := readFull .none count stream reads
  match t.ret with
  | none => .waits
  | some false => .done
  | some true => k t.bytes (stream.drop count) t.ios

def clipId (cid : Bytes) : Option (Fin 2) :=
  if cid = ascii ['p'] then some ⟨1, by decide⟩ else if cid = ascii ['c'] then some ⟨0, by decide⟩ else none

def clipRead (h : Heap) (stream : Bytes) (reads : List Io) : ClipRead :=
  readThen 1 stream reads fun cid stream reads => readThen 8 stream reads fun size stream reads =>
    match xrealloc h [] (sizeOfBytes size) with
    | none => .aborts
    | some _ => readThen (sizeOfBytes size) stream reads fun buf _ _ =>
      match clipId cid with
      | some id => .passes id (sizeOfBytes size) buf
      | none => .done

/-- The socket of the monitors, and those of the updaters in `netPollFd`. -/
structure ClipFds where
  monitor : Int
  updaters : List Int

/-- How `accept` turns out: it gives a descriptor, fails for now, or fails for good. -/
inductive Accept
  | fd (fd : Nat)
  | retry
  | broken

inductive ClipEntry
  | monitor
  | updater (i : Nat)

def ClipFds.fd (fds : ClipFds) : ClipEntry → Int
  | .monitor => fds.monitor
  | .updater i => fds.updaters.getD i (-1)

def ClipFds.close (fds : ClipFds) : ClipEntry → ClipFds
  | .monitor => { fds with monitor := -1 }
  | .updater i => { fds with updaters := fds.updaters.set i (-1) }

/-- Accept an updater if there is a free entry. -/
def acceptUpdater (a : Accept) (fds : ClipFds) : ClipFds :=
  match fds.updaters.findIdx? (· == -1) with
  | none => fds
  | some i =>
    match a with
    | .fd fd => { fds with updaters := fds.updaters.set i fd }
    | .retry => fds
    | .broken => fds.close .monitor

/-- What `poll` and the system answer while one entry is processed. -/
structure ClipPollEnv where
  readable : Bool
  accept : Accept
  stream : Bytes
  reads : List Io
  heap : Heap

/-- Process poll data. -/
def clipMonitorPollProc (e : ClipPollEnv) (entry : ClipEntry) (fds : ClipFds) : ClipFds × ClipRead :=
  if e.readable then
    if fds.fd entry = fds.monitor then (acceptUpdater e.accept fds, .done)
    else
      match clipRead e.heap e.stream e.reads with
      | .waits => (fds, .waits)
      | .aborts => (fds, .aborts)
      | r => (fds.close entry, r)
  else (fds, .done)

/-- The data that are passed on with a length that is converted to `uint32_t`. -/
def passedOn (len : Nat) (buf : Bytes) : Bytes := buf.take (len % 2 ^ 32)

/-! ### What is passed on -/

variable {data stream : Bytes} {reads : List Io} {h : Heap}

theorem writeParts_prefix (parts : List Bytes) (writes : List Io) : writeParts parts writes <+: parts.flatten := by
  induction parts generalizing writes with
  | nil => exact List.prefix_refl _
  | cons part parts ih =>
    rw [writeParts, List.flatten_cons]
    split
    · rename_i hret
      rw [bytes_writeFull hret]
      exact (List.prefix_append_right_inj part).mpr (ih _)
    · rw [(writeFull_moves .none part writes).front]
      exact (List.take_prefix _ _).trans (List.prefix_append _ _)

/-- What is read is at the front of the stream. -/
theorem readThen_eq_passes {count : Nat} {k : Bytes → Bytes → List Io → ClipRead} {id : Fin 2} {len : Nat}
    {buf : Bytes} (hread : readThen count stream reads k = .passes id len buf) : count ≤ stream.length ∧
      ∃ reads', k (stream.take count) (stream.drop count) reads' = .passes id len buf := by
  unfold readThen at hread
  dsimp only at hread
  split at hread
  · cases hread
  · cases hread
  · rename_i hret
    obtain ⟨hbytes, hle⟩ := bytes_readFull hret
    rw [hbytes] at hread
    exact ⟨hle, _, hread⟩

def letter (id : Fin 2) : UInt8 := if id.val = 0 then 99 else 112

theorem clipId_letter (id : Fin 2) : clipId [letter id] = some id := by
  revert id
  decide

theorem length_sizeBytes (n : Nat) : (sizeBytes n).length = 8 := by simp [sizeBytes]

theorem clipUpdate_prefix (u : UpdaterEnv) (cid : UInt8) (data : Bytes) :
    clipUpdate u cid data = [] ∨ data.length < 2 ^ 63 ∧
      clipUpdate u cid data <+: cid :: (sizeBytes data.length ++ data) := by
  unfold clipUpdate
  split
  · rename_i s hread
    obtain ⟨hs, hroom⟩ := ssbReadfile_true Ssb.holds_zero hread
    rw [List.nil_append] at hs
    split
    · have hprefix := writeParts_prefix [[cid], sizeBytes s.pos, s.buf.take s.pos] u.writes
      rw [hs.front, hs.pos] at hprefix ⊢
      simp only [List.flatten_cons, List.flatten_nil, List.append_nil, List.singleton_append] at hprefix
      have := hs.small
      have := hs.pos
      exact .inr ⟨by omega, hprefix⟩
    · exact .inl rfl
  · exact .inl rfl

/-- Whatever the system does, what is passed on was there. -/
theorem clipRead_clipUpdate {u : UpdaterEnv} {id id' : Fin 2} {len : Nat} {buf : Bytes}
    (hread : clipRead h (clipUpdate u (letter id) data) reads = .passes id' len buf) :
    id' = id ∧ len = data.length ∧ buf = data := by
  obtain ⟨hcid, reads₁, hread⟩ := readThen_eq_passes hread
  obtain ⟨hsize, reads₂, hread⟩ := readThen_eq_passes hread
  rcases clipUpdate_prefix u (letter id) data with hnone | ⟨hsmall, more, hmore⟩
  · rw [hnone] at hcid
    exact absurd hcid (by decide)
  generalize clipUpdate u (letter id) data = stream at *
  cases stream with
  | nil => exact absurd hcid (by decide)
  | cons cid rest =>
    obtain ⟨rfl, hrest⟩ : cid = letter id ∧ rest ++ more = sizeBytes data.length ++ data := List.cons.inj hmore
    rw [List.drop_one, List.tail_cons] at hsize hread
    have htake : rest.take 8 = sizeBytes data.length := by
      have := congrArg (List.take 8) hrest
      rwa [List.take_append_of_le_length hsize, List.take_left' (length_sizeBytes _)] at this
    have hdrop : rest.drop 8 ++ more = data := by
      have := congrArg (List.drop 8) hrest
      rwa [List.drop_append_of_le_length hsize, List.drop_left' (length_sizeBytes _)] at this
    rw [htake, sizeOfBytes_sizeBytes (by omega)] at hread
    split at hread
    · cases hread
    · obtain ⟨hlen, _, hread⟩ := readThen_eq_passes hread
      obtain rfl : more = [] := by
        have := congrArg List.length hdrop
        rw [List.length_append] at this
        exact List.eq_nil_of_length_eq_zero (by omega)
      rw [List.append_nil] at hdrop
      rw [hdrop, List.take_length, List.take_one, List.head?_cons, Option.toList_some, clipId_letter] at hread
      cases hread
      exact ⟨rfl, rfl, rfl⟩

/-! ### Where nothing fails -/

theorem writeParts_flows {parts : List Bytes} {writes : List Io} (hflows : Flows writes)
    (hmoves : parts.flatten.length ≤ moves writes) : writeParts parts writes = parts.flatten := by
  induction parts generalizing writes with
  | nil => rfl
  | cons part parts ih =>
    rw [List.flatten_cons, List.length_append] at hmoves
    obtain ⟨hret, hflows', hleft⟩ := writeFull_flows hflows (show part.length ≤ moves writes by omega)
    rw [writeParts, if_pos hret, bytes_writeFull hret, List.flatten_cons]
    exact congrArg (part ++ ·) (ih hflows' (by omega))

theorem readThen_flows (count : Nat) (stream : Bytes) (k : Bytes → Bytes → List Io → ClipRead) (hflows : Flows reads)
    (hmoves : count ≤ moves reads) (hstream : count ≤ stream.length) : ∃ reads', Flows reads' ∧
      moves reads ≤ moves reads' + count ∧
      readThen count stream reads k = k (stream.take count) (stream.drop count) reads' := by
  obtain ⟨hret, hflows', hleft⟩ := readFull_flows hflows hmoves hstream
  refine ⟨_, hflows', hleft, ?_⟩
  unfold readThen
  dsimp only
  rw [hret, (bytes_readFull hret).1]

/-- The transfers are short at most, there are enough of them, and every allocation is granted. -/
structure Undisturbed (data : Bytes) (u : UpdaterEnv) (e : ClipPollEnv) : Prop where
  connects : u.connects = true
  heap : u.heap.Grants
  grants : e.heap.Grants
  freads : ∀ fread ∈ u.freads, fread ≠ .error
  calls : data.length < u.freads.length
  writes : Flows u.writes
  written : 9 + data.length ≤ moves u.writes
  reads : Flows e.reads
  read : 9 + data.length ≤ moves e.reads

theorem Undisturbed.clipUpdate {u : UpdaterEnv} {e : ClipPollEnv} (hu : Undisturbed data u e)
    (hdata : data.length < 2 ^ 61) (cid : UInt8) :
    clipUpdate u cid data = cid :: (sizeBytes data.length ++ data) := by
  obtain ⟨s, hread⟩ := ssbReadfile_grants hu.heap Ssb.holds_zero (by decide) (by rw [List.length_nil]; omega)
    hu.freads hu.calls
  obtain ⟨hs, -⟩ := ssbReadfile_true Ssb.holds_zero hread
  rw [List.nil_append] at hs
  unfold Waynergy.clipUpdate
  rw [hread]
  dsimp only
  rw [if_pos hu.connects, hs.front, hs.pos, writeParts_flows hu.writes]
  · simp
  · have := hu.written
    simp [length_sizeBytes]
    omega

theorem Undisturbed.clipRead {u : UpdaterEnv} {e : ClipPollEnv} (hu : Undisturbed data u e)
    (hdata : data.length < 2 ^ 61) (id : Fin 2) :
    clipRead e.heap (Waynergy.clipUpdate u (letter id) data) e.reads = .passes id data.length data := by
  have hlen := length_sizeBytes data.length
  have hread := hu.read
  rw [hu.clipUpdate hdata]
  unfold Waynergy.clipRead
  obtain ⟨reads₁, hflows₁, hleft₁, h₁⟩ := readThen_flows 1 (letter id :: (sizeBytes data.length ++ data)) _ hu.reads
    (by omega) (by simp)
  rw [h₁]
  obtain ⟨reads₂, hflows₂, hleft₂, h₂⟩ := readThen_flows 8 (sizeBytes data.length ++ data) _ hflows₁ (by omega)
    (by rw [List.length_append]; omega)
  rw [List.drop_one, List.tail_cons, h₂, List.take_left' hlen, List.drop_left' hlen,
    sizeOfBytes_sizeBytes (by omega), xrealloc, if_pos ⟨by omega, hu.grants _ (by omega)⟩]
  obtain ⟨_, -, -, h₃⟩ := readThen_flows data.length data _ hflows₂ (by omega) (Nat.le_refl _)
  dsimp only
  rw [h₃, List.take_length]
  show (match clipId [letter id] with | some id => _ | none => _) = _
  rw [clipId_letter]

/-! ### The buffer that is built -/

/-- There is room for the data, their length is announced, and a later send takes exactly them. -/
structure ClipSlot.Builds (c : ClipSlot) (data : Bytes) : Prop where
  room : data.length + 12 ≤ c.len
  pos : c.pos = data.length + 12
  announced : wordAt c.mem 8 = data.length
  front : c.mem.take (data.length + 12) = encodeText data

/-- What a COUT sends of the slot is the text, in every state that has the slot as it is now. There the reply cursor is
at its base, and the other clipboard is not in the way: it is not owed, or it can be sent itself. -/
def SendsText (id : Fin 2) (data : Bytes) (s : State) : Prop :=
  ∀ (t : State) (op : Op), t.ctx.clip id = s.ctx.clip id → t.ctx.replyCur = 4 →
    (∀ j ≠ id, (t.ctx.clip j).grabbed = true →
      (t.ctx.clip j).pos ≤ (t.ctx.clip j).cap ∧ (t.ctx.clip j).pos ≤ maxSent) →
    op.act t = .leave → wp op.exec (fun _ t' => ∃ evs, t'.out = t.out ++ evs ∧
      IsTransfer (encodeText data) (sentMessages id evs)) (fun _ _ => False) t

/-- The update with `data` is suppressed as a duplicate, or builds the buffer for them, which is what a COUT sends; or
memory runs out. -/
def StoresText (h : Heap) (sent : Bool) (id : Fin 2) (data : Bytes) (s : State) : Prop :=
  wp (uSynergyUpdateClipBuf h sent id data)
    (fun _ s' => Suppressed id data s ∨ (s'.ctx.clip id).Builds data ∧ SendsText id data s')
    (fun stop _ => stop = .abort) s

/-- What waynergy-clip-update is given for the clipboard reaches the protocol, and is stored there and sent. -/
def LosesNothing (s : State) (id : Fin 2) (data : Bytes) : Prop :=
  ∀ (u : UpdaterEnv) (e : ClipPollEnv) (sent : Bool) (fds : ClipFds) (i : Nat),
    e.readable = true → fds.fd (.updater i) ≠ fds.monitor → e.stream = clipUpdate u (letter id) data →
    (Undisturbed data u e → ∃ len buf, (clipMonitorPollProc e (.updater i) fds).2 = .passes id len buf) ∧
    ∀ id' len buf, (clipMonitorPollProc e (.updater i) fds).2 = .passes id' len buf →
      id' = id ∧ passedOn len buf = data ∧ StoresText e.heap sent id' (passedOn len buf) s

theorem clipMonitorPollProc_snd {e : ClipPollEnv} {fds : ClipFds} {i : Nat} (hread : e.readable = true)
    (hfd : fds.fd (.updater i) ≠ fds.monitor) :
    (clipMonitorPollProc e (.updater i) fds).2 = clipRead e.heap e.stream e.reads := by
  unfold clipMonitorPollProc
  rw [if_pos hread, if_neg hfd]
  cases clipRead e.heap e.stream e.reads <;> rfl

variable {s : State} {id : Fin 2}

/-- A text that is not too long is stored and can be sent. -/
theorem ClipSlot.builds_updated {c : ClipSlot} {buf : Bytes} (hdata : data.length + 12 < 2 ^ 32) :
    (c.updated buf data).Builds data := by
  have hmod : (data.length + 12) % 2 ^ 32 = data.length + 12 := Nat.mod_eq_of_lt hdata
  have hmem : (c.updated buf data).mem = encodeText data ++ buf.drop (encodeText data).length := overwrite_zero _ _
  refine ⟨?_, hmod, ?_, ?_⟩
  · exact Nat.le_trans (Nat.le_of_eq hmod.symm) (Nat.le_max_right _ _)
  · have : ∀ more, wordAt (encodeText data ++ more) 8 = beNat (be32 data.length) := fun _ => rfl
    rw [hmem, this, beNat_be32 (by omega)]
  · rw [hmem, List.take_left' (length_encodeText data)]

theorem ClipSlot.Builds.fits {c : ClipSlot} (h : c.Builds data) : c.pos ≤ c.cap := by
  have hlen := congrArg List.length h.front
  rw [List.length_take, length_encodeText] at hlen
  have hcap : c.cap = c.mem.length := rfl
  have hpos := h.pos
  omega

theorem sendsText_of_builds (h : (s.ctx.clip id).Builds data) (hgrabbed : (s.ctx.clip id).grabbed = true)
    (hmax : data.length + 12 ≤ maxSent) : SendsText id data s := by
  intro t op hslot hcur hother hact
  have hpos := h.pos
  refine wp_mono (leave_sends hact hcur fun j hg => ?_) ?_ fun _ _ h => h
  · by_cases hj : j = id
    · subst hj
      rw [hslot]
      exact ⟨h.fits, hpos ▸ hmax⟩
    · exact hother j hj hg
  · rintro _ t' ⟨evs, ho, hsent⟩
    have hown := (hsent id).1 (by rw [hslot]; exact hgrabbed)
    rw [hslot, hpos, h.front] at hown
    exact ⟨evs, ho, hown⟩

theorem clip_of_answers {c : ClipSlot} {s' : State} (h : Answers (s.setSlot id c) s') : s'.ctx.clip id = c := by
  obtain ⟨⟨⟨_, _, hctx⟩, -⟩, -⟩ := h.toSends
  rw [hctx]
  exact State.setSlot_self _ _ _

theorem storesText_of_le (hs : (s.ctx.clip id).Sized) (hfresh : (uSynergyClipBufContains id data).run s = .ok false s)
    (hdata : data.length + 12 ≤ maxSent) (sent : Bool) : StoresText h sent id data s := by
  have hlt : data.length + 12 < 2 ^ 32 := Nat.lt_of_le_of_lt hdata maxSent_lt
  have hmod : (data.length + 12) % 2 ^ 32 = data.length + 12 := Nat.mod_eq_of_lt hlt
  refine wp_mono (updateClipBuf_fresh h sent hfresh) ?_ ?_
  · rintro _ s' ⟨buf, -, -, hanswers⟩
    have hclip := clip_of_answers hanswers
    have hbuilds : (s'.ctx.clip id).Builds data := hclip ▸ ClipSlot.builds_updated hlt
    exact .inr ⟨hbuilds, sendsText_of_builds hbuilds (hclip ▸ rfl) hdata⟩
  · rintro stop _ (⟨rfl, -⟩ | ⟨-, buf, hroom, hshort⟩)
    · rfl
    · obtain ⟨hsize, -⟩ := hroom.length hs
      rw [hmod] at hsize
      omega

/-! ### Clipboards that are too long -/

theorem sendGrabbed_overflows (e : MsgEnv) (hcur : s.ctx.replyCur = 4) (hgrabbed : (s.ctx.clip id).grabbed = true)
    (hcap : (s.ctx.clip id).pos ≤ (s.ctx.clip id).cap) (hlong : maxSent < (s.ctx.clip id).pos)
    (hword : (s.ctx.clip id).pos < 2 ^ 32) :
    wp (sendGrabbed e id) (fun _ _ => False) (fun stop _ => stop = .fault .clipSend) s := by
  unfold sendGrabbed
  rw [wp_bind, wp_get, wp_ite, if_pos hgrabbed, Nat.mod_eq_of_lt hword, wp_bind]
  exact wp_mono (uSynergySendClipboard_overflows e.sent id hcur hcap hlong hword) (fun _ _ => False.elim) fun _ _ h => h

/-- A COUT reads a clipboard that is too long in front of its first byte. -/
theorem processCout_overflows (e : MsgEnv) (hcur : s.ctx.replyCur = 4) (hgrabbed : (s.ctx.clip id).grabbed = true)
    (hcap : (s.ctx.clip id).pos ≤ (s.ctx.clip id).cap) (hlong : maxSent < (s.ctx.clip id).pos)
    (hword : (s.ctx.clip id).pos < 2 ^ 32) (hother : ∀ j ≠ id, (s.ctx.clip j).grabbed = false) :
    wp (processCout e) (fun _ _ => False) (fun stop _ => stop = .fault .clipSend) s := by
  unfold processCout
  rw [wp_bind, wp_setCtx, wp_bind]
  rcases (by omega : id = 0 ∨ id = 1) with rfl | rfl
  · exact wp_mono (sendGrabbed_overflows e hcur hgrabbed hcap hlong hword) (fun _ _ => False.elim) fun _ _ h => h
  · have hfree : (s.ctx.clip 0).grabbed = false := hother 0 (by decide)
    have hskip : (sendGrabbed e 0).run { s with ctx := { s.ctx with isCaptured := false } } =
        .ok () { s with ctx := { s.ctx with isCaptured := false } } := by
      unfold sendGrabbed
      rw [EStateM.run_bind, EStateM.run_get]
      dsimp only
      rw [if_neg (by rw [hfree]; decide)]
      rfl
    refine wp_of_ok hskip ?_
    rw [wp_bind]
    exact wp_mono (sendGrabbed_overflows e hcur hgrabbed hcap hlong hword) (fun _ _ => False.elim) fun _ _ h => h

/-- The state, connected, with nothing but the one clipboard owed. -/
def State.alone (s : State) (id : Fin 2) : State :=
  { s with ctx := { s.ctx with
      connected := true, replyCur := 4, clip := fun j => if j = id then s.ctx.clip id else .zero } }

theorem SendsText.le (h : SendsText id data s) (hbuilds : (s.ctx.clip id).Builds data)
    (hgrabbed : (s.ctx.clip id).grabbed = true) (hdata : data.length + 12 < 2 ^ 32) :
    data.length + 12 ≤ maxSent := by
  by_contra hlong
  have hslot : (s.alone id).ctx.clip id = s.ctx.clip id := if_pos rfl
  have hother : ∀ j ≠ id, ((s.alone id).ctx.clip j).grabbed = false := by
    intro j hj
    show (if j = id then s.ctx.clip id else ClipSlot.zero).grabbed = false
    rw [if_neg hj]
    rfl
  have hact : (Op.message .smooth (ascii ['C', 'O', 'U', 'T']) 4).act (s.alone id) = .leave := by
    rw [Op.act, if_pos (show (s.alone id).ctx.connected = true from rfl)]
    rfl
  have hsends := h (s.alone id) _ hslot rfl (fun j hj hg => by rw [hother j hj] at hg; cases hg) hact
  have hpos := hbuilds.pos
  have hfaults : wp (Op.message .smooth (ascii ['C', 'O', 'U', 'T']) 4).exec (fun _ _ => False)
      (fun stop _ => stop = .fault .clipSend) (s.alone id) := by
    have hleave : msgAct .smooth ⟨ascii ['C', 'O', 'U', 'T'], 0, 4⟩ = .leave := rfl
    unfold Op.exec whenConnected handMessage
    simp only [wp_bind, wp_get, if_pos (show (s.alone id).ctx.connected = true from rfl), wp_emits,
      sProcessMessage_of_leave hleave]
    have hflag : ((s.alone id).ctx.clip id).grabbed = true := (congrArg ClipSlot.grabbed hslot).trans hgrabbed
    refine wp_mono (processCout_overflows .smooth rfl hflag ?_ ?_ ?_ hother) (fun _ _ => False.elim) fun _ _ h => h
    · show ((s.alone id).ctx.clip id).pos ≤ ((s.alone id).ctx.clip id).cap
      rw [hslot]
      exact hbuilds.fits
    · show maxSent < ((s.alone id).ctx.clip id).pos
      rw [hslot, hpos]
      exact Nat.lt_of_not_le hlong
    · show ((s.alone id).ctx.clip id).pos < 2 ^ 32
      rw [hslot, hpos]
      exact hdata
  exact not_wp_false (wp_mono (wp_and hsends hfaults) (fun _ _ => And.right) fun _ _ => And.left)

/-- Where memory does not run out, what is stored is a duplicate, or is not too long to be sent. -/
theorem StoresText.le {sent : Bool} (hstores : StoresText h sent id data s) (hgrants : h.Grants) :
    Suppressed id data s ∨
      (uSynergyClipBufContains id data).run s = .ok false s ∧ data.length + 12 ≤ maxSent := by
  rcases contains_cases id data s with hrun | hrun | hrun
  · exact .inl hrun
  · right
    have hfresh := updateClipBuf_fresh h sent hrun
    have hwp : wp (uSynergyUpdateClipBuf h sent id data) (fun _ _ => data.length + 12 ≤ maxSent) (fun _ _ => False) s := by
      refine wp_mono (wp_and hstores hfresh) ?_ ?_
      · rintro _ s' ⟨hdup | ⟨hbuilds, hsends⟩, buf, -, -, hanswers⟩
        · rw [Suppressed, hrun] at hdup
          cases hdup
        · have hclip := clip_of_answers hanswers
          have hpos : (s'.ctx.clip id).pos = (data.length + 12) % 2 ^ 32 := hclip ▸ rfl
          have hmod := Nat.mod_lt (data.length + 12) (show 0 < 2 ^ 32 by decide)
          have hword : data.length + 12 < 2 ^ 32 := by
            rw [← hpos, hbuilds.pos] at hmod
            exact hmod
          exact hsends.le hbuilds (hclip ▸ rfl) hword
      · rintro stop _ ⟨rfl, ⟨-, hnone⟩ | ⟨hstop, -⟩⟩
        · have hmod := Nat.mod_lt (data.length + 12) (show 0 < 2 ^ 32 by decide)
          rw [xrealloc, if_pos ⟨by omega, hgrants _ (by omega)⟩] at hnone
          cases hnone
        · cases hstop
    obtain ⟨_, _, -, hle⟩ := exists_ok_of_wp hwp
    exact ⟨hrun, hle⟩
  · unfold StoresText uSynergyUpdateClipBuf at hstores
    rw [wp_bind, wp, hrun] at hstores
    cases hstores

/-- A world in which nothing fails, and bytes are moved one at a time. -/
def UpdaterEnv.smooth (n : Nat) : UpdaterEnv :=
  ⟨MsgEnv.smooth.heap, List.replicate (n + 1) (.moved 0), true, List.replicate (n + 9) (.moved 0)⟩

def ClipPollEnv.smooth (id : Fin 2) (data : Bytes) : ClipPollEnv :=
  ⟨true, .retry, clipUpdate (.smooth data.length) (letter id) data, List.replicate (data.length + 9) (.moved 0),
    MsgEnv.smooth.heap⟩

theorem moves_replicate (n : Nat) : moves (List.replicate n (.moved 0)) = n := by
  simp [moves, List.countP_replicate]

theorem flows_replicate (n : Nat) : Flows (List.replicate n (.moved 0)) := by
  intro io hio
  rw [(List.mem_replicate.mp hio).2]
  exact nofun

theorem undisturbed_smooth (id : Fin 2) (data : Bytes) :
    Undisturbed data (.smooth data.length) (.smooth id data) where
  connects := rfl
  heap _ _ := rfl
  grants _ _ := rfl
  freads fread hfread := by
    rw [(List.mem_replicate.mp hfread).2]
    exact nofun
  calls := by
    show _ < (List.replicate (data.length + 1) (Fread.moved 0)).length
    rw [List.length_replicate]
    exact Nat.lt_succ_self _
  writes := flows_replicate _
  written := by
    show _ ≤ moves (List.replicate (data.length + 9) (.moved 0))
    rw [moves_replicate, Nat.add_comm]
  reads := flows_replicate _
  read := by
    show _ ≤ moves (List.replicate (data.length + 9) (.moved 0))
    rw [moves_replicate, Nat.add_comm]

/-- A text that is found is one that an `uint32_t` measures. -/
theorem Suppressed.lt (hs : (s.ctx.clip id).Sized) (h : Suppressed id data s) : data.length < 2 ^ 32 := by
  obtain ⟨-, k, -, -, hsize, -⟩ := (suppressed_iff hs).mp h
  rw [← hsize]
  exact wordAt_lt _ _

/-- Nothing is lost exactly if the duplicate check finds the clipboard, or it does not and stays inside its block and
the positions of the chunks are `int`s. -/
theorem loses_nothing_iff (hreach : Reachable s) (id : Fin 2) (data : Bytes) : LosesNothing s id data ↔
    Suppressed id data s ∨
      (uSynergyClipBufContains id data).run s = .ok false s ∧ data.length + 12 ≤ maxSent := by
  obtain ⟨cfg, steps, hrun⟩ := hreach
  have hs := sized_of_run hrun id
  constructor
  · intro hloses
    obtain ⟨hpasses, hexact⟩ := hloses (.smooth data.length) (.smooth id data) true ⟨3, [4]⟩ 0 rfl (by decide) rfl
    obtain ⟨len, buf, hread⟩ := hpasses (undisturbed_smooth id data)
    obtain ⟨-, hpassed, hstores⟩ := hexact _ _ _ hread
    rw [hpassed] at hstores
    exact hstores.le fun _ _ => rfl
  · intro hcond u e sent fds i hread hfd hstream
    have hlt : data.length < 2 ^ 32 := by
      rcases hcond with hdup | ⟨-, hle⟩
      · exact hdup.lt hs
      · have := Nat.lt_of_le_of_lt hle maxSent_lt
        omega
    rw [clipMonitorPollProc_snd hread hfd, hstream]
    refine ⟨fun hu => ⟨_, _, hu.clipRead (by omega) id⟩, fun id' len buf hpasses => ?_⟩
    obtain ⟨rfl, rfl, rfl⟩ := clipRead_clipUpdate hpasses
    have hpassed : passedOn buf.length buf = buf := by
      rw [passedOn, Nat.mod_eq_of_lt hlt, List.take_length]
    rw [hpassed]
    refine ⟨rfl, rfl, ?_⟩
    rcases hcond with hdup | ⟨hfresh, hle⟩
    · exact wp_mono (updateClipBuf_duplicate e.heap sent hdup) (fun _ _ _ => .inl hdup) fun _ _ => False.elim
    · exact storesText_of_le hs hfresh hle sent

theorem contains_opened (id : Fin 2) (data : Bytes) :
    (uSynergyClipBufContains id data).run (.opened .sample) = .ok false (.opened .sample) := rfl

theorem loses_nothing_iff_hi : LosesNothing (.opened .sample) 0 (ascii ['h', 'i']) :=
  (loses_nothing_iff (reachable_opened .sample) 0 (ascii ['h', 'i'])).mpr
    (.inr ⟨contains_opened 0 (ascii ['h', 'i']), by decide⟩)

/-- A clipboard of 2147484609 bytes is lost when it is to be sent. -/
theorem loses_large : ¬ LosesNothing (.opened .sample) 0 (List.replicate (maxSent - 11) 97) := by
  generalize hdata : List.replicate (maxSent - 11) (97 : UInt8) = data
  have hlen : data.length = maxSent - 11 := by rw [← hdata, List.length_replicate]
  intro hloses
  obtain ⟨hpasses, hexact⟩ := hloses (.smooth data.length) (.smooth 0 data) true ⟨3, [4]⟩ 0 rfl (by decide) rfl
  obtain ⟨len, buf, hread⟩ := hpasses (undisturbed_smooth 0 data)
  obtain ⟨-, hpassed, hstores⟩ := hexact _ _ _ hread
  rw [hpassed] at hstores
  rcases hstores.le fun _ _ => rfl with hdup | ⟨-, hle⟩
  · rw [Suppressed, contains_opened] at hdup
    cases hdup
  · have hsent : maxSent = 2147484620 := rfl
    omega

end Waynergy
