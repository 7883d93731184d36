import Waynergy.IniLookup
import Waynergy.Client

/-!
# Trust on first use (`net.c`)

Here the set-up of a connection has its TLS part. What libtls, the network and the file system do is given by the
attempt; of the state the model keeps what the pin goes through: the configuration with the hash file, the
descriptor, whether there is a TLS context, and the hash that was loaded. The hash that is loaded is the one that is
stored for the host, unless a property is in front of it whose name only begins with what is looked for.
-/

namespace Waynergy
open Lib

/-- What `synNetInit` is given. -/
structure NetConfig where
  tls : Bool
  tofu : Bool
  host : Bytes

structure TlsNet where
  conf : Conf
  fd : Int
  /-- `tls_ctx` is not the null pointer -/
  hasCtx : Bool
  tlsHash : Option Bytes

abbrev Tls (α : Type) := Proc Stop TlsNet α

/-- How the calls of one connection attempt end. -/
structure TlsAttempt where
  socket : Option Nat
  connect : Bool
  client : Bool
  config : Bool
  /-- if there is a client certificate, whether its key and the certificate can be set -/
  certificate : Option (Bool × Bool)
  configure : Bool
  connectSocket : Bool
  handshake : Bool
  peerHash : Option Bytes
  write : Write

def hashPath (c : NetConfig) : Bytes := ascii "tls/hash/".toList ++ c.host

def TlsNet.loads (s : TlsNet) (c : NetConfig) : Option Bytes := s.conf.configTryString (hashPath c) none

def hashSection : Bytes := ascii ['t', 'l', 's']

def hashName (c : NetConfig) : Bytes := ascii "hash/".toList ++ c.host

/-- The value of the property that has the whole name; without one, the file. -/
def Conf.namedString (c : Conf) (s p : Bytes) : Option Bytes :=
  match c.ini.bind fun ini => ini.namedValue s p with
  | some val => some (upTo 10 val)
  | none => (c.file (s ++ 47 :: p)).map fun content => upTo 10 (cString content)

/-- The hash that is stored for the host. -/
def TlsNet.stored (s : TlsNet) (c : NetConfig) : Option Bytes := s.conf.namedString hashSection (hashName c)

def loadCertHash (c : NetConfig) : Tls (Option Bytes) := do
  let s ← get
  pure (s.loads c)

def storeCertHash (c : NetConfig) (w : Write) (hash : Bytes) : Tls Bool := do
  let s ← get
  let written := s.conf.configWriteString w (hashPath c) hash false
  modify fun s => { s with conf := written.2 }
  pure written.1

/-- Without a hash, save that of the peer. It returns false if it cannot be saved. -/
def trustFirst (c : NetConfig) (w : Write) (peerHash : Bytes) : Tls Bool := do
  let s ← get
  if s.tlsHash = none then do
    modify fun s => { s with tlsHash := some peerHash }
    storeCertHash c w peerHash
  else pure true

def checkPeer (c : NetConfig) (w : Write) (peerHash : Bytes) : Tls Bool := do
  -- we don't want the connection to proceed if we can't save the hash
  if ← trustFirst c w peerHash then do
    let s ← get
    pure (decide (∃ hash ∈ s.tlsHash, SameLetters hash peerHash))
  else pure false

def TlsAttempt.setsCertificate (a : TlsAttempt) : Bool :=
  match a.certificate with
  | none => true
  | some (key, cert) => key && cert

/-- From the certificate hash on. -/
def secure (c : NetConfig) (a : TlsAttempt) : Tls Bool := do
  let hash ← loadCertHash c
  modify fun s => { s with tlsHash := hash }
  if hash = none ∧ c.tofu = false then pure false
  else if a.setsCertificate && a.configure && a.connectSocket && a.handshake then
    match a.peerHash with
    | none => pure false
    | some peerHash => checkPeer c a.write peerHash
  else pure false

namespace TlsNet

/-- `syn_connect_setup` -/
def synConnectSetup (c : NetConfig) (a : TlsAttempt) : Tls Bool :=
  match a.socket with
  | none => do
    modify fun s => { s with fd := -1 }
    pure false
  | some fd => do
    modify fun s => { s with fd := fd }
    if a.connect = false then pure false
    else if c.tls = false then pure true
    else do
      modify fun s => { s with hasCtx := a.client }
      if a.client && a.config then secure c a else pure false

/-- Close the TLS context, and forget the hash with it. -/
def closeTls (s : TlsNet) : TlsNet := if s.hasCtx then { s with tlsHash := none, hasCtx := false } else s

def synNetDisconnect : Tls Bool := do
  let s ← get
  if s.fd = -1 then pure false
  else do
    modify fun s => { s.closeTls with fd := -1 }
    pure true

end TlsNet

inductive TlsOp
  | attempt (a : TlsAttempt)
  | disconnect

def TlsOp.exec (c : NetConfig) : TlsOp → Tls Unit
  | attempt a => do
    let _ ← TlsNet.synConnectSetup c a
    pure ()
  | disconnect => do
    let _ ← TlsNet.synNetDisconnect
    pure ()

/-! ### One attempt -/

section
variable {c : NetConfig} {a : TlsAttempt} {s s' : TlsNet}

/-- A certificate hash is one line without a NUL. -/
def TlsAttempt.Legible (a : TlsAttempt) : Prop := ∀ peer ∈ a.peerHash, 10 ∉ peer ∧ 0 ∉ peer

/-- The hash of the peer cannot be stored. -/
def TlsAttempt.Unsaved (c : NetConfig) (a : TlsAttempt) (s : TlsNet) : Prop :=
  ∀ peer ∈ a.peerHash, (s.conf.configWriteString a.write (hashPath c) peer false).1 = false

/-- What an attempt does to the pin. Only trust on first use writes, and only where nothing is
found. -/
structure Pinning (c : NetConfig) (a : TlsAttempt) (s : TlsNet) (ok : Bool) (s' : TlsNet) : Prop where
  ini : s'.conf.ini = s.conf.ini
  keeps : (s.loads c = none → c.tofu = false) → s'.conf = s.conf
  accepts : ok = true → a.Legible → ∃ peer ∈ a.peerHash, ∃ hash, s'.loads c = some hash ∧ SameLetters hash peer
  first : ok = true → s.loads c = none → c.tofu = true ∧ ¬ a.Unsaved c s

/-- An attempt that is given up before there is a hash to check. -/
theorem Pinning.refuses (h : s'.conf = s.conf) : Pinning c a s false s' :=
  ⟨congrArg Conf.ini h, fun _ => h, fun h => Bool.noConfusion h, fun h => Bool.noConfusion h⟩

theorem checkPeer_spec {peer : Bytes} (hpeer : a.peerHash = some peer) (htls : s.tlsHash = s.loads c)
    (htofu : s.tlsHash = none → c.tofu = true) :
    wp (checkPeer c a.write peer) (fun ok s' => Pinning c a s ok s') (fun _ _ => False) s := by
  unfold checkPeer trustFirst
  rw [wp_bind, wp_bind, wp_get, wp_ite]
  split
  · rename_i hnone
    have hstored : s.loads c = none := htls.symm.trans hnone
    unfold storeCertHash
    rw [wp_bind, wp_modify, wp_bind, wp_get, wp_bind, wp_modify, wp_pure, wp_ite]
    have hkeep : ∀ {p : Prop}, (s.loads c = none → c.tofu = false) → p := fun h =>
      absurd ((htofu hnone).symm.trans (h hstored)) (by decide)
    have hini := s.conf.configWriteString_ini a.write (hashPath c) peer false
    cases hw : s.conf.configWriteString a.write (hashPath c) peer false with
    | mk ok conf =>
    rw [hw] at hini
    cases ok with
    | false => exact ⟨hini, hkeep, fun h => Bool.noConfusion h, fun h => Bool.noConfusion h⟩
    | true =>
      rw [if_pos rfl, wp_bind, wp_get, wp_pure]
      refine ⟨hini, hkeep, fun _ hlegible => ?_, fun _ _ => ⟨htofu hnone, fun hun => ?_⟩⟩
      · obtain ⟨hline, hnul⟩ := hlegible peer hpeer
        exact ⟨peer, hpeer, peer, Conf.configTryString_written hstored hline hnul hw, .refl peer⟩
      · have := hun peer hpeer
        rw [hw] at this
        exact Bool.noConfusion this
  · rename_i hsome
    rw [wp_pure, if_pos rfl, wp_bind, wp_get, wp_pure]
    refine ⟨rfl, fun _ => rfl, fun hok _ => ?_, fun _ hnone => absurd (htls.trans hnone) hsome⟩
    obtain ⟨hash, hh, hsame⟩ := of_decide_eq_true hok
    exact ⟨peer, hpeer, hash, htls.symm.trans hh, hsame⟩

theorem secure_spec : wp (secure c a) (fun ok s' => Pinning c a s ok s') (fun _ _ => False) s := by
  unfold secure loadCertHash
  rw [wp_bind, wp_bind, wp_get, wp_pure, wp_bind, wp_modify, wp_ite]
  split
  · exact .refuses rfl
  · rename_i hno
    rw [wp_ite]
    split
    · cases hpeer : a.peerHash with
      | none => exact .refuses rfl
      | some peer =>
        refine wp_mono (checkPeer_spec hpeer rfl fun hnone => ?_) (fun ok s' h => ?_) fun _ _ => id
        · exact Bool.eq_true_of_not_eq_false fun htofu => hno ⟨hnone, htofu⟩
        · exact ⟨h.ini, h.keeps, h.accepts, h.first⟩
    · exact .refuses rfl

theorem synConnectSetup_spec (htls : c.tls = true) :
    wp (TlsNet.synConnectSetup c a) (fun ok s' => Pinning c a s ok s') (fun _ _ => False) s := by
  unfold TlsNet.synConnectSetup
  cases a.socket with
  | none => exact .refuses rfl
  | some fd =>
    dsimp only
    rw [wp_bind, wp_modify, wp_ite]
    split
    · exact .refuses rfl
    · rw [if_neg (by rw [htls]; decide), wp_bind, wp_modify, wp_ite]
      split
      · refine wp_mono secure_spec (fun ok s' h => ?_) fun _ _ => id
        exact ⟨h.ini, h.keeps, h.accepts, h.first⟩
      · exact .refuses rfl

theorem synNetDisconnect_conf : wp TlsNet.synNetDisconnect (fun _ s' => s'.conf = s.conf) (fun _ _ => False) s := by
  unfold TlsNet.synNetDisconnect
  rw [wp_bind, wp_get, wp_ite]
  split
  · rfl
  · show s.closeTls.conf = s.conf
    unfold TlsNet.closeTls
    split <;> rfl

/-! ### The set-up that the rest of the client sees -/

instance : Frame (fun s s' : TlsNet => s'.fd = s.fd) := ⟨fun _ => rfl, fun h h' => h'.trans h⟩

theorem secure_fd : Within (fun s s' => s'.fd = s.fd) (fun _ => False) (secure c a) := by
  have hfirst : ∀ peer, Within (fun s s' : TlsNet => s'.fd = s.fd) (fun _ => False) (checkPeer c a.write peer) := by
    intro peer
    refine Within.bind (Within.read fun _ => Within.ite ?_ (Within.pure _)) fun _ => Within.ite ?_ (Within.pure _)
    · refine Within.bind (Within.modify fun _ => rfl) fun _ => Within.read fun _ => ?_
      exact Within.bind (Within.modify fun _ => rfl) fun _ => Within.pure _
    · exact Within.read fun _ => Within.pure _
  refine Within.bind (Within.read fun _ => Within.pure _) fun _ => ?_
  refine Within.bind (Within.modify fun _ => rfl) fun _ => Within.ite (Within.pure _) (Within.ite ?_ (Within.pure _))
  cases a.peerHash with
  | none => exact Within.pure _
  | some peer => exact hfirst peer

/-- The attempt without its TLS part. -/
def TlsAttempt.outline (a : TlsAttempt) (ok : Bool) : Attempt :=
  match a.socket with
  | none => .noSocket
  | some fd => .socket fd ok

/-- An attempt is one of `synConnectSetup`, with the same result and the same descriptor. -/
theorem synConnectSetup_refines {ok : Bool} (h : (TlsNet.synConnectSetup c a).run s = .ok ok s') (st : State) :
    (synConnectSetup (a.outline ok)).run st = .ok ok { st with net := { st.net with fd := s'.fd } } := by
  have hwp : wp (TlsNet.synConnectSetup c a)
      (fun ok s' => (a.socket = none ∧ ok = false ∧ s'.fd = -1) ∨ ∃ fd, a.socket = some fd ∧ s'.fd = fd)
      (fun _ _ => False) s := by
    unfold TlsNet.synConnectSetup
    cases a.socket with
    | none => exact .inl ⟨rfl, rfl, rfl⟩
    | some fd =>
      dsimp only
      rw [wp_bind, wp_modify, wp_ite]
      split
      · exact .inr ⟨fd, rfl, rfl⟩
      · rw [wp_ite]
        split
        · exact .inr ⟨fd, rfl, rfl⟩
        · rw [wp_bind, wp_modify, wp_ite]
          split
          · exact wp_mono (secure_fd _) (fun _ _ h => .inr ⟨fd, rfl, h⟩) fun _ _ h => h.2
          · exact .inr ⟨fd, rfl, rfl⟩
  unfold TlsAttempt.outline
  rcases wp_ok hwp h with ⟨hsock, rfl, hfd⟩ | ⟨fd, hsock, hfd⟩ <;> rw [hsock, hfd] <;> rfl

theorem synNetDisconnect_refines {st : State} (hfd : st.net.fd = s.fd) : wp TlsNet.synNetDisconnect
    (fun ok s' => ∃ st', synNetDisconnect.run st = .ok ok st' ∧ st'.net.fd = s'.fd) (fun _ _ => False) s := by
  unfold TlsNet.synNetDisconnect synNetDisconnect
  rw [wp_bind, wp_get, wp_ite, EStateM.run_bind, EStateM.run_get]
  dsimp only
  split
  · rename_i hnone
    rw [if_pos (hfd.trans hnone)]
    exact ⟨st, rfl, hfd⟩
  · rename_i hsome
    rw [if_neg (hfd ▸ hsome)]
    exact ⟨_, rfl, rfl⟩

/-! ### Runs -/

/-- The attempt succeeds. -/
def Accepts (c : NetConfig) (a : TlsAttempt) (s s' : TlsNet) : Prop :=
  (TlsNet.synConnectSetup c a).run s = .ok true s'

variable {op : TlsOp}

theorem run_attempt (hop : (TlsOp.exec c (.attempt a)).run s = .ok () s') :
    ∃ ok, (TlsNet.synConnectSetup c a).run s = .ok ok s' := by
  have hwp : wp (TlsOp.exec c (.attempt a)) (fun _ s' => ∃ ok, (TlsNet.synConnectSetup c a).run s = .ok ok s')
      (fun _ _ => True) s := by
    unfold TlsOp.exec
    rw [wp_bind]
    refine wp_mono (wp_run (Q := fun _ _ => True) (E := fun _ _ => True) ?_) ?_ fun _ _ _ => trivial
    · unfold wp
      split <;> trivial
    · exact fun ok s' h => ⟨ok, h.2⟩
  exact wp_ok hwp hop

theorem conf_of_disconnect (hop : (TlsOp.exec c .disconnect).run s = .ok () s') : s'.conf = s.conf := by
  have hwp : wp (TlsOp.exec c .disconnect) (fun _ s' => s'.conf = s.conf) (fun _ _ => False) s := by
    unfold TlsOp.exec
    rw [wp_bind]
    exact wp_mono synNetDisconnect_conf (fun _ _ h => h) fun _ _ => id
  exact wp_ok (Q := fun _ s' => s'.conf = s.conf) hwp hop

/-- Nothing is written unless trust on first use finds nothing. -/
theorem conf_of_step (htls : c.tls = true) (hop : (TlsOp.exec c op).run s = .ok () s')
    (h : s.loads c = none → c.tofu = false) : s'.conf = s.conf := by
  cases op with
  | attempt a =>
    obtain ⟨ok, hrun⟩ := run_attempt hop
    exact (wp_ok (synConnectSetup_spec htls) hrun).keeps h
  | disconnect => exact conf_of_disconnect hop

variable {s₀ : TlsNet} {steps : List (TlsNet × TlsOp)}

theorem loads_of_step (htls : c.tls = true) (hop : (TlsOp.exec c op).run s = .ok () s') {hash : Bytes}
    (h : s.loads c = some hash) : s'.loads c = some hash := by
  have hconf : s'.conf = s.conf := conf_of_step htls hop fun hnone => by rw [h] at hnone; cases hnone
  rw [TlsNet.loads, hconf]
  exact h

/-- Every attempt that succeeded presented the hash that is found ever since. -/
theorem accepted_of_run (htls : c.tls = true) (hrun : Run (TlsOp.exec c) s₀ steps s)
    (hlegible : ∀ t a, (t, .attempt a) ∈ steps → a.Legible) {t t' : TlsNet} (hm : (t, .attempt a) ∈ steps)
    (hacc : Accepts c a t t') : ∃ peer ∈ a.peerHash, ∃ hash,
      t'.loads c = some hash ∧ s.loads c = some hash ∧ SameLetters hash peer := by
  induction hrun with
  | nil => cases hm
  | @snoc steps u u' op _ hop ih =>
    rcases List.mem_append.mp hm with hm | hm
    · obtain ⟨peer, hpeer, hash, hthen, hnow, hsame⟩ :=
        ih (fun t a hm => hlegible t a (List.mem_append_left _ hm)) hm
      exact ⟨peer, hpeer, hash, hthen, loads_of_step htls hop hnow, hsame⟩
    · obtain ⟨rfl, rfl⟩ : t = u ∧ TlsOp.attempt a = op := by simpa using hm
      obtain ⟨ok, hrun⟩ := run_attempt hop
      obtain ⟨rfl, rfl⟩ : true = ok ∧ t' = u' := by
        rw [Accepts, hrun] at hacc
        cases hacc
        exact ⟨rfl, rfl⟩
      obtain ⟨peer, hpeer, hash, hnow, hsame⟩ := (wp_ok (synConnectSetup_spec htls) hrun).accepts rfl
        (hlegible t a (List.mem_append_right _ (List.mem_singleton_self _)))
      exact ⟨peer, hpeer, hash, hnow, hnow, hsame⟩

theorem conf_of_run (htls : c.tls = true) (htofu : c.tofu = false) (hrun : Run (TlsOp.exec c) s₀ steps s) :
    s.conf = s₀.conf :=
  hrun.invariant (P := fun s => s.conf = s₀.conf) rfl fun _ _ _ _ h hop =>
    (conf_of_step htls hop fun _ => htofu).trans h

/-! ### What is stored for the host -/

/-- The look-up of the hash finds what has the whole name, or there is nothing to be found. -/
def Conf.FindsHash (conf : Conf) (c : NetConfig) : Prop :=
  ∀ ini ∈ conf.ini, ini.FindsWhole hashSection (hashName c) ∨ ini.FindsNothing hashSection (hashName c)

theorem hashPath_eq : hashPath c = hashSection ++ 47 :: hashName c := rfl

theorem loads_eq : s.loads c =
    match s.conf.tryReadIni (hashPath c) with
    | some val => some (upTo 10 val)
    | none => (s.conf.file (hashPath c)).map fun content => upTo 10 (cString content) := by
  unfold TlsNet.loads Conf.configTryString Conf.configReadFile
  cases s.conf.tryReadIni (hashPath c) with
  | some val => rfl
  | none => cases s.conf.file (hashPath c) <;> rfl

theorem Conf.FindsHash.loads_eq_stored (h : s.conf.FindsHash c) : s.loads c = s.stored c := by
  have hini : s.conf.tryReadIni (hashPath c) = s.conf.ini.bind fun ini => ini.namedValue hashSection (hashName c) := by
    cases hini : s.conf.ini with
    | none =>
      unfold Conf.tryReadIni
      rw [hini]
      rfl
    | some ini =>
      rw [hashPath_eq, Ini.tryReadIni_slash hini, Option.bind_some, Ini.namedValue_eq]
      rcases h ini hini with hwhole | hnothing
      · rw [hwhole.found]
      · rw [hnothing.found]
  rw [loads_eq, hini, hashPath_eq]
  rfl

theorem ini_of_step (htls : c.tls = true) (hop : (TlsOp.exec c op).run s = .ok () s') : s'.conf.ini = s.conf.ini := by
  cases op with
  | attempt a =>
    obtain ⟨ok, hrun⟩ := run_attempt hop
    exact (wp_ok (synConnectSetup_spec htls) hrun).ini
  | disconnect => exact congrArg Conf.ini (conf_of_disconnect hop)

theorem findsHash_of_run (htls : c.tls = true) (h : s₀.conf.FindsHash c) (hrun : Run (TlsOp.exec c) s₀ steps s) :
    s.conf.FindsHash c := by
  have hini : s.conf.ini = s₀.conf.ini :=
    hrun.invariant (P := fun s => s.conf.ini = s₀.conf.ini) rfl fun _ _ _ _ h hop => (ini_of_step htls hop).trans h
  unfold Conf.FindsHash at h ⊢
  rwa [hini]

/-- In every run from the state, an attempt that succeeds presents the hash that is stored for the host then, so all
of them present the same; none succeeds whose hash cannot be stored, and without trust on first use none at all unless
a hash was stored before. -/
def Pinned (c : NetConfig) (s₀ : TlsNet) : Prop :=
  ∀ steps s, Run (TlsOp.exec c) s₀ steps s → (∀ t a, (t, .attempt a) ∈ steps → a.Legible) →
    (∀ t a t', (t, .attempt a) ∈ steps → Accepts c a t t' →
      ∃ peer ∈ a.peerHash, ∃ hash, t'.stored c = some hash ∧ SameLetters hash peer) ∧
    (∀ t a t' u b u', (t, .attempt a) ∈ steps → Accepts c a t t' → (u, .attempt b) ∈ steps → Accepts c b u u' →
      ∀ peer ∈ a.peerHash, ∀ peer' ∈ b.peerHash, SameLetters peer peer') ∧
    (∀ t a t', (t, .attempt a) ∈ steps → t.stored c = none → a.Unsaved c t → ¬ Accepts c a t t') ∧
    (c.tofu = false → s₀.stored c = none → ∀ t a t', (t, .attempt a) ∈ steps → ¬ Accepts c a t t')

theorem pinned_of_findsHash (htls : c.tls = true) (h : s₀.conf.FindsHash c) : Pinned c s₀ := by
  intro steps s hrun hlegible
  have hthen : ∀ t a, (t, TlsOp.attempt a) ∈ steps → t.loads c = t.stored c := by
    intro t a hm
    obtain ⟨pre, post, -, hpre⟩ := hrun.before_step hm
    exact (findsHash_of_run htls h hpre).loads_eq_stored
  refine ⟨?_, ?_, ?_, ?_⟩
  · intro t a t' hm hacc
    obtain ⟨peer, hpeer, hash, hloads, -, hsame⟩ := accepted_of_run htls hrun hlegible hm hacc
    obtain ⟨pre, post, -, hpre⟩ := hrun.before_step hm
    have hini := (wp_ok (synConnectSetup_spec htls) hacc).ini
    have hfinds : t'.conf.FindsHash c := by
      have := findsHash_of_run htls h hpre
      unfold Conf.FindsHash at this ⊢
      rwa [hini]
    exact ⟨peer, hpeer, hash, hfinds.loads_eq_stored ▸ hloads, hsame⟩
  · intro t a t' u b u' hm hacc hm' hacc' peer hpeer peer' hpeer'
    obtain ⟨p, hp, hash, -, hnow, hsame⟩ := accepted_of_run htls hrun hlegible hm hacc
    obtain ⟨p', hp', hash', -, hnow', hsame'⟩ := accepted_of_run htls hrun hlegible hm' hacc'
    cases Option.mem_unique hp hpeer
    cases Option.mem_unique hp' hpeer'
    cases Option.some.inj (hnow.symm.trans hnow')
    exact hsame.symm.trans hsame'
  · intro t a t' hm hnone hun hacc
    exact ((wp_ok (synConnectSetup_spec htls) hacc).first rfl ((hthen t a hm).trans hnone)).2 hun
  · intro htofu hnone t a t' hm hacc
    obtain ⟨pre, post, -, hpre⟩ := hrun.before_step hm
    have hloads : t.loads c = none := by
      rw [← h.loads_eq_stored] at hnone
      unfold TlsNet.loads
      rw [conf_of_run htls htofu hpre]
      exact hnone
    have := ((wp_ok (synConnectSetup_spec htls) hacc).first rfl hloads).1
    rw [htofu] at this
    cases this

/-! ### When the server is pinned -/

/-- The two have the same names, or neither has an INI. -/
def Conf.SameNames (conf conf' : Conf) : Prop := Option.Rel Ini.SameNames conf.ini conf'.ini

theorem Conf.FindsHash.sameNames {conf conf' : Conf} (hsame : conf.SameNames conf') (h : conf.FindsHash c) :
    conf'.FindsHash c := by
  unfold SameNames at hsame
  intro ini' hini'
  rw [Option.mem_def] at hini'
  rw [hini'] at hsame
  generalize hini : conf.ini = o at hsame
  cases hsame with
  | @some ini _ hnames =>
    rcases h ini hini with hwhole | hnothing
    · exact .inl (hwhole.sameNames hnames)
    · exact .inr (hnothing.sameNames hnames)

/-- A peer with which nothing else goes wrong. -/
def TlsAttempt.presents (peer : Bytes) : TlsAttempt :=
  ⟨some 3, true, true, true, none, true, true, true, some peer, .wrote peer.length⟩

theorem secure_presents {peer : Bytes} (h : s.loads c = some peer) : wp (secure c (.presents peer))
    (fun ok s' => ok = true ∧ s'.conf = s.conf) (fun _ _ => False) s := by
  unfold secure loadCertHash checkPeer trustFirst
  rw [wp_bind, wp_bind, wp_get, wp_pure, wp_bind, wp_modify, h, if_neg (by simp), if_pos (by rfl)]
  unfold TlsAttempt.presents
  dsimp only
  rw [wp_bind, wp_bind, wp_get, if_neg (by simp), wp_pure, if_pos rfl, wp_bind, wp_get, wp_pure]
  exact ⟨decide_eq_true ⟨peer, rfl, .refl peer⟩, rfl⟩

/-- A peer that presents what is found is accepted, whether or not it is stored for the host. -/
theorem accepts_of_loads {peer : Bytes} (htls : c.tls = true) (h : s.loads c = some peer) :
    ∃ s', Accepts c (.presents peer) s s' ∧ s'.conf = s.conf := by
  have hwp : wp (TlsNet.synConnectSetup c (.presents peer)) (fun ok s' => ok = true ∧ s'.conf = s.conf)
      (fun _ _ => False) s := by
    have hsecure := secure_presents (c := c) (s := { s with fd := 3, hasCtx := true }) h
    unfold TlsNet.synConnectSetup
    unfold TlsAttempt.presents at hsecure ⊢
    dsimp only
    rw [wp_bind, wp_modify, if_neg (by simp), if_neg (by simp [htls]), wp_bind, wp_modify, if_pos (by rfl)]
    exact hsecure
  obtain ⟨ok, s', hrun, rfl, hconf⟩ := exists_ok_of_wp hwp
  exact ⟨s', hrun, hconf⟩

/-- What is accepted is what is stored, whether the stored hash is the one that is found or not. -/
theorem Pinned.stored {peer : Bytes} (htls : c.tls = true) (h : Pinned c s) (hloads : s.loads c = some peer)
    (hlegible : 10 ∉ peer ∧ 0 ∉ peer) : ∃ hash, s.stored c = some hash ∧ SameLetters hash peer := by
  obtain ⟨s', hacc, hconf⟩ := accepts_of_loads htls hloads
  have hop : (TlsOp.exec c (.attempt (.presents peer))).run s = .ok () s' := by
    unfold TlsOp.exec
    rw [EStateM.run_bind, hacc]
    rfl
  obtain ⟨hpins, -⟩ := h _ _ (Run.single hop) fun t a hm => by
    cases List.mem_singleton.mp hm
    rintro _ ⟨rfl⟩
    exact hlegible
  obtain ⟨_, ⟨rfl⟩, hash, hstored, hsame⟩ := hpins _ _ _ (List.mem_singleton_self _) hacc
  unfold TlsNet.stored at hstored ⊢
  rw [hconf] at hstored
  exact ⟨hash, hstored, hsame⟩

/-- A client that was not connected yet, with this INI and these files. -/
def TlsNet.starting (ini : Ini) (file : Bytes → Option Bytes) : TlsNet :=
  ⟨⟨some ini, file, fun _ => none⟩, -1, false, none⟩

theorem loads_starting (ini : Ini) (f : IniProperty → Bytes) (file : Bytes → Option Bytes) :
    (TlsNet.starting (ini.withValues f) file).loads c = match (ini.found hashSection (hashName c)).map f with
      | some val => some (upTo 10 val)
      | none => (file (hashPath c)).map fun content => upTo 10 (cString content) := by
  rw [loads_eq, ← Ini.found_withValues, ← Ini.tryReadIni_slash (c := (TlsNet.starting (ini.withValues f) file).conf) rfl]
  rfl

theorem stored_starting (ini : Ini) (f : IniProperty → Bytes) (file : Bytes → Option Bytes) :
    (TlsNet.starting (ini.withValues f) file).stored c = match (ini.meant hashSection (hashName c)).map f with
      | some val => some (upTo 10 val)
      | none => (file (hashPath c)).map fun content => upTo 10 (cString content) := by
  rw [← Ini.meant_withValues, ← Ini.namedValue_eq]
  rfl

/-- Were the values to tell what is meant from what is not, a peer could present what is not meant. -/
theorem finds_of_pinned {ini : Ini} (htls : c.tls = true)
    (h : ∀ ini', ini.SameNames ini' → ∀ file, Pinned c (.starting ini' file)) :
    ini.FindsWhole hashSection (hashName c) ∨ ini.FindsNothing hashSection (hashName c) := by
  obtain ⟨mark, hmark⟩ : ∃ mark : IniProperty → Bytes,
    ∀ q, mark q = if ini.Means hashSection (hashName c) q then [97] else [98] := ⟨_, fun _ => rfl⟩
  have hstored : ∀ file, (TlsNet.starting (ini.withValues mark) file).loads c = some [98] →
      ∃ hash, (TlsNet.starting (ini.withValues mark) file).stored c = some hash ∧ SameLetters hash [98] :=
    fun file hloads => (h _ (ini.sameNames_withValues mark) file).stored htls hloads (by decide)
  cases hfound : ini.found hashSection (hashName c) with
  | some q =>
    by_cases hmeans : ini.Means hashSection (hashName c) q
    · exact .inl (Ini.findsWhole_of_means hfound hmeans)
    · -- the property is another one, and there is no file
      obtain ⟨hash, hhash, hsame⟩ := hstored (fun _ => none)
        (by rw [loads_starting, hfound, Option.map_some, hmark, if_neg hmeans]; rfl)
      rw [stored_starting] at hhash
      cases hmeant : ini.meant hashSection (hashName c) with
      | none =>
        rw [hmeant] at hhash
        cases hhash
      | some q' =>
        rw [hmeant, Option.map_some, hmark, if_pos (Ini.means_of_meant hmeant)] at hhash
        cases hhash
        exact absurd hsame (by decide)
  | none =>
    cases hmeant : ini.meant hashSection (hashName c) with
    | none => exact .inr (Ini.findsNothing_of_none hfound hmeant)
    | some q =>
      -- the property is not found, and there is a file
      obtain ⟨hash, hhash, hsame⟩ := hstored (fun _ => some [98])
        (by rw [loads_starting, hfound]; rfl)
      rw [stored_starting, hmeant, Option.map_some, hmark, if_pos (Ini.means_of_meant hmeant)] at hhash
      cases hhash
      exact absurd hsame (by decide)

/-- The server is pinned, whatever the values in the INI and the files are, exactly if the look-up of the hash finds the
section and the property that have the whole names, or there is nothing to be found. -/
theorem tofu_pins_iff (htls : c.tls = true) (conf : Conf) :
    (∀ s₀ : TlsNet, conf.SameNames s₀.conf → Pinned c s₀) ↔ conf.FindsHash c := by
  constructor
  · rintro h ini hini
    refine finds_of_pinned htls fun ini' hsame file => h _ ?_
    unfold Conf.SameNames
    rw [hini]
    exact .some hsame
  · rintro h s₀ hsame
    exact pinned_of_findsHash htls (h.sameNames hsame)

end

/-- Two attempts of a client with an empty INI: the first hash is stored, and then another one is refused. -/
theorem tofu_pins_iff_first : ∃ s,
    Accepts ⟨true, true, ascii ['h']⟩ (.presents (ascii ['a', 'b'])) (.starting ⟨[[]], []⟩ fun _ => none) s ∧
      (∃ hash, s.stored ⟨true, true, ascii ['h']⟩ = some hash ∧ SameLetters hash (ascii ['a', 'b'])) ∧
      ∀ s', ¬ Accepts ⟨true, true, ascii ['h']⟩ (.presents (ascii ['c', 'd'])) s s' := by
  obtain ⟨s, hacc⟩ : ∃ s, Accepts ⟨true, true, ascii ['h']⟩ (.presents (ascii ['a', 'b']))
    (.starting ⟨[[]], []⟩ fun _ => none) s := ⟨_, rfl⟩
  have hfinds : (TlsNet.starting ⟨[[]], []⟩ fun _ => none).conf.FindsHash ⟨true, true, ascii ['h']⟩ := by
    rintro ini ⟨rfl⟩
    right
    constructor <;> rintro sec hsec t ht <;> cases ht
  have hpinned := (tofu_pins_iff rfl _).mpr hfinds (.starting ⟨[[]], []⟩ fun _ => none) (.some ⟨rfl, rfl⟩)
  have hexec : ∀ {a t t'}, Accepts ⟨true, true, ascii ['h']⟩ a t t' →
      (TlsOp.exec ⟨true, true, ascii ['h']⟩ (.attempt a)).run t = .ok () t' := by
    intro a t t' h
    unfold TlsOp.exec
    rw [EStateM.run_bind, h]
    rfl
  have hlegible : ∀ peer ∈ [ascii ['a', 'b'], ascii ['c', 'd']], (TlsAttempt.presents peer).Legible := by
    rintro peer hpeer _ ⟨rfl⟩
    exact (by decide : ∀ peer ∈ [ascii ['a', 'b'], ascii ['c', 'd']], 10 ∉ peer ∧ 0 ∉ peer) peer hpeer
  refine ⟨s, hacc, ?_, ?_⟩
  · obtain ⟨hstored, -⟩ := hpinned _ _ (Run.single (hexec hacc)) fun t a hm => by
      cases List.mem_singleton.mp hm
      exact hlegible _ (by simp)
    obtain ⟨_, ⟨rfl⟩, hash, hhash, hsame⟩ := hstored _ _ _ (List.mem_singleton_self _) hacc
    exact ⟨hash, hhash, hsame⟩
  · intro s' hacc'
    obtain ⟨-, hall, -⟩ := hpinned _ _ ((Run.single (hexec hacc)).snoc (hexec hacc')) fun t a hm => by
      rcases List.mem_append.mp hm with hm | hm <;> cases List.mem_singleton.mp hm
      · exact hlegible _ (by simp)
      · exact hlegible _ (by simp)
    exact absurd (hall _ _ _ _ _ _ (by simp) hacc (by simp) hacc' _ rfl _ rfl) (by decide)

/-- The host `a`, for which no hash is stored, and the hash of the host `ab`: it is found for `a`, and a peer that
presents it is accepted without trust on first use. -/
theorem not_pinned_prefix : ¬ Pinned ⟨true, false, ascii ['a']⟩ (.starting
    ⟨[[], ascii ['t', 'l', 's']], [⟨1, ascii ['h', 'a', 's', 'h', '/', 'a', 'b'], ascii ['x']⟩]⟩ fun _ => none) := by
  intro h
  have hloads : (TlsNet.starting ⟨[[], ascii ['t', 'l', 's']],
      [⟨1, ascii ['h', 'a', 's', 'h', '/', 'a', 'b'], ascii ['x']⟩]⟩ fun _ => none).loads ⟨true, false, ascii ['a']⟩ =
        some (ascii ['x']) := by decide
  obtain ⟨hash, hstored, -⟩ := h.stored rfl hloads (by decide)
  cases hstored

end Waynergy
