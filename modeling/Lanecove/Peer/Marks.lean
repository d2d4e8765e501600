import Lanecove.Peer.Steps

set_option autoImplicit false

/-! # Pending handshakes and rekeying marks

`housekeeping_loop` marks a session as `rekeying` when it starts a handshake with its peer, in
a free slot of `pending_hs[]`, and notes the time (`connectPeer_outcome`). The mark goes off when
the entry is used up. The data path touches neither marks nor pending handshakes nor the time of the
last pass (`SameMarks`).
-/

namespace Lanecove

variable {S : Suite}

/-- Entry `j` of `pending_hs[]` waits for a response of the peer `pub`. -/
def Node.waitsFor (n : Node S) (pub : S.Block) (j : Fin MAX_PEERS) : Prop :=
  (n.pendingHs j).active = true ∧ (n.config (n.pendingHs j).cfgIdx).pub = pub

theorem Node.waitsFor_congr {n n' : Node S} (hpending : n'.pendingHs = n.pendingHs)
    (hconfigs : n'.peerConfigs = n.peerConfigs) (pub : S.Block) (j : Fin MAX_PEERS) :
    n'.waitsFor pub j ↔ n.waitsFor pub j := by
  rw [Node.waitsFor, Node.waitsFor, Node.config, Node.config, hpending, hconfigs]

/-- When entry `j` is used up, whoever still waits waited before. -/
theorem Node.waitsFor_setPending {n : Node S} {pub : S.Block} {j k : Fin MAX_PEERS}
    {p : PendingHs S} (hp : p.active = false) (h : (n.setPending j p).waitsFor pub k) :
    k ≠ j ∧ n.waitsFor pub k := by
  obtain ⟨hact, hpub⟩ := h
  rw [Node.setPending_pendingHs] at hact hpub
  by_cases hkj : k = j
  · subst hkj
    rw [Function.update_self, hp] at hact
    cases hact
  · rw [Function.update_of_ne hkj] at hact hpub
    exact ⟨hkj, hact, hpub⟩

/-! ## What leaves the marks alone -/

/-- Pending handshakes, configurations, marks and the time of the last pass are the same. -/
structure SameMarks (n n' : Node S) : Prop where
  pending : n'.pendingHs = n.pendingHs
  configs : n'.peerConfigs = n.peerConfigs
  lastCheck : n'.lastCheck = n.lastCheck
  rekeying : ∀ i, (n'.table.sessions i).rekeying = (n.table.sessions i).rekeying

namespace SameMarks

variable {n n' n'' : Node S}

theorem refl (n : Node S) : SameMarks n n := ⟨rfl, rfl, rfl, fun _ => rfl⟩

theorem trans (h : SameMarks n n') (h' : SameMarks n' n'') : SameMarks n n'' :=
  ⟨h'.pending.trans h.pending, h'.configs.trans h.configs, h'.lastCheck.trans h.lastCheck,
    fun i => (h'.rekeying i).trans (h.rekeying i)⟩

theorem setSession {i : Fin MAX_PEERS} {s : Session S}
    (h : s.rekeying = (n.table.sessions i).rekeying) : SameMarks n (n.setSession i s) :=
  ⟨rfl, rfl, rfl, SessionTable.set_rel (R := fun x y => y.rekeying = x.rekeying) h fun _ => rfl⟩

theorem waitsFor_iff (h : SameMarks n n') (pub : S.Block) (j : Fin MAX_PEERS) :
    n'.waitsFor pub j ↔ n.waitsFor pub j :=
  Node.waitsFor_congr h.pending h.configs pub j

/-- The loops: if every body leaves the marks alone, so does the loop. -/
theorem run {α : Type} {body : Node S → α → Node S × List (Event S)}
    (hbody : ∀ m a, SameMarks m (body m a).1) (l : List α) (c : Node S × List (Event S)) :
    SameMarks c.1 ((Machine.mk body).run c l).1 := by
  induction l generalizing c with
  | nil => exact refl c.1
  | cons a l ih => exact (hbody c.1 a).trans (ih ((Machine.mk body).next c a))

end SameMarks

theorem forwardToPeer_rekeying (s : Session S) (i : Fin MAX_PEERS) (payload : List UInt8)
    (iv : Option S.Iv) (ok : Bool) (now : Int) :
    (forwardToPeer s i payload iv ok now).1.rekeying = s.rekeying := by
  unfold forwardToPeer
  split
  · rfl
  · split <;> rfl

theorem decryptSession_rekeying (s : Session S) (pkt : S.Wire) (now : Int) :
    (decryptSession s pkt now).1.rekeying = s.rekeying := by
  unfold decryptSession
  split
  · rfl
  · split <;> rfl

theorem acceptFrame_rekeying (s : Session S) (usedPrev : Bool) (plain : List UInt8) :
    (acceptFrame s usedPrev plain).1.rekeying = s.rekeying := by
  unfold acceptFrame
  split
  · rfl
  · split
    · rfl
    · split <;> rfl

theorem receive_rekeying (s : Session S) (i : Fin MAX_PEERS) (pkt : S.Wire) (now : Int) :
    (receive s i pkt now).1.rekeying = s.rekeying := by
  have hdec := decryptSession_rekeying s pkt now
  unfold receive
  split
  · rename_i s' heq
    rw [heq] at hdec
    exact hdec
  · rename_i s' usedPrev plain heq
    rw [heq] at hdec
    exact (acceptFrame_rekeying s' usedPrev plain).trans hdec

theorem tunPacket_sameMarks (n : Node S) (packet : List UInt8) (iv : Option S.Iv) (ok : Bool)
    (now : Int) : SameMarks n (tunPacket n packet iv ok now).1 := by
  unfold tunPacket
  split
  · split
    · exact .refl n
    · exact .setSession (forwardToPeer_rekeying ..)
  · exact .refl n

theorem deliver_sameMarks (n : Node S) (r : Receipt S) (iv : Option S.Iv) (ok : Bool)
    (now : Int) : SameMarks n (deliver n r iv ok now).1 := by
  unfold deliver
  split
  · exact .refl n
  · split
    · split
      · exact .refl n
      · exact .setSession (forwardToPeer_rekeying ..)
    · exact .refl n

theorem dataPacket_sameMarks (n : Node S) (src : SockAddr) (pkt : S.Wire) (now clock : Int)
    (iv : Option S.Iv) (ok : Bool) : SameMarks n (dataPacket n src pkt now clock iv ok).1 := by
  unfold dataPacket
  split
  · exact .refl n
  · rename_i i _
    have hrec := receive_rekeying (n.table.sessions i) i pkt now
    split
    · rename_i s heq
      rw [heq] at hrec
      exact .setSession hrec
    · rename_i s r heq
      rw [heq] at hrec
      exact (SameMarks.setSession hrec).trans (deliver_sameMarks ..)

theorem expireSession_sameMarks (ctx : LoopCtx S) (now : Int) (n : Node S) (i : Fin MAX_PEERS) :
    SameMarks n (expireSession ctx now n i).1 := by
  simp only [expireSession]
  split
  · exact .setSession rfl
  · exact .refl n

theorem keepalive_sameMarks (ctx : LoopCtx S) (pass : PassInput S) (n : Node S)
    (i : Fin MAX_PEERS) : SameMarks n (keepalive ctx pass n i).1 := by
  simp only [keepalive]
  split
  · exact .setSession (forwardToPeer_rekeying ..)
  · exact .refl n

/-! ## Setting and clearing the mark -/

theorem findSessionByPub_congr {tb tb' : SessionTable S} (hslots : tb'.slots = tb.slots)
    (h : ∀ k, (tb'.sessions k).active = (tb.sessions k).active ∧
      (tb'.sessions k).staticPub = (tb.sessions k).staticPub) (pub : S.Block) :
    findSessionByPub tb' pub = findSessionByPub tb pub := by
  unfold findSessionByPub
  simp only [hslots, fun k => (h k).1, fun k => (h k).2]

/-- Replacing a session by one with the same identity. -/
theorem findSessionByPub_set {tb : SessionTable S} {i : Fin MAX_PEERS} {s : Session S}
    (hact : s.active = (tb.sessions i).active) (hpub : s.staticPub = (tb.sessions i).staticPub)
    (pub : S.Block) : findSessionByPub (tb.set i s) pub = findSessionByPub tb pub := by
  apply findSessionByPub_congr (SessionTable.set_slots ..)
  exact SessionTable.set_rel
    (R := fun x y => y.active = x.active ∧ y.staticPub = x.staticPub) ⟨hact, hpub⟩ fun _ =>
    ⟨rfl, rfl⟩

section SetRekeying

variable (n : Node S) (b : Bool) (s : Option (Fin MAX_PEERS))

theorem setRekeying_lookup (pub : S.Block) :
    findSessionByPub (setRekeying n b s).table pub = findSessionByPub n.table pub := by
  cases s with
  | none => rfl
  | some i =>
      rw [setRekeying, Node.setSession_table, findSessionByPub_set]
      · rfl
      · rfl

@[simp] theorem setRekeying_pendingHs : (setRekeying n b s).pendingHs = n.pendingHs := by
  cases s <;> rfl

@[simp] theorem setRekeying_peerConfigs : (setRekeying n b s).peerConfigs = n.peerConfigs := by
  cases s <;> rfl

@[simp] theorem setRekeying_lastCheck : (setRekeying n b s).lastCheck = n.lastCheck := by
  cases s <;> rfl

theorem setRekeying_self (i : Fin MAX_PEERS) :
    ((setRekeying n b (some i)).table.sessions i).rekeying = b := by
  simp [setRekeying]

theorem setRekeying_ne {k : Fin MAX_PEERS} (hk : s ≠ some k) :
    ((setRekeying n b s).table.sessions k).rekeying = (n.table.sessions k).rekeying := by
  cases s with
  | none => rfl
  | some i =>
      have hki : k ≠ i := fun h => hk (by rw [h])
      simp [setRekeying, SessionTable.set_sessions_ne _ _ hki]

/-- Nothing else about the sessions changes. -/
theorem setRekeying_session (i : Fin MAX_PEERS) :
    ((setRekeying n b s).table.sessions i).active = (n.table.sessions i).active ∧
      ((setRekeying n b s).table.sessions i).staticPub = (n.table.sessions i).staticPub := by
  cases s with
  | none => exact ⟨rfl, rfl⟩
  | some k =>
      rw [setRekeying, Node.setSession_table]
      refine SessionTable.set_rel
        (R := fun x y => y.active = x.active ∧ y.staticPub = x.staticPub) ?_
        (fun _ => ⟨rfl, rfl⟩) i
      exact ⟨rfl, rfl⟩

end SetRekeying

/-- `if (s) s->rekeying = 0` is the same wherever it stands. -/
theorem clearRekeying_eq (n : Node S) (pub : S.Block) :
    { n with table := clearRekeying n.table pub }
      = setRekeying n false (findSessionByPub n.table pub) := by
  unfold clearRekeying
  split
  · rename_i h
    rw [h]
    rfl
  · rename_i i h
    rw [h]
    rfl

/-! ## Starting handshakes -/

/-- A pending handshake in the slot of `pending_hs[]` that was free: it is active, for the
configuration at hand, and holds its ephemeral key. -/
structure Started (idx : Nat) (n : Node S) (j : Fin MAX_PEERS) (p : PendingHs S) : Prop where
  free : (n.pendingHs j).active = false
  active : p.active = true
  cfgIdx : p.cfgIdx = idx
  key : p.hsState.ephKey.isSome = true

/-- What `initiate_outbound_handshake` does: the attempt is noted with its time, and either no
handshake is started or the entry of one is written. -/
theorem initiateOutboundHandshake_started (ctx : LoopCtx S) (n : Node S) (idx : Nat)
    (clock sentAt : Int) (fresh : Option S.Priv) (ok : Bool) :
    (initiateOutboundHandshake ctx n idx clock sentAt fresh ok).1.table = n.table ∧
    (initiateOutboundHandshake ctx n idx clock sentAt fresh ok).1.peerConfigs
      = (n.setConfig idx { n.config idx with lastAttempt := clock }).peerConfigs ∧
    (initiateOutboundHandshake ctx n idx clock sentAt fresh ok).1.lastCheck = n.lastCheck ∧
    ((initiateOutboundHandshake ctx n idx clock sentAt fresh ok).2.1 = false ∧
        (initiateOutboundHandshake ctx n idx clock sentAt fresh ok).1.pendingHs = n.pendingHs ∨
      (initiateOutboundHandshake ctx n idx clock sentAt fresh ok).2.1 = true ∧
        ∃ j p, Started idx n j p ∧ p.sentAt = sentAt ∧
          (initiateOutboundHandshake ctx n idx clock sentAt fresh ok).1.pendingHs
            = Function.update n.pendingHs j p) := by
  unfold initiateOutboundHandshake
  split
  · exact ⟨rfl, rfl, rfl, .inl ⟨rfl, rfl⟩⟩
  · rename_i j hj
    have hfree : (n.pendingHs j).active = false := by
      simpa using (Fin.find?_eq_some_iff.mp hj).1
    dsimp only
    split
    · exact ⟨rfl, rfl, rfl, .inl ⟨rfl, rfl⟩⟩
    · rename_i pkt st hsend
      obtain ⟨e, ss, -, -, -, rfl⟩ := handshakeClientSend_eq_some hsend
      exact ⟨rfl, rfl, rfl, .inr ⟨rfl, j, _, ⟨hfree, rfl, rfl, rfl⟩, rfl, rfl⟩⟩

/-- The condition under which a pass calls `initiate_outbound_handshake`. -/
def attempts (ctx : LoopCtx S) (pass : PassInput S) (n : Node S) (idx : Nat) : Bool :=
  (n.config idx).hasEndpoint &&
    needsHandshake ctx n pass.now (findSessionByPub n.table (n.config idx).pub) &&
    decide (ctx.reconnectInterval ≤ pass.now - (n.config idx).lastAttempt)

theorem attempts_needs {ctx : LoopCtx S} {pass : PassInput S} {n : Node S} {idx : Nat}
    (h : attempts ctx pass n idx = true) :
    needsHandshake ctx n pass.now (findSessionByPub n.table (n.config idx).pub) = true := by
  simp only [attempts, Bool.and_eq_true] at h
  exact h.1.2

/-- The times after an attempt. It may have failed, and counts all the same. -/
structure Attempted (pass : PassInput S) (idx : Nat) (n n' : Node S) : Prop where
  lastAttempt : (n'.config idx).lastAttempt = pass.clock idx
  others : ∀ k, k ≠ idx → (n'.config k).lastAttempt = (n.config k).lastAttempt
  lastCheck : n'.lastCheck = n.lastCheck

/-- The body of the loop over `peer_configs[]`, as far as marks, pending handshakes and times go:
nothing happens, or a handshake is needed, and then either none is started and the mark is off,
or one is and the mark is on. -/
inductive ConnectOutcome (ctx : LoopCtx S) (pass : PassInput S) (idx : Nat) (n n' : Node S) : Prop
  | skip (h : n' = n)
  | fail (attempt : attempts ctx pass n idx = true) (times : Attempted pass idx n n')
      (table : n'.table
        = (setRekeying n false (findSessionByPub n.table (n.config idx).pub)).table)
      (pending : n'.pendingHs = n.pendingHs)
  | start (attempt : attempts ctx pass n idx = true) (times : Attempted pass idx n n')
      (table : n'.table
        = (setRekeying n true (findSessionByPub n.table (n.config idx).pub)).table)
      (j : Fin MAX_PEERS) (p : PendingHs S) (hp : Started idx n j p)
      (sentAt : p.sentAt = pass.initSentAt idx)
      (pending : n'.pendingHs = Function.update n.pendingHs j p)

/-- The mark is on only for the moment. -/
theorem setRekeying_setRekeying (n : Node S) (b c : Bool) (s : Option (Fin MAX_PEERS)) :
    (setRekeying (setRekeying n b s) c s).table = (setRekeying n c s).table := by
  cases s with
  | none => rfl
  | some i => simp [setRekeying, SessionTable.set]

theorem setRekeying_table_congr {n m : Node S} (h : m.table = n.table) (b : Bool)
    (s : Option (Fin MAX_PEERS)) : (setRekeying m b s).table = (setRekeying n b s).table := by
  cases s with
  | none => exact h
  | some i => simp [setRekeying, h]

/-- The endpoint is resolved, the mark set, and the attempt noted. -/
theorem Attempted.of_setConfig {pass : PassInput S} {idx : Nat} {n m n' : Node S}
    (hidx : idx < n.peerConfigs.length) {c : PeerConfig S}
    (hm : m.peerConfigs = (n.setConfig idx c).peerConfigs)
    (hn' : n'.peerConfigs
      = (m.setConfig idx { m.config idx with lastAttempt := pass.clock idx }).peerConfigs)
    (hcheck : n'.lastCheck = n.lastCheck) : Attempted pass idx n n' := by
  have hlt : idx < m.peerConfigs.length := by
    rw [hm]
    simpa [Node.setConfig] using hidx
  refine ⟨?_, ?_, hcheck⟩
  · rw [Node.config_congr hn', Node.config_setConfig_self _ hlt]
  · intro k hk
    rw [Node.config_congr hn', Node.config_setConfig_ne m _ hk, Node.config_congr hm,
      Node.config_setConfig_ne n _ hk]

theorem connectPeer_outcome (ctx : LoopCtx S) (pass : PassInput S) (n : Node S) (idx : Nat) :
    ConnectOutcome ctx pass idx n (connectPeer ctx pass n idx).1 := by
  simp only [connectPeer]
  split
  · rename_i hcond
    have hatt : attempts ctx pass n idx = true := hcond
    have hlt : idx < n.peerConfigs.length := by
      simp only [Bool.and_eq_true] at hcond
      exact Node.config_lt hcond.1.1
    -- the node before the mark is set
    obtain ⟨m, hm⟩ : ∃ m, m = n.setConfig idx
      (resolveEndpoint (pass.getaddrinfo idx) (n.config idx)) := ⟨_, rfl⟩
    have htable : m.table = n.table := by rw [hm, Node.setConfig_table]
    have hpending : m.pendingHs = n.pendingHs := by rw [hm, Node.setConfig_pendingHs]
    have hcheck : m.lastCheck = n.lastCheck := by rw [hm, Node.setConfig_lastCheck]
    have hconfigs : (setRekeying m true (findSessionByPub n.table (n.config idx).pub)).peerConfigs =
        (n.setConfig idx (resolveEndpoint (pass.getaddrinfo idx) (n.config idx))).peerConfigs := by
      rw [setRekeying_peerConfigs, hm]
    rw [← hm]
    have hpend := initiateOutboundHandshake_started ctx
      (setRekeying m true (findSessionByPub n.table (n.config idx).pub)) idx (pass.clock idx)
      (pass.initSentAt idx) (pass.fresh idx) (pass.initOk idx)
    split
    · rename_i n₂ ev heq
      rw [heq] at hpend
      obtain ⟨htb, hcfgs, hlast, ⟨hfalse, -⟩ | ⟨-, j, p, hp, hsent, hupd⟩⟩ := hpend
      · cases hfalse
      · rw [setRekeying_lastCheck, hcheck] at hlast
        rw [setRekeying_pendingHs, hpending] at hupd
        have hfree := hp.free
        rw [setRekeying_pendingHs, hpending] at hfree
        exact .start hatt (.of_setConfig hlt hconfigs hcfgs hlast)
          (htb.trans (setRekeying_table_congr htable ..)) j p
          ⟨hfree, hp.active, hp.cfgIdx, hp.key⟩ hsent hupd
    · rename_i n₂ ev heq
      rw [heq] at hpend
      obtain ⟨htb, hcfgs, hlast, ⟨-, hsame⟩ | ⟨htrue, -⟩⟩ := hpend
      · rw [setRekeying_lastCheck, hcheck] at hlast
        rw [setRekeying_pendingHs, hpending] at hsame
        refine .fail hatt (.of_setConfig hlt hconfigs ((setRekeying_peerConfigs ..).trans hcfgs)
          ((setRekeying_lastCheck ..).trans hlast)) ?_ ((setRekeying_pendingHs ..).trans hsame)
        rw [setRekeying_table_congr htb, setRekeying_setRekeying]
        exact setRekeying_table_congr htable ..
      · cases htrue
  · exact .skip rfl

namespace ConnectOutcome

variable {ctx : LoopCtx S} {pass : PassInput S} {idx : Nat} {n n' : Node S}

/-- Sessions are found where they were. -/
theorem lookup (h : ConnectOutcome ctx pass idx n n') (pub : S.Block) :
    findSessionByPub n'.table pub = findSessionByPub n.table pub := by
  cases h with
  | skip heq => rw [heq]
  | fail _ _ table _ => rw [table, setRekeying_lookup]
  | start _ _ table _ _ _ _ _ => rw [table, setRekeying_lookup]

/-- The marks of the other peers stay. -/
theorem rekeying_ne (h : ConnectOutcome ctx pass idx n n') {k : Fin MAX_PEERS}
    (hk : findSessionByPub n.table (n.config idx).pub ≠ some k) :
    (n'.table.sessions k).rekeying = (n.table.sessions k).rekeying := by
  cases h with
  | skip heq => rw [heq]
  | fail _ _ table _ => rw [table, setRekeying_ne _ _ _ hk]
  | start _ _ table _ _ _ _ _ => rw [table, setRekeying_ne _ _ _ hk]

end ConnectOutcome

/-! ## Handshake packets -/

/-- No handshake packet changes the configurations or the time of the last pass. -/
theorem handshakePkt_fixed (ctx : LoopCtx S) (n : Node S) (d : Datagram S) :
    (handshakePkt ctx n d).1.lastCheck = n.lastCheck ∧
    (handshakePkt ctx n d).1.peerConfigs = n.peerConfigs := by
  have hinstall : ∀ m pub key cfg out,
      (installSession ctx m d pub key cfg out).1.lastCheck = m.lastCheck ∧
      (installSession ctx m d pub key cfg out).1.peerConfigs = m.peerConfigs := by
    intro m pub key cfg out
    obtain ⟨tb, heq⟩ := installSession_node ctx m d pub key cfg out
    rw [heq]
    exact ⟨rfl, rfl⟩
  have hrefresh : (refreshPrecompEph n d.fresh).lastCheck = n.lastCheck ∧
      (refreshPrecompEph n d.fresh).peerConfigs = n.peerConfigs :=
    ⟨refreshPrecompEph_lastCheck .., refreshPrecompEph_peerConfigs ..⟩
  cases hpending : pendingFrom n d.src with
  | some j =>
      rw [handshakePkt_of_pendingFrom_some ctx n hpending]
      obtain ⟨st, heq | ⟨key, heq⟩⟩ := outboundResponse_node ctx n j d
      · rw [heq]
        exact ⟨rfl, rfl⟩
      · rw [heq]
        exact hinstall ..
  | none =>
      rw [handshakePkt_of_pendingFrom_none ctx n hpending]
      rcases inboundHandshake_node ctx n d with heq | heq | ⟨pub, key, cfg, heq⟩
      · rw [heq]
        exact ⟨rfl, rfl⟩
      · rw [heq]
        exact hrefresh
      · rw [heq, (hinstall _ pub key cfg false).1, (hinstall _ pub key cfg false).2]
        exact hrefresh

end Lanecove
