import Lanecove.Network.Simulation

set_option autoImplicit false

/-! # Rekeying over a lossy network

What the abstract protocol guarantees holds of the two nodes (`rekey_keeps_tunnel`): while the
initiator has the responder's newest key, each accepts what the other sends; while the
responder is one key ahead, it accepts what the initiator sends for the rest of the grace
period.

Nothing more holds. The responder uses a new key before it knows that the initiator has it, and
keeps one previous key only: `lost_responses_break_tunnel` loses one response, and then another.
-/

namespace Lanecove

open Machine (left right)

variable {S : Suite}

/-! ## Packets that are accepted -/

/-- The node accepts, at time `now`, whatever `forward_to_peer` sends next on the session `s`
of the other end, if it comes from `src`. -/
def AcceptsNext (ctx : LoopCtx S) (n : Node S) (s : Session S) (src : SockAddr) (now : Int) :
    Prop :=
  ∀ (payload : List UInt8) (iv : S.Iv) (d : Datagram S), d.src = src → d.now = now →
    d.pkt = S.encryptPacket s.sessionKey iv (frame s.sendSeq payload) →
    ∃ r ∈ receipts ((node ctx).step n (.udp d)).2, r.seq = s.sendSeq ∧ r.payload = payload

section Receive

variable {s : Session S} {i : Fin MAX_PEERS} {pkt : S.Wire} {now : Int} {plain : List UInt8}
  {seq : BitVec 64} {payload : List UInt8}

/-- A frame under the current key, with a number that was not seen before. -/
theorem receive_current (hdec : S.decryptPacket s.sessionKey pkt = some plain)
    (hframe : unframe plain = some (seq, payload)) (hnew : ¬ s.recvSeq.Seen seq) :
    ∃ s' r, receive s i pkt now = (s', some r) ∧ r.seq = seq ∧ r.payload = payload := by
  obtain ⟨w, hw⟩ := receive_fresh i now hdec hframe hnew
  exact ⟨_, _, hw, rfl, rfl⟩

/-- A frame under the previous key, within the grace period. -/
theorem receive_previous (hcur : S.decryptPacket s.sessionKey pkt = none)
    (hact : s.prevKeyActive = true) (hnow : now ≤ s.prevKeyExpires)
    (hdec : S.decryptPacket s.prevSessionKey pkt = some plain)
    (hframe : unframe plain = some (seq, payload)) :
    ∃ s' r, receive s i pkt now = (s', some r) ∧ r.seq = seq ∧ r.payload = payload := by
  refine ⟨{ s with lastSeen := now },
    ⟨i, s.staticPub, s.prevSessionKey, true, pkt, seq, payload, now⟩, ?_, rfl, rfl⟩
  simp [receive, decryptSession, acceptFrame, hcur, hact, hnow, hdec, hframe]

end Receive

/-- A data packet from the address of a session that receives it. -/
theorem acceptsNext_of_receive (hS : S.Ideal) {ctx : LoopCtx S} {n : Node S} {s : Session S}
    {src : SockAddr} {now : Int} {i : Fin MAX_PEERS}
    (hf : findSessionByAddr n.table src = some i)
    (hrec : ∀ payload pkt, S.decryptPacket s.sessionKey pkt = some (frame s.sendSeq payload) →
      ∃ s' r, receive (n.table.sessions i) i pkt now = (s', some r) ∧ r.seq = s.sendSeq ∧
        r.payload = payload) :
    AcceptsNext ctx n s src now := by
  rintro payload iv d rfl rfl hpkt
  have hdata : isHandshake ctx d.pkt = false := by
    rw [isHandshake, hpkt, hS.hsFields_encrypt]
    rfl
  have hdec : S.decryptPacket s.sessionKey d.pkt = some (frame s.sendSeq payload) := by
    rw [hpkt]
    exact hS.decrypt_encrypt ..
  obtain ⟨s', r, hr, hseq, hpay⟩ := hrec payload d.pkt hdec
  refine ⟨r, ?_, hseq, hpay⟩
  rw [mem_receipts]
  show .accepted r ∈ (udpPacket ctx n d).2
  unfold udpPacket
  rw [hdata, if_neg Bool.false_ne_true]
  unfold dataPacket
  rw [hf]
  simp only [hr]
  exact List.mem_cons_self

/-! ## The tunnel -/

/-- An established tunnel: both ends have one session with each other, with the same key, and
what either has seen the other has sent. No rekey is under way. The responder has the
initiator configured, no endpoints of its own, and an unused precomputed key. Nothing that
happened before matters: the trace is empty. -/
structure Established (T : Tunnel S) (a : (node T.client).Config) (b : (node T.server).Config) :
    Prop where
  trace : a.2 = [] ∧ b.2 = []
  clientSession : HasSession T.clientSlot T.serverAddr T.server.staticPub a.1
  clientKey : (a.1.table.sessions T.clientSlot).sessionKey = deriveSessionKey T.first
  clientIdle : ∀ j, ¬ a.1.waitsFor T.server.staticPub j
  clientSeen : ∀ q ∈ seenBy (a.1.table.sessions T.clientSlot),
    q < (b.1.table.sessions T.serverSlot).sendSeq.toNat
  serverSession : HasSession T.serverSlot T.clientAddr T.client.staticPub b.1
  serverKey : (b.1.table.sessions T.serverSlot).sessionKey = deriveSessionKey T.first
  serverIdle : ∀ j, (b.1.pendingHs j).active = false
  serverSeen : ∀ q ∈ seenBy (b.1.table.sessions T.serverSlot),
    q < (a.1.table.sessions T.clientSlot).sendSeq.toNat
  noEndpoint : ∀ idx, (b.1.config idx).hasEndpoint = false
  configured : T.client.staticPub ∈ b.1.peerConfigs.map PeerConfig.pub
  precomp : ∃ e, b.1.precompEphKey = some e ∧ S.pubOf e ≠ T.first.serverEphPub

section Established

variable {T : Tunnel S} {a : (node T.client).Config} {b : (node T.server).Config}

theorem Established.clientEnd (h : Established T a b) : ClientEnd T a where
  session := h.clientSession
  rekey := ⟨h.clientSession.byPub, fun j _ hj => absurd hj (h.clientIdle j),
    fun j hj => absurd hj (h.clientIdle j)⟩
  pending j hj := absurd hj (h.clientIdle j)
  initiations dst pkt hmem := by rw [h.trace.1] at hmem; cases hmem
  responses dst pkt hmem := by rw [h.trace.1] at hmem; cases hmem
  data d hmem := by rw [h.trace.1] at hmem; cases hmem

theorem Established.history (h : Established T a b) :
    history T b.2 = [(b.1.table.sessions T.serverSlot).sessionKey] := by
  rw [h.trace.2, h.serverKey]
  rfl

theorem Established.serverEnd (h : Established T a b) : ServerEnd T b where
  session := h.serverSession
  idle := h.serverIdle
  noEndpoint := h.noEndpoint
  configured := h.configured
  precomp := by
    obtain ⟨e, hpre, hfirst⟩ := h.precomp
    refine ⟨e, hpre, hfirst, ?_⟩
    rw [h.trace.2]
    rintro w ⟨⟩
  initiations dst pkt hmem := by rw [h.trace.2] at hmem; cases hmem
  responses dst w hmem := by rw [h.trace.2] at hmem; cases hmem
  data d hmem := by rw [h.trace.2] at hmem; cases hmem
  latest := ⟨[], h.history⟩
  previous p rest heq := by
    rw [h.history] at heq
    cases heq
  keys k hmem := by
    rw [h.history] at hmem
    obtain rfl := List.mem_singleton.mp hmem
    exact ⟨T.first, h.serverKey, .inl rfl⟩

theorem Established.inStep (h : Established T a b) :
    Rekeying.InStep (clientOf T a) (serverOf T b) := by
  have hkey : (clientOf T a).key = (serverOf T b).key := h.clientKey.trans h.serverKey.symm
  have hkeys : (serverOf T b).keys = [(serverOf T b).key] :=
    h.serverEnd.keys_eq.trans h.history
  have hanswers : ∀ p, p ∉ (serverOf T b).answers := by
    rintro p ⟨i, hi, -⟩
    rw [h.trace.2] at hi
    cases hi
  refine ⟨?_, ?_, fun e k hek => absurd hek (hanswers _), fun e _ k hek => absurd hek (hanswers _),
    ?_, ?_, fun hne => absurd hkey hne, fun _ => ⟨h.serverSeen, h.clientSeen⟩⟩
  · rw [hkeys, hkey]
    exact List.mem_singleton_self _
  · rw [hkeys]
    exact List.nodup_singleton _
  · rintro k q ⟨d, hd, -⟩
    rw [h.trace.1] at hd
    cases hd
  · rintro k q ⟨d, hd, -⟩
    rw [h.trace.2] at hd
    cases hd

end Established

/-- What either end can rely on. The keys are those of the responder, newest first. -/
structure TunnelHolds (T : Tunnel S) (a : (node T.client).Config) (b : (node T.server).Config) :
    Prop where
  /-- The initiator's key is one the responder has had. -/
  known : (a.1.table.sessions T.clientSlot).sessionKey ∈ history T b.2
  /-- The initiator has the newest key. -/
  level : ∀ older, history T b.2 = (a.1.table.sessions T.clientSlot).sessionKey :: older →
    ∀ now, AcceptsNext T.server b.1 (a.1.table.sessions T.clientSlot) T.clientAddr now ∧
      AcceptsNext T.client a.1 (b.1.table.sessions T.serverSlot) T.serverAddr now
  /-- The initiator has the key before the newest. -/
  behind : ∀ k older, history T b.2 = k :: (a.1.table.sessions T.clientSlot).sessionKey :: older →
    ∀ now, now ≤ (b.1.table.sessions T.serverSlot).lastHandshake + T.server.prevKeyGrace →
    AcceptsNext T.server b.1 (a.1.table.sessions T.clientSlot) T.clientAddr now

/-- The abstract invariant, read back at the nodes. -/
theorem tunnelHolds_of_inStep (hS : S.Ideal) {T : Tunnel S} {a : (node T.client).Config}
    {b : (node T.server).Config} (hC : ClientEnd T a) (hR : ServerEnd T b)
    (h : Rekeying.InStep (clientOf T a) (serverOf T b)) : TunnelHolds T a b := by
  obtain ⟨newer, hnewer⟩ := hR.latest
  refine ⟨?_, ?_, ?_⟩
  · rw [← hR.keys_eq]
    exact h.client_key
  · intro older holder now
    have hkey : (clientOf T a).key = (serverOf T b).key :=
      (List.cons.inj (holder.symm.trans hnewer)).1
    obtain ⟨hserver, hclient⟩ := h.level hkey
    constructor
    · apply acceptsNext_of_receive hS hR.session.byAddr
      intro payload pkt hdec
      rw [show (a.1.table.sessions T.clientSlot).sessionKey
        = (b.1.table.sessions T.serverSlot).sessionKey from hkey] at hdec
      refine receive_current hdec (unframe_frame ..) ?_
      intro hseen
      exact Nat.lt_irrefl _ (hserver _ ⟨_, rfl, hseen⟩)
    · apply acceptsNext_of_receive hS hC.session.byAddr
      intro payload pkt hdec
      rw [show (b.1.table.sessions T.serverSlot).sessionKey
        = (a.1.table.sessions T.clientSlot).sessionKey from hkey.symm] at hdec
      refine receive_current hdec (unframe_frame ..) ?_
      intro hseen
      exact Nat.lt_irrefl _ (hclient _ ⟨_, rfl, hseen⟩)
  · intro k older hhist now hnow
    obtain ⟨rfl, -⟩ := List.cons.inj (hhist.symm.trans hnewer)
    obtain ⟨hprev, hexpires⟩ := hR.previous _ _ hhist
    -- the two keys differ, since the responder never had a key twice
    have hne : (clientOf T a).key ≠ (serverOf T b).key := by
      intro heq
      have hnodup := h.nodup
      rw [hR.keys_eq, hhist] at hnodup
      exact (List.nodup_cons.mp hnodup).1 (List.mem_cons.mpr (.inl heq.symm))
    apply acceptsNext_of_receive hS hR.session.byAddr
    intro payload pkt hdec
    have hcur : S.decryptPacket (b.1.table.sessions T.serverSlot).sessionKey pkt = none := by
      by_contra hsome
      obtain ⟨plain, hplain⟩ := Option.ne_none_iff_exists'.mp hsome
      exact hne (hS.oneKey _ _ _ _ _ hdec hplain)
    rw [← hprev] at hdec
    exact receive_previous hcur (h.behind hne).1 (by rw [hexpires]; exact hnow) hdec
      (unframe_frame ..)

/-- **Rekeying keeps the tunnel.** In every run of an established tunnel over a lossy network:
while the initiator has the responder's newest key, each end accepts what the other sends at
once; while it has the key before that, the responder accepts what the initiator sends until
the grace period of its latest handshake is over. -/
theorem rekey_keeps_tunnel (hS : S.Ideal) (T : Tunnel S)
    (c : (network T.client T.server).Config) (hc : Established T (left c) (right c))
    (is : List (Input S ⊕ Input S)) (hrun : (network T.client T.server).Along (Lossy T) c is) :
    TunnelHolds T (left ((network T.client T.server).run c is))
      (right ((network T.client T.server).run c is)) := by
  -- induction over the run: each end keeps its own invariant, and together they stay in step
  have hinv := Machine.pair_invariant
    (I := fun a b => ClientEnd T a ∧ ServerEnd T b ∧
      Rekeying.InStep (clientOf T a) (serverOf T b)) ?_ ?_ ?_ hrun
  · obtain ⟨hC, hR, h⟩ := hinv
    exact tunnelHolds_of_inStep hS hC hR h
  · rintro c inp ⟨hC, hR, h⟩ hG
    obtain ⟨hC', hstep⟩ := hC.step hS hR hG
    exact ⟨hC', hR, h.client_step hstep⟩
  · rintro c inp ⟨hC, hR, h⟩ hG
    obtain ⟨hR', hstep⟩ := hR.step hS hC hG
    exact ⟨hC, hR', h.server_step hstep⟩
  · exact ⟨hc.clientEnd, hc.serverEnd, hc.inStep⟩

/-! ## Lost responses

Nodes `1` and `2` on the symbolic suite, with a session between them since time `1000`. -/

def keptTunnel : Tunnel symbolic where
  client := ctxOf 1
  server := ctxOf 2
  clientAddr := addrOf 1
  serverAddr := addrOf 2
  clientSlot := ⟨0, MAX_PEERS_pos⟩
  serverSlot := ⟨0, MAX_PEERS_pos⟩
  first := ⟨Term.exp 10 (Msg.pub 20), Term.exp 20 (Msg.pub 1), Term.exp 10 (Msg.pub 2), Msg.pub 10,
    Msg.pub 20, Msg.pub 1, Msg.pub 2⟩
  samePsk := rfl

/-- A node after a handshake at time `1000`, in the first slot. -/
def connected (cfg : PeerConfig symbolic) (src : SockAddr) (isOutbound : Bool) (fresh : Nat) :
    Node symbolic :=
  { Node.init [cfg] (some fresh) with
    table :=
      { sessions := Function.update (fun _ => .zero symbolic) ⟨0, MAX_PEERS_pos⟩
          (sessionInit Settings.default (.zero symbolic) src cfg.pub
            (deriveSessionKey keptTunnel.first) (some cfg) isOutbound 1000)
        slots := 1 } }

def keptStart : (network keptTunnel.client keptTunnel.server).Config :=
  ((connected (endpointOf 2) (addrOf 2) true 100, connected (peerOf 1) (addrOf 1) false 200), [])

theorem keptStart_established : Established keptTunnel (left keptStart) (right keptStart) where
  trace := ⟨rfl, rfl⟩
  clientSession := ⟨by unfold SessionTable.Below; decide +kernel, rfl, rfl, rfl, by decide +kernel⟩
  clientKey := rfl
  clientIdle j hj := Bool.false_ne_true hj.1
  clientSeen := by
    rintro q ⟨v, -, hv⟩
    exact absurd hv (ReplayState.not_seen_zero v)
  serverSession := ⟨by unfold SessionTable.Below; decide +kernel, rfl, rfl, rfl, by decide +kernel⟩
  serverKey := rfl
  serverIdle j := rfl
  serverSeen := by
    rintro q ⟨v, -, hv⟩
    exact absurd hv (ReplayState.not_seen_zero v)
  noEndpoint := by rintro (_ | idx) <;> rfl
  configured := by decide +kernel
  precomp := ⟨200, rfl, by decide +kernel⟩

section Steps

variable {T : Tunnel symbolic} {ctx : LoopCtx symbolic} {i : Fin MAX_PEERS}
  {own remote : SockAddr} {c : (node ctx).Config} {other : List (Event symbolic)} {now : Int}

theorem undisturbed_arrival {pkt : Msg} {fresh : Nat}
    (h : (own, pkt) ∈ datagrams other ∧ FreshKey T ctx c fresh ∧
      (c.1.table.sessions i).sendSeq.toNat + 1 < 2 ^ 64 ∧
      (((node ctx).step c.1 (arrival remote pkt now fresh)).1.table.sessions i).active = true) :
    Undisturbed T ctx i own remote c other (arrival remote pkt now fresh) := by
  obtain ⟨hsent, hfresh, hroom, halive⟩ := h
  refine ⟨?_, ?_, ?_, hroom, halive⟩
  · rintro d ⟨⟩
    exact ⟨rfl, hsent⟩
  · rintro e ⟨⟩
    exact hfresh
  · rintro d ⟨⟩
    rfl

theorem undisturbed_passAt {e : Nat}
    (h : FreshKey T ctx c e ∧ (c.1.table.sessions i).sendSeq.toNat + 1 < 2 ^ 64 ∧
      (((node ctx).step c.1 (passAt now e)).1.table.sessions i).active = true) :
    Undisturbed T ctx i own remote c other (passAt now e) := by
  obtain ⟨hfresh, hroom, halive⟩ := h
  refine ⟨?_, ?_, ?_, hroom, halive⟩
  · rintro d ⟨⟩
  · rintro e' ⟨idx, ⟨⟩⟩
    exact hfresh
  · rintro d ⟨⟩

end Steps

/-- A rekey whose messages both arrive. -/
def keptRun : List (Input symbolic ⊕ Input symbolic) :=
  [.inl (passAt 1200 11), .inr (arrival (addrOf 1) (initiationOf 1 2 11) 1201 201),
    .inl (arrival (addrOf 2) (responseOf 2 11 200) 1202 101)]

theorem rekey_keeps_tunnel_keptRun :
    (network keptTunnel.client keptTunnel.server).Along (Lossy keptTunnel) keptStart keptRun ∧
    history keptTunnel (right ((network keptTunnel.client keptTunnel.server).run keptStart
      keptRun)).2 = [keyOf 1 2 11 200, keyOf 1 2 10 20] ∧
    TunnelHolds keptTunnel
      (left ((network keptTunnel.client keptTunnel.server).run keptStart keptRun))
      (right ((network keptTunnel.client keptTunnel.server).run keptStart keptRun)) := by
  have hrun : (network keptTunnel.client keptTunnel.server).Along (Lossy keptTunnel) keptStart
      keptRun :=
    ⟨undisturbed_passAt (by decide +kernel), undisturbed_arrival (by decide +kernel),
      undisturbed_arrival (by decide +kernel), trivial⟩
  refine ⟨hrun, by decide +kernel, ?_⟩
  exact rekey_keeps_tunnel symbolic_ideal keptTunnel keptStart keptStart_established keptRun hrun

/-- The initiation of a first rekey arrives and its response is lost. -/
def lostOnce : List (Input symbolic ⊕ Input symbolic) :=
  [.inl (passAt 1200 11), .inr (arrival (addrOf 1) (initiationOf 1 2 11) 1201 201)]

/-- The initiator gives up and tries again; the second response is lost as well. -/
def lostTwice : List (Input symbolic ⊕ Input symbolic) :=
  lostOnce ++ [.inl (passAt 1210 12), .inl (passAt 1240 13),
    .inr (arrival (addrOf 1) (initiationOf 1 2 13) 1241 202)]

/-- A datagram that is not accepted. -/
theorem not_acceptsNext {ctx : LoopCtx symbolic} {n : Node symbolic} {s : Session symbolic}
    {src : SockAddr} {now : Int}
    (h : receipts ((node ctx).step n (arrival src (dataOf s.sessionKey s.sendSeq []) now 300)).2
      = []) : ¬ AcceptsNext ctx n s src now := by
  intro hacc
  obtain ⟨r, hr, -⟩ := hacc [] [] ⟨src, dataOf s.sessionKey s.sendSeq [], now, now, some 300, true,
    none⟩ rfl rfl rfl
  exact absurd (h ▸ hr : r ∈ []) List.not_mem_nil

/-- The responder first replaces the key at time `1201`. At once the initiator no longer
accepts what the responder sends, and from time `1241` on the responder no longer accepts
what the initiator sends, although the grace period lasts until `1291`. -/
theorem lost_responses_break_tunnel :
    (network keptTunnel.client keptTunnel.server).Along (Lossy keptTunnel) keptStart lostTwice ∧
    (installs (right ((network keptTunnel.client keptTunnel.server).run keptStart
      lostTwice)).2).map Install.time = [1201, 1241] ∧
    (installs (left ((network keptTunnel.client keptTunnel.server).run keptStart
      lostTwice)).2).map Install.time = [] ∧
    1241 < 1201 + keptTunnel.server.prevKeyGrace ∧
    ¬ AcceptsNext keptTunnel.client
      (left ((network keptTunnel.client keptTunnel.server).run keptStart lostOnce)).1
      ((right ((network keptTunnel.client keptTunnel.server).run keptStart
        lostOnce)).1.table.sessions keptTunnel.serverSlot) keptTunnel.serverAddr 1201 ∧
    ¬ AcceptsNext keptTunnel.server
      (right ((network keptTunnel.client keptTunnel.server).run keptStart lostTwice)).1
      ((left ((network keptTunnel.client keptTunnel.server).run keptStart
        lostTwice)).1.table.sessions keptTunnel.clientSlot) keptTunnel.clientAddr 1241 := by
  refine ⟨?_, by decide +kernel, by decide +kernel, by decide, ?_, ?_⟩
  · exact ⟨undisturbed_passAt (by decide +kernel), undisturbed_arrival (by decide +kernel),
      undisturbed_passAt (by decide +kernel), undisturbed_passAt (by decide +kernel),
      undisturbed_arrival (by decide +kernel), trivial⟩
  · exact not_acceptsNext (by decide +kernel)
  · exact not_acceptsNext (by decide +kernel)

end Lanecove
