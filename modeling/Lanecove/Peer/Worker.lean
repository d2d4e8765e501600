import Lanecove.Peer.Data

set_option autoImplicit false

/-! # The UDP branch of a worker thread

A datagram of handshake size that starts with the magic is matched against the pending
outbound handshakes first; if none of them waits for its source address it is taken as an
initiation. Everything else is a data packet. The branches follow `worker_loop` in
`src/peer.c` in their order, the tie-break loop included.
-/

namespace Lanecove

variable {S : Suite}

/-- What the environment decides about one datagram: source and content, the time `now` at
which it was received, the time `clock` the branch reads later, the ephemeral key
`refresh_precomp_eph` generates (`none` if that fails), whether `sendto` succeeds, and the
IV of a relayed packet (`none` if the encryption fails). -/
structure Datagram (S : Suite) where
  src : SockAddr
  pkt : S.Wire
  now : Int
  clock : Int
  fresh : Option S.Priv
  sendOk : Bool
  iv : Option S.Iv

/-- `nr == hs_size && memcmp(wire_buf, pkt_header, HEADER_SIZE) == 0`. -/
def isHandshake (ctx : LoopCtx S) (pkt : S.Wire) : Bool :=
  (S.hsFields ctx.pskKey.isSome pkt).isSome

/-- The ephemeral public key in a handshake datagram. -/
def ephPubOf (ctx : LoopCtx S) (pkt : S.Wire) : Option S.Block :=
  (S.hsFields ctx.pskKey.isSome pkt).map Prod.fst

/-- The first pending handshake whose server address is `src`. -/
def pendingFrom (n : Node S) (src : SockAddr) : Option (Fin MAX_PEERS) :=
  Fin.find? fun j => (n.pendingHs j).active && decide ((n.pendingHs j).serverAddr = src)

/-- `alloc_session` followed by `session_init`; nothing happens if the table is full. -/
def installSession (ctx : LoopCtx S) (n : Node S) (d : Datagram S) (pub key : S.Block)
    (cfg : PeerConfig S) (isOutbound : Bool) : Node S × List (Event S) :=
  match allocSession n.table pub d.src with
  | none => (n, [])
  | some (i, tb) =>
      ({ n with
          table := tb.set i
            (sessionInit ctx.toSettings (tb.sessions i) d.src pub key (some cfg) isOutbound
              d.clock) },
        [.installed ⟨i, pub, key, d.src, d.pkt, isOutbound, d.clock⟩])

/-- The datagram is taken as the response to pending handshake `j`. The entry is used up
whether or not the response is good. -/
def outboundResponse (ctx : LoopCtx S) (n : Node S) (j : Fin MAX_PEERS) (d : Datagram S) :
    Node S × List (Event S) :=
  let p := n.pendingHs j
  let cfg := n.config p.cfgIdx
  match handshakeClientRecv d.pkt ctx.pskKey ctx.staticKey ctx.staticPub cfg.pub p.hsState with
  | (some key, st) =>
      let r := installSession ctx (n.setPending j { p with active := false, hsState := st }) d
        cfg.pub key cfg true
      (r.1, .hsDone cfg.pub key :: r.2)
  | (none, st) =>
      -- the session is no longer rekeying, so the next pass may try again
      ({ n.setPending j { p with active := false, hsState := st } with
          table := clearRekeying n.table cfg.pub }, [])

/-- The tie-break loop: the new state, and whether the initiation is skipped. -/
def tieBreak (ctx : LoopCtx S) (n : Node S) (src : SockAddr) : Node S × Bool :=
  match pendingFrom n src with
  | none => (n, false)
  | some j =>
      let p := n.pendingHs j
      -- the higher key keeps its own handshake, the lower one cancels it and answers
      if S.gt ctx.staticPub (n.config p.cfgIdx).pub then (n, true)
      else
        ({ n.setPending j { p with active := false, hsState := { p.hsState with ephKey := none } }
            with table := clearRekeying n.table (n.config p.cfgIdx).pub }, false)

/-- The session, if there is one, had its handshake less than the cooldown ago. -/
def inCooldown (ctx : LoopCtx S) (tb : SessionTable S) (now : Int) :
    Option (Fin MAX_PEERS) → Bool
  | none => false
  | some i => decide (now - (tb.sessions i).lastHandshake < ctx.handshakeCooldown)

/-- `refresh_precomp_eph`. -/
def refreshPrecompEph (n : Node S) (fresh : Option S.Priv) : Node S :=
  match fresh with
  | none => n
  | some k => { n with precompEphKey := some k }

/-- What follows a successful `handshake_server_respond`: allowlist, cooldown of the peer's
key, slot allocation. By now the response has been sent. -/
def acceptInitiation (ctx : LoopCtx S) (n : Node S) (d : Datagram S) (pub key : S.Block) :
    Node S × List (Event S) :=
  match findPeerConfig n.peerConfigs pub with
  | none => (n, [])
  | some cfg =>
      if inCooldown ctx n.table d.now (findSessionByPub n.table pub) then (n, [])
      else installSession ctx n d pub key cfg false

/-- The inbound-handshake branch after the tie-break. -/
def inboundHandshake (ctx : LoopCtx S) (n : Node S) (d : Datagram S) :
    Node S × List (Event S) :=
  if inCooldown ctx n.table d.now (findSessionByAddr n.table d.src) then (n, [])
  else
    let r := handshakeServerRespond d.pkt ctx.pskKey ctx.staticKey ctx.staticPub
      n.precompEphKey d.sendOk
    let sent := (r.sent.map (Event.respSent d.src)).toList
    match r.done with
    | none => (n, sent)
    | some (pub, key) =>
        -- the precomputed key is used up, whatever the checks that follow say
        let q := acceptInitiation ctx (refreshPrecompEph n d.fresh) d pub key
        (q.1, sent ++ .hsDone pub key :: q.2)

/-- The handshake branch: response to a pending handshake, tie-break, inbound initiation. -/
def handshakePkt (ctx : LoopCtx S) (n : Node S) (d : Datagram S) : Node S × List (Event S) :=
  match pendingFrom n d.src with
  | some j => outboundResponse ctx n j d
  | none =>
      match tieBreak ctx n d.src with
      | (n', true) => (n', [])
      | (n', false) => inboundHandshake ctx n' d

/-- The UDP branch of `worker_loop`. -/
def udpPacket (ctx : LoopCtx S) (n : Node S) (d : Datagram S) : Node S × List (Event S) :=
  if isHandshake ctx d.pkt then handshakePkt ctx n d
  else dataPacket n d.src d.pkt d.now d.clock d.iv d.sendOk

theorem udpPacket_of_handshake {ctx : LoopCtx S} {d : Datagram S}
    (hd : isHandshake ctx d.pkt = true) (n : Node S) :
    udpPacket ctx n d = handshakePkt ctx n d := if_pos hd

theorem udpPacket_of_data {ctx : LoopCtx S} {d : Datagram S}
    (hd : isHandshake ctx d.pkt = false) (n : Node S) :
    udpPacket ctx n d = dataPacket n d.src d.pkt d.now d.clock d.iv d.sendOk :=
  if_neg (by rw [hd]; exact Bool.false_ne_true)

/-! ## The tie-break is never reached

The first loop over `pending_hs[]` uses up every datagram for which the second loop would
find an entry. -/

theorem tieBreak_of_pendingFrom_none (ctx : LoopCtx S) (n : Node S) {src : SockAddr}
    (h : pendingFrom n src = none) : tieBreak ctx n src = (n, false) := by
  unfold tieBreak
  split
  · rfl
  · rename_i j hj
    rw [h] at hj
    cases hj

theorem handshakePkt_of_pendingFrom_none (ctx : LoopCtx S) (n : Node S) {d : Datagram S}
    (h : pendingFrom n d.src = none) : handshakePkt ctx n d = inboundHandshake ctx n d := by
  unfold handshakePkt
  split
  · rename_i j hj
    rw [h] at hj
    cases hj
  · rw [tieBreak_of_pendingFrom_none ctx n h]

theorem handshakePkt_of_pendingFrom_some (ctx : LoopCtx S) (n : Node S) {d : Datagram S}
    {j : Fin MAX_PEERS} (h : pendingFrom n d.src = some j) :
    handshakePkt ctx n d = outboundResponse ctx n j d := by
  unfold handshakePkt
  split
  · rename_i k hk
    rw [h] at hk
    cases hk
    rfl
  · rename_i hnone
    rw [h] at hnone
    cases hnone

theorem pendingFrom_eq_some {n : Node S} {src : SockAddr} {j : Fin MAX_PEERS}
    (h : pendingFrom n src = some j) :
    (n.pendingHs j).active = true ∧ (n.pendingHs j).serverAddr = src := by
  simpa [Bool.and_eq_true] using (Fin.find?_eq_some_iff.mp h).1

end Lanecove
