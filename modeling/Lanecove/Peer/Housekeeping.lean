import Lanecove.Peer.Worker

set_option autoImplicit false

/-! # The housekeeping thread

One pass of `housekeeping_loop` in `src/peer.c`: outbound connects and rekeys, pending
handshakes that timed out, silent sessions, keepalives. Each loop is a run of the machine
whose step is the loop body, so the invariant rule for runs serves for the loops too.
-/

namespace Lanecove

variable {S : Suite}

/-- What the environment decides about one pass: the time read at its start and, for each
peer configuration, what `getaddrinfo` returns for a host and port, the two times
`initiate_outbound_handshake` reads, first for `last_attempt` and, when the initiation is sent,
for `sent_at`, the ephemeral key generated and whether `sendto` succeeds; for each session the
IV of a keepalive, whether it is sent, and when. -/
structure PassInput (S : Suite) where
  now : Int
  getaddrinfo : Nat → List Char → Int → Option SockAddr
  clock : Nat → Int
  initSentAt : Nat → Int
  fresh : Nat → Option S.Priv
  initOk : Nat → Bool
  iv : Fin MAX_PEERS → Option S.Iv
  sendOk : Fin MAX_PEERS → Bool
  sentAt : Fin MAX_PEERS → Int

/-- `resolve_endpoint`. The endpoint stays as it is if the resolution fails. -/
def resolveEndpoint (lookup : List Char → Int → Option SockAddr) (cfg : PeerConfig S) :
    PeerConfig S :=
  match lookup cfg.endpointHost cfg.endpointPort with
  | none => cfg
  | some a => { cfg with endpoint := a }

/-- The first slot of `pending_hs[]` that is not active. -/
def findFreePending (n : Node S) : Option (Fin MAX_PEERS) :=
  Fin.find? fun j => !(n.pendingHs j).active

/-- `initiate_outbound_handshake`; the Boolean says that it returned `0`. -/
def initiateOutboundHandshake (ctx : LoopCtx S) (n : Node S) (idx : Nat)
    (clock sentAt : Int) (fresh : Option S.Priv) (sendOk : Bool) : Node S × Bool × List (Event S) :=
  let cfg := n.config idx
  -- a failed attempt counts for the reconnect interval as well
  let n' := n.setConfig idx { cfg with lastAttempt := clock }
  match findFreePending n with
  | none => (n', false, [])
  | some j =>
      match handshakeClientSend ctx.pskKey ctx.staticPub cfg.pub fresh sendOk with
      | none => (n', false, [])
      | some (pkt, st) =>
          (n'.setPending j ⟨true, idx, sentAt, st, cfg.endpoint⟩, true,
            [.initSent cfg.endpoint pkt])

/-- `if (s) s->rekeying = b`. -/
def setRekeying (n : Node S) (b : Bool) : Option (Fin MAX_PEERS) → Node S
  | none => n
  | some i => n.setSession i { n.table.sessions i with rekeying := b }

/-- `cfg_rekey_after * 4 / 5` in 32-bit arithmetic (wrapping, rounding towards zero). -/
def rekeyThreshold (ctx : LoopCtx S) : Int := (Int.bmod (ctx.rekeyAfter * 4) (2 ^ 32)).tdiv 5

/-- `needs`: there is no session, or it is old enough and not rekeying already. -/
def needsHandshake (ctx : LoopCtx S) (n : Node S) (now : Int) : Option (Fin MAX_PEERS) → Bool
  | none => true
  | some i =>
      decide ((n.table.sessions i).lastHandshake + rekeyThreshold ctx ≤ now) &&
        !(n.table.sessions i).rekeying

/-- The body of the loop over `peer_configs[]`. -/
def connectPeer (ctx : LoopCtx S) (inp : PassInput S) (n : Node S) (idx : Nat) :
    Node S × List (Event S) :=
  let cfg := n.config idx
  let s := findSessionByPub n.table cfg.pub
  if cfg.hasEndpoint && needsHandshake ctx n inp.now s &&
      decide (ctx.reconnectInterval ≤ inp.now - cfg.lastAttempt) then
    let n₁ := n.setConfig idx (resolveEndpoint (inp.getaddrinfo idx) cfg)
    match initiateOutboundHandshake ctx (setRekeying n₁ true s) idx (inp.clock idx)
      (inp.initSentAt idx) (inp.fresh idx) (inp.initOk idx) with
    | (n₂, true, ev) => (n₂, ev)
    -- no handshake was started, so the mark is taken back
    | (n₂, false, ev) => (setRekeying n₂ false s, ev)
  else (n, [])

/-- The body of the loop over `pending_hs[]`: a handshake that waited for too long. -/
def expirePending (ctx : LoopCtx S) (now : Int) (n : Node S) (j : Fin MAX_PEERS) :
    Node S × List (Event S) :=
  let p := n.pendingHs j
  if p.active && decide (ctx.handshakeTimeout ≤ now - p.sentAt) then
    ({ n.setPending j { p with active := false, hsState := { p.hsState with ephKey := none } }
        with table := clearRekeying n.table (n.config p.cfgIdx).pub }, [])
  else (n, [])

/-- The last sign of life of a session: a datagram, or else its handshake. -/
def Session.lastAlive (s : Session S) : Int :=
  if 0 < s.lastSeen then s.lastSeen else s.lastHandshake

/-- The body of the first loop over `sessions[]`: a session that was silent for too long. -/
def expireSession (ctx : LoopCtx S) (now : Int) (n : Node S) (i : Fin MAX_PEERS) :
    Node S × List (Event S) :=
  let s := n.table.sessions i
  if decide (i.val < n.table.slots) && s.active &&
      decide (ctx.sessionExpiry < now - s.lastAlive) then
    (n.setSession i { s with active := false }, [])
  else (n, [])

/-- The body of the second loop over `sessions[]`: a keepalive, an empty payload. -/
def keepalive (ctx : LoopCtx S) (inp : PassInput S) (n : Node S) (i : Fin MAX_PEERS) :
    Node S × List (Event S) :=
  let s := n.table.sessions i
  if decide (i.val < n.table.slots) && s.active &&
      decide (ctx.keepaliveInterval ≤ inp.now - s.lastSent) then
    let r := forwardToPeer s i [] (inp.iv i) (inp.sendOk i) (inp.sentAt i)
    (n.setSession i r.1, r.2)
  else (n, [])

/-- The four loops of a pass, one after the other, each with its events. -/
def housekeepingPass (ctx : LoopCtx S) (inp : PassInput S) (n : Node S) :
    Node S × List (Event S) :=
  let slots := List.finRange MAX_PEERS
  let c₁ := (Machine.mk (connectPeer ctx inp)).run (n, []) (List.range n.peerConfigs.length)
  let c₂ := (Machine.mk (expirePending ctx inp.now)).run c₁ slots
  let c₃ := (Machine.mk (expireSession ctx inp.now)).run c₂ slots
  (Machine.mk (keepalive ctx inp)).run c₃ slots

/-- One round of `housekeeping_loop`: a pass at most every 10 seconds. -/
def housekeeping (ctx : LoopCtx S) (n : Node S) (inp : PassInput S) : Node S × List (Event S) :=
  if 10 ≤ inp.now - n.lastCheck then
    housekeepingPass ctx inp { n with lastCheck := inp.now }
  else (n, [])

/-- **The invariant rule of a round**: what the bodies of the four loops keep, the round keeps. -/
theorem housekeeping_invariant {ctx : LoopCtx S} {inp : PassInput S} {I : Node S → Prop}
    (hcheck : ∀ m, I m → I { m with lastCheck := inp.now })
    (hconnect : ∀ m idx, I m → I (connectPeer ctx inp m idx).1)
    (hpending : ∀ m j, I m → I (expirePending ctx inp.now m j).1)
    (hsession : ∀ m i, I m → I (expireSession ctx inp.now m i).1)
    (hkeepalive : ∀ m i, I m → I (keepalive ctx inp m i).1) {n : Node S} (h : I n) :
    I (housekeeping ctx n inp).1 := by
  unfold housekeeping
  split
  · simp only [housekeepingPass]
    have h₁ := (Machine.mk (connectPeer ctx inp)).invariant_all (I := fun c => I c.1)
      (fun c => hconnect c.1) (List.range n.peerConfigs.length)
      ({ n with lastCheck := inp.now }, []) (hcheck n h)
    have h₂ := (Machine.mk (expirePending ctx inp.now)).invariant_all (I := fun c => I c.1)
      (fun c => hpending c.1) (List.finRange MAX_PEERS) _ h₁
    have h₃ := (Machine.mk (expireSession ctx inp.now)).invariant_all (I := fun c => I c.1)
      (fun c => hsession c.1) (List.finRange MAX_PEERS) _ h₂
    exact (Machine.mk (keepalive ctx inp)).invariant_all (I := fun c => I c.1)
      (fun c => hkeepalive c.1) (List.finRange MAX_PEERS) _ h₃
  · exact h

/-! ## A node -/

/-- An input of a node: a datagram, a packet from the TUN device, or a round of the
housekeeping thread. -/
inductive Input (S : Suite) where
  | udp (d : Datagram S)
  | tun (packet : List UInt8) (iv : Option S.Iv) (sendOk : Bool) (now : Int)
  | housekeeping (inp : PassInput S)

/-- The input takes place between the times `t` and `t'`, on a clock that does not go back: what
a thread reads while it holds the lock is not before `t`, and what it reads later is not smaller.
The time at which a datagram was received and the time at which a pass starts are read before the
thread has the lock, so other steps may have come in between. -/
def Input.During (t : Int) : Input S → Int → Prop
  | .udp d, t' => d.now ≤ d.clock ∧ t ≤ d.clock ∧ d.clock ≤ t'
  | .tun _ _ _ now, t' => t ≤ now ∧ now ≤ t'
  | .housekeeping inp, t' =>
      t ≤ t' ∧ inp.now ≤ t' ∧
      (∀ idx, inp.now ≤ inp.clock idx ∧ t ≤ inp.clock idx ∧
        inp.clock idx ≤ inp.initSentAt idx ∧ inp.initSentAt idx ≤ t') ∧
      ∀ i, t ≤ inp.sentAt i ∧ inp.sentAt i ≤ t'

theorem Input.During.le {t t' : Int} {inp : Input S} (h : inp.During t t') : t ≤ t' := by
  cases inp with
  | udp d => exact h.2.1.trans h.2.2
  | tun _ _ _ now => exact Int.le_trans h.1 h.2
  | housekeeping pass => exact h.1

/-- A node: every branch of its threads is one step, in any interleaving. -/
def node (ctx : LoopCtx S) : Machine (Node S) (Input S) (Event S) where
  step n
    | .udp d => udpPacket ctx n d
    | .tun packet iv sendOk now => tunPacket n packet iv sendOk now
    | .housekeeping inp => housekeeping ctx n inp

end Lanecove
