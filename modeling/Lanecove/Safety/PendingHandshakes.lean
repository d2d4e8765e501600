import Lanecove.Peer.Marks
import Lanecove.Safety.KeyOwnership

set_option autoImplicit false

/-! # Responses that are rejected

A handshake datagram from the address a pending handshake waits for is taken as its response,
and the entry of `pending_hs[]` is made inactive before `handshake_client_recv` looks at the
datagram. If it is rejected there, two things have gone wrong.

* The handshake is lost, although nobody has authenticated anything: a genuine response that
  comes later finds no entry. A rejected datagram leaves no trace exactly if no pending handshake
  waits for its source address (`rejected_leaves_no_trace_iff`).
* The ephemeral key is left in the entry, for `handshake_client_recv` frees it on success only
  and the other ways in which a handshake ends are not taken. Inactive entries hold no key as long
  as every response is accepted (`retired_entries_hold_no_key`).
-/

namespace Lanecove

variable {S : Suite}

/-! ## What a rejected datagram changes -/

/-- A datagram of handshake size and magic that fails authentication: as the response to the
pending handshake that waits for its source address, if there is one, and as an initiation. -/
structure Rejected (ctx : LoopCtx S) (n : Node S) (d : Datagram S) : Prop where
  shape : isHandshake ctx d.pkt = true
  asResponse : ∀ j, pendingFrom n d.src = some j →
    (handshakeClientRecv d.pkt ctx.pskKey ctx.staticKey ctx.staticPub
      (n.config (n.pendingHs j).cfgIdx).pub (n.pendingHs j).hsState).1 = none
  asInitiation : (handshakeServerRespond d.pkt ctx.pskKey ctx.staticKey ctx.staticPub
    n.precompEphKey d.sendOk).done = none

/-- The datagram leaves no trace in the state, so everything that comes later, a genuine response
for one, does what it would have done without it. -/
structure LeavesNoTrace (ctx : LoopCtx S) (n : Node S) (d : Datagram S) : Prop where
  pending : ((node ctx).step n (.udp d)).1.pendingHs = n.pendingHs
  sessions : ((node ctx).step n (.udp d)).1.table = n.table
  precomp : ((node ctx).step n (.udp d)).1.precompEphKey = n.precompEphKey
  later : ∀ is inp, (node ctx).step ((node ctx).run (((node ctx).step n (.udp d)).1, []) is).1 inp
    = (node ctx).step ((node ctx).run (n, []) is).1 inp

/-- An initiation that is rejected changes nothing. -/
theorem inboundHandshake_rejected {ctx : LoopCtx S} {n : Node S} {d : Datagram S}
    (h : (handshakeServerRespond d.pkt ctx.pskKey ctx.staticKey ctx.staticPub n.precompEphKey
      d.sendOk).done = none) : (inboundHandshake ctx n d).1 = n := by
  unfold inboundHandshake
  split
  · rfl
  · dsimp only
    rw [h]

/-- A response that is rejected uses up the entry and leaves its key there. -/
theorem outboundResponse_rejected {ctx : LoopCtx S} {n : Node S} {j : Fin MAX_PEERS}
    {d : Datagram S}
    (h : (handshakeClientRecv d.pkt ctx.pskKey ctx.staticKey ctx.staticPub
      (n.config (n.pendingHs j).cfgIdx).pub (n.pendingHs j).hsState).1 = none) :
    (outboundResponse ctx n j d).1.pendingHs
      = Function.update n.pendingHs j { n.pendingHs j with active := false } := by
  have hi : clientKeyInput d.pkt ctx.pskKey ctx.staticKey ctx.staticPub
      (n.config (n.pendingHs j).cfgIdx).pub (n.pendingHs j).hsState = none := by
    unfold handshakeClientRecv at h
    split at h
    · assumption
    · cases h
  simp only [outboundResponse, handshakeClientRecv, hi, Node.setPending_pendingHs]

/-- **Rejected handshake datagrams.** In every state, a datagram that fails authentication, with
or without a PSK and whatever check it fails, leaves no trace if and only if no pending handshake
waits for its source address. -/
theorem rejected_leaves_no_trace_iff (ctx : LoopCtx S) (n : Node S) (d : Datagram S)
    (hrej : Rejected ctx n d) : LeavesNoTrace ctx n d ↔ pendingFrom n d.src = none := by
  have hstep : (node ctx).step n (.udp d) = handshakePkt ctx n d :=
    udpPacket_of_handshake hrej.shape n
  constructor
  · intro h
    cases hp : pendingFrom n d.src with
    | none => rfl
    | some j =>
        -- the entry was active and is not any more
        have hpending := h.pending
        rw [hstep, handshakePkt_of_pendingFrom_some ctx n hp,
          outboundResponse_rejected (hrej.asResponse j hp)] at hpending
        have hj := congrArg PendingHs.active (congrFun hpending j)
        rw [Function.update_self, (pendingFrom_eq_some hp).1] at hj
        cases hj
  · intro hp
    have hsame : ((node ctx).step n (.udp d)).1 = n := by
      rw [hstep, handshakePkt_of_pendingFrom_none ctx n hp]
      exact inboundHandshake_rejected hrej.asInitiation
    refine ⟨?_, ?_, ?_, ?_⟩
    · rw [hsame]
    · rw [hsame]
    · rw [hsame]
    · intro is inp
      rw [hsame]

/-- Node `2` has sent an initiation to node `1` and waits for the response. -/
def waiting : (node (ctxOf 2)).Config :=
  (node (ctxOf 2)).run (Node.init [endpointOf 1] (some 200), []) [passAt 1000 12]

/-- A well-formed response to that initiation, with the identity of node `9`. -/
def forgedFrom (src : SockAddr) : Datagram symbolic :=
  ⟨src, responseOf 9 12 66, 1001, 1001, some 201, true, none⟩

/-- The response of node `1`. -/
def genuineResponse : Input symbolic := arrival (addrOf 1) (responseOf 1 12 100) 1002 201

/-- It is rejected, wherever it comes from. -/
theorem forgedFrom_rejected (src : SockAddr) : Rejected (ctxOf 2) waiting.1 (forgedFrom src) := by
  have hshape : isHandshake (ctxOf 2) (responseOf 9 12 66) = true := by decide +kernel
  have hresp : ∀ j, (handshakeClientRecv (S := symbolic) (responseOf 9 12 66) (ctxOf 2).pskKey
      (ctxOf 2).staticKey (ctxOf 2).staticPub (waiting.1.config (waiting.1.pendingHs j).cfgIdx).pub
      (waiting.1.pendingHs j).hsState).1 = none := by decide +kernel
  have hinit : (handshakeServerRespond (S := symbolic) (responseOf 9 12 66) (ctxOf 2).pskKey
      (ctxOf 2).staticKey (ctxOf 2).staticPub waiting.1.precompEphKey true).done = none := by
    decide +kernel
  exact ⟨hshape, fun j _ => hresp j, hinit⟩

/-- From an address nobody waits for it does no harm, and the handshake is completed. -/
theorem rejected_leaves_no_trace_stranger :
    LeavesNoTrace (ctxOf 2) waiting.1 (forgedFrom (addrOf 7)) ∧
    completed ((node (ctxOf 2)).step
        ((node (ctxOf 2)).step waiting.1 (.udp (forgedFrom (addrOf 7)))).1 genuineResponse).2
      = [(Msg.pub 1, keyOf 2 1 12 100)] :=
  ⟨(rejected_leaves_no_trace_iff (ctxOf 2) waiting.1 _ (forgedFrom_rejected (addrOf 7))).mpr
    (by decide +kernel), by decide +kernel⟩

/-- From the address of node `1` it ends the handshake: the genuine response, one second later,
is in vain. -/
theorem forged_response_ends_handshake :
    Rejected (ctxOf 2) waiting.1 (forgedFrom (addrOf 1)) ∧
    ¬ LeavesNoTrace (ctxOf 2) waiting.1 (forgedFrom (addrOf 1)) ∧
    completed ((node (ctxOf 2)).step waiting.1 genuineResponse).2
      = [(Msg.pub 1, keyOf 2 1 12 100)] ∧
    completed ((node (ctxOf 2)).step
        ((node (ctxOf 2)).step waiting.1 (.udp (forgedFrom (addrOf 1)))).1 genuineResponse).2
      = [] := by
  refine ⟨forgedFrom_rejected _, ?_, by decide +kernel, by decide +kernel⟩
  intro h
  have hactive := congrArg (fun p => (p ⟨0, by decide⟩ : PendingHs symbolic).active) h.pending
  exact absurd hactive (by decide +kernel)

/-! ## Keys of retired entries -/

/-- A datagram that is taken as a response is accepted. -/
def ResponseAccepted (ctx : LoopCtx S) (n : Node S) : Input S → Prop
  | .udp d => isHandshake ctx d.pkt = true → ∀ j, pendingFrom n d.src = some j →
      (handshakeClientRecv d.pkt ctx.pskKey ctx.staticKey ctx.staticPub
        (n.config (n.pendingHs j).cfgIdx).pub (n.pendingHs j).hsState).1.isSome = true
  | _ => True

instance (ctx : LoopCtx S) (n : Node S) : (inp : Input S) → Decidable (ResponseAccepted ctx n inp)
  | .udp d => inferInstanceAs (Decidable (isHandshake ctx d.pkt = true → ∀ _, _ = _ → _ = true))
  | .tun .. => instDecidableTrue
  | .housekeeping _ => instDecidableTrue

/-- The state in which a pass comes to configuration `k`. -/
def connecting (ctx : LoopCtx S) (pass : PassInput S) (n : Node S) (k : Nat) : Node S :=
  ((Machine.mk (connectPeer ctx pass)).run ({ n with lastCheck := pass.now }, [])
    (List.range k)).1

theorem inboundHandshake_pendingHs (ctx : LoopCtx S) (n : Node S) (d : Datagram S) :
    (inboundHandshake ctx n d).1.pendingHs = n.pendingHs := by
  rcases inboundHandshake_node ctx n d with heq | heq | ⟨pub, key, cfg, heq⟩
  · rw [heq]
  · rw [heq, refreshPrecompEph_pendingHs]
  · obtain ⟨tb, htb⟩ := installSession_node ctx (refreshPrecompEph n d.fresh) d pub key cfg false
    rw [heq, htb]
    exact refreshPrecompEph_pendingHs n d.fresh

/-- Every entry that is active holds an ephemeral key, and no other does. -/
def KeysHeld (n : Node S) : Prop :=
  ∀ j, (n.pendingHs j).hsState.ephKey.isSome = (n.pendingHs j).active

namespace KeysHeld

variable {n n' : Node S}

theorem congr (h : KeysHeld n) (hpending : n'.pendingHs = n.pendingHs) : KeysHeld n' := by
  intro j
  rw [hpending]
  exact h j

/-- An entry is written, with a key exactly if it is active. -/
theorem update (h : KeysHeld n) {j : Fin MAX_PEERS} {p : PendingHs S}
    (hpending : n'.pendingHs = Function.update n.pendingHs j p)
    (hp : p.hsState.ephKey.isSome = p.active) : KeysHeld n' := by
  intro k
  rw [hpending]
  by_cases hk : k = j
  · rw [hk, Function.update_self]
    exact hp
  · rw [Function.update_of_ne hk]
    exact h k

theorem of_inactive (h : KeysHeld n) {j : Fin MAX_PEERS} (hj : (n.pendingHs j).active = false) :
    (n.pendingHs j).hsState.ephKey = none := by
  rw [← Option.not_isSome_iff_eq_none, h j, hj]
  exact Bool.false_ne_true

/-- A free entry holds no key. -/
theorem findFreePending (h : KeysHeld n) {j : Fin MAX_PEERS} (hj : findFreePending n = some j) :
    (n.pendingHs j).hsState.ephKey = none := by
  refine h.of_inactive ?_
  simpa using (Fin.find?_eq_some_iff.mp hj).1

theorem connectPeer (h : KeysHeld n) (ctx : LoopCtx S) (pass : PassInput S) (idx : Nat) :
    KeysHeld (connectPeer ctx pass n idx).1 := by
  cases connectPeer_outcome ctx pass n idx with
  | skip heq =>
      rw [heq]
      exact h
  | fail _ _ _ pending => exact h.congr pending
  | start _ _ _ j p hp _ pending => exact h.update pending (by rw [hp.key, hp.active])

theorem expirePending (h : KeysHeld n) (ctx : LoopCtx S) (now : Int) (j : Fin MAX_PEERS) :
    KeysHeld (expirePending ctx now n j).1 := by
  simp only [Lanecove.expirePending]
  split
  · exact h.update (Node.setPending_pendingHs ..) rfl
  · exact h

/-- The loop over `peer_configs[]`, up to any configuration. -/
theorem connecting (h : KeysHeld n) (ctx : LoopCtx S) (pass : PassInput S) (k : Nat) :
    KeysHeld (connecting ctx pass n k) :=
  (Machine.mk (Lanecove.connectPeer ctx pass)).invariant_all (I := fun c => KeysHeld c.1)
    (fun _ idx hc => hc.connectPeer ctx pass idx) (List.range k) _ (h.congr rfl)

theorem housekeeping (h : KeysHeld n) (ctx : LoopCtx S) (pass : PassInput S) :
    KeysHeld (housekeeping ctx n pass).1 :=
  -- the loops over the sessions do not touch the entries
  housekeeping_invariant (fun _ h => h.congr rfl) (fun _ idx h => h.connectPeer ctx pass idx)
    (fun _ j h => h.expirePending ctx pass.now j)
    (fun m i h => h.congr (expireSession_sameMarks ctx pass.now m i).pending)
    (fun m i h => h.congr (keepalive_sameMarks ctx pass m i).pending) h

/-- **One step**, if a response is not rejected. -/
theorem step (h : KeysHeld n) (ctx : LoopCtx S) (inp : Input S)
    (hacc : ResponseAccepted ctx n inp) : KeysHeld ((node ctx).step n inp).1 := by
  cases inp with
  | tun packet iv ok now => exact h.congr (tunPacket_sameMarks n packet iv ok now).pending
  | housekeeping pass => exact h.housekeeping ctx pass
  | udp d =>
      cases hd : isHandshake ctx d.pkt with
      | false =>
          show KeysHeld (udpPacket ctx n d).1
          rw [udpPacket_of_data hd]
          exact h.congr (dataPacket_sameMarks ..).pending
      | true =>
          show KeysHeld (udpPacket ctx n d).1
          rw [udpPacket_of_handshake hd]
          cases hp : pendingFrom n d.src with
          | none =>
              rw [handshakePkt_of_pendingFrom_none ctx n hp]
              exact h.congr (inboundHandshake_pendingHs ..)
          | some j =>
              have hsome := hacc hd j hp
              rw [handshakePkt_of_pendingFrom_some ctx n hp]
              simp only [outboundResponse, handshakeClientRecv] at hsome ⊢
              cases hi : clientKeyInput d.pkt ctx.pskKey ctx.staticKey ctx.staticPub
                  (n.config (n.pendingHs j).cfgIdx).pub (n.pendingHs j).hsState with
              | none =>
                  rw [hi] at hsome
                  cases hsome
              | some input =>
                  obtain ⟨tb, htb⟩ := installSession_node ctx (n.setPending j { n.pendingHs j with
                    active := false,
                    hsState := { (n.pendingHs j).hsState with ephKey := none } }) d _ _ _ true
                  exact h.update (by rw [htb]; rfl) rfl

end KeysHeld

/-- The keys of pending handshakes are released. An entry that is not active holds no key; an
entry that a step makes inactive held one before and holds none after; and no entry that
`handshake_client_send` writes to holds one, at any point of a pass. -/
structure KeysReleased (ctx : LoopCtx S) (n : Node S) : Prop where
  retired : ∀ j, (n.pendingHs j).active = false → (n.pendingHs j).hsState.ephKey = none
  released : ∀ inp, ResponseAccepted ctx n inp → ∀ j, (n.pendingHs j).active = true →
    (((node ctx).step n inp).1.pendingHs j).active = false →
    (n.pendingHs j).hsState.ephKey.isSome ∧
      (((node ctx).step n inp).1.pendingHs j).hsState.ephKey = none
  notOverwritten : ∀ pass k j, findFreePending (connecting ctx pass n k) = some j →
    ((connecting ctx pass n k).pendingHs j).hsState.ephKey = none

theorem KeysHeld.keysReleased {n : Node S} (h : KeysHeld n) (ctx : LoopCtx S) :
    KeysReleased ctx n where
  retired j hj := h.of_inactive hj
  released inp hacc j hj hj' :=
    ⟨by rw [h j, hj], (h.step ctx inp hacc).of_inactive hj'⟩
  notOverwritten pass k j hj := (h.connecting ctx pass k).findFreePending hj

/-- **Retired entries hold no key.** In every run in which every datagram that is taken as the
response to a pending handshake is accepted, the keys of pending handshakes are released. -/
theorem retired_entries_hold_no_key (ctx : LoopCtx S) (cfgs : List (PeerConfig S))
    (fresh : Option S.Priv) (is : List (Input S))
    (hrun : (node ctx).Along (fun c => ResponseAccepted ctx c.1) (Node.init cfgs fresh, []) is) :
    KeysReleased ctx ((node ctx).run (Node.init cfgs fresh, []) is).1 := by
  refine KeysHeld.keysReleased ?_ ctx
  exact (node ctx).invariant (I := fun c => KeysHeld c.1)
    (fun c inp hc hacc => hc.step ctx inp hacc) is _ (fun _ => rfl) hrun

/-- The handshake of node `2` is completed, and the next one is under way. -/
def renewedRun : List (Input symbolic) := [passAt 1000 12, genuineResponse, passAt 1200 13]

theorem retired_entries_renewedRun :
    (node (ctxOf 2)).Along (fun c => ResponseAccepted (ctxOf 2) c.1)
      (Node.init [endpointOf 1] (some 200), []) renewedRun ∧
    KeysReleased (ctxOf 2)
      ((node (ctxOf 2)).run (Node.init [endpointOf 1] (some 200), []) renewedRun).1 := by
  have hrun : (node (ctxOf 2)).Along (fun c => ResponseAccepted (ctxOf 2) c.1)
      (Node.init [endpointOf 1] (some 200), []) renewedRun := by decide +kernel
  exact ⟨hrun, retired_entries_hold_no_key (ctxOf 2) _ _ renewedRun hrun⟩

/-- The forged response leaves the key `12` in an entry that is not active. The next pass writes
the key `13` over it. -/
theorem rejected_response_leaves_key :
    let n := ((node (ctxOf 2)).step waiting.1 (.udp (forgedFrom (addrOf 1)))).1
    let n' := ((node (ctxOf 2)).step n (passAt 1031 13)).1
    let slot : Fin MAX_PEERS := ⟨0, by decide⟩
    (n.pendingHs slot).active = false ∧
    (n.pendingHs slot).hsState.ephKey = some (12 : Nat) ∧
    ¬ KeysReleased (ctxOf 2) n ∧
    findFreePending n = some slot ∧
    (n'.pendingHs slot).hsState.ephKey = some (13 : Nat) := by
  intro n n' slot
  have hoff : (n.pendingHs slot).active = false := by decide +kernel
  have hkey : (n.pendingHs slot).hsState.ephKey = some (12 : Nat) := by decide +kernel
  refine ⟨hoff, hkey, ?_, by decide +kernel, by decide +kernel⟩
  intro h
  cases (h.retired slot hoff).symm.trans hkey

end Lanecove
