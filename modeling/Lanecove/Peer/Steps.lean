import Lanecove.Peer.Effects

set_option autoImplicit false

/-! # What a step can do

A step of a node is quiet, or accepts one data packet, or runs a handshake that may install
one session. `step_cases` says so once; every safety result is a case analysis on it.
-/

namespace Lanecove

variable {S : Suite}

/-! ## The cases -/

/-- What a step of a node can do. -/
inductive StepCase (ctx : LoopCtx S) (n : Node S) : Input S → List (Event S) → Node S → Prop
  /-- TUN packets, housekeeping, dropped datagrams. -/
  | quiet {inp : Input S} {ev : List (Event S)} {n' : Node S} (h : Quiet ctx inp 1 n ev n') :
      StepCase ctx n inp ev n'
  /-- A data packet passed all checks; it may be delivered and a copy relayed. -/
  | accept {d : Datagram S} {r : Receipt S} {s : Session S} {dl ev : List (Event S)}
      {n' : Node S} (hd : isHandshake ctx d.pkt = false)
      (hf : findSessionByAddr n.table d.src = some r.slot)
      (hr : receive (n.table.sessions r.slot) r.slot d.pkt d.now = (s, some r))
      (hdl : dl = [] ∨ ∃ f, dl = [.delivered r f])
      (h : Quiet ctx (.udp d) 1 (n.setSession r.slot s) ev n') :
      StepCase ctx n (.udp d) (.accepted r :: (dl ++ ev)) n'
  /-- An initiation was answered, but the handshake failed after the answer. -/
  | answer {d : Datagram S} {resp : S.Wire} (hd : isHandshake ctx d.pkt = true)
      (hp : pendingFrom n d.src = none)
      (hc : inCooldown ctx n.table d.now (findSessionByAddr n.table d.src) = false)
      (hr : handshakeServerRespond d.pkt ctx.pskKey ctx.staticKey ctx.staticPub
        n.precompEphKey d.sendOk = ⟨some resp, none⟩) :
      StepCase ctx n (.udp d) [.respSent d.src resp] n
  /-- A response completed a pending handshake. -/
  | initiator {d : Datagram S} {j : Fin MAX_PEERS} {input : KeyInput S}
      (hd : isHandshake ctx d.pkt = true) (hp : pendingFrom n d.src = some j)
      (hi : clientKeyInput d.pkt ctx.pskKey ctx.staticKey ctx.staticPub
        (n.config (n.pendingHs j).cfgIdx).pub (n.pendingHs j).hsState = some input) :
      StepCase ctx n (.udp d)
        (.hsDone (n.config (n.pendingHs j).cfgIdx).pub (deriveSessionKey input) ::
          (installSession ctx (n.setPending j { n.pendingHs j with
              active := false, hsState := { (n.pendingHs j).hsState with ephKey := none } }) d
            (n.config (n.pendingHs j).cfgIdx).pub (deriveSessionKey input)
            (n.config (n.pendingHs j).cfgIdx) true).2)
        (installSession ctx (n.setPending j { n.pendingHs j with
            active := false, hsState := { (n.pendingHs j).hsState with ephKey := none } }) d
          (n.config (n.pendingHs j).cfgIdx).pub (deriveSessionKey input)
          (n.config (n.pendingHs j).cfgIdx) true).1
  /-- An initiation was answered and the responder derived a key. -/
  | responder {d : Datagram S} {resp : S.Wire} {pub key : S.Block}
      (hd : isHandshake ctx d.pkt = true) (hp : pendingFrom n d.src = none)
      (hc : inCooldown ctx n.table d.now (findSessionByAddr n.table d.src) = false)
      (hr : handshakeServerRespond d.pkt ctx.pskKey ctx.staticKey ctx.staticPub
        n.precompEphKey d.sendOk = ⟨some resp, some (pub, key)⟩) :
      StepCase ctx n (.udp d)
        (.respSent d.src resp :: .hsDone pub key ::
          (acceptInitiation ctx (refreshPrecompEph n d.fresh) d pub key).2)
        (acceptInitiation ctx (refreshPrecompEph n d.fresh) d pub key).1

theorem dataPacket_cases (ctx : LoopCtx S) (n : Node S) {d : Datagram S}
    (hd : isHandshake ctx d.pkt = false) :
    StepCase ctx n (.udp d) (dataPacket n d.src d.pkt d.now d.clock d.iv d.sendOk).2
      (dataPacket n d.src d.pkt d.now d.clock d.iv d.sendOk).1 := by
  unfold dataPacket
  split
  · exact .quiet (Quiet.refl ..).of_zero
  · rename_i i hi
    split
    · rename_i s hs
      obtain ⟨hk, hwin, hseq, hret⟩ := receive_eq_none hs
      have h : Quiet ctx (.udp d) (Pi.single i 0) n [] (n.setSession i s) := by
        refine Quiet.setSession hk hwin ?_ (by simpa using hseq) (fun e he => by cases he)
        intro h h'
        obtain ⟨plain, hp⟩ := hret h h'
        exact ⟨d.pkt, plain, rfl, hp⟩
      exact .quiet (h.mono fun j => by simp)
    · rename_i s r hs
      obtain rfl : r.slot = i := (receive_eq_some hs).1
      obtain ⟨dl, ev, hev, hdl, hq⟩ :=
        deliver_quiet ctx (.udp d) (n.setSession r.slot s) r d.iv d.sendOk d.clock
      dsimp only
      rw [hev]
      exact .accept hd hi hs hdl hq

theorem inboundHandshake_cases (ctx : LoopCtx S) (n : Node S) {d : Datagram S}
    (hd : isHandshake ctx d.pkt = true) (hp : pendingFrom n d.src = none) :
    StepCase ctx n (.udp d) (inboundHandshake ctx n d).2 (inboundHandshake ctx n d).1 := by
  unfold inboundHandshake
  split
  · exact .quiet (Quiet.refl ..).of_zero
  · rename_i hc
    have hc' := Bool.eq_false_iff.mpr hc
    dsimp only
    -- the responder sent nothing, or it answered, or it also derived a key
    rcases hr : handshakeServerRespond d.pkt ctx.pskKey ctx.staticKey ctx.staticPub
      n.precompEphKey d.sendOk with ⟨_ | resp, _ | ⟨pub, key⟩⟩
    · exact .quiet (Quiet.refl ..).of_zero
    · have hdone := congrArg Response.done hr
      obtain ⟨resp, hsent⟩ := handshakeServerRespond_done hdone
      rw [hr] at hsent
      cases hsent
    · exact .answer hd hp hc' hr
    · exact .responder hd hp hc' hr

theorem outboundResponse_cases (ctx : LoopCtx S) (n : Node S) {d : Datagram S}
    {j : Fin MAX_PEERS} (hd : isHandshake ctx d.pkt = true) (hp : pendingFrom n d.src = some j) :
    StepCase ctx n (.udp d) (outboundResponse ctx n j d).2 (outboundResponse ctx n j d).1 := by
  simp only [outboundResponse, handshakeClientRecv]
  cases hi : clientKeyInput d.pkt ctx.pskKey ctx.staticKey ctx.staticPub
      (n.config (n.pendingHs j).cfgIdx).pub (n.pendingHs j).hsState with
  | none => exact .quiet (dropPending_quiet ctx rfl _).of_zero
  | some input => exact .initiator hd hp hi

/-- **What a step of a node can do.** -/
theorem step_cases (ctx : LoopCtx S) (n : Node S) (inp : Input S) :
    StepCase ctx n inp ((node ctx).step n inp).2 ((node ctx).step n inp).1 := by
  cases inp with
  | tun packet iv ok now => exact .quiet (tunPacket_quiet ctx n packet iv ok now)
  | housekeeping pass => exact .quiet (housekeeping_quiet ctx n pass)
  | udp d =>
      show StepCase ctx n (.udp d) (udpPacket ctx n d).2 (udpPacket ctx n d).1
      unfold udpPacket
      split
      · rename_i hd
        unfold handshakePkt
        split
        · rename_i j hp
          exact outboundResponse_cases ctx n hd hp
        · rename_i hp
          rw [tieBreak_of_pendingFrom_none ctx n hp]
          exact inboundHandshake_cases ctx n hd hp
      · rename_i hd
        exact dataPacket_cases ctx n (Bool.eq_false_iff.mpr hd)

/-- A step without a handshake, as seen from outside: it may accept a packet under the current
key of a session, and is quiet otherwise. -/
structure Works (ctx : LoopCtx S) (inp : Input S) (n : Node S) (ev : List (Event S))
    (n' : Node S) : Prop where
  slots : n'.table.slots = n.table.slots
  keeps : ∀ i, Keeps (n.table.sessions i) (n'.table.sessions i)
  recvSeq : ∀ i, (n'.table.sessions i).recvSeq = (n.table.sessions i).recvSeq ∨
    ∃ pkt plain seq payload, inp.carries pkt ∧
      S.decryptPacket (n.table.sessions i).sessionKey pkt = some plain ∧
      unframe plain = some (seq, payload) ∧
      checkReplay seq (n.table.sessions i).recvSeq = some (n'.table.sessions i).recvSeq
  retires : ∀ i, (n.table.sessions i).prevKeyActive = true →
    (n'.table.sessions i).prevKeyActive = false →
    ∃ pkt plain, inp.carries pkt ∧
      S.decryptPacket (n.table.sessions i).sessionKey pkt = some plain
  sends : ∀ i, ∃ k ≤ 1,
    (n'.table.sessions i).sendSeq = (n.table.sessions i).sendSeq + BitVec.ofNat 64 k ∧
    ∀ d, .dataSent d ∈ ev → d.slot = i →
      ∃ m < k, d.seq = (n.table.sessions i).sendSeq + BitVec.ofNat 64 m
  emits : ∀ e ∈ ev, (∃ r, e = .accepted r) ∨ (∃ r f, e = .delivered r f) ∨ Emits ctx inp n e
  configs : n'.peerConfigs.map PeerConfig.fixed = n.peerConfigs.map PeerConfig.fixed
  pending : ∀ j, (n'.pendingHs j).active = true →
    n'.pendingHs j = n.pendingHs j ∨ NewPending inp n (n'.pendingHs j)
  precomp : n'.precompEphKey = n.precompEphKey

theorem Quiet.works {ctx : LoopCtx S} {inp : Input S} {n n' : Node S} {ev : List (Event S)}
    (h : Quiet ctx inp 1 n ev n') : Works ctx inp n ev n' where
  slots := h.slots
  keeps := h.keeps
  recvSeq i := .inl (h.recvSeq i)
  retires := h.retires
  sends := h.sends
  emits e he := .inr (.inr (h.emits e he))
  configs := h.configs
  pending := h.pending
  precomp := h.precomp

/-- An accepted packet, followed by what happens to it. -/
theorem works_of_accept {ctx : LoopCtx S} {n n' : Node S} {d : Datagram S} {r : Receipt S}
    {s : Session S} {dl ev : List (Event S)}
    (hr : receive (n.table.sessions r.slot) r.slot d.pkt d.now = (s, some r))
    (hdl : dl = [] ∨ ∃ f, dl = [.delivered r f])
    (h : Quiet ctx (.udp d) 1 (n.setSession r.slot s) ev n') :
    Works ctx (.udp d) n (.accepted r :: (dl ++ ev)) n' := by
  obtain ⟨hsend, hwin, hret⟩ := receive_advances hr
  have hkeep := setSession_keeps (n := n) (receive_keeps hr)
  -- only sent packets are left when the accepted and the delivered one are taken away
  have hdata : ∀ d', .dataSent d' ∈ .accepted r :: (dl ++ ev) → .dataSent d' ∈ ev := by
    intro d' hd'
    rcases hdl with rfl | ⟨f, rfl⟩ <;> simpa using hd'
  have hsend' : ∀ i, ((n.setSession r.slot s).table.sessions i).sendSeq
      = (n.table.sessions i).sendSeq :=
    SessionTable.set_rel (R := fun x y => y.sendSeq = x.sendSeq) hsend fun _ => rfl
  have hret' : ∀ i, (n.table.sessions i).prevKeyActive = true →
      ((n.setSession r.slot s).table.sessions i).prevKeyActive = false →
      ∃ plain, S.decryptPacket (n.table.sessions i).sessionKey d.pkt = some plain :=
    SessionTable.set_rel (R := fun x y => x.prevKeyActive = true → y.prevKeyActive = false →
      ∃ plain, S.decryptPacket x.sessionKey d.pkt = some plain) hret
      fun x h h' => nomatch h.symm.trans h'
  refine ⟨h.slots, fun i => (hkeep i).trans (h.keeps i), ?_, ?_, ?_, ?_, h.configs,
    fun j hj => (h.pending j hj).imp id fun hnew => ⟨hnew.hasEndpoint, hnew.hsState⟩, h.precomp⟩
  · intro i
    rw [h.recvSeq]
    apply SessionTable.set_rel (R := fun x y => y.recvSeq = x.recvSeq ∨
      ∃ pkt plain seq payload, (Input.udp d).carries pkt ∧
        S.decryptPacket x.sessionKey pkt = some plain ∧
        unframe plain = some (seq, payload) ∧ checkReplay seq x.recvSeq = some y.recvSeq)
    · refine hwin.imp_right ?_
      rintro ⟨plain, hplain, hframe, hcheck⟩
      exact ⟨d.pkt, plain, r.seq, r.payload, rfl, hplain, hframe, hcheck⟩
    · exact fun _ => .inl rfl
  · intro i hold hnew
    cases hmid : ((n.setSession r.slot s).table.sessions i).prevKeyActive with
    | true =>
        obtain ⟨pkt, plain, hc, hp⟩ := h.retires i hmid hnew
        exact ⟨pkt, plain, hc, by rw [← (hkeep i).sessionKey, hp]⟩
    | false =>
        -- the accepted packet itself retired the key
        obtain ⟨plain, hplain⟩ := hret' i hold hmid
        exact ⟨d.pkt, plain, rfl, hplain⟩
  · intro i
    obtain ⟨k, hk, hseq, hev⟩ := h.sends i
    rw [hsend' i] at hseq hev
    exact ⟨k, hk, hseq, fun d' hd' hslot => hev d' (hdata d' hd') hslot⟩
  · intro e he
    rcases List.mem_cons.mp he with rfl | he
    · exact .inl ⟨r, rfl⟩
    rcases List.mem_append.mp he with he | he
    · rcases hdl with rfl | ⟨f, rfl⟩
      · cases he
      · exact .inr (.inl ⟨r, f, List.mem_singleton.mp he⟩)
    · have hem := h.emits e he
      refine .inr (.inr ?_)
      cases e with
      | initSent dst pkt => exact hem
      | dataSent d' =>
          have hk := hkeep d'.slot
          exact ⟨hk.active hem.active, hem.pub.trans hk.staticPub, hem.key.trans hk.sessionKey,
            hem.dst.trans hk.addr, hem.pkt⟩
      | _ => exact hem.elim

namespace Works

variable {ctx : LoopCtx S} {inp : Input S} {n n' : Node S} {ev : List (Event S)}

/-- What is sent is as it is in a quiet step. -/
theorem emits_of (hw : Works ctx inp n ev n') {e : Event S} (he : e ∈ ev)
    (hacc : ∀ r, e ≠ .accepted r) (hdel : ∀ r f, e ≠ .delivered r f) : Emits ctx inp n e := by
  rcases hw.emits e he with ⟨r, rfl⟩ | ⟨r, f, rfl⟩ | hem
  · exact absurd rfl (hacc r)
  · exact absurd rfl (hdel r f)
  · exact hem

theorem no_response (hw : Works ctx inp n ev n') (dst : SockAddr) (pkt : S.Wire) :
    .respSent dst pkt ∉ ev := fun h => hw.emits_of h nofun nofun

theorem no_install (hw : Works ctx inp n ev n') (i : Install S) : .installed i ∉ ev :=
  fun h => hw.emits_of h nofun nofun

end Works

/-! ## Installing -/

/-- The session is installed in slot `i` of the table `tb`. -/
def installAt (ctx : LoopCtx S) (n : Node S) (d : Datagram S) (i : Fin MAX_PEERS)
    (tb : SessionTable S) (pub key : S.Block) (cfg : PeerConfig S) (out : Bool) : Node S :=
  { n with
    table := tb.set i
      (sessionInit ctx.toSettings (n.table.sessions i) d.src pub key (some cfg) out d.clock) }

section Install

variable {ctx : LoopCtx S} {n : Node S} {d : Datagram S} {pub key : S.Block}
  {cfg : PeerConfig S} {out : Bool} {i : Fin MAX_PEERS} {tb : SessionTable S}

theorem installSession_of_none (hal : allocSession n.table pub d.src = none) :
    installSession ctx n d pub key cfg out = (n, []) := by
  unfold installSession
  split
  · rfl
  · rename_i hal'
    rw [hal] at hal'
    cases hal'

theorem installSession_of_some (hal : allocSession n.table pub d.src = some (i, tb)) :
    installSession ctx n d pub key cfg out =
      (installAt ctx n d i tb pub key cfg out,
        [.installed ⟨i, pub, key, d.src, d.pkt, out, d.clock⟩]) := by
  unfold installSession
  split
  · rename_i hal'
    rw [hal] at hal'
    cases hal'
  · rename_i i' tb' hal'
    rw [hal] at hal'
    obtain ⟨rfl, rfl⟩ := Prod.mk.inj (Option.some.inj hal')
    rw [(allocSession_sessions hal).1]
    rfl

theorem installAt_sessions_self :
    (installAt ctx n d i tb pub key cfg out).table.sessions i
      = sessionInit ctx.toSettings (n.table.sessions i) d.src pub key (some cfg) out d.clock :=
  SessionTable.set_sessions_self ..

theorem installAt_sessions_ne (hal : allocSession n.table pub d.src = some (i, tb))
    {j : Fin MAX_PEERS} (hj : j ≠ i) :
    (installAt ctx n d i tb pub key cfg out).table.sessions j = n.table.sessions j := by
  rw [← (allocSession_sessions hal).1]
  exact SessionTable.set_sessions_ne _ _ hj

end Install

theorem acceptInitiation_of_checks {ctx : LoopCtx S} {n : Node S} {d : Datagram S}
    {pub : S.Block} {cfg : PeerConfig S} (hcfg : findPeerConfig n.peerConfigs pub = some cfg)
    (hc : inCooldown ctx n.table d.now (findSessionByPub n.table pub) = false) (key : S.Block) :
    acceptInitiation ctx n d pub key = installSession ctx n d pub key cfg false := by
  unfold acceptInitiation
  rw [hcfg]
  exact if_neg (by rw [hc]; exact Bool.false_ne_true)

/-- The two checks after the answer. -/
theorem acceptInitiation_cases (ctx : LoopCtx S) (n : Node S) (d : Datagram S)
    (pub key : S.Block) :
    (¬ ((findPeerConfig n.peerConfigs pub).isSome ∧
        inCooldown ctx n.table d.now (findSessionByPub n.table pub) = false) ∧
      acceptInitiation ctx n d pub key = (n, [])) ∨
    ∃ cfg, findPeerConfig n.peerConfigs pub = some cfg ∧
      inCooldown ctx n.table d.now (findSessionByPub n.table pub) = false ∧
      acceptInitiation ctx n d pub key = installSession ctx n d pub key cfg false := by
  cases hcfg : findPeerConfig n.peerConfigs pub with
  | none =>
      refine .inl ⟨?_, ?_⟩
      · rintro ⟨⟨⟩, -⟩
      · unfold acceptInitiation
        rw [hcfg]
  | some cfg =>
      cases hc : inCooldown ctx n.table d.now (findSessionByPub n.table pub) with
      | true =>
          refine .inl ⟨?_, ?_⟩
          · rintro ⟨-, ⟨⟩⟩
          · unfold acceptInitiation
            rw [hcfg]
            exact if_pos hc
      | false => exact .inr ⟨cfg, rfl, rfl, acceptInitiation_of_checks hcfg hc key⟩

/-- What follows the answer either installs the session or does nothing, and it installs
exactly when the checks pass. -/
theorem acceptInitiation_outcome (ctx : LoopCtx S) (n : Node S) (d : Datagram S)
    (pub key : S.Block) :
    (((findPeerConfig n.peerConfigs pub).isSome ∧
        inCooldown ctx n.table d.now (findSessionByPub n.table pub) = false ∧
        (allocSession n.table pub d.src).isSome) ∧
      ∃ cfg i tb, acceptInitiation ctx n d pub key =
        (installAt ctx n d i tb pub key cfg false,
          [.installed ⟨i, pub, key, d.src, d.pkt, false, d.clock⟩])) ∨
    (¬ ((findPeerConfig n.peerConfigs pub).isSome ∧
        inCooldown ctx n.table d.now (findSessionByPub n.table pub) = false ∧
        (allocSession n.table pub d.src).isSome) ∧
      acceptInitiation ctx n d pub key = (n, [])) := by
  rcases acceptInitiation_cases ctx n d pub key with ⟨hfail, heq⟩ | ⟨cfg, hcfg, hc, heq⟩
  · refine .inr ⟨?_, heq⟩
    rintro ⟨hsome, hcool, -⟩
    exact hfail ⟨hsome, hcool⟩
  · rw [heq]
    rcases hal : allocSession n.table pub d.src with _ | ⟨i, tb⟩
    · refine .inr ⟨?_, installSession_of_none hal⟩
      rintro ⟨-, -, ⟨⟩⟩
    · exact .inl ⟨⟨by rw [hcfg]; rfl, hc, rfl⟩, cfg, i, tb, installSession_of_some hal⟩

/-- Installing a session changes the table and nothing else. -/
theorem installSession_node (ctx : LoopCtx S) (n : Node S) (d : Datagram S) (pub key : S.Block)
    (cfg : PeerConfig S) (out : Bool) :
    ∃ tb, (installSession ctx n d pub key cfg out).1 = { n with table := tb } := by
  unfold installSession
  split
  · exact ⟨n.table, rfl⟩
  · exact ⟨_, rfl⟩

theorem acceptInitiation_node (ctx : LoopCtx S) (n : Node S) (d : Datagram S)
    (pub key : S.Block) :
    ∃ tb, (acceptInitiation ctx n d pub key).1 = { n with table := tb } := by
  rcases acceptInitiation_cases ctx n d pub key with ⟨-, heq⟩ | ⟨cfg, -, -, heq⟩
  · exact ⟨n.table, by rw [heq]⟩
  · rw [heq]
    exact installSession_node ..

/-- What an initiation does to the node: nothing, or the precomputed key is renewed, and then a
session may be installed. -/
theorem inboundHandshake_node (ctx : LoopCtx S) (n : Node S) (d : Datagram S) :
    (inboundHandshake ctx n d).1 = n ∨
    (inboundHandshake ctx n d).1 = refreshPrecompEph n d.fresh ∨
    ∃ pub key cfg, (inboundHandshake ctx n d).1
      = (installSession ctx (refreshPrecompEph n d.fresh) d pub key cfg false).1 := by
  unfold inboundHandshake
  split
  · exact .inl rfl
  · dsimp only
    split
    · exact .inl rfl
    · rename_i pub key _
      rcases acceptInitiation_cases ctx (refreshPrecompEph n d.fresh) d pub key with
        ⟨-, heq⟩ | ⟨cfg, -, -, heq⟩
      · exact .inr (.inl (by rw [heq]))
      · exact .inr (.inr ⟨pub, key, cfg, by rw [heq]⟩)

/-- What a response does to the node: the entry is used up, and either the peer's session is no
longer rekeying or the session is installed. -/
theorem outboundResponse_node (ctx : LoopCtx S) (n : Node S) (j : Fin MAX_PEERS)
    (d : Datagram S) :
    ∃ st,
      (outboundResponse ctx n j d).1
        = { n.setPending j { n.pendingHs j with active := false, hsState := st } with
            table := clearRekeying n.table (n.config (n.pendingHs j).cfgIdx).pub } ∨
      ∃ key, (outboundResponse ctx n j d).1
        = (installSession ctx
            (n.setPending j { n.pendingHs j with active := false, hsState := st }) d
            (n.config (n.pendingHs j).cfgIdx).pub key (n.config (n.pendingHs j).cfgIdx)
            true).1 := by
  unfold outboundResponse
  dsimp only
  split
  · rename_i key st _
    exact ⟨st, .inr ⟨key, rfl⟩⟩
  · rename_i st _
    exact ⟨st, .inl rfl⟩

/-! ## Accepted packets -/

/-- Only sessions are announced by `installSession`. -/
theorem mem_installSession {ctx : LoopCtx S} {n : Node S} {d : Datagram S} {pub key : S.Block}
    {cfg : PeerConfig S} {out : Bool} {e : Event S}
    (h : e ∈ (installSession ctx n d pub key cfg out).2) : ∃ x, e = .installed x := by
  rcases hal : allocSession n.table pub d.src with _ | ⟨i, tb⟩
  · rw [installSession_of_none hal] at h
    cases h
  · rw [installSession_of_some hal] at h
    exact ⟨_, List.mem_singleton.mp h⟩

theorem mem_acceptInitiation {ctx : LoopCtx S} {n : Node S} {d : Datagram S} {pub key : S.Block}
    {e : Event S} (h : e ∈ (acceptInitiation ctx n d pub key).2) : ∃ x, e = .installed x := by
  rcases acceptInitiation_cases ctx n d pub key with ⟨-, heq⟩ | ⟨cfg, -, -, heq⟩
  · rw [heq] at h
    cases h
  · rw [heq] at h
    exact mem_installSession h

/-- An accepted packet came in a data datagram and passed the checks of its session. -/
theorem StepCase.receive_of_accepted {ctx : LoopCtx S} {n n' : Node S} {inp : Input S}
    {ev : List (Event S)} {r : Receipt S} (h : StepCase ctx n inp ev n')
    (hr : .accepted r ∈ ev) :
    ∃ d s, inp = .udp d ∧ isHandshake ctx d.pkt = false ∧
      findSessionByAddr n.table d.src = some r.slot ∧
      receive (n.table.sessions r.slot) r.slot d.pkt d.now = (s, some r) := by
  cases h with
  | quiet h => exact (h.emits _ hr).elim
  | @accept d r' s dl ev n' hd hf hrec hdl h =>
      have hr' : r = r' := by
        rcases List.mem_cons.mp hr with heq | hr
        · exact Event.accepted.inj heq
        · rcases List.mem_append.mp hr with hr | hr
          · rcases hdl with rfl | ⟨f, rfl⟩
            · cases hr
            · cases List.mem_singleton.mp hr
          · exact (h.emits _ hr).elim
      subst hr'
      exact ⟨d, s, rfl, hd, hf, hrec⟩
  | answer => cases List.mem_singleton.mp hr
  | initiator =>
      rcases List.mem_cons.mp hr with heq | hr
      · cases heq
      · obtain ⟨x, heq⟩ := mem_installSession hr
        cases heq
  | responder =>
      rcases List.mem_cons.mp hr with heq | hr
      · cases heq
      rcases List.mem_cons.mp hr with heq | hr
      · cases heq
      · obtain ⟨x, heq⟩ := mem_acceptInitiation hr
        cases heq

@[simp] theorem refreshPrecompEph_table (n : Node S) (fresh : Option S.Priv) :
    (refreshPrecompEph n fresh).table = n.table := by
  cases fresh <;> rfl

@[simp] theorem refreshPrecompEph_lastCheck (n : Node S) (fresh : Option S.Priv) :
    (refreshPrecompEph n fresh).lastCheck = n.lastCheck := by
  cases fresh <;> rfl

@[simp] theorem refreshPrecompEph_peerConfigs (n : Node S) (fresh : Option S.Priv) :
    (refreshPrecompEph n fresh).peerConfigs = n.peerConfigs := by
  cases fresh <;> rfl

@[simp] theorem refreshPrecompEph_pendingHs (n : Node S) (fresh : Option S.Priv) :
    (refreshPrecompEph n fresh).pendingHs = n.pendingHs := by
  cases fresh <;> rfl

/-! ## Answers -/

/-- The ephemeral key and the initiation of an answer, from the datagram and the state before it: no
pending handshake waits for the source, which is not in its cooldown, the initiation opens, its
ephemeral key has a secret with the precomputed one, and the response can be sent. -/
def answerTo (ctx : LoopCtx S) (n : Node S) (d : Datagram S) : Option (S.Priv × Initiation S) :=
  if pendingFrom n d.src = none ∧ d.sendOk = true ∧
      inCooldown ctx n.table d.now (findSessionByAddr n.table d.src) = false then
    (openInitiation d.pkt ctx.pskKey ctx.staticKey).bind fun ini =>
      n.precompEphKey.bind fun e => (S.x25519 e ini.clientEphPub).map fun _ => (e, ini)
  else none

/-- `handshake_server_respond` in the inbound branch, in terms of `answerTo`. -/
theorem respond_cases {ctx : LoopCtx S} {n : Node S} {d : Datagram S}
    (hp : pendingFrom n d.src = none)
    (hc : inCooldown ctx n.table d.now (findSessionByAddr n.table d.src) = false) :
    (answerTo ctx n d = none ∧ handshakeServerRespond d.pkt ctx.pskKey ctx.staticKey ctx.staticPub
      n.precompEphKey d.sendOk = ⟨none, none⟩) ∨
    ∃ e ini resp, ∃ key : S.Block → S.Block, answerTo ctx n d = some (e, ini) ∧
      handshakeServerRespond d.pkt ctx.pskKey ctx.staticKey ctx.staticPub n.precompEphKey d.sendOk
        = ⟨some resp, (S.x25519 e ini.clientStaticPub).map fun secret =>
            (ini.clientStaticPub, key secret)⟩ := by
  unfold handshakeServerRespond answerTo
  cases hok : d.sendOk with
  | false =>
      -- whatever is checked before it, a response that cannot be sent is none
      refine .inl ⟨if_neg (by simp), ?_⟩
      cases openInitiation d.pkt ctx.pskKey ctx.staticKey with
      | none => rfl
      | some ini =>
          cases n.precompEphKey with
          | none => rfl
          | some e =>
              dsimp only
              cases S.x25519 e ini.clientEphPub <;> rfl
  | true =>
      rw [if_pos ⟨hp, rfl, hc⟩]
      cases openInitiation d.pkt ctx.pskKey ctx.staticKey with
      | none => exact .inl ⟨rfl, rfl⟩
      | some ini =>
          cases n.precompEphKey with
          | none => exact .inl ⟨rfl, rfl⟩
          | some e =>
              simp only [Option.bind_some]
              cases S.x25519 e ini.clientEphPub with
              | none => exact .inl ⟨rfl, rfl⟩
              -- the response is out, whether or not the last secret exists
              | some ecdhEph =>
                  refine .inr ⟨e, ini, responsePacket ctx.pskKey ctx.staticPub e ecdhEph,
                    fun secret => deriveSessionKey ⟨ecdhEph, secret, ini.ecdhEcSs,
                      ini.clientEphPub, S.pubOf e, ini.clientStaticPub, ctx.staticPub⟩, rfl, ?_⟩
                  simp only [serverKeyInput, Option.map_map, if_true]
                  rfl

end Lanecove
