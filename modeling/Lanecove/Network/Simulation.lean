import Lanecove.Network.Tunnel

set_option autoImplicit false

/-! # The two ends follow the abstract protocol

Every step of the initiator is a step of the client of `Basic/Rekeying.lean`
(`ClientEnd.step`), every step of the responder one of its server (`ServerEnd.step`). Steps
without a handshake are covered by `Works`. What is left are the two steps that change a key:
the responder answers an initiation, and the initiator completes a handshake.

The cryptography enters here only. A response that completes a handshake is the response to
the initiation with the same ephemeral key, and both ends derive one key from it
(`ServerEnd.completes`); a key that was derived from an unused ephemeral key is new
(`ServerEnd.answer_key_new`); and a packet decrypts under the key it was sent under only.
-/

namespace Lanecove

variable {S : Suite}

/-! ## A step without a handshake -/

section Works

variable {ctx : LoopCtx S} {inp : Input S} {n n' : Node S} {ev : List (Event S)}
  {i : Fin MAX_PEERS}

theorem dataTo_append {tr : List (Event S)} {dst : SockAddr} {p : S.Block × Nat}
    (h : p ∈ dataTo (tr ++ ev) dst) : p ∈ dataTo tr dst ∨ p ∈ dataTo ev dst := by
  obtain ⟨d, hd, hdst, rfl⟩ := h
  rcases List.mem_append.mp hd with hd | hd
  · exact .inl ⟨d, hd, hdst, rfl⟩
  · exact .inr ⟨d, hd, hdst, rfl⟩

/-- Whoever waits after the step waited before, or was started with a new key. -/
theorem Works.waitsFor (hw : Works ctx inp n ev n') {pub : S.Block} {j : Fin MAX_PEERS}
    (hj : n'.waitsFor pub j) :
    (n'.pendingHs j = n.pendingHs j ∧ n.waitsFor pub j) ∨
      ∃ e x, inp.offers e ∧ (n'.pendingHs j).hsState = ⟨some e, S.pubOf e, x⟩ ∧
        S.x25519 e pub = some x := by
  obtain ⟨hact, hpub⟩ := hj
  have hcfg : ∀ idx, (n'.config idx).pub = (n.config idx).pub := fun idx =>
    congrArg Prod.fst (config_fixed hw.configs idx)
  rw [hcfg] at hpub
  rcases hw.pending j hact with hold | hnew
  · rw [hold] at hact hpub
    exact .inl ⟨hold, hact, hpub⟩
  · obtain ⟨e, x, hoffer, hx, hst⟩ := hnew.hsState
    rw [hpub] at hx
    exact .inr ⟨e, x, hoffer, hst, hx⟩

/-- Sequence numbers only grow, as long as there is room. -/
theorem Works.seq_le (hw : Works ctx inp n ev n')
    (hroom : (n.table.sessions i).sendSeq.toNat + 1 < 2 ^ 64) :
    (n.table.sessions i).sendSeq.toNat ≤ (n'.table.sessions i).sendSeq.toNat := by
  obtain ⟨k, hk, hseq, -⟩ := hw.sends i
  rw [hseq, BitVec.toNat_add, BitVec.toNat_ofNat]
  omega

/-- What the session sends is under its key, with a number below the next one. -/
theorem Works.sent (hw : Works ctx inp n ev n') {src : SockAddr} {pub : S.Block}
    (hs : HasSession i src pub n) (hroom : (n.table.sessions i).sendSeq.toNat + 1 < 2 ^ 64)
    {p : S.Block × Nat} (hp : p ∈ dataTo ev src) :
    p.1 = (n.table.sessions i).sessionKey ∧ p.2 < (n'.table.sessions i).sendSeq.toNat := by
  obtain ⟨d, hd, hdst, rfl⟩ := hp
  have hon : SentOn n d := hw.emits_of hd nofun nofun
  have hslot := hs.slot_of_sentOn hon hdst
  obtain ⟨k, hk, hseq, hev⟩ := hw.sends i
  obtain ⟨m, hm, hq⟩ := hev d hd hslot
  refine ⟨by rw [hon.key, hslot], ?_⟩
  show d.seq.toNat < _
  rw [hq, hseq, BitVec.toNat_add, BitVec.toNat_add, BitVec.toNat_ofNat, BitVec.toNat_ofNat]
  omega

theorem Works.framed (hw : Works ctx inp n ev n') {d : Sending S} (hd : .dataSent d ∈ ev) :
    d.Framed := by
  have hon : SentOn n d := hw.emits_of hd nofun nofun
  exact hon.pkt

/-- What the session has seen afterwards it had seen before, or it is covered by a packet the
other end sent under the session's key. -/
theorem Works.seen (hw : Works ctx inp n ev n') {other : List (Event S)} {own : SockAddr}
    (hdel : ∀ pkt plain, inp.carries pkt →
      S.decryptPacket (n.table.sessions i).sessionKey pkt = some plain →
      ∃ d, .dataSent d ∈ other ∧ d.dst = own ∧ d.key = (n.table.sessions i).sessionKey ∧
        unframe plain = some (d.seq, d.payload))
    {x : Nat} (hx : x ∈ seenBy (n'.table.sessions i)) :
    x ∈ seenBy (n.table.sessions i) ∨
      ∃ q, ((n.table.sessions i).sessionKey, q) ∈ dataTo other own ∧ x ≤ q := by
  obtain ⟨v, rfl, hv⟩ := hx
  rcases hw.recvSeq i with hsame | ⟨pkt, plain, seq, payload, hc, hplain, hframe, hcheck⟩
  · rw [hsame] at hv
    exact .inl ⟨v, rfl, hv⟩
  · obtain ⟨d, hd, hdst, hkey, hd'⟩ := hdel pkt plain hc hplain
    obtain ⟨rfl, -⟩ := Prod.mk.inj (Option.some.inj (hframe.symm.trans hd'))
    rcases (seen_checkReplay hcheck v).mp hv with hold | rfl | hfar
    · exact .inl ⟨v, rfl, hold⟩
    · exact .inr ⟨_, ⟨d, hd, hdst, by rw [hkey]⟩, Nat.le_refl _⟩
    · exact .inr ⟨_, ⟨d, hd, hdst, by rw [hkey]⟩, by omega⟩

/-- The previous key is given up only for a packet under the current one. -/
theorem Works.keepsPrev (hw : Works ctx inp n ev n') {other : List (Event S)} {own : SockAddr}
    (hdel : ∀ pkt plain, inp.carries pkt →
      S.decryptPacket (n.table.sessions i).sessionKey pkt = some plain →
      ∃ d, .dataSent d ∈ other ∧ d.dst = own ∧ d.key = (n.table.sessions i).sessionKey ∧
        unframe plain = some (d.seq, d.payload))
    (hprev : (n.table.sessions i).prevKeyActive = true) :
    (n'.table.sessions i).prevKeyActive = true ∨
      ∃ q, ((n.table.sessions i).sessionKey, q) ∈ dataTo other own := by
  cases hnew : (n'.table.sessions i).prevKeyActive with
  | true => exact .inl rfl
  | false =>
      obtain ⟨pkt, plain, hc, hplain⟩ := hw.retires i hprev hnew
      obtain ⟨d, hd, hdst, hkey, -⟩ := hdel pkt plain hc hplain
      exact .inr ⟨d.seq.toNat, d, hd, hdst, by rw [hkey]⟩

end Works

/-- Of the datagrams an end has sent, only framed packets decrypt. -/
theorem decrypts_of_sent (hS : S.Ideal) {tr : List (Event S)} {dst : SockAddr} {pkt : S.Wire}
    {k : S.Block} {plain : List UInt8}
    (hhs : ∀ dst pkt, .initSent dst pkt ∈ tr ∨ .respSent dst pkt ∈ tr →
      ∃ e c m, pkt = S.hsPacket e c m)
    (hdata : ∀ d, .dataSent d ∈ tr → d.Framed) (hsent : (dst, pkt) ∈ datagrams tr)
    (hdec : S.decryptPacket k pkt = some plain) :
    ∃ d, .dataSent d ∈ tr ∧ d.dst = dst ∧ d.key = k ∧ unframe plain = some (d.seq, d.payload) := by
  have hno : ¬ (.initSent dst pkt ∈ tr ∨ .respSent dst pkt ∈ tr) := by
    intro hor
    obtain ⟨e, c, m, rfl⟩ := hhs dst pkt hor
    rw [hS.decrypt_hsPacket] at hdec
    cases hdec
  rcases mem_datagrams.mp hsent with hi | hr | ⟨d, hd, hdst, rfl⟩
  · exact absurd (.inl hi) hno
  · exact absurd (.inr hr) hno
  · obtain ⟨hkey, hframe⟩ := (hdata d hd).decrypt hS hdec
    exact ⟨d, hd, hdst, hkey, hframe⟩

/-! ## Steps of the initiator -/

section Client

variable {T : Tunnel S} {a : (node T.client).Config} {b : (node T.server).Config}

/-- A handshake datagram of the responder is the answer to an initiation. -/
theorem ServerEnd.handshake_of_sent (hS : S.Ideal) (hR : ServerEnd T b) {dst : SockAddr}
    {pkt : S.Wire} {f : S.Block × S.Sealed × Option S.Block} (hsent : (dst, pkt) ∈ datagrams b.2)
    (hf : S.hsFields T.client.pskKey.isSome pkt = some f) : Answers T b.2 pkt := by
  rcases mem_datagrams.mp hsent with hi | hr | ⟨d, hd, -, rfl⟩
  · exact absurd hi (hR.initiations dst pkt)
  · exact hR.responses dst pkt hr
  · obtain ⟨iv, hpkt⟩ := hR.data d hd
    rw [hpkt, hS.hsFields_encrypt] at hf
    cases hf

/-- The initiator takes no datagram of the responder for an initiation: its static key would
have to be one of its ephemeral keys. -/
theorem ServerEnd.opens_nothing (hS : S.Ideal) (hR : ServerEnd T b) {dst : SockAddr}
    {pkt : S.Wire} (hsent : (dst, pkt) ∈ datagrams b.2) :
    openInitiation pkt T.client.pskKey T.client.staticKey = none := by
  by_contra hne
  obtain ⟨ini, hini⟩ := Option.ne_none_iff_exists'.mp hne
  obtain ⟨enc, mac, hf, -, hx, hid⟩ := openInitiation_eq_some hini
  obtain ⟨h, i, rfl, -⟩ := hR.handshake_of_sent hS hsent hf
  rw [Handshake.response, hsFields_responsePacket hS.toLawful] at hf
  obtain ⟨heph, hrest⟩ := Prod.mk.inj (Option.some.inj hf)
  obtain ⟨rfl, -⟩ := Prod.mk.inj hrest
  obtain ⟨hsecret, -⟩ := decryptIdentity_eq_some hS hid
  have hsame : S.x25519 T.client.staticKey (S.pubOf h.se) = S.x25519 h.ce (S.pubOf h.se) :=
    calc S.x25519 T.client.staticKey (S.pubOf h.se)
        = some h.ecdhEph := by rw [heph, hx, hsecret]
      _ = S.x25519 h.se (S.pubOf h.ce) := h.eph.symm
      _ = S.x25519 h.ce (S.pubOf h.se) := hS.x25519_comm h.se h.ce
  exact h.static (hS.x25519_inj _ _ _ hsame).symm

/-- A response completes a handshake with the responder only. -/
theorem ServerEnd.completes_pub (hS : S.Ideal) (hR : ServerEnd T b) {dst : SockAddr}
    {pkt : S.Wire} {pub : S.Block} {st : HsClientState S} {input : KeyInput S}
    (hsent : (dst, pkt) ∈ datagrams b.2)
    (hi : clientKeyInput pkt T.client.pskKey T.client.staticKey T.client.staticPub pub st
      = some input) : pub = T.server.staticPub := by
  obtain ⟨serverEph, enc, mac, e, ecdhEph, ecdhScEs, hf, -, -, -, hid, -⟩ :=
    clientKeyInput_eq_some hi
  obtain ⟨h, i, rfl, -⟩ := hR.handshake_of_sent hS hsent hf
  rw [Handshake.response, hsFields_responsePacket hS.toLawful] at hf
  obtain ⟨-, hrest⟩ := Prod.mk.inj (Option.some.inj hf)
  obtain ⟨rfl, -⟩ := Prod.mk.inj hrest
  exact (decryptIdentity_eq_some hS hid).2.symm

/-- The key of a completed handshake is the one the responder installed for the initiation
with the same ephemeral key. -/
theorem ServerEnd.completes (hS : S.Ideal) (hR : ServerEnd T b) {dst : SockAddr} {pkt : S.Wire}
    {e : S.Priv} {x : S.Block} {input : KeyInput S} (hx : S.x25519 e T.server.staticPub = some x)
    (hsent : (dst, pkt) ∈ datagrams b.2)
    (hi : clientKeyInput pkt T.client.pskKey T.client.staticKey T.client.staticPub
      T.server.staticPub ⟨some e, S.pubOf e, x⟩ = some input) :
    (S.pubOf e, deriveSessionKey input) ∈ (serverOf T b).answers := by
  obtain ⟨serverEph, enc, mac, e', ecdhEph, ecdhScEs, hf, -, he, hdh, hid, hsc, rfl⟩ :=
    clientKeyInput_eq_some hi
  obtain rfl := Option.some.inj he
  obtain ⟨h, i, rfl, hi', heph, hkey⟩ := hR.handshake_of_sent hS hsent hf
  rw [Handshake.response, hsFields_responsePacket hS.toLawful] at hf
  obtain ⟨rfl, hrest⟩ := Prod.mk.inj (Option.some.inj hf)
  obtain ⟨rfl, -⟩ := Prod.mk.inj hrest
  obtain ⟨rfl, -⟩ := decryptIdentity_eq_some hS hid
  -- the secret of the two ephemeral keys gives away which initiation was answered
  have hsame : S.x25519 e (S.pubOf h.se) = S.x25519 h.ce (S.pubOf h.se) :=
    calc S.x25519 e (S.pubOf h.se)
        = some h.ecdhEph := hdh
      _ = S.x25519 h.se (S.pubOf h.ce) := h.eph.symm
      _ = S.x25519 h.ce (S.pubOf h.se) := hS.x25519_comm h.se h.ce
  have hpub := hS.x25519_inj _ _ _ hsame
  have hscEs : h.ecdhScEs = ecdhScEs := by
    have hcomm := hS.x25519_comm T.client.staticKey h.se
    rw [hsc] at hcomm
    exact Option.some.inj (h.scEs.symm.trans hcomm.symm)
  have hecSs : h.ecdhEcSs = x := by
    have hcomm := hS.x25519_comm T.server.staticKey e
    rw [hpub, h.ecSs] at hcomm
    exact Option.some.inj (hcomm.trans hx)
  refine ⟨i, hi', ?_, ?_⟩
  · rw [heph, hpub]
  · rw [hkey, Handshake.key, Handshake.input, hscEs, hecSs, hpub]

/-- What a datagram of the responder decrypts to. -/
theorem ServerEnd.decrypts (hS : S.Ideal) (hR : ServerEnd T b) {dst : SockAddr} {pkt : S.Wire}
    {k : S.Block} {plain : List UInt8} (hsent : (dst, pkt) ∈ datagrams b.2)
    (hdec : S.decryptPacket k pkt = some plain) :
    ∃ d, .dataSent d ∈ b.2 ∧ d.dst = dst ∧ d.key = k ∧
      unframe plain = some (d.seq, d.payload) := by
  refine decrypts_of_sent hS ?_ hR.data hsent hdec
  rintro dst pkt (hi | hr)
  · exact absurd hi (hR.initiations dst pkt)
  · obtain ⟨h, i, rfl, -⟩ := hR.responses dst pkt hr
    exact ⟨_, _, _, rfl⟩

section Work

variable {inp : Input S} {ev : List (Event S)} {n' : Node S}

/-- The initiator works without completing a handshake. -/
theorem ClientEnd.work (hC : ClientEnd T a)
    (hG : Undisturbed T T.client T.clientSlot T.clientAddr T.serverAddr a b.2 inp)
    (hw : Works T.client inp a.1 ev n')
    (halive : (n'.table.sessions T.clientSlot).active = true)
    (hrekey : findSessionByPub n'.table T.server.staticPub = some T.clientSlot →
      SingleRekey T.server.staticPub T.clientSlot n') :
    ClientEnd T (n', a.2 ++ ev) := by
  have hses := hC.session.keeps hw.slots hw.keeps halive
  refine ⟨hses, hrekey hses.byPub, ?_, ?_, ?_, ?_⟩
  · intro j hj
    rcases hw.waitsFor hj with ⟨hsame, hold⟩ | ⟨e, x, -, hst, hx⟩
    · rw [hsame]
      exact hC.pending j hold
    · exact ⟨e, x, hst, hx⟩
  · intro dst pkt hmem
    rcases List.mem_append.mp hmem with hold | hnew
    · exact hC.initiations dst pkt hold
    · obtain ⟨idx, e, x, -, hoffer, -, hpkt⟩ := hw.emits_of hnew nofun nofun
      exact ⟨e, x, hpkt, (hG.fresh e hoffer).static⟩
  · intro dst pkt hmem
    rcases List.mem_append.mp hmem with hold | hnew
    · exact hC.responses dst pkt hold
    · exact hw.no_response dst pkt hnew
  · intro d hmem
    rcases List.mem_append.mp hmem with hold | hnew
    · exact hC.data d hold
    · exact hw.framed hnew

theorem ClientEnd.work_step (hS : S.Ideal) (hC : ClientEnd T a) (hR : ServerEnd T b)
    (hG : Undisturbed T T.client T.clientSlot T.clientAddr T.serverAddr a b.2 inp)
    (hw : Works T.client inp a.1 ev n') :
    Rekeying.ClientStep (serverOf T b) (clientOf T a) (clientOf T (n', a.2 ++ ev)) := by
  apply Rekeying.ClientStep.work
  · exact (hw.keeps T.clientSlot).sessionKey
  · rintro e ⟨w, hmem, he⟩
    refine ⟨w, ?_, he⟩
    show w ∈ wires (a.2 ++ ev)
    rw [wires_append]
    exact List.mem_append_left _ hmem
  · rintro e ⟨j, hj, rfl⟩
    rcases hw.waitsFor hj with ⟨hsame, hold⟩ | ⟨e', x, hoffer, hst, -⟩
    · refine .inl ⟨j, hold, ?_⟩
      show _ = (n'.pendingHs j).hsState.ephPub
      rw [hsame]
    · -- a new key is on no datagram, so it was not offered before
      refine .inr ?_
      rintro ⟨w, hmem, he⟩
      apply (hG.fresh e' hoffer).sent w hmem
      rw [he]
      show some (n'.pendingHs j).hsState.ephPub = _
      rw [hst]
  · exact hw.seq_le hG.room
  · intro k q hkq
    rcases dataTo_append hkq with hold | hnew
    · exact .inl hold
    · exact .inr (hw.sent hC.session hG.room hnew)
  · intro x hx
    exact hw.seen (fun pkt plain hc => hR.decrypts hS (hG.carried hc)) hx

end Work

theorem seenBy_sessionInit (cfg : Settings) (s : Session S) (addr : SockAddr) (pub key : S.Block)
    (peer : Option (PeerConfig S)) (out : Bool) (now : Int) :
    seenBy (sessionInit cfg s addr pub key peer out now) = ∅ := by
  apply Set.eq_empty_of_forall_notMem
  rintro q ⟨v, -, hv⟩
  exact ReplayState.not_seen_zero v hv

/-- Events that are no datagrams change neither offers nor packets. -/
theorem dataTo_of_not_sent {tr ev : List (Event S)} (hev : ∀ d, .dataSent d ∉ ev)
    (dst : SockAddr) : dataTo (tr ++ ev) dst = dataTo tr dst := by
  apply Set.eq_of_subset_of_subset
  · intro p hp
    rcases dataTo_append hp with hold | ⟨d, hd, -⟩
    · exact hold
    · exact absurd hd (hev d)
  · rintro p ⟨d, hd, hrest⟩
    exact ⟨d, List.mem_append_left _ hd, hrest⟩

/-- The initiator takes over the key of a response. -/
theorem ClientEnd.adopt (hS : S.Ideal) (hC : ClientEnd T a) (hR : ServerEnd T b) {d : Datagram S}
    (hG : Undisturbed T T.client T.clientSlot T.clientAddr T.serverAddr a b.2 (.udp d))
    {j : Fin MAX_PEERS} {input : KeyInput S} (hwait : a.1.waitsFor T.server.staticPub j)
    (hi : clientKeyInput d.pkt T.client.pskKey T.client.staticKey T.client.staticPub
      T.server.staticPub (a.1.pendingHs j).hsState = some input)
    {p : PendingHs S} (hp : p.active = false) (cfg : PeerConfig S) (e : Install S) :
    ClientEnd T (installAt T.client (a.1.setPending j p) d T.clientSlot a.1.table
        T.server.staticPub (deriveSessionKey input) cfg true,
      a.2 ++ [.hsDone T.server.staticPub (deriveSessionKey input), .installed e]) ∧
    Rekeying.ClientStep (serverOf T b) (clientOf T a)
      (clientOf T (installAt T.client (a.1.setPending j p) d T.clientSlot a.1.table
          T.server.staticPub (deriveSessionKey input) cfg true,
        a.2 ++ [.hsDone T.server.staticPub (deriveSessionKey input), .installed e])) := by
  obtain ⟨hsrc, hsent⟩ := hG.delivered d rfl
  have hses₀ : HasSession T.clientSlot T.serverAddr T.server.staticPub (a.1.setPending j p) :=
    ⟨hC.session.below, hC.session.active, hC.session.staticPub, hC.session.addr, hC.session.only⟩
  have hses := hses₀.install T.client hsrc (deriveSessionKey input) cfg true
  obtain ⟨hrekey, hnone⟩ := hC.rekey.adopt hwait hp hses.byPub
  obtain ⟨e', x, hst, hx⟩ := hC.pending j hwait
  constructor
  · refine ⟨hses, hrekey, fun k hk => absurd hk (hnone k), ?_, ?_, ?_⟩
    · intro dst pkt hmem
      exact hC.initiations dst pkt (by simpa using hmem)
    · intro dst pkt hmem
      exact hC.responses dst pkt (by simpa using hmem)
    · intro d' hmem
      exact hC.data d' (by simpa using hmem)
  · apply Rekeying.ClientStep.adopt (S.pubOf e')
    · exact ⟨j, hwait, by rw [hst]⟩
    · show (_, ((installAt T.client (a.1.setPending j p) d T.clientSlot a.1.table
        T.server.staticPub (deriveSessionKey input) cfg true).table.sessions
          T.clientSlot).sessionKey) ∈ _
      rw [installAt_sessions_self]
      rw [hst] at hi
      exact hR.completes hS hx hsent hi
    · show { e | ∃ w ∈ wires (a.2 ++ _), _ } = { e | ∃ w ∈ wires a.2, _ }
      rw [wires_append, show wires [Event.hsDone T.server.staticPub (deriveSessionKey input),
        .installed e] = [] from rfl, List.append_nil]
    · apply Set.eq_empty_of_forall_notMem
      rintro e'' ⟨k, hk, -⟩
      exact hnone k hk
    · exact dataTo_of_not_sent (by simp) _
    · show seenBy ((installAt T.client (a.1.setPending j p) d T.clientSlot a.1.table
        T.server.staticPub (deriveSessionKey input) cfg true).table.sessions T.clientSlot) = ∅
      rw [installAt_sessions_self]
      exact seenBy_sessionInit ..

theorem ClientEnd.of_case (hS : S.Ideal) (hC : ClientEnd T a) (hR : ServerEnd T b) {inp : Input S}
    (hG : Undisturbed T T.client T.clientSlot T.clientAddr T.serverAddr a b.2 inp)
    {ev : List (Event S)} {n' : Node S} (hcase : StepCase T.client a.1 inp ev n')
    (halive : (n'.table.sessions T.clientSlot).active = true)
    (hrekey : findSessionByPub n'.table T.server.staticPub = some T.clientSlot →
      SingleRekey T.server.staticPub T.clientSlot n') :
    ClientEnd T (n', a.2 ++ ev) ∧
      Rekeying.ClientStep (serverOf T b) (clientOf T a) (clientOf T (n', a.2 ++ ev)) := by
  -- no datagram of the responder is answered
  have hno : ∀ d resp, inp = .udp d →
      (handshakeServerRespond d.pkt T.client.pskKey T.client.staticKey T.client.staticPub
        a.1.precompEphKey d.sendOk).sent ≠ some resp := by
    intro d resp hinp hresp
    obtain ⟨ini, -, -, hini, -⟩ := handshakeServerRespond_sent hresp
    rw [hR.opens_nothing hS (hG.delivered d hinp).2] at hini
    cases hini
  cases hcase with
  | quiet h => exact ⟨hC.work hG h.works halive hrekey, hC.work_step hS hR hG h.works⟩
  | @accept d r s dl ev n' hd hf hr hdl h =>
      have hw := works_of_accept hr hdl h
      exact ⟨hC.work hG hw halive hrekey, hC.work_step hS hR hG hw⟩
  | @answer d resp hd hp hc hr => exact absurd (by rw [hr]) (hno d resp rfl)
  | @responder d resp pub key hd hp hc hr => exact absurd (by rw [hr]) (hno d resp rfl)
  | @initiator d j input hd hp hi =>
      have hpub := hR.completes_pub hS (hG.delivered d rfl).2 hi
      have hact := (pendingFrom_eq_some hp).1
      have hal : ∀ p, allocSession (a.1.setPending j p).table T.server.staticPub d.src
          = some (T.clientSlot, a.1.table) := fun _ =>
        allocSession_of_findSessionByPub hC.session.byPub d.src
      rw [hpub, installSession_of_some (hal _)]
      rw [hpub] at hi
      exact hC.adopt hS hR hG ⟨hact, hpub⟩ hi rfl _ _

/-- **A step of the initiator** is a step of the client of the abstract protocol. -/
theorem ClientEnd.step (hS : S.Ideal) (hC : ClientEnd T a) (hR : ServerEnd T b) {inp : Input S}
    (hG : Undisturbed T T.client T.clientSlot T.clientAddr T.serverAddr a b.2 inp) :
    ClientEnd T ((node T.client).next a inp) ∧
      Rekeying.ClientStep (serverOf T b) (clientOf T a)
        (clientOf T ((node T.client).next a inp)) := by
  refine hC.of_case hS hR hG (step_cases T.client a.1 inp) hG.alive ?_
  apply hC.rekey.step
  · rintro d rfl
    exact hR.opens_nothing hS (hG.delivered d rfl).2
  · rintro d j input rfl - hi
    exact hR.completes_pub hS (hG.delivered d rfl).2 hi

end Client

/-! ## Steps of the responder -/

section Server

variable {T : Tunnel S} {a : (node T.client).Config} {b : (node T.server).Config}

theorem ClientEnd.decrypts (hS : S.Ideal) (hC : ClientEnd T a) {dst : SockAddr} {pkt : S.Wire}
    {k : S.Block} {plain : List UInt8} (hsent : (dst, pkt) ∈ datagrams a.2)
    (hdec : S.decryptPacket k pkt = some plain) :
    ∃ d, .dataSent d ∈ a.2 ∧ d.dst = dst ∧ d.key = k ∧
      unframe plain = some (d.seq, d.payload) := by
  refine decrypts_of_sent hS ?_ hC.data hsent hdec
  rintro dst pkt (hi | hr)
  · obtain ⟨e, x, rfl, -⟩ := hC.initiations dst pkt hi
    exact ⟨_, _, _, rfl⟩
  · exact absurd hr (hC.responses dst pkt)

/-- What the responder reads from a datagram of the initiator: an offer of the initiator. -/
theorem ClientEnd.opened (hS : S.Ideal) (hC : ClientEnd T a) {dst : SockAddr} {pkt : S.Wire}
    {ini : Initiation S} (hsent : (dst, pkt) ∈ datagrams a.2)
    (hini : openInitiation pkt T.server.pskKey T.server.staticKey = some ini) :
    ∃ ce, ini.clientEphPub = S.pubOf ce ∧ S.pubOf ce ≠ T.client.staticPub ∧
      ini.clientStaticPub = T.client.staticPub ∧
      S.x25519 T.server.staticKey (S.pubOf ce) = some ini.ecdhEcSs ∧
      ephPubOf T.client pkt = some (S.pubOf ce) ∧ S.pubOf ce ∈ (clientOf T a).offered := by
  obtain ⟨enc, mac, hf, -, hx, hid⟩ := openInitiation_eq_some hini
  rw [T.samePsk] at hf
  have heph : ephPubOf T.client pkt = some ini.clientEphPub := by
    rw [ephPubOf, hf]
    rfl
  rcases mem_datagrams.mp hsent with hi | hr | ⟨d, hd, -, rfl⟩
  · obtain ⟨ce, x, rfl, hstatic⟩ := hC.initiations dst pkt hi
    rw [hsFields_initiationPacket hS.toLawful] at hf
    obtain ⟨hce, hrest⟩ := Prod.mk.inj (Option.some.inj hf)
    obtain ⟨rfl, -⟩ := Prod.mk.inj hrest
    rw [← hce] at hx heph
    refine ⟨ce, hce.symm, hstatic, (decryptIdentity_eq_some hS hid).2.symm, hx, heph, _, ?_, heph⟩
    exact mem_wires.mpr ⟨dst, hsent⟩
  · exact absurd hr (hC.responses dst pkt)
  · obtain ⟨iv, hpkt⟩ := hC.data d hd
    rw [hpkt, hS.hsFields_encrypt] at hf
    cases hf

theorem Answers.mono {tr ev : List (Event S)} {w : S.Wire} (h : Answers T tr w) :
    Answers T (tr ++ ev) w := by
  obtain ⟨hs, i, hw, hi, hrest⟩ := h
  exact ⟨hs, i, hw, List.mem_append_left _ hi, hrest⟩

theorem history_append (tr ev : List (Event S)) :
    history T (tr ++ ev) = ((installs ev).map Install.key).reverse ++ history T tr := by
  simp [history]

/-- Every key so far was derived from an ephemeral key that was sent, whatever is sent later. -/
theorem ServerEnd.keys_mono (hR : ServerEnd T b) {ws : List S.Wire} (hws : wires b.2 ⊆ ws) :
    ∀ k ∈ history T b.2, ∃ input : KeyInput S, k = deriveSessionKey input ∧
      (input.serverEphPub = T.first.serverEphPub ∨
        ∃ w ∈ ws, ephPubOf T.server w = some input.serverEphPub) := by
  intro k hmem
  obtain ⟨input, hkey, hused⟩ := hR.keys k hmem
  refine ⟨input, hkey, hused.imp_right ?_⟩
  rintro ⟨w, hw, he⟩
  exact ⟨w, hws hw, he⟩

section Work

variable {inp : Input S} {ev : List (Event S)} {n' : Node S}

theorem history_work (hw : Works T.server inp b.1 ev n') :
    history T (b.2 ++ ev) = history T b.2 := by
  have hnil : installs ev = [] := List.eq_nil_iff_forall_not_mem.mpr fun i hi =>
    hw.no_install i (mem_installs.mp hi)
  rw [history_append, hnil]
  rfl

/-- The responder has no endpoint to send an initiation to. -/
theorem ServerEnd.no_initiation (hR : ServerEnd T b) (hw : Works T.server inp b.1 ev n')
    (dst : SockAddr) (pkt : S.Wire) : .initSent dst pkt ∉ ev := by
  intro hmem
  obtain ⟨idx, -, -, hend, -⟩ := hw.emits_of hmem nofun nofun
  rw [hR.noEndpoint idx] at hend
  cases hend

/-- What is sent while the responder works is data, which carries no ephemeral key. -/
theorem ServerEnd.wires_work (hS : S.Ideal) (hR : ServerEnd T b)
    (hw : Works T.server inp b.1 ev n') {w : S.Wire} (hmem : w ∈ wires (b.2 ++ ev)) :
    w ∈ wires b.2 ∨ ephPubOf T.server w = none := by
  rw [wires_append] at hmem
  rcases List.mem_append.mp hmem with hold | hnew
  · exact .inl hold
  · obtain ⟨dst, hsent⟩ := mem_wires.mp hnew
    rcases mem_datagrams.mp hsent with hi | hr | ⟨d, hd, -, rfl⟩
    · exact absurd hi (hR.no_initiation hw dst w)
    · exact absurd hr (hw.no_response dst w)
    · obtain ⟨iv, hpkt⟩ := hw.framed hd
      rw [ephPubOf, hpkt, hS.hsFields_encrypt]
      exact .inr rfl

/-- The responder starts no handshake. -/
theorem ServerEnd.idle_work (hR : ServerEnd T b) (hw : Works T.server inp b.1 ev n')
    (j : Fin MAX_PEERS) : (n'.pendingHs j).active = false := by
  apply Bool.eq_false_iff.mpr
  intro hact
  rcases hw.pending j hact with hold | hnew
  · rw [hold, hR.idle j] at hact
    cases hact
  · have hend := hnew.hasEndpoint
    rw [hR.noEndpoint] at hend
    cases hend

/-- The responder works without answering an initiation. -/
theorem ServerEnd.work (hS : S.Ideal) (hR : ServerEnd T b) (hw : Works T.server inp b.1 ev n')
    (halive : (n'.table.sessions T.serverSlot).active = true) :
    ServerEnd T (n', b.2 ++ ev) := by
  have hk := hw.keeps T.serverSlot
  refine ⟨hR.session.keeps hw.slots hw.keeps halive, hR.idle_work hw, ?_, ?_, ?_, ?_, ?_, ?_, ?_,
    ?_, ?_⟩
  · intro idx
    have hend : (n'.config idx).hasEndpoint = (b.1.config idx).hasEndpoint :=
      congrArg (fun x => x.2.2) (config_fixed hw.configs idx)
    rw [hend]
    exact hR.noEndpoint idx
  · show _ ∈ n'.peerConfigs.map PeerConfig.pub
    rw [configs_pub hw.configs]
    exact hR.configured
  · obtain ⟨e, hpre, hfirst, hunused⟩ := hR.precomp
    refine ⟨e, hw.precomp.trans hpre, hfirst, ?_⟩
    intro w hmem
    rcases hR.wires_work hS hw hmem with hold | hnone
    · exact hunused w hold
    · rw [hnone]
      rintro ⟨⟩
  · intro dst pkt hmem
    rcases List.mem_append.mp hmem with hold | hnew
    · exact hR.initiations dst pkt hold
    · exact hR.no_initiation hw dst pkt hnew
  · intro dst w hmem
    rcases List.mem_append.mp hmem with hold | hnew
    · exact (hR.responses dst w hold).mono
    · exact absurd hnew (hw.no_response dst w)
  · intro d hmem
    rcases List.mem_append.mp hmem with hold | hnew
    · exact hR.data d hold
    · exact hw.framed hnew
  · show ∃ older, history T (b.2 ++ ev) = _ :: older
    rw [history_work hw, hk.sessionKey]
    exact hR.latest
  · show ∀ p rest, history T (b.2 ++ ev) = _ :: p :: rest → _
    rw [history_work hw, hk.sessionKey, hk.prevSessionKey, hk.prevKeyExpires, hk.lastHandshake]
    exact hR.previous
  · show ∀ k ∈ history T (b.2 ++ ev), ∃ input : KeyInput S, k = _ ∧
      (_ ∨ ∃ w ∈ wires (b.2 ++ ev), _)
    rw [history_work hw, wires_append]
    exact hR.keys_mono (List.subset_append_left _ _)

theorem ServerEnd.work_step (hS : S.Ideal) (hC : ClientEnd T a) (hR : ServerEnd T b)
    (hG : Undisturbed T T.server T.serverSlot T.serverAddr T.clientAddr b a.2 inp)
    (hw : Works T.server inp b.1 ev n') :
    Rekeying.ServerStep (clientOf T a) (serverOf T b) (serverOf T (n', b.2 ++ ev)) := by
  have hdel : ∀ pkt plain, inp.carries pkt →
      S.decryptPacket (b.1.table.sessions T.serverSlot).sessionKey pkt = some plain →
      ∃ d, .dataSent d ∈ a.2 ∧ d.dst = T.serverAddr ∧
        d.key = (b.1.table.sessions T.serverSlot).sessionKey ∧
        unframe plain = some (d.seq, d.payload) := fun pkt plain hc hdec =>
    hC.decrypts hS (hG.carried hc) hdec
  apply Rekeying.ServerStep.work
  · exact (hw.keeps T.serverSlot).sessionKey
  · exact congrArg List.tail (history_work hw)
  · apply Set.eq_of_subset_of_subset
    · rintro p ⟨i, hi, hrest⟩
      rcases List.mem_append.mp hi with hold | hnew
      · exact ⟨i, hold, hrest⟩
      · exact absurd hnew (hw.no_install i)
    · rintro p ⟨i, hi, hrest⟩
      exact ⟨i, List.mem_append_left _ hi, hrest⟩
  · exact hw.seq_le hG.room
  · intro k q hkq
    rcases dataTo_append hkq with hold | hnew
    · exact .inl hold
    · exact .inr (hw.sent hR.session hG.room hnew)
  · intro x hx
    exact hw.seen hdel hx
  · exact hw.keepsPrev hdel

end Work

/-- What the responder answers a datagram of the initiator with. -/
theorem ServerEnd.responds (hS : S.Ideal) (hC : ClientEnd T a) {d : Datagram S}
    {resp : S.Wire} {dst : SockAddr} (hsent : (dst, d.pkt) ∈ datagrams a.2)
    (hresp : (handshakeServerRespond d.pkt T.server.pskKey T.server.staticKey T.server.staticPub
      b.1.precompEphKey d.sendOk).sent = some resp) :
    ∃ h : Handshake T, b.1.precompEphKey = some h.se ∧ resp = h.response ∧
      ephPubOf T.client d.pkt = some (S.pubOf h.ce) ∧ S.pubOf h.ce ∈ (clientOf T a).offered ∧
      (handshakeServerRespond d.pkt T.server.pskKey T.server.staticKey T.server.staticPub
        b.1.precompEphKey d.sendOk).done = some (T.client.staticPub, h.key) := by
  obtain ⟨ini, se, y, hini, hpre, hy, -, rfl, hdone⟩ := handshakeServerRespond_sent hresp
  obtain ⟨ce, hce, hstatic, hpub, hx, heph, hoffer⟩ := hC.opened hS hsent hini
  obtain ⟨z, hz⟩ := Option.isSome_iff_exists.mp (hS.x25519_isSome se T.client.staticKey)
  rw [hce] at hy
  refine ⟨⟨ce, se, y, z, ini.ecdhEcSs, hy, hz, hx, hstatic⟩, hpre, ?_, heph, hoffer, ?_⟩
  · rw [Handshake.response, T.samePsk]
  · rw [hdone, serverKeyInput, hpub, hce, show S.x25519 se T.client.staticPub = some z from hz]
    rfl

/-- The responder after it has answered and installed the key. -/
def answered (T : Tunnel S) (n : Node S) (d : Datagram S) (h : Handshake T)
    (cfg : PeerConfig S) : Node S :=
  installAt T.server (refreshPrecompEph n d.fresh) d T.serverSlot n.table T.client.staticPub h.key
    cfg false

/-- What is installed. -/
def answerInstall (T : Tunnel S) (d : Datagram S) (h : Handshake T) : Install S :=
  ⟨T.serverSlot, T.client.staticPub, h.key, d.src, d.pkt, false, d.clock⟩

def answerEvents (T : Tunnel S) (d : Datagram S) (h : Handshake T) : List (Event S) :=
  [.respSent d.src h.response, .hsDone T.client.staticPub h.key, .installed (answerInstall T d h)]

section Answer

variable {d : Datagram S} {h : Handshake T} {cfg : PeerConfig S}

theorem answered_session (n : Node S) : (answered T n d h cfg).table.sessions T.serverSlot
    = sessionInit T.server.toSettings (n.table.sessions T.serverSlot) d.src T.client.staticPub
      h.key (some cfg) false d.clock := by
  rw [answered, installAt_sessions_self, refreshPrecompEph_table]

theorem mem_answerEvents {i : Install S} :
    .installed i ∈ answerEvents T d h ↔ i = answerInstall T d h := by
  simp [answerEvents]

theorem wires_answer (tr : List (Event S)) :
    wires (tr ++ answerEvents T d h) = wires tr ++ [h.response] :=
  wires_append tr (answerEvents T d h)

theorem history_answer (tr : List (Event S)) :
    history T (tr ++ answerEvents T d h) = h.key :: history T tr :=
  history_append tr (answerEvents T d h)

theorem ephPubOf_response (hS : S.Ideal) :
    ephPubOf T.server h.response = some (S.pubOf h.se) := by
  rw [ephPubOf, T.samePsk, Handshake.response, hsFields_responsePacket hS.toLawful]
  rfl

theorem ServerEnd.answer_session (hR : ServerEnd T b)
    (hG : Undisturbed T T.server T.serverSlot T.serverAddr T.clientAddr b a.2 (.udp d)) :
    HasSession T.serverSlot T.clientAddr T.client.staticPub (answered T b.1 d h cfg) := by
  have hses : HasSession T.serverSlot T.clientAddr T.client.staticPub
      (refreshPrecompEph b.1 d.fresh) := by
    refine ⟨?_, ?_, ?_, ?_, ?_⟩ <;> rw [refreshPrecompEph_table]
    · exact hR.session.below
    · exact hR.session.active
    · exact hR.session.staticPub
    · exact hR.session.addr
    · exact hR.session.only
  have hinstall := hses.install T.server (hG.delivered d rfl).1 h.key cfg false
  rw [refreshPrecompEph_table] at hinstall
  exact hinstall

/-- The next precomputed key is unused. -/
theorem ServerEnd.answer_precomp (hS : S.Ideal)
    (hG : Undisturbed T T.server T.serverSlot T.serverAddr T.clientAddr b a.2 (.udp d))
    (hpre : b.1.precompEphKey = some h.se) :
    ∃ e, (answered T b.1 d h cfg).precompEphKey = some e ∧ S.pubOf e ≠ T.first.serverEphPub ∧
      ∀ w ∈ wires (b.2 ++ answerEvents T d h), ephPubOf T.server w ≠ some (S.pubOf e) := by
  obtain ⟨k, hk⟩ := Option.isSome_iff_exists.mp (hG.generated d rfl)
  have hfresh := hG.fresh k hk
  refine ⟨k, ?_, hfresh.first, ?_⟩
  · rw [answered, hk]
    rfl
  · rw [wires_answer]
    intro w hmem
    rcases List.mem_append.mp hmem with hold | hnew
    · exact hfresh.sent w hold
    · rw [List.mem_singleton.mp hnew, ephPubOf_response hS]
      intro heq
      exact hfresh.precomp (by rw [hpre]; exact heq)

/-- The responder answers an initiation and installs the key. -/
theorem ServerEnd.answer (hS : S.Ideal) (hR : ServerEnd T b)
    (hG : Undisturbed T T.server T.serverSlot T.serverAddr T.clientAddr b a.2 (.udp d))
    (hpre : b.1.precompEphKey = some h.se)
    (heph : ephPubOf T.client d.pkt = some (S.pubOf h.ce)) :
    ServerEnd T (answered T b.1 d h cfg, b.2 ++ answerEvents T d h) := by
  refine ⟨hR.answer_session hG, ?_, ?_, ?_, answer_precomp hS hG hpre, ?_, ?_, ?_, ?_, ?_, ?_⟩
  · intro j
    show ((refreshPrecompEph b.1 d.fresh).pendingHs j).active = false
    rw [refreshPrecompEph_pendingHs]
    exact hR.idle j
  · intro idx
    show ((refreshPrecompEph b.1 d.fresh).config idx).hasEndpoint = false
    rw [Node.config, refreshPrecompEph_peerConfigs]
    exact hR.noEndpoint idx
  · show _ ∈ (refreshPrecompEph b.1 d.fresh).peerConfigs.map PeerConfig.pub
    rw [refreshPrecompEph_peerConfigs]
    exact hR.configured
  · intro dst pkt hmem
    exact hR.initiations dst pkt (by simpa [answerEvents] using hmem)
  · intro dst w hmem
    rcases List.mem_append.mp hmem with hold | hnew
    · exact (hR.responses dst w hold).mono
    · obtain ⟨-, rfl⟩ : dst = d.src ∧ w = h.response := by simpa [answerEvents] using hnew
      exact ⟨h, answerInstall T d h, rfl, List.mem_append_right _ (mem_answerEvents.mpr rfl), heph,
        rfl⟩
  · intro d' hmem
    exact hR.data d' (by simpa [answerEvents] using hmem)
  · show ∃ older, history T (b.2 ++ answerEvents T d h) = _ :: older
    rw [history_answer, answered_session]
    exact ⟨_, rfl⟩
  · show ∀ p rest, history T (b.2 ++ answerEvents T d h) = _ :: p :: rest → _
    rw [history_answer, answered_session]
    rintro p rest heq
    -- the key before is the one the session had
    obtain ⟨older, holder⟩ := hR.latest
    rw [holder] at heq
    obtain ⟨-, heq⟩ := List.cons.inj heq
    obtain ⟨rfl, -⟩ := List.cons.inj heq
    simp [sessionInit, hR.session.active]
  · show ∀ k ∈ history T (b.2 ++ answerEvents T d h), ∃ input : KeyInput S, k = _ ∧
      (_ ∨ ∃ w ∈ wires (b.2 ++ answerEvents T d h), _)
    rw [history_answer, wires_answer]
    intro k hmem
    rcases List.mem_cons.mp hmem with rfl | hold
    · exact ⟨h.input, rfl, .inr ⟨_, List.mem_append_right _ (List.mem_singleton_self _),
        ephPubOf_response hS⟩⟩
    · exact hR.keys_mono (List.subset_append_left _ _) k hold

/-- The new key is new: two handshakes with one key would have used one ephemeral key. -/
theorem ServerEnd.answer_key_new (hS : S.Ideal) (hR : ServerEnd T b)
    (hpre : b.1.precompEphKey = some h.se) : h.key ∉ (serverOf T b).keys := by
  rw [hR.keys_eq]
  intro hmem
  obtain ⟨e, hpre', hfirst, hunused⟩ := hR.precomp
  obtain rfl := Option.some.inj (hpre.symm.trans hpre')
  obtain ⟨input, hk, hused⟩ := hR.keys h.key hmem
  have hinput := deriveSessionKey_injective hS.hashInjective hk
  rw [← hinput] at hused
  rcases hused with hfirst' | ⟨w, hw, he⟩
  · exact hfirst hfirst'
  · exact hunused w hw he

theorem ServerEnd.answer_step (hS : S.Ideal) (hR : ServerEnd T b)
    (hpre : b.1.precompEphKey = some h.se)
    (heph : ephPubOf T.client d.pkt = some (S.pubOf h.ce))
    (hoffer : S.pubOf h.ce ∈ (clientOf T a).offered) :
    Rekeying.ServerStep (clientOf T a) (serverOf T b)
      (serverOf T (answered T b.1 d h cfg, b.2 ++ answerEvents T d h)) := by
  apply Rekeying.ServerStep.answer (S.pubOf h.ce) hoffer
  · show ((answered T b.1 d h cfg).table.sessions T.serverSlot).sessionKey ∉ _
    rw [answered_session]
    exact hR.answer_key_new hS hpre
  · show (history T (b.2 ++ answerEvents T d h)).tail = _
    rw [history_answer, hR.keys_eq]
    rfl
  · show { p | ∃ i, .installed i ∈ b.2 ++ answerEvents T d h ∧ _ }
      = insert (_, ((answered T b.1 d h cfg).table.sessions T.serverSlot).sessionKey) _
    rw [answered_session]
    apply Set.eq_of_subset_of_subset
    · rintro ⟨e, k⟩ ⟨i, hi, he, hk⟩
      rcases List.mem_append.mp hi with hold | hnew
      · exact .inr ⟨i, hold, he, hk⟩
      · rw [mem_answerEvents.mp hnew] at he hk
        exact .inl (Prod.ext (Option.some.inj (he.symm.trans heph)) hk.symm)
    · rintro ⟨e, k⟩ (heq | ⟨i, hi, hrest⟩)
      · obtain ⟨rfl, rfl⟩ := Prod.mk.inj heq
        exact ⟨answerInstall T d h, List.mem_append_right _ (mem_answerEvents.mpr rfl), heph, rfl⟩
      · exact ⟨i, List.mem_append_left _ hi, hrest⟩
  · exact dataTo_of_not_sent (by simp [answerEvents]) _
  · show seenBy ((answered T b.1 d h cfg).table.sessions T.serverSlot) = ∅
    rw [answered_session]
    exact seenBy_sessionInit ..
  · show ((answered T b.1 d h cfg).table.sessions T.serverSlot).prevKeyActive = true
    rw [answered_session]
    exact hR.session.active

end Answer

theorem ServerEnd.of_case (hS : S.Ideal) (hC : ClientEnd T a) (hR : ServerEnd T b) {inp : Input S}
    (hG : Undisturbed T T.server T.serverSlot T.serverAddr T.clientAddr b a.2 inp)
    {ev : List (Event S)} {n' : Node S} (hcase : StepCase T.server b.1 inp ev n')
    (halive : (n'.table.sessions T.serverSlot).active = true) :
    ServerEnd T (n', b.2 ++ ev) ∧
      Rekeying.ServerStep (clientOf T a) (serverOf T b) (serverOf T (n', b.2 ++ ev)) := by
  cases hcase with
  | quiet h => exact ⟨hR.work hS h.works halive, hR.work_step hS hC hG h.works⟩
  | @accept d r s dl ev n' hd hf hr hdl h =>
      have hw := works_of_accept hr hdl h
      exact ⟨hR.work hS hw halive, hR.work_step hS hC hG hw⟩
  | @answer d resp hd hp hc hr =>
      -- the last secret is one of two key pairs, so it exists
      obtain ⟨h, -, -, -, -, hdone⟩ := responds hS hC (b := b) (hG.delivered d rfl).2 (by rw [hr])
      rw [hr] at hdone
      cases hdone
  | @initiator d j input hd hp hi =>
      have hact := (pendingFrom_eq_some hp).1
      rw [hR.idle j] at hact
      cases hact
  | @responder d resp pub key hd hp hc hr =>
      obtain ⟨hsrc, hsent⟩ := hG.delivered d rfl
      obtain ⟨h, hpre, hresp, heph, hoffer, hdone⟩ := responds hS hC (b := b) hsent (by rw [hr])
      rw [hr] at hdone
      obtain ⟨rfl, rfl⟩ := Prod.mk.inj (Option.some.inj hdone)
      -- the two cooldowns are about one session, and the first did not apply
      rw [hsrc, hR.session.byAddr] at hc
      have hbyPub : findSessionByPub (refreshPrecompEph b.1 d.fresh).table T.client.staticPub
          = some T.serverSlot := by
        rw [refreshPrecompEph_table]
        exact hR.session.byPub
      obtain ⟨cfg, hcfg⟩ := Option.isSome_iff_exists.mp (findPeerConfig_isSome.mpr hR.configured)
      have haccept : acceptInitiation T.server (refreshPrecompEph b.1 d.fresh) d T.client.staticPub
          h.key = (answered T b.1 d h cfg, [.installed (answerInstall T d h)]) := by
        have hcool : inCooldown T.server (refreshPrecompEph b.1 d.fresh).table d.now
            (findSessionByPub (refreshPrecompEph b.1 d.fresh).table T.client.staticPub)
              = false := by
          rw [hbyPub, refreshPrecompEph_table]
          exact hc
        have hal := allocSession_of_findSessionByPub hbyPub d.src
        rw [acceptInitiation_of_checks (by rw [refreshPrecompEph_peerConfigs, hcfg]) hcool,
          installSession_of_some hal, refreshPrecompEph_table]
        rfl
      rw [haccept, hresp]
      exact ⟨hR.answer hS hG hpre heph, hR.answer_step hS hpre heph hoffer⟩

/-- **A step of the responder** is a step of the server of the abstract protocol. -/
theorem ServerEnd.step (hS : S.Ideal) (hC : ClientEnd T a) (hR : ServerEnd T b) {inp : Input S}
    (hG : Undisturbed T T.server T.serverSlot T.serverAddr T.clientAddr b a.2 inp) :
    ServerEnd T ((node T.server).next b inp) ∧
      Rekeying.ServerStep (clientOf T a) (serverOf T b)
        (serverOf T ((node T.server).next b inp)) :=
  hR.of_case hS hC hG (step_cases T.server b.1 inp) hG.alive

end Server

end Lanecove
