import Lanecove.Basic.Checked
import Lanecove.Peer.Buffers

set_option autoImplicit false

/-! # The accesses of a worker thread to its buffers

`Peer/Buffers.lean` follows what the arrays of a worker thread hold. This file follows every single
access to them, in the order of the source and with the `int` lengths of the source: the byte that
decides whether a packet is IPv4, the fields of a handshake packet one by one, the tag at the end of
a datagram. The lengths `plain_len`, `payload_len` and `ciphertext_len` are checked where they are
computed. Each function is compared with the one that computes on byte strings, which it refines, so
nothing here can stop with a fault (`worker_accesses_in_bounds`).
-/

namespace Lanecove

namespace WorkerCode

open Checked (BufferOf read write length)

variable {O : OpenSSL}

/-- Code on the arrays of a worker thread. -/
abbrev Code (β : Type) : Type := Checked WorkerBufs β

def buffer : BufferOf WorkerBufs UInt8 BUFFER_SIZE :=
  ⟨WorkerBufs.buffer, fun b x => { b with buffer := x }⟩

def plainBuf : BufferOf WorkerBufs UInt8 (HEADER_SIZE + SEQ_SIZE + BUFFER_SIZE) :=
  ⟨WorkerBufs.plainBuf, fun b x => { b with plainBuf := x }⟩

def wireBuf : BufferOf WorkerBufs UInt8 (BUFFER_SIZE + WIRE_OVERHEAD) :=
  ⟨WorkerBufs.wireBuf, fun b x => { b with wireBuf := x }⟩

/-! ## Encryption and decryption -/

/-- `encrypt_packet` from `plain_buf` to `wire_buf`; the result is `out_len`. If it fails
(`iv = none`), it has by then done at most what it does under some IV `late` up to the tag. -/
def encryptPacket (O : OpenSSL) (key : Bytes 32) (iv : Option (Bytes 12)) (late : Bytes 12)
    (plainLen : Int) : Code (Option Int) := do
  let plain ← read plainBuf 0 plainLen
  let c := O.gcmEncrypt key (iv.getD late) plain
  let ciphertextLen ← length c.1.length
  write wireBuf CRYPTO_IV_LEN c.1
  write wireBuf (CRYPTO_IV_LEN + ciphertextLen) c.2.toList
  match iv with
  | none => pure none
  | some iv =>
      write wireBuf 0 iv.toList
      pure (some (CRYPTO_IV_LEN + ciphertextLen + CRYPTO_TAG_LEN))

/-- `decrypt_packet` from `wire_buf` to `plain_buf`; the result is `out_len`. -/
def decryptPacket (U : O.Update) (key : Bytes 32) (inLen : Int) : Code (Option Int) :=
  if inLen < CRYPTO_OVERHEAD then pure none
  else do
    let ciphertextLen ← length (inLen - CRYPTO_OVERHEAD)
    let tag ← read wireBuf (inLen - CRYPTO_TAG_LEN) CRYPTO_TAG_LEN
    let iv ← read wireBuf 0 CRYPTO_IV_LEN
    let c ← read wireBuf CRYPTO_IV_LEN ciphertextLen
    let out := U.gcmUpdate key (slice iv 0 12) c
    write plainBuf 0 out
    if (O.gcmDecrypt key (slice iv 0 12) c (slice tag 0 16)).isSome then pure (some out.length)
    else pure none

/-! ## Sending -/

/-- `payload_len` bytes from `payload` on. -/
def readPayload (len : Int) : PayloadAt → Code (List UInt8)
  | .buffer => read buffer 0 len
  | .plainBuf => read plainBuf (HEADER_SIZE + SEQ_SIZE) len

/-- `if (payload_len > 0) memcpy(plain_buf + HEADER_SIZE + SEQ_SIZE, payload, payload_len)`. -/
def copyPayload (src : PayloadAt) (payloadLen : Int) : Code Unit :=
  if 0 < payloadLen then do
    let data ← readPayload payloadLen src
    write plainBuf (HEADER_SIZE + SEQ_SIZE) data
  else pure ()

/-- `forward_to_peer`. -/
def forwardToPeer (s : Session O.suite) (src : PayloadAt) (payloadLen : Int)
    (iv : Option (Bytes 12)) (late : Bytes 12) (sendOk : Bool) (now : Int) :
    Code (Session O.suite × List Output) := do
  let s' := { s with sendSeq := s.sendSeq + 1 }
  write plainBuf 0 pktHeader
  write plainBuf HEADER_SIZE (be64 s.sendSeq)
  copyPayload src payloadLen
  match ← encryptPacket O s.sessionKey iv late (HEADER_SIZE + SEQ_SIZE + payloadLen) with
  | none => pure (s', [])
  | some encLen =>
      let pkt ← read wireBuf 0 encLen
      if sendOk then pure ({ s' with lastSent := now }, [.udp s.addr pkt]) else pure (s', [])

/-- `len >= 20 && (p[0] >> 4) == 4` for a packet at offset `off`. -/
def isIpv4At {n : Nat} (a : BufferOf WorkerBufs UInt8 n) (off len : Int) : Code Bool :=
  if 20 ≤ len then do
    let first ← read a off 1
    pure (decide (first.headD 0 >>> 4 = 4))
  else pure false

/-- `ntohl(*(uint32_t *) p)`. -/
def readIp {n : Nat} (a : BufferOf WorkerBufs UInt8 n) (off : Int) : Code (BitVec 32) := do
  let bytes ← read a off 4
  pure (BitVec.ofNat 32 (beNat bytes))

/-- The TUN branch of `worker_loop`. -/
def tunBranch (n : Node O.suite) (packet : List UInt8) (iv : Option (Bytes 12)) (late : Bytes 12)
    (sendOk : Bool) (now : Int) : Code (Node O.suite × List Output) := do
  write buffer 0 (packet.take BUFFER_SIZE)
  let nr : Int := (packet.take BUFFER_SIZE).length
  if ← isIpv4At buffer 0 nr then
    let dstIp ← readIp buffer 16
    match routeLookup n.table dstIp with
    | none => pure (n, [])
    | some i =>
        let (s, out) ← forwardToPeer (n.table.sessions i) .buffer nr iv late sendOk now
        pure (n.setSession i s, out)
  else pure (n, [])

/-! ## Data packets -/

/-- The two decryption attempts of the data branch. -/
def decryptSession (U : O.Update) (s : Session O.suite) (nr now : Int) :
    Code (Session O.suite × Option (Bool × Int)) := do
  match ← decryptPacket U s.sessionKey nr with
  | some plainLen =>
      pure ({ s with lastSeen := now, prevKeyActive := false }, some (false, plainLen))
  | none =>
      if s.prevKeyActive && decide (now ≤ s.prevKeyExpires) then
        let r ← decryptPacket U s.prevSessionKey nr
        pure ({ s with lastSeen := now }, r.map fun plainLen => (true, plainLen))
      else pure ({ s with lastSeen := now }, none)

/-- `plain_len >= HEADER_SIZE + SEQ_SIZE && memcmp(plain_buf, pkt_header, HEADER_SIZE) == 0`. -/
def goodHeader (plainLen : Int) : Code Bool :=
  if HEADER_SIZE + SEQ_SIZE ≤ plainLen then do
    let magic ← read plainBuf 0 HEADER_SIZE
    pure (decide (magic = pktHeader))
  else pure false

/-- The replay check of a decrypted packet: the session after it, and `replay`. -/
def replayCheck (s : Session O.suite) (usedPrev : Bool) (plainLen : Int) :
    Code (Session O.suite × Bool) := do
  if ← goodHeader plainLen then
    let seq ← read plainBuf HEADER_SIZE SEQ_SIZE
    if usedPrev then pure (s, false)
    else
      match checkReplay (BitVec.ofNat 64 (beNat seq)) s.recvSeq with
      | none => pure (s, true)
      | some r => pure ({ s with recvSeq := r }, false)
  else pure (s, false)

/-- The check of the source address. -/
def sourceCheck (s : Session O.suite) (payloadLen : Int) : Code Bool :=
  if 0 < s.routes.length then do
    if ← isIpv4At plainBuf (HEADER_SIZE + SEQ_SIZE) payloadLen then
      let srcIp ← readIp plainBuf (HEADER_SIZE + SEQ_SIZE + 12)
      pure (checkAllowedSrc s srcIp)
    else pure true
  else pure true

/-- The session a payload is relayed to. -/
def relayCheck (tb : SessionTable O.suite) (i : Fin MAX_PEERS) (payloadLen : Int) :
    Code (Option (Fin MAX_PEERS)) := do
  if ← isIpv4At plainBuf (HEADER_SIZE + SEQ_SIZE) payloadLen then
    let dstIp ← readIp plainBuf (HEADER_SIZE + SEQ_SIZE + 16)
    match routeLookup tb dstIp with
    | none => pure none
    | some f => pure (if f ≠ i then some f else none)
  else pure none

/-- The end of the data branch. -/
def deliver (n : Node O.suite) (i : Fin MAX_PEERS) (plainLen : Int) (iv : Option (Bytes 12))
    (late : Bytes 12) (sendOk : Bool) (now : Int) : Code (Node O.suite × List Output) := do
  let payloadLen ← length (plainLen - HEADER_SIZE - SEQ_SIZE)
  if payloadLen = 0 then pure (n, [])
  else if ← sourceCheck (n.table.sessions i) payloadLen then
    match ← relayCheck n.table i payloadLen with
    | some f =>
        let (s, out) ← forwardToPeer (n.table.sessions f) .plainBuf payloadLen iv late sendOk now
        pure (n.setSession f s, out)
    | none =>
        -- `write(tun_fd, payload, payload_len)`
        let data ← readPayload payloadLen .plainBuf
        pure (n, [.tun data])
  else pure (n, [])

/-- The data branch of `worker_loop`. -/
def dataBranch (U : O.Update) (n : Node O.suite) (src : SockAddr) (nr now clock : Int)
    (iv : Option (Bytes 12)) (late : Bytes 12) (sendOk : Bool) :
    Code (Node O.suite × List Output) :=
  match findSessionByAddr n.table src with
  | none => pure (n, [])
  | some i => do
      match ← decryptSession U (n.table.sessions i) nr now with
      | (s, none) => pure (n.setSession i s, [])
      | (s, some (usedPrev, len)) =>
          let plainLen ← length len
          let (s, replay) ← replayCheck s usedPrev plainLen
          if ← goodHeader plainLen then
            if replay then pure (n.setSession i s, [])
            else deliver (n.setSession i s) i plainLen iv late sendOk clock
          else pure (n.setSession i s, [])

/-! ## Handshake packets -/

/-- The 32 bytes of the ephemeral key in `wire_buf`. -/
def readEphPub (O : OpenSSL) : Code O.suite.Block := do
  let bytes ← read wireBuf HEADER_SIZE DH_PUBKEY_LEN
  pure (show Bytes 32 from slice bytes 0 32)

/-- The HMAC check: over ephemeral key and identity, against the last 32 bytes. -/
def checkHmac (O : OpenSSL) (pskKey : Option O.suite.Block) : Code Bool :=
  match pskKey with
  | none => pure true
  | some k => do
      let msg ← read wireBuf HEADER_SIZE (DH_PUBKEY_LEN + HS_ENCRYPTED_PUB_LEN)
      let mac ← read wireBuf (HEADER_SIZE + DH_PUBKEY_LEN + HS_ENCRYPTED_PUB_LEN) HMAC_LEN
      pure (decide (slice mac 0 32 = O.hmacSha256 k msg))

/-- The checks both receiving functions start with: size, magic, HMAC. -/
def checkHandshake (O : OpenSSL) (pskKey : Option O.suite.Block) (len : Int) : Code Bool :=
  if len = OpenSSL.handshakeSize pskKey.isSome then do
    let magic ← read wireBuf 0 HEADER_SIZE
    if magic = pktHeader then checkHmac O pskKey else pure false
  else pure false

/-- `decrypt_identity` on the 48 bytes behind the ephemeral key: the tag, then the ciphertext. -/
def decryptIdentity (O : OpenSSL) (keyMaterial : O.suite.Block) : Code (Option O.suite.Block) := do
  let tag ← read wireBuf (HEADER_SIZE + DH_PUBKEY_LEN + DH_PUBKEY_LEN) CRYPTO_TAG_LEN
  let c ← read wireBuf (HEADER_SIZE + DH_PUBKEY_LEN) DH_PUBKEY_LEN
  pure (Lanecove.decryptIdentity keyMaterial (show Bytes 48 from slice (c ++ tag) 0 48))

/-- `handshake_client_recv`. -/
def handshakeClientRecv (len : Int) (pskKey : Option O.suite.Block) (staticKey : O.suite.Priv)
    (staticPub serverStaticPub : O.suite.Block) (state : HsClientState O.suite) :
    Code (Option O.suite.Block × HsClientState O.suite) := do
  if ← checkHandshake O pskKey len then
    let serverEphPub ← readEphPub O
    match state.ephKey.bind fun ephKey => O.suite.x25519 ephKey serverEphPub with
    | none => pure (none, state)
    | some ecdhEph =>
        match ← decryptIdentity O ecdhEph with
        | none => pure (none, state)
        | some serverStaticPubRecv =>
            if serverStaticPubRecv = serverStaticPub then
              let serverEphPub ← readEphPub O
              match O.suite.x25519 staticKey serverEphPub with
              | none => pure (none, state)
              | some ecdhScEs =>
                  let serverEphPub ← readEphPub O
                  pure (some (deriveSessionKey (S := O.suite) ⟨ecdhEph, ecdhScEs, state.ecdhEcSs,
                    state.ephPub, serverEphPub, staticPub, serverStaticPubRecv⟩),
                    { state with ephKey := none })
            else pure (none, state)
  else pure (none, state)

/-- `handshake_server_respond`. -/
def handshakeServerRespond (len : Int) (pskKey : Option O.suite.Block) (staticKey : O.suite.Priv)
    (staticPub : O.suite.Block) (precompEphKey : Option O.suite.Priv) (sendOk : Bool) :
    Code (Response O.suite) := do
  if ← checkHandshake O pskKey len then
    let clientEphPub ← readEphPub O
    match O.suite.x25519 staticKey clientEphPub with
    | none => pure ⟨none, none⟩
    | some ecdhEcSs =>
        match ← decryptIdentity O ecdhEcSs with
        | none => pure ⟨none, none⟩
        | some clientStaticPub =>
            let clientEphPub ← readEphPub O
            match precompEphKey with
            | none => pure ⟨none, none⟩
            | some ephKey =>
                match O.suite.x25519 ephKey clientEphPub with
                | none => pure ⟨none, none⟩
                | some ecdhEph =>
                    if sendOk then
                      let resp := responsePacket (S := O.suite) pskKey staticPub ephKey ecdhEph
                      match O.suite.x25519 ephKey clientStaticPub with
                      | none => pure ⟨some resp, none⟩
                      | some ecdhScEs =>
                          let clientEphPub ← readEphPub O
                          pure ⟨some resp, some (clientStaticPub, deriveSessionKey (S := O.suite)
                            ⟨ecdhEph, ecdhScEs, ecdhEcSs, clientEphPub, O.suite.pubOf ephKey,
                              clientStaticPub, staticPub⟩)⟩
                    else pure ⟨none, none⟩
  else pure ⟨none, none⟩

/-- What the handshake branch does with the result of `handshake_client_recv`. -/
def outboundResult {S : Suite} (ctx : LoopCtx S) (n : Node S) (j : Fin MAX_PEERS)
    (d : Datagram S) : Option S.Block × HsClientState S → Node S × List (Event S)
  | (some key, st) =>
      let p := n.pendingHs j
      let cfg := n.config p.cfgIdx
      let r := installSession ctx (n.setPending j { p with active := false, hsState := st }) d
        cfg.pub key cfg true
      (r.1, .hsDone cfg.pub key :: r.2)
  | (none, st) =>
      let p := n.pendingHs j
      ({ n.setPending j { p with active := false, hsState := st } with
          table := clearRekeying n.table (n.config p.cfgIdx).pub }, [])

/-- What the handshake branch does with the result of `handshake_server_respond`. -/
def inboundResult {S : Suite} (ctx : LoopCtx S) (n : Node S) (d : Datagram S) (r : Response S) :
    Node S × List (Event S) :=
  let sent := (r.sent.map (Event.respSent d.src)).toList
  match r.done with
  | none => (n, sent)
  | some (pub, key) =>
      let q := acceptInitiation ctx (refreshPrecompEph n d.fresh) d pub key
      (q.1, sent ++ .hsDone pub key :: q.2)

theorem outboundResponse_eq {S : Suite} (ctx : LoopCtx S) (n : Node S) (j : Fin MAX_PEERS)
    (d : Datagram S) :
    outboundResponse ctx n j d = outboundResult ctx n j d (Lanecove.handshakeClientRecv d.pkt
      ctx.pskKey ctx.staticKey ctx.staticPub (n.config (n.pendingHs j).cfgIdx).pub
      (n.pendingHs j).hsState) := by
  unfold outboundResponse outboundResult
  rfl

theorem inboundHandshake_eq {S : Suite} (ctx : LoopCtx S) (n : Node S) (d : Datagram S) :
    inboundHandshake ctx n d =
      if inCooldown ctx n.table d.now (findSessionByAddr n.table d.src) then (n, [])
      else inboundResult ctx n d (Lanecove.handshakeServerRespond d.pkt ctx.pskKey ctx.staticKey
        ctx.staticPub n.precompEphKey d.sendOk) := by
  unfold inboundHandshake inboundResult
  rfl

/-- The handshake branch of `worker_loop`. -/
def handshakeBranch (ctx : LoopCtx O.suite) (n : Node O.suite) (d : Datagram O.suite) (nr : Int) :
    Code (Node O.suite × List (Event O.suite)) :=
  match pendingFrom n d.src with
  | some j => do
      let p := n.pendingHs j
      let r ← handshakeClientRecv nr ctx.pskKey ctx.staticKey ctx.staticPub (n.config p.cfgIdx).pub
        p.hsState
      pure (outboundResult ctx n j d r)
  | none =>
      match tieBreak ctx n d.src with
      | (n', true) => pure (n', [])
      | (n', false) =>
          if inCooldown ctx n'.table d.now (findSessionByAddr n'.table d.src) then pure (n', [])
          else do
            let r ← handshakeServerRespond nr ctx.pskKey ctx.staticKey ctx.staticPub
              n'.precompEphKey d.sendOk
            pure (inboundResult ctx n' d r)

/-- `nr == hs_size && memcmp(wire_buf, pkt_header, HEADER_SIZE) == 0`. -/
def handshakeSized (ctx : LoopCtx O.suite) (nr : Int) : Code Bool :=
  if nr = OpenSSL.handshakeSize ctx.pskKey.isSome then do
    let magic ← read wireBuf 0 HEADER_SIZE
    pure (decide (magic = pktHeader))
  else pure false

/-- The UDP branch of `worker_loop`. -/
def udpBranch (U : O.Update) (ctx : LoopCtx O.suite) (n : Node O.suite) (d : Datagram O.suite)
    (late : Bytes 12) : Code (Node O.suite × List Output) := do
  write wireBuf 0 d.received.pkt
  let nr : Int := List.length d.received.pkt
  if ← handshakeSized ctx nr then
    let (n', ev) ← handshakeBranch ctx n d.received nr
    pure (n', outputs ev)
  else dataBranch U n d.src nr d.now d.clock d.iv late d.sendOk

/-! ## The code runs as the byte strings say -/

open Checked (Runs)

variable {b b' : WorkerBufs}

theorem encryptPacket_runs {key : Bytes 32} {iv : Bytes 12} (late : Bytes 12)
    {plainLen encLen : Nat} (h : b.encryptPacket O key iv plainLen = some (b', encLen)) :
    Runs (encryptPacket O key (some iv) late plainLen) b (some (encLen : Int)) b' := by
  unfold WorkerBufs.encryptPacket at h
  simp only [Option.bind_eq_bind, Option.bind_eq_some_iff] at h
  obtain ⟨plain, hplain, w₁, hw₁, w₂, hw₂, w₃, hw₃, h⟩ := h
  obtain ⟨rfl, rfl⟩ := Prod.mk.inj (Option.some.inj h)
  unfold encryptPacket
  refine .bind (.read rfl rfl hplain) (.bind (.length (Int.natCast_nonneg _)) ?_)
  exact .bind (.write rfl hw₁) (.bind (.write rfl hw₂) (.bind (.write rfl hw₃) (.pure _)))

/-- A failing encryption makes no access that a successful one does not make. -/
theorem encryptPacket_fails {key : Bytes 32} {late : Bytes 12} {plainLen encLen : Nat}
    (h : b.encryptPacket O key late plainLen = some (b', encLen)) :
    ∃ b'', Runs (encryptPacket O key none late plainLen) b none b'' := by
  unfold WorkerBufs.encryptPacket at h
  simp only [Option.bind_eq_bind, Option.bind_eq_some_iff] at h
  obtain ⟨plain, hplain, w₁, hw₁, w₂, hw₂, -⟩ := h
  unfold encryptPacket
  refine ⟨{ b with wireBuf := w₂ }, ?_⟩
  refine .bind (.read rfl rfl hplain) (.bind (.length (Int.natCast_nonneg _)) ?_)
  exact .bind (.write rfl hw₁) (.bind (.write rfl hw₂) (.pure _))

/-- Everything that fits into `plain_buf` can be encrypted into `wire_buf`. -/
theorem exists_encryptPacket (b : WorkerBufs) (key : Bytes 32) (iv : Bytes 12) (plainLen : Nat)
    (h : plainLen ≤ HEADER_SIZE + SEQ_SIZE + BUFFER_SIZE) :
    ∃ r, b.encryptPacket O key iv plainLen = some r := by
  have hload : b.plainBuf.load 0 plainLen = some ((b.plainBuf.toList.drop 0).take plainLen) := by
    rw [Buffer.load, if_pos (by omega)]
  obtain ⟨hlen, hhold⟩ := Buffer.holds_of_load hload
  obtain ⟨b', hb', -⟩ := WorkerBufs.encryptPacket_spec (O := O) key iv hhold
  rw [hlen] at hb'
  exact ⟨_, hb'⟩

/-- The bytes of a packet that was long enough. -/
theorem slice_toList {pkt : List UInt8} {off n : Nat} (h : off + n ≤ pkt.length) :
    (slice pkt off n).toList = (pkt.drop off).take n := by
  show (pkt.drop off).takeD n 0 = _
  rw [List.takeD_eq_take]
  rw [List.length_drop]
  omega

/-- Bytes of a packet that were read by themselves. -/
theorem slice_part {pkt : List UInt8} {off n : Nat} (h : off + n ≤ pkt.length) :
    slice ((pkt.drop off).take n) 0 n = slice pkt off n := by
  refine List.Vector.toList_injective ?_
  rw [slice_toList h, slice_toList, List.drop_zero, List.take_take, Nat.min_self]
  rw [List.length_take, List.length_drop]
  omega

/-- The length of a decrypted packet is that of what was written before the tag was checked. -/
theorem length_decryptBytes (U : O.Update) (key : Bytes 32) {pkt : List UInt8}
    (h : ¬ pkt.length < CRYPTO_OVERHEAD) :
    (O.decryptBytes key pkt).map List.length =
      let iv := slice pkt 0 12
      let c := (slice pkt CRYPTO_IV_LEN (pkt.length - CRYPTO_OVERHEAD)).toList
      if (O.gcmDecrypt key iv c (slice pkt (pkt.length - CRYPTO_TAG_LEN) 16)).isSome then
        some (U.gcmUpdate key iv c).length
      else none := by
  rw [OpenSSL.decryptBytes, if_neg h]
  dsimp only
  cases hdec : O.gcmDecrypt key (slice pkt 0 12)
    (slice pkt CRYPTO_IV_LEN (pkt.length - CRYPTO_OVERHEAD)).toList
    (slice pkt (pkt.length - CRYPTO_TAG_LEN) 16) with
  | none => rfl
  | some m =>
      rw [U.gcmUpdate_of_decrypt _ _ _ _ _ hdec]
      rfl

theorem decryptPacket_runs {U : O.Update} {key : Bytes 32} {inLen : Nat} {r : Option Nat}
    (h : WorkerBufs.decryptPacket U b key inLen = some (b', r)) :
    Runs (decryptPacket U key inLen) b (r.map Nat.cast) b' := by
  unfold WorkerBufs.decryptPacket at h
  simp only [Option.bind_eq_bind, Option.bind_eq_some_iff] at h
  obtain ⟨pkt, hpkt, h⟩ := h
  obtain ⟨rfl, -⟩ := Buffer.holds_of_load hpkt
  unfold decryptPacket
  by_cases hshort : pkt.length < CRYPTO_OVERHEAD
  · rw [if_pos hshort] at h
    obtain ⟨rfl, rfl⟩ := Prod.mk.inj (Option.some.inj h)
    rw [if_pos (by omega)]
    exact .pure none
  · rw [if_neg hshort, Option.bind_eq_some_iff] at h
    obtain ⟨p, hp, h⟩ := h
    obtain ⟨rfl, rfl⟩ := Prod.mk.inj (Option.some.inj h)
    rw [if_neg (by omega)]
    have hover : CRYPTO_OVERHEAD = CRYPTO_IV_LEN + CRYPTO_TAG_LEN := rfl
    have htag := Buffer.load_part hpkt (k := pkt.length - CRYPTO_TAG_LEN)
      (l := CRYPTO_TAG_LEN) (by omega)
    have hiv := Buffer.load_part hpkt (k := 0) (l := CRYPTO_IV_LEN) (by omega)
    have hc := Buffer.load_part hpkt (k := CRYPTO_IV_LEN)
      (l := pkt.length - CRYPTO_OVERHEAD) (by omega)
    rw [Nat.zero_add] at htag hiv hc
    refine .bind (.length (by omega)) (.bind (.read (by omega) rfl htag) ?_)
    refine .bind (.read rfl rfl hiv) (.bind (.read rfl (by omega) hc) ?_)
    have hiv' : slice ((pkt.drop 0).take CRYPTO_IV_LEN) 0 12 = slice pkt 0 12 :=
      slice_part (by omega)
    have htag' : slice ((pkt.drop (pkt.length - CRYPTO_TAG_LEN)).take CRYPTO_TAG_LEN) 0 16
        = slice pkt (pkt.length - CRYPTO_TAG_LEN) 16 := slice_part (by omega)
    rw [hiv', htag', ← slice_toList (by omega), length_decryptBytes U key hshort]
    refine .bind (.write rfl hp) ?_
    dsimp only
    split
    · exact .pure _
    · exact .pure _

/-! ## Sending -/

theorem readPayload_runs {src : PayloadAt} {len : Nat} {data : List UInt8}
    (h : b.payload len src = some data) : Runs (readPayload len src) b data b := by
  cases src with
  | buffer => exact .read rfl rfl h
  | plainBuf => exact .read rfl rfl h

theorem payload_le {src : PayloadAt} {len : Nat} {data : List UInt8}
    (h : b.payload len src = some data) : len ≤ BUFFER_SIZE := by
  cases src with
  | buffer =>
      obtain ⟨rfl, hhold⟩ := Buffer.holds_of_load h
      have := hhold.le
      omega
  | plainBuf =>
      obtain ⟨rfl, hhold⟩ := Buffer.holds_of_load h
      have := hhold.le
      omega

theorem copyPayload_runs {src : PayloadAt} {len : Nat} {data : List UInt8}
    {p : Buffer UInt8 (HEADER_SIZE + SEQ_SIZE + BUFFER_SIZE)} (h : b.payload len src = some data)
    (hp : WorkerBufs.copyPayload b.plainBuf len data = some p) :
    Runs (copyPayload src len) b () { b with plainBuf := p } := by
  unfold copyPayload
  unfold WorkerBufs.copyPayload at hp
  by_cases hpos : 0 < len
  · rw [if_pos hpos] at hp
    rw [if_pos (by omega)]
    exact .bind (readPayload_runs h) (.write rfl hp)
  · rw [if_neg hpos] at hp
    obtain rfl := Option.some.inj hp
    rw [if_neg (by omega)]
    exact .pure ()

theorem forwardToPeer_runs {s s' : Session O.suite} {src : PayloadAt} {len : Nat}
    {iv : Option (Bytes 12)} (late : Bytes 12) {ok : Bool} {now : Int} {out : List Output}
    (h : b.forwardToPeer s src len iv ok now = some (s', b', out)) :
    ∃ b'', Runs (forwardToPeer s src len iv late ok now) b (s', out) b'' := by
  unfold WorkerBufs.forwardToPeer at h
  simp only [Option.bind_eq_bind, Option.bind_eq_some_iff] at h
  obtain ⟨p₁, hp₁, p₂, hp₂, data, hdata, p₃, hp₃, h⟩ := h
  have hcopy : Runs (copyPayload src len) { b with plainBuf := p₂ } () { b with plainBuf := p₃ } :=
    copyPayload_runs hdata hp₃
  unfold forwardToPeer
  cases iv with
  | none =>
      obtain ⟨rfl, -, rfl⟩ : _ ∧ _ ∧ _ := by simpa only [Option.some.injEq, Prod.mk.injEq] using h
      obtain ⟨⟨b₄, encLen⟩, henc⟩ := exists_encryptPacket (O := O) { b with plainBuf := p₃ }
        s.sessionKey late (HEADER_SIZE + SEQ_SIZE + len)
        (Nat.add_le_add_left (payload_le hdata) _)
      obtain ⟨b₅, hfail⟩ := encryptPacket_fails henc
      exact ⟨b₅, .bind (.write rfl hp₁) (.bind (.write rfl hp₂) (.bind hcopy
        (.bind hfail (.pure _))))⟩
  | some iv =>
      simp only [Option.bind_eq_some_iff] at h
      obtain ⟨⟨b₄, encLen⟩, henc, pkt, hpkt, h⟩ := h
      refine ⟨b₄, .bind (.write rfl hp₁) (.bind (.write rfl hp₂) (.bind hcopy
        (.bind (encryptPacket_runs late henc) (.bind (.read rfl rfl hpkt) ?_))))⟩
      cases ok with
      | true =>
          obtain ⟨rfl, -, rfl⟩ : _ ∧ _ ∧ _ := by
            simpa only [if_true, Option.some.injEq, Prod.mk.injEq] using h
          exact .pure _
      | false =>
          obtain ⟨rfl, -, rfl⟩ : _ ∧ _ ∧ _ := by
            simpa only [Bool.false_eq_true, if_false, Option.some.injEq, Prod.mk.injEq] using h
          exact .pure _

section Ipv4

variable {n : Nat} {a : BufferOf WorkerBufs UInt8 n} {off : Nat} {p : List UInt8}
  (h : (a.get b).load off p.length = some p)

include h

theorem isIpv4At_runs {o : Int} (ho : o = off) :
    Runs (isIpv4At a o p.length) b (isIpv4 p) b := by
  unfold isIpv4At isIpv4
  by_cases hlen : 20 ≤ p.length
  · have hfirst := Buffer.load_part h (k := 0) (l := 1) (by omega)
    have hhead : ((p.drop 0).take 1).headD 0 = p.headD 0 := by cases p <;> rfl
    rw [if_pos (by omega), decide_eq_true hlen, Bool.true_and, ← hhead]
    exact .bind (.read ho rfl hfirst) (.pure _)
  · rw [if_neg (by omega), decide_eq_false hlen, Bool.false_and]
    exact .pure false

theorem readIp_runs {o : Int} {k : Nat} (ho : o = off + k) (hk : k + 4 ≤ p.length) :
    Runs (readIp a o) b (ipAt p k) b :=
  .bind (.read (by omega) rfl (Buffer.load_part h hk)) (.pure _)

end Ipv4

/-- An IPv4 packet has room for the addresses of its header. -/
theorem length_of_isIpv4 {p : List UInt8} (h : isIpv4 p = true) : 20 ≤ p.length := by
  rw [isIpv4, Bool.and_eq_true] at h
  exact of_decide_eq_true h.1

theorem tunBranch_runs {n n' : Node O.suite} {packet : List UInt8} {iv : Option (Bytes 12)}
    (late : Bytes 12) {ok : Bool} {now : Int} {out : List Output}
    (h : b.tunBranch n packet iv ok now = some (n', b', out)) :
    ∃ b'', Runs (tunBranch n packet iv late ok now) b (n', out) b'' := by
  unfold WorkerBufs.tunBranch at h
  simp only [Option.bind_eq_bind, Option.bind_eq_some_iff] at h
  obtain ⟨buf, hbuf, p, hp, h⟩ := h
  have hlen := (Buffer.holds_of_load hp).1
  rw [← hlen] at hp h
  have hip : Runs (isIpv4At buffer 0 p.length) { b with buffer := buf } (isIpv4 p)
      { b with buffer := buf } := isIpv4At_runs hp rfl
  unfold tunBranch
  rw [← hlen]
  by_cases hv4 : isIpv4 p = true
  · have hlong := length_of_isIpv4 hv4
    have hdst : Runs (readIp buffer 16) { b with buffer := buf } (ipAt p 16)
        { b with buffer := buf } := readIp_runs hp (by omega) (by omega)
    rw [hv4] at hip
    rw [if_pos hv4] at h
    cases hroute : routeLookup n.table (ipAt p 16) with
    | none =>
        rw [hroute] at h
        obtain ⟨rfl, -, rfl⟩ : _ ∧ _ ∧ _ := by simpa only [Option.some.injEq, Prod.mk.injEq] using h
        refine ⟨{ b with buffer := buf }, .bind (.write rfl hbuf) (.bind hip (.bind hdst ?_))⟩
        rw [hroute]
        exact .pure _
    | some i =>
        rw [hroute] at h
        simp only [Option.bind_eq_some_iff] at h
        obtain ⟨⟨s, b₁, out₁⟩, hfwd, h⟩ := h
        obtain ⟨rfl, -, rfl⟩ : _ ∧ _ ∧ _ := by simpa only [Option.some.injEq, Prod.mk.injEq] using h
        obtain ⟨b₂, hrun⟩ := forwardToPeer_runs late hfwd
        refine ⟨b₂, .bind (.write rfl hbuf) (.bind hip (.bind hdst ?_))⟩
        rw [hroute]
        exact .bind hrun (.pure _)
  · rw [Bool.not_eq_true] at hv4
    rw [hv4] at hip h
    obtain ⟨rfl, -, rfl⟩ : _ ∧ _ ∧ _ := by
      simpa only [Bool.false_eq_true, if_false, Option.some.injEq, Prod.mk.injEq] using h
    exact ⟨_, .bind (.write rfl hbuf) (.bind hip (.pure _))⟩

/-! ## Data packets -/

theorem decryptSession_runs {U : O.Update} {s s' : Session O.suite} {nr : Nat} {now : Int}
    {r : Option (Bool × Nat)} (h : WorkerBufs.decryptSession U b s nr now = some (s', b', r)) :
    Runs (decryptSession U s nr now) b (s', r.map fun x => (x.1, (x.2 : Int))) b' := by
  unfold WorkerBufs.decryptSession at h
  simp only [Option.bind_eq_bind, Option.bind_eq_some_iff] at h
  obtain ⟨⟨b₁, r₁⟩, hcur, h⟩ := h
  refine .bind (decryptPacket_runs hcur) ?_
  cases r₁ with
  | some len =>
      obtain ⟨rfl, rfl, rfl⟩ : _ ∧ _ ∧ _ := by
        simpa only [Option.some.injEq, Prod.mk.injEq] using h
      exact .pure _
  | none =>
      simp only [Option.map_none]
      by_cases hprev : (s.prevKeyActive && decide (now ≤ s.prevKeyExpires)) = true
      · simp only [if_pos hprev, Option.bind_eq_some_iff] at h
        obtain ⟨⟨b₂, r₂⟩, hdec, h⟩ := h
        obtain ⟨rfl, rfl, rfl⟩ : _ ∧ _ ∧ _ := by
          simpa only [Option.some.injEq, Prod.mk.injEq] using h
        rw [if_pos hprev]
        refine .bind (decryptPacket_runs hdec) ?_
        rw [Option.map_map, Option.map_map]
        exact .pure _
      · simp only [if_neg hprev] at h
        obtain ⟨rfl, rfl, rfl⟩ : _ ∧ _ ∧ _ := by
          simpa only [Option.some.injEq, Prod.mk.injEq] using h
        rw [if_neg hprev]
        exact .pure _

theorem length_of_unframe {plain : List UInt8} {r : BitVec 64 × List UInt8}
    (h : unframe plain = some r) : HEADER_SIZE + SEQ_SIZE ≤ plain.length := by
  unfold unframe at h
  split at h
  · rename_i hcond
    exact hcond.1
  · cases h

section Frame

variable {plain : List UInt8} (h : b.plainBuf.load 0 plain.length = some plain)

include h

theorem goodHeader_runs : Runs (goodHeader plain.length) b (unframe plain).isSome b := by
  unfold goodHeader unframe
  by_cases hlen : HEADER_SIZE + SEQ_SIZE ≤ plain.length
  · rw [if_pos (by omega)]
    have hmagic := Buffer.load_part h (k := 0) (l := HEADER_SIZE) (by omega)
    refine .bind (.read rfl rfl hmagic) ?_
    rw [List.drop_zero]
    by_cases heq : plain.take HEADER_SIZE = pktHeader
    · rw [if_pos ⟨hlen, heq⟩, decide_eq_true heq]
      exact .pure true
    · rw [if_neg fun hc => heq hc.2, decide_eq_false heq]
      exact .pure false
  · rw [if_neg (by omega), if_neg fun hc => hlen hc.1]
    exact .pure false

/-- The replay check changes the session as `acceptFrame` does; `replay` is set if the header is
good and the packet is refused. -/
theorem replayCheck_runs (s : Session O.suite) (prev : Bool) :
    Runs (replayCheck s prev plain.length) b ((acceptFrame s prev plain).1,
      (unframe plain).isSome && (acceptFrame s prev plain).2.isNone) b := by
  unfold replayCheck
  refine .bind (goodHeader_runs h) ?_
  unfold acceptFrame
  cases hframe : unframe plain with
  | none => exact .pure _
  | some x =>
      obtain ⟨seq, data⟩ := x
      unfold unframe at hframe
      split at hframe
      · rename_i hcond
        obtain ⟨rfl, rfl⟩ := Prod.mk.inj (Option.some.inj hframe)
        have hseq := Buffer.load_part h (k := HEADER_SIZE) (l := SEQ_SIZE) hcond.1
        rw [Nat.zero_add] at hseq
        refine .bind (.read rfl rfl hseq) ?_
        cases prev with
        | true => exact .pure _
        | false =>
            simp only [Bool.false_eq_true, if_false]
            cases checkReplay (BitVec.ofNat 64 (beNat ((plain.drop HEADER_SIZE).take SEQ_SIZE)))
                s.recvSeq with
            | none => exact .pure _
            | some r => exact .pure _
      · cases hframe

end Frame

section Payload

variable {data : List UInt8}
  (h : (plainBuf.get b).load (HEADER_SIZE + SEQ_SIZE) data.length = some data)

include h

theorem sourceCheck_runs (s : Session O.suite) :
    Runs (sourceCheck s data.length) b (sourceAllowed s data) b := by
  unfold sourceCheck sourceAllowed
  by_cases hroutes : 0 < s.routes.length
  · rw [if_pos hroutes, decide_eq_true hroutes, Bool.true_and]
    refine .bind (isIpv4At_runs h rfl) ?_
    cases hv4 : isIpv4 data with
    | true =>
        have hlong := length_of_isIpv4 hv4
        exact .bind (readIp_runs h (k := 12) rfl (by omega)) (.pure _)
    | false => exact .pure true
  · rw [if_neg hroutes, decide_eq_false hroutes, Bool.false_and]
    exact .pure true

theorem relayCheck_runs (tb : SessionTable O.suite) (i : Fin MAX_PEERS) :
    Runs (relayCheck tb i data.length) b (relayTarget tb i data) b := by
  unfold relayCheck relayTarget
  refine .bind (isIpv4At_runs h rfl) ?_
  cases hv4 : isIpv4 data with
  | true =>
      have hlong := length_of_isIpv4 hv4
      refine .bind (readIp_runs h (k := 16) rfl (by omega)) ?_
      rw [if_pos rfl]
      cases routeLookup tb (ipAt data 16) with
      | none => exact .pure none
      | some f => exact .pure _
  | false => exact .pure none

end Payload

theorem deliver_runs {n n' : Node O.suite} {i : Fin MAX_PEERS} {len : Nat} (plainLen : Int)
    {iv : Option (Bytes 12)} (late : Bytes 12) {ok : Bool} {now : Int} {out : List Output}
    (hlen : plainLen - HEADER_SIZE - SEQ_SIZE = len)
    (h : b.deliver n i len iv ok now = some (n', b', out)) :
    ∃ b'', Runs (deliver n i plainLen iv late ok now) b (n', out) b'' := by
  unfold WorkerBufs.deliver at h
  simp only [Option.bind_eq_bind, Option.bind_eq_some_iff] at h
  obtain ⟨data, hdata, h⟩ := h
  unfold deliver
  rw [hlen]
  have hpay : Runs (length (len : Int)) b (len : Int) b := .length (Int.natCast_nonneg len)
  obtain ⟨rfl, -⟩ := Buffer.holds_of_load hdata
  by_cases hzero : data.length = 0
  · rw [if_pos hzero] at h
    obtain ⟨rfl, -, rfl⟩ : _ ∧ _ ∧ _ := by simpa only [Option.some.injEq, Prod.mk.injEq] using h
    refine ⟨b, .bind hpay ?_⟩
    rw [if_pos (by omega)]
    exact .pure _
  rw [if_neg hzero] at h
  have hpos : ¬ ((data.length : Int) = 0) := by omega
  have hsrc := sourceCheck_runs hdata (n.table.sessions i)
  by_cases hallowed : sourceAllowed (n.table.sessions i) data = true
  · rw [if_pos hallowed] at h
    rw [hallowed] at hsrc
    have hrel := relayCheck_runs hdata n.table i
    cases htarget : relayTarget n.table i data with
    | none =>
        rw [htarget] at h hrel
        obtain ⟨rfl, -, rfl⟩ : _ ∧ _ ∧ _ := by simpa only [Option.some.injEq, Prod.mk.injEq] using h
        refine ⟨b, .bind hpay ?_⟩
        rw [if_neg hpos]
        exact .bind hsrc (.bind hrel (.bind (readPayload_runs hdata) (.pure _)))
    | some f =>
        rw [htarget] at h hrel
        simp only [Option.bind_eq_some_iff] at h
        obtain ⟨⟨s, b₁, out₁⟩, hfwd, h⟩ := h
        obtain ⟨rfl, -, rfl⟩ : _ ∧ _ ∧ _ := by simpa only [Option.some.injEq, Prod.mk.injEq] using h
        obtain ⟨b₂, hrun⟩ := forwardToPeer_runs late hfwd
        refine ⟨b₂, .bind hpay ?_⟩
        rw [if_neg hpos]
        exact .bind hsrc (.bind hrel (.bind hrun (.pure _)))
  · rw [if_neg hallowed] at h
    rw [Bool.not_eq_true] at hallowed
    rw [hallowed] at hsrc
    obtain ⟨rfl, -, rfl⟩ : _ ∧ _ ∧ _ := by simpa only [Option.some.injEq, Prod.mk.injEq] using h
    refine ⟨b, .bind hpay ?_⟩
    rw [if_neg hpos]
    exact .bind hsrc (.pure _)

theorem dataBranch_runs {U : O.Update} {n n' : Node O.suite} {src : SockAddr} {nr : Nat}
    {now clock : Int} {iv : Option (Bytes 12)} (late : Bytes 12) {ok : Bool} {out : List Output}
    (h : b.dataBranch U n src nr now clock iv ok = some (n', b', out)) :
    ∃ b'', Runs (dataBranch U n src nr now clock iv late ok) b (n', out) b'' := by
  unfold WorkerBufs.dataBranch at h
  unfold dataBranch
  cases hfind : findSessionByAddr n.table src with
  | none =>
      rw [hfind] at h
      obtain ⟨rfl, -, rfl⟩ : _ ∧ _ ∧ _ := by simpa only [Option.some.injEq, Prod.mk.injEq] using h
      exact ⟨b, .pure _⟩
  | some i =>
      rw [hfind] at h
      simp only [Option.bind_eq_bind, Option.bind_eq_some_iff] at h
      obtain ⟨⟨s, b₁, r⟩, hdec, h⟩ := h
      have hrun := decryptSession_runs hdec
      cases r with
      | none =>
          obtain ⟨rfl, -, rfl⟩ : _ ∧ _ ∧ _ := by
            simpa only [Option.some.injEq, Prod.mk.injEq] using h
          exact ⟨b₁, .bind hrun (.pure _)⟩
      | some x =>
          obtain ⟨prev, plainLen⟩ := x
          simp only [Option.bind_eq_some_iff] at h
          obtain ⟨plain, hplain, h⟩ := h
          obtain ⟨rfl, -⟩ := Buffer.holds_of_load hplain
          have hlen : Runs (length (plain.length : Int)) b₁ (plain.length : Int) b₁ :=
            .length (Int.natCast_nonneg _)
          have hreplay := replayCheck_runs hplain s prev
          have hgood := goodHeader_runs hplain
          rcases hacc : acceptFrame s prev plain with ⟨s', _ | ⟨seq, data⟩⟩
          · rw [hacc] at h hreplay
            obtain ⟨rfl, -, rfl⟩ : _ ∧ _ ∧ _ := by
              simpa only [Option.some.injEq, Prod.mk.injEq] using h
            refine ⟨b₁, .bind hrun (.bind hlen (.bind hreplay (.bind hgood ?_)))⟩
            -- a bad header, or a replay
            cases (unframe plain).isSome with
            | false => exact .pure _
            | true => exact .pure _
          · have hframe := WorkerBufs.unframe_of_acceptFrame (congrArg Prod.snd hacc)
            rw [hacc] at h hreplay
            rw [hframe] at hreplay hgood
            have hlong : HEADER_SIZE + SEQ_SIZE ≤ plain.length := length_of_unframe hframe
            obtain ⟨b₂, hdel⟩ := deliver_runs plain.length late (by omega) h
            exact ⟨b₂, .bind hrun (.bind hlen (.bind hreplay (.bind hgood hdel)))⟩

/-! ## Handshake packets -/

/-- Two neighbouring parts that were read one by one. -/
theorem slice_parts {pkt : List UInt8} {off k l : Nat} (h : off + (k + l) ≤ pkt.length) :
    slice ((pkt.drop off).take k ++ (pkt.drop (off + k)).take l) 0 (k + l)
      = slice pkt off (k + l) := by
  rw [← List.drop_drop, ← List.take_add, slice_part h]

theorem hsFields_eq_some {psk : Bool} {pkt : List UInt8}
    (hsize : pkt.length = OpenSSL.handshakeSize psk) (hmagic : pkt.take HEADER_SIZE = pktHeader) :
    O.suite.hsFields psk pkt = some (slice pkt HEADER_SIZE 32,
      slice pkt (HEADER_SIZE + DH_PUBKEY_LEN) 48,
      if psk then some (slice pkt (HEADER_SIZE + DH_PUBKEY_LEN + HS_ENCRYPTED_PUB_LEN) 32)
      else none) :=
  if_pos ⟨hsize, hmagic⟩

theorem hsFields_eq_none {psk : Bool} {pkt : List UInt8}
    (h : ¬ (pkt.length = OpenSSL.handshakeSize psk ∧ pkt.take HEADER_SIZE = pktHeader)) :
    O.suite.hsFields psk pkt = none :=
  if_neg h

/-- What a packet with fields is, and where its first two fields lie. -/
theorem fields_of_hsFields {psk : Bool} {pkt : List UInt8}
    {f : O.suite.Block × O.suite.Sealed × Option O.suite.Block}
    (h : O.suite.hsFields psk pkt = some f) :
    HEADER_SIZE + DH_PUBKEY_LEN + HS_ENCRYPTED_PUB_LEN ≤ pkt.length ∧
      f.1 = (show Bytes 32 from slice pkt HEADER_SIZE 32) ∧
      f.2.1 = (show Bytes 48 from slice pkt (HEADER_SIZE + DH_PUBKEY_LEN) 48) := by
  by_cases hc : pkt.length = OpenSSL.handshakeSize psk ∧ pkt.take HEADER_SIZE = pktHeader
  · rw [hsFields_eq_some hc.1 hc.2] at h
    obtain rfl := Option.some.inj h
    refine ⟨?_, rfl, rfl⟩
    rw [hc.1, OpenSSL.handshakeSize]
    omega
  · rw [hsFields_eq_none hc] at h
    cases h

section Handshake

variable {pkt : List UInt8} (h : (wireBuf.get b).load 0 pkt.length = some pkt)

include h

/-- A field of a packet in `wire_buf`. -/
theorem field_runs (off len : Nat) (hfits : off + len ≤ pkt.length) :
    Runs (read wireBuf off len) b ((pkt.drop off).take len) b := by
  have hpart := Buffer.load_part h hfits
  rw [Nat.zero_add] at hpart
  exact .read rfl rfl hpart

theorem readEphPub_runs (hsize : HEADER_SIZE + DH_PUBKEY_LEN ≤ pkt.length) :
    Runs (readEphPub O) b (show Bytes 32 from slice pkt HEADER_SIZE 32) b := by
  unfold readEphPub
  refine .bind (field_runs h _ _ hsize) ?_
  rw [show slice ((pkt.drop HEADER_SIZE).take DH_PUBKEY_LEN) 0 32 = slice pkt HEADER_SIZE 32
    from slice_part hsize]
  exact .pure _

theorem decryptIdentity_runs (keyMaterial : O.suite.Block)
    (hsize : HEADER_SIZE + DH_PUBKEY_LEN + HS_ENCRYPTED_PUB_LEN ≤ pkt.length) :
    Runs (decryptIdentity O keyMaterial) b (Lanecove.decryptIdentity keyMaterial
      (show Bytes 48 from slice pkt (HEADER_SIZE + DH_PUBKEY_LEN) 48)) b := by
  have henc : HS_ENCRYPTED_PUB_LEN = DH_PUBKEY_LEN + CRYPTO_TAG_LEN := rfl
  unfold decryptIdentity
  refine .bind (field_runs h (HEADER_SIZE + DH_PUBKEY_LEN + DH_PUBKEY_LEN) CRYPTO_TAG_LEN
    (by omega)) ?_
  refine .bind (field_runs h (HEADER_SIZE + DH_PUBKEY_LEN) DH_PUBKEY_LEN (by omega)) ?_
  rw [show slice _ 0 48 = slice pkt (HEADER_SIZE + DH_PUBKEY_LEN) 48 from slice_parts (by omega)]
  exact .pure _

theorem checkHmac_runs (pskKey : Option O.suite.Block)
    (hsize : pkt.length = OpenSSL.handshakeSize pskKey.isSome) :
    Runs (checkHmac O pskKey) b (hmacOk (S := O.suite) pskKey (slice pkt HEADER_SIZE 32)
      (slice pkt (HEADER_SIZE + DH_PUBKEY_LEN) 48)
      (if pskKey.isSome then
        some (slice pkt (HEADER_SIZE + DH_PUBKEY_LEN + HS_ENCRYPTED_PUB_LEN) 32)
      else none)) b := by
  cases pskKey with
  | none => exact .pure true
  | some k =>
      have hlen : pkt.length
          = HEADER_SIZE + DH_PUBKEY_LEN + HS_ENCRYPTED_PUB_LEN + HMAC_LEN := hsize
      have hmac := field_runs h (HEADER_SIZE + DH_PUBKEY_LEN + HS_ENCRYPTED_PUB_LEN) HMAC_LEN
        (by omega)
      have hmsg := field_runs h HEADER_SIZE (DH_PUBKEY_LEN + HS_ENCRYPTED_PUB_LEN) (by omega)
      refine .bind hmsg (.bind hmac ?_)
      -- the HMAC is over the two fields, which lie side by side
      have hfields : (pkt.drop HEADER_SIZE).take (DH_PUBKEY_LEN + HS_ENCRYPTED_PUB_LEN)
          = (slice pkt HEADER_SIZE 32).toList
            ++ (slice pkt (HEADER_SIZE + DH_PUBKEY_LEN) 48).toList := by
        rw [slice_toList (by rw [hlen]; decide), slice_toList (by rw [hlen]; decide), List.take_add,
          List.drop_drop]
        rfl
      have hfield : slice ((pkt.drop (HEADER_SIZE + DH_PUBKEY_LEN + HS_ENCRYPTED_PUB_LEN)).take
          HMAC_LEN) 0 32 = slice pkt (HEADER_SIZE + DH_PUBKEY_LEN + HS_ENCRYPTED_PUB_LEN) 32 :=
        slice_part (by rw [hlen])
      rw [hfields, hfield]
      have hsame : decide (slice pkt (HEADER_SIZE + DH_PUBKEY_LEN + HS_ENCRYPTED_PUB_LEN) 32
            = O.hmacSha256 k ((slice pkt HEADER_SIZE 32).toList
              ++ (slice pkt (HEADER_SIZE + DH_PUBKEY_LEN) 48).toList))
          = hmacOk (S := O.suite) (some k) (slice pkt HEADER_SIZE 32)
            (slice pkt (HEADER_SIZE + DH_PUBKEY_LEN) 48)
            (some (slice pkt (HEADER_SIZE + DH_PUBKEY_LEN + HS_ENCRYPTED_PUB_LEN) 32)) :=
        decide_eq_decide.mpr (@Option.some_inj (Bytes 32) _ _).symm
      rw [hsame]
      exact .pure _

/-- The checks of the receiving functions pass if the packet has fields and the HMAC is right. -/
theorem checkHandshake_runs (pskKey : Option O.suite.Block) :
    Runs (checkHandshake O pskKey pkt.length) b
      ((O.suite.hsFields pskKey.isSome pkt).any fun f => hmacOk pskKey f.1 f.2.1 f.2.2) b := by
  unfold checkHandshake
  by_cases hsize : pkt.length = OpenSSL.handshakeSize pskKey.isSome
  · rw [if_pos (congrArg Nat.cast hsize)]
    have hheader : 0 + HEADER_SIZE ≤ pkt.length := by
      rw [hsize, OpenSSL.handshakeSize]
      omega
    refine .bind (field_runs h _ _ hheader) ?_
    rw [List.drop_zero]
    by_cases hmagic : pkt.take HEADER_SIZE = pktHeader
    · rw [if_pos hmagic, hsFields_eq_some hsize hmagic]
      exact checkHmac_runs h pskKey hsize
    · rw [if_neg hmagic, hsFields_eq_none fun hc => hmagic hc.2]
      exact .pure false
  · rw [if_neg fun hc => hsize (Int.ofNat_inj.mp hc), hsFields_eq_none fun hc => hsize hc.1]
    exact .pure false

theorem handshakeClientRecv_runs (pskKey : Option O.suite.Block) (staticKey : O.suite.Priv)
    (staticPub serverStaticPub : O.suite.Block) (state : HsClientState O.suite) :
    Runs (handshakeClientRecv pkt.length pskKey staticKey staticPub serverStaticPub state) b
      (Lanecove.handshakeClientRecv (S := O.suite) pkt pskKey staticKey staticPub serverStaticPub
        state) b := by
  unfold handshakeClientRecv Lanecove.handshakeClientRecv clientKeyInput
  have hcheck := checkHandshake_runs h pskKey
  cases hf : O.suite.hsFields pskKey.isSome pkt with
  | none =>
      rw [hf] at hcheck
      exact .bind hcheck (.pure _)
  | some f =>
      obtain ⟨ephPub, enc, mac⟩ := f
      obtain ⟨hsize, rfl, rfl⟩ := fields_of_hsFields hf
      have heph : Runs (readEphPub O) b (show Bytes 32 from slice pkt HEADER_SIZE 32) b :=
        readEphPub_runs h (by omega)
      rw [hf] at hcheck
      refine .bind hcheck ?_
      dsimp only [Option.any_some]
      split
      · refine .bind heph ?_
        cases hkey : state.ephKey with
        | none => exact .pure _
        | some ephKey =>
            dsimp only [Option.bind_some]
            cases hdh : O.suite.x25519 ephKey (show Bytes 32 from slice pkt HEADER_SIZE 32) with
            | none => exact .pure _
            | some ecdhEph =>
                refine .bind (decryptIdentity_runs h ecdhEph hsize) ?_
                dsimp only
                cases Lanecove.decryptIdentity ecdhEph
                    (show Bytes 48 from slice pkt (HEADER_SIZE + DH_PUBKEY_LEN) 48) with
                | none => exact .pure _
                | some pub =>
                    dsimp only
                    split
                    · refine .bind heph ?_
                      cases O.suite.x25519 staticKey
                          (show Bytes 32 from slice pkt HEADER_SIZE 32) with
                      | none => exact .pure _
                      | some ecdhScEs => exact .bind heph (.pure _)
                    · exact .pure _
      · exact .pure _

theorem handshakeServerRespond_runs (pskKey : Option O.suite.Block) (staticKey : O.suite.Priv)
    (staticPub : O.suite.Block) (precompEphKey : Option O.suite.Priv) (sendOk : Bool) :
    Runs (handshakeServerRespond pkt.length pskKey staticKey staticPub precompEphKey sendOk) b
      (Lanecove.handshakeServerRespond (S := O.suite) pkt pskKey staticKey staticPub precompEphKey
        sendOk) b := by
  unfold handshakeServerRespond Lanecove.handshakeServerRespond openInitiation
  have hcheck := checkHandshake_runs h pskKey
  cases hf : O.suite.hsFields pskKey.isSome pkt with
  | none =>
      rw [hf] at hcheck
      exact .bind hcheck (.pure _)
  | some f =>
      obtain ⟨ephPub, enc, mac⟩ := f
      obtain ⟨hsize, rfl, rfl⟩ := fields_of_hsFields hf
      have heph : Runs (readEphPub O) b (show Bytes 32 from slice pkt HEADER_SIZE 32) b :=
        readEphPub_runs h (by omega)
      rw [hf] at hcheck
      refine .bind hcheck ?_
      dsimp only [Option.any_some]
      split
      · refine .bind heph ?_
        dsimp only
        cases O.suite.x25519 staticKey (show Bytes 32 from slice pkt HEADER_SIZE 32) with
        | none => exact .pure _
        | some ecdhEcSs =>
            refine .bind (decryptIdentity_runs h ecdhEcSs hsize) ?_
            dsimp only
            cases Lanecove.decryptIdentity ecdhEcSs
                (show Bytes 48 from slice pkt (HEADER_SIZE + DH_PUBKEY_LEN) 48) with
            | none => exact .pure _
            | some pub =>
                refine .bind heph ?_
                cases precompEphKey with
                | none => exact .pure _
                | some ephKey =>
                    dsimp only [Option.map_some]
                    cases O.suite.x25519 ephKey (show Bytes 32 from slice pkt HEADER_SIZE 32) with
                    | none => exact .pure _
                    | some ecdhEph =>
                        cases sendOk with
                        | false => exact .pure _
                        | true =>
                            dsimp only [serverKeyInput]
                            rw [if_pos rfl, if_pos rfl]
                            cases O.suite.x25519 ephKey pub with
                            | none => exact .pure _
                            | some ecdhScEs => exact .bind heph (.pure _)
      · exact .pure _

theorem handshakeSized_runs (ctx : LoopCtx O.suite) :
    Runs (handshakeSized ctx pkt.length) b (isHandshake (S := O.suite) ctx pkt) b := by
  unfold handshakeSized isHandshake
  by_cases hsize : pkt.length = OpenSSL.handshakeSize ctx.pskKey.isSome
  · rw [if_pos (congrArg Nat.cast hsize)]
    have hheader : 0 + HEADER_SIZE ≤ pkt.length := by
      rw [hsize, OpenSSL.handshakeSize]
      omega
    refine .bind (field_runs h _ _ hheader) ?_
    rw [List.drop_zero]
    by_cases hmagic : pkt.take HEADER_SIZE = pktHeader
    · rw [decide_eq_true hmagic, hsFields_eq_some hsize hmagic]
      exact .pure true
    · rw [decide_eq_false hmagic, hsFields_eq_none fun hc => hmagic hc.2]
      exact .pure false
  · rw [if_neg fun hc => hsize (Int.ofNat_inj.mp hc), hsFields_eq_none fun hc => hsize hc.1]
    exact .pure false

theorem handshakeBranch_runs (ctx : LoopCtx O.suite) (n : Node O.suite) (d : Datagram O.suite)
    (hd : d.pkt = pkt) :
    Runs (handshakeBranch ctx n d pkt.length) b (handshakePkt ctx n d) b := by
  subst hd
  unfold handshakeBranch handshakePkt
  cases pendingFrom n d.src with
  | some j =>
      dsimp only
      rw [outboundResponse_eq]
      exact .bind (handshakeClientRecv_runs h ..) (.pure _)
  | none =>
      dsimp only
      obtain ⟨n', skip⟩ := tieBreak ctx n d.src
      cases skip with
      | true => exact .pure _
      | false =>
          dsimp only
          rw [inboundHandshake_eq]
          split
          · exact .pure _
          · exact .bind (handshakeServerRespond_runs h ..) (.pure _)

end Handshake

theorem udpBranch_runs (U : O.Update) (ctx : LoopCtx O.suite) (n : Node O.suite) (b : WorkerBufs)
    (d : Datagram O.suite) (late : Bytes 12) :
    ∃ b', Runs (udpBranch U ctx n d late) b ((udpPacket ctx n d.received).1,
      outputs (udpPacket ctx n d.received).2) b' := by
  have hlen : d.received.pkt.length ≤ BUFFER_SIZE + WIRE_OVERHEAD :=
    List.length_take_le (BUFFER_SIZE + WIRE_OVERHEAD) d.pkt
  obtain ⟨w, hw, hhold, -⟩ := Buffer.store_spec b.wireBuf 0 d.received.pkt (by omega)
  have hsized := handshakeSized_runs (b := { b with wireBuf := w }) hhold ctx
  unfold udpBranch udpPacket
  by_cases hs : isHandshake ctx d.received.pkt = true
  · have hbranch := handshakeBranch_runs (b := { b with wireBuf := w }) hhold ctx n d.received rfl
    rw [show isHandshake (S := O.suite) ctx d.received.pkt = true from hs] at hsized
    rw [if_pos hs]
    exact ⟨_, .bind (.write rfl hw) (.bind hsized (.bind hbranch (.pure _)))⟩
  · obtain ⟨b₁, hdata⟩ := WorkerBufs.dataBranch_spec (b := { b with wireBuf := w }) U n d.src d.now
      d.clock d.iv d.sendOk hhold
    obtain ⟨b₂, hrun⟩ := dataBranch_runs late hdata
    rw [if_neg hs]
    rw [Bool.not_eq_true] at hs
    rw [show isHandshake (S := O.suite) ctx d.received.pkt = false from hs] at hsized
    exact ⟨b₂, .bind (.write rfl hw) (.bind hsized hrun)⟩

end WorkerCode

open WorkerCode Checked in
/-- **The accesses of a worker thread are inside its buffers.** From every state of the node and
with any bytes in the three arrays, the branch for a packet read from the TUN device and the branch
for a received datagram run without a fault: every read and write of `worker_loop`,
`forward_to_peer`, `encrypt_packet`, `decrypt_packet`, `handshake_server_respond` and
`handshake_client_recv` lies inside its array, and no length is negative. This includes failing
encryptions and payloads that are relayed from `plain_buf`. The result is that of the model on byte
strings. -/
theorem worker_accesses_in_bounds {O : OpenSSL} (U : O.Update) (ctx : LoopCtx O.suite)
    (n : Node O.suite) (b : WorkerBufs) (late : Bytes 12) :
    (∀ (packet : List UInt8) (iv : Option (Bytes 12)) (sendOk : Bool) (now : Int),
      ∃ b', Runs (tunBranch n packet iv late sendOk now) b
        ((tunPacket n (packet.take BUFFER_SIZE) iv sendOk now).1,
          outputs (tunPacket n (packet.take BUFFER_SIZE) iv sendOk now).2) b') ∧
    ∀ d : Datagram O.suite,
      ∃ b', Runs (udpBranch U ctx n d late) b
        ((udpPacket ctx n d.received).1, outputs (udpPacket ctx n d.received).2) b' := by
  refine ⟨fun packet iv sendOk now => ?_, fun d => udpBranch_runs U ctx n b d late⟩
  obtain ⟨b', hb'⟩ := WorkerBufs.tunBranch_refines n b packet iv sendOk now
  exact tunBranch_runs late hb'

end Lanecove
