import Lanecove.Basic.Buffers
import Lanecove.Peer.Worker

set_option autoImplicit false

/-! # The buffers of a worker thread

`worker_loop` keeps three arrays on its stack and passes them to `forward_to_peer`,
`encrypt_packet` and `decrypt_packet`:

    buffer      2048   what was read from the TUN device
    plain_buf   2064   header, sequence number, payload
    wire_buf    2092   IV, ciphertext, tag

A relayed payload is never moved: it lies behind the header in `plain_buf` when the packet has
been decrypted, and the new header is written in front of it. This file follows the arrays byte
by byte, and shows that a branch of the loop never leaves them and does to the session table,
the socket and the TUN device what the model of `Peer/Worker.lean` says (`tunBranch_refines`,
`udpBranch_refines`).
-/

namespace Lanecove

def BUFFER_SIZE : Nat := 2048
def WIRE_OVERHEAD : Nat := HEADER_SIZE + SEQ_SIZE + CRYPTO_OVERHEAD

/-- What `EVP_DecryptUpdate` writes, before the tag is checked: as many bytes as it reads, and
the plaintext if the tag turns out right. -/
structure OpenSSL.Update (O : OpenSSL) where
  gcmUpdate : Bytes 32 → Bytes 12 → List UInt8 → List UInt8
  gcmUpdate_length : ∀ k iv c, (gcmUpdate k iv c).length = c.length
  gcmUpdate_of_decrypt : ∀ k iv c t m, O.gcmDecrypt k iv c t = some m → gcmUpdate k iv c = m

/-- What leaves a node: a datagram, or a packet for its TUN device. -/
inductive Output where
  | udp (dst : SockAddr) (pkt : List UInt8)
  | tun (packet : List UInt8)
  deriving DecidableEq

/-- The arrays of a worker thread. -/
structure WorkerBufs where
  buffer : Buffer UInt8 BUFFER_SIZE
  plainBuf : Buffer UInt8 (HEADER_SIZE + SEQ_SIZE + BUFFER_SIZE)
  wireBuf : Buffer UInt8 (BUFFER_SIZE + WIRE_OVERHEAD)

/-- Where the argument `payload` of `forward_to_peer` points to: a packet from the TUN device,
or a packet to be relayed. -/
inductive PayloadAt where
  | buffer
  | plainBuf

namespace WorkerBufs

variable {O : OpenSSL}

/-- The bytes `payload` points to. -/
def payload (b : WorkerBufs) (len : Nat) : PayloadAt → Option (List UInt8)
  | .buffer => b.buffer.load 0 len
  | .plainBuf => b.plainBuf.load (HEADER_SIZE + SEQ_SIZE) len

/-- `if (payload_len > 0) memcpy(plain_buf + HEADER_SIZE + SEQ_SIZE, payload, payload_len)`. -/
def copyPayload (p : Buffer UInt8 (HEADER_SIZE + SEQ_SIZE + BUFFER_SIZE)) (len : Nat)
    (data : List UInt8) : Option (Buffer UInt8 (HEADER_SIZE + SEQ_SIZE + BUFFER_SIZE)) :=
  if 0 < len then p.store (HEADER_SIZE + SEQ_SIZE) data else some p

/-- `encrypt_packet` from `plain_buf` to `wire_buf`, in the order of its writes; the result is
`out_len`. -/
def encryptPacket (O : OpenSSL) (b : WorkerBufs) (key : Bytes 32) (iv : Bytes 12)
    (plainLen : Nat) : Option (WorkerBufs × Nat) := do
  let plain ← b.plainBuf.load 0 plainLen
  let c := O.gcmEncrypt key iv plain
  let w ← b.wireBuf.store CRYPTO_IV_LEN c.1
  let w ← w.store (CRYPTO_IV_LEN + c.1.length) c.2.toList
  let w ← w.store 0 iv.toList
  some ({ b with wireBuf := w }, CRYPTO_IV_LEN + c.1.length + CRYPTO_TAG_LEN)

/-- `decrypt_packet` from `wire_buf` to `plain_buf`; the result is `out_len`, or `none` for the
return value `-1`. A packet whose tag is wrong has been written by then. -/
def decryptPacket (U : O.Update) (b : WorkerBufs) (key : Bytes 32) (inLen : Nat) :
    Option (WorkerBufs × Option Nat) := do
  let pkt ← b.wireBuf.load 0 inLen
  if inLen < CRYPTO_OVERHEAD then some (b, none)
  else
    let p ← b.plainBuf.store 0 (U.gcmUpdate key (slice pkt 0 12)
      (slice pkt CRYPTO_IV_LEN (inLen - CRYPTO_OVERHEAD)).toList)
    some ({ b with plainBuf := p }, (O.decryptBytes key pkt).map List.length)

/-- `forward_to_peer`. The payload is read when the header has been written. -/
def forwardToPeer (b : WorkerBufs) (s : Session O.suite) (src : PayloadAt) (len : Nat)
    (iv : Option (Bytes 12)) (sendOk : Bool) (now : Int) :
    Option (Session O.suite × WorkerBufs × List Output) := do
  let s' := { s with sendSeq := s.sendSeq + 1 }
  let p ← b.plainBuf.store 0 pktHeader
  let p ← p.store HEADER_SIZE (be64 s.sendSeq)
  let data ← payload { b with plainBuf := p } len src
  let p ← copyPayload p len data
  match iv with
  | none => some (s', { b with plainBuf := p }, [])
  | some iv =>
      let (b, encLen) ← encryptPacket O { b with plainBuf := p } s.sessionKey iv
        (HEADER_SIZE + SEQ_SIZE + len)
      let pkt ← b.wireBuf.load 0 encLen
      if sendOk then some ({ s' with lastSent := now }, b, [.udp s.addr pkt])
      else some (s', b, [])

/-- The two decryption attempts of the data branch, on `nr` bytes of `wire_buf`. -/
def decryptSession (U : O.Update) (b : WorkerBufs) (s : Session O.suite) (nr : Nat) (now : Int) :
    Option (Session O.suite × WorkerBufs × Option (Bool × Nat)) := do
  let (b, r) ← decryptPacket U b s.sessionKey nr
  match r with
  | some len => some ({ s with lastSeen := now, prevKeyActive := false }, b, some (false, len))
  | none =>
      if s.prevKeyActive && decide (now ≤ s.prevKeyExpires) then
        let (b, r) ← decryptPacket U b s.prevSessionKey nr
        some ({ s with lastSeen := now }, b, r.map fun len => (true, len))
      else some ({ s with lastSeen := now }, b, none)

/-- The TUN branch of `worker_loop`. `read` returns at most `BUFFER_SIZE` bytes of a packet. -/
def tunBranch (n : Node O.suite) (b : WorkerBufs) (packet : List UInt8) (iv : Option (Bytes 12))
    (sendOk : Bool) (now : Int) : Option (Node O.suite × WorkerBufs × List Output) := do
  let nr := (packet.take BUFFER_SIZE).length
  let buffer ← b.buffer.store 0 (packet.take BUFFER_SIZE)
  let p ← buffer.load 0 nr
  if isIpv4 p then
    match routeLookup n.table (ipAt p 16) with
    | none => some (n, { b with buffer := buffer }, [])
    | some i =>
        let (s, b, out) ← forwardToPeer { b with buffer := buffer } (n.table.sessions i) .buffer nr
          iv sendOk now
        some (n.setSession i s, b, out)
  else some (n, { b with buffer := buffer }, [])

/-- The end of the data branch: the payload of `len` bytes in `plain_buf` was accepted on
session `i`. -/
def deliver (n : Node O.suite) (b : WorkerBufs) (i : Fin MAX_PEERS) (len : Nat)
    (iv : Option (Bytes 12)) (sendOk : Bool) (now : Int) :
    Option (Node O.suite × WorkerBufs × List Output) := do
  let data ← b.payload len .plainBuf
  if len = 0 then some (n, b, [])
  else if sourceAllowed (n.table.sessions i) data then
    match relayTarget n.table i data with
    | none => some (n, b, [.tun data])
    | some f =>
        let (s, b, out) ← forwardToPeer b (n.table.sessions f) .plainBuf len iv sendOk now
        some (n.setSession f s, b, out)
  else some (n, b, [])

/-- The data branch of `worker_loop`, on `nr` bytes of `wire_buf`. -/
def dataBranch (U : O.Update) (n : Node O.suite) (b : WorkerBufs) (src : SockAddr) (nr : Nat)
    (now clock : Int) (iv : Option (Bytes 12)) (sendOk : Bool) :
    Option (Node O.suite × WorkerBufs × List Output) :=
  match findSessionByAddr n.table src with
  | none => some (n, b, [])
  | some i => do
      let (s, b, r) ← decryptSession U b (n.table.sessions i) nr now
      match r with
      | none => some (n.setSession i s, b, [])
      | some (usedPrev, plainLen) =>
          let plain ← b.plainBuf.load 0 plainLen
          match acceptFrame s usedPrev plain with
          | (s, none) => some (n.setSession i s, b, [])
          | (s, some _) =>
              deliver (n.setSession i s) b i (plainLen - HEADER_SIZE - SEQ_SIZE) iv sendOk clock

end WorkerBufs

/-- What the events of a branch mean for the outside. -/
def outputs {O : OpenSSL} : List (Event O.suite) → List Output :=
  List.filterMap fun
    | .initSent dst pkt => some (.udp dst pkt)
    | .respSent dst pkt => some (.udp dst pkt)
    | .dataSent d => some (.udp d.dst d.pkt)
    | .delivered r none => some (.tun r.payload)
    | _ => none

/-- What `recvfrom` returns of a datagram: the bytes that fit into `wire_buf`. -/
def Datagram.received {O : OpenSSL} (d : Datagram O.suite) : Datagram O.suite :=
  { d with pkt := List.take (BUFFER_SIZE + WIRE_OVERHEAD) d.pkt }

/-- What follows `recvfrom`, whose `nr` bytes `pkt` are in `wire_buf`. The handshake functions
read them there and write to arrays of their own. -/
def WorkerBufs.receivedBranch {O : OpenSSL} (U : O.Update) (ctx : LoopCtx O.suite)
    (n : Node O.suite) (b : WorkerBufs) (d : Datagram O.suite) (pkt : List UInt8) :
    Option (Node O.suite × WorkerBufs × List Output) :=
  if isHandshake (S := O.suite) ctx pkt then
    let q := handshakePkt ctx n { d with pkt := pkt }
    some (q.1, b, outputs q.2)
  else dataBranch U n b d.src pkt.length d.now d.clock d.iv d.sendOk

/-- The UDP branch of `worker_loop`. -/
def WorkerBufs.udpBranch {O : OpenSSL} (U : O.Update) (ctx : LoopCtx O.suite) (n : Node O.suite)
    (b : WorkerBufs) (d : Datagram O.suite) : Option (Node O.suite × WorkerBufs × List Output) := do
  let wireBuf ← b.wireBuf.store 0 d.received.pkt
  let pkt ← wireBuf.load 0 (List.length d.received.pkt)
  receivedBranch U ctx n { b with wireBuf := wireBuf } d pkt

/-! ## The arrays hold what the model computes with -/

namespace WorkerBufs

open Buffer (Holds store_spec holds_of_load)

variable {O : OpenSSL} {b : WorkerBufs}

theorem encryptPacket_spec {plain : List UInt8} (key : Bytes 32) (iv : Bytes 12)
    (hplain : Holds b.plainBuf 0 plain) :
    ∃ b', encryptPacket O b key iv plain.length
        = some (b', (O.encryptBytes key iv plain).length) ∧
      Holds b'.wireBuf 0 (O.encryptBytes key iv plain) := by
  have hfits : plain.length ≤ HEADER_SIZE + SEQ_SIZE + BUFFER_SIZE := by
    have := hplain.le
    omega
  have hsize : BUFFER_SIZE + WIRE_OVERHEAD
      = CRYPTO_IV_LEN + (HEADER_SIZE + SEQ_SIZE + BUFFER_SIZE) + CRYPTO_TAG_LEN := rfl
  have hct := O.gcmEncrypt_length key iv plain
  have htag : (O.gcmEncrypt key iv plain).2.toList.length = CRYPTO_TAG_LEN :=
    (O.gcmEncrypt key iv plain).2.toList_length
  have hiv : iv.toList.length = CRYPTO_IV_LEN := iv.toList_length
  -- ciphertext, tag and IV lie side by side
  obtain ⟨w₁, hw₁, hc₁, -⟩ := store_spec b.wireBuf CRYPTO_IV_LEN
    (O.gcmEncrypt key iv plain).1 (by omega)
  obtain ⟨w₂, hw₂, hct₂⟩ := hc₁.store_append (O.gcmEncrypt key iv plain).2.toList rfl (by omega)
  obtain ⟨w₃, hw₃, hi₃, hf₃⟩ := store_spec w₂ 0 iv.toList (by omega)
  have hct₃ := hf₃ _ _ (.inr (by omega)) hct₂
  have hlen : (O.encryptBytes key iv plain).length
      = CRYPTO_IV_LEN + (O.gcmEncrypt key iv plain).1.length + CRYPTO_TAG_LEN := by
    rw [OpenSSL.encryptBytes, List.length_append, List.length_append, hiv, htag]
  refine ⟨{ b with wireBuf := w₃ }, ?_, ?_⟩
  · rw [encryptPacket, hplain, hlen]
    simp only [Option.bind_eq_bind, Option.bind_some, hw₁, hw₂, hw₃]
  · rw [OpenSSL.encryptBytes, List.append_assoc]
    refine hi₃.append ?_
    rw [hiv, Nat.zero_add]
    exact hct₃

theorem decryptPacket_spec (U : O.Update) {pkt : List UInt8} (key : Bytes 32)
    (hpkt : Holds b.wireBuf 0 pkt) :
    ∃ b', decryptPacket U b key pkt.length
        = some (b', (O.decryptBytes key pkt).map List.length) ∧ b'.wireBuf = b.wireBuf ∧
      ∀ m, O.decryptBytes key pkt = some m → Holds b'.plainBuf 0 m := by
  have hsize : BUFFER_SIZE + WIRE_OVERHEAD
      = CRYPTO_OVERHEAD + (HEADER_SIZE + SEQ_SIZE + BUFFER_SIZE) := rfl
  have hfits := hpkt.le
  rw [decryptPacket, hpkt]
  simp only [Option.bind_eq_bind, Option.bind_some]
  by_cases hshort : pkt.length < CRYPTO_OVERHEAD
  · have hnone : O.decryptBytes key pkt = none := by rw [OpenSSL.decryptBytes, if_pos hshort]
    rw [if_pos hshort, hnone]
    refine ⟨b, rfl, rfl, ?_⟩
    intro m hm
    cases hm
  · rw [if_neg hshort]
    have hlen : (U.gcmUpdate key (slice pkt 0 12)
        (slice pkt CRYPTO_IV_LEN (pkt.length - CRYPTO_OVERHEAD)).toList).length
        = pkt.length - CRYPTO_OVERHEAD := by
      rw [U.gcmUpdate_length, List.Vector.toList_length]
    obtain ⟨p, hp, hhold, -⟩ := store_spec b.plainBuf 0
      (U.gcmUpdate key (slice pkt 0 12)
        (slice pkt CRYPTO_IV_LEN (pkt.length - CRYPTO_OVERHEAD)).toList) (by omega)
    rw [hp]
    refine ⟨{ b with plainBuf := p }, rfl, rfl, ?_⟩
    intro m hm
    rw [OpenSSL.decryptBytes, if_neg hshort] at hm
    rwa [U.gcmUpdate_of_decrypt _ _ _ _ _ hm] at hhold

/-- Writing the header leaves the payload alone, wherever it lies. -/
theorem payload_of_header {p : Buffer UInt8 (HEADER_SIZE + SEQ_SIZE + BUFFER_SIZE)}
    {src : PayloadAt} {len : Nat} {data : List UInt8} (h : b.payload len src = some data)
    (hp : ∀ ys, Holds b.plainBuf (HEADER_SIZE + SEQ_SIZE) ys →
      Holds p (HEADER_SIZE + SEQ_SIZE) ys) :
    payload { b with plainBuf := p } len src = some data := by
  cases src with
  | buffer => exact h
  | plainBuf =>
      obtain ⟨rfl, hdata⟩ := holds_of_load h
      exact hp data hdata

/-- `forward_to_peer` encrypts the frame of the payload, also if the payload lies in the array
in which the frame is built. -/
theorem forwardToPeer_spec (s : Session O.suite) (i : Fin MAX_PEERS) (src : PayloadAt)
    {data : List UInt8} (iv : Option (Bytes 12)) (ok : Bool) (now : Int)
    (h : b.payload data.length src = some data) (hlen : data.length ≤ BUFFER_SIZE) :
    ∃ b', b.forwardToPeer s src data.length iv ok now
      = some ((Lanecove.forwardToPeer s i data iv ok now).1, b',
          outputs (Lanecove.forwardToPeer s i data iv ok now).2) := by
  have hseq := be64_length s.sendSeq
  have hmagic : pktHeader.length = HEADER_SIZE := rfl
  obtain ⟨p₁, hp₁, hm₁, hf₁⟩ := store_spec b.plainBuf 0 pktHeader (by omega)
  obtain ⟨p₂, hp₂, hs₂, hf₂⟩ := store_spec p₁ HEADER_SIZE (be64 s.sendSeq) (by omega)
  have hdata : payload { b with plainBuf := p₂ } data.length src = some data :=
    payload_of_header h fun ys hys =>
      hf₂ _ _ (.inr (by omega)) (hf₁ _ _ (.inr (by omega)) hys)
  have hheader : Holds p₂ 0 (pktHeader ++ be64 s.sendSeq) := by
    refine (hf₂ _ _ (.inl (by omega)) hm₁).append ?_
    rw [hmagic, Nat.zero_add]
    exact hs₂
  obtain ⟨p₃, hp₃, hall⟩ := hheader.store_append data (k := HEADER_SIZE + SEQ_SIZE)
    (by rw [List.length_append, hmagic, hseq, Nat.zero_add]) (by omega)
  have hframe : Holds p₃ 0 (frame s.sendSeq data) := hall
  -- the copy is left out for an empty payload, where it would do nothing
  have hcopy : copyPayload p₂ data.length data = some p₃ := by
    unfold copyPayload
    by_cases hpos : 0 < data.length
    · rw [if_pos hpos, hp₃]
    · have hnil : data = [] := List.eq_nil_of_length_eq_zero (by omega)
      have hnothing : p₂.store (HEADER_SIZE + SEQ_SIZE) [] = some p₂ :=
        Holds.store_self (Buffer.holds_iff.mpr ⟨by simp, rfl⟩)
      rw [if_neg hpos, ← hp₃, hnil, hnothing]
  have hflen : (frame s.sendSeq data).length = HEADER_SIZE + SEQ_SIZE + data.length := by
    rw [frame, List.length_append, List.length_append, hmagic, hseq]
  unfold forwardToPeer Lanecove.forwardToPeer
  simp only [Option.bind_eq_bind, Option.bind_some, hp₁, hp₂, hdata, hcopy]
  cases iv with
  | none => exact ⟨_, rfl⟩
  | some iv =>
      obtain ⟨b', henc, hwire⟩ := encryptPacket_spec (b := { b with plainBuf := p₃ })
        s.sessionKey iv hframe
      rw [hflen] at henc
      refine ⟨b', ?_⟩
      dsimp only
      rw [henc, Option.bind_some, show b'.wireBuf.load 0 _ = _ from hwire, Option.bind_some]
      cases ok with
      | true => rfl
      | false => rfl

theorem decryptSession_spec (U : O.Update) (s : Session O.suite) {pkt : List UInt8} (now : Int)
    (hpkt : Holds b.wireBuf 0 pkt) :
    ∃ b', decryptSession U b s pkt.length now
        = some ((Lanecove.decryptSession s pkt now).1, b',
            (Lanecove.decryptSession s pkt now).2.map fun r => (r.1, r.2.length)) ∧
      ∀ r, (Lanecove.decryptSession s pkt now).2 = some r → Holds b'.plainBuf 0 r.2 := by
  obtain ⟨b₁, hdec₁, hwire₁, hplain₁⟩ := decryptPacket_spec U s.sessionKey hpkt
  have hsuite : ∀ key, O.suite.decryptPacket key pkt = O.decryptBytes key pkt := fun _ => rfl
  unfold decryptSession Lanecove.decryptSession
  simp only [hdec₁, Option.bind_eq_bind, Option.bind_some, hsuite]
  cases hcur : O.decryptBytes s.sessionKey pkt with
  | some plain =>
      refine ⟨b₁, rfl, ?_⟩
      intro r hr
      obtain rfl := Option.some.inj hr
      exact hplain₁ plain hcur
  | none =>
      simp only [Option.map_none]
      by_cases hprev : (s.prevKeyActive && decide (now ≤ s.prevKeyExpires)) = true
      · obtain ⟨b₂, hdec₂, -, hplain₂⟩ := decryptPacket_spec (b := b₁) U s.prevSessionKey
          (by rw [hwire₁]; exact hpkt)
        rw [if_pos hprev, if_pos hprev, hdec₂]
        refine ⟨b₂, ?_, ?_⟩
        · simp only [Option.bind_some, Option.map_map]
          rfl
        · intro r hr
          obtain ⟨plain, hplain, rfl⟩ := Option.map_eq_some_iff.mp hr
          exact hplain₂ plain hplain
      · rw [if_neg hprev, if_neg hprev]
        exact ⟨b₁, rfl, nofun⟩

theorem unframe_of_acceptFrame {s : Session O.suite} {prev : Bool} {plain : List UInt8}
    {r : BitVec 64 × List UInt8} (h : (acceptFrame s prev plain).2 = some r) :
    unframe plain = some r := by
  unfold acceptFrame at h
  split at h
  · cases h
  · rename_i seq data hframe
    rw [hframe]
    split at h
    · exact h
    · split at h
      · cases h
      · exact h

/-- An accepted payload lies behind the header of the decrypted packet. -/
theorem payload_of_unframe {plain data : List UInt8} {seq : BitVec 64}
    (hplain : Holds b.plainBuf 0 plain) (hframe : unframe plain = some (seq, data)) :
    plain.length - HEADER_SIZE - SEQ_SIZE = data.length ∧ data.length ≤ BUFFER_SIZE ∧
      b.payload data.length .plainBuf = some data := by
  unfold unframe at hframe
  split at hframe
  · rename_i hcond
    obtain ⟨-, rfl⟩ := Prod.mk.inj (Option.some.inj hframe)
    have hfits := hplain.le
    have hhead : (plain.take (HEADER_SIZE + SEQ_SIZE)).length = HEADER_SIZE + SEQ_SIZE := by
      rw [List.length_take]
      omega
    have hrest : Holds b.plainBuf (0 + (plain.take (HEADER_SIZE + SEQ_SIZE)).length)
        (plain.drop (HEADER_SIZE + SEQ_SIZE)) :=
      Holds.right (by rw [List.take_append_drop]; exact hplain)
    rw [hhead, Nat.zero_add] at hrest
    have hle := hrest.le
    exact ⟨by rw [List.length_drop, Nat.sub_sub], by omega, hrest⟩
  · cases hframe

theorem deliver_spec (n : Node O.suite) (r : Receipt O.suite) (iv : Option (Bytes 12)) (ok : Bool)
    (now : Int) (h : b.payload r.payload.length .plainBuf = some r.payload)
    (hlen : r.payload.length ≤ BUFFER_SIZE) :
    ∃ b', deliver n b r.slot r.payload.length iv ok now
      = some ((Lanecove.deliver n r iv ok now).1, b',
          outputs (Lanecove.deliver n r iv ok now).2) := by
  unfold deliver Lanecove.deliver
  simp only [h, Option.bind_eq_bind, Option.bind_some]
  by_cases hzero : r.payload.length = 0
  · rw [if_pos hzero, if_pos hzero]
    exact ⟨b, rfl⟩
  · rw [if_neg hzero, if_neg hzero]
    by_cases hsrc : sourceAllowed (n.table.sessions r.slot) r.payload = true
    · rw [if_pos hsrc, if_pos hsrc]
      cases hfwd : relayTarget n.table r.slot r.payload with
      | none => exact ⟨b, rfl⟩
      | some f =>
          obtain ⟨b', hb'⟩ := forwardToPeer_spec (n.table.sessions f) f _ iv ok now h hlen
          simp only [hb', Option.bind_some]
          exact ⟨b', rfl⟩
    · rw [if_neg hsrc, if_neg hsrc]
      exact ⟨b, rfl⟩

theorem dataBranch_spec (U : O.Update) (n : Node O.suite) {pkt : List UInt8} (src : SockAddr)
    (now clock : Int) (iv : Option (Bytes 12)) (ok : Bool) (hpkt : Holds b.wireBuf 0 pkt) :
    ∃ b', dataBranch U n b src pkt.length now clock iv ok
      = some ((dataPacket n src pkt now clock iv ok).1, b',
          outputs (dataPacket n src pkt now clock iv ok).2) := by
  unfold dataBranch dataPacket
  cases hf : findSessionByAddr n.table src with
  | none => exact ⟨b, rfl⟩
  | some i =>
      obtain ⟨b₁, hdec, hplain⟩ := decryptSession_spec U (n.table.sessions i) now hpkt
      simp only [hdec, Option.bind_eq_bind, Option.bind_some]
      unfold receive
      -- no key fits, or the frame is refused, or its payload is accepted
      rcases hres : Lanecove.decryptSession (n.table.sessions i) pkt now with ⟨s, _ | ⟨prev, plain⟩⟩
      · exact ⟨b₁, rfl⟩
      · rw [hres] at hplain
        have hhold : Holds b₁.plainBuf 0 plain := hplain _ rfl
        simp only [Option.map_some, Option.bind_some, show b₁.plainBuf.load 0 _ = _ from hhold]
        rcases hacc : acceptFrame s prev plain with ⟨s', _ | ⟨seq, data⟩⟩
        · exact ⟨b₁, rfl⟩
        · obtain ⟨hlen, hfits, hdata⟩ :=
            payload_of_unframe hhold (unframe_of_acceptFrame (congrArg Prod.snd hacc))
          simp only [hlen, Option.map_some]
          exact deliver_spec (n.setSession i s') ⟨i, (n.table.sessions i).staticPub, _, prev, pkt,
            seq, data, now⟩ iv ok clock hdata hfits

theorem receivedBranch_spec (U : O.Update) (ctx : LoopCtx O.suite) (n : Node O.suite)
    (d : Datagram O.suite) {pkt : List UInt8} (hpkt : Holds b.wireBuf 0 pkt) :
    ∃ b', receivedBranch U ctx n b d pkt = some ((udpPacket ctx n { d with pkt := pkt }).1, b',
      outputs (udpPacket ctx n { d with pkt := pkt }).2) := by
  unfold receivedBranch udpPacket
  by_cases hs : isHandshake (S := O.suite) ctx pkt = true
  · rw [if_pos hs, if_pos hs]
    exact ⟨b, rfl⟩
  · rw [if_neg hs, if_neg hs]
    exact dataBranch_spec U n d.src d.now d.clock d.iv d.sendOk hpkt

/-- **The TUN branch** stays within its arrays, and does what the model says about the bytes
`read` returned. -/
theorem tunBranch_refines (n : Node O.suite) (b : WorkerBufs) (packet : List UInt8)
    (iv : Option (Bytes 12)) (ok : Bool) (now : Int) :
    ∃ b', tunBranch n b packet iv ok now
      = some ((tunPacket n (packet.take BUFFER_SIZE) iv ok now).1, b',
          outputs (tunPacket n (packet.take BUFFER_SIZE) iv ok now).2) := by
  have hlen : (packet.take BUFFER_SIZE).length ≤ BUFFER_SIZE := List.length_take_le ..
  obtain ⟨buf, hbuf, hhold, -⟩ := store_spec b.buffer 0 (packet.take BUFFER_SIZE) (by omega)
  unfold tunBranch tunPacket
  simp only [hbuf, Option.bind_eq_bind, Option.bind_some, show buf.load 0 _ = _ from hhold]
  by_cases hip : isIpv4 (packet.take BUFFER_SIZE) = true
  · rw [if_pos hip, if_pos hip]
    cases hroute : routeLookup n.table (ipAt (packet.take BUFFER_SIZE) 16) with
    | none => exact ⟨_, rfl⟩
    | some i =>
        obtain ⟨b', hb'⟩ := forwardToPeer_spec (b := { b with buffer := buf })
          (n.table.sessions i) i .buffer iv ok now hhold hlen
        simp only [hb', Option.bind_some]
        exact ⟨b', rfl⟩
  · rw [if_neg hip, if_neg hip]
    exact ⟨_, rfl⟩

/-- **The UDP branch** stays within its arrays, and does what the model says about the bytes
`recvfrom` returned. -/
theorem udpBranch_refines (U : O.Update) (ctx : LoopCtx O.suite) (n : Node O.suite)
    (b : WorkerBufs) (d : Datagram O.suite) :
    ∃ b', udpBranch U ctx n b d
      = some ((udpPacket ctx n d.received).1, b', outputs (udpPacket ctx n d.received).2) := by
  have hlen : d.received.pkt.length ≤ BUFFER_SIZE + WIRE_OVERHEAD :=
    List.length_take_le (BUFFER_SIZE + WIRE_OVERHEAD) d.pkt
  obtain ⟨w, hw, hhold, -⟩ := store_spec b.wireBuf 0 d.received.pkt (by omega)
  unfold udpBranch
  simp only [hw, Option.bind_eq_bind, Option.bind_some, show w.load 0 _ = _ from hhold]
  exact receivedBranch_spec (b := { b with wireBuf := w }) U ctx n d hhold

end WorkerBufs

end Lanecove
