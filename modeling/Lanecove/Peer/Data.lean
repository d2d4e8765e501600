import Lanecove.Crypto.Bytes
import Lanecove.Peer.Node

set_option autoImplicit false

/-! # The data path

`forward_to_peer`, the TUN branch and the data branch of `worker_loop` in `src/peer.c`.
A data packet is the magic, a big-endian 64-bit sequence number and the payload, encrypted
as a whole.
-/

namespace Lanecove

variable {S : Suite}

/-! ## Frames -/

/-- `htobe64`: the eight bytes of a sequence number, most significant first. -/
def be64 (q : BitVec 64) : List UInt8 :=
  [56, 48, 40, 32, 24, 16, 8, 0].map fun k => UInt8.ofNat (q.toNat / 2 ^ k)

/-- A big-endian number. -/
def beNat (bs : List UInt8) : Nat := bs.foldl (fun acc b => acc * 256 + b.toNat) 0

/-- What `forward_to_peer` encrypts. -/
def frame (seq : BitVec 64) (payload : List UInt8) : List UInt8 :=
  pktHeader ++ be64 seq ++ payload

/-- The length and magic check on a decrypted packet, with the sequence number and the
payload it carries. -/
def unframe (plain : List UInt8) : Option (BitVec 64 × List UInt8) :=
  if HEADER_SIZE + SEQ_SIZE ≤ plain.length ∧ plain.take HEADER_SIZE = pktHeader then
    some (BitVec.ofNat 64 (beNat ((plain.drop HEADER_SIZE).take SEQ_SIZE)),
      plain.drop (HEADER_SIZE + SEQ_SIZE))
  else none

theorem be64_length (q : BitVec 64) : (be64 q).length = SEQ_SIZE := rfl

/-- One byte more of a number that is read from its most significant end. -/
theorem div_mul_add_byte (x k : Nat) :
    x / 2 ^ (k + 8) * 256 + x / 2 ^ k % 2 ^ 8 = x / 2 ^ k := by
  rw [Nat.pow_add, ← Nat.div_div_eq_div_mul, Nat.mul_comm]
  exact Nat.div_add_mod _ _

theorem beNat_be64 (q : BitVec 64) : beNat (be64 q) = q.toNat := by
  have htop : 0 * 256 + q.toNat / 2 ^ 56 % 2 ^ 8 = q.toNat / 2 ^ 56 := by
    have hq := q.isLt
    omega
  simp only [be64, beNat, List.map_cons, List.map_nil, List.foldl_cons, List.foldl_nil,
    UInt8.toNat_ofNat']
  rw [htop, div_mul_add_byte _ 48, div_mul_add_byte _ 40, div_mul_add_byte _ 32,
    div_mul_add_byte _ 24, div_mul_add_byte _ 16, div_mul_add_byte _ 8, div_mul_add_byte _ 0,
    pow_zero, Nat.div_one]

theorem unframe_frame (seq : BitVec 64) (payload : List UInt8) :
    unframe (frame seq payload) = some (seq, payload) := by
  have hmagic : (frame seq payload).take HEADER_SIZE = pktHeader := by
    rw [frame, List.append_assoc]; exact List.take_left' rfl
  have hrest : (frame seq payload).drop HEADER_SIZE = be64 seq ++ payload := by
    rw [frame, List.append_assoc]; exact List.drop_left' rfl
  have hpay : (frame seq payload).drop (HEADER_SIZE + SEQ_SIZE) = payload := by
    rw [← List.drop_drop, hrest]; exact List.drop_left' rfl
  have hlen : HEADER_SIZE + SEQ_SIZE ≤ (frame seq payload).length := by
    simp [frame, HEADER_SIZE, SEQ_SIZE, pktHeader, be64_length]
  rw [unframe, if_pos ⟨hlen, hmagic⟩, hrest, hpay, List.take_left' (be64_length seq),
    beNat_be64, BitVec.ofNat_toNat, BitVec.setWidth_eq]

/-! ## IPv4 headers -/

/-- `len >= 20 && (p[0] >> 4) == 4`. -/
def isIpv4 (p : List UInt8) : Bool := decide (20 ≤ p.length) && decide (p.headD 0 >>> 4 = 4)

/-- The 32-bit address at an offset of the header. -/
def ipAt (p : List UInt8) (off : Nat) : BitVec 32 :=
  BitVec.ofNat 32 (beNat ((p.drop off).take 4))

/-! ## Sending -/

/-- `forward_to_peer` on the session in slot `i`. The sequence number is used up even if the
encryption (`iv = none`) or `sendto` fails. -/
def forwardToPeer (s : Session S) (i : Fin MAX_PEERS) (payload : List UInt8)
    (iv : Option S.Iv) (sendOk : Bool) (now : Int) : Session S × List (Event S) :=
  let s' := { s with sendSeq := s.sendSeq + 1 }
  match iv with
  | none => (s', [])
  | some iv =>
      if sendOk then
        ({ s' with lastSent := now },
          [.dataSent ⟨i, s.staticPub, s.sessionKey, s.addr, s.sendSeq, payload,
            S.encryptPacket s.sessionKey iv (frame s.sendSeq payload)⟩])
      else (s', [])

/-- The TUN branch of `worker_loop`. -/
def tunPacket (n : Node S) (packet : List UInt8) (iv : Option S.Iv) (sendOk : Bool)
    (now : Int) : Node S × List (Event S) :=
  if isIpv4 packet then
    match routeLookup n.table (ipAt packet 16) with
    | none => (n, [])
    | some i =>
        let r := forwardToPeer (n.table.sessions i) i packet iv sendOk now
        (n.setSession i r.1, r.2)
  else (n, [])

/-! ## Receiving -/

/-- The two decryption attempts. Success under the current key retires the previous one;
the result says which key was used. -/
def decryptSession (s : Session S) (pkt : S.Wire) (now : Int) :
    Session S × Option (Bool × List UInt8) :=
  match S.decryptPacket s.sessionKey pkt with
  | some plain => ({ s with lastSeen := now, prevKeyActive := false }, some (false, plain))
  | none =>
      -- `last_seen` moves even if neither key opens the packet
      if s.prevKeyActive && decide (now ≤ s.prevKeyExpires) then
        ({ s with lastSeen := now },
          (S.decryptPacket s.prevSessionKey pkt).map fun plain => (true, plain))
      else ({ s with lastSeen := now }, none)

/-- What the session accepts: magic check, and the replay check for packets under the
current key. Packets under the previous key are not checked for replay. -/
def acceptFrame (s : Session S) (usedPrev : Bool) (plain : List UInt8) :
    Session S × Option (BitVec 64 × List UInt8) :=
  match unframe plain with
  | none => (s, none)
  | some (seq, payload) =>
      if usedPrev then (s, some (seq, payload))
      else
        match checkReplay seq s.recvSeq with
        | none => (s, none)
        | some r => ({ s with recvSeq := r }, some (seq, payload))

/-- The part of the data branch under `hot_lock`, on the session in slot `i`. -/
def receive (s : Session S) (i : Fin MAX_PEERS) (pkt : S.Wire) (now : Int) :
    Session S × Option (Receipt S) :=
  match decryptSession s pkt now with
  | (s', none) => (s', none)
  | (s', some (usedPrev, plain)) =>
      ((acceptFrame s' usedPrev plain).1,
        (acceptFrame s' usedPrev plain).2.map fun r =>
          ⟨i, s.staticPub, if usedPrev then s.prevSessionKey else s.sessionKey, usedPrev, pkt,
            r.1, r.2, now⟩)

/-- The source check of the data branch: only IPv4 payloads of sessions with routes are
looked at. -/
def sourceAllowed (s : Session S) (payload : List UInt8) : Bool :=
  if decide (0 < s.routes.length) && isIpv4 payload then checkAllowedSrc s (ipAt payload 12)
  else true

/-- Where an accepted payload goes: relayed to another session, else to the TUN device. -/
def relayTarget (tb : SessionTable S) (i : Fin MAX_PEERS) (payload : List UInt8) :
    Option (Fin MAX_PEERS) :=
  if isIpv4 payload then
    match routeLookup tb (ipAt payload 16) with
    | none => none
    | some f => if f ≠ i then some f else none
  else none

/-- What happens to an accepted packet: keepalives end here, the source is checked, and the
payload is relayed or written to the TUN device. -/
def deliver (n : Node S) (r : Receipt S) (iv : Option S.Iv) (sendOk : Bool) (now : Int) :
    Node S × List (Event S) :=
  if r.payload.length = 0 then (n, [])
  else if sourceAllowed (n.table.sessions r.slot) r.payload then
    match relayTarget n.table r.slot r.payload with
    | none => (n, [.delivered r none])
    | some f =>
        let q := forwardToPeer (n.table.sessions f) f r.payload iv sendOk now
        (n.setSession f q.1, .delivered r (some f) :: q.2)
  else (n, [])

/-- The data branch of `worker_loop`: a datagram from `src` at time `now`; `clock` is the
time a relayed packet is sent. -/
def dataPacket (n : Node S) (src : SockAddr) (pkt : S.Wire) (now clock : Int)
    (iv : Option S.Iv) (sendOk : Bool) : Node S × List (Event S) :=
  match findSessionByAddr n.table src with
  | none => (n, [])
  | some i =>
      match receive (n.table.sessions i) i pkt now with
      | (s, none) => (n.setSession i s, [])
      | (s, some r) =>
          let d := deliver (n.setSession i s) r iv sendOk clock
          (d.1, .accepted r :: d.2)

end Lanecove
