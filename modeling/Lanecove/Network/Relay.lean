import Lanecove.Handshake.Agreement
import Lanecove.Network.Origin
import Lanecove.Peer.Buffers

set_option autoImplicit false

/-! # Relaying

A packet that peer 1 reads from its TUN device and routes to a relay is decrypted there, framed
anew in place, encrypted for peer 2, and written to the TUN device of peer 2 as it was read
(`relay_transparent`). The theorem is about the bytes in the buffers of the three worker
threads, so it also says that no buffer is too small on the way.
-/

namespace Lanecove

/-! ## What a receiver does with a new packet -/

section Receiver

variable {S : Suite}

/-- A packet that is new to the session at its source address, under the current key: it is
accepted, and the table that decides about its payload has the same routes. -/
theorem dataPacket_fresh {n : Node S} {src : SockAddr} {pkt : S.Wire} {plain payload : List UInt8}
    {seq : BitVec 64} {i : Fin MAX_PEERS} (now clock : Int) (iv : Option S.Iv) (ok : Bool)
    (hf : findSessionByAddr n.table src = some i)
    (hdec : S.decryptPacket (n.table.sessions i).sessionKey pkt = some plain)
    (hframe : unframe plain = some (seq, payload))
    (hnew : ¬ (n.table.sessions i).recvSeq.Seen seq) :
    ∃ s r, (dataPacket n src pkt now clock iv ok).2
        = .accepted r :: (deliver (n.setSession i s) r iv ok clock).2 ∧
      r.slot = i ∧ r.payload = payload ∧ s.routes = (n.table.sessions i).routes ∧
      ∀ ip, routeLookup (n.setSession i s).table ip = routeLookup n.table ip := by
  obtain ⟨w, hrec⟩ := receive_fresh i now hdec hframe hnew
  refine ⟨{ n.table.sessions i with lastSeen := now, prevKeyActive := false, recvSeq := w },
    ⟨i, (n.table.sessions i).staticPub, (n.table.sessions i).sessionKey, false, pkt, seq, payload,
      now⟩, ?_, rfl, rfl, rfl, ?_⟩
  · unfold dataPacket
    rw [hf]
    dsimp only
    rw [hrec]
  · intro ip
    refine routeLookup_congr ?_ ?_ ip
    · rfl
    exact SessionTable.set_rel (R := fun x y => y.active = x.active ∧ y.routes = x.routes)
      ⟨rfl, rfl⟩ fun _ => ⟨rfl, rfl⟩

/-- An IPv4 packet from an allowed source is passed on: to the session its destination is
routed to, or to the TUN device if that is none or the session it came from. -/
theorem deliver_ipv4 (n : Node S) (r : Receipt S) (iv : Option S.Iv) (ok : Bool) (now : Int)
    (hip : isIpv4 r.payload = true)
    (hsrc : checkAllowedSrc (n.table.sessions r.slot) (ipAt r.payload 12) = true) :
    (∀ f, routeLookup n.table (ipAt r.payload 16) = some f → f ≠ r.slot →
      (deliver n r iv ok now).2 = .delivered r (some f) ::
        (forwardToPeer (n.table.sessions f) f r.payload iv ok now).2) ∧
    ((∀ f, routeLookup n.table (ipAt r.payload 16) = some f → f = r.slot) →
      (deliver n r iv ok now).2 = [.delivered r none]) := by
  have hlen : r.payload.length ≠ 0 := by
    have : 20 ≤ r.payload.length := by simpa using (Bool.and_eq_true_iff.mp hip).1
    omega
  have hallowed : sourceAllowed (n.table.sessions r.slot) r.payload = true := by
    unfold sourceAllowed
    split
    · exact hsrc
    · rfl
  constructor
  · intro f hf hne
    have htarget : relayTarget n.table r.slot r.payload = some f := by
      rw [relayTarget, if_pos hip, hf]
      exact if_pos hne
    rw [deliver, if_neg hlen, if_pos hallowed, htarget]
  · intro hlocal
    have htarget : relayTarget n.table r.slot r.payload = none := by
      rw [relayTarget, if_pos hip]
      cases hf : routeLookup n.table (ipAt r.payload 16) with
      | none => rfl
      | some f => exact if_neg (not_not.mpr (hlocal f hf))
    rw [deliver, if_neg hlen, if_pos hallowed, htarget]

end Receiver

/-! ## Hops -/

variable {O : OpenSSL}

/-- What is sent next on session `s` reaches session `i` of the node: it comes from the address
of that session, both ends have the same key, the sequence number is new there, the datagram is
not taken for a handshake, and the routes of the session allow the source of the packet. -/
structure Hop (s : Session O.suite) (ctx : LoopCtx O.suite) (n : Node O.suite) (src : SockAddr)
    (i : Fin MAX_PEERS) (iv : Bytes 12) (packet : List UInt8) : Prop where
  session : findSessionByAddr n.table src = some i
  key : (n.table.sessions i).sessionKey = s.sessionKey
  fresh : ¬ (n.table.sessions i).recvSeq.Seen s.sendSeq
  data : isHandshake ctx (O.encryptBytes s.sessionKey iv (frame s.sendSeq packet)) = false
  source : checkAllowedSrc (n.table.sessions i) (ipAt packet 12) = true

/-- The datagram of a packet that was read from a TUN device fits into `wire_buf`. -/
theorem encryptBytes_length_le {packet : List UInt8} (key : Bytes 32) (iv : Bytes 12)
    (seq : BitVec 64) (hlen : packet.length ≤ BUFFER_SIZE) :
    (O.encryptBytes key iv (frame seq packet)).length ≤ BUFFER_SIZE + WIRE_OVERHEAD := by
  have hframe : (frame seq packet).length = HEADER_SIZE + SEQ_SIZE + packet.length := by
    rw [frame, List.length_append, List.length_append, be64_length]
    rfl
  have htag : (O.gcmEncrypt key iv (frame seq packet)).2.toList.length = CRYPTO_TAG_LEN :=
    List.Vector.toList_length _
  have hiv : iv.toList.length = CRYPTO_IV_LEN := iv.toList_length
  rw [OpenSSL.encryptBytes, List.length_append, List.length_append, O.gcmEncrypt_length, hframe,
    htag, hiv, WIRE_OVERHEAD, CRYPTO_OVERHEAD]
  omega

/-- What the UDP branch at the end of a hop puts out. -/
theorem Hop.outputs (hO : O.Lawful) (U : O.Update) {s : Session O.suite} {ctx : LoopCtx O.suite}
    {n : Node O.suite} {i : Fin MAX_PEERS} {iv : Bytes 12} {packet : List UInt8}
    {d : Datagram O.suite} (b : WorkerBufs) (hop : Hop s ctx n d.src i iv packet)
    (hpkt : d.pkt = O.encryptBytes s.sessionKey iv (frame s.sendSeq packet))
    (hip : isIpv4 packet = true) (hlen : packet.length ≤ BUFFER_SIZE) :
    ∃ n' b' out, b.udpBranch U ctx n d = some (n', b', out) ∧
      (∀ f, routeLookup n.table (ipAt packet 16) = some f → f ≠ i →
        out = Lanecove.outputs
          (forwardToPeer (n.table.sessions f) f packet d.iv d.sendOk d.clock).2) ∧
      ((∀ f, routeLookup n.table (ipAt packet 16) = some f → f = i) → out = [.tun packet]) := by
  have hreceived : d.received = d := by
    have hfits : List.length d.pkt ≤ BUFFER_SIZE + WIRE_OVERHEAD := by
      rw [hpkt]
      exact encryptBytes_length_le s.sessionKey iv s.sendSeq hlen
    rw [Datagram.received, List.take_of_length_le hfits]
  have hdata : isHandshake ctx d.pkt = false := by
    rw [hpkt]
    exact hop.data
  have hdec : O.suite.decryptPacket (n.table.sessions i).sessionKey d.pkt
      = some (frame s.sendSeq packet) := by
    rw [hpkt, hop.key]
    exact O.decryptBytes_encryptBytes hO s.sessionKey iv _
  obtain ⟨s', r, hev, rfl, rfl, hroutes, hlookup⟩ := dataPacket_fresh d.now d.clock d.iv d.sendOk
    hop.session hdec (unframe_frame ..) hop.fresh
  obtain ⟨b', hb'⟩ := WorkerBufs.udpBranch_refines U ctx n b d
  have hpacket : (udpPacket ctx n d.received).2
      = .accepted r :: (deliver (n.setSession r.slot s') r d.iv d.sendOk d.clock).2 := by
    rw [hreceived, udpPacket_of_data hdata, hev]
  have hsrc : checkAllowedSrc ((n.setSession r.slot s').table.sessions r.slot)
      (ipAt r.payload 12) = true := by
    rw [Node.setSession_table, SessionTable.set_sessions_self, checkAllowedSrc, hroutes]
    exact hop.source
  obtain ⟨hrelay, hlocal⟩ := deliver_ipv4 (n.setSession r.slot s') r d.iv d.sendOk d.clock hip hsrc
  rw [hlookup] at hrelay hlocal
  refine ⟨_, b', _, hb', ?_, ?_⟩
  · intro f hf hne
    -- receiving has not touched the session the packet is relayed to
    have hsession : (n.setSession r.slot s').table.sessions f = n.table.sessions f :=
      SessionTable.set_sessions_ne _ _ hne
    rw [hpacket, hrelay f hf hne, hsession]
    rfl
  · intro hown
    rw [hpacket, hlocal hown]
    rfl

/-- **Relay transparency.** Peer 1 reads an IPv4 packet of at most `BUFFER_SIZE` bytes from its
TUN device and routes it to its session with the relay; the relay has a session with peer 1
whose routes contain the source, and routes the destination to its session with peer 2; peer 2
accepts the source and does not route the destination to a third session. Then peer 2 writes
exactly that packet to its TUN device, whatever the buffers of the three held before. -/
theorem relay_transparent (hO : O.Lawful) (U : O.Update) (b₁ b₂ b₃ : WorkerBufs)
    {peer₁ relay peer₂ : Node O.suite} {ctx ctx₂ : LoopCtx O.suite} {packet : List UInt8}
    (hip : isIpv4 packet = true) (hlen : packet.length ≤ BUFFER_SIZE) {iv₁ iv₂ : Bytes 12}
    {i₁ i f i₂ : Fin MAX_PEERS} (now : Int) (d d₂ : Datagram O.suite)
    (hsend : d.iv = some iv₂ ∧ d.sendOk = true)
    (hroute : routeLookup peer₁.table (ipAt packet 16) = some i₁)
    (hop₁ : Hop (peer₁.table.sessions i₁) ctx relay d.src i iv₁ packet)
    (hrelay : routeLookup relay.table (ipAt packet 16) = some f) (hne : f ≠ i)
    (hop₂ : Hop (relay.table.sessions f) ctx₂ peer₂ d₂.src i₂ iv₂ packet)
    (hown : ∀ g, routeLookup peer₂.table (ipAt packet 16) = some g → g = i₂) :
    ∃ pkt₁ pkt₂ : List UInt8,
      (∃ n b, b₁.tunBranch peer₁ packet (some iv₁) true now
        = some (n, b, [.udp (peer₁.table.sessions i₁).addr pkt₁])) ∧
      (∃ n b, b₂.udpBranch U ctx relay { d with pkt := pkt₁ }
        = some (n, b, [.udp (relay.table.sessions f).addr pkt₂])) ∧
      ∃ n b, b₃.udpBranch U ctx₂ peer₂ { d₂ with pkt := pkt₂ } = some (n, b, [.tun packet]) := by
  refine ⟨O.encryptBytes (peer₁.table.sessions i₁).sessionKey iv₁
    (frame (peer₁.table.sessions i₁).sendSeq packet),
    O.encryptBytes (relay.table.sessions f).sessionKey iv₂
      (frame (relay.table.sessions f).sendSeq packet), ?_, ?_, ?_⟩
  · obtain ⟨b, hb⟩ := WorkerBufs.tunBranch_refines peer₁ b₁ packet (some iv₁) true now
    have hev : outputs (tunPacket peer₁ (packet.take BUFFER_SIZE) (some iv₁) true now).2
        = [.udp (peer₁.table.sessions i₁).addr (O.encryptBytes (peer₁.table.sessions i₁).sessionKey
            iv₁ (frame (peer₁.table.sessions i₁).sendSeq packet))] := by
      rw [List.take_of_length_le hlen, tunPacket, if_pos hip, hroute]
      rfl
    exact ⟨_, b, hb.trans (congrArg (fun out => some (_, b, out)) hev)⟩
  · obtain ⟨n, b, out, hb, hout, -⟩ := Hop.outputs hO U b₂
      (d := { d with pkt := O.encryptBytes _ iv₁ (frame _ packet) }) hop₁ rfl hip hlen
    refine ⟨n, b, ?_⟩
    rw [hb, hout f hrelay hne, hsend.1, hsend.2]
    rfl
  · obtain ⟨n, b, out, hb, -, hout⟩ := Hop.outputs hO U b₃
      (d := { d₂ with pkt := O.encryptBytes _ iv₂ (frame _ packet) }) hop₂ rfl hip hlen
    exact ⟨n, b, by rw [hb, hout hown]⟩

/-! A relay with two peers, on the small instance of the primitives. -/

/-- An active session with the given address, key and routes that has sent and received nothing. -/
def idleSession (addr : SockAddr) (key : UInt8) (routes : List IpPrefix) :
    Session xorOpenSSL.suite :=
  { Session.zero xorOpenSSL.suite with
    active := true, addr := addr, sessionKey := xorKey key, routes := routes }

/-- A node that has just these sessions. -/
def nodeWith (sessions : List (Session xorOpenSSL.suite)) : Node xorOpenSSL.suite :=
  { Node.init [] none with
    table := ⟨fun i => sessions.getD i (Session.zero xorOpenSSL.suite), sessions.length⟩ }

/-- The prefix `10.0.0.a/32`. -/
def hostRoute (a : UInt8) : IpPrefix := ⟨BitVec.ofNat 32 (0x0a000000 + a.toNat), 0xffffffff, 32⟩

def xorCtx (k : UInt8) : LoopCtx xorOpenSSL.suite :=
  { Settings.default with staticKey := xorKey k, pskKey := none }

def xorUpdate : xorOpenSSL.Update where
  gcmUpdate _ _ c := c
  gcmUpdate_length _ _ _ := rfl
  gcmUpdate_of_decrypt k _ c t m h := by
    have h : (if t = slice k.toList 0 16 then some c else none) = some m := h
    split at h
    · exact Option.some.inj h
    · cases h

def zeroBufs : WorkerBufs :=
  ⟨List.Vector.replicate _ 0, List.Vector.replicate _ 0, List.Vector.replicate _ 0⟩

/-- Peer `1` sends to peer `2` through the relay `9`. -/
theorem relay_transparent_hosts :
    let peer₁ := nodeWith [idleSession (addrOf 9) 5 [hostRoute 2]]
    let relay := nodeWith [idleSession (addrOf 1) 5 [hostRoute 1],
      idleSession (addrOf 2) 6 [hostRoute 2]]
    let peer₂ := nodeWith [idleSession (addrOf 9) 6 [hostRoute 1]]
    let iv : Bytes 12 := List.Vector.replicate 12 7
    ∃ pkt₁ pkt₂ : List UInt8,
      (∃ n b, zeroBufs.tunBranch peer₁ (ipHeader 1 2) (some iv) true 100
        = some (n, b, [.udp (addrOf 9) pkt₁])) ∧
      (∃ n b, zeroBufs.udpBranch xorUpdate (xorCtx 9) relay
        ⟨addrOf 1, pkt₁, 101, 101, none, true, some iv⟩ = some (n, b, [.udp (addrOf 2) pkt₂])) ∧
      ∃ n b, zeroBufs.udpBranch xorUpdate (xorCtx 2) peer₂
        ⟨addrOf 9, pkt₂, 102, 102, none, true, none⟩ = some (n, b, [.tun (ipHeader 1 2)]) := by
  intro peer₁ relay peer₂ iv
  have hop₁ : Hop (peer₁.table.sessions ⟨0, by decide⟩) (xorCtx 9) relay (addrOf 1) ⟨0, by decide⟩
      iv (ipHeader 1 2) := by
    constructor <;> decide +kernel
  have hop₂ : Hop (relay.table.sessions ⟨1, by decide⟩) (xorCtx 2) peer₂ (addrOf 9) ⟨0, by decide⟩
      iv (ipHeader 1 2) := by
    constructor <;> decide +kernel
  have hown : routeLookup peer₂.table (ipAt (ipHeader 1 2) 16) = none := by decide +kernel
  exact relay_transparent xorOpenSSL_lawful xorUpdate zeroBufs zeroBufs zeroBufs
    (by decide +kernel) (by decide +kernel) 100
    ⟨addrOf 1, [], 101, 101, none, true, some iv⟩ ⟨addrOf 9, [], 102, 102, none, true, none⟩
    ⟨rfl, rfl⟩ (by decide +kernel) hop₁ (by decide +kernel) (by decide +kernel) hop₂
    fun g hg => nomatch hown.symm.trans hg

end Lanecove
