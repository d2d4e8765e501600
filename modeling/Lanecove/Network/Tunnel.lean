import Lanecove.Basic.Rekeying
import Lanecove.Network.Origin
import Lanecove.Safety.SingleRekey

set_option autoImplicit false

/-! # The two ends of a tunnel

An initiator (`client`) and a responder (`server`) that share a session, on a network that
loses, delays, reorders and repeats their datagrams and does nothing else. `ClientEnd` and
`ServerEnd` are what each end can rely on about its own state and the datagrams it has sent;
`clientOf` and `serverOf` read off each end its part of the abstract protocol of
`Basic/Rekeying.lean`. `Network/Simulation.lean` shows that the nodes follow that protocol.
-/

namespace Lanecove

variable {S : Suite}

/-- Two nodes with a session between them: their addresses, the slots of the session in their
tables, and the handshake that gave them the key they start with. -/
structure Tunnel (S : Suite) where
  client : LoopCtx S
  server : LoopCtx S
  clientAddr : SockAddr
  serverAddr : SockAddr
  clientSlot : Fin MAX_PEERS
  serverSlot : Fin MAX_PEERS
  first : KeyInput S
  samePsk : server.pskKey = client.pskKey

/-! ## Datagrams -/

/-- The packet is an encrypted frame. -/
def Sending.Framed (d : Sending S) : Prop :=
  ∃ iv, d.pkt = S.encryptPacket d.key iv (frame d.seq d.payload)

/-- The data packets sent to an address: key and sequence number. -/
def dataTo (tr : List (Event S)) (dst : SockAddr) : Set (S.Block × Nat) :=
  { p | ∃ d, .dataSent d ∈ tr ∧ d.dst = dst ∧ p = (d.key, d.seq.toNat) }

section Packets

variable (hS : S.Ideal)
include hS

/-- An encrypted identity opens under its own secret only, to what was encrypted. -/
theorem decryptIdentity_eq_some {x y pub pub' : S.Block}
    (h : decryptIdentity x (encryptIdentity y pub) = some pub') : x = y ∧ pub = pub' := by
  have hkey := hS.gcmOpen_key _ _ _ _ h
  have hxy : x = y := by simpa using hS.hashInjective hkey
  refine ⟨hxy, ?_⟩
  rw [hxy, decryptIdentity, encryptIdentity, hS.gcmOpen_gcmSeal] at h
  exact Option.some.inj h

/-- A framed packet decrypts under its own key only, to its frame. -/
theorem Sending.Framed.decrypt {d : Sending S} (hd : d.Framed) {k : S.Block}
    {plain : List UInt8} (h : S.decryptPacket k d.pkt = some plain) :
    d.key = k ∧ unframe plain = some (d.seq, d.payload) := by
  obtain ⟨iv, hpkt⟩ := hd
  have hown : S.decryptPacket d.key d.pkt = some (frame d.seq d.payload) := by
    rw [hpkt]
    exact hS.decrypt_encrypt ..
  have hk := hS.oneKey _ _ _ _ _ hown h
  rw [← hk, hown] at h
  rw [← Option.some.inj h]
  exact ⟨hk, unframe_frame ..⟩

end Packets

/-! ## One end -/

/-- The session with the peer `pub` at `src` is in slot `i`, and no other session has that
identity or address. -/
structure HasSession (i : Fin MAX_PEERS) (src : SockAddr) (pub : S.Block) (n : Node S) :
    Prop where
  below : n.table.Below
  active : (n.table.sessions i).active = true
  staticPub : (n.table.sessions i).staticPub = pub
  addr : (n.table.sessions i).addr = src
  only : ∀ k, (n.table.sessions k).active = true →
    (n.table.sessions k).addr = src ∨ (n.table.sessions k).staticPub = pub → k = i

namespace HasSession

variable {i : Fin MAX_PEERS} {src : SockAddr} {pub : S.Block} {n n' : Node S}

theorem byPub (h : HasSession i src pub n) : findSessionByPub n.table pub = some i := by
  cases hf : findSessionByPub n.table pub with
  | none => exact absurd h.staticPub (findSessionByPub_eq_none hf (h.below i h.active) h.active)
  | some k =>
      obtain ⟨-, hact, hpub⟩ := findSessionByPub_eq_some hf
      rw [h.only k hact (.inr hpub)]

theorem byAddr (h : HasSession i src pub n) : findSessionByAddr n.table src = some i := by
  cases hf : findSessionByAddr n.table src with
  | none => exact absurd h.addr (findSessionByAddr_eq_none hf (h.below i h.active) h.active)
  | some k =>
      obtain ⟨-, hact, haddr⟩ := findSessionByAddr_eq_some hf
      rw [h.only k hact (.inl haddr)]

theorem slot_of_sentOn (h : HasSession i src pub n) {d : Sending S} (hd : SentOn n d)
    (hdst : d.dst = src) : d.slot = i :=
  h.only d.slot hd.active (.inl (hd.dst.symm.trans hdst))

/-- No key is installed and the session does not expire. -/
theorem keeps (h : HasSession i src pub n) (hslots : n'.table.slots = n.table.slots)
    (hk : ∀ k, Keeps (n.table.sessions k) (n'.table.sessions k))
    (halive : (n'.table.sessions i).active = true) : HasSession i src pub n' where
  below k hact := by
    rw [hslots]
    exact h.below k ((hk k).active hact)
  active := halive
  staticPub := (hk i).staticPub.trans h.staticPub
  addr := (hk i).addr.trans h.addr
  only k hact hor := by
    rw [(hk k).addr, (hk k).staticPub] at hor
    exact h.only k ((hk k).active hact) hor

/-- A new key for the session, from the peer's address. -/
theorem install (h : HasSession i src pub n) (ctx : LoopCtx S) {d : Datagram S}
    (hsrc : d.src = src) (key : S.Block) (cfg : PeerConfig S) (out : Bool) :
    HasSession i src pub (installAt ctx n d i n.table pub key cfg out) := by
  have hal := allocSession_of_findSessionByPub h.byPub d.src
  refine ⟨h.below.set hal, ?_, ?_, ?_, ?_⟩
  · rw [installAt_sessions_self]; rfl
  · rw [installAt_sessions_self]; rfl
  · rw [installAt_sessions_self]; exact hsrc
  · intro k hact hor
    by_cases hki : k = i
    · exact hki
    · rw [installAt_sessions_ne hal hki] at hact hor
      exact h.only k hact hor

end HasSession

/-! ## The network -/

/-- A newly generated key: its public half is not the static key, not the precomputed key, not
from the first handshake, and on no datagram the node has sent. -/
structure FreshKey (T : Tunnel S) (ctx : LoopCtx S) (c : (node ctx).Config) (e : S.Priv) :
    Prop where
  static : S.pubOf e ≠ ctx.staticPub
  first : S.pubOf e ≠ T.first.serverEphPub
  precomp : c.1.precompEphKey.map S.pubOf ≠ some (S.pubOf e)
  sent : ∀ w ∈ wires c.2, ephPubOf ctx w ≠ some (S.pubOf e)

instance (T : Tunnel S) (ctx : LoopCtx S) (c : (node ctx).Config) (e : S.Priv) :
    Decidable (FreshKey T ctx c e) :=
  decidable_of_iff
    (S.pubOf e ≠ ctx.staticPub ∧ S.pubOf e ≠ T.first.serverEphPub ∧
      c.1.precompEphKey.map S.pubOf ≠ some (S.pubOf e) ∧
      ∀ w ∈ wires c.2, ephPubOf ctx w ≠ some (S.pubOf e))
    ⟨fun h => ⟨h.1, h.2.1, h.2.2.1, h.2.2.2⟩, fun h => ⟨h.static, h.first, h.precomp, h.sent⟩⟩

/-- A step of the end with address `own` and its session in slot `i`. Datagrams come from the
other end only, which has sent them to this one at some time before. Key generation succeeds
and gives new keys, the sequence numbers are not used up, and the session does not expire. -/
structure Undisturbed (T : Tunnel S) (ctx : LoopCtx S) (i : Fin MAX_PEERS)
    (own remote : SockAddr) (c : (node ctx).Config) (other : List (Event S)) (inp : Input S) :
    Prop where
  delivered : ∀ d, inp = .udp d → d.src = remote ∧ (own, d.pkt) ∈ datagrams other
  fresh : ∀ e, inp.offers e → FreshKey T ctx c e
  generated : ∀ d, inp = .udp d → d.fresh.isSome = true
  room : (c.1.table.sessions i).sendSeq.toNat + 1 < 2 ^ 64
  alive : (((node ctx).step c.1 inp).1.table.sessions i).active = true

theorem Undisturbed.carried {T : Tunnel S} {ctx : LoopCtx S} {i : Fin MAX_PEERS}
    {own remote : SockAddr} {c : (node ctx).Config} {other : List (Event S)} {inp : Input S}
    (h : Undisturbed T ctx i own remote c other inp) {pkt : S.Wire} (hc : inp.carries pkt) :
    (own, pkt) ∈ datagrams other := by
  cases inp with
  | udp d =>
      obtain rfl : d.pkt = pkt := hc
      exact (h.delivered d rfl).2
  | tun packet iv ok now => exact hc.elim
  | housekeeping pass => exact hc.elim

/-- Datagrams are lost, delayed, reordered and repeated, and nothing else happens to them. -/
def Lossy (T : Tunnel S) (c : (network T.client T.server).Config) : Input S ⊕ Input S → Prop
  | .inl inp => Undisturbed T T.client T.clientSlot T.clientAddr T.serverAddr (Machine.left c)
      (Machine.right c).2 inp
  | .inr inp => Undisturbed T T.server T.serverSlot T.serverAddr T.clientAddr (Machine.right c)
      (Machine.left c).2 inp

/-! ## The initiator -/

/-- What holds at the initiator: its session with the responder, at most one rekey that waits
for a response, and what its datagrams are made of. -/
structure ClientEnd (T : Tunnel S) (c : (node T.client).Config) : Prop where
  session : HasSession T.clientSlot T.serverAddr T.server.staticPub c.1
  rekey : SingleRekey T.server.staticPub T.clientSlot c.1
  pending : ∀ j, c.1.waitsFor T.server.staticPub j → ∃ e x,
    (c.1.pendingHs j).hsState = ⟨some e, S.pubOf e, x⟩ ∧
      S.x25519 e T.server.staticPub = some x
  initiations : ∀ dst pkt, .initSent dst pkt ∈ c.2 → ∃ e x,
    pkt = initiationPacket T.client.pskKey T.client.staticPub e x ∧
      S.pubOf e ≠ T.client.staticPub
  responses : ∀ dst pkt, .respSent dst pkt ∉ c.2
  data : ∀ d, .dataSent d ∈ c.2 → d.Framed

/-- The numbers a session rejects. -/
def seenBy (s : Session S) : Set Nat := { q | ∃ v : BitVec 64, v.toNat = q ∧ s.recvSeq.Seen v }

/-- The initiator as the client of the abstract protocol. Offers are ephemeral public keys. -/
def clientOf (T : Tunnel S) (c : (node T.client).Config) : Rekeying.Client S.Block S.Block where
  key := (c.1.table.sessions T.clientSlot).sessionKey
  offered := { e | ∃ w ∈ wires c.2, ephPubOf T.client w = some e }
  waiting := { e | ∃ j, c.1.waitsFor T.server.staticPub j ∧ (c.1.pendingHs j).hsState.ephPub = e }
  seq := (c.1.table.sessions T.clientSlot).sendSeq.toNat
  sent := dataTo c.2 T.serverAddr
  seen := seenBy (c.1.table.sessions T.clientSlot)

/-! ## The responder -/

/-- The responder's part of a handshake with the initiator: the two ephemeral keys and the
three secrets. The initiator's ephemeral key is not its static key. -/
structure Handshake (T : Tunnel S) where
  ce : S.Priv
  se : S.Priv
  ecdhEph : S.Block
  ecdhScEs : S.Block
  ecdhEcSs : S.Block
  eph : S.x25519 se (S.pubOf ce) = some ecdhEph
  scEs : S.x25519 se T.client.staticPub = some ecdhScEs
  ecSs : S.x25519 T.server.staticKey (S.pubOf ce) = some ecdhEcSs
  static : S.pubOf ce ≠ T.client.staticPub

namespace Handshake

variable {T : Tunnel S} (h : Handshake T)

/-- The response that is sent. -/
def response : S.Wire := responsePacket T.client.pskKey T.server.staticPub h.se h.ecdhEph

def input : KeyInput S :=
  ⟨h.ecdhEph, h.ecdhScEs, h.ecdhEcSs, S.pubOf h.ce, S.pubOf h.se, T.client.staticPub,
    T.server.staticPub⟩

/-- The key that is installed. -/
def key : S.Block := deriveSessionKey h.input

end Handshake

/-- The datagram is the response of a handshake whose key was installed, for an initiation
with the same ephemeral key. -/
def Answers (T : Tunnel S) (tr : List (Event S)) (w : S.Wire) : Prop :=
  ∃ (h : Handshake T) (i : Install S), w = h.response ∧ .installed i ∈ tr ∧
    ephPubOf T.client i.pkt = some (S.pubOf h.ce) ∧ i.key = h.key

/-- All keys the responder has had for the session, newest first. -/
def history (T : Tunnel S) (tr : List (Event S)) : List S.Block :=
  ((installs tr).map Install.key).reverse ++ [deriveSessionKey T.first]

/-- What holds at the responder: its session with the initiator, an unused precomputed key, no
handshakes of its own, what its datagrams are made of, and its keys so far. -/
structure ServerEnd (T : Tunnel S) (c : (node T.server).Config) : Prop where
  session : HasSession T.serverSlot T.clientAddr T.client.staticPub c.1
  idle : ∀ j, (c.1.pendingHs j).active = false
  noEndpoint : ∀ idx, (c.1.config idx).hasEndpoint = false
  configured : T.client.staticPub ∈ c.1.peerConfigs.map PeerConfig.pub
  precomp : ∃ e, c.1.precompEphKey = some e ∧ S.pubOf e ≠ T.first.serverEphPub ∧
    ∀ w ∈ wires c.2, ephPubOf T.server w ≠ some (S.pubOf e)
  initiations : ∀ dst pkt, .initSent dst pkt ∉ c.2
  responses : ∀ dst w, .respSent dst w ∈ c.2 → Answers T c.2 w
  data : ∀ d, .dataSent d ∈ c.2 → d.Framed
  latest : ∃ older,
    history T c.2 = (c.1.table.sessions T.serverSlot).sessionKey :: older
  previous : ∀ p rest,
    history T c.2 = (c.1.table.sessions T.serverSlot).sessionKey :: p :: rest →
    (c.1.table.sessions T.serverSlot).prevSessionKey = p ∧
    (c.1.table.sessions T.serverSlot).prevKeyExpires
      = (c.1.table.sessions T.serverSlot).lastHandshake + T.server.prevKeyGrace
  keys : ∀ k ∈ history T c.2, ∃ input : KeyInput S, k = deriveSessionKey input ∧
    (input.serverEphPub = T.first.serverEphPub ∨
      ∃ w ∈ wires c.2, ephPubOf T.server w = some input.serverEphPub)

/-- The responder as the server of the abstract protocol. -/
def serverOf (T : Tunnel S) (c : (node T.server).Config) : Rekeying.Server S.Block S.Block where
  key := (c.1.table.sessions T.serverSlot).sessionKey
  older := (history T c.2).tail
  answers := { p | ∃ i, .installed i ∈ c.2 ∧ ephPubOf T.client i.pkt = some p.1 ∧ i.key = p.2 }
  seq := (c.1.table.sessions T.serverSlot).sendSeq.toNat
  sent := dataTo c.2 T.clientAddr
  seen := seenBy (c.1.table.sessions T.serverSlot)
  keepsPrev := (c.1.table.sessions T.serverSlot).prevKeyActive = true

theorem ServerEnd.keys_eq {T : Tunnel S} {c : (node T.server).Config} (h : ServerEnd T c) :
    (serverOf T c).keys = history T c.2 := by
  obtain ⟨older, holder⟩ := h.latest
  show _ :: (history T c.2).tail = history T c.2
  rw [holder]
  rfl

end Lanecove
