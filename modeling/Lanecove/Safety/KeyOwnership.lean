import Lanecove.Crypto.Symbolic
import Lanecove.Peer.Invariant

set_option autoImplicit false

/-! # Whose keys a session holds

A session should hold only keys that were negotiated with its own identity. That is so as
long as no handshake takes over the slot of another peer (`keys_owned`). The by-address
branch of `alloc_session` does hand out such a slot, and `session_init` then keeps the other
peer's key as the previous key: `takeover_keeps_foreign_key` is a run in which a datagram of
one peer is accepted as another's.
-/

namespace Lanecove

variable {S : Suite}

/-! ## Keys and identities -/

/-- The key was derived by this node in a handshake with `remote`, as client or as server. -/
def Negotiated (ctx : LoopCtx S) (remote key : S.Block) : Prop :=
  ∃ input : KeyInput S, key = deriveSessionKey input ∧
    (input.clientStaticPub = ctx.staticPub ∧ input.serverStaticPub = remote ∨
      input.clientStaticPub = remote ∧ input.serverStaticPub = ctx.staticPub)

theorem deriveSessionKey_injective (hS : S.HashInjective) {i j : KeyInput S}
    (h : deriveSessionKey i = deriveSessionKey j) : i = j := by
  have hb : i.blocks = j.blocks := hS h
  cases i
  cases j
  simpa [KeyInput.blocks] using hb

/-- A key belongs to one remote identity. -/
theorem Negotiated.remote_eq (hS : S.HashInjective) {ctx : LoopCtx S} {p q key : S.Block}
    (hp : Negotiated ctx p key) (hq : Negotiated ctx q key) : p = q := by
  obtain ⟨i, hi, hip⟩ := hp
  obtain ⟨j, hj, hjq⟩ := hq
  obtain rfl := deriveSessionKey_injective hS (hi.symm.trans hj)
  rcases hip with ⟨hc, hs⟩ | ⟨hc, hs⟩ <;> rcases hjq with ⟨hc', hs'⟩ | ⟨hc', hs'⟩
  · exact hs.symm.trans hs'
  · exact hs.symm.trans (hs'.trans (hc.symm.trans hc'))
  · exact hc.symm.trans (hc'.trans (hs.symm.trans hs'))
  · exact hc.symm.trans hc'

theorem negotiated_of_client {ctx : LoopCtx S} {pkt : S.Wire} {pub : S.Block}
    {st : HsClientState S} {input : KeyInput S}
    (h : clientKeyInput pkt ctx.pskKey ctx.staticKey ctx.staticPub pub st = some input) :
    Negotiated ctx pub (deriveSessionKey input) := by
  obtain ⟨_, _, _, _, _, _, -, -, -, -, -, -, rfl⟩ := clientKeyInput_eq_some h
  exact ⟨_, rfl, .inl ⟨rfl, rfl⟩⟩

theorem negotiated_of_server {ctx : LoopCtx S} {pkt : S.Wire} {pre : Option S.Priv} {ok : Bool}
    {pub key : S.Block}
    (h : (handshakeServerRespond pkt ctx.pskKey ctx.staticKey ctx.staticPub pre ok).done
      = some (pub, key)) : Negotiated ctx pub key := by
  obtain ⟨resp, hresp⟩ := handshakeServerRespond_done h
  obtain ⟨ini, e, y, -, -, -, -, -, hdone⟩ := handshakeServerRespond_sent hresp
  rw [h] at hdone
  obtain ⟨input, hin, hpair⟩ := Option.map_eq_some_iff.mp hdone.symm
  obtain ⟨rfl, rfl⟩ := Prod.mk.inj hpair
  obtain ⟨_, -, rfl⟩ := serverKeyInput_eq_some hin
  exact ⟨_, rfl, .inr ⟨rfl, rfl⟩⟩

/-! ## Ownership -/

/-- Every active session holds keys of handshakes with its own identity. -/
structure HoldsOwnKeys (n : Node S) (tr : List (Event S)) : Prop where
  current : ∀ i, (n.table.sessions i).active = true →
    ((n.table.sessions i).staticPub, (n.table.sessions i).sessionKey) ∈ completed tr
  previous : ∀ i, (n.table.sessions i).active = true →
    (n.table.sessions i).prevKeyActive = true →
    ((n.table.sessions i).staticPub, (n.table.sessions i).prevSessionKey) ∈ completed tr

/-- Moreover nothing that was encrypted under a key negotiated with one peer was accepted as coming
from another. -/
structure KeysOwned (n : Node S) (tr : List (Event S)) : Prop extends HoldsOwnKeys n tr where
  accepted : ∀ r ∈ receipts tr, ∀ q, (q, r.key) ∈ completed tr → q = r.pub

/-- The datagram is a handshake for a peer that has no session, from the address of an
active session: `alloc_session` takes the by-address branch. -/
def takesOver (ctx : LoopCtx S) (n : Node S) (d : Datagram S) : Bool :=
  match remotePeer ctx n d with
  | none => false
  | some pub => (findSessionByPub n.table pub).isNone && (findSessionByAddr n.table d.src).isSome

theorem findSessionByAddr_of_not_takesOver {ctx : LoopCtx S} {n : Node S} {d : Datagram S}
    {pub : S.Block} (hpeer : remotePeer ctx n d = some pub) (h : takesOver ctx n d = false)
    (hnone : findSessionByPub n.table pub = none) : findSessionByAddr n.table d.src = none := by
  unfold takesOver at h
  rw [hpeer] at h
  simpa [hnone] using h

/-- No step of the run takes over a slot. -/
def NoTakeover (ctx : LoopCtx S) (c : (node ctx).Config) : Input S → Prop
  | .udp d => takesOver ctx c.1 d = false
  | _ => True

instance (ctx : LoopCtx S) (c : (node ctx).Config) : ∀ inp, Decidable (NoTakeover ctx c inp)
  | .udp d => inferInstanceAs (Decidable (takesOver ctx c.1 d = false))
  | .tun .. => isTrue trivial
  | .housekeeping _ => isTrue trivial

/-- What the trace says about the keys in use. Slots in use lie below `session_slots`; completed
handshakes derived their keys; the current key of a session was negotiated with its identity,
and its previous key with an identity that stands in relation `own` to it; packets are sent
under the current key and accepted under one of the two. -/
structure KeyInv (own : S.Block → S.Block → Prop) (ctx : LoopCtx S) (n : Node S)
    (tr : List (Event S)) : Prop where
  below : n.table.Below
  negotiated : ∀ p k, .hsDone p k ∈ tr → Negotiated ctx p k
  current : ∀ i, (n.table.sessions i).active = true →
    .hsDone (n.table.sessions i).staticPub (n.table.sessions i).sessionKey ∈ tr
  previous : ∀ i, (n.table.sessions i).active = true →
    (n.table.sessions i).prevKeyActive = true →
    ∃ p, own p (n.table.sessions i).staticPub ∧
      .hsDone p (n.table.sessions i).prevSessionKey ∈ tr
  sent : ∀ d, .dataSent d ∈ tr → .hsDone d.pub d.key ∈ tr ∧
    ∃ iv, d.pkt = S.encryptPacket d.key iv (frame d.seq d.payload)
  accepted : ∀ r, .accepted r ∈ tr → (∃ p, own p r.pub ∧ .hsDone p r.key ∈ tr) ∧
    (r.usedPrev = false → .hsDone r.pub r.key ∈ tr) ∧
    ∃ plain, S.decryptPacket r.key r.pkt = some plain ∧ unframe plain = some (r.seq, r.payload)

namespace KeyInv

variable {own : S.Block → S.Block → Prop} {ctx : LoopCtx S} {n n' : Node S}
  {tr ev : List (Event S)}

theorem init (own : S.Block → S.Block → Prop) (ctx : LoopCtx S) (cfgs : List (PeerConfig S))
    (fresh : Option S.Priv) : KeyInv own ctx (Node.init cfgs fresh) [] where
  below := by rintro i ⟨⟩
  negotiated := by rintro p k ⟨⟩
  current := by rintro i ⟨⟩
  previous := by rintro i ⟨⟩
  sent := by rintro d ⟨⟩
  accepted := by rintro r ⟨⟩

/-- The trace grows by events that are about keys the trace already has. -/
theorem keeps (h : KeyInv own ctx n tr) (hslots : n'.table.slots = n.table.slots)
    (hk : ∀ i, Keeps (n.table.sessions i) (n'.table.sessions i))
    (hdone : ∀ p k, .hsDone p k ∈ ev → Negotiated ctx p k)
    (hsent : ∀ d, .dataSent d ∈ ev → SentOn n d)
    (hacc : ∀ r, .accepted r ∈ ev → (∃ p, own p r.pub ∧ .hsDone p r.key ∈ tr) ∧
      (r.usedPrev = false → .hsDone r.pub r.key ∈ tr) ∧
      ∃ plain, S.decryptPacket r.key r.pkt = some plain ∧
        unframe plain = some (r.seq, r.payload)) : KeyInv own ctx n' (tr ++ ev) := by
  have hgrow : ∀ e, e ∈ tr → e ∈ tr ++ ev := fun e he => List.mem_append_left _ he
  have haccept : ∀ r, .accepted r ∈ tr ++ ev → (∃ p, own p r.pub ∧ .hsDone p r.key ∈ tr) ∧
      (r.usedPrev = false → .hsDone r.pub r.key ∈ tr) ∧
      ∃ plain, S.decryptPacket r.key r.pkt = some plain ∧
        unframe plain = some (r.seq, r.payload) := by
    intro r hr
    rcases List.mem_append.mp hr with hr | hr
    · exact h.accepted r hr
    · exact hacc r hr
  refine ⟨?_, ?_, ?_, ?_, ?_, ?_⟩
  · intro i hi
    rw [hslots]
    exact h.below i ((hk i).active hi)
  · intro p k hpk
    rcases List.mem_append.mp hpk with hpk | hpk
    · exact h.negotiated p k hpk
    · exact hdone p k hpk
  · intro i hi
    rw [(hk i).staticPub, (hk i).sessionKey]
    exact hgrow _ (h.current i ((hk i).active hi))
  · intro i hi hp
    rw [(hk i).staticPub, (hk i).prevSessionKey]
    obtain ⟨p, hown, hmem⟩ := h.previous i ((hk i).active hi) ((hk i).prevKeyActive hp)
    exact ⟨p, hown, hgrow _ hmem⟩
  · intro d hd
    rcases List.mem_append.mp hd with hd | hd
    · obtain ⟨hmem, hpkt⟩ := h.sent d hd
      exact ⟨hgrow _ hmem, hpkt⟩
    · have hon := hsent d hd
      refine ⟨?_, hon.pkt⟩
      rw [hon.pub, hon.key]
      exact hgrow _ (h.current _ hon.active)
  · intro r hr
    obtain ⟨⟨p, hown, hmem⟩, hcur, hplain⟩ := haccept r hr
    exact ⟨⟨p, hown, hgrow _ hmem⟩, fun hu => hgrow _ (hcur hu), hplain⟩

/-- An event that is no completed handshake and neither a sent nor an accepted packet. -/
theorem other (h : KeyInv own ctx n tr) (htb : n'.table = n.table) {e : Event S}
    (hdone : ∀ p k, e = .hsDone p k → Negotiated ctx p k) (hsent : ∀ d, e ≠ .dataSent d)
    (hacc : ∀ r, e ≠ .accepted r) : KeyInv own ctx n' (tr ++ [e]) := by
  refine h.keeps (by rw [htb]) (fun i => by rw [htb]; exact Keeps.refl _) ?_ ?_ ?_
  · intro p k hmem
    exact hdone p k (List.mem_singleton.mp hmem).symm
  · intro d hmem
    exact absurd (List.mem_singleton.mp hmem).symm (hsent d)
  · intro r hmem
    exact absurd (List.mem_singleton.mp hmem).symm (hacc r)

/-- A completed handshake recorded in the trace. -/
theorem done (h : KeyInv own ctx n tr) (htb : n'.table = n.table) {p k : S.Block}
    (hpk : Negotiated ctx p k) : KeyInv own ctx n' (tr ++ [.hsDone p k]) := by
  apply h.other htb
  · rintro p' k' ⟨rfl, rfl⟩
    exact hpk
  · rintro d ⟨⟩
  · rintro r ⟨⟩

theorem accept (hrefl : ∀ p, own p p) (h : KeyInv own ctx n tr) {r : Receipt S}
    {s : Session S} {src : SockAddr} {pkt : S.Wire} {now : Int} {dl : List (Event S)}
    (hf : findSessionByAddr n.table src = some r.slot)
    (hr : receive (n.table.sessions r.slot) r.slot pkt now = (s, some r))
    (hdl : dl = [] ∨ ∃ f, dl = [.delivered r f]) :
    KeyInv own ctx (n.setSession r.slot s) (tr ++ .accepted r :: dl) := by
  obtain ⟨-, hact, -⟩ := findSessionByAddr_eq_some hf
  refine h.keeps rfl (setSession_keeps (receive_keeps hr)) ?_ ?_ ?_
  · intro p k hpk
    rcases hdl with rfl | ⟨f, rfl⟩ <;> simp at hpk
  · intro d hd
    rcases hdl with rfl | ⟨f, rfl⟩ <;> simp at hd
  · intro r' hr'
    obtain rfl : r' = r := by
      rcases hdl with rfl | ⟨f, rfl⟩ <;> simpa using hr'
    obtain ⟨-, hpub, rfl, -, hplain, hkey⟩ := receive_eq_some hr
    rcases hkey with ⟨-, hkey, -⟩ | ⟨hprev, hkey, hact', -⟩
    · -- the current key is the peer's own, the previous one perhaps of the peer before
      have hmem : .hsDone r'.pub r'.key ∈ tr := by
        rw [hpub, hkey]
        exact h.current _ hact
      exact ⟨⟨r'.pub, hrefl _, hmem⟩, fun _ => hmem, hplain⟩
    · obtain ⟨p, hown, hmem⟩ := h.previous _ hact hact'
      rw [← hpub] at hown
      rw [← hkey] at hmem
      refine ⟨⟨p, hown, hmem⟩, ?_, hplain⟩
      intro hcur
      rw [hprev] at hcur
      cases hcur

/-- The session of a completed handshake. Its previous key is the current key of the slot
before, which is the peer's own unless the slot was found by address. -/
theorem install (hrefl : ∀ p, own p p) (h : KeyInv own ctx n tr) {d : Datagram S}
    {pub key : S.Block} {i : Fin MAX_PEERS} {tb : SessionTable S} (cfg : PeerConfig S) (out : Bool)
    (hfree : findSessionByPub n.table pub = none → findSessionByAddr n.table d.src = some i →
      own (n.table.sessions i).staticPub pub)
    (hdone : .hsDone pub key ∈ tr) (hal : allocSession n.table pub d.src = some (i, tb))
    (e : Install S) :
    KeyInv own ctx (installAt ctx n d i tb pub key cfg out) (tr ++ [.installed e]) := by
  have hgrow : ∀ a, a ∈ tr → a ∈ tr ++ [.installed e] := fun a ha => List.mem_append_left _ ha
  refine ⟨h.below.set hal, ?_, ?_, ?_, ?_, ?_⟩
  · intro p k hpk
    exact h.negotiated p k (by simpa using hpk)
  · intro j hj
    refine hgrow _ ?_
    by_cases hji : j = i
    · subst hji
      rw [installAt_sessions_self]
      exact hdone
    · rw [installAt_sessions_ne hal hji] at hj ⊢
      exact h.current j hj
  · intro j hj hp
    by_cases hji : j = i
    · subst hji
      rw [installAt_sessions_self] at hp ⊢
      have hact : (n.table.sessions j).active = true := hp
      have hcur := hgrow _ (h.current j hact)
      -- the slot was active; whose session was it?
      refine ⟨(n.table.sessions j).staticPub, ?_, by simpa [sessionInit, hact] using hcur⟩
      rcases allocSession_slot h.below hal with hpub | ⟨hnone, haddr⟩ | ⟨-, -, hfree'⟩
      · obtain ⟨-, -, hown⟩ := findSessionByPub_eq_some hpub
        rw [hown]
        exact hrefl pub
      · exact hfree hnone haddr
      · rw [hact] at hfree'
        cases hfree'
    · rw [installAt_sessions_ne hal hji] at hj hp ⊢
      obtain ⟨p, hown, hmem⟩ := h.previous j hj hp
      exact ⟨p, hown, hgrow _ hmem⟩
  · intro d' hd'
    obtain ⟨hmem, hpkt⟩ := h.sent d' (by simpa using hd')
    exact ⟨hgrow _ hmem, hpkt⟩
  · intro r hr
    obtain ⟨⟨p, hown, hmem⟩, hcur, hplain⟩ := h.accepted r (by simpa using hr)
    exact ⟨⟨p, hown, hgrow _ hmem⟩, fun hu => hgrow _ (hcur hu), hplain⟩

end KeyInv

/-- A step keeps the invariant if the guard bears out the relation where a handshake gets the
slot of another peer. -/
theorem keyInv_preserves {own : S.Block → S.Block → Prop} (hrefl : ∀ p, own p p)
    (ctx : LoopCtx S) {G : Node S → List (Event S) → Datagram S → Prop}
    (hG : ∀ n tr d pub i, G n tr d → remotePeer ctx n d = some pub →
      findSessionByPub n.table pub = none → findSessionByAddr n.table d.src = some i →
      own (n.table.sessions i).staticPub pub) :
    Preserves ctx (fun _ => True) G (KeyInv own ctx) where
  quiet _ hI hq := by
    refine hI.keeps hq.slots hq.keeps ?_ ?_ ?_
    · intro p k hpk
      exact (hq.emits _ hpk).elim
    · intro d hd
      exact hq.emits _ hd
    · intro r hr
      exact (hq.emits _ hr).elim
  accept _ _ hI hf hr hdl := hI.accept hrefl hf hr hdl
  answer _ _ hI _ _ := by
    apply hI.other rfl
    · rintro p k ⟨⟩
    · rintro d ⟨⟩
    · rintro r ⟨⟩
  initiator _ _ hI _ hi := hI.done (Node.setPending_table ..) (negotiated_of_client hi)
  responder _ _ _ hI _ hd := hI.done (refreshPrecompEph_table _ _) (negotiated_of_server hd)
  install _ hg hpeer htb _ hI _ hdone hal := by
    refine hI.install hrefl _ _ ?_ hdone hal _
    rw [htb]
    exact hG _ _ _ _ _ hg hpeer

theorem KeyInv.holdsOwnKeys {ctx : LoopCtx S} {n : Node S} {tr : List (Event S)}
    (h : KeyInv Eq ctx n tr) : HoldsOwnKeys n tr where
  current i hi := mem_completed.mpr (h.current i hi)
  previous i hi hp := by
    obtain ⟨p, rfl, hmem⟩ := h.previous i hi hp
    exact mem_completed.mpr hmem

theorem KeyInv.accepted_pub (hS : S.HashInjective) {ctx : LoopCtx S} {n : Node S}
    {tr : List (Event S)} (h : KeyInv Eq ctx n tr) {r : Receipt S} (hr : r ∈ receipts tr)
    {q : S.Block} (hq : (q, r.key) ∈ completed tr) : q = r.pub := by
  obtain ⟨⟨p, rfl, hmem⟩, -⟩ := h.accepted r (mem_receipts.mp hr)
  exact (h.negotiated _ _ (mem_completed.mp hq)).remote_eq hS (h.negotiated _ _ hmem)

/-- **Key ownership.** In every run in which no handshake takes over the slot of another
peer, every active session holds keys of handshakes with its own identity only. If the key
derivation has no collisions, no packet encrypted under a key negotiated with one peer is accepted
as coming from another. -/
theorem keys_owned (ctx : LoopCtx S) (cfgs : List (PeerConfig S)) (fresh : Option S.Priv)
    (is : List (Input S))
    (hrun : (node ctx).Along (NoTakeover ctx) (Node.init cfgs fresh, []) is) :
    HoldsOwnKeys ((node ctx).run (Node.init cfgs fresh, []) is).1
      ((node ctx).run (Node.init cfgs fresh, []) is).2 ∧
    (S.HashInjective → KeysOwned ((node ctx).run (Node.init cfgs fresh, []) is).1
      ((node ctx).run (Node.init cfgs fresh, []) is).2) := by
  have hpres : Preserves ctx (fun _ => True) (fun n _ d => takesOver ctx n d = false)
      (KeyInv Eq ctx) := by
    apply keyInv_preserves (fun _ => rfl)
    intro n tr d pub i hG hpeer hnone haddr
    rw [findSessionByAddr_of_not_takesOver hpeer hG hnone] at haddr
    cases haddr
  have hinv : KeyInv Eq ctx ((node ctx).run (Node.init cfgs fresh, []) is).1
      ((node ctx).run (Node.init cfgs fresh, []) is).2 := by
    refine hpres.run ?_ (KeyInv.init Eq ctx cfgs fresh) hrun
    intro c inp hG
    refine ⟨trivial, ?_⟩
    rintro d rfl
    exact hG
  refine ⟨hinv.holdsOwnKeys, fun hS => ⟨hinv.holdsOwnKeys, ?_⟩⟩
  intro r hr q hq
  exact hinv.accepted_pub hS hr hq

/-! ## A small network

Nodes with numbered static keys and the default settings, without a PSK, on the symbolic
suite. -/

/-- The node with static key `k`. -/
def ctxOf (k : Nat) : LoopCtx symbolic := { Settings.default with staticKey := k, pskKey := none }

/-- The configuration of the peer with static key `k`, without an endpoint. -/
def peerOf (k : Nat) : PeerConfig symbolic := { PeerConfig.zero symbolic with pub := Msg.pub k }

def addrOf (k : Nat) : SockAddr := ⟨BitVec.ofNat 32 k, 5040⟩

/-- The configuration of the peer with static key `k`, with an endpoint. -/
def endpointOf (k : Nat) : PeerConfig symbolic :=
  { peerOf k with hasEndpoint := true, endpoint := addrOf k }

/-- The initiation of client `cs` to server `ss` with the ephemeral key `ce`. -/
def initiationOf (cs ss ce : Nat) : Msg :=
  initiationPacket (S := symbolic) none (Msg.pub cs) ce (Term.exp ce (Msg.pub ss))

/-- The key of a handshake between client `cs` and server `ss` with their ephemeral keys. -/
def keyOf (cs ss ce se : Nat) : Msg :=
  deriveSessionKey (S := symbolic)
    ⟨Term.exp ce (Msg.pub se), Term.exp se (Msg.pub cs), Term.exp ce (Msg.pub ss), Msg.pub ce,
      Msg.pub se, Msg.pub cs, Msg.pub ss⟩

/-- A datagram that arrives at time `now`; the node's next ephemeral key is `fresh`. -/
def arrival (src : SockAddr) (pkt : Msg) (now : Int) (fresh : Nat) : Input symbolic :=
  .udp ⟨src, pkt, now, now, some fresh, true, none⟩

theorem during_arrival {t now : Int} (src : SockAddr) (pkt : Msg) (fresh : Nat) (h : t ≤ now) :
    (arrival src pkt now fresh).During t now := ⟨le_rfl, h, le_rfl⟩

/-- The response of the server `ss` with the ephemeral key `se` to the client ephemeral key
`ce`. -/
def responseOf (ss ce se : Nat) : Msg :=
  responsePacket (S := symbolic) none (Msg.pub ss) se (Term.exp se (Msg.pub ce))

/-- A housekeeping pass at time `now`, in which initiations use the ephemeral key `e` and no
keepalive is sent. -/
def passAt (now : Int) (e : Nat) : Input symbolic :=
  .housekeeping
    { now := now
      getaddrinfo := fun _ _ _ => none
      clock := fun _ => now
      initSentAt := fun _ => now
      fresh := fun _ => some e
      initOk := fun _ => true
      iv := fun _ => none
      sendOk := fun _ => false
      sentAt := fun _ => now }

theorem during_passAt {t now : Int} (e : Nat) (h : t ≤ now) : (passAt now e).During t now :=
  ⟨h, le_rfl, fun _ => ⟨le_rfl, h, le_rfl, le_rfl⟩, fun _ => ⟨h, le_rfl⟩⟩

/-- A data packet with sequence number `seq` under key `k`. -/
def dataOf (k : Msg) (seq : BitVec 64) (payload : List UInt8) : Msg :=
  symbolic.encryptPacket k [] (frame seq payload)

/-- Node `1` with peers `2` and `3`; its first ephemeral key is `100`. -/
def twoPeers : (node (ctxOf 1)).Config := (Node.init [peerOf 2, peerOf 3] (some 100), [])

/-- Both peers connect, from different addresses, and peer `3` sends data. -/
def separateRun : List (Input symbolic) :=
  [arrival (addrOf 3) (initiationOf 3 1 11) 100 101,
    arrival (addrOf 2) (initiationOf 2 1 12) 200 102,
    arrival (addrOf 3) (dataOf (keyOf 3 1 11 100) 1 [7]) 210 103]

theorem keys_owned_separateRun :
    (node (ctxOf 1)).Along (NoTakeover (ctxOf 1)) twoPeers separateRun ∧
    (receipts ((node (ctxOf 1)).run twoPeers separateRun).2).map (·.pub) = [Msg.pub 3] ∧
    KeysOwned ((node (ctxOf 1)).run twoPeers separateRun).1
      ((node (ctxOf 1)).run twoPeers separateRun).2 := by
  have hrun : (node (ctxOf 1)).Along (NoTakeover (ctxOf 1)) twoPeers separateRun := by
    decide +kernel
  refine ⟨hrun, by decide +kernel, ?_⟩
  exact (keys_owned (ctxOf 1) [peerOf 2, peerOf 3] (some 100) separateRun hrun).2
    symbolic_hashInjective

/-- Peer `3` connects; later peer `2` connects from the same address; then a datagram that
peer `3` encrypted under its own key arrives. -/
def takeoverRun : List (Input symbolic) :=
  [arrival (addrOf 3) (initiationOf 3 1 11) 100 101,
    arrival (addrOf 3) (initiationOf 2 1 12) 200 102,
    arrival (addrOf 3) (dataOf (keyOf 3 1 11 100) 1 [7]) 210 103]

/-- The datagram of peer `3` is accepted as coming from peer `2`. -/
theorem takeover_keeps_foreign_key :
    ¬ KeysOwned ((node (ctxOf 1)).run twoPeers takeoverRun).1
        ((node (ctxOf 1)).run twoPeers takeoverRun).2 ∧
    ∃ r ∈ receipts ((node (ctxOf 1)).run twoPeers takeoverRun).2,
      r.pub = Msg.pub 2 ∧
        (Msg.pub 3, r.key) ∈ completed ((node (ctxOf 1)).run twoPeers takeoverRun).2 := by
  have hacc : ∃ r ∈ receipts ((node (ctxOf 1)).run twoPeers takeoverRun).2,
      r.pub = Msg.pub 2 ∧
        (Msg.pub 3, r.key) ∈ completed ((node (ctxOf 1)).run twoPeers takeoverRun).2 := by
    decide +kernel
  refine ⟨?_, hacc⟩
  intro howned
  obtain ⟨r, hr, hpub, hdone⟩ := hacc
  have heq := howned.accepted r hr (Msg.pub 3) hdone
  rw [hpub] at heq
  exact absurd heq (by decide)

end Lanecove
