import Lanecove.Safety.HandshakeOutcome

set_option autoImplicit false

/-! # Copies of an initiation

An initiation carries nothing that makes it fresh: a copy of one that was accepted opens to
the same identity again. What stops a copy is time, not content. `initiation_copy` says
exactly when: within the cooldown of the session at the source address or of the peer's own
session the table does not change, and outside of both a copy is as good as a new initiation. In
`copy_moves_session` a copy from a foreign address takes the session there.
-/

namespace Lanecove

variable {S : Suite}

/-- Every inbound session was installed for an initiation that opens to the identity of a
configured peer. -/
def InboundInv (ctx : LoopCtx S) (n : Node S) (tr : List (Event S)) : Prop :=
  ∀ e, .installed e ∈ tr → e.isOutbound = false →
    isHandshake ctx e.pkt = true ∧
    (openInitiation e.pkt ctx.pskKey ctx.staticKey).map Initiation.clientStaticPub
      = some e.pub ∧
    e.pub ∈ n.peerConfigs.map PeerConfig.pub

namespace InboundInv

variable {ctx : LoopCtx S} {n n' : Node S} {tr ev : List (Event S)}

theorem keeps (h : InboundInv ctx n tr)
    (hcfg : n'.peerConfigs.map PeerConfig.pub = n.peerConfigs.map PeerConfig.pub)
    (hev : ∀ e, .installed e ∉ ev) : InboundInv ctx n' (tr ++ ev) := by
  intro e he hin
  rw [hcfg]
  rcases List.mem_append.mp he with he | he
  · exact h e he hin
  · exact absurd he (hev e)

end InboundInv

/-- The identity a handshake datagram is for, when no pending handshake takes it. -/
theorem remotePeer_inbound {ctx : LoopCtx S} {n : Node S} {d : Datagram S} {pub : S.Block}
    (h : remotePeer ctx n d = some pub) (hp : pendingFrom n d.src = none) :
    isHandshake ctx d.pkt = true ∧
    (openInitiation d.pkt ctx.pskKey ctx.staticKey).map Initiation.clientStaticPub
      = some pub := by
  unfold remotePeer at h
  split at h
  · rename_i hd
    rw [hp] at h
    exact ⟨hd, h⟩
  · cases h

theorem inboundInv_preserves (ctx : LoopCtx S) :
    Preserves ctx (fun _ => True) (fun _ _ _ => True) (InboundInv ctx) where
  quiet _ hI hq := hI.keeps (configs_pub hq.configs) fun e he => (hq.emits _ he).elim
  accept _ _ hI _ _ hdl := by
    refine hI.keeps rfl ?_
    rcases hdl with rfl | ⟨f, rfl⟩ <;> simp
  answer _ _ hI _ _ := hI.keeps rfl (by simp)
  initiator _ _ hI _ _ := hI.keeps rfl (by simp)
  responder _ _ _ hI _ _ := hI.keeps (by rw [refreshPrecompEph_peerConfigs]) (by simp)
  install _ _ hpeer _ _ hI hout _ _ := by
    intro e he hin
    rcases List.mem_append.mp he with he | he
    · exact hI e he hin
    · obtain rfl := Event.installed.inj (List.mem_singleton.mp he)
      obtain ⟨hp, hcfg⟩ := hout hin
      obtain ⟨hd, hini⟩ := remotePeer_inbound hpeer hp
      exact ⟨hd, hini, findPeerConfig_isSome.mp (Option.isSome_iff_exists.mpr ⟨_, hcfg⟩)⟩

section Inbound

variable {ctx : LoopCtx S} {n : Node S} {d : Datagram S} {pub key : S.Block}

/-- The initiation of `pub` is refused: one of the two cooldowns applies, or the responder does
not complete the handshake, or there is no slot. -/
def Refused (ctx : LoopCtx S) (n : Node S) (d : Datagram S) (pub : S.Block) : Prop :=
  inCooldown ctx n.table d.now (findSessionByAddr n.table d.src) = true ∨
  inCooldown ctx n.table d.now (findSessionByPub n.table pub) = true ∨
  (handshakeServerRespond d.pkt ctx.pskKey ctx.staticKey ctx.staticPub n.precompEphKey
    d.sendOk).done = none ∨
  allocSession n.table pub d.src = none

theorem inboundHandshake_of_refused
    (hini : (openInitiation d.pkt ctx.pskKey ctx.staticKey).map Initiation.clientStaticPub
      = some pub)
    (hno : Refused ctx n d pub) :
    (inboundHandshake ctx n d).1.table = n.table := by
  unfold inboundHandshake
  by_cases hc : inCooldown ctx n.table d.now (findSessionByAddr n.table d.src) = true
  · rw [if_pos hc]
  · rw [if_neg hc]
    dsimp only
    split
    · rfl
    · -- the responder answered, and one of the later checks fails
      rename_i pub' key hdone
      obtain rfl : pub' = pub := Option.some.inj ((openInitiation_of_done hdone).symm.trans hini)
      rcases acceptInitiation_outcome ctx (refreshPrecompEph n d.fresh) d pub' key with
        ⟨⟨-, hcool, hslot⟩, -⟩ | ⟨-, heq⟩
      · rw [refreshPrecompEph_table] at hcool hslot
        rcases hno.resolve_left hc with h | h | h
        · rw [h] at hcool
          cases hcool
        · cases h.symm.trans hdone
        · rw [h] at hslot
          cases hslot
      · rw [heq]
        exact refreshPrecompEph_table _ _

/-- An initiation of a configured peer is accepted if no cooldown applies, the responder
completes the handshake and there is a slot. -/
theorem inboundHandshake_installs (hcfg : pub ∈ n.peerConfigs.map PeerConfig.pub)
    (hc : inCooldown ctx n.table d.now (findSessionByAddr n.table d.src) = false)
    (hc' : inCooldown ctx n.table d.now (findSessionByPub n.table pub) = false)
    (hdone : (handshakeServerRespond d.pkt ctx.pskKey ctx.staticKey ctx.staticPub
      n.precompEphKey d.sendOk).done = some (pub, key))
    (hslot : (allocSession n.table pub d.src).isSome) :
    ∃ cfg i, (inboundHandshake ctx n d).1.table.sessions i
      = sessionInit ctx.toSettings ((refreshPrecompEph n d.fresh).table.sessions i) d.src pub key
          (some cfg) false d.clock := by
  unfold inboundHandshake
  rw [if_neg (by rw [hc]; exact Bool.false_ne_true)]
  simp only [hdone]
  rcases acceptInitiation_outcome ctx (refreshPrecompEph n d.fresh) d pub key with
    ⟨-, cfg, i, tb, heq⟩ | ⟨hfail, -⟩
  · rw [heq]
    exact ⟨cfg, i, installAt_sessions_self⟩
  · refine absurd ⟨?_, ?_, ?_⟩ hfail
    · rw [refreshPrecompEph_peerConfigs]
      exact findPeerConfig_isSome.mpr hcfg
    · rw [refreshPrecompEph_table]
      exact hc'
    · rw [refreshPrecompEph_table]
      exact hslot

end Inbound

/-- **Copies of an accepted initiation.** After every run in which an initiation was accepted,
a copy that no pending handshake takes leaves the session table unchanged if the session at
its source address or the session of its peer is in the cooldown. If neither is, and the
responder can complete the handshake and has a slot, the copy installs a session for the peer
at the source address, with a new key and a fresh replay window. If it cannot, or has none, the
table is unchanged, too. -/
theorem initiation_copy (ctx : LoopCtx S) (cfgs : List (PeerConfig S)) (fresh : Option S.Priv)
    (is : List (Input S)) (c : (node ctx).Config)
    (hrun : (node ctx).run (Node.init cfgs fresh, []) is = c) (e : Install S)
    (he : .installed e ∈ c.2) (hin : e.isOutbound = false) (d : Datagram S)
    (hpkt : d.pkt = e.pkt) (hp : pendingFrom c.1 d.src = none) :
    (inCooldown ctx c.1.table d.now (findSessionByAddr c.1.table d.src) = true ∨
      inCooldown ctx c.1.table d.now (findSessionByPub c.1.table e.pub) = true →
      ((node ctx).step c.1 (.udp d)).1.table = c.1.table) ∧
    (inCooldown ctx c.1.table d.now (findSessionByAddr c.1.table d.src) = false →
      inCooldown ctx c.1.table d.now (findSessionByPub c.1.table e.pub) = false →
      ∀ pub key, (handshakeServerRespond d.pkt ctx.pskKey ctx.staticKey ctx.staticPub
        c.1.precompEphKey d.sendOk).done = some (pub, key) →
      (allocSession c.1.table pub d.src).isSome →
      pub = e.pub ∧ ∃ i s, ((node ctx).step c.1 (.udp d)).1.table.sessions i = s ∧
        s.active = true ∧ s.staticPub = e.pub ∧ s.addr = d.src ∧ s.sessionKey = key ∧
        s.sendSeq = 0 ∧ s.recvSeq = .zero) ∧
    ((handshakeServerRespond d.pkt ctx.pskKey ctx.staticKey ctx.staticPub c.1.precompEphKey
        d.sendOk).done = none ∨ allocSession c.1.table e.pub d.src = none →
      ((node ctx).step c.1 (.udp d)).1.table = c.1.table) := by
  have hinv : InboundInv ctx c.1 c.2 := by
    rw [← hrun]
    refine (inboundInv_preserves ctx).run (H := fun _ _ => True)
      (fun _ _ _ => ⟨trivial, fun _ _ => trivial⟩) ?_
      ((node ctx).along_of_forall (fun _ _ => trivial) is _)
    rintro e ⟨⟩
  obtain ⟨hd, hini, hcfg⟩ := hinv e he hin
  rw [← hpkt] at hd hini
  rw [step_inbound hd hp]
  have hrefused (hno : Refused ctx c.1 d e.pub) := inboundHandshake_of_refused hini hno
  refine ⟨fun hcool => hrefused (hcool.imp_right .inl), ?_, ?_⟩
  · intro hc hc' pub key hdone hslot
    obtain rfl : pub = e.pub := Option.some.inj ((openInitiation_of_done hdone).symm.trans hini)
    obtain ⟨cfg, i, hs⟩ := inboundHandshake_installs hcfg hc hc' hdone hslot
    exact ⟨rfl, i, _, hs, rfl, rfl, rfl, rfl, rfl, rfl⟩
  · intro hlate
    exact hrefused (.inr (.inr hlate))

/-- Peer `2` connects. -/
def contactRun : List (Input symbolic) := [arrival (addrOf 2) (initiationOf 2 1 12) 100 101]

/-- What the run installs. -/
def contactInstall : Install symbolic :=
  ⟨⟨0, by decide⟩, Msg.pub 2, keyOf 2 1 12 100, addrOf 2, initiationOf 2 1 12, false, 100⟩

instance : DecidableEq (Install symbolic) := fun a b =>
  decidable_of_iff (a.slot = b.slot ∧ a.pub = b.pub ∧ a.key = b.key ∧ a.src = b.src ∧
    a.pkt = b.pkt ∧ a.isOutbound = b.isOutbound ∧ a.time = b.time) (by cases a; cases b; simp)

theorem contactInstall_mem :
    .installed contactInstall ∈ ((node (ctxOf 1)).run twoPeers contactRun).2 := by
  rw [← mem_installs]
  decide +kernel

/-- The copy of the initiation, from the address of a stranger, at time `now`. -/
def copyAt (now : Int) : Datagram symbolic :=
  ⟨addrOf 9, initiationOf 2 1 12, now, now, some 102, true, none⟩

theorem initiation_copy_contactRun :
    ((node (ctxOf 1)).step ((node (ctxOf 1)).run twoPeers contactRun).1 (.udp (copyAt 102))).1.table
      = ((node (ctxOf 1)).run twoPeers contactRun).1.table := by
  have hrun : (node (ctxOf 1)).run (Node.init [peerOf 2, peerOf 3] (some 100), []) contactRun
      = (node (ctxOf 1)).run twoPeers contactRun := by rw [twoPeers]
  refine (initiation_copy (ctxOf 1) [peerOf 2, peerOf 3] (some 100) contactRun _ hrun contactInstall
    contactInstall_mem rfl (copyAt 102) rfl ?_).1 (.inr ?_)
  · decide +kernel
  · decide +kernel

/-- After the cooldown the copy moves the session of peer `2` to the stranger's address and
replaces its key. -/
theorem copy_moves_session :
    .installed contactInstall ∈ ((node (ctxOf 1)).run twoPeers contactRun).2 ∧
    (copyAt 200).pkt = contactInstall.pkt ∧
    ((node (ctxOf 1)).step ((node (ctxOf 1)).run twoPeers contactRun).1 (.udp (copyAt 200))).1.table
      ≠ ((node (ctxOf 1)).run twoPeers contactRun).1.table ∧
    (((node (ctxOf 1)).step ((node (ctxOf 1)).run twoPeers contactRun).1
      (.udp (copyAt 200))).1.table.sessions contactInstall.slot).addr = addrOf 9 ∧
    (((node (ctxOf 1)).step ((node (ctxOf 1)).run twoPeers contactRun).1
      (.udp (copyAt 200))).1.table.sessions contactInstall.slot).sessionKey
      ≠ contactInstall.key := by
  have hmoved : (((node (ctxOf 1)).step ((node (ctxOf 1)).run twoPeers contactRun).1
      (.udp (copyAt 200))).1.table.sessions contactInstall.slot).addr = addrOf 9 := by
    decide +kernel
  refine ⟨contactInstall_mem, rfl, ?_, hmoved, by decide +kernel⟩
  intro hsame
  rw [hsame] at hmoved
  exact absurd hmoved (by decide +kernel)

end Lanecove
