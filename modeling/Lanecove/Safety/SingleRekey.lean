import Lanecove.Peer.Marks

set_option autoImplicit false

/-! # At most one rekey at a time

`housekeeping_loop` starts a handshake with a peer that has a session only if the session is
not marked as `rekeying`, and marks it. The mark is cleared when the pending handshake
completes, fails or times out. So while a peer has a session, at most one pending handshake
waits for it (`SingleRekey`), in every step that does not answer an initiation.
-/

namespace Lanecove

variable {S : Suite}

/-- The peer has its session in slot `i`; at most one pending handshake waits for it, and only
while the session is marked. -/
structure SingleRekey (pub : S.Block) (i : Fin MAX_PEERS) (n : Node S) : Prop where
  owner : findSessionByPub n.table pub = some i
  single : ∀ j j', n.waitsFor pub j → n.waitsFor pub j' → j = j'
  marked : ∀ j, n.waitsFor pub j → (n.table.sessions i).rekeying = true

theorem SameMarks.single {n n' : Node S} {pub : S.Block} {i : Fin MAX_PEERS}
    (h : SameMarks n n') (hn : SingleRekey pub i n)
    (howner : findSessionByPub n'.table pub = some i) : SingleRekey pub i n' where
  owner := howner
  single j j' hj hj' :=
    hn.single j j' ((h.waitsFor_iff pub j).mp hj) ((h.waitsFor_iff pub j').mp hj')
  marked j hj := by
    rw [h.rekeying]
    exact hn.marked j ((h.waitsFor_iff pub j).mp hj)

/-- The slot of another identity is another slot. -/
theorem SingleRekey.lookup_ne {pub q : S.Block} {i : Fin MAX_PEERS} {n : Node S}
    (h : SingleRekey pub i n) (hq : q ≠ pub) : findSessionByPub n.table q ≠ some i := by
  intro hi
  obtain ⟨-, -, hown⟩ := findSessionByPub_eq_some h.owner
  obtain ⟨-, -, hown'⟩ := findSessionByPub_eq_some hi
  exact hq (hown'.symm.trans hown)

/-- A pending handshake ends without a session: it is used up and the mark of its peer is
cleared. -/
theorem SingleRekey.drop {pub : S.Block} {i : Fin MAX_PEERS} {n : Node S}
    (h : SingleRekey pub i n) {j : Fin MAX_PEERS} (hj : (n.pendingHs j).active = true)
    {p : PendingHs S} (hp : p.active = false) :
    SingleRekey pub i { n.setPending j p with
      table := clearRekeying n.table (n.config (n.pendingHs j).cfgIdx).pub } := by
  have heq := clearRekeying_eq (n.setPending j p) (n.config (n.pendingHs j).cfgIdx).pub
  rw [Node.setPending_table] at heq
  rw [heq]
  -- whoever still waits waited before, and is not entry `j`
  have hwaits : ∀ k, (setRekeying (n.setPending j p) false (findSessionByPub n.table
      (n.config (n.pendingHs j).cfgIdx).pub)).waitsFor pub k → k ≠ j ∧ n.waitsFor pub k := by
    intro k hk
    apply Node.waitsFor_setPending hp
    exact (Node.waitsFor_congr (setRekeying_pendingHs ..) (setRekeying_peerConfigs ..) pub k).mp hk
  refine ⟨?_, ?_, ?_⟩
  · rw [setRekeying_lookup]
    exact h.owner
  · intro k k' hk hk'
    exact h.single k k' (hwaits k hk).2 (hwaits k' hk').2
  · intro k hk
    obtain ⟨hkj, hwait⟩ := hwaits k hk
    by_cases hq : (n.config (n.pendingHs j).cfgIdx).pub = pub
    · exact absurd (h.single k j hwait ⟨hj, hq⟩) hkj
    · rw [setRekeying_ne _ _ _ (h.lookup_ne hq)]
      exact h.marked k hwait

/-! ## The housekeeping thread -/

/-- A handshake is started only with a peer none waits for. -/
theorem SingleRekey.connectPeer {pub : S.Block} {i : Fin MAX_PEERS} {n : Node S}
    (h : SingleRekey pub i n) (ctx : LoopCtx S) (pass : PassInput S) (idx : Nat) :
    SingleRekey pub i (connectPeer ctx pass n idx).1 := by
  have hcfg := (connectPeer_quiet ctx (n := n) pass idx).config_pub
  -- a session that needs a handshake is not marked, so nobody waits for it
  have hnone : needsHandshake ctx n pass.now (findSessionByPub n.table (n.config idx).pub) = true →
      (n.config idx).pub = pub → ∀ k, ¬ n.waitsFor pub k := by
    intro hneeds hpub k hk
    rw [hpub, h.owner] at hneeds
    simp [needsHandshake, h.marked k hk] at hneeds
  generalize hn' : (Lanecove.connectPeer ctx pass n idx).1 = n' at hcfg ⊢
  have hout := connectPeer_outcome ctx pass n idx
  rw [hn'] at hout
  have howner : findSessionByPub n'.table pub = some i := (hout.lookup pub).trans h.owner
  have hothers : (n.config idx).pub ≠ pub →
      (n'.table.sessions i).rekeying = (n.table.sessions i).rekeying :=
    fun hpub => hout.rekeying_ne (h.lookup_ne hpub)
  cases hout with
  | skip heq =>
      rw [heq]
      exact h
  | fail attempt _ _ pending =>
      have hwaits : ∀ k, n'.waitsFor pub k → n.waitsFor pub k := by
        rintro k ⟨hact, hpub⟩
        rw [hcfg, pending] at hpub
        rw [pending] at hact
        exact ⟨hact, hpub⟩
      refine ⟨howner, ?_, ?_⟩
      · intro k k' hk hk'
        exact h.single k k' (hwaits k hk) (hwaits k' hk')
      · intro k hk
        by_cases hpub : (n.config idx).pub = pub
        · exact absurd (hwaits k hk) (hnone (attempts_needs attempt) hpub k)
        · rw [hothers hpub]
          exact h.marked k (hwaits k hk)
  | start attempt _ table j p hp _ pending =>
      have hwaits : ∀ k, n'.waitsFor pub k →
          k = j ∧ (n.config idx).pub = pub ∨ k ≠ j ∧ n.waitsFor pub k := by
        rintro k ⟨hact, hpub⟩
        rw [hcfg, pending] at hpub
        rw [pending] at hact
        by_cases hkj : k = j
        · subst hkj
          rw [Function.update_self, hp.cfgIdx] at hpub
          exact .inl ⟨rfl, hpub⟩
        · rw [Function.update_of_ne hkj] at hact hpub
          exact .inr ⟨hkj, hact, hpub⟩
      refine ⟨howner, ?_, ?_⟩
      · intro k k' hk hk'
        rcases hwaits k hk with ⟨rfl, hpub⟩ | ⟨-, hold⟩ <;>
          rcases hwaits k' hk' with ⟨rfl, hpub'⟩ | ⟨-, hold'⟩
        · rfl
        · exact absurd hold' (hnone (attempts_needs attempt) hpub k')
        · exact absurd hold (hnone (attempts_needs attempt) hpub' k)
        · exact h.single k k' hold hold'
      · intro k hk
        by_cases hpub : (n.config idx).pub = pub
        · rw [table, hpub, h.owner, setRekeying_self]
        · rw [hothers hpub]
          rcases hwaits k hk with ⟨-, hpub'⟩ | ⟨-, hold⟩
          · exact absurd hpub' hpub
          · exact h.marked k hold

theorem SingleRekey.expirePending {pub : S.Block} {i : Fin MAX_PEERS} {n : Node S}
    (h : SingleRekey pub i n) (ctx : LoopCtx S) (now : Int) (j : Fin MAX_PEERS) :
    SingleRekey pub i (expirePending ctx now n j).1 := by
  simp only [Lanecove.expirePending]
  split
  · rename_i hcond
    simp only [Bool.and_eq_true] at hcond
    exact h.drop hcond.1 rfl
  · exact h

/-- A pass: the first two loops keep the discipline, the other two leave the marks alone. -/
theorem SingleRekey.housekeeping {pub : S.Block} {i : Fin MAX_PEERS} {n : Node S}
    (h : SingleRekey pub i n) (ctx : LoopCtx S) (pass : PassInput S)
    (howner : findSessionByPub (housekeeping ctx n pass).1.table pub = some i) :
    SingleRekey pub i (housekeeping ctx n pass).1 := by
  unfold Lanecove.housekeeping at howner ⊢
  split at howner
  · rename_i hdue
    rw [if_pos hdue]
    simp only [housekeepingPass] at howner ⊢
    have h₀ : SingleRekey pub i { n with lastCheck := pass.now } := ⟨h.owner, h.single, h.marked⟩
    have h₁ := (Machine.mk (Lanecove.connectPeer ctx pass)).invariant_all
      (I := fun c => SingleRekey pub i c.1) (fun c idx hc => hc.connectPeer ctx pass idx)
      (List.range n.peerConfigs.length) ({ n with lastCheck := pass.now }, []) h₀
    have h₂ := (Machine.mk (Lanecove.expirePending ctx pass.now)).invariant_all
      (I := fun c => SingleRekey pub i c.1) (fun c j hc => hc.expirePending ctx pass.now j)
      (List.finRange MAX_PEERS) _ h₁
    have h₃ := SameMarks.run (expireSession_sameMarks ctx pass.now) (List.finRange MAX_PEERS)
      ((Machine.mk (Lanecove.expirePending ctx pass.now)).run
        ((Machine.mk (Lanecove.connectPeer ctx pass)).run ({ n with lastCheck := pass.now }, [])
          (List.range n.peerConfigs.length)) (List.finRange MAX_PEERS))
    have h₄ := h₃.trans (SameMarks.run (keepalive_sameMarks ctx pass) (List.finRange MAX_PEERS) _)
    exact h₄.single h₂ howner
  · rename_i hdue
    rw [if_neg hdue]
    exact h

/-! ## Steps -/

/-- A response completed the handshake with the peer: nobody waits any more. -/
theorem SingleRekey.adopt {pub key : S.Block} {i : Fin MAX_PEERS} {n : Node S}
    (h : SingleRekey pub i n) {ctx : LoopCtx S} {d : Datagram S} {j : Fin MAX_PEERS}
    (hj : n.waitsFor pub j) {p : PendingHs S} (hp : p.active = false) {cfg : PeerConfig S}
    {out : Bool} {tb : SessionTable S}
    (howner : findSessionByPub
      (installAt ctx (n.setPending j p) d i tb pub key cfg out).table pub = some i) :
    SingleRekey pub i (installAt ctx (n.setPending j p) d i tb pub key cfg out) ∧
      ∀ k, ¬ (installAt ctx (n.setPending j p) d i tb pub key cfg out).waitsFor pub k := by
  have hnone : ∀ k, ¬ (installAt ctx (n.setPending j p) d i tb pub key cfg out).waitsFor pub k := by
    intro k hk
    obtain ⟨hkj, hwait⟩ := Node.waitsFor_setPending hp
      ((Node.waitsFor_congr (n := n.setPending j p) rfl rfl pub k).mp hk)
    exact hkj (h.single k j hwait hj)
  exact ⟨⟨howner, fun k _ hk => absurd hk (hnone k), fun k hk => absurd hk (hnone k)⟩, hnone⟩

/-- A datagram for entry `j`: the handshake fails, or it is one with the peer. -/
theorem SingleRekey.outboundResponse {pub : S.Block} {i j : Fin MAX_PEERS} {n : Node S}
    (h : SingleRekey pub i n) (ctx : LoopCtx S) (d : Datagram S)
    (hact : (n.pendingHs j).active = true)
    (hout : ∀ input, clientKeyInput d.pkt ctx.pskKey ctx.staticKey ctx.staticPub
        (n.config (n.pendingHs j).cfgIdx).pub (n.pendingHs j).hsState = some input →
      (n.config (n.pendingHs j).cfgIdx).pub = pub)
    (howner : findSessionByPub (outboundResponse ctx n j d).1.table pub = some i) :
    SingleRekey pub i (outboundResponse ctx n j d).1 := by
  unfold Lanecove.outboundResponse handshakeClientRecv at howner ⊢
  cases hi : clientKeyInput d.pkt ctx.pskKey ctx.staticKey ctx.staticPub
      (n.config (n.pendingHs j).cfgIdx).pub (n.pendingHs j).hsState with
  | none =>
      simp only [hi]
      exact h.drop hact rfl
  | some input =>
      simp only [hi] at howner ⊢
      have hpub := hout input hi
      have hal : ∀ p, allocSession (n.setPending j p).table pub d.src = some (i, n.table) :=
        fun _ => allocSession_of_findSessionByPub h.owner d.src
      rw [hpub, installSession_of_some (hal _)] at howner ⊢
      exact (h.adopt ⟨hact, hpub⟩ rfl howner).1

/-- **A step keeps the discipline** if it opens no initiation, completes handshakes with the
peer only, and leaves the peer's session where it is. -/
theorem SingleRekey.step {pub : S.Block} {i : Fin MAX_PEERS} {n : Node S}
    (h : SingleRekey pub i n) (ctx : LoopCtx S) (inp : Input S)
    (hin : ∀ d, inp = .udp d → openInitiation d.pkt ctx.pskKey ctx.staticKey = none)
    (hout : ∀ d j input, inp = .udp d → pendingFrom n d.src = some j →
      clientKeyInput d.pkt ctx.pskKey ctx.staticKey ctx.staticPub
        (n.config (n.pendingHs j).cfgIdx).pub (n.pendingHs j).hsState = some input →
      (n.config (n.pendingHs j).cfgIdx).pub = pub)
    (howner : findSessionByPub ((node ctx).step n inp).1.table pub = some i) :
    SingleRekey pub i ((node ctx).step n inp).1 := by
  cases inp with
  | tun packet iv ok now => exact (tunPacket_sameMarks n packet iv ok now).single h howner
  | housekeeping pass => exact h.housekeeping ctx pass howner
  | udp d =>
      change findSessionByPub (udpPacket ctx n d).1.table pub = some i at howner
      show SingleRekey pub i (udpPacket ctx n d).1
      unfold udpPacket at howner ⊢
      split at howner
      · rename_i hd
        rw [if_pos hd]
        cases hp : pendingFrom n d.src with
        | none =>
            -- the datagram is taken as an initiation, which it is not
            rw [handshakePkt_of_pendingFrom_none ctx n hp]
            have hresp : handshakeServerRespond d.pkt ctx.pskKey ctx.staticKey ctx.staticPub
                n.precompEphKey d.sendOk = ⟨none, none⟩ := by
              unfold handshakeServerRespond
              rw [hin d rfl]
            unfold inboundHandshake
            split
            · exact h
            · simp only [hresp]
              exact h
        | some j =>
            rw [handshakePkt_of_pendingFrom_some ctx n hp] at howner ⊢
            exact h.outboundResponse ctx d (pendingFrom_eq_some hp).1
              (fun input hi => hout d j input rfl hp hi) howner
      · rename_i hd
        rw [if_neg hd]
        exact (dataPacket_sameMarks n d.src d.pkt d.now d.clock d.iv d.sendOk).single h howner

end Lanecove
