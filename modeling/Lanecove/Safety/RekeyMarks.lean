import Lanecove.Safety.TableInvariant

set_option autoImplicit false

/-! # No session is stuck rekeying

A session that is marked as `rekeying` is not rekeyed again, so a mark that nobody takes off
would disable rekeying for its peer. Every mark has a pending handshake with the peer behind it
(`MarksBacked`): the mark is set together with the entry of `pending_hs[]`, and whatever ends
the entry takes the mark off the peer's session. The marks go by public key, so this rests on
the peer having one session only.
-/

namespace Lanecove

variable {S : Suite}

/-- Every active session that is marked has a pending handshake with its peer. -/
def MarksBacked (n : Node S) : Prop :=
  ∀ i, (n.table.sessions i).active = true → (n.table.sessions i).rekeying = true →
    ∃ j, n.waitsFor (n.table.sessions i).staticPub j

namespace MarksBacked

variable {n n' : Node S}

/-- Steps that touch neither marks nor pending handshakes. -/
theorem congr (h : MarksBacked n) (hs : SameMarks n n')
    (hk : ∀ i, Keeps (n.table.sessions i) (n'.table.sessions i)) : MarksBacked n' := by
  intro i hi hmark
  rw [hs.rekeying] at hmark
  rw [(hk i).staticPub]
  obtain ⟨j, hj⟩ := h i ((hk i).active hi) hmark
  exact ⟨j, (hs.waitsFor_iff _ j).mpr hj⟩

/-- A handshake is started, and the session of the peer marked. -/
theorem connectPeer (h : MarksBacked n) (ctx : LoopCtx S) (pass : PassInput S) (idx : Nat) :
    MarksBacked (connectPeer ctx pass n idx).1 := by
  have hcfg := (connectPeer_quiet ctx (n := n) pass idx).config_pub
  generalize hn' : (Lanecove.connectPeer ctx pass n idx).1 = n' at hcfg ⊢
  have hout := connectPeer_outcome ctx pass n idx
  rw [hn'] at hout
  intro i hi hmark
  cases hout with
  | skip heq =>
      rw [heq] at hi hmark ⊢
      exact h i hi hmark
  | fail _ _ table pending =>
      obtain ⟨hact, hpub⟩ := setRekeying_session n false
        (findSessionByPub n.table (n.config idx).pub) i
      rw [table] at hi hmark ⊢
      rw [hact] at hi
      rw [hpub]
      -- the mark that is on is not the one that was taken back
      have hne : findSessionByPub n.table (n.config idx).pub ≠ some i := by
        intro hfind
        rw [hfind, setRekeying_self] at hmark
        cases hmark
      rw [setRekeying_ne _ _ _ hne] at hmark
      obtain ⟨j, hj, hjp⟩ := h i hi hmark
      exact ⟨j, by rw [pending]; exact hj, by rw [hcfg, pending]; exact hjp⟩
  | start _ _ table j p hp _ pending =>
      obtain ⟨hact, hpub⟩ := setRekeying_session n true
        (findSessionByPub n.table (n.config idx).pub) i
      rw [table] at hi hmark ⊢
      rw [hact] at hi
      rw [hpub]
      by_cases hfind : findSessionByPub n.table (n.config idx).pub = some i
      · obtain ⟨-, -, hown⟩ := findSessionByPub_eq_some hfind
        refine ⟨j, ?_, ?_⟩
        · rw [pending, Function.update_self]
          exact hp.active
        · rw [hcfg, pending, Function.update_self, hp.cfgIdx, hown]
      · rw [setRekeying_ne _ _ _ hfind] at hmark
        obtain ⟨k, hk, hkp⟩ := h i hi hmark
        have hkj : k ≠ j := by
          rintro rfl
          rw [hp.free] at hk
          cases hk
        refine ⟨k, ?_, ?_⟩
        · rw [pending, Function.update_of_ne hkj]
          exact hk
        · rw [hcfg, pending, Function.update_of_ne hkj]
          exact hkp

/-- Entry `j` is used up; sessions of other peers do not wait for it. -/
theorem waitsFor_other {pub : S.Block} {j k : Fin MAX_PEERS} {p : PendingHs S}
    (hk : n.waitsFor pub k) (hpub : (n.config (n.pendingHs j).cfgIdx).pub ≠ pub) :
    (n.setPending j p).waitsFor pub k := by
  have hkj : k ≠ j := by
    rintro rfl
    exact hpub hk.2
  refine ⟨?_, ?_⟩
  · rw [Node.setPending_pendingHs, Function.update_of_ne hkj]
    exact hk.1
  · rw [Node.setPending_pendingHs, Function.update_of_ne hkj]
    exact hk.2

/-- A pending handshake ends without a session: the mark of its peer is taken off. -/
theorem drop (h : MarksBacked n) (ht : TableInv n) (j : Fin MAX_PEERS) (p : PendingHs S) :
    MarksBacked { n.setPending j p with
      table := clearRekeying n.table (n.config (n.pendingHs j).cfgIdx).pub } := by
  have heq := clearRekeying_eq (n.setPending j p) (n.config (n.pendingHs j).cfgIdx).pub
  rw [Node.setPending_table] at heq
  rw [heq]
  intro i hi hmark
  obtain ⟨hact, hpub⟩ := setRekeying_session (n.setPending j p) false
    (findSessionByPub n.table (n.config (n.pendingHs j).cfgIdx).pub) i
  rw [hact] at hi
  rw [hpub]
  have hother : (n.config (n.pendingHs j).cfgIdx).pub ≠ (n.table.sessions i).staticPub := by
    intro hq
    rw [hq, ht.findSessionByPub_self hi, setRekeying_self] at hmark
    cases hmark
  have hne : findSessionByPub n.table (n.config (n.pendingHs j).cfgIdx).pub ≠ some i := by
    intro hfind
    exact hother (findSessionByPub_eq_some hfind).2.2.symm
  rw [setRekeying_ne _ _ _ hne] at hmark
  obtain ⟨k, hk⟩ := h i hi hmark
  exact ⟨k, (Node.waitsFor_congr (setRekeying_pendingHs ..) (setRekeying_peerConfigs ..) _ k).mpr
    (waitsFor_other hk hother)⟩

/-- A session is installed: it is not marked, and the other sessions are those of other
peers. -/
theorem install {ctx : LoopCtx S} {d : Datagram S} {pub key : S.Block} {i : Fin MAX_PEERS}
    {tb : SessionTable S} {cfg : PeerConfig S} {out : Bool}
    (h : ∀ k, (n.table.sessions k).active = true → (n.table.sessions k).rekeying = true →
      (n.table.sessions k).staticPub ≠ pub → ∃ j, n.waitsFor (n.table.sessions k).staticPub j)
    (ht : TableInv n) (hal : allocSession n.table pub d.src = some (i, tb)) :
    MarksBacked (installAt ctx n d i tb pub key cfg out) := by
  intro k hk hmark
  by_cases hki : k = i
  · subst hki
    rw [installAt_sessions_self] at hmark
    cases hmark
  · rw [installAt_sessions_ne hal hki] at hk hmark ⊢
    obtain ⟨j, hj⟩ := h k hk hmark (ht.other_pub hal hk hki)
    exact ⟨j, hj⟩

/-- A response completed a pending handshake: the peer's own session, if there is one, is
replaced. -/
theorem adopt (h : MarksBacked n) (ht : TableInv n) (ctx : LoopCtx S) (d : Datagram S)
    (j : Fin MAX_PEERS) {p : PendingHs S} (hp : p.active = false) (key : S.Block) :
    MarksBacked (installSession ctx (n.setPending j p) d (n.config (n.pendingHs j).cfgIdx).pub key
      (n.config (n.pendingHs j).cfgIdx) true).1 := by
  have hkept : TableKept (.udp d) n (n.setPending j p) :=
    tableKept_of_table rfl rfl (Node.setPending_active hp)
  -- sessions of other peers keep the handshakes they wait for
  have hback : ∀ k, (n.table.sessions k).active = true → (n.table.sessions k).rekeying = true →
      (n.table.sessions k).staticPub ≠ (n.config (n.pendingHs j).cfgIdx).pub →
      ∃ l, (n.setPending j p).waitsFor (n.table.sessions k).staticPub l := by
    intro k hk hmark hne
    obtain ⟨l, hl⟩ := h k hk hmark
    exact ⟨l, waitsFor_other hl hne.symm⟩
  rcases hal : allocSession (n.setPending j p).table (n.config (n.pendingHs j).cfgIdx).pub d.src
    with _ | ⟨i, tb⟩
  · rw [installSession_of_none hal]
    intro k hk hmark
    refine hback k hk hmark ?_
    exact findSessionByPub_eq_none (allocSession_eq_none hal).1 (ht.below k hk) hk
  · rw [installSession_of_some hal]
    exact install hback (ht.kept hkept) hal

theorem expirePending (h : MarksBacked n) (ht : TableInv n) (ctx : LoopCtx S) (now : Int)
    (j : Fin MAX_PEERS) : MarksBacked (expirePending ctx now n j).1 := by
  simp only [Lanecove.expirePending]
  split
  · exact h.drop ht j _
  · exact h

/-- A pass: the first two loops keep the marks backed, the other two leave them alone. -/
theorem housekeeping (h : MarksBacked n) (ht : TableInv n) (ctx : LoopCtx S)
    (pass : PassInput S) : MarksBacked (housekeeping ctx n pass).1 := by
  refine (housekeeping_invariant (I := fun m => MarksBacked m ∧ TableInv m) ?_ ?_ ?_ ?_ ?_
    ⟨h, ht⟩).1
  · rintro m ⟨hm, htm⟩
    exact ⟨hm, ⟨htm.below, htm.slots, htm.unique, htm.configured, htm.pending⟩⟩
  · rintro m idx ⟨hm, htm⟩
    exact ⟨hm.connectPeer ctx pass idx, htm.kept (connectPeer_tableKept ctx pass m idx)⟩
  · rintro m j ⟨hm, htm⟩
    exact ⟨hm.expirePending htm ctx pass.now j,
      htm.kept (expirePending_tableKept ctx (.housekeeping pass) pass.now m j)⟩
  · rintro m i ⟨hm, htm⟩
    have hkept := expireSession_tableKept ctx (.housekeeping pass) pass.now m i
    exact ⟨hm.congr (expireSession_sameMarks ctx pass.now m i) hkept.keeps, htm.kept hkept⟩
  · rintro m i ⟨hm, htm⟩
    have hkept := keepalive_tableKept ctx pass m i
    exact ⟨hm.congr (keepalive_sameMarks ctx pass m i) hkept.keeps, htm.kept hkept⟩

/-- A session was installed; the pending handshakes are not touched. -/
theorem installSession (h : MarksBacked n) (ht : TableInv n) (ctx : LoopCtx S) (d : Datagram S)
    (pub key : S.Block) (cfg : PeerConfig S) (out : Bool) :
    MarksBacked (installSession ctx n d pub key cfg out).1 := by
  rcases hal : allocSession n.table pub d.src with _ | ⟨i, tb⟩
  · rw [installSession_of_none hal]
    exact h
  · rw [installSession_of_some hal]
    exact install (fun k hk hmark _ => h k hk hmark) ht hal

/-- **One step keeps the marks backed.** -/
theorem step (h : MarksBacked n) (ht : TableInv n) (ctx : LoopCtx S) (inp : Input S) :
    MarksBacked ((node ctx).step n inp).1 := by
  cases inp with
  | tun packet iv ok now =>
      exact h.congr (tunPacket_sameMarks n packet iv ok now)
        (tunPacket_quiet ctx n packet iv ok now).keeps
  | housekeeping pass => exact h.housekeeping ht ctx pass
  | udp d =>
      show MarksBacked (udpPacket ctx n d).1
      unfold udpPacket
      split
      · cases hp : pendingFrom n d.src with
        | some j =>
            rw [handshakePkt_of_pendingFrom_some ctx n hp]
            obtain ⟨st, heq | ⟨key, heq⟩⟩ := outboundResponse_node ctx n j d
            · rw [heq]
              exact h.drop ht j _
            · rw [heq]
              exact h.adopt ht ctx d j rfl _
        | none =>
            rw [handshakePkt_of_pendingFrom_none ctx n hp]
            have href : SameMarks n (refreshPrecompEph n d.fresh) := by
              refine ⟨refreshPrecompEph_pendingHs .., refreshPrecompEph_peerConfigs ..,
                refreshPrecompEph_lastCheck .., ?_⟩
              intro i
              rw [refreshPrecompEph_table]
            have hkept := refreshPrecompEph_tableKept (.udp d) n d.fresh
            rcases inboundHandshake_node ctx n d with heq | heq | ⟨pub, key, cfg, heq⟩
            · rw [heq]
              exact h
            · rw [heq]
              exact h.congr href hkept.keeps
            · rw [heq]
              exact (h.congr href hkept.keeps).installSession (ht.kept hkept) ctx d pub key cfg _
      · rename_i hd
        have hdata := Bool.eq_false_iff.mpr hd
        exact h.congr (dataPacket_sameMarks n d.src d.pkt d.now d.clock d.iv d.sendOk)
          ((dataPacket_cases ctx n hdata).works hdata).keeps

end MarksBacked

/-- The invariant along runs. -/
theorem marksBacked_run (ctx : LoopCtx S) (cfgs : List (PeerConfig S)) (fresh : Option S.Priv)
    (is : List (Input S)) : MarksBacked ((node ctx).run (Node.init cfgs fresh, []) is).1 := by
  refine ((node ctx).invariant_all (I := fun c => MarksBacked c.1 ∧ TableInv c.1) ?_ is _
    ⟨by rintro i ⟨⟩, TableInv.init cfgs fresh⟩).1
  rintro c inp ⟨hc, ht⟩
  exact ⟨hc.step ht ctx inp, ht.step (step_table ctx c.1 inp)⟩

/-! ## The result -/

/-- No session is stuck. A marked session has a pending handshake with a configured peer of its
identity; when a step ends a pending handshake, no session of its peer stays marked unless
another handshake with the peer is pending. -/
structure NoneStuck (ctx : LoopCtx S) (n : Node S) : Prop where
  backed : ∀ i, (n.table.sessions i).active = true → (n.table.sessions i).rekeying = true →
    ∃ j, (n.pendingHs j).active = true ∧ (n.pendingHs j).cfgIdx < n.peerConfigs.length ∧
      (n.config (n.pendingHs j).cfgIdx).pub = (n.table.sessions i).staticPub
  ended : ∀ inp pub j, n.waitsFor pub j →
    (((node ctx).step n inp).1.pendingHs j).active = false →
    ∀ i, (((node ctx).step n inp).1.table.sessions i).active = true →
      (((node ctx).step n inp).1.table.sessions i).staticPub = pub →
      (((node ctx).step n inp).1.table.sessions i).rekeying = true →
      ∃ k, k ≠ j ∧ ((node ctx).step n inp).1.waitsFor pub k

/-- **No session is stuck rekeying**, in any state of any run. -/
theorem none_stuck_rekeying (ctx : LoopCtx S) (cfgs : List (PeerConfig S))
    (fresh : Option S.Priv) (is : List (Input S)) :
    NoneStuck ctx ((node ctx).run (Node.init cfgs fresh, []) is).1 := by
  have hmarks := marksBacked_run ctx cfgs fresh is
  obtain ⟨htable, -⟩ := tableInv_run ctx cfgs fresh is
  generalize ((node ctx).run (Node.init cfgs fresh, []) is).1 = n at hmarks htable
  constructor
  · intro i hi hmark
    obtain ⟨j, hj, hpub⟩ := hmarks i hi hmark
    exact ⟨j, hj, Node.config_lt (htable.pending j hj), hpub⟩
  · intro inp pub j _ hend i hi hpub hmark
    obtain ⟨k, hk⟩ := hmarks.step htable ctx inp i hi hmark
    rw [hpub] at hk
    refine ⟨k, ?_, hk⟩
    rintro rfl
    rw [hk.1] at hend
    cases hend

/-- Node `2` connects to node `1` and starts to rekey 198 seconds later. -/
example :
    (((node (ctxOf 2)).run (Node.init [endpointOf 1] (some 200), [])
      [passAt 1000 12, arrival (addrOf 1) (responseOf 1 12 100) 1002 201,
        passAt 1200 13]).1.table.sessions ⟨0, by decide⟩).rekeying = true := by
  decide +kernel

end Lanecove
