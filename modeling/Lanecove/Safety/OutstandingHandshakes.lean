import Lanecove.Safety.PendingHandshakes
import Lanecove.Safety.TableInvariant

set_option autoImplicit false

/-! # One outstanding handshake for each peer

`initiate_outbound_handshake` takes the first free slot of `pending_hs[]`. It does not ask whether
another entry waits for the same peer, and only the times say that none does. An entry expires
`handshake_timeout` seconds after its `sent_at`. The next attempt is made `reconnect_interval`
seconds after `last_attempt`, which was read a moment before `sent_at`, and in another pass, at
least 10 seconds after the one at hand. And a pass starts handshakes first and looks for expired
entries then, with one and the same `now`.

So if the timeout and the time it takes to send an initiation fit into the reconnect interval or
into the 10 seconds between passes, an attempt meets only entries that the same pass will expire,
and after the pass each peer has one entry at most (`one_outstanding_handshake`). During the pass it
may have two, so there is room for all of them if no more than half of `MAX_PEERS` peers have an
endpoint. With a longer timeout two handshakes with one peer are outstanding, and the response to
the second is checked against the first (`two_outstanding_handshakes`).
-/

namespace Lanecove

variable {S : Suite}

/-! ## What is claimed -/

/-- The clock does not go back during the pass, and initiations are sent soon: the timeout fits into
the reconnect interval, together with the time from `last_attempt` to `sent_at`, or into the 10
seconds to the next pass, together with the time from `now` to `sent_at`. -/
structure PassInput.Prompt (ctx : LoopCtx S) (pass : PassInput S) : Prop where
  started : ∀ idx, pass.now ≤ pass.clock idx
  sent : ∀ idx, pass.clock idx ≤ pass.initSentAt idx
  soon : ∀ idx,
    ctx.handshakeTimeout + (pass.initSentAt idx - pass.clock idx) ≤ ctx.reconnectInterval ∨
      ctx.handshakeTimeout + (pass.initSentAt idx - pass.now) ≤ 10

/-- The passes of a run are prompt. -/
def Input.Prompt (ctx : LoopCtx S) : Input S → Prop
  | .housekeeping pass => pass.Prompt ctx
  | _ => True

/-- At most one entry waits for each of the peers `cfgs`. Hence there is a free entry whenever a
pass, which is due then, asks for one, if no more than half of `MAX_PEERS` peers have an endpoint;
and a datagram from the address an entry waits for is checked against this entry, if no entry of
another peer waits for the same address. -/
structure OneOutstanding (ctx : LoopCtx S) (cfgs : List (PeerConfig S)) (n : Node S) : Prop where
  unique : ∀ j k, (n.pendingHs j).active = true → (n.pendingHs k).active = true →
    (n.pendingHs j).cfgIdx = (n.pendingHs k).cfgIdx → j = k
  room : 2 * cfgs.countP PeerConfig.hasEndpoint ≤ MAX_PEERS → ∀ pass idx, pass.Prompt ctx →
    10 ≤ pass.now - n.lastCheck →
    attempts ctx pass (connecting ctx pass n idx) idx = true →
    (findFreePending (connecting ctx pass n idx)).isSome = true
  answered : ∀ j, (n.pendingHs j).active = true →
    (∀ k, (n.pendingHs k).active = true →
      (n.pendingHs k).serverAddr = (n.pendingHs j).serverAddr →
      (n.pendingHs k).cfgIdx = (n.pendingHs j).cfgIdx) →
    pendingFrom n (n.pendingHs j).serverAddr = some j

/-! ## Steps that start nothing -/

/-- Configurations and the time of the last pass are the same, and the entries that are active have
not changed. -/
structure Retires (n n' : Node S) : Prop where
  configs : n'.peerConfigs = n.peerConfigs
  lastCheck : n'.lastCheck = n.lastCheck
  pending : ∀ j, (n'.pendingHs j).active = true → n'.pendingHs j = n.pendingHs j

namespace Retires

variable {n n' n'' : Node S}

theorem refl (n : Node S) : Retires n n := ⟨rfl, rfl, fun _ _ => rfl⟩

theorem trans (h : Retires n n') (h' : Retires n' n'') : Retires n n'' := by
  refine ⟨h'.configs.trans h.configs, h'.lastCheck.trans h.lastCheck, fun j hj => ?_⟩
  have heq := h'.pending j hj
  rw [heq] at hj ⊢
  exact h.pending j hj

theorem of_sameMarks (h : SameMarks n n') : Retires n n' :=
  ⟨h.configs, h.lastCheck, fun j _ => congrFun h.pending j⟩

/-- An entry is used up, whatever happens to the session table. -/
theorem setPending {j : Fin MAX_PEERS} {p : PendingHs S} (hp : p.active = false)
    (tb : SessionTable S) : Retires n { n.setPending j p with table := tb } :=
  ⟨rfl, rfl, Node.setPending_active hp⟩

end Retires

theorem outboundResponse_retires (ctx : LoopCtx S) (n : Node S) (j : Fin MAX_PEERS)
    (d : Datagram S) : Retires n (outboundResponse ctx n j d).1 := by
  obtain ⟨st, heq | ⟨key, heq⟩⟩ := outboundResponse_node ctx n j d
  · rw [heq]
    exact .setPending rfl _
  · obtain ⟨tb, htb⟩ := installSession_node ctx
      (n.setPending j { n.pendingHs j with active := false, hsState := st }) d
      (n.config (n.pendingHs j).cfgIdx).pub key (n.config (n.pendingHs j).cfgIdx) true
    rw [heq, htb]
    exact .setPending rfl tb

theorem udpPacket_retires (ctx : LoopCtx S) (n : Node S) (d : Datagram S) :
    Retires n (udpPacket ctx n d).1 := by
  cases hd : isHandshake ctx d.pkt with
  | false =>
      rw [udpPacket_of_data hd]
      exact .of_sameMarks (dataPacket_sameMarks ..)
  | true =>
      rw [udpPacket_of_handshake hd]
      cases hp : pendingFrom n d.src with
      | none =>
          obtain ⟨hcheck, hconfigs⟩ := handshakePkt_fixed ctx n d
          refine ⟨hconfigs, hcheck, fun j _ => ?_⟩
          rw [handshakePkt_of_pendingFrom_none ctx n hp]
          exact congrFun (inboundHandshake_pendingHs ctx n d) j
      | some j =>
          rw [handshakePkt_of_pendingFrom_some ctx n hp]
          exact outboundResponse_retires ctx n j d

/-! ## Entries that are overdue -/

/-- At time `now` the entry has waited for `handshake_timeout` seconds. -/
def Overdue (ctx : LoopCtx S) (now : Int) (p : PendingHs S) : Prop :=
  ctx.handshakeTimeout ≤ now - p.sentAt

instance (ctx : LoopCtx S) (now : Int) (p : PendingHs S) : Decidable (Overdue ctx now p) :=
  inferInstanceAs (Decidable (_ ≤ _))

theorem expirePending_retires (ctx : LoopCtx S) (now : Int) (n : Node S) (j : Fin MAX_PEERS) :
    Retires n (expirePending ctx now n j).1 := by
  simp only [expirePending]
  split
  · exact .setPending rfl _
  · exact .refl n

/-- The body of the loop leaves no overdue entry in its slot. -/
theorem expirePending_overdue {ctx : LoopCtx S} {now : Int} {n : Node S} {j : Fin MAX_PEERS}
    (hj : ((expirePending ctx now n j).1.pendingHs j).active = true) :
    ¬ Overdue ctx now ((expirePending ctx now n j).1.pendingHs j) := by
  simp only [expirePending] at hj ⊢
  split at hj
  · rw [Node.setPending_pendingHs, Function.update_self] at hj
    cases hj
  · rename_i hcond
    rw [if_neg hcond]
    intro hover
    exact hcond (Bool.and_eq_true_iff.mpr ⟨hj, decide_eq_true hover⟩)

/-- The loop over the slots of a list. -/
theorem expirePending_run (ctx : LoopCtx S) (now : Int) (l : List (Fin MAX_PEERS))
    (c : (Machine.mk (expirePending (S := S) ctx now)).Config) :
    Retires c.1 ((Machine.mk (expirePending ctx now)).run c l).1 ∧
      ∀ j ∈ l, (((Machine.mk (expirePending ctx now)).run c l).1.pendingHs j).active = true →
        ¬ Overdue ctx now (((Machine.mk (expirePending ctx now)).run c l).1.pendingHs j) := by
  induction l generalizing c with
  | nil => exact ⟨.refl c.1, nofun⟩
  | cons i l ih =>
      obtain ⟨hret, hover⟩ := ih ((Machine.mk (expirePending ctx now)).next c i)
      refine ⟨(expirePending_retires ctx now c.1 i).trans hret, ?_⟩
      intro j hj hactive
      rcases List.mem_cons.mp hj with rfl | hj
      · -- the entry was looked at first, and has not changed since
        have heq := hret.pending j hactive
        rw [Machine.run] at hactive ⊢
        rw [heq] at hactive ⊢
        exact expirePending_overdue hactive
      · exact hover j hj hactive

/-! ## A pass -/

/-- An entry waits for no longer than its peer has to wait for the next attempt. -/
def Brief (ctx : LoopCtx S) (n : Node S) (p : PendingHs S) : Prop :=
  p.sentAt + ctx.handshakeTimeout ≤ (n.config p.cfgIdx).lastAttempt + ctx.reconnectInterval

/-- The invariant outside of a pass. No entry is met by an attempt before it is overdue: there is
none in the reconnect interval of the peer, nor in the 10 seconds after the last pass. -/
structure Waiting (ctx : LoopCtx S) (n : Node S) : Prop where
  due : ∀ j, (n.pendingHs j).active = true →
    Brief ctx n (n.pendingHs j) ∨
      (n.pendingHs j).sentAt + ctx.handshakeTimeout ≤ n.lastCheck + 10
  unique : ∀ j k, (n.pendingHs j).active = true → (n.pendingHs k).active = true →
    (n.pendingHs j).cfgIdx = (n.pendingHs k).cfgIdx → j = k

/-- The invariant of the loop that starts handshakes, in a pass at time `now` that has come to
configuration `idx`. The entries of the configurations from there on are older than the pass. A peer
has one entry that is overdue and one that is not, at most. -/
structure Connecting (ctx : LoopCtx S) (now : Int) (idx : Nat) (n : Node S) : Prop where
  check : n.lastCheck = now
  due : ∀ j, (n.pendingHs j).active = true →
    Overdue ctx now (n.pendingHs j) ∨ Brief ctx n (n.pendingHs j) ∨
      (n.pendingHs j).cfgIdx < idx ∧ (n.pendingHs j).sentAt + ctx.handshakeTimeout ≤ now + 10
  unique : ∀ j k, (n.pendingHs j).active = true → (n.pendingHs k).active = true →
    (n.pendingHs j).cfgIdx = (n.pendingHs k).cfgIdx →
    (Overdue ctx now (n.pendingHs j) ↔ Overdue ctx now (n.pendingHs k)) → j = k

theorem Waiting.retires {ctx : LoopCtx S} {n n' : Node S} (h : Waiting ctx n)
    (hr : Retires n n') : Waiting ctx n' := by
  refine ⟨?_, ?_⟩
  · intro j hj
    have hsame := hr.pending j hj
    rw [hsame] at hj ⊢
    rw [Brief, Node.config_congr hr.configs, hr.lastCheck]
    exact h.due j hj
  · intro j k hj hk heq
    have hsame := hr.pending j hj
    have hsame' := hr.pending k hk
    rw [hsame] at hj heq
    rw [hsame'] at hk heq
    exact h.unique j k hj hk heq

/-- A pass that is due finds the entries overdue whose time was up with the last one. -/
theorem Waiting.connecting {ctx : LoopCtx S} {n : Node S} (h : Waiting ctx n) {now : Int}
    (hdue : 10 ≤ now - n.lastCheck) : Connecting ctx now 0 { n with lastCheck := now } := by
  refine ⟨rfl, ?_, fun j k hj hk heq _ => h.unique j k hj hk heq⟩
  intro j hj
  rcases h.due j hj with hbrief | hsoon
  · exact .inr (.inl hbrief)
  · refine .inl ?_
    show ctx.handshakeTimeout ≤ now - (n.pendingHs j).sentAt
    omega

namespace Connecting

variable {ctx : LoopCtx S} {pass : PassInput S} {n n' : Node S} {idx : Nat}

/-- At the time of an attempt, all entries of the peer are overdue. -/
theorem overdue (h : Connecting ctx pass.now idx n) (hatt : attempts ctx pass n idx = true)
    {j : Fin MAX_PEERS} (hj : (n.pendingHs j).active = true)
    (hidx : (n.pendingHs j).cfgIdx = idx) : Overdue ctx pass.now (n.pendingHs j) := by
  have hready : ctx.reconnectInterval ≤ pass.now - (n.config idx).lastAttempt :=
    of_decide_eq_true (Bool.and_eq_true_iff.mp hatt).2
  rcases h.due j hj with hover | hbrief | ⟨hlt, -⟩
  · exact hover
  · rw [Brief, hidx] at hbrief
    unfold Overdue
    omega
  · omega

/-- The entries from before an attempt. Those of the peer are overdue, and the times of the others
do not change. -/
theorem due_older (h : Connecting ctx pass.now idx n) (hatt : attempts ctx pass n idx = true)
    (ha : Attempted pass idx n n') {j : Fin MAX_PEERS} (hj : (n.pendingHs j).active = true) :
    Overdue ctx pass.now (n.pendingHs j) ∨ Brief ctx n' (n.pendingHs j) ∨
      (n.pendingHs j).cfgIdx < idx + 1 ∧
        (n.pendingHs j).sentAt + ctx.handshakeTimeout ≤ pass.now + 10 := by
  by_cases hidx : (n.pendingHs j).cfgIdx = idx
  · exact .inl (h.overdue hatt hj hidx)
  · rw [Brief, ha.others _ hidx]
    rcases h.due j hj with hover | hbrief | ⟨hlt, hsoon⟩
    · exact .inl hover
    · exact .inr (.inl hbrief)
    · exact .inr (.inr ⟨by omega, hsoon⟩)

/-- An attempt without a new entry. -/
theorem fail (h : Connecting ctx pass.now idx n) (hatt : attempts ctx pass n idx = true)
    (ha : Attempted pass idx n n') (hsame : n'.pendingHs = n.pendingHs) :
    Connecting ctx pass.now (idx + 1) n' := by
  refine ⟨ha.lastCheck.trans h.check, ?_, ?_⟩
  · intro j hj
    rw [hsame] at hj ⊢
    exact h.due_older hatt ha hj
  · rw [hsame]
    exact h.unique

/-- **One attempt.** The entries the peer has are overdue, and the new one is not. -/
theorem start (h : Connecting ctx pass.now idx n) (hpass : pass.Prompt ctx)
    (htimeout : 0 < ctx.handshakeTimeout) (hatt : attempts ctx pass n idx = true)
    (ha : Attempted pass idx n n') {j : Fin MAX_PEERS} {p : PendingHs S} (hp : Started idx n j p)
    (hsentAt : p.sentAt = pass.initSentAt idx)
    (hupd : n'.pendingHs = Function.update n.pendingHs j p) :
    Connecting ctx pass.now (idx + 1) n' := by
  have hself : n'.pendingHs j = p := by rw [hupd, Function.update_self]
  have hne : ∀ k, k ≠ j → n'.pendingHs k = n.pendingHs k := by
    intro k hk
    rw [hupd, Function.update_of_ne hk]
  have hstarted := hpass.started idx
  have hsent := hpass.sent idx
  have hfresh : ¬ Overdue ctx pass.now p := by
    unfold Overdue
    omega
  -- an entry of the peer other than the new one was there before, so it is overdue
  have hother : ∀ k, k ≠ j → (n'.pendingHs k).active = true →
      (n'.pendingHs k).cfgIdx = idx → Overdue ctx pass.now (n'.pendingHs k) := by
    intro k hk hactive hidx
    rw [hne k hk] at hactive hidx ⊢
    exact h.overdue hatt hactive hidx
  refine ⟨ha.lastCheck.trans h.check, ?_, ?_⟩
  · intro k hk
    by_cases hkj : k = j
    · rw [hkj, hself, Brief, hp.cfgIdx, ha.lastAttempt, hsentAt]
      rcases hpass.soon idx with hsoon | hsoon
      · exact .inr (.inl (by omega))
      · exact .inr (.inr ⟨Nat.lt_succ_self idx, by omega⟩)
    · rw [hne k hkj] at hk ⊢
      exact h.due_older hatt ha hk
  · intro k l hk hl heq hiff
    by_cases hkj : k = j <;> by_cases hlj : l = j
    · rw [hkj, hlj]
    · subst hkj
      rw [hself, hp.cfgIdx] at heq
      rw [hself] at hiff
      exact absurd (hiff.mpr (hother l hlj hl heq.symm)) hfresh
    · subst hlj
      rw [hself, hp.cfgIdx] at heq
      rw [hself] at hiff
      exact absurd (hiff.mp (hother k hkj hk heq)) hfresh
    · rw [hne k hkj] at hk heq hiff
      rw [hne l hlj] at hl heq hiff
      exact h.unique k l hk hl heq hiff

theorem connectPeer (h : Connecting ctx pass.now idx n) (hpass : pass.Prompt ctx)
    (htimeout : 0 < ctx.handshakeTimeout) :
    Connecting ctx pass.now (idx + 1) (connectPeer ctx pass n idx).1 := by
  cases connectPeer_outcome ctx pass n idx with
  | skip heq =>
      rw [heq]
      refine ⟨h.check, fun j hj => ?_, h.unique⟩
      exact (h.due j hj).imp_right (Or.imp_right (And.imp_left Nat.lt_succ_of_lt))
  | fail attempt times _ pending => exact h.fail attempt times pending
  | start attempt times _ _ _ hp sentAt pending =>
      exact h.start hpass htimeout attempt times hp sentAt pending

/-- The entries that are left when the overdue ones are gone. -/
theorem waiting (h : Connecting ctx pass.now idx n) (hr : Retires n n')
    (hnone : ∀ j, (n'.pendingHs j).active = true → ¬ Overdue ctx pass.now (n'.pendingHs j)) :
    Waiting ctx n' := by
  refine ⟨?_, ?_⟩
  · intro j hj
    have hover := hnone j hj
    have hsame := hr.pending j hj
    rw [hsame] at hj hover ⊢
    rw [Brief, Node.config_congr hr.configs, hr.lastCheck, h.check]
    exact ((h.due j hj).resolve_left hover).imp_right And.right
  · intro j k hj hk heq
    have hover := hnone j hj
    have hover' := hnone k hk
    have hsame := hr.pending j hj
    have hsame' := hr.pending k hk
    rw [hsame] at hj heq hover
    rw [hsame'] at hk heq hover'
    exact h.unique j k hj hk heq (iff_of_false hover hover')

end Connecting

theorem connecting_succ (ctx : LoopCtx S) (pass : PassInput S) (n : Node S) (k : Nat) :
    connecting ctx pass n (k + 1) = (connectPeer ctx pass (connecting ctx pass n k) k).1 := by
  unfold connecting
  rw [List.range_succ, Machine.run_append]
  rfl

/-- The loop that starts handshakes, up to any configuration. -/
theorem Waiting.connecting_at {ctx : LoopCtx S} {n : Node S} (h : Waiting ctx n)
    {pass : PassInput S} (hpass : pass.Prompt ctx) (htimeout : 0 < ctx.handshakeTimeout)
    (hdue : 10 ≤ pass.now - n.lastCheck) (k : Nat) :
    Connecting ctx pass.now k (Lanecove.connecting ctx pass n k) := by
  induction k with
  | zero => exact h.connecting hdue
  | succ k ih =>
      rw [connecting_succ]
      exact ih.connectPeer hpass htimeout

/-- **One pass.** -/
theorem Waiting.housekeeping {ctx : LoopCtx S} {n : Node S} (h : Waiting ctx n)
    {pass : PassInput S} (hpass : pass.Prompt ctx) (htimeout : 0 < ctx.handshakeTimeout) :
    Waiting ctx (housekeeping ctx n pass).1 := by
  unfold Lanecove.housekeeping
  split
  · rename_i hdue
    simp only [housekeepingPass]
    have h₁ := h.connecting_at hpass htimeout hdue n.peerConfigs.length
    unfold Lanecove.connecting at h₁
    generalize (Machine.mk (connectPeer ctx pass)).run ({ n with lastCheck := pass.now }, [])
      (List.range n.peerConfigs.length) = c₁ at h₁ ⊢
    obtain ⟨hret, hover⟩ := expirePending_run ctx pass.now (List.finRange MAX_PEERS) c₁
    have h₂ := h₁.waiting hret fun j => hover j (List.mem_finRange j)
    -- the loops over the sessions do not touch the entries
    have h₃ := SameMarks.run (expireSession_sameMarks ctx pass.now) (List.finRange MAX_PEERS)
      ((Machine.mk (expirePending ctx pass.now)).run c₁ (List.finRange MAX_PEERS))
    exact h₂.retires (.of_sameMarks (h₃.trans
      (SameMarks.run (keepalive_sameMarks ctx pass) (List.finRange MAX_PEERS) _)))
  · exact h

/-- **One step.** -/
theorem Waiting.step {ctx : LoopCtx S} {n : Node S} (h : Waiting ctx n) {inp : Input S}
    (hinp : inp.Prompt ctx) (htimeout : 0 < ctx.handshakeTimeout) :
    Waiting ctx ((node ctx).step n inp).1 := by
  cases inp with
  | udp d => exact h.retires (udpPacket_retires ctx n d)
  | tun packet iv ok now => exact h.retires (.of_sameMarks (tunPacket_sameMarks n packet iv ok now))
  | housekeeping pass => exact h.housekeeping hinp htimeout

/-! ## Room for an attempt -/

/-- The peers with an endpoint, by their place in `peer_configs[]`. -/
def Node.outbound (n : Node S) : Finset Nat :=
  (Finset.range n.peerConfigs.length).filter fun idx => (n.config idx).hasEndpoint = true

theorem Node.card_outbound (n : Node S) :
    n.outbound.card = n.peerConfigs.countP PeerConfig.hasEndpoint := by
  have hlist : (List.range n.peerConfigs.length).map n.config = n.peerConfigs := by
    refine List.ext_getElem (by simp) fun i _ hi => ?_
    rw [List.getElem_map, List.getElem_range, Node.config, List.getD_eq_getElem?_getD,
      List.getElem?_eq_getElem hi, Option.getD_some]
  have hcard : n.outbound.card
      = (List.range n.peerConfigs.length).countP fun idx => (n.config idx).hasEndpoint := by
    rw [List.countP_eq_length_filter, Node.outbound]
    exact congrArg List.length (List.filter_congr fun _ _ => by simp)
  calc n.outbound.card
      = ((List.range n.peerConfigs.length).map n.config).countP PeerConfig.hasEndpoint := by
        rw [hcard, List.countP_map]
        rfl
    _ = n.peerConfigs.countP PeerConfig.hasEndpoint := by rw [hlist]

/-- If the entries were all in use, each would belong to a peer with an endpoint and be overdue or
not. There are too few such combinations, and the peer of the attempt has only one of its two. -/
theorem Connecting.room {ctx : LoopCtx S} {pass : PassInput S} {n : Node S} {idx : Nat}
    (h : Connecting ctx pass.now idx n) (htable : TableInv n)
    (hpeers : 2 * n.peerConfigs.countP PeerConfig.hasEndpoint ≤ MAX_PEERS)
    (hatt : attempts ctx pass n idx = true) : (findFreePending n).isSome = true := by
  by_contra hnone
  rw [Bool.not_eq_true, Option.isSome_eq_false_iff, Option.isNone_iff_eq_none] at hnone
  have hall : ∀ j, (n.pendingHs j).active = true := by
    intro j
    simpa using Fin.find?_eq_none_iff.mp hnone j
  have hmem : ∀ i, (n.config i).hasEndpoint = true → i ∈ n.outbound := by
    intro i hi
    exact Finset.mem_filter.mpr ⟨Finset.mem_range.mpr (Node.config_lt hi), hi⟩
  -- the peer of the attempt has no entry that is not overdue
  let kinds := (n.outbound ×ˢ (Finset.univ : Finset Bool)).erase (idx, false)
  let kind := fun j => ((n.pendingHs j).cfgIdx, decide (Overdue ctx pass.now (n.pendingHs j)))
  have hmaps : ∀ j ∈ (Finset.univ : Finset (Fin MAX_PEERS)), kind j ∈ kinds := by
    intro j _
    refine Finset.mem_erase.mpr ⟨?_, ?_⟩
    · intro heq
      obtain ⟨hidx, hnot⟩ := Prod.mk.inj heq
      exact of_decide_eq_false hnot (h.overdue hatt (hall j) hidx)
    · exact Finset.mem_product.mpr ⟨hmem _ (htable.pending j (hall j)), Finset.mem_univ _⟩
  have hinj : Set.InjOn kind (Finset.univ : Finset (Fin MAX_PEERS)) := by
    intro j _ k _ heq
    obtain ⟨hidx, hover⟩ := Prod.mk.inj heq
    exact h.unique j k (hall j) (hall k) hidx (decide_eq_decide.mp hover)
  have hcard := Finset.card_le_card_of_injOn _ hmaps hinj
  have hidx : (idx, false) ∈ n.outbound ×ˢ (Finset.univ : Finset Bool) := by
    simp only [attempts, Bool.and_eq_true] at hatt
    exact Finset.mem_product.mpr ⟨hmem idx hatt.1.1, Finset.mem_univ _⟩
  have herase : kinds.card < (n.outbound ×ˢ (Finset.univ : Finset Bool)).card :=
    Finset.card_erase_lt_of_mem hidx
  rw [Finset.card_product, Node.card_outbound, Finset.card_univ, Fintype.card_bool] at herase
  rw [Finset.card_univ, Fintype.card_fin] at hcard
  omega

/-- Which peers have an endpoint does not change. -/
theorem countP_hasEndpoint_congr {cfgs cfgs' : List (PeerConfig S)}
    (h : cfgs'.map PeerConfig.fixed = cfgs.map PeerConfig.fixed) :
    cfgs'.countP PeerConfig.hasEndpoint = cfgs.countP PeerConfig.hasEndpoint := by
  have hfixed : ∀ l : List (PeerConfig S),
      (l.map PeerConfig.fixed).countP (fun x => x.2.2) = l.countP PeerConfig.hasEndpoint := by
    intro l
    rw [List.countP_map]
    rfl
  rw [← hfixed, ← hfixed, h]

/-- The table and the configurations, up to any point of the loop that starts handshakes. -/
theorem connecting_table (ctx : LoopCtx S) {n : Node S} (h : TableInv n) (pass : PassInput S)
    (k : Nat) : TableInv (connecting ctx pass n k) ∧
      (connecting ctx pass n k).peerConfigs.map PeerConfig.fixed
        = n.peerConfigs.map PeerConfig.fixed := by
  have hcheck : TableKept (.housekeeping pass) n { n with lastCheck := pass.now } :=
    tableKept_of_table rfl rfl fun _ _ => rfl
  refine (Machine.mk (connectPeer ctx pass)).invariant_all (I := fun c => TableInv c.1 ∧
    c.1.peerConfigs.map PeerConfig.fixed = n.peerConfigs.map PeerConfig.fixed) ?_ (List.range k) _
    ⟨h.kept hcheck, rfl⟩
  rintro c idx ⟨hc, hcfgs⟩
  have hk := connectPeer_tableKept ctx pass c.1 idx
  exact ⟨hc.kept hk, hk.configs.trans hcfgs⟩

/-! ## The result -/

/-- **One outstanding handshake.** In every run in whose passes the clock does not go back and the
timeout and the time it takes to send an initiation fit into the reconnect interval, or into the 10
seconds between passes, at most one entry of `pending_hs[]` waits for each peer. -/
theorem one_outstanding_handshake (ctx : LoopCtx S) (cfgs : List (PeerConfig S))
    (fresh : Option S.Priv) (is : List (Input S)) (htimeout : 0 < ctx.handshakeTimeout)
    (hrun : ∀ inp ∈ is, inp.Prompt ctx) :
    OneOutstanding ctx cfgs ((node ctx).run (Node.init cfgs fresh, []) is).1 := by
  obtain ⟨htable, hcfgs⟩ := tableInv_run ctx cfgs fresh is
  have hwait := (node ctx).invariant (I := fun c => Waiting ctx c.1)
    (fun c inp hc hinp => hc.step hinp htimeout) is (Node.init cfgs fresh, []) ⟨nofun, nofun⟩
    ((node ctx).along_of_mem hrun _)
  generalize ((node ctx).run (Node.init cfgs fresh, []) is).1 = n at htable hcfgs hwait
  refine ⟨hwait.unique, ?_, ?_⟩
  · intro hpeers pass idx hpass hdue hatt
    obtain ⟨htable', hcfgs'⟩ := connecting_table ctx htable pass idx
    refine (hwait.connecting_at hpass htimeout hdue idx).room htable' ?_ hatt
    rw [countP_hasEndpoint_congr (hcfgs'.trans hcfgs)]
    exact hpeers
  · intro j hj hown
    cases hf : pendingFrom n (n.pendingHs j).serverAddr with
    | none =>
        have hno := Fin.find?_eq_none_iff.mp hf j
        simp [hj] at hno
    | some k =>
        obtain ⟨hk, haddr⟩ := pendingFrom_eq_some hf
        rw [hwait.unique k j hk hj (hown k hk haddr)]

theorem prompt_passAt {ctx : LoopCtx symbolic} (h : ctx.handshakeTimeout ≤ 10) (now : Int)
    (e : Nat) : (passAt now e).Prompt ctx where
  started _ := le_rfl
  sent _ := le_rfl
  soon _ := by
    refine .inr ?_
    show ctx.handshakeTimeout + (now - now) ≤ 10
    omega

/-- Node `2` tries again after a second, and waits for 5 seconds as by default. -/
def eager : LoopCtx symbolic := { ctxOf 2 with reconnectInterval := 1 }

theorem one_outstanding_renewedRun :
    0 < eager.handshakeTimeout ∧ (∀ inp ∈ renewedRun, inp.Prompt eager) ∧
    (((node eager).run (Node.init [endpointOf 1] (some 200), []) renewedRun).1.pendingHs
      ⟨0, by decide⟩).active = true ∧
    OneOutstanding eager [endpointOf 1]
      ((node eager).run (Node.init [endpointOf 1] (some 200), []) renewedRun).1 := by
  have htimeout : 0 < eager.handshakeTimeout := by decide
  have hshort : eager.handshakeTimeout ≤ 10 := by decide
  have hrun : ∀ inp ∈ renewedRun, inp.Prompt eager := by
    intro inp hinp
    simp only [renewedRun, List.mem_cons, List.not_mem_nil, or_false] at hinp
    rcases hinp with rfl | rfl | rfl
    · exact prompt_passAt hshort ..
    · trivial
    · exact prompt_passAt hshort ..
  exact ⟨htimeout, hrun, by decide +kernel,
    one_outstanding_handshake eager _ _ renewedRun htimeout hrun⟩

/-- Node `1` tries again after a second and waits for 100 seconds. -/
def patient : LoopCtx symbolic := { ctxOf 1 with reconnectInterval := 1, handshakeTimeout := 100 }

/-- Peer `2` does not answer before the second pass. -/
def retryRun : List (Input symbolic) := [passAt 100 21, passAt 110 22]

def retried : Node symbolic :=
  ((node patient).run (Node.init [endpointOf 2] (some 100), []) retryRun).1

/-- A node with the default settings, and with one peer too many that has an endpoint. None of them
has answered yet. -/
def crowded : Node symbolic :=
  ((node (ctxOf 1)).run
    (Node.init ((List.range 33).map fun k => endpointOf (k + 2)) (some 100), []) [passAt 100 21]).1

/-- A node with the default settings and two peers at one address. It has sent an initiation to
each. -/
def colocated : Node symbolic :=
  ((node (ctxOf 1)).run
    (Node.init [endpointOf 2, { endpointOf 3 with endpoint := addrOf 2 }] (some 100), [])
    [passAt 100 21]).1

/-- Two entries wait for peer `2`, and its response to the second handshake is checked against the
first, and rejected. Where there are 33 peers, a pass that comes late finds all entries in use
before it has tried all of them. And where two peers have the same address, the response of the
second is checked against the entry of the first, and rejected. -/
theorem two_outstanding_handshakes :
    Machine.Timed Input.During 100 retryRun ∧
    (0 < patient.reconnectInterval ∧ 0 < patient.handshakeTimeout ∧ 0 < patient.rekeyAfter ∧
      patient.rekeyAfter < patient.sessionExpiry) ∧
    ¬ OneOutstanding patient [endpointOf 2] retried ∧
    completed ((node patient).step retried
      (arrival (addrOf 2) (responseOf 2 22 31) 111 101)).2 = [] ∧
    (∃ pass, passAt 140 22 = .housekeeping pass ∧ 10 ≤ pass.now - crowded.lastCheck ∧
      attempts (ctxOf 1) pass (connecting (ctxOf 1) pass crowded 31) 31 = true ∧
      findFreePending (connecting (ctxOf 1) pass crowded 31) = none) ∧
    (colocated.pendingHs ⟨1, by decide⟩).active = true ∧
    pendingFrom colocated (colocated.pendingHs ⟨1, by decide⟩).serverAddr
      = some ⟨0, by decide⟩ ∧
    completed ((node (ctxOf 1)).step colocated
      (arrival (addrOf 2) (responseOf 3 21 31) 101 101)).2 = [] := by
  refine ⟨⟨100, during_passAt _ (by decide), 110, during_passAt _ (by decide), trivial⟩,
    by decide, ?_, by decide +kernel, ⟨_, rfl, by decide +kernel⟩, by decide +kernel,
    by decide +kernel, by decide +kernel⟩
  intro h
  have heq := h.unique ⟨0, by decide⟩ ⟨1, by decide⟩ (by decide +kernel) (by decide +kernel)
    (by decide +kernel)
  cases heq

end Lanecove
