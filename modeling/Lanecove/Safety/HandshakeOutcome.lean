import Lanecove.Handshake.Agreement
import Lanecove.Safety.KeyOwnership

set_option autoImplicit false

/-! # Do both sides agree that there was a handshake?

The responder sends its answer in the middle of `handshake_server_respond`. Four checks come
after it: the last shared secret, the allowlist, the cooldown of the peer's key, and the slot
allocation. `answer_agrees_iff` says that an answer stands for an installed session exactly
when these checks pass.

Two nodes that initiate at the same time never agree: each takes the other's initiation as
the response it waits for (`tie_break_never_resolves`).
-/

namespace Lanecove

variable {S : Suite}

/-! ## Answered and installed -/

/-- The step answers the datagram if and only if it installs an active session for the client
the datagram names, whose key is the one `handshake_client_recv` derives from the answer at
every client that made the datagram with `handshake_client_send`. -/
def AnswerAgrees (ctx : LoopCtx S) (n : Node S) (d : Datagram S) : Prop :=
  (∃ resp, .respSent d.src resp ∈ ((node ctx).step n (.udp d)).2) ↔
  ∃ e, .installed e ∈ ((node ctx).step n (.udp d)).2 ∧
    (openInitiation d.pkt ctx.pskKey ctx.staticKey).map Initiation.clientStaticPub
      = some e.pub ∧
    (((node ctx).step n (.udp d)).1.table.sessions e.slot).active = true ∧
    (((node ctx).step n (.udp d)).1.table.sessions e.slot).staticPub = e.pub ∧
    (((node ctx).step n (.udp d)).1.table.sessions e.slot).sessionKey = e.key ∧
    ∀ resp cs fresh st, .respSent d.src resp ∈ ((node ctx).step n (.udp d)).2 →
      handshakeClientSend ctx.pskKey (S.pubOf cs) ctx.staticPub fresh true = some (d.pkt, st) →
      (handshakeClientRecv resp ctx.pskKey cs (S.pubOf cs) ctx.staticPub st).1 = some e.key

/-- The checks after the answer pass: the last shared secret exists, the peer is configured, its
key is not in the cooldown, and there is a slot. -/
def LateChecksPass (ctx : LoopCtx S) (n : Node S) (d : Datagram S) (ephKey : S.Priv)
    (ini : Initiation S) : Prop :=
  (S.x25519 ephKey ini.clientStaticPub).isSome ∧
    (findPeerConfig n.peerConfigs ini.clientStaticPub).isSome ∧
    inCooldown ctx n.table d.now (findSessionByPub n.table ini.clientStaticPub) = false ∧
    (allocSession n.table ini.clientStaticPub d.src).isSome

instance (ctx : LoopCtx S) (n : Node S) (d : Datagram S) (ephKey : S.Priv) (ini : Initiation S) :
    Decidable (LateChecksPass ctx n d ephKey ini) :=
  inferInstanceAs (Decidable (_ ∧ _ ∧ _ = false ∧ _))

section Outcome

variable {ctx : LoopCtx S} {n : Node S} {d : Datagram S}

/-- The inbound branch is the step, for a handshake datagram no pending handshake waits
for. -/
theorem step_inbound (hd : isHandshake ctx d.pkt = true) (hp : pendingFrom n d.src = none) :
    (node ctx).step n (.udp d) = inboundHandshake ctx n d := by
  show udpPacket ctx n d = _
  rw [udpPacket, if_pos hd, handshakePkt_of_pendingFrom_none ctx n hp]

/-- Nothing was sent and nothing installed. -/
theorem answerAgrees_of_silent (h : ((node ctx).step n (.udp d)).2 = []) :
    AnswerAgrees ctx n d := by
  constructor
  · rintro ⟨resp, hresp⟩
    rw [h] at hresp
    cases hresp
  · rintro ⟨e, he, -⟩
    rw [h] at he
    cases he

/-- An answer without a session. -/
theorem not_answerAgrees (resp : S.Wire)
    (hresp : .respSent d.src resp ∈ ((node ctx).step n (.udp d)).2)
    (hno : ∀ e, .installed e ∉ ((node ctx).step n (.udp d)).2) : ¬ AnswerAgrees ctx n d := by
  intro h
  obtain ⟨e, he, -⟩ := h.mp ⟨resp, hresp⟩
  exact hno e he

/-- An answer with its session. -/
theorem answerAgrees_of_installed (hS : S.Lawful) {resp : S.Wire} {pub key : S.Block}
    {cfg : PeerConfig S} {i : Fin MAX_PEERS} {tb : SessionTable S}
    (hr : handshakeServerRespond d.pkt ctx.pskKey ctx.staticKey ctx.staticPub
      n.precompEphKey d.sendOk = ⟨some resp, some (pub, key)⟩)
    (hstep : (node ctx).step n (.udp d) =
      (installAt ctx (refreshPrecompEph n d.fresh) d i tb pub key cfg false,
        [.respSent d.src resp, .hsDone pub key,
          .installed ⟨i, pub, key, d.src, d.pkt, false, d.clock⟩])) :
    AnswerAgrees ctx n d := by
  have hdone := congrArg Response.done hr
  constructor
  · intro _
    rw [hstep]
    refine ⟨⟨i, pub, key, d.src, d.pkt, false, d.clock⟩, by simp, openInitiation_of_done hdone,
      by rw [installAt_sessions_self]; rfl, by rw [installAt_sessions_self]; rfl,
      by rw [installAt_sessions_self]; rfl, ?_⟩
    -- the honest client derives the same key, by agreement of the handshake
    intro resp' cs fresh st hresp hsend
    obtain rfl : resp' = resp := by simpa using hresp
    have hsent : (handshakeServerRespond d.pkt ctx.pskKey ctx.staticKey (S.pubOf ctx.staticKey)
        n.precompEphKey d.sendOk).sent = some resp' := congrArg Response.sent hr
    obtain ⟨input, hdone', hrecv⟩ := respond_completes hS hsend hsent
    have hkey : (pub, key) = (S.pubOf cs, deriveSessionKey input) :=
      Option.some.inj (hdone.symm.trans hdone')
    rw [handshakeClientRecv, LoopCtx.staticPub, hrecv, (Prod.mk.inj hkey).2]
  · intro _
    rw [hstep]
    exact ⟨resp, by simp⟩

end Outcome

/-- **Answered if and only if installed.** For every state and every datagram of the
inbound-handshake branch, the answer agrees with the session table exactly when an answered
initiation passes the checks that come after the answer. -/
theorem answer_agrees_iff (hS : S.Lawful) (ctx : LoopCtx S) (n : Node S) (d : Datagram S)
    (hd : isHandshake ctx d.pkt = true) (hp : pendingFrom n d.src = none) :
    AnswerAgrees ctx n d ↔
      ∀ ephKey ini, answerTo ctx n d = some (ephKey, ini) → LateChecksPass ctx n d ephKey ini := by
  have hstep := step_inbound hd hp
  unfold inboundHandshake at hstep
  cases hc : inCooldown ctx n.table d.now (findSessionByAddr n.table d.src) with
  | true =>
      rw [if_pos hc] at hstep
      refine iff_of_true (answerAgrees_of_silent (by rw [hstep])) ?_
      intro ephKey ini hans
      rw [answerTo, if_neg (by simp [hc])] at hans
      cases hans
  | false =>
      rw [if_neg (by rw [hc]; exact Bool.false_ne_true)] at hstep
      rcases respond_cases hp hc with ⟨hno, hr⟩ | ⟨ephKey, ini, resp, key, hans, hr⟩
      · -- not answered
        refine iff_of_true (answerAgrees_of_silent (by rw [hstep, hr]; rfl)) ?_
        intro ephKey ini hans
        cases hno.symm.trans hans
      have hlate : (∀ ephKey' ini', answerTo ctx n d = some (ephKey', ini') →
          LateChecksPass ctx n d ephKey' ini') ↔ LateChecksPass ctx n d ephKey ini := by
        simp [hans]
      rw [hlate]
      cases hx : S.x25519 ephKey ini.clientStaticPub with
      | none =>
          -- answered, but the last shared secret failed
          rw [hx] at hr
          have hev : ((node ctx).step n (.udp d)).2 = [.respSent d.src resp] := by
            rw [hstep, hr]; rfl
          refine iff_of_false (not_answerAgrees resp (by simp [hev]) (by simp [hev])) ?_
          rintro ⟨hsecret, -⟩
          rw [hx] at hsecret
          cases hsecret
      | some secret =>
          rw [hx, Option.map_some] at hr
          -- answered: the checks after the answer decide
          have hstep' : (node ctx).step n (.udp d) =
              ((acceptInitiation ctx (refreshPrecompEph n d.fresh) d ini.clientStaticPub
                (key secret)).1,
                .respSent d.src resp :: .hsDone ini.clientStaticPub (key secret) ::
                  (acceptInitiation ctx (refreshPrecompEph n d.fresh) d ini.clientStaticPub
                    (key secret)).2) := by
            rw [hstep, hr]; rfl
          rcases acceptInitiation_outcome ctx (refreshPrecompEph n d.fresh) d ini.clientStaticPub
            (key secret) with ⟨hpass, cfg, i, tb, heq⟩ | ⟨hfail, heq⟩
          · rw [refreshPrecompEph_table, refreshPrecompEph_peerConfigs] at hpass
            rw [heq] at hstep'
            exact iff_of_true (answerAgrees_of_installed hS hr hstep') ⟨by rw [hx]; rfl, hpass⟩
          · rw [refreshPrecompEph_table, refreshPrecompEph_peerConfigs] at hfail
            have hev : ((node ctx).step n (.udp d)).2
                = [.respSent d.src resp, .hsDone ini.clientStaticPub (key secret)] := by
              rw [hstep', heq]
            refine iff_of_false (not_answerAgrees resp (by simp [hev]) (by simp [hev])) ?_
            intro h
            exact hfail h.2

/-- The first initiation of peer `2`. -/
def firstContact : Datagram symbolic :=
  ⟨addrOf 2, initiationOf 2 1 12, 100, 100, some 101, true, none⟩

theorem answer_agrees_firstContact :
    isHandshake (ctxOf 1) firstContact.pkt = true ∧
    pendingFrom twoPeers.1 firstContact.src = none ∧
    AnswerAgrees (ctxOf 1) twoPeers.1 firstContact := by
  have hd : isHandshake (ctxOf 1) firstContact.pkt = true := by decide +kernel
  have hp : pendingFrom twoPeers.1 firstContact.src = none := by decide +kernel
  refine ⟨hd, hp, (answer_agrees_iff symbolic_lawful _ _ _ hd hp).mpr ?_⟩
  have hpass : ∀ a ∈ answerTo (ctxOf 1) twoPeers.1 firstContact,
      LateChecksPass (ctxOf 1) twoPeers.1 firstContact a.1 a.2 := by decide +kernel
  intro ephKey ini hans
  exact hpass (ephKey, ini) hans

/-- Node `1` two seconds after peer `2` connected. -/
def connectedNode : Node symbolic := ((node (ctxOf 1)).step twoPeers.1 (.udp firstContact)).1

/-- Another initiation of peer `2`, from a new address, within the cooldown. -/
def quickRoam : Datagram symbolic :=
  ⟨addrOf 4, initiationOf 2 1 13, 102, 102, some 102, true, none⟩

/-- The answer node `1` gives to `quickRoam`. -/
def quickAnswer : Msg := responsePacket (S := symbolic) none (Msg.pub 1) 101
  (Term.exp 101 (Msg.pub 13))

/-- What peer `2` keeps of its initiation `quickRoam`. -/
def quickState : HsClientState symbolic := ⟨some 13, Msg.pub 13, Term.exp 13 (Msg.pub 1)⟩

/-- The initiation is answered and peer `2` completes the handshake with a key that no
session of node `1` has. -/
theorem quickRoam_not_installed :
    ¬ AnswerAgrees (ctxOf 1) connectedNode quickRoam ∧
    (handshakeClientRecv (S := symbolic) quickAnswer none 2 (Msg.pub 2) (Msg.pub 1) quickState).1
      = some (keyOf 2 1 13 101) ∧
    ∀ i, (((node (ctxOf 1)).step connectedNode (.udp quickRoam)).1.table.sessions i).sessionKey
      ≠ keyOf 2 1 13 101 := by
  refine ⟨?_, by decide +kernel, by decide +kernel⟩
  apply not_answerAgrees quickAnswer
  · rw [← mem_responses]
    decide +kernel
  · intro e
    have hnone : installs ((node (ctxOf 1)).step connectedNode (.udp quickRoam)).2 = [] := by
      decide +kernel
    rw [← mem_installs, hnone]
    exact List.not_mem_nil

/-! ## Simultaneous initiation -/

/-- Two nodes wait for each other: `a` and `b` have a pending handshake to each other, share
the PSK setting, and each is about to receive the other's initiation from the address it
waits for. No cooldown is running, and `a` has the higher public key. -/
structure Crossing (ctxA ctxB : LoopCtx S) (a b : Node S) (j k : Fin MAX_PEERS)
    (dA dB : Datagram S) : Prop where
  psk : ctxA.pskKey = ctxB.pskKey
  pendingA : pendingFrom a dA.src = some j
  pendingB : pendingFrom b dB.src = some k
  peerA : (a.config (a.pendingHs j).cfgIdx).pub = ctxB.staticPub
  peerB : (b.config (b.pendingHs k).cfgIdx).pub = ctxA.staticPub
  sentA : ∃ fresh, handshakeClientSend ctxA.pskKey ctxA.staticPub ctxB.staticPub fresh true
    = some (dB.pkt, (a.pendingHs j).hsState)
  sentB : ∃ fresh, handshakeClientSend ctxB.pskKey ctxB.staticPub ctxA.staticPub fresh true
    = some (dA.pkt, (b.pendingHs k).hsState)
  pastA : ∀ i, (a.table.sessions i).active = true →
    ctxA.handshakeCooldown ≤ dA.now - (a.table.sessions i).lastHandshake
  pastB : ∀ i, (b.table.sessions i).active = true →
    ctxB.handshakeCooldown ≤ dB.now - (b.table.sessions i).lastHandshake
  higher : S.gt ctxA.staticPub ctxB.staticPub = true

/-- The tie-break resolves the crossing: `a` keeps its pending handshake and ignores the
initiation, `b` cancels its own, clears `rekeying` and answers, and once the answer is
delivered to `a` both have a session with the same key. -/
structure TieBreakResolved (ctxA ctxB : LoopCtx S) (a b : Node S) (j k : Fin MAX_PEERS)
    (dA dB : Datagram S) : Prop where
  keeps : ((node ctxA).step a (.udp dA)).1.pendingHs j = a.pendingHs j
  ignores : ((node ctxA).step a (.udp dA)).1.table = a.table
  cancels : (((node ctxB).step b (.udp dB)).1.pendingHs k).active = false
  clears : ∀ i, findSessionByPub ((node ctxB).step b (.udp dB)).1.table ctxA.staticPub = some i →
    (((node ctxB).step b (.udp dB)).1.table.sessions i).rekeying = false
  answers : ∃ resp, .respSent dB.src resp ∈ ((node ctxB).step b (.udp dB)).2 ∧
    ∀ d : Datagram S, d.src = dA.src → d.pkt = resp →
      ∃ i i', (((node ctxA).step ((node ctxA).step a (.udp dA)).1 (.udp d)).1.table.sessions
          i).active = true ∧
        (((node ctxB).step b (.udp dB)).1.table.sessions i').active = true ∧
        (((node ctxA).step ((node ctxA).step a (.udp dA)).1 (.udp d)).1.table.sessions
          i).sessionKey = (((node ctxB).step b (.udp dB)).1.table.sessions i').sessionKey

/-- A datagram from the address of a pending handshake is never answered. -/
theorem no_answer_of_pendingFrom (ctx : LoopCtx S) {n : Node S} {d : Datagram S}
    {j : Fin MAX_PEERS} (hp : pendingFrom n d.src = some j) (resp : S.Wire) :
    .respSent d.src resp ∉ ((node ctx).step n (.udp d)).2 := by
  have hcase := step_cases ctx n (.udp d)
  revert hcase
  generalize ((node ctx).step n (.udp d)).2 = ev
  generalize ((node ctx).step n (.udp d)).1 = n'
  intro hcase hmem
  cases hcase with
  | quiet h => exact h.works.no_response _ _ hmem
  | accept _ _ hr hdl h => exact (works_of_accept hr hdl h).no_response _ _ hmem
  | answer _ hp' => rw [hp] at hp'; cases hp'
  | responder _ hp' => rw [hp] at hp'; cases hp'
  | initiator _ hp' _ =>
      rcases List.mem_cons.mp hmem with hmem | hmem
      · cases hmem
      · -- installing a session sends nothing
        revert hmem
        generalize hn : n.setPending _ _ = m
        cases hal : allocSession m.table _ d.src with
        | none => rw [installSession_of_none hal]; simp
        | some r => rw [installSession_of_some hal]; simp

/-- **The tie-break never resolves a crossing.** The lower node does not answer: it takes the
initiation as the response to its own handshake. -/
theorem tie_break_never_resolves {ctxA ctxB : LoopCtx S} {a b : Node S} {j k : Fin MAX_PEERS}
    {dA dB : Datagram S} (h : Crossing ctxA ctxB a b j k dA dB) :
    ¬ TieBreakResolved ctxA ctxB a b j k dA dB := by
  intro hres
  obtain ⟨resp, hresp, -⟩ := hres.answers
  exact no_answer_of_pendingFrom ctxB h.pendingB resp hresp

/-! Nodes `1` and `2` are configured with each other's endpoint and start at the same time. -/

def crossA : Node symbolic :=
  ((node (ctxOf 2)).step (Node.init [endpointOf 1] (some 200)) (passAt 1000 21)).1

def crossB : Node symbolic :=
  ((node (ctxOf 1)).step (Node.init [endpointOf 2] (some 100)) (passAt 1000 11)).1

/-- The initiation of node `1` arrives at node `2`. -/
def toA : Datagram symbolic := ⟨addrOf 1, initiationOf 1 2 11, 1001, 1001, some 201, true, none⟩

/-- The initiation of node `2` arrives at node `1`. -/
def toB : Datagram symbolic := ⟨addrOf 2, initiationOf 2 1 21, 1001, 1001, some 101, true, none⟩

instance : DecidableEq (HsClientState symbolic) := fun s t =>
  decidable_of_iff (s.ephKey = t.ephKey ∧ s.ephPub = t.ephPub ∧ s.ecdhEcSs = t.ecdhEcSs)
    (by cases s; cases t; simp)

theorem crossing_of_passes :
    Crossing (ctxOf 2) (ctxOf 1) crossA crossB ⟨0, by decide⟩ ⟨0, by decide⟩ toA toB where
  psk := rfl
  pendingA := by decide +kernel
  pendingB := by decide +kernel
  peerA := by decide +kernel
  peerB := by decide +kernel
  sentA := ⟨some 21, by decide +kernel⟩
  sentB := ⟨some 11, by decide +kernel⟩
  pastA := by decide +kernel
  pastB := by decide +kernel
  higher := by decide

theorem tie_break_never_resolves_passes :
    Crossing (ctxOf 2) (ctxOf 1) crossA crossB ⟨0, by decide⟩ ⟨0, by decide⟩ toA toB ∧
    ¬ TieBreakResolved (ctxOf 2) (ctxOf 1) crossA crossB ⟨0, by decide⟩ ⟨0, by decide⟩ toA toB :=
  ⟨crossing_of_passes, tie_break_never_resolves crossing_of_passes⟩

/-- Both nodes lose their pending handshake, neither answers, and neither has a session. -/
theorem crossing_loses_both :
    ¬ TieBreakResolved (ctxOf 2) (ctxOf 1) crossA crossB ⟨0, by decide⟩ ⟨0, by decide⟩ toA toB ∧
    (∀ i, (((node (ctxOf 2)).step crossA (.udp toA)).1.pendingHs i).active = false ∧
      (((node (ctxOf 2)).step crossA (.udp toA)).1.table.sessions i).active = false) ∧
    (∀ i, (((node (ctxOf 1)).step crossB (.udp toB)).1.pendingHs i).active = false ∧
      (((node (ctxOf 1)).step crossB (.udp toB)).1.table.sessions i).active = false) ∧
    responses ((node (ctxOf 2)).step crossA (.udp toA)).2 = [] ∧
    responses ((node (ctxOf 1)).step crossB (.udp toB)).2 = [] := by
  have hA : ∀ i, (((node (ctxOf 2)).step crossA (.udp toA)).1.pendingHs i).active = false ∧
      (((node (ctxOf 2)).step crossA (.udp toA)).1.table.sessions i).active = false := by
    decide +kernel
  refine ⟨?_, hA, by decide +kernel, by decide +kernel, by decide +kernel⟩
  intro hres
  have hkept : (crossA.pendingHs ⟨0, by decide⟩).active = true :=
    (pendingFrom_eq_some crossing_of_passes.pendingA).1
  rw [← hres.keeps, (hA _).1] at hkept
  cases hkept

end Lanecove
