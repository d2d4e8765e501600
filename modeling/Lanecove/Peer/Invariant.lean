import Lanecove.Peer.Steps

set_option autoImplicit false

/-! # Invariants of a node

`Preserves` lists what has to be shown for a property of the state and the trace to survive
every step: one case for quiet steps, one for accepted packets, three for handshakes, and one
for installing the session a completed handshake leads to. `Preserves.step` and
`Preserves.run` do the rest.

`A` is what the step may assume of its input alone, `G` what it may assume of a datagram in
the state and trace it meets.
-/

namespace Lanecove

variable {S : Suite}

/-- The peer a handshake datagram is for: the peer of the pending handshake that takes it,
or else the identity an initiation carries. -/
def remotePeer (ctx : LoopCtx S) (n : Node S) (d : Datagram S) : Option S.Block :=
  if isHandshake ctx d.pkt then
    match pendingFrom n d.src with
    | some j => some (n.config (n.pendingHs j).cfgIdx).pub
    | none => (openInitiation d.pkt ctx.pskKey ctx.staticKey).map Initiation.clientStaticPub
  else none

/-- A pending handshake after its response was accepted. -/
def PendingHs.used (p : PendingHs S) : PendingHs S :=
  { p with active := false, hsState := { p.hsState with ephKey := none } }

/-- What keeps a property of state and trace along all runs. -/
structure Preserves (ctx : LoopCtx S) (A : Input S → Prop)
    (G : Node S → List (Event S) → Datagram S → Prop)
    (I : Node S → List (Event S) → Prop) : Prop where
  quiet : ∀ {inp n tr ev n'}, A inp → I n tr → Quiet ctx inp 1 n ev n' → I n' (tr ++ ev)
  accept : ∀ {d n tr r s dl}, A (.udp d) → G n tr d → I n tr →
    findSessionByAddr n.table d.src = some r.slot →
    receive (n.table.sessions r.slot) r.slot d.pkt d.now = (s, some r) →
    (dl = [] ∨ ∃ f, dl = [.delivered r f]) →
    I (n.setSession r.slot s) (tr ++ .accepted r :: dl)
  answer : ∀ {d n tr resp}, A (.udp d) → G n tr d → I n tr → pendingFrom n d.src = none →
    (handshakeServerRespond d.pkt ctx.pskKey ctx.staticKey ctx.staticPub n.precompEphKey
      d.sendOk).sent = some resp →
    I n (tr ++ [.respSent d.src resp])
  initiator : ∀ {d n tr j input}, A (.udp d) → G n tr d → I n tr →
    pendingFrom n d.src = some j →
    clientKeyInput d.pkt ctx.pskKey ctx.staticKey ctx.staticPub
      (n.config (n.pendingHs j).cfgIdx).pub (n.pendingHs j).hsState = some input →
    I (n.setPending j (n.pendingHs j).used)
      (tr ++ [.hsDone (n.config (n.pendingHs j).cfgIdx).pub (deriveSessionKey input)])
  responder : ∀ {d n tr₀ tr pub key}, A (.udp d) → G n tr₀ d → tr₀ ⊆ tr → I n tr →
    pendingFrom n d.src = none →
    (handshakeServerRespond d.pkt ctx.pskKey ctx.staticKey ctx.staticPub n.precompEphKey
      d.sendOk).done = some (pub, key) →
    I (refreshPrecompEph n d.fresh) (tr ++ [.hsDone pub key])
  install : ∀ {d n₀ tr₀ n tr pub key i tb cfg out}, A (.udp d) → G n₀ tr₀ d →
    remotePeer ctx n₀ d = some pub → n.table = n₀.table → tr₀ ⊆ tr → I n tr →
    (out = false → pendingFrom n₀ d.src = none ∧ findPeerConfig n.peerConfigs pub = some cfg) →
    .hsDone pub key ∈ tr → allocSession n.table pub d.src = some (i, tb) →
    I (installAt ctx n d i tb pub key cfg out)
      (tr ++ [.installed ⟨i, pub, key, d.src, d.pkt, out, d.clock⟩])

/-- What a completed responder derived came from the identity in the initiation. -/
theorem openInitiation_of_done {pkt : S.Wire} {pskKey : Option S.Block} {staticKey : S.Priv}
    {staticPub pub key : S.Block} {pre : Option S.Priv} {ok : Bool}
    (h : (handshakeServerRespond pkt pskKey staticKey staticPub pre ok).done
      = some (pub, key)) :
    (openInitiation pkt pskKey staticKey).map Initiation.clientStaticPub = some pub := by
  obtain ⟨resp, hresp⟩ := handshakeServerRespond_done h
  obtain ⟨ini, e, y, hini, -, -, -, -, hdone⟩ := handshakeServerRespond_sent hresp
  rw [h] at hdone
  obtain ⟨input, -, hpair⟩ := Option.map_eq_some_iff.mp hdone.symm
  rw [hini, Option.map_some, (Prod.mk.inj hpair).1]

namespace Preserves

variable {ctx : LoopCtx S} {A : Input S → Prop} {G : Node S → List (Event S) → Datagram S → Prop}
  {I : Node S → List (Event S) → Prop}

/-- A completed handshake, followed by the attempt to install its session. -/
theorem installSession (P : Preserves ctx A G I) {d : Datagram S} {n₀ n : Node S}
    {tr₀ tr : List (Event S)} {pub key : S.Block} (cfg : PeerConfig S) (out : Bool)
    (hA : A (.udp d)) (hG : G n₀ tr₀ d) (hpeer : remotePeer ctx n₀ d = some pub)
    (htb : n.table = n₀.table) (htr : tr₀ ⊆ tr) (hI : I n tr)
    (hin : out = false → pendingFrom n₀ d.src = none ∧ findPeerConfig n.peerConfigs pub = some cfg)
    (hdone : .hsDone pub key ∈ tr) :
    I (installSession ctx n d pub key cfg out).1
      (tr ++ (installSession ctx n d pub key cfg out).2) := by
  cases hal : allocSession n.table pub d.src with
  | none =>
      rw [installSession_of_none hal]
      simpa using hI
  | some r =>
      rw [installSession_of_some hal]
      exact P.install hA hG hpeer htb htr hI hin hdone hal

theorem of_case (P : Preserves ctx A G I) {n n' : Node S} {tr ev : List (Event S)}
    {inp : Input S} (hA : A inp) (hG : ∀ d, inp = .udp d → G n tr d) (hI : I n tr)
    (hcase : StepCase ctx n inp ev n') : I n' (tr ++ ev) := by
  cases hcase with
  | quiet h => exact P.quiet hA hI h
  | @accept d r s dl ev n' hd hf hr hdl h =>
      have hacc := P.accept hA (hG d rfl) hI hf hr hdl
      simpa using P.quiet hA hacc h
  | @answer d resp hd hp hc hr => exact P.answer hA (hG d rfl) hI hp (by rw [hr])
  | @initiator d j input hd hp hi =>
      have hdone := P.initiator hA (hG d rfl) hI hp hi
      have hpeer : remotePeer ctx n d = some (n.config (n.pendingHs j).cfgIdx).pub := by
        unfold remotePeer
        rw [if_pos hd, hp]
      have hall := P.installSession (n := n.setPending j (n.pendingHs j).used)
        (n.config (n.pendingHs j).cfgIdx) true hA (hG d rfl) hpeer rfl
        (List.subset_append_left _ _) hdone (by rintro ⟨⟩)
        (List.mem_append_right _ (List.mem_singleton_self _))
      simpa [PendingHs.used] using hall
  | @responder d resp pub key hd hp hc hr =>
      -- the response, the completed handshake, and what the checks after it decide
      have hdone : (handshakeServerRespond d.pkt ctx.pskKey ctx.staticKey ctx.staticPub
          n.precompEphKey d.sendOk).done = some (pub, key) := by rw [hr]
      have hpeer : remotePeer ctx n d = some pub := by
        unfold remotePeer
        rw [if_pos hd, hp]
        exact openInitiation_of_done hdone
      have hI₁ := P.answer hA (hG d rfl) hI hp (by rw [hr])
      have hI₂ := P.responder hA (hG d rfl) (List.subset_append_left _ _) hI₁ hp hdone
      have hall : I (acceptInitiation ctx (refreshPrecompEph n d.fresh) d pub key).1
          (((tr ++ [.respSent d.src resp]) ++ [.hsDone pub key]) ++
            (acceptInitiation ctx (refreshPrecompEph n d.fresh) d pub key).2) := by
        rcases acceptInitiation_cases ctx (refreshPrecompEph n d.fresh) d pub key with
          ⟨-, hnone⟩ | ⟨cfg, hcfg, -, heq⟩
        · rw [hnone]
          simpa using hI₂
        · rw [heq]
          exact P.installSession cfg false hA (hG d rfl) hpeer (refreshPrecompEph_table _ _)
            (fun e he => List.mem_append_left _ (List.mem_append_left _ he)) hI₂
            (fun _ => ⟨hp, hcfg⟩) (List.mem_append_right _ (List.mem_singleton_self _))
      simpa using hall

/-- **The step rule.** -/
theorem step (P : Preserves ctx A G I) {n : Node S} {tr : List (Event S)} {inp : Input S}
    (hA : A inp) (hG : ∀ d, inp = .udp d → G n tr d) (hI : I n tr) :
    I ((node ctx).step n inp).1 (tr ++ ((node ctx).step n inp).2) :=
  P.of_case hA hG hI (step_cases ctx n inp)

/-- **The run rule**, for runs under a guard `H` that grants what the steps assume. -/
theorem run (P : Preserves ctx A G I) {H : (node ctx).Config → Input S → Prop}
    (hH : ∀ c inp, H c inp → A inp ∧ ∀ d, inp = .udp d → G c.1 c.2 d)
    {c : (node ctx).Config} {is : List (Input S)} (hI : I c.1 c.2)
    (h : (node ctx).Along H c is) :
    I ((node ctx).run c is).1 ((node ctx).run c is).2 := by
  refine (node ctx).invariant (I := fun c => I c.1 c.2) ?_ is c hI h
  intro c inp hc hg
  obtain ⟨hA, hG⟩ := hH c inp hg
  exact P.step hA hG hc

end Preserves

end Lanecove
