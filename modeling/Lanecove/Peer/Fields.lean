import Lanecove.Peer.Marks

set_option autoImplicit false

/-! # What sending, receiving and marking leave alone

`Quiet` and `Keeps` follow the keys. For the other fields of a session it is enough to say
which of the four elementary changes a field does not see: a packet sent, the rekeying mark,
expiry, a packet received. Whatever sees none of them changes in a step only where a session
is installed (`step_table`; for a single slot, `step_slot`).
-/

namespace Lanecove

variable {S : Suite}

/-- A reading of a session that sending and marking leave alone. -/
structure Unmoved {α : Type} (f : Session S → α) : Prop where
  sent : ∀ s seq t, f { s with sendSeq := seq, lastSent := t } = f s
  marked : ∀ s b, f { s with rekeying := b } = f s

/-- A reading that expiring leaves alone as well. -/
structure Untouched {α : Type} (f : Session S → α) : Prop extends Unmoved f where
  expired : ∀ s, f { s with active := false } = f s

/-- A reading that none of the four changes. -/
structure Constant {α : Type} (f : Session S → α) : Prop extends Untouched f where
  received : ∀ s t b w, f { s with lastSeen := t, prevKeyActive := b, recvSeq := w } = f s

theorem constant_routes : Constant (Session.routes (S := S)) :=
  ⟨⟨⟨fun _ _ _ => rfl, fun _ _ => rfl⟩, fun _ => rfl⟩, fun _ _ _ _ => rfl⟩

theorem untouched_lastSeen : Untouched (Session.lastSeen (S := S)) :=
  ⟨⟨fun _ _ _ => rfl, fun _ _ => rfl⟩, fun _ => rfl⟩

/-- All sessions of the two nodes read the same. -/
def SameReading {α : Type} (f : Session S → α) (n n' : Node S) : Prop :=
  ∀ i, f (n'.table.sessions i) = f (n.table.sessions i)

namespace SameReading

variable {α : Type} {f : Session S → α} {n n' n'' : Node S}

theorem refl (f : Session S → α) (n : Node S) : SameReading f n n := fun _ => rfl

theorem of_table (htable : n'.table = n.table) : SameReading f n n' := by
  intro i
  rw [htable]

theorem trans (h : SameReading f n n') (h' : SameReading f n' n'') : SameReading f n n'' :=
  fun i => (h' i).trans (h i)

theorem setSession {i : Fin MAX_PEERS} {s : Session S} (h : f s = f (n.table.sessions i)) :
    SameReading f n (n.setSession i s) :=
  SessionTable.set_rel (R := fun x y => f y = f x) h fun _ => rfl

/-- The loops: if every body leaves the reading alone, so does the loop. -/
theorem run {β : Type} {body : Node S → β → Node S × List (Event S)}
    (hbody : ∀ m a, SameReading f m (body m a).1) (l : List β) (c : Node S × List (Event S)) :
    SameReading f c.1 ((Machine.mk body).run c l).1 := by
  induction l generalizing c with
  | nil => exact refl f c.1
  | cons a l ih => exact (hbody c.1 a).trans (ih ((Machine.mk body).next c a))

end SameReading

section Unmoved

variable {α : Type} {f : Session S → α} (hf : Unmoved f)

include hf

theorem Unmoved.forwardToPeer (s : Session S) (i : Fin MAX_PEERS) (payload : List UInt8)
    (iv : Option S.Iv) (ok : Bool) (now : Int) :
    f (forwardToPeer s i payload iv ok now).1 = f s := by
  unfold Lanecove.forwardToPeer
  split
  · exact hf.sent s (s.sendSeq + 1) s.lastSent
  · split
    · exact hf.sent s (s.sendSeq + 1) now
    · exact hf.sent s (s.sendSeq + 1) s.lastSent

theorem Unmoved.tunPacket (n : Node S) (packet : List UInt8) (iv : Option S.Iv) (ok : Bool)
    (now : Int) : SameReading f n (tunPacket n packet iv ok now).1 := by
  unfold Lanecove.tunPacket
  split
  · split
    · exact .refl f n
    · exact .setSession (hf.forwardToPeer ..)
  · exact .refl f n

theorem Unmoved.deliver (n : Node S) (r : Receipt S) (iv : Option S.Iv) (ok : Bool)
    (now : Int) : SameReading f n (deliver n r iv ok now).1 := by
  unfold Lanecove.deliver
  split
  · exact .refl f n
  · split
    · split
      · exact .refl f n
      · exact .setSession (hf.forwardToPeer ..)
    · exact .refl f n

theorem Unmoved.setRekeying (n : Node S) (b : Bool) (s : Option (Fin MAX_PEERS)) :
    SameReading f n (setRekeying n b s) := by
  cases s with
  | none => exact .refl f n
  | some i => exact .setSession (hf.marked _ b)

/-- A pending handshake ends without a session. -/
theorem Unmoved.drop (n : Node S) (j : Fin MAX_PEERS) (p : PendingHs S) (pub : S.Block) :
    SameReading f n { n.setPending j p with table := clearRekeying n.table pub } := by
  intro i
  show f ((clearRekeying n.table pub).sessions i) = f (n.table.sessions i)
  unfold clearRekeying
  split
  · rfl
  · exact SessionTable.set_rel (R := fun x y => f y = f x) (hf.marked _ false) (fun _ => rfl) i

theorem Unmoved.connectPeer (ctx : LoopCtx S) (pass : PassInput S) (n : Node S) (idx : Nat) :
    SameReading f n (connectPeer ctx pass n idx).1 := by
  unfold SameReading
  cases connectPeer_outcome ctx pass n idx with
  | skip h =>
      rw [h]
      exact SameReading.refl f n
  | fail _ _ table _ =>
      rw [table]
      exact hf.setRekeying n false _
  | start _ _ table _ _ _ _ _ =>
      rw [table]
      exact hf.setRekeying n true _

theorem Unmoved.expirePending (ctx : LoopCtx S) (now : Int) (n : Node S) (j : Fin MAX_PEERS) :
    SameReading f n (expirePending ctx now n j).1 := by
  simp only [Lanecove.expirePending]
  split
  · exact hf.drop n j _ _
  · exact .refl f n

theorem Unmoved.keepalive (ctx : LoopCtx S) (pass : PassInput S) (n : Node S)
    (i : Fin MAX_PEERS) : SameReading f n (keepalive ctx pass n i).1 := by
  simp only [Lanecove.keepalive]
  split
  · exact .setSession (hf.forwardToPeer ..)
  · exact .refl f n

end Unmoved

section Untouched

variable {α : Type} {f : Session S → α} (hf : Untouched f)

include hf

theorem Untouched.expireSession (ctx : LoopCtx S) (now : Int) (n : Node S) (i : Fin MAX_PEERS) :
    SameReading f n (expireSession ctx now n i).1 := by
  simp only [Lanecove.expireSession]
  split
  · exact .setSession (hf.expired _)
  · exact .refl f n

theorem Untouched.housekeeping (ctx : LoopCtx S) (n : Node S) (pass : PassInput S) :
    SameReading f n (housekeeping ctx n pass).1 :=
  housekeeping_invariant (I := SameReading f n) (fun _ h => h)
    (fun m idx h => h.trans (hf.connectPeer ctx pass m idx))
    (fun m j h => h.trans (hf.expirePending ctx pass.now m j))
    (fun m i h => h.trans (hf.expireSession ctx pass.now m i))
    (fun m i h => h.trans (hf.keepalive ctx pass m i)) (.refl f n)

end Untouched

/-- What receiving does to a session: the time of the packet is noted, the previous key may be
retired and the replay window may move. -/
theorem receive_session (s : Session S) (i : Fin MAX_PEERS) (pkt : S.Wire) (now : Int) :
    ∃ b w, (receive s i pkt now).1
      = { s with lastSeen := now, prevKeyActive := b, recvSeq := w } := by
  have hdec : ∃ b, (decryptSession s pkt now).1
      = { s with lastSeen := now, prevKeyActive := b } := by
    unfold decryptSession
    split
    · exact ⟨_, rfl⟩
    · split <;> exact ⟨_, rfl⟩
  have hacc : ∀ (t : Session S) (p : Bool) (plain : List UInt8),
      ∃ w, (acceptFrame t p plain).1 = { t with recvSeq := w } := by
    intro t p plain
    unfold acceptFrame
    split
    · exact ⟨_, rfl⟩
    · split
      · exact ⟨_, rfl⟩
      · split <;> exact ⟨_, rfl⟩
  obtain ⟨b, hb⟩ := hdec
  unfold receive
  split
  · rename_i s' heq
    rw [heq] at hb
    exact ⟨b, s.recvSeq, hb⟩
  · rename_i s' usedPrev plain heq
    rw [heq] at hb
    change s' = _ at hb
    subst hb
    obtain ⟨w, hw⟩ := hacc _ usedPrev plain
    exact ⟨b, w, hw⟩

/-- Data, for a reading that receiving leaves alone as well. -/
theorem Unmoved.dataPacket {α : Type} {f : Session S → α} (hf : Unmoved f)
    (hreceived : ∀ s t b w, f { s with lastSeen := t, prevKeyActive := b, recvSeq := w } = f s)
    (n : Node S) (src : SockAddr) (pkt : S.Wire) (now clock : Int) (iv : Option S.Iv) (ok : Bool) :
    SameReading f n (dataPacket n src pkt now clock iv ok).1 := by
  unfold Lanecove.dataPacket
  split
  · exact .refl f n
  · rename_i i _
    obtain ⟨b, w, hrec⟩ := receive_session (n.table.sessions i) i pkt now
    have hs : f (receive (n.table.sessions i) i pkt now).1 = f (n.table.sessions i) := by
      rw [hrec]
      exact hreceived ..
    split
    · rename_i s heq
      rw [heq] at hs
      exact .setSession hs
    · rename_i s r heq
      rw [heq] at hs
      exact (SameReading.setSession hs).trans (hf.deliver _ r iv ok clock)

/-! ## Steps that install, and steps that do not -/

/-- From `n` to `n'` no session was installed. -/
structure TableKept (inp : Input S) (n n' : Node S) : Prop where
  slots : n'.table.slots = n.table.slots
  keeps : ∀ i, Keeps (n.table.sessions i) (n'.table.sessions i)
  constant : ∀ {α : Type} {f : Session S → α}, Constant f → SameReading f n n'
  configs : n'.peerConfigs.map PeerConfig.fixed = n.peerConfigs.map PeerConfig.fixed
  pending : ∀ j, (n'.pendingHs j).active = true →
    n'.pendingHs j = n.pendingHs j ∨ NewPending inp n (n'.pendingHs j)

/-- The datagrams that are taken as data. -/
def Input.IsData (ctx : LoopCtx S) : Input S → Prop
  | .udp d => isHandshake ctx d.pkt = false
  | _ => False

/-- The session table in one step: no session is installed, or one is, for the peer of a
pending handshake or for a configured peer that initiated. Only data is received. -/
inductive TableStep (ctx : LoopCtx S) (inp : Input S) (n : Node S) :
    List (Event S) → Node S → Prop
  | kept {ev : List (Event S)} {n' : Node S} (hev : installs ev = []) (h : TableKept inp n n')
      (hsame : ¬ inp.IsData ctx →
        ∀ {α : Type} {f : Session S → α}, Untouched f → SameReading f n n') :
      TableStep ctx inp n ev n'
  | install {d : Datagram S} {ev : List (Event S)} {m : Node S} {i : Fin MAX_PEERS}
      {tb : SessionTable S} {pub key : S.Block} {cfg : PeerConfig S} {out : Bool}
      (hinp : inp = .udp d)
      (hev : installs ev = [⟨i, pub, key, d.src, d.pkt, out, d.clock⟩])
      (hm : TableKept inp n m) (htable : m.table = n.table)
      (hcfg : cfg.pub = pub ∧ (findPeerConfig n.peerConfigs pub = some cfg ∨
        ∃ j, (n.pendingHs j).active = true ∧ cfg = n.config (n.pendingHs j).cfgIdx))
      (hal : allocSession n.table pub d.src = some (i, tb)) :
      TableStep ctx inp n ev (installAt ctx m d i tb pub key cfg out)

/-- The table is as it was, and no handshake was started. -/
theorem tableKept_of_table {inp : Input S} {n n' : Node S} (htable : n'.table = n.table)
    (hconfigs : n'.peerConfigs = n.peerConfigs)
    (hpending : ∀ j, (n'.pendingHs j).active = true → n'.pendingHs j = n.pendingHs j) :
    TableKept inp n n' where
  slots := by rw [htable]
  keeps i := by rw [htable]; exact Keeps.refl _
  constant _ := .of_table htable
  configs := by rw [hconfigs]
  pending j hj := .inl (hpending j hj)

theorem Works.tableKept {ctx : LoopCtx S} {inp : Input S} {n n' : Node S} {ev : List (Event S)}
    (hw : Works ctx inp n ev n')
    (hconst : ∀ {α : Type} {f : Session S → α}, Constant f → SameReading f n n') :
    TableKept inp n n' :=
  ⟨hw.slots, hw.keeps, hconst, hw.configs, hw.pending⟩

/-- A data packet is no handshake. -/
theorem StepCase.works {ctx : LoopCtx S} {n n' : Node S} {d : Datagram S} {ev : List (Event S)}
    (h : StepCase ctx n (.udp d) ev n') (hd : isHandshake ctx d.pkt = false) :
    Works ctx (.udp d) n ev n' := by
  cases h with
  | quiet h => exact h.works
  | accept _ _ hr hdl h => exact works_of_accept hr hdl h
  | answer hd' => exact nomatch hd.symm.trans hd'
  | initiator hd' => exact nomatch hd.symm.trans hd'
  | responder hd' => exact nomatch hd.symm.trans hd'

theorem Works.installs_nil {ctx : LoopCtx S} {inp : Input S} {n n' : Node S}
    {ev : List (Event S)} (hw : Works ctx inp n ev n') : installs ev = [] := by
  refine List.eq_nil_iff_forall_not_mem.mpr fun i hi => ?_
  exact hw.no_install i (mem_installs.mp hi)

theorem connectPeer_tableKept (ctx : LoopCtx S) (pass : PassInput S) (n : Node S) (idx : Nat) :
    TableKept (.housekeeping pass) n (connectPeer ctx pass n idx).1 :=
  ((connectPeer_quiet ctx pass idx).of_zero (K := 1)).works.tableKept fun hf =>
    hf.connectPeer ctx pass n idx

theorem expirePending_tableKept (ctx : LoopCtx S) (inp : Input S) (now : Int) (n : Node S)
    (j : Fin MAX_PEERS) : TableKept inp n (expirePending ctx now n j).1 := by
  have hq : Quiet ctx inp 1 n (expirePending ctx now n j).2 (expirePending ctx now n j).1 :=
    (expirePending_quiet ctx now j).of_zero
  exact hq.works.tableKept fun hf => hf.expirePending ctx now n j

theorem expireSession_tableKept (ctx : LoopCtx S) (inp : Input S) (now : Int) (n : Node S)
    (i : Fin MAX_PEERS) : TableKept inp n (expireSession ctx now n i).1 := by
  have hq : Quiet ctx inp 1 n (expireSession ctx now n i).2 (expireSession ctx now n i).1 :=
    (expireSession_quiet ctx now i).of_zero
  exact hq.works.tableKept fun hf => hf.expireSession ctx now n i

theorem keepalive_tableKept (ctx : LoopCtx S) (pass : PassInput S) (n : Node S)
    (i : Fin MAX_PEERS) : TableKept (.housekeeping pass) n (keepalive ctx pass n i).1 :=
  (keepalive_quiet ctx pass i).of_single.works.tableKept fun hf => hf.keepalive ctx pass n i

theorem refreshPrecompEph_tableKept (inp : Input S) (n : Node S) (fresh : Option S.Priv) :
    TableKept inp n (refreshPrecompEph n fresh) := by
  refine tableKept_of_table (refreshPrecompEph_table ..) (refreshPrecompEph_peerConfigs ..) ?_
  intro j _
  rw [refreshPrecompEph_pendingHs]

/-- The session of a completed handshake, if there is room for it. -/
theorem installSession_table {ctx : LoopCtx S} {n m : Node S} {d : Datagram S}
    {pub key : S.Block} {cfg : PeerConfig S} {out : Bool} {b : List (Event S)}
    (hb : installs b = []) (hm : TableKept (.udp d) n m) (htable : m.table = n.table)
    (hcfg : cfg.pub = pub ∧ (findPeerConfig n.peerConfigs pub = some cfg ∨
      ∃ j, (n.pendingHs j).active = true ∧ cfg = n.config (n.pendingHs j).cfgIdx)) :
    TableStep ctx (.udp d) n (b ++ (installSession ctx m d pub key cfg out).2)
      (installSession ctx m d pub key cfg out).1 := by
  rcases hal : allocSession m.table pub d.src with _ | ⟨i, tb⟩
  · rw [installSession_of_none hal, List.append_nil]
    exact .kept hb hm fun _ _ _ _ => .of_table htable
  · rw [installSession_of_some hal]
    rw [htable] at hal
    refine .install rfl ?_ hm htable hcfg hal
    rw [installs_append, hb, List.nil_append]
    rfl

/-- Handshake datagrams. -/
theorem handshakePkt_table (ctx : LoopCtx S) (n : Node S) (d : Datagram S) :
    TableStep ctx (.udp d) n (handshakePkt ctx n d).2 (handshakePkt ctx n d).1 := by
  have hsame : TableKept (.udp d) n n := tableKept_of_table rfl rfl fun _ _ => rfl
  cases hp : pendingFrom n d.src with
  | some j =>
      rw [handshakePkt_of_pendingFrom_some ctx n hp]
      simp only [outboundResponse, handshakeClientRecv]
      cases hi : clientKeyInput d.pkt ctx.pskKey ctx.staticKey ctx.staticPub
          (n.config (n.pendingHs j).cfgIdx).pub (n.pendingHs j).hsState with
      | none =>
          have hq : Quiet ctx (.udp d) 1 n []
              { n.setPending j { n.pendingHs j with active := false } with
                table := clearRekeying n.table (n.config (n.pendingHs j).cfgIdx).pub } :=
            (dropPending_quiet ctx rfl _).of_zero
          exact .kept rfl (hq.works.tableKept fun hf => hf.drop n j _ _)
            fun _ _ _ hf => hf.drop n j _ _
      | some input =>
          exact installSession_table (b := [.hsDone _ _]) rfl
            (tableKept_of_table rfl rfl (Node.setPending_active rfl)) rfl
            ⟨rfl, .inr ⟨j, (pendingFrom_eq_some hp).1, rfl⟩⟩
  | none =>
      rw [handshakePkt_of_pendingFrom_none ctx n hp]
      unfold inboundHandshake
      split
      · exact .kept rfl hsame fun _ _ f _ => .refl f n
      · dsimp only
        have hsent : ∀ resp : Option S.Wire,
            installs (resp.map (Event.respSent d.src)).toList = [] := by
          intro resp
          cases resp <;> rfl
        split
        · exact .kept (hsent _) hsame fun _ _ f _ => .refl f n
        · rename_i pub key _
          have href := refreshPrecompEph_tableKept (.udp d) n d.fresh
          have hpre : installs ((handshakeServerRespond d.pkt ctx.pskKey ctx.staticKey
              ctx.staticPub n.precompEphKey d.sendOk).sent.map (Event.respSent d.src)).toList
              = [] := hsent _
          rcases acceptInitiation_cases ctx (refreshPrecompEph n d.fresh) d pub key with
            ⟨-, hnone⟩ | ⟨cfg, hcfg, -, heq⟩
          · rw [hnone]
            exact .kept (by rw [installs_append, hpre]; rfl) href
              fun _ _ _ _ => .of_table (refreshPrecompEph_table ..)
          · rw [heq, ← List.singleton_append, ← List.append_assoc]
            rw [refreshPrecompEph_peerConfigs] at hcfg
            refine installSession_table (by rw [installs_append, hpre]; rfl) href
              (refreshPrecompEph_table ..) ⟨?_, .inl hcfg⟩
            simpa using List.find?_some hcfg

/-- **The session table in one step.** -/
theorem step_table (ctx : LoopCtx S) (n : Node S) (inp : Input S) :
    TableStep ctx inp n ((node ctx).step n inp).2 ((node ctx).step n inp).1 := by
  cases inp with
  | tun packet iv ok now =>
      have hw := (tunPacket_quiet ctx n packet iv ok now).works
      exact .kept hw.installs_nil (hw.tableKept fun hf => hf.tunPacket n packet iv ok now)
        fun _ _ _ hf => hf.tunPacket n packet iv ok now
  | housekeeping pass =>
      have hw := (housekeeping_quiet ctx n pass).works
      exact .kept hw.installs_nil (hw.tableKept fun hf => hf.housekeeping ctx n pass)
        fun _ _ _ hf => hf.housekeeping ctx n pass
  | udp d =>
      show TableStep ctx (.udp d) n (udpPacket ctx n d).2 (udpPacket ctx n d).1
      unfold udpPacket
      split
      · exact handshakePkt_table ctx n d
      · rename_i hd
        have hdata := Bool.eq_false_iff.mpr hd
        have hw := (dataPacket_cases ctx n hdata).works hdata
        exact .kept hw.installs_nil
          (hw.tableKept fun hf =>
            hf.dataPacket hf.received n d.src d.pkt d.now d.clock d.iv d.sendOk)
          fun hno => absurd hdata hno

/-! ## One slot -/

/-- The sessions installed in a slot, oldest first. -/
def installsAt (slot : Fin MAX_PEERS) (tr : List (Event S)) : List (Install S) :=
  (installs tr).filter fun e => decide (e.slot = slot)

@[simp] theorem installsAt_append (slot : Fin MAX_PEERS) (tr ev : List (Event S)) :
    installsAt slot (tr ++ ev) = installsAt slot tr ++ installsAt slot ev := by
  rw [installsAt, installs_append, List.filter_append]
  rfl

/-- One slot in one step: no session is installed in it, or one is. -/
inductive SlotStep (ctx : LoopCtx S) (inp : Input S) (slot : Fin MAX_PEERS) (n : Node S) :
    List (Event S) → Node S → Prop
  | kept {ev : List (Event S)} {n' : Node S} (hev : installsAt slot ev = [])
      (hkeeps : Keeps (n.table.sessions slot) (n'.table.sessions slot))
      (hsame : ¬ inp.IsData ctx → ∀ {α : Type} {f : Session S → α}, Untouched f →
        f (n'.table.sessions slot) = f (n.table.sessions slot)) :
      SlotStep ctx inp slot n ev n'
  | install {d : Datagram S} {ev : List (Event S)} {m : Node S} {tb : SessionTable S}
      {pub key : S.Block} {cfg : PeerConfig S} {out : Bool} (hinp : inp = .udp d)
      (hev : installs ev = [⟨slot, pub, key, d.src, d.pkt, out, d.clock⟩])
      (hhere : installsAt slot ev = [⟨slot, pub, key, d.src, d.pkt, out, d.clock⟩])
      (htable : m.table = n.table) :
      SlotStep ctx inp slot n ev (installAt ctx m d slot tb pub key cfg out)

theorem step_slot (ctx : LoopCtx S) (n : Node S) (inp : Input S) (slot : Fin MAX_PEERS) :
    SlotStep ctx inp slot n ((node ctx).step n inp).2 ((node ctx).step n inp).1 := by
  have htable := step_table ctx n inp
  revert htable
  generalize ((node ctx).step n inp).2 = ev
  generalize ((node ctx).step n inp).1 = n'
  intro htable
  cases htable with
  | kept hev hk hsame =>
      refine .kept ?_ (hk.keeps slot) fun hno _ _ hf => hsame hno hf slot
      rw [installsAt, hev]
      rfl
  | @install d ev m i tb pub key cfg out hinp hev hm htable hcfg hal =>
      by_cases hi : i = slot
      · subst hi
        exact .install hinp hev (by simp [installsAt, hev]) htable
      · have hsess : (installAt ctx m d i tb pub key cfg out).table.sessions slot
            = n.table.sessions slot := by
          rw [← htable] at hal
          rw [installAt_sessions_ne hal (Ne.symm hi), htable]
        refine .kept (by simp [installsAt, hev, hi]) ?_ fun _ _ f _ => congrArg f hsess
        rw [hsess]
        exact Keeps.refl _

end Lanecove
