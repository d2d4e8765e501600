import Lanecove.Peer.Housekeeping

set_option autoImplicit false

/-! # Quiet steps

Most branches of a node leave keys, addresses and replay windows of all sessions as they are.
`Quiet` says so, together with what such a branch may send and start. It composes, so the
loops of the housekeeping thread are covered by their bodies.
-/

namespace Lanecove

variable {S : Suite}

/-! ## Sessions that keep their keys -/

/-- What of a peer configuration never changes at run time. -/
def PeerConfig.fixed (c : PeerConfig S) : S.Block × List IpPrefix × Bool :=
  (c.pub, c.routes, c.hasEndpoint)

/-- From `s` to `s'` no key was installed: `s'` may have expired, may have retired its
previous key, and may have sent and received packets; keys, identity and address are as
before. -/
structure Keeps (s s' : Session S) : Prop where
  active : s'.active = true → s.active = true
  addr : s'.addr = s.addr
  staticPub : s'.staticPub = s.staticPub
  sessionKey : s'.sessionKey = s.sessionKey
  prevSessionKey : s'.prevSessionKey = s.prevSessionKey
  prevKeyActive : s'.prevKeyActive = true → s.prevKeyActive = true
  prevKeyExpires : s'.prevKeyExpires = s.prevKeyExpires
  lastHandshake : s'.lastHandshake = s.lastHandshake

theorem Keeps.refl (s : Session S) : Keeps s s :=
  ⟨id, rfl, rfl, rfl, rfl, id, rfl, rfl⟩

theorem Keeps.trans {s s' s'' : Session S} (h : Keeps s s') (h' : Keeps s' s'') :
    Keeps s s'' where
  active := h.active ∘ h'.active
  addr := h'.addr.trans h.addr
  staticPub := h'.staticPub.trans h.staticPub
  sessionKey := h'.sessionKey.trans h.sessionKey
  prevSessionKey := h'.prevSessionKey.trans h.prevSessionKey
  prevKeyActive := h.prevKeyActive ∘ h'.prevKeyActive
  prevKeyExpires := h'.prevKeyExpires.trans h.prevKeyExpires
  lastHandshake := h'.lastHandshake.trans h.lastHandshake

/-! ## What an input brings -/

namespace Input

/-- The ephemeral keys the environment hands out in this step. -/
def offers : Input S → S.Priv → Prop
  | .udp d, k => d.fresh = some k
  | .tun .., _ => False
  | .housekeeping inp, k => ∃ idx, inp.fresh idx = some k

/-- The datagram that arrives in this step. -/
def carries : Input S → S.Wire → Prop
  | .udp d, pkt => d.pkt = pkt
  | _, _ => False

end Input

/-- `forward_to_peer` sent `d` on the session that stands in its slot. -/
structure SentOn (n : Node S) (d : Sending S) : Prop where
  active : (n.table.sessions d.slot).active = true
  pub : d.pub = (n.table.sessions d.slot).staticPub
  key : d.key = (n.table.sessions d.slot).sessionKey
  dst : d.dst = (n.table.sessions d.slot).addr
  pkt : ∃ iv, d.pkt = S.encryptPacket d.key iv (frame d.seq d.payload)

/-- A pending handshake as `initiate_outbound_handshake` makes it. -/
structure NewPending (inp : Input S) (n : Node S) (p : PendingHs S) : Prop where
  hasEndpoint : (n.config p.cfgIdx).hasEndpoint = true
  hsState : ∃ e x, inp.offers e ∧ S.x25519 e (n.config p.cfgIdx).pub = some x ∧
    p.hsState = ⟨some e, S.pubOf e, x⟩

/-- The events of a quiet step: data packets and initiations. -/
def Emits (ctx : LoopCtx S) (inp : Input S) (n : Node S) : Event S → Prop
  | .initSent _ pkt => ∃ idx e x, (n.config idx).hasEndpoint = true ∧ inp.offers e ∧
      S.x25519 e (n.config idx).pub = some x ∧
      pkt = initiationPacket ctx.pskKey ctx.staticPub e x
  | .dataSent d => SentOn n d
  | _ => False

/-- A step that neither accepts a packet nor runs a handshake. `K` bounds the packets sent
on each session. -/
structure Quiet (ctx : LoopCtx S) (inp : Input S) (K : Fin MAX_PEERS → Nat) (n : Node S)
    (ev : List (Event S)) (n' : Node S) : Prop where
  slots : n'.table.slots = n.table.slots
  keeps : ∀ i, Keeps (n.table.sessions i) (n'.table.sessions i)
  recvSeq : ∀ i, (n'.table.sessions i).recvSeq = (n.table.sessions i).recvSeq
  retires : ∀ i, (n.table.sessions i).prevKeyActive = true →
    (n'.table.sessions i).prevKeyActive = false →
    ∃ pkt plain, inp.carries pkt ∧
      S.decryptPacket (n.table.sessions i).sessionKey pkt = some plain
  sends : ∀ i, ∃ k ≤ K i,
    (n'.table.sessions i).sendSeq = (n.table.sessions i).sendSeq + BitVec.ofNat 64 k ∧
    ∀ d, .dataSent d ∈ ev → d.slot = i →
      ∃ m < k, d.seq = (n.table.sessions i).sendSeq + BitVec.ofNat 64 m
  emits : ∀ e ∈ ev, Emits ctx inp n e
  configs : n'.peerConfigs.map PeerConfig.fixed = n.peerConfigs.map PeerConfig.fixed
  pending : ∀ j, (n'.pendingHs j).active = true →
    n'.pendingHs j = n.pendingHs j ∨ NewPending inp n (n'.pendingHs j)
  precomp : n'.precompEphKey = n.precompEphKey

/-! ## Composition -/

theorem config_fixed {n n' : Node S}
    (h : n'.peerConfigs.map PeerConfig.fixed = n.peerConfigs.map PeerConfig.fixed) (idx : Nat) :
    (n'.config idx).fixed = (n.config idx).fixed := by
  have key : ∀ m : Node S, (m.config idx).fixed
      = (m.peerConfigs.map PeerConfig.fixed).getD idx (PeerConfig.zero S).fixed := by
    intro m
    simp only [Node.config, List.getD_eq_getElem?_getD, List.getElem?_map]
    cases m.peerConfigs[idx]? <;> rfl
  rw [key, key, h]

theorem configs_pub {n n' : Node S}
    (h : n'.peerConfigs.map PeerConfig.fixed = n.peerConfigs.map PeerConfig.fixed) :
    n'.peerConfigs.map PeerConfig.pub = n.peerConfigs.map PeerConfig.pub := by
  have hfst : ∀ m : Node S, m.peerConfigs.map PeerConfig.pub
      = (m.peerConfigs.map PeerConfig.fixed).map Prod.fst := by
    intro m
    rw [List.map_map]
    rfl
  rw [hfst, hfst, h]

theorem setSession_keeps {n : Node S} {i : Fin MAX_PEERS} {s : Session S}
    (h : Keeps (n.table.sessions i) s) (j : Fin MAX_PEERS) :
    Keeps (n.table.sessions j) ((n.setSession i s).table.sessions j) :=
  SessionTable.set_rel h Keeps.refl j

namespace Quiet

variable {ctx : LoopCtx S} {inp : Input S} {K L : Fin MAX_PEERS → Nat} {n n' n'' : Node S}
  {ev ev' : List (Event S)}

theorem config_pub (h : Quiet ctx inp K n ev n') (idx : Nat) :
    (n'.config idx).pub = (n.config idx).pub :=
  congrArg Prod.fst (config_fixed h.configs idx)

theorem config_hasEndpoint (h : Quiet ctx inp K n ev n') (idx : Nat) :
    (n'.config idx).hasEndpoint = (n.config idx).hasEndpoint :=
  congrArg (fun x => x.2.2) (config_fixed h.configs idx)

theorem emits_back (h : Quiet ctx inp K n ev n') {e : Event S} (he : Emits ctx inp n' e) :
    Emits ctx inp n e := by
  cases e with
  | initSent dst pkt =>
      obtain ⟨idx, k, x, hend, ho, hx, hp⟩ := he
      exact ⟨idx, k, x, by rw [← h.config_hasEndpoint, hend], ho, by rw [← h.config_pub, hx], hp⟩
  | dataSent d =>
      have hk := h.keeps d.slot
      exact ⟨hk.active he.active, he.pub.trans hk.staticPub, he.key.trans hk.sessionKey,
        he.dst.trans hk.addr, he.pkt⟩
  | _ => exact he.elim

theorem newPending_back (h : Quiet ctx inp K n ev n') {p : PendingHs S}
    (hp : NewPending inp n' p) : NewPending inp n p := by
  obtain ⟨e, x, ho, hx, hst⟩ := hp.hsState
  exact ⟨by rw [← h.config_hasEndpoint, hp.hasEndpoint], e, x, ho,
    by rw [← h.config_pub, hx], hst⟩

theorem refl (ctx : LoopCtx S) (inp : Input S) (n : Node S) : Quiet ctx inp 0 n [] n where
  slots := rfl
  keeps i := Keeps.refl _
  recvSeq i := rfl
  retires i h h' := by rw [h] at h'; cases h'
  sends i := ⟨0, Nat.le_refl _, by simp, fun d hd => by cases hd⟩
  emits e he := by cases he
  configs := rfl
  pending j hj := .inl rfl
  precomp := rfl

theorem mono (h : Quiet ctx inp K n ev n') (hK : ∀ i, K i ≤ L i) : Quiet ctx inp L n ev n' :=
  { h with
    sends := fun i => by
      obtain ⟨k, hk, hs⟩ := h.sends i
      exact ⟨k, hk.trans (hK i), hs⟩ }

theorem trans (h : Quiet ctx inp K n ev n') (h' : Quiet ctx inp L n' ev' n'') :
    Quiet ctx inp (K + L) n (ev ++ ev') n'' where
  slots := h'.slots.trans h.slots
  keeps i := (h.keeps i).trans (h'.keeps i)
  recvSeq i := (h'.recvSeq i).trans (h.recvSeq i)
  retires i hi hi'' := by
    cases hi' : (n'.table.sessions i).prevKeyActive with
    | false => exact h.retires i hi hi'
    | true =>
        obtain ⟨pkt, plain, hc, hd⟩ := h'.retires i hi' hi''
        exact ⟨pkt, plain, hc, by rw [← (h.keeps i).sessionKey, hd]⟩
  sends i := by
    obtain ⟨k, hk, hseq, hev⟩ := h.sends i
    obtain ⟨l, hl, hseq', hev'⟩ := h'.sends i
    refine ⟨k + l, Nat.add_le_add hk hl, ?_, ?_⟩
    · rw [hseq', hseq, BitVec.ofNat_add, BitVec.add_assoc]
    · intro d hd hslot
      rcases List.mem_append.mp hd with hd | hd
      · obtain ⟨m, hm, hq⟩ := hev d hd hslot
        exact ⟨m, by omega, hq⟩
      · obtain ⟨m, hm, hq⟩ := hev' d hd hslot
        exact ⟨k + m, by omega, by rw [hq, hseq, BitVec.ofNat_add, BitVec.add_assoc]⟩
  emits e he := by
    rcases List.mem_append.mp he with he | he
    · exact h.emits e he
    · exact h.emits_back (h'.emits e he)
  configs := h'.configs.trans h.configs
  pending j hj := by
    rcases h'.pending j hj with heq | hnew
    · rw [heq] at hj ⊢
      exact h.pending j hj
    · exact .inr (h.newPending_back hnew)
  precomp := h'.precomp.trans h.precomp

theorem installs_nil (h : Quiet ctx inp K n ev n') : installs ev = [] := by
  refine List.filterMap_eq_nil_iff.mpr fun e he => ?_
  have hem := h.emits e he
  cases e <;> first | rfl | exact hem.elim

theorem receipts_nil (h : Quiet ctx inp K n ev n') : receipts ev = [] := by
  refine List.filterMap_eq_nil_iff.mpr fun e he => ?_
  have hem := h.emits e he
  cases e <;> first | rfl | exact hem.elim

theorem deliveries_nil (h : Quiet ctx inp K n ev n') : deliveries ev = [] := by
  refine List.filterMap_eq_nil_iff.mpr fun e he => ?_
  have hem := h.emits e he
  cases e <;> first | rfl | exact hem.elim

/-- The loops: if every body is quiet, so is the run of the loop. -/
theorem run {α : Type} {body : Node S → α → Node S × List (Event S)} {B : α → Fin MAX_PEERS → Nat}
    (hbody : ∀ m a, Quiet ctx inp (B a) m (body m a).2 (body m a).1) (l : List α)
    {c : Node S × List (Event S)} (h : Quiet ctx inp K n c.2 c.1) :
    Quiet ctx inp (K + fun i => (l.map fun a => B a i).sum) n ((Machine.mk body).run c l).2
      ((Machine.mk body).run c l).1 := by
  induction l generalizing c K with
  | nil => exact h.mono fun i => by simp
  | cons a l ih =>
      have hnext := ih (c := (Machine.mk body).next c a) (h.trans (hbody c.1 a))
      exact hnext.mono fun i => by simp [Nat.add_assoc]

/-! ## The updates the branches are made of -/

/-- Replacing one session by one that keeps its keys. -/
theorem setSession {i : Fin MAX_PEERS} {s : Session S} {m : Nat}
    (hk : Keeps (n.table.sessions i) s) (hwin : s.recvSeq = (n.table.sessions i).recvSeq)
    (hret : (n.table.sessions i).prevKeyActive = true → s.prevKeyActive = false →
      ∃ pkt plain, inp.carries pkt ∧
        S.decryptPacket (n.table.sessions i).sessionKey pkt = some plain)
    (hseq : s.sendSeq = (n.table.sessions i).sendSeq + BitVec.ofNat 64 m)
    (hev : ∀ e ∈ ev, ∃ d, e = .dataSent d ∧ d.slot = i ∧ SentOn n d ∧
      ∃ q < m, d.seq = (n.table.sessions i).sendSeq + BitVec.ofNat 64 q) :
    Quiet ctx inp (Pi.single i m) n ev (n.setSession i s) where
  slots := rfl
  keeps := setSession_keeps hk
  recvSeq := SessionTable.set_rel (R := fun x y => y.recvSeq = x.recvSeq) hwin fun _ => rfl
  retires := SessionTable.set_rel (R := fun x y => x.prevKeyActive = true →
    y.prevKeyActive = false → ∃ pkt plain, inp.carries pkt ∧
      S.decryptPacket x.sessionKey pkt = some plain) hret fun x h h' => nomatch h.symm.trans h'
  sends j := by
    by_cases hj : j = i
    · subst hj
      refine ⟨m, by simp, by simpa using hseq, ?_⟩
      intro d hd _
      obtain ⟨_, ⟨rfl⟩, _, _, hq⟩ := hev _ hd
      exact hq
    · refine ⟨0, by simp, by simp [SessionTable.set_sessions_ne _ _ hj], ?_⟩
      intro d hd hslot
      obtain ⟨_, ⟨rfl⟩, hi, _, _⟩ := hev _ hd
      exact absurd (hslot.symm.trans hi) hj
  emits e he := by
    obtain ⟨d, rfl, _, hd, _⟩ := hev e he
    exact hd
  configs := rfl
  pending j hj := .inl rfl
  precomp := rfl

/-- Replacing one session by one that differs in bookkeeping only, with nothing sent. -/
theorem setSession_flags {i : Fin MAX_PEERS} {s : Session S}
    (hk : Keeps (n.table.sessions i) s) (hwin : s.recvSeq = (n.table.sessions i).recvSeq)
    (hprev : s.prevKeyActive = (n.table.sessions i).prevKeyActive)
    (hseq : s.sendSeq = (n.table.sessions i).sendSeq) :
    Quiet ctx inp 0 n [] (n.setSession i s) := by
  have h : Quiet ctx inp (Pi.single i 0) n [] (n.setSession i s) := by
    refine setSession hk hwin ?_ (by simpa using hseq) (fun e he => by cases he)
    intro h h'
    rw [hprev, h] at h'
    cases h'
  exact h.mono fun j => by simp

/-- Using up a pending handshake. -/
theorem setPending {j : Fin MAX_PEERS} {p : PendingHs S} (hp : p.active = false) :
    Quiet ctx inp 0 n [] (n.setPending j p) :=
  { Quiet.refl ctx inp n with
    pending := fun i hi => .inl (Node.setPending_active hp i hi) }

theorem setConfig {idx : Nat} {c : PeerConfig S} (hc : c.fixed = (n.config idx).fixed) :
    Quiet ctx inp 0 n [] (n.setConfig idx c) :=
  { Quiet.refl ctx inp n with
    configs := by
      refine List.ext_getElem? fun i => ?_
      simp only [Node.setConfig, List.getElem?_map, List.getElem?_set]
      by_cases hi : idx = i
      · subst hi
        by_cases hlt : idx < n.peerConfigs.length
        · simp [hlt, hc, Node.config]
        · simp [hlt]
      · simp [hi] }

theorem clearRekeying (pub : S.Block) :
    Quiet ctx inp 0 n [] { n with table := clearRekeying n.table pub } := by
  unfold Lanecove.clearRekeying
  split
  · exact Quiet.refl ctx inp n
  · exact setSession_flags ⟨id, rfl, rfl, rfl, rfl, id, rfl, rfl⟩ rfl rfl rfl

theorem setRekeying (b : Bool) (i : Option (Fin MAX_PEERS)) :
    Quiet ctx inp 0 n [] (setRekeying n b i) := by
  cases i with
  | none => exact Quiet.refl ctx inp n
  | some i => exact setSession_flags ⟨id, rfl, rfl, rfl, rfl, id, rfl, rfl⟩ rfl rfl rfl

theorem of_single {i : Fin MAX_PEERS} (h : Quiet ctx inp (Pi.single i 1) n ev n') :
    Quiet ctx inp 1 n ev n' :=
  h.mono fun j => by by_cases hj : j = i <;> simp [hj]

theorem of_zero (h : Quiet ctx inp 0 n ev n') : Quiet ctx inp K n ev n' :=
  h.mono fun _ => Nat.zero_le _

/-- `forward_to_peer` on an active session. -/
theorem forwardToPeer {i : Fin MAX_PEERS} (ha : (n.table.sessions i).active = true)
    (payload : List UInt8) (iv : Option S.Iv) (ok : Bool) (now : Int) :
    Quiet ctx inp (Pi.single i 1) n
      (forwardToPeer (n.table.sessions i) i payload iv ok now).2
      (n.setSession i (forwardToPeer (n.table.sessions i) i payload iv ok now).1) := by
  unfold Lanecove.forwardToPeer
  rcases iv with _ | iv
  · exact setSession ⟨id, rfl, rfl, rfl, rfl, id, rfl, rfl⟩ rfl
      (fun h h' => by rw [h] at h'; cases h') rfl (fun e he => by cases he)
  · cases ok with
    | false =>
        exact setSession ⟨id, rfl, rfl, rfl, rfl, id, rfl, rfl⟩ rfl
          (fun h h' => by rw [h] at h'; cases h') rfl (fun e he => by cases he)
    | true =>
        refine setSession ⟨id, rfl, rfl, rfl, rfl, id, rfl, rfl⟩ rfl
          (fun h h' => by rw [h] at h'; cases h') rfl ?_
        intro e he
        obtain rfl := List.mem_singleton.mp he
        exact ⟨_, rfl, rfl, ⟨ha, rfl, rfl, rfl, iv, rfl⟩, 0, Nat.one_pos, by simp⟩

end Quiet

/-! ## The data path -/

/-- The session `route_lookup` returns is active. -/
theorem routeLookup_active {tb : SessionTable S} {ip : BitVec 32} {i : Fin MAX_PEERS}
    (h : routeLookup tb ip = some i) :
    i.val < tb.slots ∧ (tb.sessions i).active = true := by
  -- the invariant of both loops: the best match so far is an active session
  let Ok : Option (Fin MAX_PEERS) × Int → Prop := fun best =>
    ∀ j, best.1 = some j → j.val < tb.slots ∧ (tb.sessions j).active = true
  have inner : ∀ (j : Fin MAX_PEERS) (best : Option (Fin MAX_PEERS) × Int),
      (j.val < tb.slots ∧ (tb.sessions j).active = true) → Ok best →
      Ok ((tb.sessions j).routes.foldl (betterRoute ip j) best) := by
    intro j best hj hb
    refine List.foldlRecOn _ _ hb ?_
    intro best hb p _
    unfold betterRoute
    split
    · rintro k ⟨rfl⟩
      exact hj
    · exact hb
  have outer : Ok ((List.finRange MAX_PEERS).foldl (fun best i =>
      if decide (i.val < tb.slots) && (tb.sessions i).active then
        (tb.sessions i).routes.foldl (betterRoute ip i) best
      else best) (none, -1)) := by
    refine List.foldlRecOn _ _ (by rintro j ⟨⟩) ?_
    intro best hb j _
    by_cases hj : (decide (j.val < tb.slots) && (tb.sessions j).active) = true
    · rw [if_pos hj]
      exact inner j best (by simpa using hj) hb
    · rw [if_neg hj]
      exact hb
  exact outer i h

theorem tunPacket_quiet (ctx : LoopCtx S) (n : Node S) (packet : List UInt8) (iv : Option S.Iv)
    (ok : Bool) (now : Int) :
    Quiet ctx (.tun packet iv ok now) 1 n (tunPacket n packet iv ok now).2
      (tunPacket n packet iv ok now).1 := by
  unfold tunPacket
  split
  · split
    · exact (Quiet.refl ..).of_zero
    · rename_i i hi
      exact (Quiet.forwardToPeer (routeLookup_active hi).2 packet iv ok now).of_single
  · exact (Quiet.refl ..).of_zero

/-- An accepted packet: it decrypts under the key it names, to a frame with the sequence
number and payload it names. Under the current key the replay check passed; under the
previous key there was no replay check, but the current key failed and the grace period had
not run out. -/
theorem receive_eq_some {s s' : Session S} {i : Fin MAX_PEERS} {pkt : S.Wire} {now : Int}
    {r : Receipt S} (h : receive s i pkt now = (s', some r)) :
    r.slot = i ∧ r.pub = s.staticPub ∧ r.pkt = pkt ∧ r.time = now ∧
    (∃ plain, S.decryptPacket r.key pkt = some plain ∧
      unframe plain = some (r.seq, r.payload)) ∧
    ((r.usedPrev = false ∧ r.key = s.sessionKey ∧ ∃ w, checkReplay r.seq s.recvSeq = some w ∧
        s' = { s with lastSeen := now, prevKeyActive := false, recvSeq := w }) ∨
      (r.usedPrev = true ∧ r.key = s.prevSessionKey ∧ s.prevKeyActive = true ∧
        now ≤ s.prevKeyExpires ∧ S.decryptPacket s.sessionKey pkt = none ∧
        s' = { s with lastSeen := now })) := by
  unfold receive decryptSession acceptFrame at h
  cases hcur : S.decryptPacket s.sessionKey pkt with
  | some plain =>
      rw [hcur] at h
      cases hu : unframe plain with
      | none => simp [hu] at h
      | some f =>
          obtain ⟨seq, payload⟩ := f
          cases hr : checkReplay seq s.recvSeq with
          | none => simp [hu, hr] at h
          | some w =>
              simp only [hu, hr, Bool.false_eq_true, if_false, Option.map_some, Prod.mk.injEq,
                Option.some.injEq] at h
              obtain ⟨rfl, rfl⟩ := h
              exact ⟨rfl, rfl, rfl, rfl, ⟨plain, hcur, hu⟩, .inl ⟨rfl, rfl, w, hr, rfl⟩⟩
  | none =>
      rw [hcur] at h
      by_cases hp : (s.prevKeyActive && decide (now ≤ s.prevKeyExpires)) = true
      · have hp' : s.prevKeyActive = true ∧ now ≤ s.prevKeyExpires := by simpa using hp
        cases hprev : S.decryptPacket s.prevSessionKey pkt with
        | none => simp [hp, hprev] at h
        | some plain =>
            cases hu : unframe plain with
            | none => simp [hp, hprev, hu] at h
            | some f =>
                obtain ⟨seq, payload⟩ := f
                simp only [hp, if_true, hprev, hu, Option.map_some, Prod.mk.injEq,
                  Option.some.injEq] at h
                obtain ⟨rfl, rfl⟩ := h
                exact ⟨rfl, rfl, rfl, rfl, ⟨plain, hprev, hu⟩,
                  .inr ⟨rfl, rfl, hp'.1, hp'.2, rfl, rfl⟩⟩
      · simp [hp] at h

/-- A frame under the current key with a number that was not seen before is accepted. -/
theorem receive_fresh {s : Session S} {pkt : S.Wire} {plain payload : List UInt8}
    {seq : BitVec 64} (i : Fin MAX_PEERS) (now : Int)
    (hdec : S.decryptPacket s.sessionKey pkt = some plain)
    (hframe : unframe plain = some (seq, payload)) (hnew : ¬ s.recvSeq.Seen seq) :
    ∃ w, receive s i pkt now
      = ({ s with lastSeen := now, prevKeyActive := false, recvSeq := w },
        some ⟨i, s.staticPub, s.sessionKey, false, pkt, seq, payload, now⟩) := by
  obtain ⟨w, hw⟩ := Option.ne_none_iff_exists'.mp (mt (checkReplay_eq_none _ _).mp hnew)
  exact ⟨w, by simp [receive, decryptSession, acceptFrame, hdec, hframe, hw]⟩

theorem receive_of_current {s s' : Session S} {i : Fin MAX_PEERS} {pkt : S.Wire} {now : Int}
    {r : Receipt S} (h : receive s i pkt now = (s', some r)) (hcur : r.usedPrev = false) :
    r.key = s.sessionKey ∧ ∃ w, checkReplay r.seq s.recvSeq = some w ∧ s'.recvSeq = w := by
  obtain ⟨-, -, -, -, -, ⟨-, hkey, w, hw, rfl⟩ | ⟨hprev, -⟩⟩ := receive_eq_some h
  · exact ⟨hkey, w, hw, rfl⟩
  · exact nomatch hcur.symm.trans hprev

theorem receive_of_previous {s s' : Session S} {i : Fin MAX_PEERS} {pkt : S.Wire} {now : Int}
    {r : Receipt S} (h : receive s i pkt now = (s', some r)) (hprev : r.usedPrev = true) :
    r.key = s.prevSessionKey ∧ s.prevKeyActive = true ∧ r.time ≤ s.prevKeyExpires := by
  obtain ⟨-, -, -, rfl, -, ⟨hcur, -⟩ | ⟨-, hkey, hact, hexp, -⟩⟩ := receive_eq_some h
  · exact nomatch hcur.symm.trans hprev
  · exact ⟨hkey, hact, hexp⟩

theorem receive_keeps {s s' : Session S} {i : Fin MAX_PEERS} {pkt : S.Wire} {now : Int}
    {r : Receipt S} (h : receive s i pkt now = (s', some r)) : Keeps s s' := by
  obtain ⟨-, -, -, -, -, ⟨-, -, w, -, rfl⟩ | ⟨-, -, -, -, -, rfl⟩⟩ := receive_eq_some h
  · exact ⟨id, rfl, rfl, rfl, rfl, fun h => (by cases h), rfl, rfl⟩
  · exact ⟨id, rfl, rfl, rfl, rfl, id, rfl, rfl⟩

/-- An accepted packet under the current key moves the replay window; only such a packet can
retire the previous key. -/
theorem receive_advances {s s' : Session S} {i : Fin MAX_PEERS} {pkt : S.Wire} {now : Int}
    {r : Receipt S} (h : receive s i pkt now = (s', some r)) :
    s'.sendSeq = s.sendSeq ∧
    (s'.recvSeq = s.recvSeq ∨
      ∃ plain, S.decryptPacket s.sessionKey pkt = some plain ∧
        unframe plain = some (r.seq, r.payload) ∧
        checkReplay r.seq s.recvSeq = some s'.recvSeq) ∧
    (s.prevKeyActive = true → s'.prevKeyActive = false →
      ∃ plain, S.decryptPacket s.sessionKey pkt = some plain) := by
  obtain ⟨-, -, -, -, ⟨plain, hplain, hframe⟩, hkind⟩ := receive_eq_some h
  rcases hkind with ⟨-, hkey, w, hw, rfl⟩ | ⟨-, -, -, -, -, rfl⟩
  · rw [hkey] at hplain
    exact ⟨rfl, .inr ⟨plain, hplain, hframe, hw⟩, fun _ _ => ⟨plain, hplain⟩⟩
  · exact ⟨rfl, .inl rfl, fun h h' => nomatch h.symm.trans h'⟩

/-- A dropped packet leaves keys and replay window as they are; it retires the previous key
only if it decrypts under the current one. -/
theorem receive_eq_none {s s' : Session S} {i : Fin MAX_PEERS} {pkt : S.Wire} {now : Int}
    (h : receive s i pkt now = (s', none)) :
    Keeps s s' ∧ s'.recvSeq = s.recvSeq ∧ s'.sendSeq = s.sendSeq ∧
    (s.prevKeyActive = true → s'.prevKeyActive = false →
      ∃ plain, S.decryptPacket s.sessionKey pkt = some plain) := by
  unfold receive decryptSession acceptFrame at h
  cases hcur : S.decryptPacket s.sessionKey pkt with
  | some plain =>
      rw [hcur] at h
      have hs : s' = { s with lastSeen := now, prevKeyActive := false } := by
        cases hu : unframe plain with
        | none => simpa [hu] using h.symm
        | some f =>
            cases hr : checkReplay f.1 s.recvSeq with
            | none => simpa [hu, hr] using h.symm
            | some w => simp [hu, hr] at h
      subst hs
      exact ⟨⟨id, rfl, rfl, rfl, rfl, fun h => (by cases h), rfl, rfl⟩, rfl, rfl,
        fun _ _ => ⟨plain, rfl⟩⟩
  | none =>
      rw [hcur] at h
      have hs : s' = { s with lastSeen := now } := by
        by_cases hp : (s.prevKeyActive && decide (now ≤ s.prevKeyExpires)) = true
        · cases hprev : S.decryptPacket s.prevSessionKey pkt with
          | none => simpa [hp, hprev] using h.symm
          | some plain =>
              cases hu : unframe plain with
              | none => simpa [hp, hprev, hu] using h.symm
              | some f => simp [hp, hprev, hu] at h
        · simpa [hp] using h.symm
      subst hs
      exact ⟨⟨id, rfl, rfl, rfl, rfl, id, rfl, rfl⟩, rfl, rfl,
        fun h h' => by rw [h] at h'; cases h'⟩

/-- The fate of an accepted packet: at most one delivery, and possibly a relayed copy. -/
theorem deliver_quiet (ctx : LoopCtx S) (inp : Input S) (n : Node S) (r : Receipt S)
    (iv : Option S.Iv) (ok : Bool) (now : Int) :
    ∃ dl ev, (deliver n r iv ok now).2 = dl ++ ev ∧ (dl = [] ∨ ∃ f, dl = [.delivered r f]) ∧
      Quiet ctx inp 1 n ev (deliver n r iv ok now).1 := by
  have hrefl : Quiet ctx inp 1 n [] n := (Quiet.refl ..).of_zero
  unfold deliver
  split
  · exact ⟨[], [], rfl, .inl rfl, hrefl⟩
  · split
    · split
      · exact ⟨[.delivered r none], [], rfl, .inr ⟨none, rfl⟩, hrefl⟩
      · rename_i f hf
        have ha : (n.table.sessions f).active = true := by
          unfold relayTarget at hf
          split at hf
          · split at hf
            · cases hf
            · rename_i g hg
              split at hf
              · obtain rfl := Option.some.inj hf
                exact (routeLookup_active hg).2
              · cases hf
          · cases hf
        exact ⟨[.delivered r (some f)], _, rfl, .inr ⟨some f, rfl⟩,
          (Quiet.forwardToPeer ha r.payload iv ok now).of_single⟩
    · exact ⟨[], [], rfl, .inl rfl, hrefl⟩

/-! ## The housekeeping thread -/

section Pass

variable (ctx : LoopCtx S) {inp : Input S} {n : Node S}

/-- Using up a pending handshake and clearing the mark of its session. -/
theorem dropPending_quiet {j : Fin MAX_PEERS} {p : PendingHs S} (hp : p.active = false)
    (pub : S.Block) :
    Quiet ctx inp 0 n [] { n.setPending j p with table := clearRekeying n.table pub } :=
  (Quiet.setPending hp).trans (Quiet.clearRekeying (n := n.setPending j p) pub)

theorem initiateOutboundHandshake_quiet {idx : Nat} {fresh : Option S.Priv}
    (clock sentAt : Int) (ok : Bool) (hend : (n.config idx).hasEndpoint = true)
    (hfresh : ∀ e, fresh = some e → inp.offers e) :
    Quiet ctx inp 0 n (initiateOutboundHandshake ctx n idx clock sentAt fresh ok).2.2
      (initiateOutboundHandshake ctx n idx clock sentAt fresh ok).1 := by
  have hcfg : Quiet ctx inp 0 n []
      (n.setConfig idx { n.config idx with lastAttempt := clock }) := Quiet.setConfig rfl
  unfold initiateOutboundHandshake
  split
  · exact hcfg
  · rename_i j hj
    dsimp only
    split
    · exact hcfg
    · rename_i pkt st hsend
      obtain ⟨e, x, he, hx, rfl, rfl⟩ := handshakeClientSend_eq_some hsend
      refine { hcfg with sends := ?_, emits := ?_, pending := ?_ }
      · intro i
        refine ⟨0, Nat.le_refl _, by simp, ?_⟩
        intro d hd
        cases List.mem_singleton.mp hd
      · intro ev hev
        obtain rfl := List.mem_singleton.mp hev
        exact ⟨idx, e, x, hend, hfresh e he, hx, rfl⟩
      · intro i hi
        by_cases hij : i = j
        · subst hij
          rw [Node.setPending_pendingHs, Function.update_self]
          exact .inr ⟨hend, e, x, hfresh e he, hx, rfl⟩
        · rw [Node.setPending_pendingHs, Function.update_of_ne hij]
          exact .inl rfl

theorem resolveEndpoint_fixed (lookup : List Char → Int → Option SockAddr) (c : PeerConfig S) :
    (resolveEndpoint lookup c).fixed = c.fixed := by
  unfold resolveEndpoint
  split <;> rfl

theorem connectPeer_quiet (pass : PassInput S) (idx : Nat) :
    Quiet ctx (.housekeeping pass) 0 n (connectPeer ctx pass n idx).2
      (connectPeer ctx pass n idx).1 := by
  simp only [connectPeer]
  split
  · rename_i hcond
    have hmark : Quiet ctx (.housekeeping pass) 0 n []
        (setRekeying (n.setConfig idx (resolveEndpoint (pass.getaddrinfo idx) (n.config idx))) true
          (findSessionByPub n.table (n.config idx).pub)) :=
      (Quiet.setConfig (resolveEndpoint_fixed _ _)).trans (Quiet.setRekeying ..)
    have hend : (n.config idx).hasEndpoint = true := by
      simp only [Bool.and_eq_true] at hcond
      exact hcond.1.1
    have hoffer : ∀ e, pass.fresh idx = some e → (Input.housekeeping pass).offers e :=
      fun e he => ⟨idx, he⟩
    have hinit := initiateOutboundHandshake_quiet ctx (pass.clock idx)
      (pass.initSentAt idx) (pass.initOk idx) ((hmark.config_hasEndpoint idx).trans hend) hoffer
    split
    · rename_i n₂ ev heq
      rw [heq] at hinit
      exact hmark.trans hinit
    · rename_i n₂ ev heq
      rw [heq] at hinit
      have := (hmark.trans hinit).trans
        (Quiet.setRekeying (n := n₂) false (findSessionByPub n.table (n.config idx).pub))
      simpa using this
  · exact Quiet.refl ..

theorem expirePending_quiet (now : Int) (j : Fin MAX_PEERS) :
    Quiet ctx inp 0 n (expirePending ctx now n j).2 (expirePending ctx now n j).1 := by
  simp only [expirePending]
  split
  · exact dropPending_quiet ctx rfl _
  · exact Quiet.refl ..

theorem expireSession_quiet (now : Int) (i : Fin MAX_PEERS) :
    Quiet ctx inp 0 n (expireSession ctx now n i).2 (expireSession ctx now n i).1 := by
  simp only [expireSession]
  split
  · exact Quiet.setSession_flags
      ⟨fun h => (by cases h), rfl, rfl, rfl, rfl, id, rfl, rfl⟩ rfl rfl rfl
  · exact Quiet.refl ..

theorem keepalive_quiet (pass : PassInput S) (i : Fin MAX_PEERS) :
    Quiet ctx inp (Pi.single i 1) n (keepalive ctx pass n i).2 (keepalive ctx pass n i).1 := by
  simp only [keepalive]
  split
  · rename_i hcond
    simp only [Bool.and_eq_true] at hcond
    exact Quiet.forwardToPeer hcond.1.2 ..
  · exact (Quiet.refl ..).of_zero

/-- A pass is quiet and sends at most one packet on each session. -/
theorem housekeeping_quiet (ctx : LoopCtx S) (n : Node S) (pass : PassInput S) :
    Quiet ctx (.housekeeping pass) 1 n (housekeeping ctx n pass).2
      (housekeeping ctx n pass).1 := by
  unfold housekeeping
  split
  · have h₀ : Quiet ctx (.housekeeping pass) 0 n [] { n with lastCheck := pass.now } :=
      { Quiet.refl ctx (.housekeeping pass) n with }
    have h₁ := Quiet.run (B := fun _ => 0) (fun m idx => connectPeer_quiet ctx (n := m) pass idx)
      (List.range n.peerConfigs.length) (c := (_, [])) h₀
    have h₂ := Quiet.run (B := fun _ => 0)
      (fun m j => expirePending_quiet ctx (n := m) pass.now j)
      (List.finRange MAX_PEERS) h₁
    have h₃ := Quiet.run (B := fun _ => 0)
      (fun m i => expireSession_quiet ctx (n := m) pass.now i)
      (List.finRange MAX_PEERS) h₂
    have h₄ := Quiet.run (B := fun i => Pi.single i 1)
      (fun m i => keepalive_quiet ctx (n := m) pass i) (List.finRange MAX_PEERS) h₃
    refine h₄.mono ?_
    -- the last loop visits every slot once
    intro i
    have hsum := Fin.sum_univ_def fun a : Fin MAX_PEERS => if i = a then 1 else 0
    simp [Pi.single_apply, ← hsum]
  · exact (Quiet.refl ..).of_zero

end Pass

end Lanecove
