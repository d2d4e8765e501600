import Lanecove.Safety.KeyOwnership

set_option autoImplicit false

/-! # How often a datagram is delivered

Each session has one replay window, which belongs to its current key. A datagram is delivered
at most once under the key that is current (`delivered_once_under_current_key`). Packets under
the previous key are not checked: until the grace period ends, or a packet under the new key
arrives, every copy is delivered (`prev_key_copy_delivered_again`).
-/

namespace Lanecove

variable {S : Suite}

/-- In the trace, `e` installed a new key in the slot in which `e₀` had installed `key`. -/
def Replaces (tr : List (Event S)) (e₀ e : Install S) (key : S.Block) : Prop :=
  [e₀, e].Sublist (installs tr) ∧ e₀.slot = e.slot ∧ e₀.key = key

/-- The invariant, for runs whose installed keys are pairwise distinct. `owner` ties the key
of an active session to the handshake that installed it, and its previous key to the
handshake before; `seen` says that a packet accepted under a current key stays marked in the
window of the session that has this key. -/
structure DeliveryInv (ctx : LoopCtx S) (n : Node S) (tr : List (Event S)) : Prop where
  owner : ∀ i, (n.table.sessions i).active = true →
    ∃ e ∈ installs tr, e.slot = i ∧ e.key = (n.table.sessions i).sessionKey ∧
      ((n.table.sessions i).prevKeyActive = true →
        (∃ e₀, Replaces tr e₀ e (n.table.sessions i).prevSessionKey) ∧
        (n.table.sessions i).prevKeyExpires = e.time + ctx.prevKeyGrace)
  content : ∀ r ∈ receipts tr, ∃ plain, S.decryptPacket r.key r.pkt = some plain ∧
    unframe plain = some (r.seq, r.payload)
  known : ∀ r ∈ receipts tr, r.usedPrev = false → ∃ e ∈ installs tr, e.key = r.key
  seen : ∀ r ∈ receipts tr, r.usedPrev = false → ∀ i, (n.table.sessions i).active = true →
    (n.table.sessions i).sessionKey = r.key → (n.table.sessions i).recvSeq.Seen r.seq
  once : (receipts tr).Pairwise fun r r' =>
    r.usedPrev = false → r'.usedPrev = false → r.key = r'.key → r.pkt ≠ r'.pkt
  grace : ∀ r ∈ receipts tr, r.usedPrev = true →
    ∃ e₀ e, Replaces tr e₀ e r.key ∧ e.slot = r.slot ∧ r.time ≤ e.time + ctx.prevKeyGrace
  sub : (deliveries tr).Sublist (receipts tr)

theorem Replaces.append {tr : List (Event S)} {e₀ e : Install S} {key : S.Block}
    (h : Replaces tr e₀ e key) (ev : List (Event S)) : Replaces (tr ++ ev) e₀ e key := by
  refine ⟨?_, h.2⟩
  rw [installs_append]
  exact h.1.trans (List.sublist_append_left _ _)

/-- The keys of the installed sessions are pairwise distinct. -/
def KeysDistinct (tr : List (Event S)) : Prop := ((installs tr).map Install.key).Nodup

theorem KeysDistinct.of_append {tr ev : List (Event S)} (h : KeysDistinct (tr ++ ev)) :
    KeysDistinct tr := by
  rw [KeysDistinct, installs_append, List.map_append] at h
  exact (List.nodup_append.mp h).1

/-- A key installed by the last events was not installed before. -/
theorem KeysDistinct.new_key {tr ev : List (Event S)} {e e' : Install S}
    (h : KeysDistinct (tr ++ ev)) (he : e ∈ installs tr) (he' : e' ∈ installs ev) :
    e.key ≠ e'.key := by
  rw [KeysDistinct, installs_append, List.map_append] at h
  exact (List.nodup_append.mp h).2.2 _ (List.mem_map_of_mem he) _ (List.mem_map_of_mem he')

namespace DeliveryInv

variable {ctx : LoopCtx S} {n n' : Node S} {tr ev : List (Event S)}

theorem owner_keeps (h : DeliveryInv ctx n tr)
    (hk : ∀ i, Keeps (n.table.sessions i) (n'.table.sessions i))
    (hi : installs (tr ++ ev) = installs tr) (i : Fin MAX_PEERS)
    (hact : (n'.table.sessions i).active = true) :
    ∃ e ∈ installs (tr ++ ev), e.slot = i ∧ e.key = (n'.table.sessions i).sessionKey ∧
      ((n'.table.sessions i).prevKeyActive = true →
        (∃ e₀, Replaces (tr ++ ev) e₀ e (n'.table.sessions i).prevSessionKey) ∧
        (n'.table.sessions i).prevKeyExpires = e.time + ctx.prevKeyGrace) := by
  rw [(hk i).sessionKey, (hk i).prevSessionKey, (hk i).prevKeyExpires]
  simp only [Replaces, hi]
  obtain ⟨e, he, hslot, hkey, hprev⟩ := h.owner i ((hk i).active hact)
  exact ⟨e, he, hslot, hkey, fun hp => hprev ((hk i).prevKeyActive hp)⟩

/-- Steps in which no packet is accepted and no session installed. -/
theorem keeps (h : DeliveryInv ctx n tr)
    (hk : ∀ i, Keeps (n.table.sessions i) (n'.table.sessions i))
    (hw : ∀ i, (n'.table.sessions i).recvSeq = (n.table.sessions i).recvSeq)
    (hi : installs ev = []) (hr : receipts ev = []) (hd : deliveries ev = []) :
    DeliveryInv ctx n' (tr ++ ev) := by
  have hi' : installs (tr ++ ev) = installs tr := by rw [installs_append, hi, List.append_nil]
  have hr' : receipts (tr ++ ev) = receipts tr := by rw [receipts_append, hr, List.append_nil]
  have hd' : deliveries (tr ++ ev) = deliveries tr := by
    rw [deliveries_append, hd, List.append_nil]
  constructor
  · exact h.owner_keeps hk hi'
  · rw [hr']
    exact h.content
  · rw [hr', hi']
    exact h.known
  · intro r hr₀ hcur i hact hkey
    rw [hr'] at hr₀
    rw [(hk i).sessionKey] at hkey
    rw [hw i]
    exact h.seen r hr₀ hcur i ((hk i).active hact) hkey
  · rw [hr']
    exact h.once
  · simp only [Replaces, hr', hi']
    exact h.grace
  · rw [hr', hd']
    exact h.sub

/-- Two active sessions never have the same key. -/
theorem slot_unique (h : DeliveryInv ctx n tr) (hkeys : KeysDistinct tr) {i j : Fin MAX_PEERS}
    (hi : (n.table.sessions i).active = true) (hj : (n.table.sessions j).active = true)
    (hij : (n.table.sessions i).sessionKey = (n.table.sessions j).sessionKey) : i = j := by
  obtain ⟨e, he, rfl, hek, -⟩ := h.owner i hi
  obtain ⟨e', he', rfl, hek', -⟩ := h.owner j hj
  have heq : e = e' :=
    List.inj_on_of_nodup_map hkeys he he' (hek.trans (hij.trans hek'.symm))
  rw [heq]

/-- A packet under the current key was not accepted under this key before, while it was current. -/
theorem fresh_packet (h : DeliveryInv ctx n tr) {i : Fin MAX_PEERS}
    (hact : (n.table.sessions i).active = true) {r : Receipt S} {w : ReplayState}
    {plain : List UInt8} (hkey : r.key = (n.table.sessions i).sessionKey)
    (hdec : S.decryptPacket r.key r.pkt = some plain)
    (hun : unframe plain = some (r.seq, r.payload))
    (hreplay : checkReplay r.seq (n.table.sessions i).recvSeq = some w) :
    ∀ r₀ ∈ receipts tr, r₀.usedPrev = false → r₀.key = r.key → r₀.pkt ≠ r.pkt := by
  intro r₀ hr₀ hcur hsame hpkt
  obtain ⟨plain₀, hdec₀, hun₀⟩ := h.content r₀ hr₀
  -- the same datagram under the same key carried the same sequence number
  rw [hpkt, hsame, hdec, Option.some.injEq] at hdec₀
  rw [← hdec₀, hun, Option.some.injEq] at hun₀
  have hseq : r.seq = r₀.seq := (Prod.mk.inj hun₀).1
  have hseen := h.seen r₀ hr₀ hcur i hact (hkey.symm.trans hsame.symm)
  rw [← hseq, ← checkReplay_eq_none, hreplay] at hseen
  cases hseen

section Accept

variable {r : Receipt S} {s : Session S} {pkt : S.Wire} {now : Int}

/-- What was marked in a window stays marked, whether or not it is the window of the session
that accepts the packet. -/
theorem seen_setSession (hr : receive (n.table.sessions r.slot) r.slot pkt now = (s, some r))
    {q : BitVec 64} (i : Fin MAX_PEERS) :
    (n.table.sessions i).recvSeq.Seen q →
      ((n.setSession r.slot s).table.sessions i).recvSeq.Seen q := by
  refine SessionTable.set_rel (R := fun x y => x.recvSeq.Seen q → y.recvSeq.Seen q) ?_
    (fun _ => id) i
  intro hseen
  rcases (receive_advances hr).2.1 with hsame | ⟨-, -, -, hcheck⟩
  · rw [hsame]
    exact hseen
  · exact seen_mono hcheck hseen

/-- A packet under the current key of a session is marked in it, and no other session has this
key. -/
theorem seen_accepted (h : DeliveryInv ctx n tr) (hkeys : KeysDistinct tr)
    (hact : (n.table.sessions r.slot).active = true)
    (hr : receive (n.table.sessions r.slot) r.slot pkt now = (s, some r))
    (hcur : r.usedPrev = false) {i : Fin MAX_PEERS} (hi : (n.table.sessions i).active = true)
    (hkey : (n.table.sessions i).sessionKey = r.key) :
    ((n.setSession r.slot s).table.sessions i).recvSeq.Seen r.seq := by
  obtain ⟨hkey₀, w, hw, hs⟩ := receive_of_current hr hcur
  obtain rfl : i = r.slot := h.slot_unique hkeys hi hact (hkey.trans hkey₀)
  rw [Node.setSession_table, SessionTable.set_sessions_self, hs]
  exact seen_self hw

/-- A packet under the previous key: the handshake that replaced the key is the one that
installed the session. -/
theorem grace_accepted (h : DeliveryInv ctx n tr) (hact : (n.table.sessions r.slot).active = true)
    (hr : receive (n.table.sessions r.slot) r.slot pkt now = (s, some r))
    (hprev : r.usedPrev = true) :
    ∃ e₀ e, Replaces tr e₀ e r.key ∧ e.slot = r.slot ∧ r.time ≤ e.time + ctx.prevKeyGrace := by
  obtain ⟨hkey, hact', hexp⟩ := receive_of_previous hr hprev
  obtain ⟨e, -, hslot, -, hend⟩ := h.owner _ hact
  obtain ⟨⟨e₀, hrep⟩, hexp'⟩ := hend hact'
  rw [← hkey] at hrep
  rw [hexp'] at hexp
  exact ⟨e₀, e, hrep, hslot, hexp⟩

theorem accept (h : DeliveryInv ctx n tr) (hkeys : KeysDistinct tr)
    {src : SockAddr} {dl : List (Event S)} (hf : findSessionByAddr n.table src = some r.slot)
    (hr : receive (n.table.sessions r.slot) r.slot pkt now = (s, some r))
    (hdl : dl = [] ∨ ∃ f, dl = [.delivered r f]) :
    DeliveryInv ctx (n.setSession r.slot s) (tr ++ .accepted r :: dl) := by
  obtain ⟨-, hact, -⟩ := findSessionByAddr_eq_some hf
  have hi' : installs (tr ++ .accepted r :: dl) = installs tr := by
    rcases hdl with rfl | ⟨f, rfl⟩ <;> simp [installs]
  have hr' : receipts (tr ++ .accepted r :: dl) = receipts tr ++ [r] := by
    rcases hdl with rfl | ⟨f, rfl⟩ <;> simp [receipts]
  have hd' : (deliveries (tr ++ .accepted r :: dl)).Sublist (deliveries tr ++ [r]) := by
    rcases hdl with rfl | ⟨f, rfl⟩ <;> simp [deliveries]
  have hk := setSession_keeps (receive_keeps hr)
  obtain ⟨-, -, hpkt, -, ⟨plain, hdec, hun⟩, -⟩ := receive_eq_some hr
  rw [← hpkt] at hdec
  constructor
  · exact h.owner_keeps hk hi'
  · rw [hr']
    intro r₀ hr₀
    rcases List.mem_append.mp hr₀ with hr₀ | hr₀
    · exact h.content r₀ hr₀
    · rw [List.mem_singleton.mp hr₀]
      exact ⟨plain, hdec, hun⟩
  · rw [hr', hi']
    intro r₀ hr₀ hcur
    rcases List.mem_append.mp hr₀ with hr₀ | hr₀
    · exact h.known r₀ hr₀ hcur
    · obtain rfl := List.mem_singleton.mp hr₀
      obtain ⟨e, he, -, hek, -⟩ := h.owner _ hact
      exact ⟨e, he, hek.trans (receive_of_current hr hcur).1.symm⟩
  · intro r₀ hr₀ hcur i hi hkey
    rw [(hk i).sessionKey] at hkey
    have hi₀ := (hk i).active hi
    rw [hr'] at hr₀
    rcases List.mem_append.mp hr₀ with hr₀ | hr₀
    · exact seen_setSession hr i (h.seen r₀ hr₀ hcur i hi₀ hkey)
    · obtain rfl := List.mem_singleton.mp hr₀
      exact h.seen_accepted hkeys hact hr hcur hi₀ hkey
  · rw [hr', List.pairwise_append]
    refine ⟨h.once, List.pairwise_singleton _ _, ?_⟩
    -- an earlier receipt of the packet under this key would be in the window
    intro r₀ hr₀ r₁ hr₁ hcur₀ hcur₁ hsame
    obtain rfl := List.mem_singleton.mp hr₁
    obtain ⟨hkey, w, hw, -⟩ := receive_of_current hr hcur₁
    exact h.fresh_packet hact hkey hdec hun hw r₀ hr₀ hcur₀ hsame
  · simp only [Replaces, hr', hi']
    intro r₀ hr₀ hprev
    rcases List.mem_append.mp hr₀ with hr₀ | hr₀
    · exact h.grace r₀ hr₀ hprev
    · obtain rfl := List.mem_singleton.mp hr₀
      exact h.grace_accepted hact hr hprev
  · rw [hr']
    exact hd'.trans (h.sub.append_right _)

end Accept

theorem install (h : DeliveryInv ctx n tr) {d : Datagram S} {pub key : S.Block}
    {i : Fin MAX_PEERS} {tb : SessionTable S} (cfg : PeerConfig S) (out : Bool)
    (hal : allocSession n.table pub d.src = some (i, tb))
    (hkeys : KeysDistinct (tr ++ [.installed ⟨i, pub, key, d.src, d.pkt, out, d.clock⟩])) :
    DeliveryInv ctx (installAt ctx n d i tb pub key cfg out)
      (tr ++ [.installed ⟨i, pub, key, d.src, d.pkt, out, d.clock⟩]) := by
  have hr' : receipts (tr ++ [.installed ⟨i, pub, key, d.src, d.pkt, out, d.clock⟩])
      = receipts tr := by simp [receipts]
  have hd' : deliveries (tr ++ [.installed ⟨i, pub, key, d.src, d.pkt, out, d.clock⟩])
      = deliveries tr := by simp [deliveries]
  have hi' : installs (tr ++ [.installed ⟨i, pub, key, d.src, d.pkt, out, d.clock⟩])
      = installs tr ++ [⟨i, pub, key, d.src, d.pkt, out, d.clock⟩] := by simp [installs]
  have hnew : ∀ e ∈ installs tr, e.key ≠ key := by
    intro e he
    have hmem : ⟨i, pub, key, d.src, d.pkt, out, d.clock⟩ ∈
        installs [Event.installed ⟨i, pub, key, d.src, d.pkt, out, d.clock⟩] :=
      List.mem_singleton.mpr rfl
    exact hkeys.new_key he hmem
  constructor
  · intro j hj
    rw [hi']
    by_cases hji : j = i
    · subst hji
      rw [installAt_sessions_self]
      refine ⟨_, List.mem_append_right _ (List.mem_singleton_self _), rfl, rfl, ?_⟩
      -- the slot was active, so the key it had is now the previous key
      intro hp
      have hact : (n.table.sessions j).active = true := hp
      obtain ⟨e₀, he₀, hslot₀, hkey₀, -⟩ := h.owner j hact
      refine ⟨⟨e₀, ?_, hslot₀, ?_⟩, if_pos hact⟩
      · rw [hi']
        exact (List.singleton_sublist.mpr he₀).append_right [_]
      · rw [hkey₀]
        exact (if_pos hact).symm
    · rw [installAt_sessions_ne hal hji] at hj ⊢
      obtain ⟨e, he, hslot, hkey, hprev⟩ := h.owner j hj
      refine ⟨e, List.mem_append_left _ he, hslot, hkey, ?_⟩
      intro hp
      obtain ⟨⟨e₀, hrep⟩, hexp⟩ := hprev hp
      exact ⟨⟨e₀, hrep.append _⟩, hexp⟩
  · rw [hr']
    exact h.content
  · rw [hr', hi']
    intro r hr hcur
    obtain ⟨e, he, hek⟩ := h.known r hr hcur
    exact ⟨e, List.mem_append_left _ he, hek⟩
  · intro r hr hcur j hj hkey
    rw [hr'] at hr
    by_cases hji : j = i
    · subst hji
      rw [installAt_sessions_self] at hkey
      obtain ⟨e, he, hek⟩ := h.known r hr hcur
      exact absurd (hek.trans hkey.symm) (hnew e he)
    · rw [installAt_sessions_ne hal hji] at hj hkey ⊢
      exact h.seen r hr hcur j hj hkey
  · rw [hr']
    exact h.once
  · rw [hr']
    intro r hr hprev
    obtain ⟨e₀, e, hrep, hrest⟩ := h.grace r hr hprev
    exact ⟨e₀, e, hrep.append _, hrest⟩
  · rw [hr', hd']
    exact h.sub

/-- A datagram that opens under one key only was accepted once under all of them. -/
theorem once_of_oneKey (hS : S.OneKey) (h : DeliveryInv ctx n tr) :
    (receipts tr).Pairwise fun r r' =>
      r.usedPrev = false → r'.usedPrev = false → r.pkt ≠ r'.pkt := by
  refine h.once.imp_of_mem fun {r r'} hr hr' honce hcur hcur' hpkt => ?_
  obtain ⟨plain, hdec, -⟩ := h.content r hr
  obtain ⟨plain', hdec', -⟩ := h.content r' hr'
  rw [← hpkt] at hdec'
  exact honce hcur hcur' (hS _ _ _ _ _ hdec hdec') hpkt

end DeliveryInv

theorem deliveryInv_preserves (ctx : LoopCtx S) :
    Preserves ctx (fun _ => True) (fun _ _ _ => True)
      (fun n tr => KeysDistinct tr → DeliveryInv ctx n tr) where
  quiet _ hI hq hkeys :=
    (hI hkeys.of_append).keeps hq.keeps hq.recvSeq hq.installs_nil hq.receipts_nil
      hq.deliveries_nil
  accept _ _ hI hf hr hdl hkeys := (hI hkeys.of_append).accept hkeys.of_append hf hr hdl
  answer _ _ hI _ _ hkeys :=
    (hI hkeys.of_append).keeps (fun _ => Keeps.refl _) (fun _ => rfl) rfl rfl rfl
  initiator _ _ hI _ _ hkeys :=
    (hI hkeys.of_append).keeps (fun _ => Keeps.refl _) (fun _ => rfl) rfl rfl rfl
  responder _ _ _ hI _ _ hkeys := by
    refine (hI hkeys.of_append).keeps ?_ ?_ rfl rfl rfl
    · intro i
      rw [refreshPrecompEph_table]
      exact Keeps.refl _
    · intro i
      rw [refreshPrecompEph_table]
  install _ _ _ _ _ hI _ _ hal hkeys := (hI hkeys.of_append).install _ _ hal hkeys

theorem deliveryInv_run (ctx : LoopCtx S) (cfgs : List (PeerConfig S)) (fresh : Option S.Priv)
    (is : List (Input S)) (hkeys : KeysDistinct ((node ctx).run (Node.init cfgs fresh, []) is).2) :
    DeliveryInv ctx ((node ctx).run (Node.init cfgs fresh, []) is).1
      ((node ctx).run (Node.init cfgs fresh, []) is).2 := by
  have hinit : DeliveryInv ctx (Node.init cfgs fresh) [] := by
    constructor
    · rintro i ⟨⟩
    · rintro r ⟨⟩
    · rintro r ⟨⟩
    · rintro r ⟨⟩
    · exact List.Pairwise.nil
    · rintro r ⟨⟩
    · exact List.Sublist.slnil
  exact (deliveryInv_preserves ctx).run (H := fun _ _ => True)
    (fun _ _ _ => ⟨trivial, fun _ _ => trivial⟩) (c := (Node.init cfgs fresh, []))
    (fun _ => hinit) ((node ctx).along_of_forall (fun _ _ => trivial) is _) hkeys

/-- **At most once under the current key.** In every run whose handshakes install pairwise
distinct keys, a datagram is delivered at most once under the session key that is current;
every other delivery is under a key that a later handshake had replaced in the same slot, at
most `prev_key_grace` seconds before. -/
theorem delivered_once_under_current_key (hS : S.OneKey) (ctx : LoopCtx S)
    (cfgs : List (PeerConfig S)) (fresh : Option S.Priv) (is : List (Input S))
    (hkeys : KeysDistinct ((node ctx).run (Node.init cfgs fresh, []) is).2) :
    ((deliveries ((node ctx).run (Node.init cfgs fresh, []) is).2).Pairwise fun r r' =>
      r.usedPrev = false → r'.usedPrev = false → r.pkt ≠ r'.pkt) ∧
    ∀ r ∈ deliveries ((node ctx).run (Node.init cfgs fresh, []) is).2, r.usedPrev = true →
      ∃ e₀ e, Replaces ((node ctx).run (Node.init cfgs fresh, []) is).2 e₀ e r.key ∧
        e.slot = r.slot ∧ r.time ≤ e.time + ctx.prevKeyGrace := by
  have hinv := deliveryInv_run ctx cfgs fresh is hkeys
  constructor
  · exact (hinv.once_of_oneKey hS).sublist hinv.sub
  · intro r hr
    exact hinv.grace r (hinv.sub.subset hr)

/-- Peer `2` connects, sends a packet that arrives twice, and rekeys. -/
def rekeyRun : List (Input symbolic) :=
  [arrival (addrOf 2) (initiationOf 2 1 12) 100 101,
    arrival (addrOf 2) (dataOf (keyOf 2 1 12 100) 1 [7]) 110 0,
    arrival (addrOf 2) (dataOf (keyOf 2 1 12 100) 1 [7]) 111 0,
    arrival (addrOf 2) (initiationOf 2 1 13) 200 102]

instance (tr : List (Event symbolic)) : Decidable (KeysDistinct tr) :=
  inferInstanceAs (Decidable (List.Nodup _))

theorem delivered_once_rekeyRun :
    KeysDistinct ((node (ctxOf 1)).run twoPeers rekeyRun).2 ∧
    (deliveries ((node (ctxOf 1)).run twoPeers rekeyRun).2).map (·.time) = [110] ∧
    (deliveries ((node (ctxOf 1)).run twoPeers rekeyRun).2).Pairwise fun r r' =>
      r.usedPrev = false → r'.usedPrev = false → r.pkt ≠ r'.pkt := by
  have hkeys : KeysDistinct ((node (ctxOf 1)).run twoPeers rekeyRun).2 := by decide +kernel
  refine ⟨hkeys, by decide +kernel, ?_⟩
  unfold twoPeers at hkeys ⊢
  exact (delivered_once_under_current_key symbolic_oneKey (ctxOf 1) [peerOf 2, peerOf 3] (some 100)
    rekeyRun hkeys).1

/-- The same packet arrives once more, twice, within the grace period after the rekey. -/
def copyRun : List (Input symbolic) :=
  rekeyRun ++
    [arrival (addrOf 2) (dataOf (keyOf 2 1 12 100) 1 [7]) 201 0,
      arrival (addrOf 2) (dataOf (keyOf 2 1 12 100) 1 [7]) 202 0]

/-- One datagram, delivered three times, in a run with pairwise distinct keys. -/
theorem prev_key_copy_delivered_again :
    symbolic.OneKey ∧ KeysDistinct ((node (ctxOf 1)).run twoPeers copyRun).2 ∧
    (deliveries ((node (ctxOf 1)).run twoPeers copyRun).2).map (fun r => (r.pkt, r.usedPrev)) =
      [(dataOf (keyOf 2 1 12 100) 1 [7], false), (dataOf (keyOf 2 1 12 100) 1 [7], true),
        (dataOf (keyOf 2 1 12 100) 1 [7], true)] := by
  refine ⟨symbolic_oneKey, by decide +kernel, by decide +kernel⟩

end Lanecove
