import Lanecove.Peer.Fields
import Lanecove.Safety.Delivery

set_option autoImplicit false

/-! # Sequence numbers of sent packets

`forward_to_peer` takes the next number of its session each time it is called, also when the
encryption or `sendto` then fails. As long as no key is used for 2^64 calls and no key is
installed twice, no two packets under one key have the same number (`SendInv.once`). The
history variable `forwards` is the list of the keys under which `forward_to_peer` was called;
the counter of a session is the number of calls under its key.
-/

namespace Lanecove

variable {S : Suite}

/-! ## The send counters in one step -/

/-- A step that installs no session: each counter moves by at most one, and what is sent has the
number the counter stood at. -/
structure SendStep (n : Node S) (ev : List (Event S)) (n' : Node S) : Prop where
  moves : ∀ i, ∃ k ≤ 1,
    (n'.table.sessions i).sendSeq = (n.table.sessions i).sendSeq + BitVec.ofNat 64 k ∧
    ∀ d, .dataSent d ∈ ev → d.slot = i →
      ∃ m < k, d.seq = (n.table.sessions i).sendSeq + BitVec.ofNat 64 m
  sentOn : ∀ d, .dataSent d ∈ ev → SentOn n d

theorem Works.sendStep {ctx : LoopCtx S} {inp : Input S} {n n' : Node S} {ev : List (Event S)}
    (hw : Works ctx inp n ev n') : SendStep n ev n' :=
  ⟨hw.sends, fun _ hd => hw.emits_of hd nofun nofun⟩

/-- Nothing is sent and no counter moves. -/
theorem sendStep_of_table {n n' : Node S} {ev : List (Event S)} (htable : n'.table = n.table)
    (hev : ∀ d, .dataSent d ∉ ev) : SendStep n ev n' := by
  refine ⟨?_, fun d hd => absurd hd (hev d)⟩
  intro i
  refine ⟨0, Nat.zero_le _, ?_, fun d hd => absurd hd (hev d)⟩
  rw [htable]
  simp

/-- The end of a handshake: a session is installed, or the table stays as it is. -/
theorem installSession_sends {ctx : LoopCtx S} {n m : Node S} (htable : m.table = n.table)
    (d : Datagram S) (pub key : S.Block) (cfg : PeerConfig S) (out : Bool) {b : List (Event S)}
    (hb : ∀ x, .dataSent x ∉ b) :
    (installs (b ++ (installSession ctx m d pub key cfg out).2) = [] →
      SendStep n (b ++ (installSession ctx m d pub key cfg out).2)
        (installSession ctx m d pub key cfg out).1) ∧
    ∀ x, .dataSent x ∉ b ++ (installSession ctx m d pub key cfg out).2 := by
  rcases hal : allocSession m.table pub d.src with _ | ⟨i, tb⟩
  · rw [installSession_of_none hal, List.append_nil]
    exact ⟨fun _ => sendStep_of_table htable hb, hb⟩
  · rw [installSession_of_some hal]
    refine ⟨?_, by simpa using hb⟩
    intro hi
    rw [installs_append] at hi
    cases (List.append_eq_nil_iff.mp hi).2

theorem StepCase.sends {ctx : LoopCtx S} {n n' : Node S} {inp : Input S} {ev : List (Event S)}
    (h : StepCase ctx n inp ev n') :
    (installs ev = [] → SendStep n ev n') ∧ (installs ev ≠ [] → ∀ d, .dataSent d ∉ ev) := by
  cases h with
  | quiet h => exact ⟨fun _ => h.works.sendStep, fun hi => absurd h.works.installs_nil hi⟩
  | accept _ _ hr hdl h =>
      have hw := works_of_accept hr hdl h
      exact ⟨fun _ => hw.sendStep, fun hi => absurd hw.installs_nil hi⟩
  | answer => exact ⟨fun _ => sendStep_of_table rfl (by simp), fun _ => by simp⟩
  | @initiator d j input _ _ _ =>
      exact And.imp_right (fun h _ => h) (installSession_sends
        (Node.setPending_table n j _) d _ _ _ true
        (b := [.hsDone (n.config (n.pendingHs j).cfgIdx).pub (deriveSessionKey input)]) (by simp))
  | @responder d resp pub key _ _ _ _ =>
      rcases acceptInitiation_cases ctx (refreshPrecompEph n d.fresh) d pub key with
        ⟨-, heq⟩ | ⟨cfg, -, -, heq⟩
      · rw [heq]
        exact ⟨fun _ => sendStep_of_table (refreshPrecompEph_table ..) (by simp), fun _ => by simp⟩
      · rw [heq]
        exact And.imp_right (fun h _ => h) (installSession_sends
          (refreshPrecompEph_table n d.fresh) d pub key cfg false
          (b := [.respSent d.src resp, .hsDone pub key]) (by simp))

/-! ## One packet on each session -/

theorem forwardToPeer_slots (s : Session S) (i : Fin MAX_PEERS) (payload : List UInt8)
    (iv : Option S.Iv) (ok : Bool) (now : Int) :
    ((sendings (forwardToPeer s i payload iv ok now).2).map Sending.slot).Sublist [i] := by
  unfold forwardToPeer
  split
  · exact List.nil_sublist _
  · split
    · exact List.Sublist.refl _
    · exact List.nil_sublist _

theorem keepalive_slots (ctx : LoopCtx S) (pass : PassInput S) (n : Node S) (i : Fin MAX_PEERS) :
    ((sendings (keepalive ctx pass n i).2).map Sending.slot).Sublist [i] := by
  simp only [keepalive]
  split
  · exact forwardToPeer_slots ..
  · exact List.nil_sublist _

theorem Quiet.sendings_nil {ctx : LoopCtx S} {inp : Input S} {n n' : Node S}
    {ev : List (Event S)} (h : Quiet ctx inp 0 n ev n') : sendings ev = [] := by
  refine List.eq_nil_iff_forall_not_mem.mpr fun d hd => ?_
  obtain ⟨k, hk, -, hev⟩ := h.sends d.slot
  obtain ⟨m, hm, -⟩ := hev d (mem_sendings.mp hd) rfl
  exact Nat.not_lt_zero m (Nat.lt_of_lt_of_le hm hk)

/-- The loops: if each body sends on the slots `g a` only, in that order, the loop sends on
their concatenation. -/
theorem sendings_run {α : Type} {body : Node S → α → Node S × List (Event S)}
    {g : α → List (Fin MAX_PEERS)}
    (hbody : ∀ m a, ((sendings (body m a).2).map Sending.slot).Sublist (g a)) (l : List α)
    {c : Node S × List (Event S)} {b : List (Fin MAX_PEERS)}
    (hc : ((sendings c.2).map Sending.slot).Sublist b) :
    ((sendings ((Machine.mk body).run c l).2).map Sending.slot).Sublist (b ++ l.flatMap g) := by
  induction l generalizing c b with
  | nil =>
      rw [List.flatMap_nil, List.append_nil]
      exact hc
  | cons a l ih =>
      have hnext : ((sendings ((Machine.mk body).next c a).2).map Sending.slot).Sublist
          (b ++ g a) := by
        rw [Machine.next, sendings_append, List.map_append]
        exact hc.append (hbody c.1 a)
      have hrest := ih hnext
      rw [List.append_assoc] at hrest
      exact hrest

theorem housekeeping_slots (ctx : LoopCtx S) (n : Node S) (pass : PassInput S) :
    ((sendings (housekeeping ctx n pass).2).map Sending.slot).Nodup := by
  -- the first three loops send nothing
  have hnil : ∀ {m m' : Node S} {ev : List (Event S)},
      Quiet ctx (.housekeeping pass) 0 m ev m' → ((sendings ev).map Sending.slot).Sublist [] := by
    intro m m' ev hq
    rw [hq.sendings_nil]
    exact List.Sublist.refl _
  unfold housekeeping
  split
  · simp only [housekeepingPass]
    have h₁ := sendings_run (g := fun _ => []) (b := [])
      (fun m idx => hnil (connectPeer_quiet ctx (n := m) pass idx))
      (List.range n.peerConfigs.length) (c := ({ n with lastCheck := pass.now }, []))
      (List.nil_sublist _)
    have h₂ := sendings_run (g := fun _ => [])
      (fun m j => hnil (expirePending_quiet ctx (n := m) pass.now j)) (List.finRange MAX_PEERS) h₁
    have h₃ := sendings_run (g := fun _ => [])
      (fun m i => hnil (expireSession_quiet ctx (n := m) pass.now i)) (List.finRange MAX_PEERS) h₂
    have h₄ := sendings_run (g := fun i => [i]) (keepalive_slots ctx pass)
      (List.finRange MAX_PEERS) h₃
    refine h₄.nodup ?_
    have hempty : ∀ {α : Type} (l : List α),
        l.flatMap (fun _ => ([] : List (Fin MAX_PEERS))) = [] :=
      fun l => List.flatMap_eq_nil_iff.mpr fun _ _ => rfl
    simpa [hempty] using List.nodup_finRange MAX_PEERS
  · exact List.nodup_nil

/-- Handshakes send no data. -/
theorem handshakePkt_sendings (ctx : LoopCtx S) (n : Node S) (d : Datagram S) :
    sendings (handshakePkt ctx n d).2 = [] := by
  have hinst : ∀ (m : Node S) (pub key : S.Block) (cfg : PeerConfig S) (out : Bool),
      sendings (installSession ctx m d pub key cfg out).2 = [] := by
    intro m pub key cfg out
    unfold installSession
    split <;> rfl
  cases hp : pendingFrom n d.src with
  | some j =>
      rw [handshakePkt_of_pendingFrom_some ctx n hp]
      unfold outboundResponse
      dsimp only
      split
      · exact hinst ..
      · rfl
  | none =>
      rw [handshakePkt_of_pendingFrom_none ctx n hp]
      unfold inboundHandshake
      have hsent : ∀ resp : Option S.Wire,
          sendings (resp.map (Event.respSent d.src)).toList = [] := by
        intro resp
        cases resp <;> rfl
      split
      · rfl
      · dsimp only
        split
        · exact hsent _
        · rename_i pub key _
          rw [sendings_append, hsent, List.nil_append]
          rcases acceptInitiation_cases ctx (refreshPrecompEph n d.fresh) d pub key with
            ⟨-, heq⟩ | ⟨cfg, -, -, heq⟩
          · rw [heq]
            rfl
          · rw [heq]
            exact hinst ..

/-- A step sends at most one packet on each session. -/
theorem step_slots (ctx : LoopCtx S) (n : Node S) (inp : Input S) :
    ((sendings ((node ctx).step n inp).2).map Sending.slot).Nodup := by
  have hone : ∀ {ev : List (Event S)} {i : Fin MAX_PEERS},
      ((sendings ev).map Sending.slot).Sublist [i] → ((sendings ev).map Sending.slot).Nodup :=
    fun h => h.nodup (List.nodup_singleton _)
  cases inp with
  | housekeeping pass => exact housekeeping_slots ctx n pass
  | tun packet iv ok now =>
      show ((sendings (tunPacket n packet iv ok now).2).map Sending.slot).Nodup
      unfold tunPacket
      split
      · split
        · exact List.nodup_nil
        · exact hone (forwardToPeer_slots ..)
      · exact List.nodup_nil
  | udp d =>
      show ((sendings (udpPacket ctx n d).2).map Sending.slot).Nodup
      unfold udpPacket
      split
      · rw [handshakePkt_sendings]
        exact List.nodup_nil
      · unfold dataPacket
        split
        · exact List.nodup_nil
        · split
          · exact List.nodup_nil
          · dsimp only
            unfold deliver
            split
            · exact List.nodup_nil
            · split
              · split
                · exact List.nodup_nil
                · exact hone (forwardToPeer_slots ..)
              · exact List.nodup_nil

/-! ## Numbers and calls -/

/-- The keys of the active sessions whose counter moved from `n` to `n'`. -/
def movedKeys (n n' : Node S) : List S.Block :=
  ((List.finRange MAX_PEERS).filter fun i => (n.table.sessions i).active &&
    decide ((n'.table.sessions i).sendSeq = (n.table.sessions i).sendSeq + 1)).map fun i =>
      (n.table.sessions i).sessionKey

/-- The calls of `forward_to_peer` in a step, by key. The counter moves with each call, whether
or not a packet goes out; a step that installs a session makes no call. -/
def forwards (ctx : LoopCtx S) (n : Node S) (inp : Input S) : List S.Block :=
  if (installs ((node ctx).step n inp).2).isEmpty then movedKeys n ((node ctx).step n inp).1
  else []

/-- The invariant. `w` lists the calls so far: the counter of an active session is the number of
calls under its key, and every packet has a number below that. -/
structure SendInv (n : Node S) (tr : List (Event S)) (w : List S.Block) : Prop where
  owner : ∀ i, (n.table.sessions i).active = true →
    ∃ e ∈ installs tr, e.slot = i ∧ e.key = (n.table.sessions i).sessionKey
  counter : ∀ i, (n.table.sessions i).active = true →
    (n.table.sessions i).sendSeq.toNat = w.count (n.table.sessions i).sessionKey
  below : ∀ d ∈ sendings tr, d.seq.toNat < w.count d.key
  known : ∀ k ∈ w, ∃ e ∈ installs tr, e.key = k
  once : (sendings tr).Pairwise fun d d' => d.key = d'.key → d.seq ≠ d'.seq

theorem mem_movedKeys {n n' : Node S} {k : S.Block} (h : k ∈ movedKeys n n') :
    ∃ i, (n.table.sessions i).active = true ∧ (n.table.sessions i).sessionKey = k := by
  obtain ⟨i, hi, rfl⟩ := List.mem_map.mp h
  have hact := (List.mem_filter.mp hi).2
  rw [Bool.and_eq_true] at hact
  exact ⟨i, hact.1, rfl⟩

/-- The key of a session is counted once if its counter moved, provided no other active session
has the same key. -/
theorem count_movedKeys {n n' : Node S} {i : Fin MAX_PEERS}
    (hi : (n.table.sessions i).active = true)
    (hkey : ∀ j, (n.table.sessions j).active = true →
      (n.table.sessions j).sessionKey = (n.table.sessions i).sessionKey → j = i) :
    (movedKeys n n').count (n.table.sessions i).sessionKey =
      if (n'.table.sessions i).sendSeq = (n.table.sessions i).sendSeq + 1 then 1 else 0 := by
  have hpred : ∀ j, (decide ((n.table.sessions j).sessionKey = (n.table.sessions i).sessionKey) &&
      ((n.table.sessions j).active &&
        decide ((n'.table.sessions j).sendSeq = (n.table.sessions j).sendSeq + 1))) =
      (decide (j = i) &&
        decide ((n'.table.sessions i).sendSeq = (n.table.sessions i).sendSeq + 1)) := by
    intro j
    by_cases hji : j = i
    · subst hji
      simp [hi]
    · have hne : (n.table.sessions j).active = true →
          (n.table.sessions j).sessionKey ≠ (n.table.sessions i).sessionKey :=
        fun hj heq => hji (hkey j hj heq)
      cases hj : (n.table.sessions j).active with
      | false => simp [hji]
      | true => simp [hji, hne hj]
  have hcount : (movedKeys n n').count (n.table.sessions i).sessionKey =
      (List.finRange MAX_PEERS).countP fun j => decide (j = i) &&
        decide ((n'.table.sessions i).sendSeq = (n.table.sessions i).sendSeq + 1) := by
    rw [movedKeys, List.count_eq_countP, List.countP_map, List.countP_filter]
    refine List.countP_congr fun j _ => ?_
    rw [← hpred j]
    rfl
  rw [hcount]
  split
  · rename_i hmoved
    have hone := List.count_eq_one_of_mem (List.nodup_finRange MAX_PEERS) (List.mem_finRange i)
    rw [List.count_eq_countP] at hone
    simp only [decide_eq_true hmoved, Bool.and_true]
    exact hone
  · rename_i hmoved
    simp only [decide_eq_false hmoved, Bool.and_false]
    simp

namespace SendInv

variable {n n' : Node S} {tr ev : List (Event S)} {w : List S.Block}

theorem init (cfgs : List (PeerConfig S)) (fresh : Option S.Priv) :
    SendInv (Node.init cfgs fresh) [] [] where
  owner := by rintro i ⟨⟩
  counter := by rintro i ⟨⟩
  below := by rintro d ⟨⟩
  known := by rintro k ⟨⟩
  once := List.Pairwise.nil

/-- Two active sessions never have the same key. -/
theorem slot_unique (h : SendInv n tr w) (hkeys : KeysDistinct tr) {i j : Fin MAX_PEERS}
    (hi : (n.table.sessions i).active = true) (hj : (n.table.sessions j).active = true)
    (hij : (n.table.sessions i).sessionKey = (n.table.sessions j).sessionKey) : i = j := by
  obtain ⟨e, he, rfl, hek⟩ := h.owner i hi
  obtain ⟨e', he', rfl, hek'⟩ := h.owner j hj
  rw [List.inj_on_of_nodup_map hkeys he he' (hek.trans (hij.trans hek'.symm))]

/-- How the counter and the number of calls move together. -/
theorem counter_step (h : SendInv n tr w) (hkeys : KeysDistinct tr) (hs : SendStep n ev n')
    (hbound : ∀ k, (w ++ movedKeys n n').count k < 2 ^ 64) {i : Fin MAX_PEERS}
    (hi : (n.table.sessions i).active = true) :
    (n'.table.sessions i).sendSeq.toNat
        = (w ++ movedKeys n n').count (n.table.sessions i).sessionKey ∧
      ∀ d, .dataSent d ∈ ev → d.slot = i →
        d.seq = (n.table.sessions i).sendSeq ∧
        w.count (n.table.sessions i).sessionKey
          < (w ++ movedKeys n n').count (n.table.sessions i).sessionKey := by
  have hb := hbound (n.table.sessions i).sessionKey
  have hc := h.counter i hi
  rw [List.count_append, count_movedKeys hi fun j hj heq => h.slot_unique hkeys hj hi heq] at hb ⊢
  obtain ⟨k, hk, hseq, hev⟩ := hs.moves i
  obtain rfl | rfl : k = 0 ∨ k = 1 := by omega
  · -- the counter did not move, so nothing was sent
    have hsame : (n'.table.sessions i).sendSeq = (n.table.sessions i).sendSeq := by
      rw [hseq]
      simp
    have hnot : (n'.table.sessions i).sendSeq ≠ (n.table.sessions i).sendSeq + 1 := by
      rw [hsame]
      intro heq
      bv_omega
    rw [if_neg hnot, hsame, hc]
    refine ⟨rfl, ?_⟩
    intro d hd hslot
    obtain ⟨m, hm, -⟩ := hev d hd hslot
    exact absurd hm (Nat.not_lt_zero m)
  · have hmoved : (n'.table.sessions i).sendSeq = (n.table.sessions i).sendSeq + 1 := hseq
    rw [if_pos hmoved] at hb ⊢
    refine ⟨?_, ?_⟩
    · rw [hmoved, BitVec.toNat_add, hc]
      exact Nat.mod_eq_of_lt hb
    · intro d hd hslot
      obtain ⟨m, hm, hdseq⟩ := hev d hd hslot
      obtain rfl : m = 0 := by omega
      exact ⟨by rw [hdseq]; simp, Nat.lt_succ_self _⟩

/-- Steps that install no session. -/
theorem work (h : SendInv n tr w) (hkeys : KeysDistinct tr)
    (hk : ∀ i, Keeps (n.table.sessions i) (n'.table.sessions i)) (hs : SendStep n ev n')
    (hi : installs ev = []) (hslots : ((sendings ev).map Sending.slot).Nodup)
    (hbound : ∀ k, (w ++ movedKeys n n').count k < 2 ^ 64) :
    SendInv n' (tr ++ ev) (w ++ movedKeys n n') := by
  have hi' : installs (tr ++ ev) = installs tr := by rw [installs_append, hi, List.append_nil]
  -- what is sent has the number at which the counter stood
  have hnew : ∀ d ∈ sendings ev, d.seq.toNat = w.count d.key ∧
      w.count d.key < (w ++ movedKeys n n').count d.key := by
    intro d hd
    have hon := hs.sentOn d (mem_sendings.mp hd)
    obtain ⟨hseq, hlt⟩ := (h.counter_step hkeys hs hbound hon.active).2 d (mem_sendings.mp hd) rfl
    rw [hon.key, hseq]
    exact ⟨h.counter _ hon.active, hlt⟩
  constructor
  · intro i hact
    rw [hi', (hk i).sessionKey]
    exact h.owner i ((hk i).active hact)
  · intro i hact
    rw [(hk i).sessionKey]
    exact (h.counter_step hkeys hs hbound ((hk i).active hact)).1
  · intro d hd
    rw [sendings_append] at hd
    rcases List.mem_append.mp hd with hd | hd
    · rw [List.count_append]
      exact Nat.lt_add_right _ (h.below d hd)
    · obtain ⟨hseq, hlt⟩ := hnew d hd
      rw [hseq]
      exact hlt
  · intro k hkw
    rw [hi']
    rcases List.mem_append.mp hkw with hkw | hkw
    · exact h.known k hkw
    · obtain ⟨i, hact, rfl⟩ := mem_movedKeys hkw
      obtain ⟨e, he, -, hek⟩ := h.owner i hact
      exact ⟨e, he, hek⟩
  · rw [sendings_append, List.pairwise_append]
    refine ⟨h.once, ?_, ?_⟩
    · -- one packet on each session, and other sessions have other keys
      refine (List.pairwise_map.mp hslots).imp_of_mem ?_
      intro d d' hd hd' hne hkey _
      have hon := hs.sentOn d (mem_sendings.mp hd)
      have hon' := hs.sentOn d' (mem_sendings.mp hd')
      rw [hon.key, hon'.key] at hkey
      exact hne (h.slot_unique hkeys hon.active hon'.active hkey)
    · intro d hd d' hd' hkey heq
      have hold := h.below d hd
      rw [heq, (hnew d' hd').1, hkey] at hold
      exact Nat.lt_irrefl _ hold

/-- A session is installed under a key that was not used before. -/
theorem install {ctx : LoopCtx S} {d : Datagram S} {m : Node S} {i : Fin MAX_PEERS}
    {tb : SessionTable S} {pub key : S.Block} {cfg : PeerConfig S} {out : Bool}
    (h : SendInv n tr w) (htable : m.table = n.table)
    (hal : allocSession n.table pub d.src = some (i, tb))
    (hi : installs ev = [⟨i, pub, key, d.src, d.pkt, out, d.clock⟩])
    (hev : ∀ x, .dataSent x ∉ ev) (hnew : ∀ e ∈ installs tr, e.key ≠ key) :
    SendInv (installAt ctx m d i tb pub key cfg out) (tr ++ ev) w := by
  have hnone : sendings ev = [] :=
    List.eq_nil_iff_forall_not_mem.mpr fun x hx => hev x (mem_sendings.mp hx)
  have hs' : sendings (tr ++ ev) = sendings tr := by
    rw [sendings_append, hnone, List.append_nil]
  have hal' : allocSession m.table pub d.src = some (i, tb) := by rw [htable, hal]
  have hgrow : ∀ e ∈ installs tr, e ∈ installs (tr ++ ev) := by
    intro e he
    rw [installs_append]
    exact List.mem_append_left _ he
  constructor
  · intro j hj
    by_cases hji : j = i
    · subst hji
      rw [installAt_sessions_self, installs_append, hi]
      exact ⟨_, List.mem_append_right _ (List.mem_singleton_self _), rfl, rfl⟩
    · rw [installAt_sessions_ne hal' hji, htable] at hj ⊢
      obtain ⟨e, he, hslot, hek⟩ := h.owner j hj
      exact ⟨e, hgrow e he, hslot, hek⟩
  · intro j hj
    by_cases hji : j = i
    · subst hji
      rw [installAt_sessions_self]
      -- no call was made under the new key
      refine (List.count_eq_zero.mpr ?_).symm
      intro hmem
      obtain ⟨e, he, hek⟩ := h.known _ hmem
      exact hnew e he hek
    · rw [installAt_sessions_ne hal' hji, htable] at hj ⊢
      exact h.counter j hj
  · rw [hs']
    exact h.below
  · intro k hk
    obtain ⟨e, he, hek⟩ := h.known k hk
    exact ⟨e, hgrow e he, hek⟩
  · rw [hs']
    exact h.once

/-- **One step**: as long as keys are distinct and no key is used for 2^64 calls. -/
theorem step (ctx : LoopCtx S) (inp : Input S) (h : SendInv n tr w)
    (hkeys : KeysDistinct (tr ++ ((node ctx).step n inp).2))
    (hbound : ∀ k, (w ++ forwards ctx n inp).count k < 2 ^ 64) :
    SendInv ((node ctx).step n inp).1 (tr ++ ((node ctx).step n inp).2)
      (w ++ forwards ctx n inp) := by
  have htable := step_table ctx n inp
  have hsends := (step_cases ctx n inp).sends
  have hslots := step_slots ctx n inp
  unfold forwards at hbound ⊢
  generalize ((node ctx).step n inp).1 = n' at *
  generalize ((node ctx).step n inp).2 = ev at *
  cases htable with
  | kept hi hkept =>
      rw [hi] at hbound ⊢
      exact h.work hkeys.of_append hkept.keeps (hsends.1 hi) hi hslots hbound
  | @install d _ m i tb pub key cfg out hinp hi hm htb hcfg hal =>
      have hne : installs ev ≠ [] := by rw [hi]; exact List.cons_ne_nil _ _
      rw [hi, List.isEmpty_cons, if_neg Bool.false_ne_true, List.append_nil]
      refine h.install htb hal hi (hsends.2 hne) ?_
      intro e he
      exact hkeys.new_key he (hi ▸ List.mem_singleton_self _)

end SendInv

end Lanecove
