import Lanecove.Peer.Fields
import Lanecove.Safety.KeyOwnership

set_option autoImplicit false

/-! # The session table is well formed

Every active session lies below `session_slots`, is the only one of its peer, and belongs to a
configured peer, whose routes it has. This survives every step, whichever of the four branches
of `alloc_session` hands out the slot. With at most `MAX_PEERS` configured peers there is then
always a slot for a configured peer: the table has as many slots as there may be peers, and
the peer at hand has none of them (`table_well_formed`).
-/

namespace Lanecove

variable {S : Suite}

theorem Node.config_mem {n : Node S} {idx : Nat} (h : (n.config idx).hasEndpoint = true) :
    n.config idx ∈ n.peerConfigs := by
  rw [Node.config, List.getD_eq_getElem?_getD, List.getElem?_eq_getElem (Node.config_lt h)]
  exact List.getElem_mem _

/-- The invariant: what a session table is, and that pending handshakes are with configured
peers. -/
structure TableInv (n : Node S) : Prop where
  below : n.table.Below
  slots : n.table.slots ≤ MAX_PEERS
  unique : ∀ i j, (n.table.sessions i).active = true → (n.table.sessions j).active = true →
    (n.table.sessions i).staticPub = (n.table.sessions j).staticPub → i = j
  configured : ∀ i, (n.table.sessions i).active = true →
    ∃ cfg ∈ n.peerConfigs, cfg.pub = (n.table.sessions i).staticPub ∧
      cfg.routes = (n.table.sessions i).routes
  pending : ∀ j, (n.pendingHs j).active = true →
    (n.config (n.pendingHs j).cfgIdx).hasEndpoint = true

/-- Identity and routes of the configured peers do not change. -/
theorem configured_mono {cfgs cfgs' : List (PeerConfig S)}
    (h : cfgs'.map PeerConfig.fixed = cfgs.map PeerConfig.fixed) {pub : S.Block}
    {routes : List IpPrefix} (hcfg : ∃ cfg ∈ cfgs, cfg.pub = pub ∧ cfg.routes = routes) :
    ∃ cfg ∈ cfgs', cfg.pub = pub ∧ cfg.routes = routes := by
  obtain ⟨cfg, hmem, rfl, rfl⟩ := hcfg
  have hfix : cfg.fixed ∈ cfgs'.map PeerConfig.fixed := by
    rw [h]
    exact List.mem_map_of_mem hmem
  obtain ⟨cfg', hmem', heq⟩ := List.mem_map.mp hfix
  exact ⟨cfg', hmem', congrArg Prod.fst heq, congrArg (fun x => x.2.1) heq⟩

namespace TableInv

variable {n n' : Node S}

theorem init (cfgs : List (PeerConfig S)) (fresh : Option S.Priv) :
    TableInv (Node.init cfgs fresh) where
  below := by rintro i ⟨⟩
  slots := Nat.zero_le _
  unique := by rintro i j ⟨⟩
  configured := by rintro i ⟨⟩
  pending := by rintro j ⟨⟩

/-- Steps that install nothing. -/
theorem kept {inp : Input S} (h : TableInv n) (hk : TableKept inp n n') : TableInv n' where
  below i hi := by
    rw [hk.slots]
    exact h.below i ((hk.keeps i).active hi)
  slots := by
    rw [hk.slots]
    exact h.slots
  unique i j hi hj hpub := by
    rw [(hk.keeps i).staticPub, (hk.keeps j).staticPub] at hpub
    exact h.unique i j ((hk.keeps i).active hi) ((hk.keeps j).active hj) hpub
  configured i hi := by
    rw [(hk.keeps i).staticPub, hk.constant constant_routes i]
    exact configured_mono hk.configs (h.configured i ((hk.keeps i).active hi))
  pending j hj := by
    have hend : ∀ idx, (n'.config idx).hasEndpoint = (n.config idx).hasEndpoint :=
      fun idx => congrArg (fun x => x.2.2) (config_fixed hk.configs idx)
    rw [hend]
    rcases hk.pending j hj with heq | hnew
    · rw [heq] at hj ⊢
      exact h.pending j hj
    · exact hnew.hasEndpoint

/-- The session of a peer is found by its public key. -/
theorem findSessionByPub_self (h : TableInv n) {i : Fin MAX_PEERS}
    (hi : (n.table.sessions i).active = true) :
    findSessionByPub n.table (n.table.sessions i).staticPub = some i := by
  cases hfind : findSessionByPub n.table (n.table.sessions i).staticPub with
  | none => exact absurd rfl (findSessionByPub_eq_none hfind (h.below i hi) hi)
  | some k =>
      obtain ⟨-, hk, hpub⟩ := findSessionByPub_eq_some hfind
      rw [h.unique k i hk hi hpub]

/-- The slot handed out for a peer is its own, or no other session is the peer's. -/
theorem other_pub (h : TableInv n) {pub : S.Block} {addr : SockAddr} {i : Fin MAX_PEERS}
    {tb : SessionTable S} (hal : allocSession n.table pub addr = some (i, tb))
    {j : Fin MAX_PEERS} (hj : (n.table.sessions j).active = true) (hji : j ≠ i) :
    (n.table.sessions j).staticPub ≠ pub := by
  have hnone : findSessionByPub n.table pub = none → (n.table.sessions j).staticPub ≠ pub :=
    fun hp => findSessionByPub_eq_none hp (h.below j hj) hj
  rcases allocSession_slot h.below hal with hp | ⟨hp, -⟩ | ⟨hp, -⟩
  · obtain ⟨-, hact, hown⟩ := findSessionByPub_eq_some hp
    intro hpub
    exact hji (h.unique j i hj hact (hpub.trans hown.symm))
  · exact hnone hp
  · exact hnone hp

/-- A session is installed for a configured peer. -/
theorem install {ctx : LoopCtx S} (h : TableInv n) {d : Datagram S} {pub key : S.Block}
    {i : Fin MAX_PEERS} {tb : SessionTable S} {cfg : PeerConfig S} (out : Bool)
    (hcfg : ∃ c ∈ n.peerConfigs, c.pub = pub ∧ c.routes = cfg.routes)
    (hal : allocSession n.table pub d.src = some (i, tb)) :
    TableInv (installAt ctx n d i tb pub key cfg out) where
  below := h.below.set hal
  slots := by
    show tb.slots ≤ MAX_PEERS
    cases allocSession_cases hal with
    | byPub _ => exact h.slots
    | byAddr _ _ => exact h.slots
    | free _ _ _ => exact h.slots
    | grow _ _ _ hlt => exact hlt
  unique j k hj hk heq := by
    by_cases hji : j = i <;> by_cases hki : k = i
    · rw [hji, hki]
    · subst hji
      rw [installAt_sessions_ne hal hki] at hk heq
      rw [installAt_sessions_self] at heq
      exact absurd heq.symm (h.other_pub hal hk hki)
    · subst hki
      rw [installAt_sessions_ne hal hji] at hj heq
      rw [installAt_sessions_self] at heq
      exact absurd heq (h.other_pub hal hj hji)
    · rw [installAt_sessions_ne hal hji] at hj heq
      rw [installAt_sessions_ne hal hki] at hk heq
      exact h.unique j k hj hk heq
  configured j hj := by
    by_cases hji : j = i
    · subst hji
      rw [installAt_sessions_self]
      exact hcfg
    · rw [installAt_sessions_ne hal hji] at hj ⊢
      exact h.configured j hj
  pending := h.pending

/-- **One step keeps the table well formed.** -/
theorem step {ctx : LoopCtx S} {inp : Input S} {ev : List (Event S)} (h : TableInv n)
    (hstep : TableStep ctx inp n ev n') : TableInv n' := by
  cases hstep with
  | kept _ hk => exact h.kept hk
  | @install d ev m i tb pub key cfg out hinp hev hm htable hcfg hal =>
      obtain ⟨hpub, hsource⟩ := hcfg
      -- the configuration is an entry of `peer_configs[]`, now as before
      have hentry : ∃ c ∈ n.peerConfigs, c.pub = pub ∧ c.routes = cfg.routes := by
        rcases hsource with hfind | ⟨j, hj, rfl⟩
        · exact ⟨_, List.mem_of_find?_eq_some hfind, hpub, rfl⟩
        · exact ⟨_, Node.config_mem (h.pending j hj), hpub, rfl⟩
      rw [← htable] at hal
      exact (h.kept hm).install _ (configured_mono hm.configs hentry) hal

/-- With no more peers than slots there is a slot for every configured peer. -/
theorem allocSession_isSome (h : TableInv n) (hlen : n.peerConfigs.length ≤ MAX_PEERS)
    {cfg : PeerConfig S} (hcfg : cfg ∈ n.peerConfigs) (addr : SockAddr) :
    (allocSession n.table cfg.pub addr).isSome = true := by
  by_contra hnone
  rw [Bool.not_eq_true, Option.isSome_eq_false_iff, Option.isNone_iff_eq_none] at hnone
  obtain ⟨hp, hfree, hfull⟩ := allocSession_eq_none hnone
  -- all slots are in use, each by another configured peer than this one
  have hact : ∀ i, (n.table.sessions i).active = true :=
    fun i => findFreeSlot_eq_none hfree (Nat.lt_of_lt_of_le i.isLt hfull)
  let others := (n.peerConfigs.map PeerConfig.pub).toFinset.erase cfg.pub
  have hmaps : ∀ i ∈ (Finset.univ : Finset (Fin MAX_PEERS)),
      (n.table.sessions i).staticPub ∈ others := by
    intro i _
    obtain ⟨c, hc, hpub, -⟩ := h.configured i (hact i)
    refine Finset.mem_erase.mpr ⟨?_, ?_⟩
    · exact findSessionByPub_eq_none hp (h.below i (hact i)) (hact i)
    · rw [List.mem_toFinset, ← hpub]
      exact List.mem_map_of_mem hc
  have hinj : Set.InjOn (fun i => (n.table.sessions i).staticPub)
      (Finset.univ : Finset (Fin MAX_PEERS)) :=
    fun i _ j _ heq => h.unique i j (hact i) (hact j) heq
  have hcard := Finset.card_le_card_of_injOn _ hmaps hinj
  have hpub : cfg.pub ∈ (n.peerConfigs.map PeerConfig.pub).toFinset :=
    List.mem_toFinset.mpr (List.mem_map_of_mem hcfg)
  have herase : others.card < (n.peerConfigs.map PeerConfig.pub).toFinset.card :=
    Finset.card_erase_lt_of_mem hpub
  have hlist := List.toFinset_card_le (n.peerConfigs.map PeerConfig.pub)
  rw [List.length_map] at hlist
  rw [Finset.card_univ, Fintype.card_fin] at hcard
  omega

end TableInv

theorem TableStep.configs {ctx : LoopCtx S} {inp : Input S} {n n' : Node S}
    {ev : List (Event S)} (h : TableStep ctx inp n ev n') :
    n'.peerConfigs.map PeerConfig.fixed = n.peerConfigs.map PeerConfig.fixed := by
  cases h with
  | kept _ hk => exact hk.configs
  | install _ _ hm _ _ _ => exact hm.configs

/-- The invariant along runs, and the configuration stays what it was at the start. -/
theorem tableInv_run (ctx : LoopCtx S) (cfgs : List (PeerConfig S)) (fresh : Option S.Priv)
    (is : List (Input S)) :
    TableInv ((node ctx).run (Node.init cfgs fresh, []) is).1 ∧
      ((node ctx).run (Node.init cfgs fresh, []) is).1.peerConfigs.map PeerConfig.fixed
        = cfgs.map PeerConfig.fixed := by
  refine (node ctx).invariant_all (I := fun c => TableInv c.1 ∧
    c.1.peerConfigs.map PeerConfig.fixed = cfgs.map PeerConfig.fixed) ?_ is _
    ⟨TableInv.init cfgs fresh, rfl⟩
  rintro c inp ⟨hc, hcfgs⟩
  have hstep := step_table ctx c.1 inp
  exact ⟨hc.step hstep, hstep.configs.trans hcfgs⟩

/-! ## The result -/

/-- The table of a node with the peers `cfgs` is well formed, and has room for each of them. -/
structure TableWellFormed (cfgs : List (PeerConfig S)) (tb : SessionTable S) : Prop where
  slots : tb.slots ≤ MAX_PEERS
  below : ∀ i, (tb.sessions i).active = true → i.val < tb.slots
  unique : ∀ i j, (tb.sessions i).active = true → (tb.sessions j).active = true →
    (tb.sessions i).staticPub = (tb.sessions j).staticPub → i = j
  configured : ∀ i, (tb.sessions i).active = true →
    ∃ cfg ∈ cfgs, cfg.pub = (tb.sessions i).staticPub ∧ cfg.routes = (tb.sessions i).routes
  room : ∀ cfg ∈ cfgs, ∀ addr, (allocSession tb cfg.pub addr).isSome = true

theorem TableInv.wellFormed {n : Node S} {cfgs : List (PeerConfig S)} (h : TableInv n)
    (hcfgs : n.peerConfigs.map PeerConfig.fixed = cfgs.map PeerConfig.fixed)
    (hlen : cfgs.length ≤ MAX_PEERS) : TableWellFormed cfgs n.table where
  slots := h.slots
  below := h.below
  unique := h.unique
  configured i hi := configured_mono hcfgs.symm (h.configured i hi)
  room cfg hcfg addr := by
    have hcount : n.peerConfigs.length = cfgs.length := by
      simpa only [List.length_map] using congrArg List.length hcfgs
    obtain ⟨c, hc, hpub, -⟩ := configured_mono hcfgs ⟨cfg, hcfg, rfl, rfl⟩
    rw [← hpub]
    exact h.allocSession_isSome (hcount.trans_le hlen) hc addr

/-- **The session table.** In every run of a node with at most `MAX_PEERS` peers the table is
well formed, and `alloc_session` never fails for a configured peer. -/
theorem table_well_formed (ctx : LoopCtx S) (cfgs : List (PeerConfig S)) (fresh : Option S.Priv)
    (is : List (Input S)) (hlen : cfgs.length ≤ MAX_PEERS) :
    TableWellFormed cfgs ((node ctx).run (Node.init cfgs fresh, []) is).1.table := by
  obtain ⟨hinv, hcfgs⟩ := tableInv_run ctx cfgs fresh is
  exact hinv.wellFormed hcfgs hlen

/-- Node `1`; peer `3` is configured twice, with different routes. -/
def doubledPeers : List (PeerConfig symbolic) :=
  [peerOf 2, { peerOf 3 with routes := [⟨0, 0, 0⟩] }, peerOf 3]

theorem table_well_formed_takeoverRun :
    doubledPeers.length ≤ MAX_PEERS ∧
    ((node (ctxOf 1)).run (Node.init doubledPeers (some 100), []) takeoverRun).1.table.slots = 1 ∧
    TableWellFormed doubledPeers
      ((node (ctxOf 1)).run (Node.init doubledPeers (some 100), []) takeoverRun).1.table :=
  ⟨by decide, by decide +kernel,
    table_well_formed (ctxOf 1) doubledPeers (some 100) takeoverRun (by decide)⟩

end Lanecove
