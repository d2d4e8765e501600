import Lanecove.Basic.Assignments
import Lanecove.Config.Schema

set_option autoImplicit false

/-! # What a document says

The declarative reading of a configuration document, by lookups that do not depend on the order of
entries: which peers are well formed (`PeerDoc.Valid`), what entry of `peer_configs[]` a peer
mapping stands for (`PeerDoc.Describes`), and the same for whole documents. A peer mapping is read
exactly when it is valid, and what is read is what it describes.
-/

namespace Lanecove

open CString

/-! ## Lookups -/

namespace PeerEntry

def asScalar : PeerEntry → Option (List Char × List Char)
  | scalar key value _ => some (key, value)
  | allowedIps _ => none

def cidrs : PeerEntry → List (List Char)
  | scalar _ _ _ => []
  | allowedIps cidrs => cidrs

end PeerEntry

namespace PeerDoc

/-- The scalar entries, with their keys. -/
def scalars (p : PeerDoc) : List (List Char × List Char) := p.entries.filterMap PeerEntry.asScalar

/-- The list `allowed_ips`; empty if it is not there. -/
def cidrs (p : PeerDoc) : List (List Char) := p.entries.flatMap PeerEntry.cidrs

theorem mem_scalars {p : PeerDoc} {k v : List Char} :
    (k, v) ∈ p.scalars ↔ ∃ h, PeerEntry.scalar k v h ∈ p.entries := by
  rw [scalars, List.mem_filterMap]
  constructor
  · rintro ⟨e, he, heq⟩
    cases e with
    | scalar k' v' h =>
        obtain ⟨rfl, rfl⟩ := Prod.mk.inj (Option.some.inj heq)
        exact ⟨h, he⟩
    | allowedIps cs => cases heq
  · rintro ⟨h, he⟩
    exact ⟨_, he, rfl⟩

theorem cidrs_of_mem {p : PeerDoc} {cs : List (List Char)} (h : .allowedIps cs ∈ p.entries) :
    p.cidrs = cs := by
  refine flatMap_of_distinct PeerEntry.key "allowed_ips".toList p.distinct ?_ h rfl
  intro e he
  cases e with
  | scalar k v hk => rfl
  | allowedIps cs => exact absurd rfl he

theorem mem_cidrs {p : PeerDoc} {s : List Char} :
    s ∈ p.cidrs ↔ ∃ cs, .allowedIps cs ∈ p.entries ∧ s ∈ cs := by
  rw [cidrs, List.mem_flatMap]
  constructor
  · rintro ⟨e, he, hs⟩
    cases e with
    | scalar k v hk => cases hs
    | allowedIps cs => exact ⟨cs, he, hs⟩
  · rintro ⟨cs, he, hs⟩
    exact ⟨_, he, hs⟩

end PeerDoc

namespace RootEntry

def asScalar : RootEntry → Option (List Char × List Char)
  | scalar key value _ => some (key, value)
  | peers _ => none

def docs : RootEntry → List PeerDoc
  | scalar _ _ _ => []
  | peers docs => docs

end RootEntry

namespace ConfigDoc

/-- The scalar entries, with their keys. -/
def scalars (d : ConfigDoc) : List (List Char × List Char) :=
  d.entries.filterMap RootEntry.asScalar

/-- The list `peers`; empty if it is not there. -/
def peers (d : ConfigDoc) : List PeerDoc := d.entries.flatMap RootEntry.docs

theorem mem_scalars {d : ConfigDoc} {k v : List Char} :
    (k, v) ∈ d.scalars ↔ ∃ h, RootEntry.scalar k v h ∈ d.entries := by
  rw [scalars, List.mem_filterMap]
  constructor
  · rintro ⟨e, he, heq⟩
    cases e with
    | scalar k' v' h =>
        obtain ⟨rfl, rfl⟩ := Prod.mk.inj (Option.some.inj heq)
        exact ⟨h, he⟩
    | peers docs => cases heq
  · rintro ⟨h, he⟩
    exact ⟨_, he, rfl⟩

theorem peers_of_mem {d : ConfigDoc} {docs : List PeerDoc} (h : .peers docs ∈ d.entries) :
    d.peers = docs := by
  refine flatMap_of_distinct RootEntry.key "peers".toList d.distinct ?_ h rfl
  intro e he
  cases e with
  | scalar k v hk => rfl
  | peers docs => exact absurd rfl he

end ConfigDoc

/-! ## Values -/

/-- `v` is `host:port`, split at its last colon, and the host resolves. -/
def IsEndpoint (env : LoadEnv) (v : List Char) (e : Endpoint) : Prop :=
  ∃ tail, v = e.host ++ ':' :: tail ∧ ':' ∉ tail ∧ e.host ≠ [] ∧ e.port = atoi tail ∧
    1 ≤ e.port ∧ e.port ≤ 65535 ∧ env.getaddrinfo e.host e.port = some e.addr

theorem IsEndpoint.unique {env : LoadEnv} {v : List Char} {e e' : Endpoint}
    (h : IsEndpoint env v e) (h' : IsEndpoint env v e') : e = e' := by
  obtain ⟨t, hv, ht, -, hport, -, -, haddr⟩ := h
  obtain ⟨t', hv', ht', -, hport', -, -, haddr'⟩ := h'
  have hsplit := splitLast_eq_some.mpr ⟨hv, ht⟩
  rw [splitLast_eq_some.mpr ⟨hv', ht'⟩, Option.some.injEq, Prod.mk.injEq] at hsplit
  obtain ⟨hhost, rfl⟩ := hsplit
  obtain ⟨host, port, addr⟩ := e
  obtain ⟨host', port', addr'⟩ := e'
  simp only at hhost hport hport' haddr haddr'
  subst hhost
  rw [hport, hport'] at *
  rw [haddr'] at haddr
  rw [Option.some.inj haddr]

/-- An endpoint that fits its buffer is read as what it says. -/
theorem readEndpoint_eq_some {env : LoadEnv} {v : List Char} (hv : v.length ≤ 254)
    {e : Endpoint} : readEndpoint env v = some e ↔ IsEndpoint env v e := by
  rw [readEndpoint, List.take_of_length_le (by omega)]
  constructor
  · intro h
    split at h
    · cases h
    · rename_i host tail hsplit
      obtain ⟨hs, ht⟩ := splitLast_eq_some.mp hsplit
      split at h
      · cases h
      · rename_i hhost
        split at h
        · cases h
        · rename_i hport
          obtain ⟨addr, haddr, rfl⟩ := Option.map_eq_some_iff.mp h
          exact ⟨tail, hs, ht, hhost, rfl, by simp only; omega, by simp only; omega, haddr⟩
  · rintro ⟨tail, hs, ht, hhost, hport, hlo, hhi, haddr⟩
    rw [splitLast_eq_some.mpr ⟨hs, ht⟩]
    simp only [if_neg hhost]
    rw [if_neg (by omega), ← hport, haddr]
    rfl

variable {O : OpenSSL}

theorem hexKey_eq_some {env : LoadEnv} {v : List Char} {b : O.suite.Block} :
    hexKey env v = some b ↔ hexToBytes env.gnu v DH_PUBKEY_LEN = some (blockBytes b) := by
  unfold hexKey
  split
  · rename_i h
    rw [h]
    exact ⟨nofun, nofun⟩
  · rename_i bytes h
    constructor
    · intro heq
      obtain rfl := Option.some.inj heq
      exact h
    · intro heq
      have hbytes : bytes = blockBytes b := Option.some.inj (h.symm.trans heq)
      exact congrArg some (blockBytes_injective hbytes)

/-! ## Peers -/

/-- The mapping has at most 16 allowed addresses, all in the notation `parse_cidr` reads, and if it
has a key or an endpoint, these can be read. -/
structure PeerDoc.Valid (env : LoadEnv) (p : PeerDoc) : Prop where
  pub : ∀ v, ("public_key".toList, v) ∈ p.scalars →
    (hexToBytes env.gnu v DH_PUBKEY_LEN).isSome = true
  endpoint : ∀ v, ("endpoint".toList, v) ∈ p.scalars → ∃ e, IsEndpoint env v e
  count : p.cidrs.length ≤ MAX_ROUTES_PER_PEER
  routes : ∀ s ∈ p.cidrs, (parseCidr s).isSome = true

/-- The entry of `peer_configs[]` a mapping stands for: its own key, endpoint and routes in order,
and zero where it says nothing. -/
structure PeerDoc.Describes (env : LoadEnv) (p : PeerDoc) (pc : PeerConfig O.suite) : Prop where
  pub : Given p.scalars "public_key".toList
    (fun v b => hexToBytes env.gnu v DH_PUBKEY_LEN = some (blockBytes b)) O.suite.zero pc.pub
  endpoint : Given p.scalars "endpoint".toList (fun v x => ∃ e, IsEndpoint env v e ∧ x = (true, e))
    (false, ⟨[], 0, .zero⟩) (pc.hasEndpoint, ⟨pc.endpointHost, pc.endpointPort, pc.endpoint⟩)
  routes : List.Forall₂ (fun s r => parseCidr s = some r) p.cidrs pc.routes
  lastAttempt : pc.lastAttempt = 0

/-- The endpoint fits its buffer. -/
def PeerDoc.Fits (p : PeerDoc) : Prop := ∀ v, ("endpoint".toList, v) ∈ p.scalars → v.length ≤ 254

/-- The routes of an `allowed_ips` list. -/
theorem foldlM_addRoute {S : Suite} (cs : List (List Char)) {pc pc' : PeerConfig S} :
    cs.foldlM (fun pc s => addRoute s pc) pc = some pc' ↔
      ∃ rs, List.Forall₂ (fun s r => parseCidr s = some r) cs rs ∧
        (cs = [] ∨ pc.routes.length + cs.length ≤ MAX_ROUTES_PER_PEER) ∧
        pc' = { pc with routes := pc.routes ++ rs } :=
  foldlM_push_eq_some PeerConfig.routes (fun pc rs => { pc with routes := rs })
    (fun _ _ => rfl) (fun _ _ => rfl) (fun _ _ _ => rfl) (fun _ => rfl) cs

/-- What an entry of a peer mapping does when it succeeds. -/
inductive PeerEntry.Applied (env : LoadEnv) (pc : PeerConfig O.suite) :
    PeerEntry → PeerConfig O.suite → Prop
  | pub {v h b} (hb : hexKey env v = some b) :
      Applied env pc (.scalar "public_key".toList v h) { pc with pub := b }
  | endpoint {v h e} (he : readEndpoint env v = some e) :
      Applied env pc (.scalar "endpoint".toList v h) (pc.setEndpoint e)
  | other {k v h} (hpub : k ≠ "public_key".toList) (hend : k ≠ "endpoint".toList) :
      Applied env pc (.scalar k v h) pc
  | routes {cs rs} (hrs : List.Forall₂ (fun s r => parseCidr s = some r) cs rs)
      (hlen : cs = [] ∨ pc.routes.length + cs.length ≤ MAX_ROUTES_PER_PEER) :
      Applied env pc (.allowedIps cs) { pc with routes := pc.routes ++ rs }

theorem PeerEntry.apply_eq_some {env : LoadEnv} {pc pc' : PeerConfig O.suite} {e : PeerEntry} :
    e.apply env pc = some pc' ↔ e.Applied env pc pc' := by
  cases e with
  | scalar k v hk =>
      show setPeer env k v pc = some pc' ↔ _
      unfold setPeer
      by_cases hpub : k = "public_key".toList
      · subst hpub
        rw [if_pos rfl, Option.map_eq_some_iff]
        constructor
        · rintro ⟨b, hb, rfl⟩
          exact .pub hb
        · intro h
          cases h with
          | pub hb => exact ⟨_, hb, rfl⟩
          | other hpub _ => exact absurd rfl hpub
      · rw [if_neg hpub]
        by_cases hend : k = "endpoint".toList
        · subst hend
          rw [if_pos rfl, Option.map_eq_some_iff]
          constructor
          · rintro ⟨e, he, rfl⟩
            exact .endpoint he
          · intro h
            cases h with
            | endpoint he => exact ⟨_, he, rfl⟩
            | other _ hend => exact absurd rfl hend
        · rw [if_neg hend]
          constructor
          · intro h
            obtain rfl := Option.some.inj h
            exact .other hpub hend
          · intro h
            cases h with
            | pub _ => exact absurd rfl hpub
            | endpoint _ => exact absurd rfl hend
            | other _ _ => rfl
  | allowedIps cs =>
      show cs.foldlM (fun pc s => addRoute s pc) pc = some pc' ↔ _
      rw [foldlM_addRoute cs]
      constructor
      · rintro ⟨rs, hrs, hlen, rfl⟩
        exact .routes hrs hlen
      · intro h
        cases h with
        | routes hrs hlen => exact ⟨_, hrs, hlen, rfl⟩

namespace PeerDoc

variable {env : LoadEnv} {p : PeerDoc} {pc : PeerConfig O.suite}

/-- Entries of a peer mapping, read one after another into a zeroed entry. -/
def read (env : LoadEnv) (p : PeerDoc) : Option (PeerConfig O.suite) :=
  p.entries.foldlM (PeerEntry.apply env) (.zero O.suite)

/-- One part of the entry, set by one scalar. -/
theorem given_of_read {τ : Type} (get : PeerConfig O.suite → τ) (name : List Char)
    (R : List Char → τ → Prop) (hname : name ≠ "allowed_ips".toList)
    (hset : ∀ pc v hk pc', PeerEntry.Applied env pc (.scalar name v hk) pc' → R v (get pc'))
    (hkeep : ∀ pc e pc', PeerEntry.Applied env pc e pc' → e.key ≠ name → get pc' = get pc)
    (h : p.read env = some pc) : Given p.scalars name R (get (.zero O.suite)) (get pc) := by
  have hgiven := foldlM_given PeerEntry.key get name
    (fun e x => ∀ v hk, e = .scalar name v hk → R v x)
    (fun pc e pc' happ _ _ v hk heq => hset pc v hk pc' (heq ▸ PeerEntry.apply_eq_some.mp happ))
    (fun pc e pc' happ hne => hkeep pc e pc' (PeerEntry.apply_eq_some.mp happ) hne)
    p.entries p.distinct rfl h
  refine ⟨?_, ?_⟩
  · intro v hv
    obtain ⟨hk, hmem⟩ := mem_scalars.mp hv
    exact hgiven.1 _ hmem rfl v hk rfl
  · intro hnone
    refine hgiven.2 (fun e he heq => ?_)
    cases e with
    | scalar k v hk =>
        obtain rfl : k = name := heq
        exact hnone v (mem_scalars.mpr ⟨hk, he⟩)
    | allowedIps cs => exact hname heq.symm

theorem read_pub (h : p.read env = some pc) :
    Given p.scalars "public_key".toList
      (fun v b => hexToBytes env.gnu v DH_PUBKEY_LEN = some (blockBytes b)) O.suite.zero
      pc.pub := by
  refine given_of_read PeerConfig.pub _ _ (by decide) ?_ ?_ h
  · intro pc v hk pc' happ
    cases happ with
    | pub hb => exact hexKey_eq_some.mp hb
    | other hpub _ => exact absurd rfl hpub
  · intro pc e pc' happ hne
    cases happ with
    | pub _ => exact absurd rfl hne
    | endpoint _ => rfl
    | other _ _ => rfl
    | routes _ _ => rfl

theorem read_endpoint (hfits : p.Fits) (h : p.read env = some pc) :
    Given p.scalars "endpoint".toList (fun v x => ∃ e, IsEndpoint env v e ∧ x = (true, e))
      (false, ⟨[], 0, .zero⟩)
      (pc.hasEndpoint, ⟨pc.endpointHost, pc.endpointPort, pc.endpoint⟩) := by
  have hread : Given p.scalars "endpoint".toList
      (fun v x => ∃ e, readEndpoint env v = some e ∧ x = (true, e)) (false, ⟨[], 0, .zero⟩)
      (pc.hasEndpoint, ⟨pc.endpointHost, pc.endpointPort, pc.endpoint⟩) := by
    refine given_of_read
      (fun pc => (pc.hasEndpoint, Endpoint.mk pc.endpointHost pc.endpointPort pc.endpoint))
      _ _ (by decide) ?_ ?_ h
    · intro pc v hk pc' happ
      cases happ with
      | endpoint he => exact ⟨_, he, rfl⟩
      | other _ hend => exact absurd rfl hend
    · intro pc e pc' happ hne
      cases happ with
      | pub _ => rfl
      | endpoint _ => exact absurd rfl hne
      | other _ _ => rfl
      | routes _ _ => rfl
  refine hread.imp ?_
  rintro v hv ⟨e, he, hx⟩
  exact ⟨e, (readEndpoint_eq_some (hfits v hv)).mp he, hx⟩

/-- The routes are those of `allowed_ips`, and there are at most 16. -/
theorem read_routes (h : p.read env = some pc) :
    List.Forall₂ (fun s r => parseCidr s = some r) p.cidrs pc.routes ∧
      p.cidrs.length ≤ MAX_ROUTES_PER_PEER := by
  have hgiven := foldlM_given PeerEntry.key PeerConfig.routes "allowed_ips".toList
    (fun e rs => ∀ cs, e = .allowedIps cs →
      List.Forall₂ (fun s r => parseCidr s = some r) cs rs ∧ cs.length ≤ MAX_ROUTES_PER_PEER)
    ?_ ?_ p.entries p.distinct (show PeerConfig.routes (.zero O.suite) = [] from rfl) h
  · by_cases hmem : ∃ cs, .allowedIps cs ∈ p.entries
    · obtain ⟨cs, hcs⟩ := hmem
      rw [cidrs_of_mem hcs]
      exact hgiven.1 _ hcs rfl cs rfl
    · have hnil : p.cidrs = [] := by
        rw [List.eq_nil_iff_forall_not_mem]
        intro s hs
        obtain ⟨cs, hcs, -⟩ := mem_cidrs.mp hs
        exact hmem ⟨cs, hcs⟩
      have hroutes : pc.routes = [] := by
        refine hgiven.2 (fun e he heq => ?_)
        cases e with
        | scalar k v hk => exact hk heq
        | allowedIps cs => exact hmem ⟨cs, he⟩
      rw [hnil, hroutes]
      exact ⟨.nil, Nat.zero_le _⟩
  · rintro pc e pc' happ - hempty cs rfl
    cases PeerEntry.apply_eq_some.mp happ with
    | routes hrs hlen =>
        rw [hempty, List.nil_append]
        refine ⟨hrs, ?_⟩
        rcases hlen with rfl | hlen
        · exact Nat.zero_le _
        · rwa [hempty, List.length_nil, Nat.zero_add] at hlen
  · intro pc e pc' happ hne
    cases PeerEntry.apply_eq_some.mp happ with
    | pub _ => rfl
    | endpoint _ => rfl
    | other _ _ => rfl
    | routes _ _ => exact absurd rfl hne

theorem read_lastAttempt (h : p.read env = some pc) : pc.lastAttempt = 0 := by
  -- no key sets it
  refine foldlM_keep (fun _ => false) PeerConfig.lastAttempt true ?_ p.entries nofun h
  intro pc e pc' happ _
  cases PeerEntry.apply_eq_some.mp happ <;> rfl

/-- What is read from a mapping is what it describes. -/
theorem describes_of_read (hfits : p.Fits) (h : p.read env = some pc) : p.Describes env pc :=
  ⟨read_pub h, read_endpoint hfits h, (read_routes h).1, read_lastAttempt h⟩

theorem valid_of_read (hfits : p.Fits) (h : p.read (O := O) env = some pc) : p.Valid env where
  pub v hv := by
    rw [(read_pub h).1 v hv]
    rfl
  endpoint v hv := by
    obtain ⟨e, he, -⟩ := (read_endpoint hfits h).1 v hv
    exact ⟨e, he⟩
  count := (read_routes h).2
  routes := exists_forall₂_iff.mp ⟨_, (read_routes h).1⟩

/-- An entry of a valid mapping succeeds; a list of routes has to find none there yet. -/
theorem Valid.applied (hv : p.Valid env) (hfits : p.Fits) {e : PeerEntry} (he : e ∈ p.entries)
    (hfresh : e.key = "allowed_ips".toList → pc.routes = []) :
    ∃ pc', PeerEntry.Applied env pc e pc' := by
  cases e with
  | scalar k v hk =>
      have hmem : (k, v) ∈ p.scalars := mem_scalars.mpr ⟨hk, he⟩
      by_cases hpub : k = "public_key".toList
      · subst hpub
        obtain ⟨bytes, hbytes⟩ := Option.isSome_iff_exists.mp (hv.pub v hmem)
        have hkey : hexKey env v = some (blockOf (O := O) bytes (hexToBytes_length hbytes)) :=
          hexKey_eq_some.mpr hbytes
        exact ⟨_, .pub hkey⟩
      · by_cases hend : k = "endpoint".toList
        · subst hend
          obtain ⟨e, he⟩ := hv.endpoint v hmem
          exact ⟨_, .endpoint ((readEndpoint_eq_some (hfits v hmem)).mpr he)⟩
        · exact ⟨_, .other hpub hend⟩
  | allowedIps cs =>
      have hcs := cidrs_of_mem he
      obtain ⟨rs, hrs⟩ := exists_forall₂_iff.mpr (hcs ▸ hv.routes)
      refine ⟨_, .routes hrs (Or.inr ?_)⟩
      rw [hfresh rfl, List.length_nil, Nat.zero_add, ← hcs]
      exact hv.count

/-- A valid mapping can be read. -/
theorem Valid.read (hv : p.Valid env) (hfits : p.Fits) :
    ∃ pc : PeerConfig O.suite, p.read env = some pc := by
  -- a suffix of the entries, as long as a list of routes in it is still to come
  have general : ∀ (es : List PeerEntry) (pc : PeerConfig O.suite), (∀ e ∈ es, e ∈ p.entries) →
      (es.map PeerEntry.key).Nodup →
      ((∃ e ∈ es, e.key = "allowed_ips".toList) → pc.routes = []) →
      ∃ pc', es.foldlM (PeerEntry.apply env) pc = some pc' := by
    intro es
    induction es with
    | nil => exact fun pc _ _ _ => ⟨pc, rfl⟩
    | cons e es ih =>
        intro pc hsub hnodup hfresh
        rw [List.map_cons, List.nodup_cons] at hnodup
        obtain ⟨pc₁, happ⟩ := hv.applied hfits (hsub e List.mem_cons_self)
          (fun hkey => hfresh ⟨e, List.mem_cons_self, hkey⟩)
        have hrest : (∃ x ∈ es, x.key = "allowed_ips".toList) → pc₁.routes = [] := by
          rintro ⟨x, hx, hkey⟩
          have hempty := hfresh ⟨x, List.mem_cons_of_mem _ hx, hkey⟩
          cases happ with
          | pub _ => exact hempty
          | endpoint _ => exact hempty
          | other _ _ => exact hempty
          | routes _ _ =>
              refine absurd ?_ hnodup.1
              rw [show PeerEntry.key (.allowedIps _) = "allowed_ips".toList from rfl, ← hkey]
              exact List.mem_map_of_mem hx
        obtain ⟨pc', hpc'⟩ := ih pc₁ (fun x hx => hsub x (List.mem_cons_of_mem _ hx)) hnodup.2 hrest
        refine ⟨pc', ?_⟩
        rw [List.foldlM_cons, PeerEntry.apply_eq_some.mpr happ]
        exact hpc'
  exact general p.entries _ (fun _ he => he) p.distinct (fun _ => rfl)

/-- A mapping describes one entry. -/
theorem Describes.unique {pc pc' : PeerConfig O.suite} (h : p.Describes env pc)
    (h' : p.Describes env pc') : pc = pc' := by
  have hpub : pc.pub = pc'.pub := h.pub.unique (fun v b b' hb hb' =>
    blockBytes_injective (Option.some.inj (hb.symm.trans hb'))) h'.pub
  have hend := h.endpoint.unique (fun v x x' hx hx' => by
    obtain ⟨e, he, rfl⟩ := hx
    obtain ⟨e', he', rfl⟩ := hx'
    rw [he.unique he']) h'.endpoint
  have hroutes : pc.routes = pc'.routes := by
    have hfun : Relator.RightUnique (fun s r => parseCidr s = some r) :=
      fun s r r' hr hr' => Option.some.inj (hr.symm.trans hr')
    exact hfun.forall₂ h.routes h'.routes
  have hlast : pc.lastAttempt = pc'.lastAttempt := by rw [h.lastAttempt, h'.lastAttempt]
  obtain ⟨pub, routes, hasEndpoint, endpoint, host, port, lastAttempt⟩ := pc
  obtain ⟨pub', routes', hasEndpoint', endpoint', host', port', lastAttempt'⟩ := pc'
  simp only [Prod.mk.injEq, Endpoint.mk.injEq] at hpub hend hroutes hlast
  obtain ⟨rfl, rfl, rfl, rfl⟩ := hend
  subst hpub hroutes hlast
  rfl

end PeerDoc

/-! ## Documents -/

/-- At most 64 peers, all valid. -/
structure ConfigDoc.Valid (env : LoadEnv) (d : ConfigDoc) : Prop where
  count : d.peers.length ≤ MAX_PEERS
  peers : ∀ p ∈ d.peers, p.Valid env

namespace RootKey

variable {S : Suite}

/-- The type of the setting behind a key. -/
def Value : RootKey → Type
  | interface | address | privateKeyFile => List Char
  | preSharedKey => List Char × Bool
  | _ => Int

/-- The setting behind a key. -/
def get (c : Config S) : (k : RootKey) → k.Value
  | interface => c.tunnel
  | address => c.address
  | port => c.port
  | keepaliveInterval => c.settings.keepaliveInterval
  | rekeyAfter => c.settings.rekeyAfter
  | reconnectInterval => c.settings.reconnectInterval
  | sessionExpiry => c.settings.sessionExpiry
  | prevKeyGrace => c.settings.prevKeyGrace
  | handshakeTimeout => c.settings.handshakeTimeout
  | handshakeCooldown => c.settings.handshakeCooldown
  | workerThreads => c.workerThreads
  | privateKeyFile => c.keyfile
  | verbose => c.logLevel
  | preSharedKey => (c.psk, c.hasPsk)

/-- What a value in the document means for the setting `old`: the text itself, or the number `atoi`
reads; `verbose` raises the level by `true` and by no other value. -/
def meaning (v : List Char) : (k : RootKey) → k.Value → k.Value
  | interface, _ => v
  | address, _ => v
  | privateKeyFile, _ => v
  | preSharedKey, _ => (v, true)
  | verbose, old => if v = "true".toList then (1 : Int) else old
  | port, _ => atoi v
  | keepaliveInterval, _ => atoi v
  | rekeyAfter, _ => atoi v
  | reconnectInterval, _ => atoi v
  | sessionExpiry, _ => atoi v
  | prevKeyGrace, _ => atoi v
  | handshakeTimeout, _ => atoi v
  | handshakeCooldown, _ => atoi v
  | workerThreads, _ => atoi v

/-- How many characters the buffer of a text setting holds. -/
def room : RootKey → Option Nat
  | interface => some 15
  | address => some 63
  | privateKeyFile => some 255
  | preSharedKey => some 255
  | _ => none

/-- A key sets its own setting. -/
theorem get_set (k : RootKey) (v : List Char) (c : Config S)
    (h : ∀ n, k.room = some n → v.length ≤ n) :
    k.get (k.set v c) = k.meaning v (k.get c) := by
  cases k with
  | interface => exact List.take_of_length_le (h 15 rfl)
  | address => exact List.take_of_length_le (h 63 rfl)
  | privateKeyFile => exact List.take_of_length_le (h 255 rfl)
  | preSharedKey => exact congrArg (·, true) (List.take_of_length_le (h 255 rfl))
  | _ => rfl

/-- A key leaves the other settings alone. -/
theorem get_set_of_ne {k k' : RootKey} (h : k' ≠ k) (v : List Char) (c : Config S) :
    k.get (k'.set v c) = k.get c := by
  cases k <;> cases k' <;> first | rfl | exact absurd rfl h

theorem get_peers (k : RootKey) (c : Config S) (ps : List (PeerConfig S)) :
    k.get { c with peers := ps } = k.get c := by
  cases k <;> rfl

/-- The settings and the peers are the whole configuration. -/
theorem eq_of_get {c c' : Config S} (h : ∀ k : RootKey, k.get c = k.get c')
    (hpeers : c.peers = c'.peers) : c = c' := by
  obtain ⟨tunnel, address, port, keyfile, psk, hasPsk, level, threads, settings, peers⟩ := c
  obtain
    ⟨tunnel', address', port', keyfile', psk', hasPsk', level', threads', settings', peers'⟩ := c'
  obtain ⟨rekey, reconnect, expiry, grace, timeout, cooldown, keep⟩ := settings
  obtain ⟨rekey', reconnect', expiry', grace', timeout', cooldown', keep'⟩ := settings'
  obtain rfl : tunnel = tunnel' := h interface
  obtain rfl : address = address' := h RootKey.address
  obtain rfl : port = port' := h RootKey.port
  obtain rfl : keyfile = keyfile' := h privateKeyFile
  obtain ⟨rfl, rfl⟩ : psk = psk' ∧ hasPsk = hasPsk' := Prod.mk.inj (h preSharedKey)
  obtain rfl : level = level' := h verbose
  obtain rfl : threads = threads' := h workerThreads
  obtain rfl : rekey = rekey' := h rekeyAfter
  obtain rfl : reconnect = reconnect' := h reconnectInterval
  obtain rfl : expiry = expiry' := h sessionExpiry
  obtain rfl : grace = grace' := h prevKeyGrace
  obtain rfl : timeout = timeout' := h handshakeTimeout
  obtain rfl : cooldown = cooldown' := h handshakeCooldown
  obtain rfl : keep = keep' := h keepaliveInterval
  obtain rfl : peers = peers' := hpeers
  rfl

end RootKey

/-- The configuration a document stands for: every setting is the value given for its key, or what
it was before; the peers are those of the document, in its order. -/
structure ConfigDoc.Describes (env : LoadEnv) (init : Config O.suite) (d : ConfigDoc)
    (c : Config O.suite) : Prop where
  settings : ∀ k : RootKey, Given d.scalars k.name (fun v x => x = k.meaning v (k.get init))
    (k.get init) (k.get c)
  peers : List.Forall₂ (PeerDoc.Describes env) d.peers c.peers

/-- The strings fit their buffers. -/
structure ConfigDoc.Fits (d : ConfigDoc) : Prop where
  settings : ∀ (k : RootKey) v, (k.name, v) ∈ d.scalars → ∀ n, k.room = some n → v.length ≤ n
  peers : ∀ p ∈ d.peers, p.Fits

end Lanecove
