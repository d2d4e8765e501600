import Lanecove.Config.Documented
import Lanecove.Config.Reader
import Lanecove.Safety.TableInvariant

set_option autoImplicit false

/-! # The required fields of a peer

The documentation calls `public_key` and `allowed_ips` of a peer required. Nothing checks that they
are there: the loader knows only the entries it meets, and the validation of `main` counts peers
without looking at them. `peerFields` is what the loader meets in a stream, peer by peer. The
entries of `peer_configs[]` are complete exactly if each peer got a value for its key and at least
one allowed address (`required_fields_iff`), and then every session that is ever installed has a
route. A peer whose `allowed_ips` is a single string instead of a list is accepted without routes,
and its session lets every source address through (`peer_without_routes_accepted`).
-/

namespace Lanecove

variable {O : OpenSSL} {env : LoadEnv}

/-! ## What a stream gives its peers -/

/-- The values a peer gets for `public_key` and the entries of its `allowed_ips` lists. -/
structure PeerFields where
  publicKeys : List (List Char)
  allowedIps : List (List Char)
  deriving DecidableEq

/-- Change the fields of the last peer. -/
def PeerFields.atLast (f : PeerFields → PeerFields) (fs : List PeerFields) : List PeerFields :=
  fs.dropLast ++ (fs.getLast?.map f).toList

/-- The fields of the peers after one more assignment. -/
def PeerFields.give (fs : List PeerFields) : Assignment → List PeerFields
  | .setting _ _ => fs
  | .newPeer => fs ++ [⟨[], []⟩]
  | .publicKey v => atLast (fun f => { f with publicKeys := f.publicKeys ++ [v] }) fs
  | .endpoint _ => fs
  | .route v => atLast (fun f => { f with allowedIps := f.allowedIps ++ [v] }) fs

/-- What a stream gives each of its peers. A peer begins with the start of a mapping in the list of
peers. -/
def peerFields (evs : List YamlEvent) : List PeerFields :=
  (assignments evs).foldl PeerFields.give []

namespace PeerFields

theorem atLast_concat (f : PeerFields → PeerFields) (fs : List PeerFields) (x : PeerFields) :
    atLast f (fs ++ [x]) = fs ++ [f x] := by
  simp [atLast]

/-- The peer got a key, and at least one allowed address. -/
structure HasRequired (f : PeerFields) : Prop where
  publicKey : f.publicKeys ≠ []
  allowedIps : f.allowedIps ≠ []

/-- What the entry of a peer has from its fields: the last key, and the routes. -/
structure Read (env : LoadEnv) (f : PeerFields) (pc : PeerConfig O.suite) : Prop where
  pub : ∀ v, f.publicKeys.getLast? = some v →
    hexToBytes env.gnu v DH_PUBKEY_LEN = some (blockBytes pc.pub)
  routes : List.Forall₂ (fun s r => parseCidr s = some r) f.allowedIps pc.routes

/-- The entry has its key from a `public_key` that could be read and its routes, of which there
is at least one, from `allowed_ips`. -/
structure Supplies (env : LoadEnv) (f : PeerFields) (pc : PeerConfig O.suite) : Prop where
  pub : ∃ v ∈ f.publicKeys, hexToBytes env.gnu v DH_PUBKEY_LEN = some (blockBytes pc.pub)
  routes : List.Forall₂ (fun s r => parseCidr s = some r) f.allowedIps pc.routes
  routeCount : 1 ≤ pc.routes.length

theorem Supplies.hasRequired {f : PeerFields} {pc : PeerConfig O.suite} (h : f.Supplies env pc) :
    f.HasRequired := by
  obtain ⟨v, hv, -⟩ := h.pub
  refine ⟨List.ne_nil_of_mem hv, fun hnil => ?_⟩
  have hcount := h.routeCount
  rw [← h.routes.length_eq, hnil, List.length_nil] at hcount
  omega

theorem HasRequired.supplies {f : PeerFields} {pc : PeerConfig O.suite} (h : f.HasRequired)
    (hread : f.Read env pc) : f.Supplies env pc := by
  have hlast := List.getLast?_eq_some_getLast h.publicKey
  refine ⟨⟨_, List.getLast_mem h.publicKey, hread.pub _ hlast⟩, hread.routes, ?_⟩
  rw [← hread.routes.length_eq]
  exact List.length_pos_of_ne_nil h.allowedIps

/-- A change of the last entry, and of its fields. -/
theorem Read.atLast {fs : List PeerFields} {ps : List (PeerConfig O.suite)}
    {pc pc' : PeerConfig O.suite} (h : List.Forall₂ (Read env) fs (ps ++ [pc]))
    {g : PeerFields → PeerFields} (hg : ∀ f, Read env f pc → Read env (g f) pc') :
    List.Forall₂ (Read env) (PeerFields.atLast g fs) (ps ++ [pc']) := by
  obtain ⟨fs₀, f, rfl, hfs, hf⟩ := forall₂_concat_right h
  rw [atLast_concat]
  exact List.rel_append hfs (.cons (hg f hf) .nil)

/-- **One assignment.** -/
theorem Read.assigned {fs : List PeerFields} {c c' : Config O.suite} {a : Assignment}
    (h : List.Forall₂ (Read env) fs c.peers) (ha : Assigned env c a c') :
    List.Forall₂ (Read env) (give fs a) c'.peers := by
  cases ha with
  | setting k v =>
      rw [RootKey.peers_set]
      exact h
  | newPeer _ => exact List.rel_append h (.cons ⟨fun v hv => (by cases hv), .nil⟩ .nil)
  | @publicKey v ps pc pub hc hpub =>
      rw [hc] at h
      refine Read.atLast h fun f hf => ⟨fun w hw => ?_, hf.routes⟩
      rw [List.getLast?_concat] at hw
      obtain rfl := Option.some.inj hw
      exact hexKey_eq_some.mp hpub
  | endpoint hc _ =>
      rw [hc] at h
      obtain ⟨fs₀, f, rfl, hfs, hf⟩ := forall₂_concat_right h
      exact List.rel_append hfs (.cons ⟨hf.pub, hf.routes⟩ .nil)
  | route hc _ hr =>
      rw [hc] at h
      exact Read.atLast h fun f hf => ⟨hf.pub, List.rel_append hf.routes (.cons hr .nil)⟩

/-- The assignments of a list. -/
theorem Read.assign {fs : List PeerFields} {c c' : Config O.suite} {as : List Assignment}
    (h : List.Forall₂ (Read env) fs c.peers) (has : assign env c as = some c') :
    List.Forall₂ (Read env) (as.foldl give fs) c'.peers := by
  induction as generalizing fs c with
  | nil =>
      cases has
      exact h
  | cons a as ih =>
      rw [assign_cons] at has
      obtain ⟨c₁, hc₁, hrest⟩ := Option.bind_eq_some_iff.mp has
      exact ih (Read.assigned h (Assignment.apply_cases hc₁)) hrest

theorem supplies_iff {fs : List PeerFields} {ps : List (PeerConfig O.suite)}
    (h : List.Forall₂ (Read env) fs ps) :
    List.Forall₂ (Supplies env) fs ps ↔ ∀ f ∈ fs, f.HasRequired := by
  constructor
  · intro hall f hf
    obtain ⟨pc, -, hpc⟩ := exists_of_forall₂_mem hall hf
    exact hpc.hasRequired
  · intro hreq
    have hboth : List.Forall₂ (fun f pc => f.HasRequired ∧ f.Read env pc) fs ps :=
      (List.forall₂_and_left _ _).mpr ⟨hreq, h⟩
    exact hboth.imp (fun f pc hf => hf.1.supplies hf.2)

end PeerFields

/-! ## Sessions -/

/-- Sessions have the routes of a configured peer. -/
theorem session_routes_of_configs {S : Suite} {cfgs : List (PeerConfig S)}
    (hcfgs : ∀ pc ∈ cfgs, 1 ≤ pc.routes.length) (ctx : LoopCtx S) (fresh : Option S.Priv)
    (is : List (Input S)) (i : Fin MAX_PEERS)
    (hi : (((node ctx).run (Node.init cfgs fresh, []) is).1.table.sessions i).active = true) :
    1 ≤ (((node ctx).run (Node.init cfgs fresh, []) is).1.table.sessions i).routes.length := by
  obtain ⟨hinv, hfixed⟩ := tableInv_run ctx cfgs fresh is
  obtain ⟨cfg, hmem, -, hroutes⟩ := configured_mono hfixed.symm (hinv.configured i hi)
  rw [← hroutes]
  exact hcfgs cfg hmem

/-- With a route, the source check asks for a route that contains the source. -/
theorem checkAllowedSrc_eq_true {S : Suite} {s : Session S} (h : 1 ≤ s.routes.length)
    {ip : BitVec 32} (hsrc : checkAllowedSrc s ip = true) :
    ∃ r ∈ s.routes, r.contains ip = true := by
  rw [checkAllowedSrc, if_neg (by omega)] at hsrc
  exact List.any_eq_true.mp hsrc

/-- **The required fields of peers.** For every stream that is loaded, the entries of
`peer_configs[]` have their keys from readable `public_key` values and at least one route from
`allowed_ips` if and only if the stream gives every peer both fields. Then, in every run of the node
with these peers, every session has a route, and its source check lets only sources through that lie
in one of its routes. -/
theorem required_fields_iff (env : LoadEnv) (init c : Config O.suite) (evs : List YamlEvent)
    (hinit : init.peers = []) (hload : loadConfig env init evs = some c) :
    (List.Forall₂ (PeerFields.Supplies env) (peerFields evs) c.peers ↔
      ∀ f ∈ peerFields evs, f.HasRequired) ∧
    ((∀ f ∈ peerFields evs, f.HasRequired) →
      ∀ (ctx : LoopCtx O.suite) (fresh : Option O.suite.Priv) (is : List (Input O.suite))
        (i : Fin MAX_PEERS),
        let s := ((node ctx).run (Node.init c.peers fresh, []) is).1.table.sessions i
        s.active = true → 1 ≤ s.routes.length ∧
          ∀ ip, checkAllowedSrc s ip = true → ∃ r ∈ s.routes, r.contains ip = true) := by
  have hread : List.Forall₂ (PeerFields.Read env) (peerFields evs) c.peers := by
    refine PeerFields.Read.assign ?_ (loadConfig_eq_some hload)
    rw [hinit]
    exact .nil
  have hiff := PeerFields.supplies_iff hread
  refine ⟨hiff, ?_⟩
  intro hreq ctx fresh is i s hactive
  have hcfgs : ∀ pc ∈ c.peers, 1 ≤ pc.routes.length := by
    intro pc hpc
    obtain ⟨f, -, hf⟩ := exists_of_forall₂_mem (hiff.mpr hreq).flip hpc
    exact hf.routeCount
  have hroutes := session_routes_of_configs hcfgs ctx fresh is i hactive
  exact ⟨hroutes, fun ip hip => checkAllowedSrc_eq_true hroutes hip⟩

/-! ## A peer with its fields, and peers without -/

/-- An interface, and a peer with the two required fields. -/
def completeDoc : ConfigDoc where
  entries := [interfaceEntry, .peers [⟨[.scalar "public_key".toList onesHex
      publicKey_ne_allowedIps, .allowedIps ["10.9.0.0/24".toList]], by decide⟩]]
  distinct := by decide

/-- The peers, if the stream is loaded and the configuration is accepted. -/
def acceptedPeers (evs : List YamlEvent) : Option (List (PeerConfig xorOpenSSL.suite)) :=
  (loadConfig plainEnv (Config.default xorOpenSSL.suite) evs).bind fun c =>
    if c.Accepted then some c.peers else none

theorem exists_of_acceptedPeers {evs : List YamlEvent} (h : (acceptedPeers evs).isSome = true) :
    ∃ c, loadConfig plainEnv (Config.default xorOpenSSL.suite) evs = some c ∧ c.Accepted := by
  obtain ⟨ps, hps⟩ := Option.isSome_iff_exists.mp h
  obtain ⟨c, hc, hacc⟩ := Option.bind_eq_some_iff.mp hps
  refine ⟨c, hc, ?_⟩
  split at hacc
  · assumption
  · cases hacc

theorem required_fields_complete :
    ∃ c, loadConfig plainEnv (Config.default xorOpenSSL.suite) completeDoc.events = some c ∧
      c.Accepted ∧
      List.Forall₂ (PeerFields.Supplies plainEnv) (peerFields completeDoc.events) c.peers := by
  have hsome : (acceptedPeers completeDoc.events).isSome = true := by decide +kernel
  have hfields : peerFields completeDoc.events = [⟨[onesHex], ["10.9.0.0/24".toList]⟩] := by
    decide +kernel
  obtain ⟨c, hc, hacc⟩ := exists_of_acceptedPeers hsome
  refine ⟨c, hc, hacc, (required_fields_iff _ _ c completeDoc.events rfl hc).1.mpr ?_⟩
  intro f hf
  rw [hfields, List.mem_singleton] at hf
  rw [hf]
  exact ⟨List.cons_ne_nil _ _, List.cons_ne_nil _ _⟩

/-- The stream of a configuration with an interface and two peers: one without any field, and one
whose `allowed_ips` is a string. -/
def incompleteEvents : List YamlEvent :=
  [.streamStart, .documentStart, .mappingStart,
    .scalar "interface".toList, .scalar "tun0".toList,
    .scalar "peers".toList, .sequenceStart, .mappingStart, .mappingEnd,
    .mappingStart, .scalar "public_key".toList, .scalar onesHex,
    .scalar "allowed_ips".toList, .scalar "10.9.0.0/24".toList, .mappingEnd,
    .sequenceEnd, .mappingEnd, .documentEnd, .streamEnd]

/-- The node with static key `2` that has the given peers, after the peer of key `1` has sent its
initiation. -/
def afterInitiation (cfgs : List (PeerConfig xorOpenSSL.suite)) : Node xorOpenSSL.suite :=
  let ctx : LoopCtx xorOpenSSL.suite :=
    { Settings.default with staticKey := xorKey 2, pskKey := none }
  let pkt := OpenSSL.handshakePacket (xorKey 4) (xorOpenSSL.sealIdentity (xorKey 6) (xorKey 1)) none
  ((node ctx).run (Node.init cfgs (some (xorKey 8)), [])
    [.udp ⟨⟨1, 5040⟩, pkt, 100, 100, none, true, none⟩]).1

/-- Both peers are accepted without routes, one of them without a key; the other connects, and its
session lets every source through. -/
theorem peer_without_routes_accepted :
    peerFields incompleteEvents = [⟨[], []⟩, ⟨[onesHex], []⟩] ∧
    ∃ cfgs, acceptedPeers incompleteEvents = some cfgs ∧
      cfgs.map (fun pc => (blockBytes pc.pub, pc.routes.length))
        = [(List.replicate 32 0, 0), (List.replicate 32 1, 0)] ∧
      ((afterInitiation cfgs).table.sessions ⟨0, by decide⟩).active = true ∧
      blockBytes ((afterInitiation cfgs).table.sessions ⟨0, by decide⟩).staticPub
        = List.replicate 32 1 ∧
      ∀ ip, checkAllowedSrc ((afterInitiation cfgs).table.sessions ⟨0, by decide⟩) ip = true := by
  have hsome : (acceptedPeers incompleteEvents).isSome = true := by decide +kernel
  have hpeers : (acceptedPeers incompleteEvents).map
      (List.map fun pc => (blockBytes pc.pub, pc.routes.length))
      = some [(List.replicate 32 0, 0), (List.replicate 32 1, 0)] := by
    decide +kernel
  have hsession : (acceptedPeers incompleteEvents).map (fun cfgs =>
      let s := (afterInitiation cfgs).table.sessions ⟨0, by decide⟩
      (s.active, blockBytes s.staticPub, s.routes.length))
      = some (true, List.replicate 32 1, 0) := by
    decide +kernel
  obtain ⟨cfgs, hcfgs⟩ := Option.isSome_iff_exists.mp hsome
  rw [hcfgs, Option.map_some, Option.some.injEq] at hpeers hsession
  obtain ⟨hactive, hpub, hroutes⟩ : _ ∧ _ ∧ _ := by simpa only [Prod.mk.injEq] using hsession
  refine ⟨by decide +kernel, cfgs, hcfgs, hpeers, hactive, hpub, fun ip => ?_⟩
  rw [checkAllowedSrc, if_pos hroutes]

end Lanecove
