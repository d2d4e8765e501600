import Lanecove.Config.Documented
import Lanecove.Config.Required

set_option autoImplicit false

/-! # What the loader can leave behind

`load_config` takes events as they come, also in orders that the documentation does not know. After
any number of them it never looks at an entry of `peer_configs[]` before there is one, keeps to 64
entries and 16 routes, and what it keeps of a string leaves room for the terminator (`Loader.Safe`).
So whatever it returns has these bounds, routes that were written as CIDR, and endpoints that the
resolver knew (`Config.WellFormed`). For the buffer in which it splits an endpoint see
`Config/EndpointBuffers.lean`.
-/

namespace Lanecove

open CString

section Configs

variable {S : Suite} {env : LoadEnv}

/-- An entry of `peer_configs[]` as the loader leaves it. -/
structure PeerConfig.WellFormed (env : LoadEnv) (pc : PeerConfig S) : Prop where
  routeCount : pc.routes.length ≤ MAX_ROUTES_PER_PEER
  routes : ∀ r ∈ pc.routes, ∃ v, parseCidr v = some r
  endpoint : pc.hasEndpoint = true → pc.endpointHost ≠ [] ∧ pc.endpointHost.length < 256 ∧
    1 ≤ pc.endpointPort ∧ pc.endpointPort ≤ 65535 ∧
    env.getaddrinfo pc.endpointHost pc.endpointPort = some pc.endpoint

/-- A configuration as the loader leaves it. -/
structure Config.WellFormed (env : LoadEnv) (c : Config S) : Prop where
  tunnel : c.tunnel.length < 16
  address : c.address.length < 64
  keyfile : c.keyfile.length < 256
  psk : c.psk.length < 256
  peerCount : c.peers.length ≤ MAX_PEERS
  peers : ∀ pc ∈ c.peers, pc.WellFormed env

theorem PeerConfig.wellFormed_zero : (PeerConfig.zero S).WellFormed env where
  routeCount := Nat.zero_le _
  routes r hr := by cases hr
  endpoint h := by cases h

theorem Config.wellFormed_default : (Config.default S).WellFormed env where
  tunnel := Nat.zero_lt_succ _
  address := Nat.zero_lt_succ _
  keyfile := (by decide : "peer.key".toList.length < 256)
  psk := Nat.zero_lt_succ _
  peerCount := Nat.zero_le _
  peers pc hpc := by cases hpc

theorem length_take_lt {v : List Char} {k : Nat} : (v.take k).length < k + 1 :=
  Nat.lt_succ_of_le (List.length_take_le k v)

theorem RootKey.wellFormed_set {c : Config S} (h : c.WellFormed env) (k : RootKey)
    (v : List Char) : (k.set v c).WellFormed env := by
  cases k with
  | interface => exact { h with tunnel := length_take_lt }
  | address => exact { h with address := length_take_lt }
  | privateKeyFile => exact { h with keyfile := length_take_lt }
  | preSharedKey => exact { h with psk := length_take_lt }
  | _ => exact { h with }

/-- The last entry is replaced. -/
theorem Config.WellFormed.atLast {c : Config S} (h : c.WellFormed env)
    {ps : List (PeerConfig S)} {pc pc' : PeerConfig S} (hc : c.peers = ps ++ [pc])
    (hpc' : pc.WellFormed env → pc'.WellFormed env) :
    ({ c with peers := ps ++ [pc'] } : Config S).WellFormed env := by
  have hcount := h.peerCount
  rw [hc, List.length_append, List.length_singleton] at hcount
  refine { h with peerCount := ?_, peers := ?_ }
  · rw [List.length_append, List.length_singleton]
    exact hcount
  · intro q hq
    rcases List.mem_append.mp hq with hq | hq
    · exact h.peers q (by rw [hc]; exact List.mem_append_left _ hq)
    · rw [List.mem_singleton.mp hq]
      have hlast : pc ∈ c.peers := by
        rw [hc]
        exact List.mem_append_right _ (List.mem_singleton_self _)
      exact hpc' (h.peers pc hlast)

end Configs

section Load

variable {O : OpenSSL} {env : LoadEnv}

theorem readEndpoint_bounds {v : List Char} {e : Endpoint} (h : readEndpoint env v = some e) :
    e.host ≠ [] ∧ e.host.length < 256 ∧ 1 ≤ e.port ∧ e.port ≤ 65535 ∧
      env.getaddrinfo e.host e.port = some e.addr := by
  unfold readEndpoint at h
  split at h
  · cases h
  · rename_i host tail hsplit
    split at h
    · cases h
    · rename_i hhost
      split at h
      · cases h
      · rename_i hport
        obtain ⟨addr, haddr, rfl⟩ := Option.map_eq_some_iff.mp h
        have hlen : host.length < (v.take 255).length := by
          rw [(splitLast_eq_some.mp hsplit).1, List.length_append, List.length_cons]
          omega
        rw [not_or] at hport
        refine ⟨hhost, hlen.trans length_take_lt, ?_, ?_, haddr⟩ <;> dsimp only <;> omega

/-- **One assignment.** A route is written below the end of `routes[]`, and a peer below the end of
`peer_configs[]`. -/
theorem Config.WellFormed.assigned {c c' : Config O.suite} {a : Assignment} (h : c.WellFormed env)
    (ha : Assigned env c a c') : c'.WellFormed env := by
  cases ha with
  | setting k v => exact RootKey.wellFormed_set h k v
  | newPeer hroom =>
      refine { h with peerCount := ?_, peers := ?_ }
      · rw [List.length_append, List.length_singleton]
        omega
      · intro pc hpc
        rcases List.mem_append.mp hpc with hpc | hpc
        · exact h.peers pc hpc
        · rw [List.mem_singleton.mp hpc]
          exact PeerConfig.wellFormed_zero
  | publicKey hc _ => exact h.atLast hc fun hpc => { hpc with }
  | endpoint hc he =>
      exact h.atLast hc fun hpc => { hpc with endpoint := fun _ => readEndpoint_bounds he }
  | route hc hroom hr =>
      refine h.atLast hc fun hpc => { hpc with routeCount := ?_, routes := ?_ }
      · rw [List.length_append, List.length_singleton]
        omega
      · intro q hq
        rcases List.mem_append.mp hq with hq | hq
        · exact hpc.routes q hq
        · exact ⟨_, by rw [List.mem_singleton.mp hq]; exact hr⟩

/-- **The invariant of the loop.** -/
structure Loader.Safe (env : LoadEnv) (l : Loader O) : Prop where
  key : l.key.length < 64
  peerKey : l.peerKey.length < 64
  inPeer : l.state.inPeer = true → l.config.peers ≠ []
  config : l.config.WellFormed env

variable {l l' : Loader O}

theorem Loader.Safe.inPlace (h : l.Safe env) : l.InPlace := by
  intro hin
  obtain hnil | ⟨ps, pc, hpeers⟩ := l.config.peers.eq_nil_or_concat
  · exact absurd hnil (h.inPeer hin)
  · exact ⟨ps, pc, by rw [hpeers, List.concat_eq_append]⟩

/-- What is kept of a key fits its buffer. -/
theorem loadEvent_keys {ev : YamlEvent} (hev : loadEvent env l ev = some l')
    (hkey : l.key.length < 64) (hpeer : l.peerKey.length < 64) :
    l'.key.length < 64 ∧ l'.peerKey.length < 64 := by
  unfold loadEvent at hev
  split at hev
  · cases ev with
    | scalar v =>
        cases hev
        exact ⟨length_take_lt, hpeer⟩
    | _ => cases hev; exact ⟨hkey, hpeer⟩
  · cases ev with
    | sequenceStart =>
        simp only [onRootVal] at hev
        split at hev <;> cases hev <;> exact ⟨hkey, hpeer⟩
    | _ => cases hev; exact ⟨hkey, hpeer⟩
  · cases ev with
    | mappingStart =>
        simp only [onPeersSeq] at hev
        split at hev <;> cases hev
        exact ⟨hkey, hpeer⟩
    | _ => cases hev; exact ⟨hkey, hpeer⟩
  · cases ev with
    | scalar v =>
        cases hev
        exact ⟨hkey, length_take_lt⟩
    | _ => cases hev; exact ⟨hkey, hpeer⟩
  · cases ev with
    | scalar v =>
        obtain ⟨c, -, rfl⟩ := Option.map_eq_some_iff.mp hev
        exact ⟨hkey, hpeer⟩
    | sequenceStart =>
        simp only [onPeerVal] at hev
        split at hev <;> cases hev <;> exact ⟨hkey, hpeer⟩
    | _ => cases hev; exact ⟨hkey, hpeer⟩
  · cases ev with
    | scalar v =>
        obtain ⟨c, -, rfl⟩ := Option.map_eq_some_iff.mp hev
        exact ⟨hkey, hpeer⟩
    | _ => cases hev; exact ⟨hkey, hpeer⟩

/-- **One event.** -/
theorem Loader.Safe.event (h : l.Safe env) {ev : YamlEvent} (hev : loadEvent env l ev = some l') :
    l'.Safe env := by
  obtain ⟨hkey, hpeer⟩ := loadEvent_keys hev h.key h.peerKey
  obtain ⟨-, hassign⟩ := loadEvent_eq_some h.inPlace hev
  refine ⟨hkey, hpeer, fun hin => ?_, ?_⟩
  · obtain ⟨ps, pc, hpeers⟩ := h.inPlace.event hev hin
    rw [hpeers]
    exact List.append_ne_nil_of_right_ne_nil ps (List.cons_ne_nil pc [])
  · exact assign_invariant (fun _ _ _ _ hc ha => hc.assigned ha) h.config hassign

theorem Loader.safe_init : (⟨.root, [], [], Config.default O.suite⟩ : Loader O).Safe env where
  key := Nat.zero_lt_succ _
  peerKey := Nat.zero_lt_succ _
  inPeer h := absurd h Bool.false_ne_true
  config := Config.wellFormed_default

/-- **The loader keeps to its arrays**, after any number of events, in whatever order. -/
theorem loader_keeps_bounds (env : LoadEnv) (evs : List YamlEvent) (l : Loader O)
    (h : loadRun env ⟨.root, [], [], Config.default O.suite⟩ evs = some l) : l.Safe env :=
  loadRun_invariant (fun _ _ _ hl hev => hl.event hev) Loader.safe_init h

/-- A mapping where `allowed_ips` expects addresses, and no end to anything. -/
def strayEvents : List YamlEvent :=
  [.scalar "peers".toList, .sequenceStart, .mappingStart, .scalar "allowed_ips".toList,
    .sequenceStart, .scalar "10.0.0.0/8".toList, .mappingStart, .scalar "10.1.0.0/16".toList]

theorem loader_keeps_bounds_strayEvents :
    ∃ l, loadRun plainEnv ⟨.root, [], [], Config.default xorOpenSSL.suite⟩ strayEvents = some l ∧
      l.state = .allowedIpsSeq ∧ l.config.peers.length = 1 ∧ l.Safe plainEnv := by
  have hrun : (loadRun plainEnv ⟨.root, [], [], Config.default xorOpenSSL.suite⟩ strayEvents).map
      (fun l => (l.state, l.config.peers.length)) = some (.allowedIpsSeq, 1) := by decide +kernel
  obtain ⟨l, hl, heq⟩ := Option.map_eq_some_iff.mp hrun
  exact ⟨l, hl, congrArg Prod.fst heq, congrArg Prod.snd heq,
    loader_keeps_bounds plainEnv strayEvents l hl⟩

/-! ## What it returns -/

theorem loadConfig_wellFormed {evs : List YamlEvent} {c : Config O.suite}
    (h : loadConfig env (Config.default O.suite) evs = some c) : c.WellFormed env :=
  assign_invariant (fun _ _ _ _ hc ha => hc.assigned ha) Config.wellFormed_default
    (loadConfig_eq_some h)

end Load

end Lanecove
