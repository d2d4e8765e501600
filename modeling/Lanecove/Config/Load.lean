import Lanecove.Config.Cidr
import Lanecove.Config.Hex
import Lanecove.Crypto.Bytes

set_option autoImplicit false

/-! # Loading the configuration

`load_config` of `src/peer.c` and the validation in `main`. The loader reads the events of a YAML
parser one at a time; its memory is one of six states, the last key read at the root and in a
peer, and what has been configured so far. It keeps no nesting depth: an event that its state
does not expect is skipped.

`Yields` says what a piece of the event stream does to the loader, whatever the two key buffers
hold; pieces compose (`Yields.append`, `Yields.flatMap`).
-/

namespace Lanecove

open CString

def MAX_ROUTES_PER_PEER : Nat := 16
def MAX_WORKER_THREADS : Int := 32

/-! ## Events and configurations -/

/-- The events of the YAML parser. The value of a scalar is read as a C string. -/
inductive YamlEvent where
  | streamStart
  | streamEnd
  | documentStart
  | documentEnd
  | alias
  | scalar (value : List Char)
  | sequenceStart
  | sequenceEnd
  | mappingStart
  | mappingEnd
  deriving DecidableEq

/-- What `load_config` fills in: its out-parameters, the `cfg_*` variables and `peer_configs[]`. -/
structure Config (S : Suite) where
  tunnel : List Char
  address : List Char
  port : Int
  keyfile : List Char
  psk : List Char
  hasPsk : Bool
  logLevel : Int
  workerThreads : Int
  settings : Settings
  peers : List (PeerConfig S)

/-- The values before `load_config` runs. -/
def Config.default (S : Suite) : Config S where
  tunnel := []
  address := []
  port := 5040
  keyfile := "peer.key".toList
  psk := []
  hasPsk := false
  logLevel := 0
  workerThreads := 0
  settings := .default
  peers := []

/-- The validation of `main`. -/
def Config.Accepted {S : Suite} (c : Config S) : Prop :=
  c.tunnel ≠ [] ∧ c.peers.length ≠ 0 ∧ ¬ (c.port ≤ 0 ∨ 65535 < c.port) ∧
  ¬ c.settings.keepaliveInterval ≤ 0 ∧ ¬ c.settings.rekeyAfter ≤ 0 ∧
  ¬ c.settings.reconnectInterval ≤ 0 ∧ ¬ c.settings.sessionExpiry ≤ c.settings.rekeyAfter ∧
  ¬ c.settings.prevKeyGrace ≤ 0 ∧ ¬ c.settings.handshakeTimeout ≤ 0 ∧
  ¬ c.settings.handshakeCooldown ≤ 0 ∧ ¬ c.workerThreads < 0 ∧
  ¬ MAX_WORKER_THREADS < c.workerThreads

instance {S : Suite} (c : Config S) : Decidable c.Accepted := inferInstanceAs (Decidable (_ ∧ _))

/-! ## Settings at the root -/

/-- The keys of the root mapping, without `peers`. -/
inductive RootKey where
  | interface
  | address
  | port
  | keepaliveInterval
  | rekeyAfter
  | reconnectInterval
  | sessionExpiry
  | prevKeyGrace
  | handshakeTimeout
  | handshakeCooldown
  | workerThreads
  | privateKeyFile
  | verbose
  | preSharedKey
  deriving DecidableEq

namespace RootKey

def name : RootKey → List Char
  | interface => "interface".toList
  | address => "address".toList
  | port => "port".toList
  | keepaliveInterval => "keepalive_interval".toList
  | rekeyAfter => "rekey_after".toList
  | reconnectInterval => "reconnect_interval".toList
  | sessionExpiry => "session_expiry".toList
  | prevKeyGrace => "prev_key_grace".toList
  | handshakeTimeout => "handshake_timeout".toList
  | handshakeCooldown => "handshake_cooldown".toList
  | workerThreads => "worker_threads".toList
  | privateKeyFile => "private_key_file".toList
  | verbose => "verbose".toList
  | preSharedKey => "pre_shared_key".toList

/-- The order in which `load_config` compares them. -/
def all : List RootKey :=
  [interface, address, port, keepaliveInterval, rekeyAfter, reconnectInterval, sessionExpiry,
    prevKeyGrace, handshakeTimeout, handshakeCooldown, workerThreads, privateKeyFile, verbose,
    preSharedKey]

variable {S : Suite}

/-- What a value does to the configuration. -/
def set (v : List Char) (c : Config S) : RootKey → Config S
  | interface => { c with tunnel := v.take 15 }
  | address => { c with address := v.take 63 }
  | port => { c with port := atoi v }
  | keepaliveInterval => { c with settings := { c.settings with keepaliveInterval := atoi v } }
  | rekeyAfter => { c with settings := { c.settings with rekeyAfter := atoi v } }
  | reconnectInterval => { c with settings := { c.settings with reconnectInterval := atoi v } }
  | sessionExpiry => { c with settings := { c.settings with sessionExpiry := atoi v } }
  | prevKeyGrace => { c with settings := { c.settings with prevKeyGrace := atoi v } }
  | handshakeTimeout => { c with settings := { c.settings with handshakeTimeout := atoi v } }
  | handshakeCooldown => { c with settings := { c.settings with handshakeCooldown := atoi v } }
  | workerThreads => { c with workerThreads := atoi v }
  | privateKeyFile => { c with keyfile := v.take 255 }
  -- any other value leaves the level as it is
  | verbose => { c with logLevel := if v = "true".toList then 1 else c.logLevel }
  | preSharedKey => { c with psk := v.take 255, hasPsk := true }

end RootKey

/-- The chain of comparisons in `S_ROOT_VAL`. -/
def setRoot {S : Suite} (key v : List Char) (c : Config S) : Config S :=
  match RootKey.all.find? (fun k => decide (k.name = key)) with
  | some k => k.set v c
  | none => c

/-! ## Peers -/

/-- What the environment of the loader decides: how `sscanf` treats a bare `0x`, and what the
resolver says about a host and a port. -/
structure LoadEnv where
  gnu : Bool
  getaddrinfo : List Char → Int → Option SockAddr

variable {O : OpenSSL}

/-- A block of the suite from its bytes. -/
def blockOf (bytes : List UInt8) (h : bytes.length = DH_PUBKEY_LEN) : O.suite.Block :=
  (⟨bytes, h⟩ : Bytes DH_PUBKEY_LEN)

/-- The bytes of a block. -/
def blockBytes (b : O.suite.Block) : List UInt8 := (show Bytes DH_PUBKEY_LEN from b).toList

theorem blockBytes_injective : Function.Injective (blockBytes (O := O)) :=
  fun _ _ h => List.Vector.eq _ _ h

/-- The value of `public_key`. -/
def hexKey (env : LoadEnv) (v : List Char) : Option O.suite.Block :=
  match h : hexToBytes env.gnu v DH_PUBKEY_LEN with
  | none => none
  | some bytes => some (blockOf bytes (hexToBytes_length h))

/-- What an `endpoint` entry sets. -/
structure Endpoint where
  host : List Char
  port : Int
  addr : SockAddr

/-- The value of `endpoint`: host and port around the last colon. -/
def readEndpoint (env : LoadEnv) (v : List Char) : Option Endpoint :=
  -- `strncpy` into 256 bytes; a value of 255 characters or more is left without a terminator
  match splitLast ':' (v.take 255) with
  | none => none
  | some (host, tail) =>
      if host = [] then none
      else if atoi tail ≤ 0 ∨ 65535 < atoi tail then none
      else (env.getaddrinfo host (atoi tail)).map fun addr => ⟨host, atoi tail, addr⟩

def PeerConfig.setEndpoint {S : Suite} (pc : PeerConfig S) (e : Endpoint) : PeerConfig S :=
  { pc with
    endpointHost := e.host
    endpointPort := e.port
    endpoint := e.addr
    hasEndpoint := true }

/-- The comparisons in `S_PEER_VAL`. -/
def setPeer (env : LoadEnv) (peerKey v : List Char) (pc : PeerConfig O.suite) :
    Option (PeerConfig O.suite) :=
  if peerKey = "public_key".toList then (hexKey env v).map fun pub => { pc with pub := pub }
  else if peerKey = "endpoint".toList then (readEndpoint env v).map pc.setEndpoint
  else some pc

/-- An entry of `allowed_ips`. -/
def addRoute {S : Suite} (v : List Char) (pc : PeerConfig S) : Option (PeerConfig S) :=
  if MAX_ROUTES_PER_PEER ≤ pc.routes.length then none
  else (parseCidr v).map fun p => { pc with routes := pc.routes ++ [p] }

/-- Change the entry `peer_configs[peer_config_count - 1]`. -/
def Config.atLastPeer {S : Suite} (c : Config S) (f : PeerConfig S → Option (PeerConfig S)) :
    Option (Config S) :=
  match c.peers.getLast? with
  | none => none
  | some pc => (f pc).map fun pc' => { c with peers := c.peers.dropLast ++ [pc'] }

/-! ## The event loop -/

inductive LoadState where
  | root
  | rootVal
  | peersSeq
  | peerMap
  | peerVal
  | allowedIpsSeq
  deriving DecidableEq

/-- The variables of the loop. -/
structure Loader (O : OpenSSL) where
  state : LoadState
  key : List Char
  peerKey : List Char
  config : Config O.suite

/-- `case S_ROOT`. -/
def onRoot (l : Loader O) : YamlEvent → Option (Loader O)
  | .scalar v => some { l with key := v.take 63, state := .rootVal }
  | _ => some l

/-- `case S_ROOT_VAL`. -/
def onRootVal (l : Loader O) : YamlEvent → Option (Loader O)
  | .scalar v => some { l with config := setRoot l.key v l.config, state := .root }
  | .sequenceStart =>
      if l.key = "peers".toList then some { l with state := .peersSeq } else some l
  | _ => some l

/-- `case S_PEERS_SEQ`. -/
def onPeersSeq (l : Loader O) : YamlEvent → Option (Loader O)
  | .sequenceEnd => some { l with state := .root }
  | .mappingStart =>
      if MAX_PEERS ≤ l.config.peers.length then none
      else some { l with
        config := { l.config with peers := l.config.peers ++ [.zero O.suite] }
        state := .peerMap }
  | _ => some l

/-- `case S_PEER_MAP`. -/
def onPeerMap (l : Loader O) : YamlEvent → Option (Loader O)
  | .mappingEnd => some { l with state := .peersSeq }
  | .scalar v => some { l with peerKey := v.take 63, state := .peerVal }
  | _ => some l

/-- `case S_PEER_VAL`. -/
def onPeerVal (env : LoadEnv) (l : Loader O) : YamlEvent → Option (Loader O)
  | .scalar v => (l.config.atLastPeer (setPeer env l.peerKey v)).map fun c =>
      { l with config := c, state := .peerMap }
  | .sequenceStart =>
      if l.peerKey = "allowed_ips".toList then some { l with state := .allowedIpsSeq } else some l
  | _ => some l

/-- `case S_ALLOWED_IPS_SEQ`. -/
def onAllowedIpsSeq (l : Loader O) : YamlEvent → Option (Loader O)
  | .sequenceEnd => some { l with state := .peerMap }
  | .scalar v => (l.config.atLastPeer (addRoute v)).map fun c => { l with config := c }
  | _ => some l

/-- The `switch` for one event; `none` when it clears `ok`. -/
def loadEvent (env : LoadEnv) (l : Loader O) (ev : YamlEvent) : Option (Loader O) :=
  match l.state with
  | .root => onRoot l ev
  | .rootVal => onRootVal l ev
  | .peersSeq => onPeersSeq l ev
  | .peerMap => onPeerMap l ev
  | .peerVal => onPeerVal env l ev
  | .allowedIpsSeq => onAllowedIpsSeq l ev

/-- The loop. It ends with the stream; when the parser has no event left before that, it has
failed. -/
def loadEvents (env : LoadEnv) : Loader O → List YamlEvent → Option (Loader O)
  | _, [] => none
  | l, ev :: evs =>
      match loadEvent env l ev with
      | none => none
      | some l' => if ev = .streamEnd then some l' else loadEvents env l' evs

/-- `load_config`: the configuration, or `none` for -1. -/
def loadConfig (env : LoadEnv) (init : Config O.suite) (evs : List YamlEvent) :
    Option (Config O.suite) :=
  (loadEvents env ⟨.root, [], [], init⟩ evs).map Loader.config

/-! ## Pieces of a stream -/

/-- The loop over events that do not end the stream. -/
def loadRun (env : LoadEnv) (l : Loader O) (evs : List YamlEvent) : Option (Loader O) :=
  evs.foldlM (loadEvent env) l

theorem loadEvent_streamEnd (env : LoadEnv) (l : Loader O) :
    loadEvent env l .streamEnd = some l := by
  unfold loadEvent
  cases l.state <;> rfl

/-- The events up to the end of the stream. -/
def beforeEnd (evs : List YamlEvent) : List YamlEvent :=
  evs.takeWhile fun ev => decide (ev ≠ .streamEnd)

theorem beforeEnd_append {evs : List YamlEvent} (h : .streamEnd ∉ evs) (rest : List YamlEvent) :
    beforeEnd (evs ++ rest) = evs ++ beforeEnd rest := by
  refine List.takeWhile_append_of_pos fun ev hev => ?_
  exact decide_eq_true fun heq => h (heq ▸ hev)

/-- The loop runs through the events before the end of the stream, if there is one. -/
theorem loadEvents_eq (env : LoadEnv) (l : Loader O) (evs : List YamlEvent) :
    loadEvents env l evs = if .streamEnd ∈ evs then loadRun env l (beforeEnd evs) else none := by
  induction evs generalizing l with
  | nil => rfl
  | cons ev evs ih =>
      rw [loadEvents]
      by_cases hev : ev = .streamEnd
      · rw [hev, loadEvent_streamEnd]
        rfl
      · have hmem : .streamEnd ∈ ev :: evs ↔ .streamEnd ∈ evs := by
          simp [Ne.symm hev]
        simp only [hmem, hev, if_false]
        rw [beforeEnd, List.takeWhile_cons, if_pos (decide_eq_true hev), loadRun, List.foldlM_cons]
        cases loadEvent env l ev with
        | none => exact (ite_self none).symm
        | some l' => exact ih l'

theorem loadEvents_append_streamEnd (env : LoadEnv) (l : Loader O) (evs : List YamlEvent)
    (h : .streamEnd ∉ evs) : loadEvents env l (evs ++ [.streamEnd]) = loadRun env l evs := by
  rw [loadEvents_eq, if_pos (by simp), beforeEnd_append h]
  exact congrArg (loadRun env l) (List.append_nil evs)

/-- **The invariant rule of the loop**: what every event keeps, the loop keeps. -/
theorem loadRun_invariant {env : LoadEnv} {I : Loader O → Prop}
    (hevent : ∀ l ev l', I l → loadEvent env l ev = some l' → I l') {evs : List YamlEvent}
    {l l' : Loader O} (h : I l) (hrun : loadRun env l evs = some l') : I l' := by
  induction evs generalizing l with
  | nil =>
      cases hrun
      exact h
  | cons ev evs ih =>
      rw [loadRun, List.foldlM_cons] at hrun
      obtain ⟨l₁, hev, hrest⟩ := Option.bind_eq_some_iff.mp hrun
      exact ih (hevent l ev l₁ h hev) hrest

/-- From state `s` and configuration `c`, whatever the key buffers hold, the events lead to state
`s'` and the configuration `r`, or clear `ok` if there is none. -/
def Yields (env : LoadEnv) (s : LoadState) (c : Config O.suite) (evs : List YamlEvent)
    (s' : LoadState) (r : Option (Config O.suite)) : Prop :=
  ∀ key peerKey, ∃ key' peerKey',
    loadRun env ⟨s, key, peerKey, c⟩ evs = r.map fun c' => ⟨s', key', peerKey', c'⟩

section Yields

variable {env : LoadEnv} {s s₁ s₂ : LoadState} {c : Config O.suite}

theorem Yields.nil : Yields env s c [] s (some c) :=
  fun key peerKey => ⟨key, peerKey, rfl⟩

/-- A piece after another. -/
theorem Yields.append {evs evs' : List YamlEvent} {r : Option (Config O.suite)}
    {f : Config O.suite → Option (Config O.suite)} (h : Yields env s c evs s₁ r)
    (h' : ∀ c₁, r = some c₁ → Yields env s₁ c₁ evs' s₂ (f c₁)) :
    Yields env s c (evs ++ evs') s₂ (r.bind f) := by
  intro key peerKey
  obtain ⟨key₁, peerKey₁, hrun⟩ := h key peerKey
  rw [loadRun] at hrun
  cases r with
  | none =>
      refine ⟨[], [], ?_⟩
      rw [loadRun, List.foldlM_append, hrun]
      rfl
  | some c₁ =>
      obtain ⟨key₂, peerKey₂, hrun'⟩ := h' c₁ rfl key₁ peerKey₁
      refine ⟨key₂, peerKey₂, ?_⟩
      rw [loadRun, List.foldlM_append, hrun]
      exact hrun'

/-- One piece for each item of a list. -/
theorem Yields.flatMap {α : Type} {events : α → List YamlEvent}
    {apply : Config O.suite → α → Option (Config O.suite)} (P : Config O.suite → Prop)
    (hP : ∀ c x c', P c → apply c x = some c' → P c') (items : List α)
    (h : ∀ x ∈ items, ∀ c, P c → Yields env s c (events x) s (apply c x)) (hc : P c) :
    Yields env s c (items.flatMap events) s (items.foldlM apply c) := by
  induction items generalizing c with
  | nil => exact Yields.nil
  | cons x items ih =>
      rw [List.flatMap_cons, List.foldlM_cons]
      refine (h x List.mem_cons_self c hc).append (fun c₁ hc₁ => ?_)
      exact ih (fun y hy => h y (List.mem_cons_of_mem _ hy)) (hP c x c₁ hc hc₁)

/-- A piece in a frame that leaves the configuration alone. -/
theorem Yields.between {s₃ : LoadState} {c₁ : Config O.suite} {before evs after : List YamlEvent}
    {r : Option (Config O.suite)} (hopen : Yields env s c before s₁ (some c₁))
    (h : Yields env s₁ c₁ evs s₂ r)
    (hclose : ∀ c' : Config O.suite, Yields env s₂ c' after s₃ (some c')) :
    Yields env s c (before ++ (evs ++ after)) s₃ r := by
  have hinner : Yields env s₁ c₁ (evs ++ after) s₃ (r.bind some) :=
    h.append (f := some) (fun c' _ => hclose c')
  rw [Option.bind_fun_some] at hinner
  exact hopen.append (f := fun _ => r) (fun c' heq => Option.some.inj heq ▸ hinner)

end Yields

end Lanecove
