import Lanecove.Handshake.Messages
import Lanecove.Peer.Replay

set_option autoImplicit false

/-! # The session table

`peer_session_t`, `peer_config_t`, the table helpers `find_session_by_addr`,
`find_session_by_pub`, `alloc_session`, `route_lookup`, `check_allowed_src` and
`session_init` of `src/peer.c`. A pointer into `sessions[]` is an index; `NULL` is `none`.
Times are integers (`time_t`), and what `time(NULL)` returns is an argument.
-/

namespace Lanecove

def MAX_PEERS : Nat := 64

theorem MAX_PEERS_pos : 0 < MAX_PEERS := by decide

/-- An IPv4 address and a UDP port, the part of `sockaddr_in` the program compares. -/
structure SockAddr where
  ip : BitVec 32
  port : BitVec 16
  deriving DecidableEq

/-- `ip_prefix_t`. -/
structure IpPrefix where
  network : BitVec 32
  mask : BitVec 32
  prefixLen : Int
  deriving DecidableEq

/-- The zero-initialised address. -/
def SockAddr.zero : SockAddr := ⟨0, 0⟩

/-- The timing settings of the configuration file (`cfg_*` and `keepalive_interval`), in
seconds. -/
structure Settings where
  rekeyAfter : Int
  reconnectInterval : Int
  sessionExpiry : Int
  prevKeyGrace : Int
  handshakeTimeout : Int
  handshakeCooldown : Int
  keepaliveInterval : Int

/-- The defaults of `src/peer.c`. -/
def Settings.default : Settings where
  rekeyAfter := 180
  reconnectInterval := 30
  sessionExpiry := 3 * 180
  prevKeyGrace := 90
  handshakeTimeout := 5
  handshakeCooldown := 5
  keepaliveInterval := 25

/-- `peer_config_t`. The first `route_count` entries of `routes` are a list. -/
structure PeerConfig (S : Suite) where
  pub : S.Block
  routes : List IpPrefix
  hasEndpoint : Bool
  endpoint : SockAddr
  endpointHost : List Char
  endpointPort : Int
  lastAttempt : Int

/-- A zeroed entry of `peer_configs[]`. -/
def PeerConfig.zero (S : Suite) : PeerConfig S where
  pub := S.zero
  routes := []
  hasEndpoint := false
  endpoint := .zero
  endpointHost := []
  endpointPort := 0
  lastAttempt := 0

/-- `peer_session_t`, without the lock. -/
structure Session (S : Suite) where
  active : Bool
  addr : SockAddr
  staticPub : S.Block
  sessionKey : S.Block
  prevSessionKey : S.Block
  prevKeyActive : Bool
  prevKeyExpires : Int
  lastSeen : Int
  lastSent : Int
  lastHandshake : Int
  rekeyDeadline : Int
  rekeying : Bool
  sendSeq : BitVec 64
  recvSeq : ReplayState
  routes : List IpPrefix
  isOutbound : Bool

/-- A zeroed slot of `sessions[]`. -/
def Session.zero (S : Suite) : Session S where
  active := false
  addr := .zero
  staticPub := S.zero
  sessionKey := S.zero
  prevSessionKey := S.zero
  prevKeyActive := false
  prevKeyExpires := 0
  lastSeen := 0
  lastSent := 0
  lastHandshake := 0
  rekeyDeadline := 0
  rekeying := false
  sendSeq := 0
  recvSeq := .zero
  routes := []
  isOutbound := false

/-- `sessions[]` and `session_slots`. -/
structure SessionTable (S : Suite) where
  sessions : Fin MAX_PEERS → Session S
  slots : Nat

def SessionTable.zero (S : Suite) : SessionTable S := ⟨fun _ => .zero S, 0⟩

variable {S : Suite}

namespace SessionTable

/-- Replace one slot. -/
def set (tb : SessionTable S) (i : Fin MAX_PEERS) (s : Session S) : SessionTable S :=
  { tb with sessions := Function.update tb.sessions i s }

@[simp] theorem set_slots (tb : SessionTable S) (i : Fin MAX_PEERS) (s : Session S) :
    (tb.set i s).slots = tb.slots := rfl

@[simp] theorem set_sessions_self (tb : SessionTable S) (i : Fin MAX_PEERS) (s : Session S) :
    (tb.set i s).sessions i = s := Function.update_self ..

theorem set_sessions_ne (tb : SessionTable S) {i j : Fin MAX_PEERS} (s : Session S)
    (h : j ≠ i) : (tb.set i s).sessions j = tb.sessions j := Function.update_of_ne h ..

/-- What relates the replaced session to the new one, and every session to itself, relates all
slots before and after. -/
theorem set_rel {R : Session S → Session S → Prop} {tb : SessionTable S} {i : Fin MAX_PEERS}
    {s : Session S} (hself : R (tb.sessions i) s) (hrefl : ∀ x, R x x) (j : Fin MAX_PEERS) :
    R (tb.sessions j) ((tb.set i s).sessions j) := by
  by_cases hj : j = i
  · subst hj
    rw [set_sessions_self]
    exact hself
  · rw [set_sessions_ne tb s hj]
    exact hrefl _

end SessionTable

/-! ## Lookups -/

/-- `find_peer_config`. -/
def findPeerConfig (cfgs : List (PeerConfig S)) (pub : S.Block) : Option (PeerConfig S) :=
  cfgs.find? fun c => decide (c.pub = pub)

/-- `find_session_by_addr`. -/
def findSessionByAddr (tb : SessionTable S) (addr : SockAddr) : Option (Fin MAX_PEERS) :=
  Fin.find? fun i =>
    decide (i.val < tb.slots) && (tb.sessions i).active &&
      decide ((tb.sessions i).addr = addr)

/-- `find_session_by_pub`. -/
def findSessionByPub (tb : SessionTable S) (pub : S.Block) : Option (Fin MAX_PEERS) :=
  Fin.find? fun i =>
    decide (i.val < tb.slots) && (tb.sessions i).active &&
      decide ((tb.sessions i).staticPub = pub)

/-- The first slot below `session_slots` that is not active. -/
def findFreeSlot (tb : SessionTable S) : Option (Fin MAX_PEERS) :=
  Fin.find? fun i => decide (i.val < tb.slots) && !(tb.sessions i).active

/-- `alloc_session`: by public key first, then by address, then a free slot, then a new
one. -/
def allocSession (tb : SessionTable S) (pub : S.Block) (addr : SockAddr) :
    Option (Fin MAX_PEERS × SessionTable S) :=
  match findSessionByPub tb pub with
  | some i => some (i, tb)
  | none =>
      match findSessionByAddr tb addr with
      -- this may be the session of another peer
      | some i => some (i, tb)
      | none =>
          match findFreeSlot tb with
          | some i => some (i, tb)
          | none =>
              if h : tb.slots < MAX_PEERS then
                some (⟨tb.slots, h⟩, { tb with slots := tb.slots + 1 })
              else none

/-- The destination lies in the prefix. -/
def IpPrefix.contains (p : IpPrefix) (ip : BitVec 32) : Bool := decide (ip &&& p.mask = p.network)

/-- One step of the inner loop of `route_lookup`: slot `i`, one of its routes, and the best
match so far with its prefix length. -/
def betterRoute (ip : BitVec 32) (i : Fin MAX_PEERS) (best : Option (Fin MAX_PEERS) × Int)
    (p : IpPrefix) : Option (Fin MAX_PEERS) × Int :=
  if p.contains ip && decide (best.2 < p.prefixLen) then (some i, p.prefixLen) else best

/-- `route_lookup`: the two nested loops with `best` and `best_prefix`. -/
def routeLookup (tb : SessionTable S) (ip : BitVec 32) : Option (Fin MAX_PEERS) :=
  ((List.finRange MAX_PEERS).foldl (fun best i =>
    if decide (i.val < tb.slots) && (tb.sessions i).active then
      (tb.sessions i).routes.foldl (betterRoute ip i) best
    else best) ((none : Option (Fin MAX_PEERS)), (-1 : Int))).1

/-- `check_allowed_src`. -/
def checkAllowedSrc (s : Session S) (ip : BitVec 32) : Bool :=
  if s.routes.length = 0 then true else s.routes.any fun p => p.contains ip

/-! ## Installing a session -/

/-- `session_init` at time `now`. The current key of a slot that was active becomes its
previous key; which peer that key belongs to is not looked at. -/
def sessionInit (cfg : Settings) (s : Session S) (addr : SockAddr) (pub key : S.Block)
    (peer : Option (PeerConfig S)) (isOutbound : Bool) (now : Int) : Session S :=
  { s with
    active := true
    staticPub := pub
    addr := addr
    prevSessionKey := if s.active then s.sessionKey else s.prevSessionKey
    prevKeyActive := s.active
    prevKeyExpires := if s.active then now + cfg.prevKeyGrace else s.prevKeyExpires
    sessionKey := key
    lastSeen := 0
    lastSent := now
    sendSeq := 0
    recvSeq := .zero
    lastHandshake := now
    rekeyDeadline := now + cfg.rekeyAfter
    rekeying := false
    isOutbound := isOutbound
    routes := (peer.map PeerConfig.routes).getD [] }

/-! ## What the lookups return -/

theorem findSessionByAddr_eq_some {tb : SessionTable S} {addr : SockAddr}
    {i : Fin MAX_PEERS} (h : findSessionByAddr tb addr = some i) :
    i.val < tb.slots ∧ (tb.sessions i).active = true ∧ (tb.sessions i).addr = addr := by
  have := (Fin.find?_eq_some_iff.mp h).1
  simpa [Bool.and_eq_true, and_assoc] using this

theorem findSessionByAddr_eq_none {tb : SessionTable S} {addr : SockAddr}
    (h : findSessionByAddr tb addr = none) {i : Fin MAX_PEERS} (hi : i.val < tb.slots)
    (ha : (tb.sessions i).active = true) : (tb.sessions i).addr ≠ addr := by
  have := Fin.find?_eq_none_iff.mp h i
  intro heq
  simp [hi, ha, heq] at this

/-- `find_session_by_addr` looks at the active sessions and their addresses only. -/
theorem findSessionByAddr_congr {tb tb' : SessionTable S} (hslots : tb'.slots = tb.slots)
    (hsess : ∀ i, (tb'.sessions i).active = (tb.sessions i).active ∧
      (tb'.sessions i).addr = (tb.sessions i).addr) (addr : SockAddr) :
    findSessionByAddr tb' addr = findSessionByAddr tb addr := by
  unfold findSessionByAddr
  simp only [hslots, fun k => (hsess k).1, fun k => (hsess k).2]

/-- `route_lookup` looks at the active sessions and their routes only. -/
theorem routeLookup_congr {tb tb' : SessionTable S} (hslots : tb'.slots = tb.slots)
    (hsess : ∀ i, (tb'.sessions i).active = (tb.sessions i).active ∧
      (tb'.sessions i).routes = (tb.sessions i).routes) (ip : BitVec 32) :
    routeLookup tb' ip = routeLookup tb ip := by
  unfold routeLookup
  simp only [hslots, (hsess _).1, (hsess _).2]

theorem findSessionByPub_eq_some {tb : SessionTable S} {pub : S.Block}
    {i : Fin MAX_PEERS} (h : findSessionByPub tb pub = some i) :
    i.val < tb.slots ∧ (tb.sessions i).active = true ∧ (tb.sessions i).staticPub = pub := by
  have := (Fin.find?_eq_some_iff.mp h).1
  simpa [Bool.and_eq_true, and_assoc] using this

theorem findSessionByPub_eq_none {tb : SessionTable S} {pub : S.Block}
    (h : findSessionByPub tb pub = none) {i : Fin MAX_PEERS} (hi : i.val < tb.slots)
    (ha : (tb.sessions i).active = true) : (tb.sessions i).staticPub ≠ pub := by
  have := Fin.find?_eq_none_iff.mp h i
  intro heq
  simp [hi, ha, heq] at this

theorem findFreeSlot_eq_some {tb : SessionTable S} {i : Fin MAX_PEERS}
    (h : findFreeSlot tb = some i) : i.val < tb.slots ∧ (tb.sessions i).active = false := by
  have := (Fin.find?_eq_some_iff.mp h).1
  simpa [Bool.and_eq_true] using this

theorem findFreeSlot_eq_none {tb : SessionTable S} (h : findFreeSlot tb = none)
    {i : Fin MAX_PEERS} (hi : i.val < tb.slots) : (tb.sessions i).active = true := by
  have := Fin.find?_eq_none_iff.mp h i
  simpa [hi] using this

theorem findPeerConfig_isSome {cfgs : List (PeerConfig S)} {pub : S.Block} :
    (findPeerConfig cfgs pub).isSome ↔ pub ∈ cfgs.map PeerConfig.pub := by
  simp [findPeerConfig, List.find?_isSome]

/-- Where the slot of `alloc_session` comes from. -/
inductive AllocCase (tb : SessionTable S) (pub : S.Block) (addr : SockAddr) :
    Fin MAX_PEERS → SessionTable S → Prop
  | byPub {i} (h : findSessionByPub tb pub = some i) : AllocCase tb pub addr i tb
  | byAddr {i} (hp : findSessionByPub tb pub = none) (h : findSessionByAddr tb addr = some i) :
      AllocCase tb pub addr i tb
  | free {i} (hp : findSessionByPub tb pub = none) (ha : findSessionByAddr tb addr = none)
      (h : findFreeSlot tb = some i) : AllocCase tb pub addr i tb
  | grow (hp : findSessionByPub tb pub = none) (ha : findSessionByAddr tb addr = none)
      (hf : findFreeSlot tb = none) (h : tb.slots < MAX_PEERS) :
      AllocCase tb pub addr ⟨tb.slots, h⟩ { tb with slots := tb.slots + 1 }

theorem allocSession_cases {tb tb' : SessionTable S} {pub : S.Block} {addr : SockAddr}
    {i : Fin MAX_PEERS} (h : allocSession tb pub addr = some (i, tb')) :
    AllocCase tb pub addr i tb' := by
  unfold allocSession at h
  split at h
  · rename_i j hp
    obtain ⟨rfl, rfl⟩ := Prod.mk.inj (Option.some.inj h)
    exact .byPub hp
  · rename_i hp
    split at h
    · rename_i j ha
      obtain ⟨rfl, rfl⟩ := Prod.mk.inj (Option.some.inj h)
      exact .byAddr hp ha
    · rename_i ha
      split at h
      · rename_i j hf
        obtain ⟨rfl, rfl⟩ := Prod.mk.inj (Option.some.inj h)
        exact .free hp ha hf
      · rename_i hf
        split at h
        · rename_i hlt
          obtain ⟨rfl, rfl⟩ := Prod.mk.inj (Option.some.inj h)
          exact .grow hp ha hf hlt
        · cases h

/-- `alloc_session` fails only if the peer has no session and all slots are in use. -/
theorem allocSession_eq_none {tb : SessionTable S} {pub : S.Block} {addr : SockAddr}
    (h : allocSession tb pub addr = none) :
    findSessionByPub tb pub = none ∧ findFreeSlot tb = none ∧ MAX_PEERS ≤ tb.slots := by
  unfold allocSession at h
  split at h
  · cases h
  · rename_i hp
    split at h
    · cases h
    · split at h
      · cases h
      · rename_i hf
        split at h
        · cases h
        · rename_i hfull
          exact ⟨hp, hf, Nat.le_of_not_lt hfull⟩

theorem allocSession_sessions {tb tb' : SessionTable S} {pub : S.Block} {addr : SockAddr}
    {i : Fin MAX_PEERS} (h : allocSession tb pub addr = some (i, tb')) :
    tb'.sessions = tb.sessions ∧ i.val < tb'.slots ∧ tb.slots ≤ tb'.slots := by
  cases allocSession_cases h with
  | byPub hp =>
      obtain ⟨hi, -, -⟩ := findSessionByPub_eq_some hp
      exact ⟨rfl, hi, Nat.le_refl _⟩
  | byAddr _ ha =>
      obtain ⟨hi, -, -⟩ := findSessionByAddr_eq_some ha
      exact ⟨rfl, hi, Nat.le_refl _⟩
  | free _ _ hf =>
      obtain ⟨hi, -⟩ := findFreeSlot_eq_some hf
      exact ⟨rfl, hi, Nat.le_refl _⟩
  | grow _ _ _ hlt => exact ⟨rfl, Nat.lt_succ_self _, Nat.le_succ _⟩

/-- The peer's own slot comes first. -/
theorem allocSession_of_findSessionByPub {tb : SessionTable S} {pub : S.Block}
    {i : Fin MAX_PEERS} (h : findSessionByPub tb pub = some i) (addr : SockAddr) :
    allocSession tb pub addr = some (i, tb) := by
  unfold allocSession
  split
  · rename_i j hj
    rw [Option.some.inj (h.symm.trans hj)]
  · rename_i hnone
    rw [h] at hnone
    cases hnone

/-- Only slots below `session_slots` are in use. -/
def SessionTable.Below (tb : SessionTable S) : Prop :=
  ∀ i, (tb.sessions i).active = true → i.val < tb.slots

/-- The slot `alloc_session` returns is the peer's own, one at the address, or not in use. -/
theorem allocSession_slot {tb tb' : SessionTable S} {pub : S.Block} {addr : SockAddr}
    {i : Fin MAX_PEERS} (hb : tb.Below) (h : allocSession tb pub addr = some (i, tb')) :
    findSessionByPub tb pub = some i ∨
    (findSessionByPub tb pub = none ∧ findSessionByAddr tb addr = some i) ∨
    (findSessionByPub tb pub = none ∧ findSessionByAddr tb addr = none ∧
      (tb.sessions i).active = false) := by
  cases allocSession_cases h with
  | byPub hp => exact .inl hp
  | byAddr hp ha => exact .inr (.inl ⟨hp, ha⟩)
  | free hp ha hf => exact .inr (.inr ⟨hp, ha, (findFreeSlot_eq_some hf).2⟩)
  | grow hp ha _ hlt =>
      refine .inr (.inr ⟨hp, ha, ?_⟩)
      by_contra hact
      exact Nat.lt_irrefl _ (hb ⟨tb.slots, hlt⟩ (Bool.not_eq_false _ ▸ hact))

theorem SessionTable.Below.set {tb tb' : SessionTable S} {pub : S.Block} {addr : SockAddr}
    {i : Fin MAX_PEERS} {s : Session S} (hb : tb.Below)
    (h : allocSession tb pub addr = some (i, tb')) : (tb'.set i s).Below := by
  obtain ⟨hs, hi, hle⟩ := allocSession_sessions h
  intro j hj
  by_cases hij : j = i
  · subst hij
    exact hi
  · rw [SessionTable.set_sessions_ne _ _ hij, hs] at hj
    exact Nat.lt_of_lt_of_le (hb j hj) hle

end Lanecove
