import Lanecove.Basic.Machine
import Lanecove.Peer.Session

set_option autoImplicit false

/-! # The state of a node and what it emits

The global state of `src/peer.c` that changes at run time, the read-only context of its
threads, and the events a step may emit. Every branch of the worker threads and of the
housekeeping thread holds `table_lock` while it works on the tables, and the per-packet
fields of a session change under its `hot_lock`; a step of the model is one such critical
section.
-/

namespace Lanecove

/-- `loop_ctx_t` and the settings: what does not change at run time. The static public key
is the public half of the static key. -/
structure LoopCtx (S : Suite) extends Settings where
  staticKey : S.Priv
  pskKey : Option S.Block

def LoopCtx.staticPub {S : Suite} (ctx : LoopCtx S) : S.Block := S.pubOf ctx.staticKey

/-- `pending_hs_t`: an outbound handshake that waits for its response. -/
structure PendingHs (S : Suite) where
  active : Bool
  cfgIdx : Nat
  sentAt : Int
  hsState : HsClientState S
  serverAddr : SockAddr

/-- A zeroed slot of `pending_hs[]`. -/
def PendingHs.zero (S : Suite) : PendingHs S := ⟨false, 0, 0, .zero S, .zero⟩

/-- The state of a node: `peer_configs[]`, the session table, `pending_hs[]`, the
precomputed ephemeral key of the responder (`none` is `NULL`), and the time of the last
housekeeping pass. -/
structure Node (S : Suite) where
  peerConfigs : List (PeerConfig S)
  table : SessionTable S
  pendingHs : Fin MAX_PEERS → PendingHs S
  precompEphKey : Option S.Priv
  lastCheck : Int

/-- A node after `load_config` and the first `refresh_precomp_eph`. -/
def Node.init {S : Suite} (cfgs : List (PeerConfig S)) (fresh : Option S.Priv) : Node S where
  peerConfigs := cfgs
  table := .zero S
  pendingHs := fun _ => .zero S
  precompEphKey := fresh
  lastCheck := 0

/-! ## Events -/

/-- A call of `session_init`: slot, identity and key installed, the source address and the
handshake datagram it answers to, the direction, and the time. -/
structure Install (S : Suite) where
  slot : Fin MAX_PEERS
  pub : S.Block
  key : S.Block
  src : SockAddr
  pkt : S.Wire
  isOutbound : Bool
  time : Int

/-- A datagram sent by `forward_to_peer`: the session it is for, its key and sequence number,
and what was sent where. -/
structure Sending (S : Suite) where
  slot : Fin MAX_PEERS
  pub : S.Block
  key : S.Block
  dst : SockAddr
  seq : BitVec 64
  payload : List UInt8
  pkt : S.Wire

/-- A data datagram that passed decryption, magic and replay check: the session, the key it
was decrypted with and whether that was the previous key. -/
structure Receipt (S : Suite) where
  slot : Fin MAX_PEERS
  pub : S.Block
  key : S.Block
  usedPrev : Bool
  pkt : S.Wire
  seq : BitVec 64
  payload : List UInt8
  time : Int

inductive Event (S : Suite) where
  /-- `handshake_client_send` sent an initiation. -/
  | initSent (dst : SockAddr) (pkt : S.Wire)
  /-- `handshake_server_respond` sent a response. -/
  | respSent (dst : SockAddr) (pkt : S.Wire)
  /-- A handshake function returned `0`: the remote static key and the derived key. -/
  | hsDone (remote key : S.Block)
  | installed (i : Install S)
  | dataSent (d : Sending S)
  | accepted (r : Receipt S)
  /-- The payload was written to the TUN device (`none`) or relayed to a session. -/
  | delivered (r : Receipt S) (fwd : Option (Fin MAX_PEERS))

/-! Parts of a trace, oldest first. -/

section Trace

variable {S : Suite}

/-- The completed handshakes: remote identity and key. -/
def completed : List (Event S) → List (S.Block × S.Block) :=
  List.filterMap fun
    | .hsDone remote key => some (remote, key)
    | _ => none

/-- The handshake responses sent: destination and datagram. -/
def responses : List (Event S) → List (SockAddr × S.Wire) :=
  List.filterMap fun
    | .respSent dst pkt => some (dst, pkt)
    | _ => none

/-- The sessions installed. -/
def installs : List (Event S) → List (Install S) :=
  List.filterMap fun
    | .installed i => some i
    | _ => none

/-- The data datagrams sent. -/
def sendings : List (Event S) → List (Sending S) :=
  List.filterMap fun
    | .dataSent d => some d
    | _ => none

/-- The packets accepted. -/
def receipts : List (Event S) → List (Receipt S) :=
  List.filterMap fun
    | .accepted r => some r
    | _ => none

/-- The packets delivered. -/
def deliveries : List (Event S) → List (Receipt S) :=
  List.filterMap fun
    | .delivered r _ => some r
    | _ => none

/-- The datagrams sent, of every kind: destination and content. -/
def datagrams : List (Event S) → List (SockAddr × S.Wire) :=
  List.filterMap fun
    | .initSent dst pkt => some (dst, pkt)
    | .respSent dst pkt => some (dst, pkt)
    | .dataSent d => some (d.dst, d.pkt)
    | _ => none

def wires (tr : List (Event S)) : List S.Wire := (datagrams tr).map Prod.snd

@[simp] theorem wires_append (tr ev : List (Event S)) :
    wires (tr ++ ev) = wires tr ++ wires ev := by
  rw [wires, datagrams, List.filterMap_append, List.map_append]
  rfl

/-- A datagram is an initiation, a response or data. -/
theorem mem_datagrams {tr : List (Event S)} {dst : SockAddr} {pkt : S.Wire} :
    (dst, pkt) ∈ datagrams tr ↔ .initSent dst pkt ∈ tr ∨ .respSent dst pkt ∈ tr ∨
      ∃ d, .dataSent d ∈ tr ∧ d.dst = dst ∧ d.pkt = pkt := by
  simp only [datagrams, List.mem_filterMap]
  constructor
  · rintro ⟨e, he, h⟩
    cases e with
    | initSent dst' pkt' =>
        obtain ⟨rfl, rfl⟩ := Prod.mk.inj (Option.some.inj h)
        exact .inl he
    | respSent dst' pkt' =>
        obtain ⟨rfl, rfl⟩ := Prod.mk.inj (Option.some.inj h)
        exact .inr (.inl he)
    | dataSent d =>
        obtain ⟨rfl, rfl⟩ := Prod.mk.inj (Option.some.inj h)
        exact .inr (.inr ⟨d, he, rfl, rfl⟩)
    | _ => cases h
  · rintro (h | h | ⟨d, h, rfl, rfl⟩)
    · exact ⟨_, h, rfl⟩
    · exact ⟨_, h, rfl⟩
    · exact ⟨_, h, rfl⟩

theorem mem_wires {tr : List (Event S)} {pkt : S.Wire} :
    pkt ∈ wires tr ↔ ∃ dst, (dst, pkt) ∈ datagrams tr := by
  simp [wires]

@[simp] theorem installs_append (tr ev : List (Event S)) :
    installs (tr ++ ev) = installs tr ++ installs ev := List.filterMap_append

@[simp] theorem sendings_append (tr ev : List (Event S)) :
    sendings (tr ++ ev) = sendings tr ++ sendings ev := List.filterMap_append

@[simp] theorem receipts_append (tr ev : List (Event S)) :
    receipts (tr ++ ev) = receipts tr ++ receipts ev := List.filterMap_append

@[simp] theorem deliveries_append (tr ev : List (Event S)) :
    deliveries (tr ++ ev) = deliveries tr ++ deliveries ev := List.filterMap_append

@[simp] theorem mem_completed {tr : List (Event S)} {p k : S.Block} :
    (p, k) ∈ completed tr ↔ .hsDone p k ∈ tr := by
  apply Machine.mem_filterMap_iff (b := (p, k)) (f := fun x => Event.hsDone x.1 x.2)
  intro e x
  cases e <;> simp [Prod.ext_iff]

@[simp] theorem mem_responses {tr : List (Event S)} {dst : SockAddr} {pkt : S.Wire} :
    (dst, pkt) ∈ responses tr ↔ .respSent dst pkt ∈ tr := by
  apply Machine.mem_filterMap_iff (b := (dst, pkt)) (f := fun x => Event.respSent x.1 x.2)
  intro e x
  cases e <;> simp [Prod.ext_iff]

@[simp] theorem mem_installs {tr : List (Event S)} {i : Install S} :
    i ∈ installs tr ↔ .installed i ∈ tr := by
  apply Machine.mem_filterMap_iff (f := Event.installed)
  intro e x
  cases e <;> simp

@[simp] theorem mem_sendings {tr : List (Event S)} {d : Sending S} :
    d ∈ sendings tr ↔ .dataSent d ∈ tr := by
  apply Machine.mem_filterMap_iff (f := Event.dataSent)
  intro e x
  cases e <;> simp

@[simp] theorem mem_receipts {tr : List (Event S)} {r : Receipt S} :
    r ∈ receipts tr ↔ .accepted r ∈ tr := by
  apply Machine.mem_filterMap_iff (f := Event.accepted)
  intro e x
  cases e <;> simp

end Trace

/-! ## State updates -/

namespace Node

variable {S : Suite} (n : Node S)

def setSession (i : Fin MAX_PEERS) (s : Session S) : Node S :=
  { n with table := n.table.set i s }

def setPending (j : Fin MAX_PEERS) (p : PendingHs S) : Node S :=
  { n with pendingHs := Function.update n.pendingHs j p }

def setConfig (idx : Nat) (c : PeerConfig S) : Node S :=
  { n with peerConfigs := n.peerConfigs.set idx c }

/-- `peer_configs[idx]`; the entries beyond `peer_config_count` are zero. -/
def config (idx : Nat) : PeerConfig S := n.peerConfigs.getD idx (.zero S)

@[simp] theorem setSession_table (i : Fin MAX_PEERS) (s : Session S) :
    (n.setSession i s).table = n.table.set i s := rfl

@[simp] theorem setPending_table (j : Fin MAX_PEERS) (p : PendingHs S) :
    (n.setPending j p).table = n.table := rfl

@[simp] theorem setConfig_table (idx : Nat) (c : PeerConfig S) :
    (n.setConfig idx c).table = n.table := rfl

@[simp] theorem setConfig_pendingHs (idx : Nat) (c : PeerConfig S) :
    (n.setConfig idx c).pendingHs = n.pendingHs := rfl

@[simp] theorem setConfig_lastCheck (idx : Nat) (c : PeerConfig S) :
    (n.setConfig idx c).lastCheck = n.lastCheck := rfl

@[simp] theorem setPending_pendingHs (j : Fin MAX_PEERS) (p : PendingHs S) :
    (n.setPending j p).pendingHs = Function.update n.pendingHs j p := rfl

/-- When entry `j` is used up, the entries that are active have not changed. -/
theorem setPending_active {n : Node S} {j : Fin MAX_PEERS} {p : PendingHs S}
    (hp : p.active = false) (k : Fin MAX_PEERS)
    (hk : ((n.setPending j p).pendingHs k).active = true) :
    (n.setPending j p).pendingHs k = n.pendingHs k := by
  rw [setPending_pendingHs] at hk ⊢
  by_cases hkj : k = j
  · subst hkj
    rw [Function.update_self, hp] at hk
    cases hk
  · rw [Function.update_of_ne hkj]

theorem config_congr {n n' : Node S} (h : n'.peerConfigs = n.peerConfigs) (idx : Nat) :
    n'.config idx = n.config idx := by
  rw [config, config, h]

theorem config_setConfig_self {n : Node S} {idx : Nat} (c : PeerConfig S)
    (h : idx < n.peerConfigs.length) : (n.setConfig idx c).config idx = c := by
  simp [config, setConfig, h]

theorem config_setConfig_ne {idx k : Nat} (c : PeerConfig S) (h : k ≠ idx) :
    (n.setConfig idx c).config k = n.config k := by
  simp [config, setConfig, Ne.symm h]

/-- An entry that has an endpoint is below `peer_config_count`: the others are zero. -/
theorem config_lt {n : Node S} {idx : Nat} (h : (n.config idx).hasEndpoint = true) :
    idx < n.peerConfigs.length := by
  by_contra hle
  rw [config, List.getD_eq_getElem?_getD, List.getElem?_eq_none (Nat.le_of_not_lt hle)] at h
  cases h

end Node

/-- `if (s) s->rekeying = 0` for the session of a public key. -/
def clearRekeying {S : Suite} (tb : SessionTable S) (pub : S.Block) : SessionTable S :=
  match findSessionByPub tb pub with
  | none => tb
  | some i => tb.set i { tb.sessions i with rekeying := false }

end Lanecove
