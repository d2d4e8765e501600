import Lanecove.Config.Bounds
import Lanecove.Safety.TableInvariant
import Lanecove.Threads.Serialisation

set_option autoImplicit false

/-! # From the configuration to the threads

`main` loads the configuration, checks it, and hands it to `start_peer`, which opens the tunnel,
binds the socket and starts the threads. Each may give up; a process that gets through has a
configuration that was loaded and accepted, between one and 32 workers, and is bound to the port it
was told. Its session table is well formed however the threads run (`started_serves`).
-/

namespace Lanecove

open CString

/-! ## Checks -/

/-- A check of `main`: whether it fails, and what is logged then. -/
structure Check where
  fails : Bool
  message : String

/-- The check of an interval. -/
def mustBePositive (name : String) (v : Int) : Check :=
  ⟨decide (v ≤ 0), "Config: " ++ name ++ " must be > 0 (got " ++ toString v ++ ")"⟩

section Validation

variable {S : Suite}

/-- The checks of `main`, in its order. -/
def Config.checks (c : Config S) : List Check :=
  [⟨decide (c.tunnel = []), "Config: interface is required"⟩,
    ⟨decide (c.peers.length = 0), "Config: at least one peer is required"⟩,
    ⟨decide (c.port ≤ 0 ∨ 65535 < c.port),
      "Config: port must be 1-65535 (got " ++ toString c.port ++ ")"⟩,
    mustBePositive "keepalive_interval" c.settings.keepaliveInterval,
    mustBePositive "rekey_after" c.settings.rekeyAfter,
    mustBePositive "reconnect_interval" c.settings.reconnectInterval,
    ⟨decide (c.settings.sessionExpiry ≤ c.settings.rekeyAfter),
      "Config: session_expiry (" ++ toString c.settings.sessionExpiry ++
        ") must be greater than rekey_after (" ++ toString c.settings.rekeyAfter ++ ")"⟩,
    mustBePositive "prev_key_grace" c.settings.prevKeyGrace,
    mustBePositive "handshake_timeout" c.settings.handshakeTimeout,
    mustBePositive "handshake_cooldown" c.settings.handshakeCooldown,
    ⟨decide (c.workerThreads < 0),
      "Config: worker_threads must be >= 0 (got " ++ toString c.workerThreads ++ ")"⟩,
    ⟨decide (MAX_WORKER_THREADS < c.workerThreads),
      "Config: worker_threads must be <= " ++ toString MAX_WORKER_THREADS ++ " (got " ++
        toString c.workerThreads ++ ")"⟩]

/-- The first check that fails. -/
def Config.failure (c : Config S) : Option String := (c.checks.find? Check.fails).map Check.message

theorem Config.failure_eq_none {c : Config S} : c.failure = none ↔ c.Accepted := by
  rw [Config.failure, Option.map_eq_none_iff, List.find?_eq_none]
  simp only [Config.checks, mustBePositive, List.forall_mem_cons, decide_eq_true_eq,
    List.not_mem_nil, false_implies, implies_true, and_true]
  rfl

end Validation

/-! ## `main` -/

def DEFAULT_WORKER_THREADS : Int := 4

/-- The number of workers: without a setting, one for each of up to four processors. -/
def workerThreads (nproc configured : Int) : Int :=
  if configured = 0 then
    if 0 < nproc ∧ nproc < DEFAULT_WORKER_THREADS then nproc else DEFAULT_WORKER_THREADS
  else configured

/-- What the system answers while the process starts. -/
structure StartEnv (O : OpenSSL) extends LoadEnv where
  nproc : Int
  loadStaticKey : List Char → Option O.suite.Priv
  openTunnel : List Char → Bool
  socket : Bool
  bind : SockAddr → Bool
  fresh : Option O.suite.Priv
  createWorker : Nat → Bool
  createHousekeeping : Bool

/-- Where the process gives up. -/
inductive StartError where
  | loadConfig
  | config (message : String)
  | staticKey
  | tunnel
  | socket
  | bind
  | worker (i : Nat)
  | housekeeping
  deriving DecidableEq

/-- A process that starts its threads. -/
structure Launched (O : OpenSSL) where
  bindAddr : SockAddr
  ctx : LoopCtx O.suite
  node : Node O.suite
  workers : Nat

variable {O : OpenSSL}

def require (ok : Bool) (e : StartError) : Except StartError Unit :=
  if ok = true then .ok () else .error e

/-- The result of a call, if there is one. -/
def orElse {α : Type} (r : Option α) (e : StartError) : Except StartError α :=
  match r with
  | some x => .ok x
  | none => .error e

/-- The address to bind to; without a setting, any. -/
def bindIp (address : List Char) : Option (BitVec 32) :=
  if address = [] then some 0 else inetPton address

/-- `derive_key`. -/
def OpenSSL.deriveKey (O : OpenSSL) (psk : List Char) : O.suite.Block :=
  O.sha256 (psk.map fun c => UInt8.ofNat c.toNat)

/-- `start_peer`, up to the threads. -/
def startPeer (env : StartEnv O) (c : Config O.suite) (ctx : LoopCtx O.suite) (workers : Int) :
    Except StartError (Launched O) := do
  require (env.openTunnel c.tunnel) .tunnel
  require env.socket .socket
  let ip ← orElse (bindIp c.address)
    (.config ("Config: invalid address: " ++ String.ofList c.address))
  require (env.bind ⟨ip, BitVec.ofInt 16 c.port⟩) .bind
  match (List.range workers.toNat).find? fun i => !env.createWorker i with
  | some i => .error (.worker i)
  | none => do
      require env.createHousekeeping .housekeeping
      pure ⟨⟨ip, BitVec.ofInt 16 c.port⟩, ctx, Node.init c.peers env.fresh, workers.toNat⟩

/-- `main`, for the events of the configuration file. -/
def main (env : StartEnv O) (evs : List YamlEvent) : Except StartError (Launched O) := do
  let c ← orElse (loadConfig env.toLoadEnv (Config.default O.suite) evs) .loadConfig
  match c.failure with
  | some message => .error (.config message)
  | none => do
      let key ← orElse (env.loadStaticKey c.keyfile) .staticKey
      startPeer env c
        { c.settings with
          staticKey := key
          pskKey := if c.hasPsk = true then some (O.deriveKey c.psk) else none }
        (workerThreads env.nproc c.workerThreads)

/-! ## What a process that started has -/

theorem orElse_eq_ok {α : Type} {r : Option α} {e : StartError} {x : α} :
    orElse r e = .ok x ↔ r = some x := by
  cases r <;> simp [orElse]

theorem exists_of_bind_eq_ok {ε α β : Type} {x : Except ε α} {f : α → Except ε β} {b : β}
    (h : x >>= f = .ok b) : ∃ a, x = .ok a ∧ f a = .ok b := by
  cases x with
  | error e => cases h
  | ok a => exact ⟨a, rfl, h⟩

theorem startPeer_eq_ok {env : StartEnv O} {c : Config O.suite} {ctx : LoopCtx O.suite}
    {workers : Int} {p : Launched O} (h : startPeer env c ctx workers = .ok p) :
    ∃ ip, bindIp c.address = some ip ∧
      p = ⟨⟨ip, BitVec.ofInt 16 c.port⟩, ctx, Node.init c.peers env.fresh, workers.toNat⟩ := by
  unfold startPeer at h
  obtain ⟨-, -, h⟩ := exists_of_bind_eq_ok h
  obtain ⟨-, -, h⟩ := exists_of_bind_eq_ok h
  obtain ⟨ip, hip, h⟩ := exists_of_bind_eq_ok h
  obtain ⟨-, -, h⟩ := exists_of_bind_eq_ok h
  refine ⟨ip, orElse_eq_ok.mp hip, ?_⟩
  split at h
  · cases h
  · obtain ⟨-, -, h⟩ := exists_of_bind_eq_ok h
    exact (Except.ok.inj h).symm

/-- How a process came to its threads. -/
theorem main_eq_ok {env : StartEnv O} {evs : List YamlEvent} {p : Launched O}
    (h : main env evs = .ok p) :
    ∃ c key ip, loadConfig env.toLoadEnv (Config.default O.suite) evs = some c ∧ c.Accepted ∧
      env.loadStaticKey c.keyfile = some key ∧ bindIp c.address = some ip ∧
      p = ⟨⟨ip, BitVec.ofInt 16 c.port⟩,
        { c.settings with
          staticKey := key
          pskKey := if c.hasPsk = true then some (O.deriveKey c.psk) else none },
        Node.init c.peers env.fresh, (workerThreads env.nproc c.workerThreads).toNat⟩ := by
  unfold main at h
  obtain ⟨c, hc, h⟩ := exists_of_bind_eq_ok h
  split at h
  · cases h
  · rename_i haccepted
    obtain ⟨key, hkey, h⟩ := exists_of_bind_eq_ok h
    obtain ⟨ip, hip, hp⟩ := startPeer_eq_ok h
    exact ⟨c, key, ip, orElse_eq_ok.mp hc, Config.failure_eq_none.mp haccepted,
      orElse_eq_ok.mp hkey, hip, hp⟩

theorem workerThreads_bounds (nproc : Int) {configured : Int} (hlow : ¬ configured < 0)
    (hhigh : ¬ MAX_WORKER_THREADS < configured) :
    1 ≤ workerThreads nproc configured ∧ workerThreads nproc configured ≤ MAX_WORKER_THREADS := by
  unfold workerThreads DEFAULT_WORKER_THREADS
  unfold MAX_WORKER_THREADS at *
  split_ifs <;> omega

/-- `htons` keeps a port that was checked. -/
theorem htons_port {port : Int} (h : ¬ (port ≤ 0 ∨ 65535 < port)) :
    ((BitVec.ofInt 16 port).toNat : Int) = port := by
  rw [BitVec.toNat_ofInt]
  omega

/-! ## The tables of a process -/

section Tables

variable {S : Suite} {W : Type} [DecidableEq W]

/-- The invariant of the table says nothing about what the data path writes. -/
theorem TableInv.of_cold {n n' : Node S} (h : TableInv n) (hcold : n'.cold = n.cold) :
    TableInv n' := by
  have hinv : TableInv n.cold := ⟨h.below, h.slots, h.unique, h.configured, h.pending⟩
  rw [← hcold] at hinv
  exact ⟨hinv.below, hinv.slots, hinv.unique, hinv.configured, hinv.pending⟩

omit [DecidableEq W] in
/-- While nobody writes, the tables are those after some branches, but for what the data path
writes. -/
theorem Refines.cold {ctx : LoopCtx S} {n₀ : Node S} {c : Threads S W} {tr : List (Event S)}
    (h : Refines ctx n₀ c tr) (hw : c.writer = none) :
    ∃ is, c.shared.node.cold = ((node ctx).run (n₀, []) is).1.cold := by
  obtain ⟨g, hg, hbacked⟩ := h.reading hw
  obtain ⟨is, hnode, -⟩ := hbacked (fun i => (g.base i).lastSent) fun _ _ => rfl
  exact ⟨is, by rw [hnode, hg.cold_node]⟩

theorem threads_tableInv (ctx : LoopCtx S) (cfgs : List (PeerConfig S)) (fresh : Option S.Priv)
    (sched : List (Thread W × Env S))
    (hw : ((threads ctx).run (startThreads (Node.init cfgs fresh), []) sched).1.writer = none) :
    TableInv ((threads ctx).run (startThreads (Node.init cfgs fresh), []) sched).1.shared.node ∧
      ((threads ctx).run (startThreads (Node.init cfgs fresh),
        []) sched).1.shared.node.peerConfigs.map PeerConfig.fixed = cfgs.map PeerConfig.fixed := by
  obtain ⟨is, hcold⟩ := (refines_run ctx (Node.init cfgs fresh) sched).cold hw
  obtain ⟨hinv, hcfgs⟩ := tableInv_run ctx cfgs fresh is
  have hconfigs := congrArg Node.peerConfigs hcold
  exact ⟨hinv.of_cold hcold, (congrArg (List.map PeerConfig.fixed) hconfigs).trans hcfgs⟩

end Tables

/-- What holds of a process with the configuration `c`, and of its tables however its threads
run. -/
structure Launched.Serves (c : Config O.suite) (p : Launched O) : Prop where
  workers : 1 ≤ p.workers ∧ (p.workers : Int) ≤ MAX_WORKER_THREADS
  port : (p.bindAddr.port.toNat : Int) = c.port
  address : bindIp c.address = some p.bindAddr.ip
  settings : p.ctx.toSettings = c.settings
  psk : p.ctx.pskKey.isSome = c.hasPsk
  table : ∀ sched : List (Thread (Fin p.workers) × Env O.suite),
    ((threads p.ctx).run (startThreads p.node, []) sched).1.writer = none →
    TableWellFormed c.peers
      ((threads p.ctx).run (startThreads p.node, []) sched).1.shared.node.table

/-- **From the configuration to the threads.** Whatever the file and the system say, a process that
gets to its threads has a configuration that was loaded and accepted, and serves it. -/
theorem started_serves (env : StartEnv O) (evs : List YamlEvent) (p : Launched O)
    (h : main env evs = .ok p) :
    ∃ c, loadConfig env.toLoadEnv (Config.default O.suite) evs = some c ∧ c.Accepted ∧
      c.WellFormed env.toLoadEnv ∧ p.Serves c := by
  obtain ⟨c, key, ip, hload, haccepted, -, hip, rfl⟩ := main_eq_ok h
  have hbounds := loadConfig_wellFormed hload
  refine ⟨c, hload, haccepted, hbounds, ?_⟩
  obtain ⟨-, -, hport, -, -, -, -, -, -, -, hlow, hhigh⟩ := haccepted
  obtain ⟨hone, hmax⟩ := workerThreads_bounds env.nproc hlow hhigh
  refine ⟨⟨?_, ?_⟩, htons_port hport, hip, rfl, ?_, fun sched hw => ?_⟩
  · show 1 ≤ (workerThreads env.nproc c.workerThreads).toNat
    omega
  · show ((workerThreads env.nproc c.workerThreads).toNat : Int) ≤ _
    rwa [Int.toNat_of_nonneg (by omega)]
  · show (if c.hasPsk = true then some (O.deriveKey c.psk) else none).isSome = c.hasPsk
    cases c.hasPsk <;> rfl
  · obtain ⟨hinv, hcfgs⟩ := threads_tableInv _ c.peers env.fresh sched hw
    exact hinv.wellFormed hcfgs hbounds.peerCount

/-- Two processors, and a system in which everything works. -/
def willingEnv : StartEnv xorOpenSSL where
  toLoadEnv := plainEnv
  nproc := 2
  loadStaticKey _ := some (xorKey 2)
  openTunnel _ := true
  socket := true
  bind _ := true
  fresh := some (xorKey 8)
  createWorker _ := true
  createHousekeeping := true

theorem started_serves_completeDoc :
    ∃ p, main willingEnv completeDoc.events = .ok p ∧ p.workers = 2 ∧
      ∃ c, loadConfig plainEnv (Config.default xorOpenSSL.suite) completeDoc.events = some c ∧
        c.Accepted ∧ c.WellFormed plainEnv ∧ p.Serves c := by
  have hstart : (main willingEnv completeDoc.events).toOption.map Launched.workers = some 2 := by
    decide +kernel
  obtain ⟨p, hp, hworkers⟩ := Option.map_eq_some_iff.mp hstart
  cases hmain : main willingEnv completeDoc.events with
  | error e =>
      rw [hmain] at hp
      cases hp
  | ok q =>
      obtain rfl : q = p := by
        rw [hmain] at hp
        exact Option.some.inj hp
      exact ⟨q, rfl, hworkers, started_serves willingEnv completeDoc.events q hmain⟩

end Lanecove
