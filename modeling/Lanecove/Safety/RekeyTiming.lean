import Lanecove.Config.Required
import Lanecove.Safety.PendingHandshakes

set_option autoImplicit false

/-! # When sessions are rekeyed

A pass judges a session in need of a new handshake when `cfg_rekey_after * 4 / 5` seconds have
passed since its last one. The product is an `int`. The settings come from `atoi`, so they are
`int`s too (`loadConfig_ints`), and `main` checks that `rekey_after` is positive and below
`session_expiry`, which leaves room for values whose product with four is none. For exactly
these values the threshold is not four fifths of the setting.
-/

namespace Lanecove

open CString

/-! ## Settings are `int`s -/

/-- The value of an `int`. -/
def IsInt (x : Int) : Prop := -2 ^ 31 ≤ x ∧ x < 2 ^ 31

theorem isInt_atoi (v : List Char) : IsInt (atoi v) := by
  have hlow := Int.le_bmod (x := strtol v) (m := 2 ^ 32) (by decide)
  have hhigh := Int.bmod_lt (x := strtol v) (m := 2 ^ 32) (by decide)
  rw [IsInt, atoi]
  omega

/-- Every setting is an `int`. -/
structure Settings.Ints (s : Settings) : Prop where
  rekeyAfter : IsInt s.rekeyAfter
  reconnectInterval : IsInt s.reconnectInterval
  sessionExpiry : IsInt s.sessionExpiry
  prevKeyGrace : IsInt s.prevKeyGrace
  handshakeTimeout : IsInt s.handshakeTimeout
  handshakeCooldown : IsInt s.handshakeCooldown
  keepaliveInterval : IsInt s.keepaliveInterval

theorem Settings.ints_default : Settings.default.Ints := by
  constructor <;> exact ⟨by decide, by decide⟩

theorem RootKey.ints_set {S : Suite} {c : Config S} (h : c.settings.Ints) (k : RootKey)
    (v : List Char) : (k.set v c).settings.Ints := by
  have hv := isInt_atoi v
  cases k with
  | rekeyAfter => exact { h with rekeyAfter := hv }
  | reconnectInterval => exact { h with reconnectInterval := hv }
  | sessionExpiry => exact { h with sessionExpiry := hv }
  | prevKeyGrace => exact { h with prevKeyGrace := hv }
  | handshakeTimeout => exact { h with handshakeTimeout := hv }
  | handshakeCooldown => exact { h with handshakeCooldown := hv }
  | keepaliveInterval => exact { h with keepaliveInterval := hv }
  | _ => exact h

section Load

variable {O : OpenSSL} {env : LoadEnv}

/-- **One assignment** keeps the settings `int`s. -/
theorem Settings.Ints.assigned {c c' : Config O.suite} {a : Assignment} (h : c.settings.Ints)
    (ha : Assigned env c a c') : c'.settings.Ints := by
  cases ha with
  | setting k v => exact RootKey.ints_set h k v
  | _ => exact h

/-- **The settings of a configuration that was loaded are `int`s.** -/
theorem loadConfig_ints {evs : List YamlEvent} {c : Config O.suite}
    (h : loadConfig env (Config.default O.suite) evs = some c) : c.settings.Ints :=
  assign_invariant (I := fun c => c.settings.Ints) (fun _ _ _ _ hc ha => hc.assigned ha)
    Settings.ints_default (loadConfig_eq_some h)

end Load

/-! ## The threshold -/

/-- The product with four, wrapped, gives four fifths if and only if it is an `int`. -/
theorem four_fifths_wrapped {r : Int} (hr : 0 < r) :
    (Int.bmod (r * 4) (2 ^ 32)).tdiv 5 = 4 * r / 5 ↔ 4 * r < 2 ^ 31 := by
  constructor
  · intro h
    by_contra hbig
    -- what is left of the product is a multiple of four below `2 ^ 31`
    have hwrap : Int.bmod (r * 4) (2 ^ 32) ≤ 2 ^ 31 - 4 := by
      unfold Int.bmod
      dsimp only
      split <;> omega
    have hdiv : (Int.bmod (r * 4) (2 ^ 32)).tdiv 5 ≤ (2 ^ 31 - 4 : Int).tdiv 5 :=
      Int.tdiv_le_tdiv (by decide) hwrap
    have hmax : (2 ^ 31 - 4 : Int).tdiv 5 = 429496728 := by decide
    omega
  · intro hfit
    rw [Int.bmod_eq_of_le_mul_two (by omega) (by omega), Int.tdiv_eq_ediv_of_nonneg (by omega),
      Int.mul_comm]

section Timing

variable {S : Suite}

/-- Sessions are rekeyed on time: the threshold is four fifths of `rekey_after`, rounded down, and
when a pass comes to a configuration with an endpoint and there is a session with this peer, the
session needs a handshake if and only if that many seconds have passed since its last one and it
is not rekeying already. -/
structure RekeysOnTime (ctx : LoopCtx S) : Prop where
  threshold : rekeyThreshold ctx = 4 * ctx.rekeyAfter / 5
  judged : ∀ (n : Node S) (pass : PassInput S) (idx : Nat) (i : Fin MAX_PEERS),
    ((connecting ctx pass n idx).config idx).hasEndpoint = true →
    findSessionByPub (connecting ctx pass n idx).table
      ((connecting ctx pass n idx).config idx).pub = some i →
    (needsHandshake ctx (connecting ctx pass n idx) pass.now (some i) = true ↔
      4 * ctx.rekeyAfter / 5
          ≤ pass.now - ((connecting ctx pass n idx).table.sessions i).lastHandshake ∧
        ((connecting ctx pass n idx).table.sessions i).rekeying = false)

theorem needsHandshake_some_iff (ctx : LoopCtx S) (n : Node S) (now : Int) (i : Fin MAX_PEERS) :
    needsHandshake ctx n now (some i) = true ↔
      rekeyThreshold ctx ≤ now - (n.table.sessions i).lastHandshake ∧
        (n.table.sessions i).rekeying = false := by
  simp only [needsHandshake, Bool.and_eq_true, decide_eq_true_eq, Bool.not_eq_true']
  exact and_congr_left fun _ => by omega

/-- It is the threshold that decides. -/
theorem rekeysOnTime_iff {ctx : LoopCtx S} :
    RekeysOnTime ctx ↔ rekeyThreshold ctx = 4 * ctx.rekeyAfter / 5 := by
  refine ⟨RekeysOnTime.threshold, fun h => ⟨h, fun n pass idx i _ _ => ?_⟩⟩
  rw [needsHandshake_some_iff, h]

end Timing

/-- **Rekey timing.** For every configuration that is loaded and accepted, `rekey_after` is a
positive `int` below `session_expiry`, and sessions are rekeyed on time if and only if four times
`rekey_after` is an `int` as well. -/
theorem rekey_timing_iff {O : OpenSSL} (env : LoadEnv) (evs : List YamlEvent)
    (c : Config O.suite) (hload : loadConfig env (Config.default O.suite) evs = some c)
    (hacc : c.Accepted) (ctx : LoopCtx O.suite) (hctx : ctx.toSettings = c.settings) :
    (0 < c.settings.rekeyAfter ∧ c.settings.rekeyAfter < c.settings.sessionExpiry ∧
      c.settings.sessionExpiry < 2 ^ 31) ∧
    (RekeysOnTime ctx ↔ 4 * c.settings.rekeyAfter < 2 ^ 31) := by
  obtain ⟨-, -, -, -, hpos, -, hexpiry, -⟩ := hacc
  have hr : 0 < c.settings.rekeyAfter := by omega
  refine ⟨⟨hr, by omega, (loadConfig_ints hload).sessionExpiry.2⟩, ?_⟩
  rw [rekeysOnTime_iff, rekeyThreshold, hctx]
  exact four_fifths_wrapped hr

/-! ## A short interval, and one that is too long -/

theorem exists_accepted (env : LoadEnv) (evs : List YamlEvent) {r : Int}
    (h : (loadConfig env (Config.default xorOpenSSL.suite) evs).map
      (fun c => (decide c.Accepted, c.settings.rekeyAfter)) = some (true, r)) :
    ∃ c, loadConfig env (Config.default xorOpenSSL.suite) evs = some c ∧ c.Accepted ∧
      c.settings.rekeyAfter = r := by
  obtain ⟨c, hc, heq⟩ := Option.map_eq_some_iff.mp h
  obtain ⟨hacc, hr⟩ := Prod.mk.inj heq
  exact ⟨c, hc, of_decide_eq_true hacc, hr⟩

/-- The node with static key `2`. -/
def timedCtx (s : Settings) : LoopCtx xorOpenSSL.suite :=
  { s with staticKey := xorKey 2, pskKey := none }

/-- The default of three minutes. -/
theorem rekey_timing_default :
    ∃ c, loadConfig plainEnv (Config.default xorOpenSSL.suite) completeDoc.events = some c ∧
      c.Accepted ∧ c.settings.rekeyAfter = 180 ∧ RekeysOnTime (timedCtx c.settings) := by
  have hload : (loadConfig plainEnv (Config.default xorOpenSSL.suite) completeDoc.events).map
      (fun c => (decide c.Accepted, c.settings.rekeyAfter)) = some (true, 180) := by
    decide +kernel
  obtain ⟨c, hc, hacc, hr⟩ := exists_accepted _ _ hload
  refine ⟨c, hc, hacc, hr, (rekey_timing_iff plainEnv _ c hc hacc _ rfl).2.mpr ?_⟩
  rw [hr]
  decide

/-- The resolver knows the host. -/
def resolvingEnv : LoadEnv := ⟨true, fun _ _ => some ⟨1, 5040⟩⟩

/-- The stream of a configuration with one outbound peer that asks for a rekey every 19 years. -/
def longEvents : List YamlEvent :=
  [.streamStart, .documentStart, .mappingStart,
    .scalar "interface".toList, .scalar "tun0".toList,
    .scalar "rekey_after".toList, .scalar "600000000".toList,
    .scalar "session_expiry".toList, .scalar "2000000000".toList,
    .scalar "peers".toList, .sequenceStart, .mappingStart,
    .scalar "public_key".toList, .scalar onesHex,
    .scalar "endpoint".toList, .scalar "10.0.0.1:5040".toList,
    .scalar "allowed_ips".toList, .sequenceStart, .scalar "10.9.0.0/24".toList, .sequenceEnd,
    .mappingEnd, .sequenceEnd, .mappingEnd, .documentEnd, .streamEnd]

/-- The node after the peer with static key `1` has connected, at time 100. -/
def longConnected (c : Config xorOpenSSL.suite) : Node xorOpenSSL.suite :=
  let pkt := OpenSSL.handshakePacket (xorKey 4) (xorOpenSSL.sealIdentity (xorKey 6) (xorKey 1)) none
  ((node (timedCtx c.settings)).run (Node.init c.peers (some (xorKey 8)), [])
    [.udp ⟨⟨1, 5040⟩, pkt, 100, 100, none, true, none⟩]).1

/-- The configuration is accepted, and its threshold is negative: every session needs a handshake
from its last one on, the session of the outbound peer for one after ten seconds. -/
theorem rekey_threshold_overflows :
    ∃ c, loadConfig resolvingEnv (Config.default xorOpenSSL.suite) longEvents = some c ∧
      c.Accepted ∧ c.settings.rekeyAfter = 600000000 ∧
      (∀ ctx : LoopCtx xorOpenSSL.suite, ctx.toSettings = c.settings →
        rekeyThreshold ctx = -378993459 ∧ ¬ RekeysOnTime ctx ∧
        ∀ n now i, (n.table.sessions i).lastHandshake ≤ now →
          (n.table.sessions i).rekeying = false → needsHandshake ctx n now (some i) = true) ∧
      ((longConnected c).config 0).hasEndpoint = true ∧
      findSessionByPub (longConnected c).table ((longConnected c).config 0).pub
        = some ⟨0, by decide⟩ ∧
      ((longConnected c).table.sessions ⟨0, by decide⟩).lastHandshake = 100 ∧
      needsHandshake (timedCtx c.settings) (longConnected c) 110 (some ⟨0, by decide⟩) = true := by
  have hload : (loadConfig resolvingEnv (Config.default xorOpenSSL.suite) longEvents).map
      (fun c => (decide c.Accepted, c.settings.rekeyAfter)) = some (true, 600000000) := by
    decide +kernel
  have hrun : (loadConfig resolvingEnv (Config.default xorOpenSSL.suite) longEvents).map
      (fun c => (((longConnected c).config 0).hasEndpoint,
        findSessionByPub (longConnected c).table ((longConnected c).config 0).pub,
        ((longConnected c).table.sessions ⟨0, by decide⟩).lastHandshake,
        ((longConnected c).table.sessions ⟨0, by decide⟩).rekeying))
      = some (true, some ⟨0, by decide⟩, 100, false) := by
    decide +kernel
  obtain ⟨c, hc, hacc, hr⟩ := exists_accepted _ _ hload
  rw [hc, Option.map_some, Option.some.injEq] at hrun
  obtain ⟨hendpoint, hfound, hlast, hmark⟩ : _ ∧ _ ∧ _ ∧ _ := by
    simpa only [Prod.mk.injEq] using hrun
  have hthreshold : ∀ ctx : LoopCtx xorOpenSSL.suite, ctx.toSettings = c.settings →
      rekeyThreshold ctx = -378993459 := by
    intro ctx hctx
    rw [rekeyThreshold, hctx, hr]
    decide
  refine ⟨c, hc, hacc, hr, ?_, hendpoint, hfound, hlast, ?_⟩
  · intro ctx hctx
    refine ⟨hthreshold ctx hctx, ?_, ?_⟩
    · intro h
      have heq := h.threshold
      rw [hthreshold ctx hctx, hctx, hr] at heq
      revert heq
      decide
    · intro n now i hle hfree
      rw [needsHandshake_some_iff, hthreshold ctx hctx]
      exact ⟨by omega, hfree⟩
  · rw [needsHandshake_some_iff, hthreshold _ rfl, hlast]
    exact ⟨by decide, hmark⟩

end Lanecove
