import Lanecove.Network.Origin
import Lanecove.Peer.Fields

set_option autoImplicit false

/-! # What the allowlist of a session lets through

The source check of the data branch runs only on payloads that look like IPv4: at least 20
bytes, version 4. The decision to relay has a check of its own, and the TUN device is written
without one. So the allowlist is enforced on a datagram exactly if its payload is an IPv4 packet
or empty (`allowed_ips_enforced_iff`); anything else is written to the TUN device, whatever the
routes of the session are (`ipv6_payload_delivered`).
-/

namespace Lanecove

variable {S : Suite}

/-- An IPv4 packet whose source lies in one of the routes of the session. -/
def Allowed (s : Session S) (payload : List UInt8) : Prop :=
  isIpv4 payload = true ∧ s.routes.any (fun p => p.contains (ipAt payload 12)) = true

instance (s : Session S) (payload : List UInt8) : Decidable (Allowed s payload) :=
  inferInstanceAs (Decidable (_ ∧ _))

/-- What one would like of the events `ev` of a datagram on session `s`: what is written to the
TUN device or relayed is allowed, and after any other payload nothing happens. -/
structure AllowedIpsEnforced (s : Session S) (ev : List (Event S)) : Prop where
  delivered : ∀ r fwd, .delivered r fwd ∈ ev → Allowed s r.payload
  dropped : ∀ r, .accepted r ∈ ev → ¬ Allowed s r.payload → ev = [.accepted r]

/-- On a session with routes, the source check passes for allowed packets and for everything
that is not IPv4. -/
theorem sourceAllowed_iff {s : Session S} (hroutes : 0 < s.routes.length)
    (payload : List UInt8) :
    sourceAllowed s payload = true ↔ Allowed s payload ∨ isIpv4 payload = false := by
  unfold sourceAllowed Allowed
  cases hip : isIpv4 payload with
  | false => simp
  | true =>
      have hne : s.routes.length ≠ 0 := Nat.ne_of_gt hroutes
      simp [hroutes, checkAllowedSrc, hne]

/-- The events of a datagram that was accepted. -/
theorem dataPacket_accepted {n : Node S} {src : SockAddr} {i : Fin MAX_PEERS}
    (hf : findSessionByAddr n.table src = some i) (pkt : S.Wire) (now clock : Int)
    (iv : Option S.Iv) (ok : Bool) :
    ((receive (n.table.sessions i) i pkt now).2 = none ∧
      (dataPacket n src pkt now clock iv ok).2 = []) ∨
    ∃ m r, (receive (n.table.sessions i) i pkt now).2 = some r ∧
      (dataPacket n src pkt now clock iv ok).2 = .accepted r :: (deliver m r iv ok clock).2 ∧
      (m.table.sessions r.slot).routes = (n.table.sessions i).routes := by
  unfold dataPacket
  rw [hf]
  dsimp only
  rcases hrec : receive (n.table.sessions i) i pkt now with ⟨s, _ | r⟩
  · exact .inl ⟨rfl, rfl⟩
  · refine .inr ⟨n.setSession i s, r, rfl, rfl, ?_⟩
    obtain ⟨b, w, hs⟩ := receive_session (n.table.sessions i) i pkt now
    rw [hrec] at hs
    rw [(receive_eq_some hrec).1, Node.setSession_table, SessionTable.set_sessions_self,
      show s = _ from hs]

/-- What happens to an accepted payload. -/
theorem deliver_events (n : Node S) (r : Receipt S) (iv : Option S.Iv) (ok : Bool) (now : Int) :
    ((r.payload = [] ∨ sourceAllowed (n.table.sessions r.slot) r.payload = false) ∧
      (deliver n r iv ok now).2 = []) ∨
    (r.payload ≠ [] ∧ sourceAllowed (n.table.sessions r.slot) r.payload = true ∧
      ∃ fwd ev, (deliver n r iv ok now).2 = .delivered r fwd :: ev ∧
        ∀ e ∈ ev, ∃ x, e = .dataSent x) := by
  unfold deliver
  by_cases hzero : r.payload.length = 0
  · exact .inl ⟨.inl (List.eq_nil_of_length_eq_zero hzero), by rw [if_pos hzero]⟩
  · have hne : r.payload ≠ [] := fun h => hzero (by rw [h]; rfl)
    rw [if_neg hzero]
    cases hsrc : sourceAllowed (n.table.sessions r.slot) r.payload with
    | false => exact .inl ⟨.inr rfl, rfl⟩
    | true =>
        refine .inr ⟨hne, rfl, ?_⟩
        rw [if_pos rfl]
        cases relayTarget n.table r.slot r.payload with
        | none => exact ⟨none, [], rfl, nofun⟩
        | some f =>
            refine ⟨some f, _, rfl, ?_⟩
            intro e he
            unfold forwardToPeer at he
            split at he
            · cases he
            · split at he
              · exact ⟨_, List.mem_singleton.mp he⟩
              · cases he

/-- Nothing happens after the payload was accepted. -/
theorem enforced_of_dropped (s : Session S) (r : Receipt S) :
    AllowedIpsEnforced s [.accepted r] where
  delivered r' fwd h := by cases List.mem_singleton.mp h
  dropped r' h _ := by rw [Event.accepted.inj (List.mem_singleton.mp h)]

section Delivered

variable {s : Session S} {r : Receipt S} {fwd : Option (Fin MAX_PEERS)} {ev : List (Event S)}
  (hrest : ∀ e ∈ ev, ∃ x, e = .dataSent x)

include hrest

theorem accepted_of_mem {r' : Receipt S}
    (h : .accepted r' ∈ .accepted r :: .delivered r fwd :: ev) : r' = r := by
  rcases List.mem_cons.mp h with heq | h
  · exact Event.accepted.inj heq
  rcases List.mem_cons.mp h with heq | h
  · cases heq
  · obtain ⟨x, hx⟩ := hrest _ h
    cases hx

theorem delivered_of_mem {r' : Receipt S} {fwd' : Option (Fin MAX_PEERS)}
    (h : .delivered r' fwd' ∈ .accepted r :: .delivered r fwd :: ev) : r' = r := by
  rcases List.mem_cons.mp h with heq | h
  · cases heq
  rcases List.mem_cons.mp h with heq | h
  · exact (Event.delivered.inj heq).1
  · obtain ⟨x, hx⟩ := hrest _ h
    cases hx

/-- The payload is written to the TUN device, or relayed. -/
theorem enforced_delivered_iff :
    AllowedIpsEnforced s (.accepted r :: .delivered r fwd :: ev) ↔ Allowed s r.payload := by
  constructor
  · intro h
    exact h.delivered r fwd (List.mem_cons_of_mem _ List.mem_cons_self)
  · intro hok
    refine ⟨fun r' fwd' h => ?_, fun r' h hno => ?_⟩
    · rw [delivered_of_mem hrest h]
      exact hok
    · rw [accepted_of_mem hrest h] at hno
      exact absurd hok hno

end Delivered

/-- **The allowlist of a session.** For every state and every data datagram on a session with at
least one route, what is written to the TUN device or relayed is an IPv4 packet from one of the
routes and everything else is dropped, if and only if the payload that the session accepts, if any,
is an IPv4 packet or empty. -/
theorem allowed_ips_enforced_iff (ctx : LoopCtx S) (n : Node S) (d : Datagram S)
    (i : Fin MAX_PEERS) (hd : isHandshake ctx d.pkt = false)
    (hf : findSessionByAddr n.table d.src = some i)
    (hroutes : 0 < (n.table.sessions i).routes.length) :
    AllowedIpsEnforced (n.table.sessions i) ((node ctx).step n (.udp d)).2 ↔
      ∀ r, (receive (n.table.sessions i) i d.pkt d.now).2 = some r →
        isIpv4 r.payload = true ∨ r.payload = [] := by
  have hstep : (node ctx).step n (.udp d)
      = dataPacket n d.src d.pkt d.now d.clock d.iv d.sendOk := udpPacket_of_data hd n
  rw [hstep]
  rcases dataPacket_accepted hf d.pkt d.now d.clock d.iv d.sendOk with
    ⟨hnone, hev⟩ | ⟨m, r, hsome, hev, hsame⟩
  · rw [hnone, hev]
    exact ⟨fun _ _ h => (nomatch h), fun _ => ⟨nofun, nofun⟩⟩
  rw [hsome, hev]
  have hroutes' : 0 < (m.table.sessions r.slot).routes.length := by rw [hsame]; exact hroutes
  have hallowed : Allowed (m.table.sessions r.slot) r.payload
      ↔ Allowed (n.table.sessions i) r.payload := by
    unfold Allowed
    rw [hsame]
  have hsrc := sourceAllowed_iff hroutes' r.payload
  rw [hallowed] at hsrc
  rcases deliver_events m r d.iv d.sendOk d.clock with
    ⟨hdrop, hnil⟩ | ⟨hne, hpass, fwd, ev, hdel, hrest⟩
  · -- a keepalive, or an IPv4 packet with a wrong source
    rw [hnil]
    refine iff_of_true (enforced_of_dropped _ r) fun r' hr' => ?_
    obtain rfl := Option.some.inj hr'
    refine hdrop.symm.imp_left fun hfail => ?_
    by_contra hip
    rw [hsrc.mpr (.inr (Bool.eq_false_iff.mpr hip))] at hfail
    cases hfail
  · rw [hdel, enforced_delivered_iff hrest]
    constructor
    · intro hok r' hr'
      obtain rfl := Option.some.inj hr'
      exact .inl hok.1
    · intro hip
      -- the payload passed the source check, and it is not one that is not looked at
      refine (hsrc.mp hpass).resolve_right fun hno => ?_
      rw [(hip r rfl).resolve_right hne] at hno
      cases hno

/-! ## Two runs -/

/-- Node `1`, whose peer `2` may send from `10.0.0.2` only, after peer `2` has connected. -/
def allowlistRun : (node (ctxOf 1)).Config :=
  (node (ctxOf 1)).run
    (Node.init [{ peerOf 2 with routes := [⟨0x0a000002, 0xffffffff, 32⟩] }] (some 100), [])
    [arrival (addrOf 2) (initiationOf 2 1 12) 100 101]

/-- A datagram of peer `2` with the given payload. -/
def payloadFrom2 (payload : List UInt8) : Datagram symbolic :=
  ⟨addrOf 2, dataOf (keyOf 2 1 12 100) 1 payload, 110, 110, none, true, none⟩

/-- The smallest IPv6 packet: a header without a payload. -/
def ipv6Packet : List UInt8 := 0x60 :: List.replicate 39 0

/-- IPv4 packets are filtered. -/
theorem allowed_ips_enforced_ipHeader :
    let n := allowlistRun.1
    (0 < (n.table.sessions ⟨0, by decide⟩).routes.length ∧
      AllowedIpsEnforced (n.table.sessions ⟨0, by decide⟩)
        ((node (ctxOf 1)).step n (.udp (payloadFrom2 (ipHeader 2 1)))).2) ∧
    (deliveries ((node (ctxOf 1)).step n (.udp (payloadFrom2 (ipHeader 2 1)))).2).map
      Receipt.payload = [ipHeader 2 1] ∧
    (deliveries ((node (ctxOf 1)).step n (.udp (payloadFrom2 (ipHeader 3 1)))).2).map
      Receipt.payload = [] := by
  intro n
  have hroutes : 0 < (n.table.sessions ⟨0, by decide⟩).routes.length := by decide +kernel
  refine ⟨⟨hroutes, ?_⟩, by decide +kernel, by decide +kernel⟩
  refine (allowed_ips_enforced_iff (ctxOf 1) n (payloadFrom2 (ipHeader 2 1)) ⟨0, by decide⟩
    (by decide +kernel) (by decide +kernel) hroutes).mpr ?_
  intro r hr
  have hall : ∀ r ∈ (receive (n.table.sessions ⟨0, by decide⟩) ⟨0, by decide⟩
      (payloadFrom2 (ipHeader 2 1)).pkt (payloadFrom2 (ipHeader 2 1)).now).2,
      isIpv4 r.payload = true := by
    decide +kernel
  exact .inl (hall r hr)

/-- An IPv6 packet on the same session is written to the TUN device. -/
theorem ipv6_payload_delivered :
    let n := allowlistRun.1
    let d := payloadFrom2 ipv6Packet
    isHandshake (ctxOf 1) d.pkt = false ∧
    findSessionByAddr n.table d.src = some ⟨0, by decide⟩ ∧
    0 < (n.table.sessions ⟨0, by decide⟩).routes.length ∧
    (deliveries ((node (ctxOf 1)).step n (.udp d)).2).map Receipt.payload = [ipv6Packet] ∧
    ¬ AllowedIpsEnforced (n.table.sessions ⟨0, by decide⟩)
      ((node (ctxOf 1)).step n (.udp d)).2 := by
  intro n d
  have hdel : (deliveries ((node (ctxOf 1)).step n (.udp d)).2).map Receipt.payload
      = [ipv6Packet] := by decide +kernel
  refine ⟨by decide +kernel, by decide +kernel, by decide +kernel, hdel, ?_⟩
  intro h
  obtain ⟨r, hr, hpay⟩ := List.mem_map.mp (hdel ▸ List.mem_singleton_self ipv6Packet)
  obtain ⟨e, he, hre⟩ := List.mem_filterMap.mp hr
  cases e with
  | delivered r' fwd =>
      obtain rfl := Option.some.inj hre
      have hip := (h.delivered r' fwd he).1
      rw [hpay] at hip
      exact absurd hip (by decide)
  | _ => cases hre

end Lanecove
