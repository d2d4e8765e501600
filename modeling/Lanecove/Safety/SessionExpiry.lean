import Lanecove.Safety.KeyRetirement
import Lanecove.Safety.TableInvariant

set_option autoImplicit false

/-! # Idle sessions expire

`housekeeping_loop` ends a session that has been silent for more than `session_expiry` seconds,
counted from `last_seen`, or from `last_handshake` as long as nothing has been seen. But
`last_seen` is set for every datagram that comes from the address of the session, before anything
is decrypted. So a datagram that nobody has authenticated changes the session, and keeps it alive.

Without such datagrams, and with a clock that does not go back, a session ends exactly when its
last handshake and the last datagram that decrypted are too old (`idle_sessions_expire`). When
datagrams were decrypted is a history variable, for it is not in the trace: they need not have
been accepted.
-/

namespace Lanecove

variable {S : Suite}

/-! ## Datagrams that do not decrypt -/

/-- Neither the current nor the still valid previous key of the session at the source address
opens the datagram. -/
def Undecryptable (n : Node S) (d : Datagram S) : Prop :=
  ∀ i, findSessionByAddr n.table d.src = some i →
    (decryptSession (n.table.sessions i) d.pkt d.now).2 = none

/-- Data that does not decrypt comes from an address without a session, or at a time that the
session has noted already. -/
def NothingNew (ctx : LoopCtx S) (n : Node S) : Input S → Prop
  | .udp d => isHandshake ctx d.pkt = false → ∀ i, findSessionByAddr n.table d.src = some i →
      (decryptSession (n.table.sessions i) d.pkt d.now).2 = none →
      (n.table.sessions i).lastSeen = d.now
  | _ => True

/-- The time is noted all the same. -/
theorem decryptSession_of_none {s : Session S} {pkt : S.Wire} {now : Int}
    (h : (decryptSession s pkt now).2 = none) :
    decryptSession s pkt now = ({ s with lastSeen := now }, none) := by
  revert h
  unfold decryptSession
  split
  · intro h
    cases h
  · split
    · exact fun h => Prod.ext rfl h
    · exact fun _ => rfl

/-- In any state, a datagram that does not decrypt leaves the sessions as they were if and only
if it has nothing new to note. -/
theorem dataPacket_undecryptable {ctx : LoopCtx S} {n : Node S} {d : Datagram S}
    (hd : isHandshake ctx d.pkt = false) (hno : Undecryptable n d) :
    ((node ctx).step n (.udp d)).1.table.sessions = n.table.sessions ↔
      NothingNew ctx n (.udp d) := by
  show (udpPacket ctx n d).1.table.sessions = n.table.sessions ↔ _
  rw [udpPacket_of_data hd]
  unfold dataPacket
  cases hf : findSessionByAddr n.table d.src with
  | none => exact ⟨fun _ _ i hi => (nomatch hf.symm.trans hi), fun _ => rfl⟩
  | some i =>
      have hrec : receive (n.table.sessions i) i d.pkt d.now
          = ({ n.table.sessions i with lastSeen := d.now }, none) := by
        unfold receive
        rw [decryptSession_of_none (hno i hf)]
      dsimp only
      rw [hrec]
      constructor
      · intro h _ j hj _
        obtain rfl := Option.some.inj (hf.symm.trans hj)
        have hi := congrArg Session.lastSeen (congrFun h i)
        rw [Node.setSession_table, SessionTable.set_sessions_self] at hi
        exact hi.symm
      · intro h
        have hseen := h hd i hf (hno i hf)
        show Function.update n.table.sessions i _ = _
        rw [← hseen, Function.update_eq_self_iff]

/-! ## What a pass ends -/

theorem unmoved_active : Unmoved (Session.active (S := S)) :=
  ⟨fun _ _ _ => rfl, fun _ _ => rfl⟩

theorem untouched_lastAlive : Untouched (Session.lastAlive (S := S)) :=
  ⟨⟨fun _ _ _ => rfl, fun _ _ => rfl⟩, fun _ => rfl⟩

/-- The body of the loop ends its own session, if it was silent for too long. -/
theorem expireSession_active (ctx : LoopCtx S) (now : Int) (n : Node S) (i slot : Fin MAX_PEERS)
    (hslot : slot.val < n.table.slots) :
    ((expireSession ctx now n i).1.table.sessions slot).active = true ↔
      (n.table.sessions slot).active = true ∧
        (slot = i → now - (n.table.sessions slot).lastAlive ≤ ctx.sessionExpiry) := by
  simp only [expireSession]
  split
  · rename_i h
    rw [Bool.and_eq_true, decide_eq_true_eq] at h
    rw [Node.setSession_table]
    by_cases hi : slot = i
    · subst hi
      rw [SessionTable.set_sessions_self]
      exact ⟨fun ha => absurd ha Bool.false_ne_true, fun ha => absurd (ha.2 rfl) (not_le.mpr h.2)⟩
    · rw [SessionTable.set_sessions_ne _ _ hi]
      exact ⟨fun ha => ⟨ha, fun h => absurd h hi⟩, And.left⟩
  · rename_i h
    constructor
    · intro (ha : (n.table.sessions slot).active = true)
      refine ⟨ha, ?_⟩
      rintro rfl
      rw [ha, decide_eq_true hslot, Bool.and_true, Bool.true_and, decide_eq_true_eq] at h
      exact not_lt.mp h
    · exact And.left

/-- The loop over the slots of a list. -/
theorem expireSession_run (ctx : LoopCtx S) (now : Int) (slot : Fin MAX_PEERS)
    (l : List (Fin MAX_PEERS)) (c : (Machine.mk (expireSession ctx now)).Config)
    (hslot : slot.val < c.1.table.slots) :
    (((Machine.mk (expireSession ctx now)).run c l).1.table.sessions slot).active = true ↔
      (c.1.table.sessions slot).active = true ∧
        (slot ∈ l → now - (c.1.table.sessions slot).lastAlive ≤ ctx.sessionExpiry) := by
  induction l generalizing c with
  | nil => simp [Machine.run]
  | cons i l ih =>
      have hslots : (expireSession ctx now c.1 i).1.table.slots = c.1.table.slots := by
        simp only [expireSession]
        split <;> rfl
      have halive := untouched_lastAlive.expireSession ctx now c.1 i slot
      have hbody := expireSession_active ctx now c.1 i slot hslot
      rw [Machine.run, ih _ (hslots ▸ hslot)]
      show ((expireSession ctx now c.1 i).1.table.sessions slot).active = true ∧
        (slot ∈ l → now - ((expireSession ctx now c.1 i).1.table.sessions slot).lastAlive
          ≤ ctx.sessionExpiry) ↔ _
      rw [halive, hbody, List.mem_cons, or_imp, and_assoc]

/-- **What a pass ends**: the sessions without a recent sign of life, and no others. -/
theorem housekeeping_expires {ctx : LoopCtx S} {n : Node S} {pass : PassInput S}
    (hpass : 10 ≤ pass.now - n.lastCheck) {slot : Fin MAX_PEERS}
    (hslot : slot.val < n.table.slots) (hactive : (n.table.sessions slot).active = true) :
    ((housekeeping ctx n pass).1.table.sessions slot).active = false ↔
      ctx.sessionExpiry < pass.now - (n.table.sessions slot).lastAlive := by
  unfold housekeeping
  rw [if_pos hpass]
  simp only [housekeepingPass]
  generalize hc₁ : (Machine.mk (connectPeer ctx pass)).run ({ n with lastCheck := pass.now }, [])
    (List.range n.peerConfigs.length) = c₁
  generalize hc₂ : (Machine.mk (expirePending ctx pass.now)).run c₁ (List.finRange MAX_PEERS) = c₂
  -- the first two loops do not touch what the third one looks at
  have hslots₁ : c₁.1.table.slots = n.table.slots := by
    rw [← hc₁]
    exact (Machine.mk (connectPeer ctx pass)).invariant_all
      (I := fun c => c.1.table.slots = n.table.slots)
      (fun c idx hc => (connectPeer_tableKept ctx pass c.1 idx).slots.trans hc) _ _ rfl
  have hslots₂ : c₂.1.table.slots = n.table.slots := by
    rw [← hc₂]
    exact (Machine.mk (expirePending ctx pass.now)).invariant_all
      (I := fun c => c.1.table.slots = n.table.slots)
      (fun c j hc => (expirePending_tableKept ctx (.housekeeping pass) pass.now c.1 j).slots.trans
        hc) _ _ hslots₁
  have hread : ∀ {α : Type} {f : Session S → α}, Unmoved f → SameReading f n c₂.1 := by
    intro α f hf
    rw [← hc₂, ← hc₁]
    exact (SameReading.run (hf.connectPeer ctx pass) (List.range n.peerConfigs.length)
      ({ n with lastCheck := pass.now }, [])).trans
        (SameReading.run (hf.expirePending ctx pass.now) (List.finRange MAX_PEERS) _)
  have hlast := SameReading.run (unmoved_active.keepalive ctx pass) (List.finRange MAX_PEERS)
    ((Machine.mk (expireSession ctx pass.now)).run c₂ (List.finRange MAX_PEERS)) slot
  have hloop := expireSession_run ctx pass.now slot (List.finRange MAX_PEERS) c₂
    (hslots₂ ▸ hslot)
  rw [hread unmoved_active slot, hread untouched_lastAlive.toUnmoved slot] at hloop
  rw [hlast, ← Bool.not_eq_true, hloop]
  simp only [hactive, List.mem_finRange, true_and, true_implies, not_le]

/-! ## What the times of a session say about the past -/

/-- The clock does not go back behind a time that is noted in the session table. -/
def ClockForward (n : Node S) : Input S → Prop
  | .udp d => 0 < d.now ∧ d.now ≤ d.clock ∧ ∀ i, (n.table.sessions i).lastSeen ≤ d.now ∧
      (n.table.sessions i).lastHandshake ≤ d.now
  | _ => True

/-- When a datagram decrypts under the current or the previous key of a slot. -/
def decryptTimes (ctx : LoopCtx S) (slot : Fin MAX_PEERS) (n : Node S) : Input S → List Int
  | .udp d =>
      if isHandshake ctx d.pkt = false ∧ findSessionByAddr n.table d.src = some slot ∧
          (decryptSession (n.table.sessions slot) d.pkt d.now).2.isSome then [d.now] else []
  | _ => []

/-- The invariant of a slot: what was installed last, and what decrypted last. -/
structure Times (slot : Fin MAX_PEERS) (n : Node S) (tr : List (Event S)) (w : List Int) :
    Prop where
  handshake : (n.table.sessions slot).active = true →
    ∃ e, (installsAt slot tr).getLast? = some e ∧ e.time = (n.table.sessions slot).lastHandshake
  seen : ((n.table.sessions slot).lastSeen = 0 ∧
      ∀ t, w.getLast? = some t → t ≤ (n.table.sessions slot).lastHandshake) ∨
    (0 < (n.table.sessions slot).lastSeen ∧
      w.getLast? = some (n.table.sessions slot).lastSeen ∧
      (n.table.sessions slot).lastHandshake ≤ (n.table.sessions slot).lastSeen)

theorem dataPacket_lastSeen (n : Node S) (src : SockAddr) (pkt : S.Wire) (now clock : Int)
    (iv : Option S.Iv) (ok : Bool) (slot : Fin MAX_PEERS) :
    ((dataPacket n src pkt now clock iv ok).1.table.sessions slot).lastSeen
      = if findSessionByAddr n.table src = some slot then now
        else (n.table.sessions slot).lastSeen := by
  unfold dataPacket
  cases hf : findSessionByAddr n.table src with
  | none => rfl
  | some i =>
      obtain ⟨b, w, hs⟩ := receive_session (n.table.sessions i) i pkt now
      have hset : ((n.setSession i (receive (n.table.sessions i) i pkt now).1).table.sessions
          slot).lastSeen = if some i = some slot then now
            else (n.table.sessions slot).lastSeen := by
        rw [Node.setSession_table]
        by_cases hi : i = slot
        · rw [hi, SessionTable.set_sessions_self, if_pos rfl, ← hi, hs]
        · rw [SessionTable.set_sessions_ne _ _ (Ne.symm hi),
            if_neg fun h => hi (Option.some.inj h)]
      dsimp only
      split
      · rename_i s heq
        rw [heq] at hset
        exact hset
      · rename_i s r heq
        rw [heq] at hset
        exact (untouched_lastSeen.deliver _ r iv ok clock slot).trans hset

/-- The last handshake completed and the last datagram decrypted are both more than
`session_expiry` seconds old. -/
def Idle (ctx : LoopCtx S) (handshakes : List (Install S)) (decrypted : List Int) (now : Int) :
    Prop :=
  (∃ e, handshakes.getLast? = some e ∧ ctx.sessionExpiry < now - e.time) ∧
    ∀ t, decrypted.getLast? = some t → ctx.sessionExpiry < now - t

namespace Times

variable {ctx : LoopCtx S} {slot : Fin MAX_PEERS} {n n' : Node S} {tr ev : List (Event S)}
  {w : List Int}

theorem init (slot : Fin MAX_PEERS) (cfgs : List (PeerConfig S)) (fresh : Option S.Priv) :
    Times slot (Node.init cfgs fresh) [] [] where
  handshake := nofun
  seen := .inl ⟨rfl, nofun⟩

/-- The later of the two times is the last sign of life. -/
theorem lastAlive_iff (h : Times slot n tr w) (hactive : (n.table.sessions slot).active = true)
    (now : Int) : ctx.sessionExpiry < now - (n.table.sessions slot).lastAlive ↔
      Idle ctx (installsAt slot tr) w now := by
  obtain ⟨e, he, htime⟩ := h.handshake hactive
  unfold Idle Session.lastAlive
  rw [he]
  simp only [Option.some.injEq, exists_eq_left', htime]
  rcases h.seen with ⟨hzero, hle⟩ | ⟨hpos, hlast, hle⟩
  · rw [if_neg (by omega)]
    refine ⟨fun hold => ⟨hold, fun t ht => ?_⟩, And.left⟩
    have := hle t ht
    omega
  · rw [if_pos hpos, hlast]
    simp only [Option.some.injEq, forall_eq']
    exact ⟨fun hold => ⟨by omega, hold⟩, And.right⟩

/-- Nothing was installed in the slot, and nothing received. -/
theorem kept (h : Times slot n tr w)
    (hkeeps : Keeps (n.table.sessions slot) (n'.table.sessions slot))
    (hseen : (n'.table.sessions slot).lastSeen = (n.table.sessions slot).lastSeen)
    (hev : installsAt slot ev = []) : Times slot n' (tr ++ ev) (w ++ []) := by
  rw [List.append_nil]
  refine ⟨?_, ?_⟩
  · intro hactive
    rw [installsAt_append, hev, List.append_nil, hkeeps.lastHandshake]
    exact h.handshake (hkeeps.active hactive)
  · rw [hseen, hkeeps.lastHandshake]
    exact h.seen

/-- Data, whether it is for the slot or not. -/
theorem data (h : Times slot n tr w) {d : Datagram S} (hd : isHandshake ctx d.pkt = false)
    (hnew : NothingNew ctx n (.udp d)) (hclock : ClockForward n (.udp d)) :
    Times slot ((node ctx).step n (.udp d)).1 (tr ++ ((node ctx).step n (.udp d)).2)
      (w ++ decryptTimes ctx slot n (.udp d)) := by
  have hworks := (step_cases ctx n (.udp d)).works hd
  have hev : installsAt slot ((node ctx).step n (.udp d)).2 = [] := by
    rw [installsAt, hworks.installs_nil]
    rfl
  have hkeeps := hworks.keeps slot
  have hseen : (((node ctx).step n (.udp d)).1.table.sessions slot).lastSeen
      = if findSessionByAddr n.table d.src = some slot then d.now
        else (n.table.sessions slot).lastSeen := by
    show ((udpPacket ctx n d).1.table.sessions slot).lastSeen = _
    rw [udpPacket_of_data hd]
    exact dataPacket_lastSeen ..
  by_cases hf : findSessionByAddr n.table d.src = some slot
  · rw [if_pos hf] at hseen
    by_cases hopen : (decryptSession (n.table.sessions slot) d.pkt d.now).2.isSome
    · rw [decryptTimes, if_pos ⟨hd, hf, hopen⟩]
      refine ⟨?_, .inr ?_⟩
      · intro hactive
        rw [installsAt_append, hev, List.append_nil, hkeeps.lastHandshake]
        exact h.handshake (hkeeps.active hactive)
      · rw [hseen, hkeeps.lastHandshake, List.getLast?_concat]
        exact ⟨hclock.1, rfl, (hclock.2.2 slot).2⟩
    · rw [decryptTimes, if_neg fun hall => hopen hall.2.2]
      refine h.kept hkeeps ?_ hev
      rw [hseen, hnew hd slot hf (Option.not_isSome_iff_eq_none.mp hopen)]
  · rw [if_neg hf] at hseen
    rw [decryptTimes, if_neg fun hall => hf hall.2.1]
    exact h.kept hkeeps hseen hev

/-- A session is installed in the slot. What has decrypted there is older. -/
theorem install (h : Times slot n tr w) {d : Datagram S} {m : Node S} {tb : SessionTable S}
    {pub key : S.Block} {cfg : PeerConfig S} {out : Bool} (hclock : ClockForward n (.udp d))
    (hev : installsAt slot ev = [⟨slot, pub, key, d.src, d.pkt, out, d.clock⟩]) :
    Times slot (installAt ctx m d slot tb pub key cfg out) (tr ++ ev) (w ++ []) := by
  obtain ⟨-, hle, hslot⟩ := hclock
  refine ⟨fun _ => ⟨⟨slot, pub, key, d.src, d.pkt, out, d.clock⟩, ?_, ?_⟩, .inl ?_⟩
  · rw [installsAt_append, hev, List.getLast?_concat]
  · rw [installAt_sessions_self]
    rfl
  · rw [installAt_sessions_self, List.append_nil]
    refine ⟨rfl, fun t ht => ?_⟩
    show t ≤ d.clock
    obtain ⟨hs, hh⟩ := hslot slot
    rcases h.seen with ⟨-, hold⟩ | ⟨-, hlast, -⟩
    · have := hold t ht
      omega
    · rw [hlast, Option.some.injEq] at ht
      omega

/-- **One step.** -/
theorem step (h : Times slot n tr w) (inp : Input S) (hnew : NothingNew ctx n inp)
    (hclock : ClockForward n inp) :
    Times slot ((node ctx).step n inp).1 (tr ++ ((node ctx).step n inp).2)
      (w ++ decryptTimes ctx slot n inp) := by
  by_cases hdata : inp.IsData ctx
  · cases inp with
    | udp d => exact h.data hdata hnew hclock
    | tun => exact absurd hdata id
    | housekeeping => exact absurd hdata id
  have hnil : decryptTimes ctx slot n inp = [] := by
    cases inp with
    | udp d => exact if_neg fun hall => hdata hall.1
    | tun => rfl
    | housekeeping => rfl
  rw [hnil]
  have hslot := step_slot ctx n inp slot
  revert hslot
  generalize ((node ctx).step n inp).2 = ev
  generalize ((node ctx).step n inp).1 = n'
  intro hslot
  cases hslot with
  | kept hev hkeeps hsame => exact h.kept hkeeps (hsame hdata untouched_lastSeen) hev
  | install hinp _ hhere _ =>
      subst hinp
      exact h.install hclock hhere

end Times

/-- Only what decrypts keeps a session alive. Data that decrypts under neither key changes no
field of any session, if and only if it has nothing new to note; and a pass ends a session
exactly when it is idle. The times at which datagrams decrypted are given for each slot. -/
structure IdleSessionsExpire (ctx : LoopCtx S) (n : Node S) (tr : List (Event S))
    (decrypted : Fin MAX_PEERS → List Int) : Prop where
  unchanged : ∀ d, isHandshake ctx d.pkt = false → Undecryptable n d →
    (((node ctx).step n (.udp d)).1.table.sessions = n.table.sessions ↔
      NothingNew ctx n (.udp d))
  expires : ∀ pass slot, 10 ≤ pass.now - n.lastCheck → (n.table.sessions slot).active = true →
    ((((node ctx).step n (.housekeeping pass)).1.table.sessions slot).active = false ↔
      Idle ctx (installsAt slot tr) (decrypted slot) pass.now)

/-- **Idle sessions expire.** In every run in which data that decrypts under neither key comes
only from addresses without a session, or at a time that is noted already, and in which the clock
does not go back, only what decrypts keeps a session alive. -/
theorem idle_sessions_expire (ctx : LoopCtx S) (cfgs : List (PeerConfig S))
    (fresh : Option S.Priv) (is : List (Input S))
    (hrun : (node ctx).Along (fun c inp => NothingNew ctx c.1 inp ∧ ClockForward c.1 inp)
      (Node.init cfgs fresh, []) is) :
    IdleSessionsExpire ctx ((node ctx).run (Node.init cfgs fresh, []) is).1
      ((node ctx).run (Node.init cfgs fresh, []) is).2
      fun slot => (node ctx).log (decryptTimes ctx slot) (Node.init cfgs fresh, []) is where
  unchanged d hd hno := dataPacket_undecryptable hd hno
  expires pass slot hpass hactive := by
    have hbelow := (tableInv_run ctx cfgs fresh is).1.below slot hactive
    have htimes := (node ctx).invariant_log (f := decryptTimes ctx slot)
      (I := fun c w => Times slot c.1 c.2 w)
      (fun c w inp hc hG => hc.step inp hG.1 hG.2) is _ [] (Times.init slot cfgs fresh) hrun
    exact (housekeeping_expires hpass hbelow hactive).trans (htimes.lastAlive_iff hactive pass.now)

instance (ctx : LoopCtx S) (n : Node S) : (inp : Input S) → Decidable (NothingNew ctx n inp)
  | .udp d => inferInstanceAs
      (Decidable (_ = false → ∀ i : Fin MAX_PEERS, _ = some i → _ = none → _ = d.now))
  | .tun .. => instDecidableTrue
  | .housekeeping _ => instDecidableTrue

instance (n : Node S) : (inp : Input S) → Decidable (ClockForward n inp)
  | .udp d => inferInstanceAs
      (Decidable (0 < d.now ∧ _ ≤ d.clock ∧ ∀ _ : Fin MAX_PEERS, _ ≤ d.now ∧ _ ≤ d.now))
  | .tun .. => instDecidableTrue
  | .housekeeping _ => instDecidableTrue

/-- A datagram under a key that is nobody's. -/
def spoofedFrom (src : SockAddr) : Datagram symbolic :=
  ⟨src, dataOf (keyOf 9 9 9 9) 1 [7], 600, 600, some 102, true, none⟩

/-- Peer `2` connects and sends data, and the spoofed datagram comes from elsewhere. -/
def silentRun : List (Input symbolic) :=
  [arrival (addrOf 2) (initiationOf 2 1 12) 100 101,
    arrival (addrOf 2) (dataOf (keyOf 2 1 12 100) 1 [7]) 110 0,
    .udp (spoofedFrom (addrOf 7))]

/-- The session ends 541 seconds after the data, and not before. -/
theorem idle_sessions_expire_silentRun :
    IdleSessionsExpire (ctxOf 1) ((node (ctxOf 1)).run twoPeers silentRun).1
      ((node (ctxOf 1)).run twoPeers silentRun).2
      (fun slot => (node (ctxOf 1)).log (decryptTimes (ctxOf 1) slot) twoPeers silentRun) ∧
    (((node (ctxOf 1)).step ((node (ctxOf 1)).run twoPeers silentRun).1
      (passAt 650 13)).1.table.sessions ⟨0, by decide⟩).active = true ∧
    (((node (ctxOf 1)).step ((node (ctxOf 1)).run twoPeers silentRun).1
      (passAt 651 13)).1.table.sessions ⟨0, by decide⟩).active = false :=
  ⟨idle_sessions_expire (ctxOf 1) [peerOf 2, peerOf 3] (some 100) silentRun (by decide +kernel),
    by decide +kernel, by decide +kernel⟩

/-- Peer `2` connects, and the spoofed datagram comes from its address. -/
def spoofedRun : List (Input symbolic) :=
  [arrival (addrOf 2) (initiationOf 2 1 12) 100 101, .udp (spoofedFrom (addrOf 2))]

/-- The spoofed datagram changes the session, and keeps it alive when it should end. -/
theorem spoofed_data_keeps_alive :
    let n := ((node (ctxOf 1)).run twoPeers (spoofedRun.take 1)).1
    let c := (node (ctxOf 1)).run twoPeers spoofedRun
    let slot : Fin MAX_PEERS := ⟨0, by decide⟩
    isHandshake (ctxOf 1) (spoofedFrom (addrOf 2)).pkt = false ∧
    Undecryptable n (spoofedFrom (addrOf 2)) ∧
    ((node (ctxOf 1)).step n (.udp (spoofedFrom (addrOf 2)))).1.table.sessions
      ≠ n.table.sessions ∧
    (c.1.table.sessions slot).active = true ∧
    Idle (ctxOf 1) (installsAt slot c.2)
      ((node (ctxOf 1)).log (decryptTimes (ctxOf 1) slot) twoPeers spoofedRun) 641 ∧
    (((node (ctxOf 1)).step c.1 (passAt 641 13)).1.table.sessions slot).active = true := by
  intro n c slot
  refine ⟨by decide +kernel, ?_, ?_, by decide +kernel, ⟨?_, ?_⟩, by decide +kernel⟩
  · unfold Undecryptable
    decide +kernel
  · intro h
    exact absurd (congrArg Session.lastSeen (congrFun h slot)) (by decide +kernel)
  · have htime : (installsAt slot c.2).getLast?.map Install.time = some 100 := by decide +kernel
    obtain ⟨e, he, ht⟩ := Option.map_eq_some_iff.mp htime
    exact ⟨e, he, by rw [ht]; decide⟩
  · have hnone : (node (ctxOf 1)).log (decryptTimes (ctxOf 1) slot) twoPeers spoofedRun = [] := by
      decide +kernel
    rw [hnone]
    exact nofun

end Lanecove
