import Lanecove.Basic.Custody
import Lanecove.Safety.SendSequence
import Lanecove.Threads.Delivery

set_option autoImplicit false

/-! # The sequence numbers the workers draw

In `forward_to_peer` a worker draws a sequence number, encrypts under `hot_lock` and sends after it
has given the lock back, so the datagrams of a session may leave in another order than their numbers
were drawn in. The proof counts a number as used when it is drawn: there is a trace in which every
datagram is sent at that moment, and for that trace the invariant of the sequential node holds
(`SendInv`). What the threads have sent and what they have drawn and not yet sent are different
entries of it (`Numbered`), so no two datagrams under one key have the same number
(`threads_send_once`).
-/

namespace Lanecove

variable {S : Suite}

/-! ## Numbers in hand -/

/-- The keys and numbers of the datagrams sent. -/
def sentNumbers (tr : List (Event S)) : Multiset (S.Block × BitVec 64) :=
  ((sendings tr).map fun d => (d.key, d.seq) : List (S.Block × BitVec 64))

theorem sentNumbers_append (tr ev : List (Event S)) :
    sentNumbers (tr ++ ev) = sentNumbers tr + sentNumbers ev := by
  rw [sentNumbers, sendings_append, List.map_append, ← Multiset.coe_add]
  rfl

open Classical in
/-- The number a worker has drawn and not yet sent, with the key it is for. Without an IV nothing
will be sent. -/
noncomputable def Job.numbers (n : Node S) : Job S → Multiset (S.Block × BitVec 64)
  | .encrypt i _ seq => if Nonempty S.Iv then {((n.table.sessions i).sessionKey, seq)} else 0
  | .readAddr d => {(d.key, d.seq)}
  | .fwdUnlock d => {(d.key, d.seq)}
  | .sendto d => {(d.key, d.seq)}
  | _ => 0

noncomputable def Point.numbers (n : Node S) : Point S → Multiset (S.Block × BitVec 64)
  | .worker _ job => job.numbers n
  | _ => 0

/-- What a worker has checked: the kind of a datagram, or that a session to send on is active. -/
def Job.Found (ctx : LoopCtx S) (n : Node S) : Job S → Prop
  | .hsWrlock d => isHandshake ctx d.pkt = true
  | .hsHandle d => isHandshake ctx d.pkt = true
  | .fwdLock i _ => (n.table.sessions i).active = true
  | .drawSeq i _ => (n.table.sessions i).active = true
  | _ => True

def Point.Found (ctx : LoopCtx S) (n : Node S) : Point S → Prop
  | .worker _ job => job.Found ctx n
  | _ => True

section Cold

variable {ctx : LoopCtx S} {n n' : Node S}

theorem sessions_of_cold (h : n'.cold = n.cold) (i : Fin MAX_PEERS) :
    (n'.table.sessions i).active = (n.table.sessions i).active ∧
    (n'.table.sessions i).sessionKey = (n.table.sessions i).sessionKey := by
  have hi : (n'.table.sessions i).cold = (n.table.sessions i).cold :=
    congrArg (fun m : Node S => m.table.sessions i) h
  exact ⟨(congrArg Session.active hi :), (congrArg Session.sessionKey hi :)⟩

theorem Point.numbers_of_cold (h : n'.cold = n.cold) (p : Point S) :
    p.numbers n' = p.numbers n := by
  cases p with
  | worker todo job =>
      cases job with
      | encrypt i payload seq =>
          unfold Point.numbers Job.numbers
          dsimp only
          rw [(sessions_of_cold h i).2]
      | _ => rfl
  | _ => rfl

theorem Point.Found.of_cold (h : n'.cold = n.cold) {p : Point S} (hp : p.Found ctx n) :
    p.Found ctx n' := by
  cases p with
  | worker todo job =>
      cases job with
      | fwdLock i payload => exact (sessions_of_cold h i).1.trans hp
      | drawSeq i payload => exact (sessions_of_cold h i).1.trans hp
      | _ => exact hp
  | _ => exact hp

/-- Outside the locks a thread has no number in hand and relies on no session. -/
theorem Point.numbers_outside {p : Point S} (hfree : p.held.mode = .free) :
    p.numbers n = 0 := by
  cases p with
  | worker todo job => cases job <;> first | cases hfree; done | rfl
  | _ => rfl

theorem Point.Found.outside {p : Point S} (hfree : p.held.mode = .free) (hp : p.Found ctx n) :
    p.Found ctx n' := by
  cases p with
  | worker todo job => cases job <;> first | cases hfree; done | exact hp
  | _ => exact hp

end Cold

/-! ## What a step draws -/

/-- A step from `p` to `q`, which leads from `n` to `n'` with the events `ev`. The numbers it draws
are events of another trace, `ev'`. -/
structure Draws (ctx : LoopCtx S) (p : Point S) (n : Node S) (ev : List (Event S)) (n' : Node S)
    (q : Point S) : Prop where
  found : q.Found ctx n'
  drawn : ∀ {tr : List (Event S)} {w : List S.Block}, SendInv n tr w → KeysDistinct (tr ++ ev) →
    (∀ key, w.count key + 1 < 2 ^ 64) →
    ∃ ev' w', installs ev' = installs ev ∧ SendInv n' (tr ++ ev') (w ++ w') ∧
      (∀ key, w'.count key ≤ 1) ∧
      sentNumbers ev + q.numbers n' ≤ p.numbers n + sentNumbers ev'

/-- Steps that leave keys and counters alone. -/
theorem SendInv.same {n n' : Node S} {tr : List (Event S)} {w : List S.Block}
    (h : SendInv n tr w) (hk : ∀ i, Keeps (n.table.sessions i) (n'.table.sessions i))
    (hseq : ∀ i, (n'.table.sessions i).sendSeq = (n.table.sessions i).sendSeq) :
    SendInv n' tr w where
  owner i hi := by
    rw [(hk i).sessionKey]
    exact h.owner i ((hk i).active hi)
  counter i hi := by
    rw [(hk i).sessionKey, hseq i]
    exact h.counter i ((hk i).active hi)
  below := h.below
  known := h.known
  once := h.once

/-- In one step each key is counted at most once. -/
theorem SendInv.count_movedKeys_le {n : Node S} {tr : List (Event S)} {w : List S.Block}
    (h : SendInv n tr w) (hkeys : KeysDistinct tr) (n' : Node S) (key : S.Block) :
    (movedKeys n n').count key ≤ 1 := by
  by_cases hmem : key ∈ movedKeys n n'
  · obtain ⟨i, hi, rfl⟩ := mem_movedKeys hmem
    rw [count_movedKeys hi fun j hj heq => h.slot_unique hkeys hj hi heq]
    split <;> decide
  · rw [List.count_eq_zero.mpr hmem]
    exact Nat.zero_le 1

section Draws

variable {ctx : LoopCtx S} {p q : Point S} {n n' : Node S} {ev : List (Event S)}

theorem Draws.same (hk : ∀ i, Keeps (n.table.sessions i) (n'.table.sessions i))
    (hseq : ∀ i, (n'.table.sessions i).sendSeq = (n.table.sessions i).sendSeq)
    (hi : installs ev = []) (hfound : q.Found ctx n')
    (hle : sentNumbers ev + q.numbers n' ≤ p.numbers n) : Draws ctx p n ev n' q where
  found := hfound
  drawn h _ _ := by
    refine ⟨[], [], hi.symm, ?_, fun _ => Nat.zero_le 1, ?_⟩
    · rw [List.append_nil, List.append_nil]
      exact h.same hk hseq
    · exact hle.trans (Multiset.le_add_right _ _)

/-- Steps that leave the tables alone. -/
theorem Draws.still (hi : installs ev = []) (hfound : q.Found ctx n)
    (hle : sentNumbers ev + q.numbers n ≤ p.numbers n) : Draws ctx p n ev n q :=
  .same (fun _ => .refl _) (fun _ => rfl) hi hfound hle

/-- Steps that draw numbers under the locks, and send what they draw or have it in hand. -/
theorem Draws.work (ev' : List (Event S))
    (hk : ∀ i, Keeps (n.table.sessions i) (n'.table.sessions i)) (hs : SendStep n ev' n')
    (hi : installs ev = []) (hi' : installs ev' = [])
    (hslots : ((sendings ev').map Sending.slot).Nodup) (hfound : q.Found ctx n')
    (hle : sentNumbers ev + q.numbers n' ≤ p.numbers n + sentNumbers ev') :
    Draws ctx p n ev n' q where
  found := hfound
  drawn := by
    intro tr w h hkeys hbound
    have hcount := h.count_movedKeys_le hkeys.of_append n'
    refine ⟨ev', movedKeys n n', hi'.trans hi.symm, ?_, hcount, hle⟩
    refine h.work hkeys.of_append hk hs hi' hslots fun key => ?_
    rw [List.count_append]
    have hkey := hcount key
    have hold := hbound key
    omega

/-- A session is written to. -/
theorem Keeps.setSession {i : Fin MAX_PEERS} {s : Session S} (h : Keeps (n.table.sessions i) s)
    (j : Fin MAX_PEERS) : Keeps (n.table.sessions j) ((n.setSession i s).table.sessions j) := by
  rw [Node.setSession_table]
  by_cases hj : j = i
  · subst hj
    rw [SessionTable.set_sessions_self]
    exact h
  · rw [SessionTable.set_sessions_ne _ _ hj]
    exact .refl _

theorem sendSeq_setSession {i : Fin MAX_PEERS} {s : Session S}
    (h : s.sendSeq = (n.table.sessions i).sendSeq) (j : Fin MAX_PEERS) :
    ((n.setSession i s).table.sessions j).sendSeq = (n.table.sessions j).sendSeq := by
  rw [Node.setSession_table]
  by_cases hj : j = i
  · subst hj
    rw [SessionTable.set_sessions_self]
    exact h
  · rw [SessionTable.set_sessions_ne _ _ hj]

theorem acceptFrame_keeps (s : Session S) (usedPrev : Bool) (plain : List UInt8) :
    Keeps s (acceptFrame s usedPrev plain).1 ∧
    (acceptFrame s usedPrev plain).1.sendSeq = s.sendSeq := by
  unfold acceptFrame
  split
  · exact ⟨.refl _, rfl⟩
  · split_ifs
    · exact ⟨.refl _, rfl⟩
    · split <;> exact ⟨⟨id, rfl, rfl, rfl, rfl, id, rfl, rfl⟩, rfl⟩

/-- `htobe64(s->send_seq++)`: the number counts as sent, whatever becomes of the packet. -/
theorem draws_takeSeq (todo : List Source) {i : Fin MAX_PEERS} (payload : List UInt8)
    (hactive : (n.table.sessions i).active = true) :
    Draws ctx (.worker todo (.drawSeq i payload)) n []
      (n.setSession i { n.table.sessions i with sendSeq := (n.table.sessions i).sendSeq + 1 })
      (.worker todo (.encrypt i payload (n.table.sessions i).sendSeq)) := by
  have hkeeps : Keeps (n.table.sessions i)
      { n.table.sessions i with sendSeq := (n.table.sessions i).sendSeq + 1 } :=
    ⟨id, rfl, rfl, rfl, rfl, id, rfl, rfl⟩
  have hstep : ∀ ev', (∀ d, .dataSent d ∈ ev' → SentOn n d ∧ d.slot = i ∧
      d.seq = (n.table.sessions i).sendSeq) →
      SendStep n ev' (n.setSession i
        { n.table.sessions i with sendSeq := (n.table.sessions i).sendSeq + 1 }) := by
    intro ev' hev'
    refine ⟨fun j => ?_, fun d hd => (hev' d hd).1⟩
    by_cases hj : j = i
    · subst hj
      refine ⟨1, le_rfl, ?_, fun d hd _ => ⟨0, Nat.zero_lt_one, ?_⟩⟩
      · rw [Node.setSession_table, SessionTable.set_sessions_self]
        rfl
      · rw [(hev' d hd).2.2]
        exact (BitVec.add_zero _).symm
    · refine ⟨0, Nat.zero_le 1, ?_, fun d hd hslot => absurd (hslot.symm.trans (hev' d hd).2.1) hj⟩
      rw [Node.setSession_table, SessionTable.set_sessions_ne _ _ hj]
      exact (BitVec.add_zero _).symm
  have hkey : ((n.setSession i { n.table.sessions i with
      sendSeq := (n.table.sessions i).sendSeq + 1 }).table.sessions i).sessionKey =
      (n.table.sessions i).sessionKey := (hkeeps.setSession i).sessionKey
  by_cases hiv : Nonempty S.Iv
  · obtain ⟨iv⟩ := hiv
    refine Draws.work [.dataSent ⟨i, (n.table.sessions i).staticPub,
      (n.table.sessions i).sessionKey, (n.table.sessions i).addr, (n.table.sessions i).sendSeq,
      payload, S.encryptPacket (n.table.sessions i).sessionKey iv
        (frame (n.table.sessions i).sendSeq payload)⟩]
      hkeeps.setSession (hstep _ ?_) rfl rfl (List.nodup_singleton i) trivial ?_
    · intro d hd
      rw [List.mem_singleton] at hd
      cases hd
      exact ⟨⟨hactive, rfl, rfl, rfl, iv, rfl⟩, rfl, rfl⟩
    · unfold Point.numbers Job.numbers
      dsimp only
      rw [if_pos ⟨iv⟩, hkey]
      exact le_rfl
  · refine Draws.work [] hkeeps.setSession (hstep _ fun d hd => by cases hd) rfl rfl
      List.nodup_nil trivial ?_
    unfold Point.numbers Job.numbers
    dsimp only
    rw [if_neg hiv]
    exact le_rfl

/-- The end of a pass sends at most one packet on each session. -/
theorem finishPass_slots (ctx : LoopCtx S) (pass : PassInput S) (n : Node S) :
    ((sendings (finishPass ctx pass (n, [])).2).map Sending.slot).Nodup := by
  have hnil : ∀ {m m' : Node S} {ev : List (Event S)},
      Quiet ctx (.housekeeping pass) 0 m ev m' → ((sendings ev).map Sending.slot).Sublist [] := by
    intro m m' ev hq
    rw [hq.sendings_nil]
    exact List.Sublist.refl _
  have h₁ := sendings_run (g := fun _ => []) (b := [])
    (fun m j => hnil (expirePending_quiet ctx (n := m) pass.now j)) (List.finRange MAX_PEERS)
    (c := (n, [])) (List.nil_sublist _)
  have h₂ := sendings_run (g := fun _ => [])
    (fun m i => hnil (expireSession_quiet ctx (n := m) pass.now i)) (List.finRange MAX_PEERS) h₁
  have h₃ := sendings_run (g := fun i => [i]) (keepalive_slots ctx pass)
    (List.finRange MAX_PEERS) h₂
  refine h₃.nodup ?_
  have hempty : (List.finRange MAX_PEERS).flatMap
      (fun _ => ([] : List (Fin MAX_PEERS))) = [] :=
    List.flatMap_eq_nil_iff.mpr fun _ _ => rfl
  simpa [hempty] using List.nodup_finRange MAX_PEERS

theorem relayTarget_active {tb : SessionTable S} {i f : Fin MAX_PEERS} {payload : List UInt8}
    (h : relayTarget tb i payload = some f) : (tb.sessions f).active = true := by
  unfold relayTarget at h
  split at h
  · split at h
    · cases h
    · rename_i g hroute
      split_ifs at h
      cases h
      exact (routeLookup_active hroute).2
  · cases h

theorem keeps_setRekeying (n : Node S) (b : Bool) (s : Option (Fin MAX_PEERS))
    (j : Fin MAX_PEERS) :
    Keeps (n.table.sessions j) ((setRekeying n b s).table.sessions j) ∧
    ((setRekeying n b s).table.sessions j).sendSeq = (n.table.sessions j).sendSeq := by
  cases s with
  | none => exact ⟨.refl _, rfl⟩
  | some i =>
      have hkeeps : Keeps (n.table.sessions i) { n.table.sessions i with rekeying := b } :=
        ⟨id, rfl, rfl, rfl, rfl, id, rfl, rfl⟩
      exact ⟨hkeeps.setSession j,
        sendSeq_setSession (s := { n.table.sessions i with rekeying := b }) rfl j⟩

/-- A handshake installs a session under a new key, or leaves the counters alone. -/
theorem draws_handshake {todo : List Source} {d : Incoming S} {clock : Int} {fresh : Option S.Priv}
    {sendOk : Bool} (hd : isHandshake ctx d.pkt = true) :
    Draws ctx (.worker todo (.hsHandle d)) n
      (handleHandshake ctx todo d clock fresh sendOk n).2.1
      (handleHandshake ctx todo d clock fresh sendOk n).1
      (handleHandshake ctx todo d clock fresh sendOk n).2.2 where
  found := trivial
  drawn := by
    intro tr w h hkeys hbound
    have hstep : (node ctx).step n (.udp ⟨d.src, d.pkt, d.now, clock, fresh, sendOk, none⟩) =
        handshakePkt ctx n ⟨d.src, d.pkt, d.now, clock, fresh, sendOk, none⟩ :=
      udpPacket_of_handshake (d := ⟨d.src, d.pkt, d.now, clock, fresh, sendOk, none⟩) hd n
    have hcount : ∀ key, (forwards ctx n
        (.udp ⟨d.src, d.pkt, d.now, clock, fresh, sendOk, none⟩)).count key ≤ 1 := by
      intro key
      unfold forwards
      split
      · exact h.count_movedKeys_le hkeys.of_append _ key
      · exact Nat.zero_le 1
    have hinv := h.step ctx (.udp ⟨d.src, d.pkt, d.now, clock, fresh, sendOk, none⟩)
      (by rw [hstep]; exact hkeys) (fun key => by
        rw [List.count_append]
        have hkey := hcount key
        have hold := hbound key
        omega)
    rw [hstep] at hinv
    refine ⟨_, _, rfl, hinv, hcount, ?_⟩
    exact le_of_eq (add_comm _ _)

/-! ## The steps of the program -/

/-- A step from `p`. -/
def Action.Draws (ctx : LoopCtx S) (p : Point S) : Act S → Prop
  | .work _ f => ∀ s, p.Found ctx s.node →
      Lanecove.Draws ctx p s.node (f s).2.1 (f s).1.node (f s).2.2
  | .rdlock q => ∀ n, p.Found ctx n → Lanecove.Draws ctx p n [] n q
  | .wrlock q => ∀ n, p.Found ctx n → Lanecove.Draws ctx p n [] n q
  | .rwunlock q => ∀ n, p.Found ctx n → Lanecove.Draws ctx p n [] n q
  | .lock _ q => ∀ n, p.Found ctx n → Lanecove.Draws ctx p n [] n q
  | .unlock _ q => ∀ n, p.Found ctx n → Lanecove.Draws ctx p n [] n q

theorem JobStep.draws {todo : List Source} {job : Job S} {a : Act S}
    (h : JobStep ctx todo job a) : a.Draws ctx (.worker todo job) := by
  cases h with
  | readFailed | notIpv4 | recvFailed | readTun | recvData =>
      exact fun _ _ => .still rfl trivial le_rfl
  | recvHandshake hd => exact fun _ _ => .still rfl hd le_rfl
  | sendFailed => exact fun _ _ => .still rfl trivial (Multiset.zero_le _)
  | tunRdlock | dataRdlock | hsUnlock | rdUnlock | hotLock | sentLock | hotUnlockNone
    | hotUnlockSome | tunUnlock | encryptFailed | sentUnlock =>
      exact fun _ _ => .still rfl trivial le_rfl
  | hsWrlock | fwdLock => exact fun _ hfound => .still rfl hfound le_rfl
  | fwdUnlock => exact fun _ _ => .still rfl trivial le_rfl
  | sendto => exact fun _ _ => .still rfl trivial le_rfl
  | tunWrite => exact fun _ _ => .still rfl trivial le_rfl
  | hsHandle => exact fun _ hfound => draws_handshake hfound
  | drawSeq => exact fun _ hfound => draws_takeSeq todo _ hfound
  | @tunRoute packet =>
      intro s _
      show Draws ctx _ _ (routePacket ..).2.1 (routePacket ..).1 (routePacket ..).2.2
      rcases routePacket_cases todo packet s.node with ⟨-, heq⟩ | ⟨i, hroute, heq⟩
      · rw [heq]
        exact .still rfl trivial le_rfl
      · rw [heq]
        exact .still rfl (routeLookup_active hroute).2 le_rfl
  | @dataLookup d =>
      intro s _
      show Draws ctx _ _ (lookupSource ..).2.1 (lookupSource ..).1 (lookupSource ..).2.2
      rcases lookupSource_cases todo d s.node with ⟨-, heq⟩ | ⟨i, -, heq⟩ <;>
        (rw [heq]; exact .still rfl trivial le_rfl)
  | markSeen | markSent =>
      exact fun _ _ => .same (Keeps.setSession ⟨id, rfl, rfl, rfl, rfl, id, rfl, rfl⟩)
        (sendSeq_setSession rfl) rfl trivial le_rfl
  | retirePrev =>
      exact fun _ _ => .same (Keeps.setSession ⟨id, rfl, rfl, rfl, rfl, nofun, rfl, rfl⟩)
        (sendSeq_setSession rfl) rfl trivial le_rfl
  | readAddr =>
      exact fun _ _ => .same (Keeps.refl _).setSession (sendSeq_setSession rfl) rfl trivial le_rfl
  | @decryptCurrent i d =>
      intro s _
      show Draws ctx _ _ (openCurrent ..).2.1 (s.node.setSession i (openCurrent ..).1)
        (openCurrent ..).2.2
      rcases openCurrent_cases todo i d (s.node.table.sessions i) with
        ⟨-, heq⟩ | ⟨plain, -, heq⟩ <;>
      · rw [heq]
        exact .same (Keeps.refl _).setSession (sendSeq_setSession rfl) rfl trivial le_rfl
  | @decryptPrev i d =>
      intro s _
      show Draws ctx _ _ (openPrev ..).2.1 (s.node.setSession i (openPrev ..).1) (openPrev ..).2.2
      rcases openPrev_cases todo i d (s.node.table.sessions i) with
        ⟨-, heq⟩ | ⟨plain, -, -, heq⟩ <;>
      · rw [heq]
        exact .same (Keeps.refl _).setSession (sendSeq_setSession rfl) rfl trivial le_rfl
  | @encrypt i payload seq iv =>
      intro s _
      cases iv with
      | none =>
          exact .same (Keeps.refl _).setSession (sendSeq_setSession rfl) rfl trivial
            (Multiset.zero_le _)
      | some iv =>
          refine .same (Keeps.refl _).setSession (sendSeq_setSession rfl) rfl trivial ?_
          have hnumbers : (Point.worker todo (.encrypt i payload seq)).numbers s.node =
              {((s.node.table.sessions i).sessionKey, seq)} := if_pos ⟨iv⟩
          rw [hnumbers]
          exact le_rfl
  | @checkFrame i d usedPrev plain =>
      intro s _
      obtain ⟨hkeeps, hseq⟩ := acceptFrame_keeps (s.node.table.sessions i) usedPrev plain
      have hnone : ∀ r : Option (Receipt S), installs (r.map Event.accepted).toList = [] ∧
          sentNumbers (r.map Event.accepted).toList + 0 ≤ 0 := by
        intro r
        cases r <;> exact ⟨rfl, le_rfl⟩
      exact .same hkeeps.setSession (sendSeq_setSession hseq) (hnone _).1 trivial (hnone _).2
  | @route r =>
      intro s _
      show Draws ctx _ _ (routeReceipt todo r s.node).2.1 (routeReceipt todo r s.node).1
        (routeReceipt todo r s.node).2.2
      rcases routeReceipt_cases todo r s.node with ⟨-, heq⟩ | ⟨-, ⟨-, heq⟩ | ⟨f, hrelay, heq⟩⟩
      · rw [heq]
        exact .still rfl trivial le_rfl
      · rw [heq]
        exact .still rfl trivial le_rfl
      · rw [heq]
        exact .still rfl (relayTarget_active hrelay) le_rfl

theorem ChoreStep.draws {chore : Chore} {a : Act S} (h : ChoreStep ctx chore a) :
    a.Draws ctx (.housekeeper chore) := by
  cases h with
  | printRdlock | printLock | printUnlock | printRdunlock | passWrlock | passUnlock =>
      exact fun _ _ => .still rfl trivial le_rfl
  | printed | printAddr => exact fun _ _ => .still rfl trivial le_rfl
  | loop =>
      intro s _
      rcases checkFlags_cases s with ⟨-, heq⟩ | ⟨-, -, heq⟩ | ⟨-, heq⟩ <;>
        (rw [heq]; exact .still rfl trivial le_rfl)
  | @printing i rest =>
      intro s _
      show Draws ctx _ _ (printSlot ..).2.1 (printSlot ..).1 (printSlot ..).2.2
      rcases printSlot_cases i rest s.node with heq | heq <;>
        (rw [heq]; exact .still rfl trivial le_rfl)
  | @clock now =>
      intro s _
      show Draws ctx _ _ (checkClock ..).2.1 (checkClock ..).1 (checkClock ..).2.2
      rcases checkClock_cases now s.node with ⟨-, heq⟩ | heq <;>
        (rw [heq]; exact .still rfl trivial le_rfl)
  | begin => exact fun _ _ => .same (fun _ => .refl _) (fun _ => rfl) rfl trivial le_rfl
  | @connect now idx =>
      intro s _
      show Draws ctx _ _ (connectNext ..).2.1 (connectNext ..).1 (connectNext ..).2.2
      rcases connectNext_cases ctx now idx s.node with ⟨-, -, heq⟩ | ⟨-, -, heq⟩ | ⟨-, heq⟩ <;>
        (rw [heq]; exact .still rfl trivial le_rfl)
  | @resolve now idx s addr =>
      intro c _
      have hkeeps := keeps_setRekeying
        (c.node.setConfig idx (resolveEndpoint (fun _ _ => addr) (c.node.config idx))) true s
      exact .same (fun i => (hkeeps i).1) (fun i => (hkeeps i).2) rfl trivial le_rfl
  | @initiate now idx s clock sentAt fresh sendOk =>
      intro c _
      have htable := (initiateOutboundHandshake_started ctx c.node idx clock sentAt fresh sendOk).1
      have hev := initiateOutboundHandshake_events ctx c.node idx clock sentAt fresh sendOk
      have hnone : ∀ ev : List (Event S), (ev = [] ∨ ∃ dst pkt, ev = [.initSent dst pkt]) →
          installs ev = [] ∧ sentNumbers ev + 0 ≤ 0 := by
        rintro ev (rfl | ⟨dst, pkt, rfl⟩) <;> exact ⟨rfl, le_rfl⟩
      show Draws ctx _ _ (initiateNext ..).2.1 (initiateNext ..).1 (initiateNext ..).2.2
      obtain ⟨n', hn' | hn', heq⟩ :=
        initiateNext_cases ctx now idx s clock sentAt fresh sendOk c.node
      · rw [heq, hn']
        refine .same ?_ ?_ (hnone _ hev).1 trivial (hnone _ hev).2
        · exact fun i => htable ▸ .refl _
        · exact fun i => htable ▸ rfl
      · have hkeeps := keeps_setRekeying
          (initiateOutboundHandshake ctx c.node idx clock sentAt fresh sendOk).1 false s
        rw [htable] at hkeeps
        rw [heq, hn']
        exact .same (fun i => (hkeeps i).1) (fun i => (hkeeps i).2) (hnone _ hev).1 trivial
          (hnone _ hev).2
  | @finish now iv sendOk sentAt =>
      intro s _
      have hquiet := finishPass_quiet ctx (keepalivePass now iv sendOk sentAt) s.node
      have hslots := finishPass_slots ctx (keepalivePass now iv sendOk sentAt) s.node
      dsimp only [finishNext]
      generalize finishPass ctx (keepalivePass now iv sendOk sentAt) (s.node, []) = r at *
      exact .work _ hquiet.keeps hquiet.works.sendStep hquiet.installs_nil hquiet.installs_nil
        hslots trivial (le_of_eq (add_comm _ _))

theorem ThreadStep.draws {p : Point S} {a : Act S} (h : ThreadStep ctx p a) : a.Draws ctx p := by
  cases h with
  | @signal _ sig =>
      intro s hfound
      have hnode : (handleSignal sig s).node = s.node := by
        unfold handleSignal
        split <;> rfl
      show Draws ctx p s.node [] (handleSignal sig s).node p
      rw [hnode]
      exact .still rfl hfound (le_of_eq (zero_add _))
  | poll =>
      intro s _
      dsimp only
      split_ifs <;> exact .still rfl trivial le_rfl
  | waitFailed | epollWait | handled | hangup | tun | udp =>
      exact fun _ _ => .still rfl trivial le_rfl
  | worker h => exact h.draws
  | housekeeper h => exact h.draws

end Draws

/-! ## All the threads -/

section Run

variable {W : Type} [DecidableEq W] {ctx : LoopCtx S} {c c' : Threads S W} {t : Thread W}
  {a : Act S} {tr ev : List (Event S)} {k : Nat}

/-- **The invariant.** After `k` steps, each number that was sent or is in hand was drawn once. -/
structure Numbered (ctx : LoopCtx S) (c : Threads S W) (tr : List (Event S)) (k : Nat) : Prop where
  consistent : c.Consistent Point.held
  found : ∀ t, (c.place t).Found ctx c.shared.node
  drawn : ∃ tr' w ts, SendInv c.shared.node tr' w ∧ installs tr' = installs tr ∧
    (∀ key, w.count key ≤ k) ∧
    Pool.Manned (fun t => (c.place t).numbers c.shared.node) ts ∧
    sentNumbers tr + Pool.load (fun t => (c.place t).numbers c.shared.node) ts ≤ sentNumbers tr'

theorem ThreadStep.draws_of_performed (ha : ThreadStep ctx (c.place t) a)
    (hp : Pool.Performed c t a c' ev) (hfound : (c.place t).Found ctx c.shared.node) :
    Draws ctx (c.place t) c.shared.node ev c'.shared.node (c'.place t) := by
  have hdraws := ha.draws
  cases hp <;> rw [Pool.goto_self] <;> exact hdraws _ hfound

/-- The numbers of the other threads, and what they have found, stay as they are. -/
theorem ThreadStep.undisturbed (hc : c.Consistent Point.held) (ha : ThreadStep ctx (c.place t) a)
    (hp : Pool.Performed c t a c' ev) {u : Thread W} (hu : u ≠ t) :
    (c'.place u).numbers c'.shared.node = (c.place u).numbers c.shared.node ∧
    ((c.place u).Found ctx c.shared.node → (c'.place u).Found ctx c'.shared.node) := by
  rw [hp.place_ne hu]
  by_cases hmode : (c.place t).held.mode = .write
  · have hfree := hc.exclusive hmode hu
    rw [Point.numbers_outside hfree, Point.numbers_outside hfree]
    exact ⟨rfl, .outside hfree⟩
  · have hcold : c'.shared.node.cold = c.shared.node.cold := by
      cases hp with
      | work _ => exact ha.cold hmode c.shared
      | _ => rfl
    exact ⟨Point.numbers_of_cold hcold _, .of_cold hcold⟩

theorem Numbered.performed (h : Numbered ctx c tr k) (hc' : c'.Consistent Point.held)
    (ha : ThreadStep ctx (c.place t) a) (hp : Pool.Performed c t a c' ev)
    (hkeys : KeysDistinct (tr ++ ev)) (hk : k + 1 < 2 ^ 64) :
    Numbered ctx c' (tr ++ ev) (k + 1) := by
  obtain ⟨tr', w, ts, hinv, hinstalls, hcount, hts, hle⟩ := h.drawn
  have hdraws := ha.draws_of_performed hp (h.found t)
  have hothers := fun u (hu : u ≠ t) => ha.undisturbed h.consistent hp hu
  have hkeys' : KeysDistinct (tr' ++ ev) := by
    rw [KeysDistinct, installs_append] at hkeys ⊢
    rw [hinstalls]
    exact hkeys
  obtain ⟨ev', w', hev', hinv', hcount', hstep⟩ :=
    hdraws.drawn hinv hkeys' fun key => by have hkey := hcount key; omega
  refine ⟨hc', fun u => ?_, tr' ++ ev', w ++ w', insert t ts, hinv', ?_, fun key => ?_,
    hts.moved fun u hu => (hothers u hu).1, ?_⟩
  · by_cases hu : u = t
    · subst hu
      exact hdraws.found
    · exact (hothers u hu).2 (h.found u)
  · rw [installs_append, installs_append, hinstalls, hev']
  · rw [List.count_append]
    exact Nat.add_le_add (hcount key) (hcount' key)
  · rw [sentNumbers_append, sentNumbers_append]
    exact hts.balance (fun u hu => (hothers u hu).1) hle hstep

omit [DecidableEq W] in
theorem Numbered.mono (h : Numbered ctx c tr k) : Numbered ctx c tr (k + 1) := by
  obtain ⟨tr', w, ts, hinv, hinstalls, hcount, hrest⟩ := h.drawn
  exact ⟨h.consistent, h.found, tr', w, ts, hinv, hinstalls,
    fun key => (hcount key).trans (Nat.le_succ k), hrest⟩

theorem Numbered.step (h : Numbered ctx c tr k) (x : Thread W × Env S)
    (hkeys : KeysDistinct (tr ++ ((threads ctx).step c x).2)) (hk : k + 1 < 2 ^ 64) :
    Numbered ctx ((threads ctx).step c x).1 (tr ++ ((threads ctx).step c x).2) (k + 1) := by
  have hc' : ((threads ctx).step c x).1.Consistent Point.held :=
    h.consistent.step (disciplined ctx) x
  rcases Pool.step_cases (action ctx) c x.1 x.2 with ⟨a, c', ev, ha, hp, heq⟩ | heq
  · rw [show (threads ctx).step c x = (c', ev) from heq] at hkeys hc' ⊢
    exact h.performed hc' (action_cases ha) hp hkeys hk
  · rw [show (threads ctx).step c x = (c, []) from heq, List.append_nil]
    exact h.mono

theorem numbered_start (ctx : LoopCtx S) (cfgs : List (PeerConfig S)) (fresh : Option S.Priv) :
    Numbered ctx (startThreads (W := W) (Node.init cfgs fresh)) [] 0 where
  consistent := consistent_threads ctx _ []
  found t := by cases t <;> exact trivial
  drawn := by
    refine ⟨[], [], ∅, SendInv.init cfgs fresh, rfl, fun _ => le_rfl, fun t _ => ?_, le_rfl⟩
    cases t <;> rfl

theorem numbered_run (ctx : LoopCtx S) (cfgs : List (PeerConfig S)) (fresh : Option S.Priv)
    (sched : List (Thread W × Env S)) (hlen : sched.length < 2 ^ 64)
    (hkeys : KeysDistinct
      ((threads ctx).run (startThreads (Node.init cfgs fresh), []) sched).2) :
    Numbered ctx ((threads ctx).run (startThreads (Node.init cfgs fresh), []) sched).1
      ((threads ctx).run (startThreads (Node.init cfgs fresh), []) sched).2 sched.length := by
  induction sched using List.reverseRecOn with
  | nil => exact numbered_start ctx cfgs fresh
  | append_singleton sched x ih =>
      rw [Machine.run_append] at hkeys ⊢
      rw [List.length_append, List.length_singleton] at hlen ⊢
      exact (ih (Nat.lt_of_succ_lt hlen) hkeys.of_append).step x hkeys hlen

/-- **No sequence number is used twice under one key**, with any number of workers: in every run of
less than 2^64 steps whose handshakes install pairwise distinct keys, any two datagrams that were
sent under one key, by whichever threads, have different numbers. -/
theorem threads_send_once (ctx : LoopCtx S) (cfgs : List (PeerConfig S)) (fresh : Option S.Priv)
    (sched : List (Thread W × Env S)) (hlen : sched.length < 2 ^ 64)
    (hkeys : KeysDistinct
      ((threads ctx).run (startThreads (Node.init cfgs fresh), []) sched).2) :
    (sendings ((threads ctx).run (startThreads (Node.init cfgs fresh), []) sched).2).Pairwise
      fun d d' => d.key = d'.key → d.seq ≠ d'.seq := by
  obtain ⟨tr', w, ts, hinv, -, -, -, hle⟩ := (numbered_run ctx cfgs fresh sched hlen hkeys).drawn
  have hnodup : (sentNumbers tr').Nodup := by
    refine Multiset.coe_nodup.mpr (List.pairwise_map.mpr (hinv.once.imp ?_))
    intro d d' hne heq
    exact hne (congrArg Prod.fst heq) (congrArg Prod.snd heq)
  have hsent := Multiset.nodup_of_le ((Multiset.le_add_right _ _).trans hle) hnodup
  refine (List.pairwise_map.mp (Multiset.coe_nodup.mp hsent)).imp ?_
  intro d d' hne hkey hseq
  exact hne (Prod.ext hkey hseq)

end Run

/-- Peer `2` with a route for every address. -/
def defaultRoute : PeerConfig symbolic := { peerOf 2 with routes := [⟨0, 0, 0⟩] }

/-- Peer `2` connects, and each worker reads a packet for it. The worker that draws its number first
sends last. -/
def crossedSends : List (Thread Bool × Env symbolic) :=
  peer2Connects ++
    [false, true].flatMap (fun w => [.go, .ready [.tun], .go,
      .packet (0x45 :: List.replicate 19 0), .go, .go, .go, .go, .iv (some []), .go, .go].map
        (.worker w, ·)) ++
    [(.worker true, .sent true), (.worker false, .sent true)]

theorem threads_send_once_crossedSends :
    KeysDistinct ((threads (ctxOf 1)).run
      (startThreads (Node.init [defaultRoute] (some 100)), []) crossedSends).2 ∧
    (sendings ((threads (ctxOf 1)).run
      (startThreads (Node.init [defaultRoute] (some 100)), []) crossedSends).2).map (·.seq) =
        [1, 0] ∧
    (sendings ((threads (ctxOf 1)).run
      (startThreads (Node.init [defaultRoute] (some 100)), []) crossedSends).2).Pairwise
      fun d d' => d.key = d'.key → d.seq ≠ d'.seq := by
  have hkeys : KeysDistinct ((threads (ctxOf 1)).run
      (startThreads (Node.init [defaultRoute] (some 100)), []) crossedSends).2 := by
    decide +kernel
  exact ⟨hkeys, by decide +kernel, threads_send_once (ctxOf 1) [defaultRoute] (some 100)
    crossedSends (by decide) hkeys⟩

end Lanecove
