import Lanecove.Threads.Program

set_option autoImplicit false

/-! # A branch of a thread against its sections

What is needed to compare a branch that runs in one go (a step of `node`) with the same branch cut
into the sections of its locks.

* The data path changes only a few fields of a session (`Session.cold` is the rest), so lookups and
  routes stay as they are while `table_lock` is held for reading.
* A packet is received by itself: what was sent meanwhile makes no difference
  (`receive_sending`).
* `Serial ctx n₀ m tr`: the tables `m` are those after some branches that ran one after the other,
  and the handshakes, installs and accepted packets were the ones in `tr`.
-/

namespace Lanecove

variable {S : Suite}

/-! ## What the data path leaves alone -/

/-- The session without the fields the data path writes. -/
def Session.cold (s : Session S) : Session S :=
  { s with prevKeyActive := false, lastSeen := 0, lastSent := 0, sendSeq := 0, recvSeq := .zero }

/-- The tables without the fields the data path writes. -/
def Node.cold (n : Node S) : Node S :=
  { n with table := ⟨fun i => (n.table.sessions i).cold, n.table.slots⟩ }

/-- The session an accepted packet is relayed to, if it is. -/
def Receipt.target (tb : SessionTable S) (r : Receipt S) : Option (Fin MAX_PEERS) :=
  if r.payload.length = 0 then none
  else if sourceAllowed (tb.sessions r.slot) r.payload then relayTarget tb r.slot r.payload
  else none

section Cold

variable {n n' : Node S}

theorem findSessionByAddr_cold (n : Node S) (addr : SockAddr) :
    findSessionByAddr n.cold.table addr = findSessionByAddr n.table addr := rfl

theorem routeLookup_cold (n : Node S) (ip : BitVec 32) :
    routeLookup n.cold.table ip = routeLookup n.table ip := rfl

theorem target_cold (n : Node S) (r : Receipt S) : r.target n.cold.table = r.target n.table := rfl

theorem findSessionByAddr_of_cold (h : n'.cold = n.cold) (addr : SockAddr) :
    findSessionByAddr n'.table addr = findSessionByAddr n.table addr := by
  rw [← findSessionByAddr_cold, h, findSessionByAddr_cold]

theorem routeLookup_of_cold (h : n'.cold = n.cold) (ip : BitVec 32) :
    routeLookup n'.table ip = routeLookup n.table ip := by
  rw [← routeLookup_cold, h, routeLookup_cold]

theorem target_of_cold (h : n'.cold = n.cold) (r : Receipt S) :
    r.target n'.table = r.target n.table := by
  rw [← target_cold, h, target_cold]

theorem cold_setSession {i : Fin MAX_PEERS} {s : Session S}
    (h : s.cold = (n.table.sessions i).cold) : (n.setSession i s).cold = n.cold := by
  have hsessions : (fun j => ((n.setSession i s).table.sessions j).cold) =
      fun j => (n.table.sessions j).cold := by
    funext j
    by_cases hj : j = i
    · subst hj
      rw [Node.setSession_table, SessionTable.set_sessions_self, h]
    · rw [Node.setSession_table, SessionTable.set_sessions_ne _ _ hj]
  rw [Node.cold, hsessions]
  rfl

end Cold

/-! ## Receiving beside sending -/

/-- The session after something was sent on it. -/
def Session.sending (s : Session S) (seq : BitVec 64) (sent : Int) : Session S :=
  { s with sendSeq := seq, lastSent := sent }

theorem decryptSession_sending (s : Session S) (q : BitVec 64) (t : Int) (pkt : S.Wire)
    (now : Int) : decryptSession (s.sending q t) pkt now =
      ((decryptSession s pkt now).1.sending q t, (decryptSession s pkt now).2) := by
  unfold decryptSession Session.sending
  dsimp only
  split
  · rfl
  · split_ifs <;> rfl

theorem acceptFrame_sending (s : Session S) (q : BitVec 64) (t : Int) (usedPrev : Bool)
    (plain : List UInt8) : acceptFrame (s.sending q t) usedPrev plain =
      ((acceptFrame s usedPrev plain).1.sending q t, (acceptFrame s usedPrev plain).2) := by
  unfold acceptFrame Session.sending
  dsimp only
  split
  · rfl
  · split_ifs
    · rfl
    · split <;> rfl

/-- A packet is received as if nothing had been sent. -/
theorem receive_sending (s : Session S) (q : BitVec 64) (t : Int) (i : Fin MAX_PEERS)
    (pkt : S.Wire) (now : Int) : receive (s.sending q t) i pkt now =
      ((receive s i pkt now).1.sending q t, (receive s i pkt now).2) := by
  unfold receive
  rw [decryptSession_sending]
  rcases decryptSession s pkt now with ⟨s', _ | ⟨usedPrev, plain⟩⟩
  · rfl
  · dsimp only
    rw [acceptFrame_sending]
    rfl

/-! ## Which events the branches have in common -/

/-- The events but for the data sent and delivered: a packet that is relayed leaves in another
section than it was accepted in. -/
def core : List (Event S) → List (Event S) :=
  List.filter fun
    | .dataSent _ => false
    | .delivered _ _ => false
    | _ => true

@[simp] theorem core_append (tr ev : List (Event S)) : core (tr ++ ev) = core tr ++ core ev :=
  List.filter_append ..

theorem receipts_core (tr : List (Event S)) : receipts (core tr) = receipts tr := by
  unfold receipts core
  rw [List.filterMap_filter]
  congr 1
  funext e
  cases e <;> rfl

theorem installs_core (tr : List (Event S)) : installs (core tr) = installs tr := by
  unfold installs core
  rw [List.filterMap_filter]
  congr 1
  funext e
  cases e <;> rfl

theorem core_of_delivered {ev : List (Event S)} (h : ∀ e ∈ ev, ∃ r, e = .delivered r none) :
    core ev = [] := by
  refine List.filter_eq_nil_iff.mpr fun e he => ?_
  obtain ⟨r, rfl⟩ := h e he
  exact Bool.false_ne_true

/-- `forward_to_peer` in one go, with the outcome that sets `last_sent` as wanted. -/
theorem forwardToPeer_outcome (s : Session S) (i : Fin MAX_PEERS) (payload : List UInt8)
    (stamp : Int) (h : s.lastSent = stamp ∨ Nonempty S.Iv) : ∃ iv ok,
      (forwardToPeer s i payload iv ok stamp).1 = s.sending (s.sendSeq + 1) stamp ∧
      core (forwardToPeer s i payload iv ok stamp).2 = [] := by
  rcases h with rfl | ⟨⟨iv⟩⟩
  · exact ⟨none, false, rfl, rfl⟩
  · exact ⟨some iv, true, rfl, rfl⟩

theorem deliver_of_target_none {n : Node S} {r : Receipt S} (h : r.target n.table = none)
    (iv : Option S.Iv) (ok : Bool) (now : Int) :
    (deliver n r iv ok now).1 = n ∧ core (deliver n r iv ok now).2 = [] := by
  unfold Receipt.target at h
  unfold deliver
  split_ifs at h ⊢
  · exact ⟨rfl, rfl⟩
  · rw [h]
    exact ⟨rfl, rfl⟩
  · exact ⟨rfl, rfl⟩

theorem deliver_of_target_some {n : Node S} {r : Receipt S} {f : Fin MAX_PEERS}
    (h : r.target n.table = some f) (iv : Option S.Iv) (ok : Bool) (now : Int) :
    deliver n r iv ok now =
      (n.setSession f (forwardToPeer (n.table.sessions f) f r.payload iv ok now).1,
        .delivered r (some f) ::
          (forwardToPeer (n.table.sessions f) f r.payload iv ok now).2) := by
  unfold Receipt.target at h
  unfold deliver
  split_ifs at h ⊢
  rw [h]

/-- The data branch in one go, up to what is done with an accepted packet. -/
def afterReceive (n : Node S) (iv : Option S.Iv) (ok : Bool) (clock : Int) :
    Option (Receipt S) → Node S × List (Event S)
  | none => (n, [])
  | some r => ((deliver n r iv ok clock).1, .accepted r :: (deliver n r iv ok clock).2)

theorem dataPacket_of_receive {n : Node S} {src : SockAddr} {pkt : S.Wire} {now : Int}
    {i : Fin MAX_PEERS} {s : Session S} {r : Option (Receipt S)}
    (hf : findSessionByAddr n.table src = some i)
    (hr : receive (n.table.sessions i) i pkt now = (s, r)) (clock : Int) (iv : Option S.Iv)
    (ok : Bool) :
    dataPacket n src pkt now clock iv ok = afterReceive (n.setSession i s) iv ok clock r := by
  unfold dataPacket
  rw [hf]
  dsimp only
  cases r with
  | none => rw [hr, afterReceive]
  | some r => rw [hr, afterReceive]

/-- A receipt is relayed if it has a target. -/
theorem routeReceipt_target (todo : List Source) (r : Receipt S) (n : Node S) :
    (r.target n.table = none ∧ (routeReceipt todo r n = (n, [], .worker todo .rdUnlock) ∨
      routeReceipt todo r n = (n, [], .worker todo (.tunUnlock r)))) ∨
    ∃ f, r.target n.table = some f ∧ routeReceipt todo r n =
      (n, [.delivered r (some f)], .worker todo (.fwdLock f r.payload)) := by
  rcases routeReceipt_cases todo r n with ⟨hdrop, heq⟩ | ⟨⟨hlen, hsrc⟩, hroute⟩
  · have hnone : r.target n.table = none := by
      unfold Receipt.target
      rcases hdrop with hzero | hsrc
      · rw [if_pos hzero]
      · simp [hsrc]
    exact .inl ⟨hnone, .inl heq⟩
  · have htarget : r.target n.table = relayTarget n.table r.slot r.payload := by
      unfold Receipt.target
      rw [if_neg hlen, if_pos hsrc]
    rw [htarget]
    rcases hroute with ⟨hnone, heq⟩ | ⟨f, hsome, heq⟩
    · exact .inl ⟨hnone, .inr heq⟩
    · exact .inr ⟨f, hsome, heq⟩

/-! ## Branches one after the other -/

/-- The tables `m` come from running whole branches one after the other, with the events of `tr`
up to data sent and delivered. -/
def Serial (ctx : LoopCtx S) (n₀ m : Node S) (tr : List (Event S)) : Prop :=
  ∃ is, ((node ctx).run (n₀, []) is).1 = m ∧ core ((node ctx).run (n₀, []) is).2 = core tr

section Serial

variable {ctx : LoopCtx S} {n₀ m : Node S} {tr ev : List (Event S)}

theorem Serial.init (ctx : LoopCtx S) (n₀ : Node S) : Serial ctx n₀ n₀ [] := ⟨[], rfl, rfl⟩

/-- One branch more. -/
theorem Serial.next (h : Serial ctx n₀ m tr) (inp : Input S) (ev : List (Event S))
    (hev : core ((node ctx).step m inp).2 = core ev) :
    Serial ctx n₀ ((node ctx).step m inp).1 (tr ++ ev) := by
  obtain ⟨is, rfl, htr⟩ := h
  refine ⟨is ++ [inp], ?_, ?_⟩
  · rw [Machine.run_append]
    rfl
  · rw [Machine.run_append, core_append, ← htr, ← hev, ← core_append]
    rfl

theorem Serial.events (h : Serial ctx n₀ m tr) (hev : core ev = []) :
    Serial ctx n₀ m (tr ++ ev) := by
  obtain ⟨is, hm, htr⟩ := h
  exact ⟨is, hm, by rw [core_append, hev, List.append_nil, htr]⟩

end Serial

end Lanecove
