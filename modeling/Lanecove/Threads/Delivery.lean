import Lanecove.Basic.Custody
import Lanecove.Safety.Delivery
import Lanecove.Threads.Serialisation

set_option autoImplicit false

/-! # What the workers deliver

Copies of one datagram may reach several workers at once. The replay check runs under `hot_lock`, so
they accept it once between them (`Refines.accepted`). What a worker has accepted it carries through
the sections that follow and delivers at most once (`delivered_of_accepted`). So under a session key
that is current the threads deliver a datagram at most once, however they interleave
(`threads_deliver_once`). While the housekeeping thread waits for the resolver it holds `table_lock`
for writing, so the workers accept nothing and only deliver what they have accepted before
(`resolver_stalls_workers`).
-/

namespace Lanecove

variable {S : Suite}

/-! ## From acceptance to delivery -/

/-- The accepted packet a worker has in hand. -/
def Job.carries : Job S → Multiset (Receipt S)
  | .hotUnlock _ (some r) => {r}
  | .route r => {r}
  | .tunUnlock r => {r}
  | .tunWrite r => {r}
  | _ => 0

def Point.carries : Point S → Multiset (Receipt S)
  | .worker _ job => job.carries
  | _ => 0

/-- What the step delivers and has in hand after it, it had in hand before or has accepted. -/
def Action.Conserves (held : Multiset (Receipt S)) : Act S → Prop
  | .work _ f => ∀ s, (deliveries (f s).2.1 : Multiset (Receipt S)) + (f s).2.2.carries ≤
      held + (receipts (f s).2.1 : Multiset (Receipt S))
  | .rdlock p => p.carries ≤ held
  | .wrlock p => p.carries ≤ held
  | .rwunlock p => p.carries ≤ held
  | .lock _ p => p.carries ≤ held
  | .unlock _ p => p.carries ≤ held

/-- A handshake branch sends a response, completes a handshake and installs a session. -/
theorem handshakePkt_events (ctx : LoopCtx S) (n : Node S) (d : Datagram S) :
    deliveries (handshakePkt ctx n d).2 = [] ∧ receipts (handshakePkt ctx n d).2 = [] := by
  have hinstall : ∀ (m : Node S) (pub key : S.Block) (cfg : PeerConfig S) (out : Bool),
      deliveries (installSession ctx m d pub key cfg out).2 = [] ∧
      receipts (installSession ctx m d pub key cfg out).2 = [] := by
    intro m pub key cfg out
    unfold installSession
    split <;> exact ⟨rfl, rfl⟩
  cases hp : pendingFrom n d.src with
  | some j =>
      rw [handshakePkt_of_pendingFrom_some ctx n hp]
      unfold outboundResponse
      dsimp only
      split
      · exact hinstall ..
      · exact ⟨rfl, rfl⟩
  | none =>
      rw [handshakePkt_of_pendingFrom_none ctx n hp]
      unfold inboundHandshake
      have hsent : ∀ resp : Option S.Wire,
          deliveries (resp.map (Event.respSent d.src)).toList = [] ∧
          receipts (resp.map (Event.respSent d.src)).toList = [] := by
        intro resp
        cases resp <;> exact ⟨rfl, rfl⟩
      split
      · exact ⟨rfl, rfl⟩
      · dsimp only
        split
        · exact hsent _
        · rename_i pub key _
          rw [deliveries_append, receipts_append, (hsent _).1, (hsent _).2, List.nil_append,
            List.nil_append]
          rcases acceptInitiation_cases ctx (refreshPrecompEph n d.fresh) d pub key with
            ⟨-, heq⟩ | ⟨cfg, -, -, heq⟩
          · rw [heq]
            exact ⟨rfl, rfl⟩
          · rw [heq]
            exact hinstall ..

theorem initiateOutboundHandshake_events (ctx : LoopCtx S) (n : Node S) (idx : Nat)
    (clock sentAt : Int) (fresh : Option S.Priv) (sendOk : Bool) :
    (initiateOutboundHandshake ctx n idx clock sentAt fresh sendOk).2.2 = [] ∨
    ∃ dst pkt, (initiateOutboundHandshake ctx n idx clock sentAt fresh sendOk).2.2 =
      [.initSent dst pkt] := by
  unfold initiateOutboundHandshake
  dsimp only
  split
  · exact .inl rfl
  · split
    · exact .inl rfl
    · exact .inr ⟨_, _, rfl⟩

section Steps

variable {ctx : LoopCtx S} {a : Act S}

theorem conserves_goto {p : Point S} {held : Multiset (Receipt S)} (h : p.carries ≤ held) :
    (goto p).Conserves held := by
  intro s
  show 0 + p.carries ≤ held + 0
  rw [zero_add, add_zero]
  exact h

theorem conserves_onNode {f : Node S → Node S × List (Event S) × Point S}
    {held : Multiset (Receipt S)}
    (h : ∀ n, deliveries (f n).2.1 = [] ∧ receipts (f n).2.1 = [] ∧ (f n).2.2.carries ≤ held) :
    (onNode f).Conserves held := by
  intro s
  obtain ⟨hd, hr, hle⟩ := h s.node
  show (deliveries (f s.node).2.1 : Multiset (Receipt S)) + _ ≤
    held + (receipts (f s.node).2.1 : Multiset (Receipt S))
  rw [hd, hr, Multiset.coe_nil, zero_add, add_zero]
  exact hle

theorem JobStep.conserves {todo : List Source} {job : Job S} (h : JobStep ctx todo job a) :
    a.Conserves job.carries := by
  cases h with
  | readFailed | notIpv4 | recvFailed => exact conserves_goto le_rfl
  | readTun | recvHandshake | recvData => exact conserves_goto le_rfl
  | sendFailed => exact conserves_goto le_rfl
  | tunRdlock | dataRdlock | hsWrlock => exact le_refl (0 : Multiset (Receipt S))
  | hsUnlock | rdUnlock => exact le_refl (0 : Multiset (Receipt S))
  | hotLock | fwdLock | sentLock => exact le_refl (0 : Multiset (Receipt S))
  | hotUnlockNone | encryptFailed | fwdUnlock | sentUnlock =>
      exact le_refl (0 : Multiset (Receipt S))
  | hotUnlockSome | tunUnlock => exact le_refl ({_} : Multiset (Receipt S))
  | sendto => exact fun _ => le_rfl
  | tunWrite => exact fun _ => le_rfl
  | hsHandle =>
      refine conserves_onNode fun n => ?_
      obtain ⟨hd, hr⟩ := handshakePkt_events ctx n _
      exact ⟨hd, hr, le_rfl⟩
  | markSeen | retirePrev | drawSeq | readAddr | markSent =>
      exact conserves_onNode fun _ => ⟨rfl, rfl, le_rfl⟩
  | @tunRoute packet =>
      refine conserves_onNode fun n => ?_
      rcases routePacket_cases todo packet n with ⟨-, heq⟩ | ⟨i, -, heq⟩ <;>
        (rw [heq]; exact ⟨rfl, rfl, le_rfl⟩)
  | @dataLookup d =>
      refine conserves_onNode fun n => ?_
      rcases lookupSource_cases todo d n with ⟨-, heq⟩ | ⟨i, -, heq⟩ <;>
        (rw [heq]; exact ⟨rfl, rfl, le_rfl⟩)
  | @decryptCurrent i d =>
      refine conserves_onNode fun n => ?_
      dsimp only
      rcases openCurrent_cases todo i d (n.table.sessions i) with ⟨-, heq⟩ | ⟨plain, -, heq⟩ <;>
        (rw [heq]; exact ⟨rfl, rfl, le_rfl⟩)
  | @decryptPrev i d =>
      refine conserves_onNode fun n => ?_
      dsimp only
      rcases openPrev_cases todo i d (n.table.sessions i) with ⟨-, heq⟩ | ⟨plain, -, -, heq⟩ <;>
        (rw [heq]; exact ⟨rfl, rfl, le_rfl⟩)
  | @encrypt _ _ _ iv =>
      refine conserves_onNode fun n => ?_
      cases iv <;> exact ⟨rfl, rfl, le_rfl⟩
  | @checkFrame i d usedPrev plain =>
      -- what is accepted here is in hand from here on
      have hhand : ∀ r : Option (Receipt S),
          ((deliveries (r.map Event.accepted).toList : List (Receipt S)) : Multiset (Receipt S)) +
            (Point.worker todo (.hotUnlock i r)).carries ≤
          0 + ((receipts (r.map Event.accepted).toList : List (Receipt S)) :
            Multiset (Receipt S)) := by
        intro r
        cases r <;> exact le_rfl
      exact fun _ => hhand _
  | @route r =>
      intro s
      show (deliveries (routeReceipt todo r s.node).2.1 : Multiset (Receipt S)) +
        (routeReceipt todo r s.node).2.2.carries ≤
        {r} + (receipts (routeReceipt todo r s.node).2.1 : Multiset (Receipt S))
      rcases routeReceipt_cases todo r s.node with ⟨-, heq⟩ | ⟨-, ⟨-, heq⟩ | ⟨f, -, heq⟩⟩
      · rw [heq]
        exact Multiset.zero_le _
      · rw [heq]
        exact le_rfl
      · rw [heq]
        exact le_rfl

theorem ChoreStep.conserves {chore : Chore} (h : ChoreStep ctx chore a) :
    a.Conserves 0 := by
  cases h with
  | printRdlock | printLock | printUnlock | printRdunlock | passWrlock | passUnlock =>
      exact le_refl (0 : Multiset (Receipt S))
  | printed | printAddr => exact conserves_goto le_rfl
  | loop =>
      intro s
      rcases checkFlags_cases s with ⟨-, heq⟩ | ⟨-, -, heq⟩ | ⟨-, heq⟩ <;>
        (rw [heq]; exact le_rfl)
  | @printing i rest =>
      refine conserves_onNode fun n => ?_
      rcases printSlot_cases i rest n with heq | heq <;> (rw [heq]; exact ⟨rfl, rfl, le_rfl⟩)
  | @clock now =>
      refine conserves_onNode fun n => ?_
      rcases checkClock_cases now n with ⟨-, heq⟩ | heq <;> (rw [heq]; exact ⟨rfl, rfl, le_rfl⟩)
  | begin | resolve => exact conserves_onNode fun _ => ⟨rfl, rfl, le_rfl⟩
  | @connect now idx =>
      refine conserves_onNode fun n => ?_
      rcases connectNext_cases ctx now idx n with ⟨-, -, heq⟩ | ⟨-, -, heq⟩ | ⟨-, heq⟩ <;>
        (rw [heq]; exact ⟨rfl, rfl, le_rfl⟩)
  | @initiate now idx s clock sentAt fresh sendOk =>
      refine conserves_onNode fun n => ?_
      obtain ⟨n', -, heq⟩ := initiateNext_cases ctx now idx s clock sentAt fresh sendOk n
      rw [heq]
      rcases initiateOutboundHandshake_events ctx n idx clock sentAt fresh sendOk with
        hev | ⟨dst, pkt, hev⟩ <;> (rw [hev]; exact ⟨rfl, rfl, le_rfl⟩)
  | @finish now iv sendOk sentAt =>
      refine conserves_onNode fun n => ?_
      have hquiet := finishPass_quiet ctx (keepalivePass now iv sendOk sentAt) n
      exact ⟨hquiet.deliveries_nil, hquiet.receipts_nil, le_rfl⟩

theorem ThreadStep.conserves {p : Point S} (h : ThreadStep ctx p a) : a.Conserves p.carries := by
  cases h with
  | signal =>
      intro s
      show 0 + p.carries ≤ p.carries + 0
      rw [zero_add, add_zero]
  | poll =>
      intro s
      dsimp only
      split_ifs <;> exact le_rfl
  | waitFailed | epollWait | handled | hangup | tun | udp => exact conserves_goto le_rfl
  | worker h => exact h.conserves
  | housekeeper h => exact h.conserves

end Steps

variable {W : Type} [DecidableEq W]

/-- **An accepted packet is delivered at most once**, and nothing else is. -/
theorem delivered_of_accepted (ctx : LoopCtx S) (n : Node S) (sched : List (Thread W × Env S)) :
    ((deliveries ((threads ctx).run (startThreads n, []) sched).2 : List (Receipt S)) :
      Multiset (Receipt S)) ≤
    ((receipts ((threads ctx).run (startThreads n, []) sched).2 : List (Receipt S)) :
      Multiset (Receipt S)) := by
  refine Pool.conserved_run Point.carries
    (fun tr => ((receipts tr : List (Receipt S)) : Multiset (Receipt S)))
    (fun tr => ((deliveries tr : List (Receipt S)) : Multiset (Receipt S)))
    (fun tr ev => ?_) (fun tr ev => ?_) ?_ (fun t => ?_) sched
  · rw [receipts_append, Multiset.coe_add]
  · rw [deliveries_append, Multiset.coe_add]
  · intro c t e a c' ev ha hp
    have hconserves := (action_cases ha).conserves
    cases hp with
    | work _ =>
        rw [Pool.goto_self]
        exact hconserves c.shared
    | _ =>
        rw [Pool.goto_self]
        show 0 + _ ≤ _ + 0
        rw [zero_add, add_zero]
        exact hconserves
  · cases t <;> rfl

/-! ## While the resolver is asked -/

section Resolver

variable {ctx : LoopCtx S} {n : Node S} {c : Threads S W}

/-- The thread waits for `getaddrinfo`. -/
def Point.resolves : Point S → Bool
  | .housekeeper (.resolve _ _ _) => true
  | _ => false

def Resolving (c : Threads S W) : Prop := (c.place .housekeeping).resolves = true

/-- While nothing is heard from the resolver, `table_lock` is held for writing, and nothing happens
but writes to the TUN device of packets that were accepted before, in `tr₀`. -/
structure Stalled (c : Threads S W) (tr₀ tr : List (Event S)) (c' : Threads S W) : Prop where
  resolving : c'.place .housekeeping = c.place .housekeeping
  locked : c'.writer = some .housekeeping
  tables : c'.shared.node = c.shared.node
  outside : ∀ w, (c'.place (.worker w)).held.mode = .free
  events : ∀ ev ∈ tr, ∃ r, ev = .delivered r none ∧ .accepted r ∈ tr₀

omit [DecidableEq W] in
theorem Resolving.writes (h : Resolving c) : (c.place .housekeeping).held.mode = .write := by
  unfold Resolving at h
  generalize c.place .housekeeping = p at h ⊢
  cases p with
  | housekeeper chore =>
      cases chore with
      | resolve => rfl
      | _ => cases h
  | _ => cases h

/-- A step of a worker while the housekeeping thread writes. -/
theorem step_beside_writer {c' : Threads S W} (hc : c.Consistent Point.held) {w : W} {e : Env S}
    {a : Act S} {ev : List (Event S)} (hw : (c.place .housekeeping).held.mode = .write)
    (ha : action ctx (c.place (.worker w)) e = some a)
    (h : Pool.Performed c (.worker w) a c' ev) :
    c'.place .housekeeping = c.place .housekeeping ∧ c'.shared.node = c.shared.node ∧
    ∀ x ∈ ev, ∃ r, x = .delivered r none := by
  have hwriter : c.writer = some .housekeeping := (hc.holds _).writer.mpr hw
  have hfree := hc.exclusive hw (u := .worker w) (by intro heq; cases heq)
  rcases (action_cases ha).outside hfree with ⟨q, rfl⟩ | ⟨q, rfl⟩ | ⟨f, rfl, hf⟩
  · cases h with
    | rdlock hnone =>
        rw [hwriter] at hnone
        cases hnone
  · cases h with
    | wrlock hnone _ =>
        rw [hwriter] at hnone
        cases hnone
  · cases h with
    | work _ =>
        refine ⟨Pool.goto_ne _ _ _ (by intro heq; cases heq), (hf c.shared).1, (hf c.shared).2⟩

/-- A run of the workers while the housekeeping thread writes. -/
theorem run_beside_writer (ctx : LoopCtx S) (hc : c.Consistent Point.held)
    (hw : (c.place .housekeeping).held.mode = .write) (sched : List (Thread W × Env S))
    (hsched : ∀ x ∈ sched, x.1 ≠ .housekeeping) :
    ((threads ctx).run (c, []) sched).1.Consistent Point.held ∧
    ((threads ctx).run (c, []) sched).1.place .housekeeping = c.place .housekeeping ∧
    ((threads ctx).run (c, []) sched).1.shared.node = c.shared.node ∧
    ∀ ev ∈ ((threads ctx).run (c, []) sched).2, ∃ r, ev = Event.delivered r none := by
  refine (threads (W := W) ctx).invariant
    (G := fun _ x => x.1 ≠ .housekeeping)
    (I := fun x => x.1.Consistent Point.held ∧ x.1.place .housekeeping = c.place .housekeeping ∧
      x.1.shared.node = c.shared.node ∧ ∀ ev ∈ x.2, ∃ r, ev = Event.delivered r none)
    (fun x i hI hG => ?_) sched (c, []) ⟨hc, rfl, rfl, fun _ hev => (List.not_mem_nil hev).elim⟩
    ((threads ctx).along_of_mem hsched (c, []))
  obtain ⟨hcons, hplace, hnode, hev⟩ := hI
  refine ⟨hcons.step (disciplined ctx) i, ?_⟩
  obtain ⟨t, e⟩ := i
  show ((threads ctx).step x.1 (t, e)).1.place _ = _ ∧
    ((threads ctx).step x.1 (t, e)).1.shared.node = _ ∧
    ∀ ev ∈ x.2 ++ ((threads ctx).step x.1 (t, e)).2, _
  cases t with
  | housekeeping => exact absurd rfl hG
  | worker w =>
      -- a worker that cannot move stays where it is
      rcases Pool.step_cases (action ctx) x.1 (.worker w) e with ⟨a, c', ev, ha, h, heq⟩ | heq
      · have hbeside := step_beside_writer hcons (by rw [hplace]; exact hw) ha h
        rw [show (threads ctx).step x.1 (.worker w, e) = (c', ev) from heq]
        refine ⟨hbeside.1.trans hplace, hbeside.2.1.trans hnode, fun y hy => ?_⟩
        rcases List.mem_append.mp hy with hy | hy
        · exact hev y hy
        · exact hbeside.2.2 y hy
      · rw [show (threads ctx).step x.1 (.worker w, e) = (x.1, []) from heq, List.append_nil]
        exact ⟨hplace, hnode, hev⟩

/-- The resolver is called with `table_lock` held for writing: however long it takes, and whatever
arrives in the meantime, no worker gets into the tables, so no datagram is sent, accepted or
relayed and no handshake is answered until `getaddrinfo` returns. -/
theorem resolver_stalls_workers (sched₀ : List (Thread W × Env S)) {tr₀ : List (Event S)}
    (hc : (threads ctx).run (startThreads n, []) sched₀ = (c, tr₀)) (hres : Resolving c)
    (sched : List (Thread W × Env S)) (hsched : ∀ x ∈ sched, x.1 ≠ .housekeeping) :
    Stalled c tr₀ ((threads ctx).run (c, []) sched).2 ((threads ctx).run (c, []) sched).1 := by
  have hreach : ThreadsReach ctx n c := ⟨sched₀, congrArg Prod.fst hc⟩
  obtain ⟨hcons, hplace, hnode, hev⟩ :=
    run_beside_writer ctx hreach.consistent hres.writes sched hsched
  have hw : (((threads ctx).run (c, []) sched).1.place .housekeeping).held.mode = .write := by
    rw [hplace]
    exact hres.writes
  refine ⟨hplace, (hcons.holds _).writer.mpr hw, hnode,
    fun w => hcons.exclusive hw (by intro heq; cases heq), fun ev hmem => ?_⟩
  obtain ⟨r, rfl⟩ := hev ev hmem
  refine ⟨r, rfl, ?_⟩
  -- what is delivered was accepted at some time, and since then nothing was
  have hrun : ((threads ctx).run (startThreads n, []) (sched₀ ++ sched)).2
      = tr₀ ++ ((threads ctx).run (c, []) sched).2 := by
    rw [Machine.run_append, hc]
    exact congrArg Prod.snd ((threads ctx).run_trace c tr₀ sched)
  have hnone : receipts ((threads ctx).run (c, []) sched).2 = [] := by
    refine List.filterMap_eq_nil_iff.mpr fun x hx => ?_
    obtain ⟨r', rfl⟩ := hev x hx
    rfl
  have hle := delivered_of_accepted ctx n (sched₀ ++ sched)
  rw [hrun, receipts_append, hnone, List.append_nil] at hle
  refine mem_receipts.mp (Multiset.mem_coe.mp (Multiset.mem_of_le hle ?_))
  exact Multiset.mem_coe.mpr (List.mem_filterMap.mpr ⟨_, List.mem_append_right _ hmem, rfl⟩)

end Resolver

/-- A worker receives a datagram, up to where it takes the locks of a data packet or of a
handshake. -/
def receives (w : Bool) (src : SockAddr) (pkt : Msg) (now : Int) :
    List (Thread Bool × Env symbolic) :=
  [.go, .ready [.udp], .go, .datagram src pkt now, .go].map (.worker w, ·)

/-- Peer `2` connects. -/
def peer2Connects : List (Thread Bool × Env symbolic) :=
  receives false (addrOf 2) (initiationOf 2 1 12) 100 ++
    [.handshake 100 (some 101) true, .go, .go].map (.worker false, ·)

/-- A packet of peer `2` has been accepted and is about to be written to the TUN device when the
housekeeping thread asks the resolver for peer `3`. The next one waits for `table_lock`. -/
def resolverRun : List (Thread Bool × Env symbolic) :=
  peer2Connects ++ receives false (addrOf 2) (dataOf (keyOf 2 1 12 100) 1 [7]) 110 ++
    List.replicate 9 (.worker false, .go) ++
    [.go, .time 200, .go, .go, .go, .go].map (.housekeeping, ·) ++
    receives true (addrOf 2) (dataOf (keyOf 2 1 12 100) 2 [8]) 110

/-- The workers go on: one has written its packet, the other one still waits. -/
def whileResolving : List (Thread Bool × Env symbolic) :=
  [(.worker true, .go), (.worker false, .sent true), (.worker true, .go)]

theorem resolver_stalls_workers_resolverRun : ∃ c tr₀,
    (threads (ctxOf 1)).run (startThreads (Node.init [peerOf 2, endpointOf 3] (some 100)), [])
      resolverRun = (c, tr₀) ∧ Resolving c ∧
    (deliveries ((threads (ctxOf 1)).run (c, []) whileResolving).2).map Receipt.payload = [[7]] ∧
    Stalled c tr₀ ((threads (ctxOf 1)).run (c, []) whileResolving).2
      ((threads (ctxOf 1)).run (c, []) whileResolving).1 := by
  have hres : Resolving ((threads (ctxOf 1)).run
      (startThreads (Node.init [peerOf 2, endpointOf 3] (some 100)), []) resolverRun).1 := by
    unfold Resolving
    decide +kernel
  refine ⟨_, _, Prod.mk.eta.symm, hres, by decide +kernel, ?_⟩
  refine resolver_stalls_workers resolverRun Prod.mk.eta.symm hres whileResolving ?_
  decide

/-! ## Copies of one datagram -/

/-- A pass under way has accepted nothing and installed nothing. -/
theorem connects_events (ctx : LoopCtx S) (pass : PassInput S) (n : Node S) (idx : Nat) :
    receipts (connects ctx pass n idx).2 = [] ∧ installs (connects ctx pass n idx).2 = [] := by
  have h₀ : Quiet ctx (.housekeeping pass) 0 n [] { n with lastCheck := pass.now } :=
    { Quiet.refl ctx (.housekeeping pass) n with }
  have h₁ := Quiet.run (B := fun _ => 0) (fun m idx => connectPeer_quiet ctx (n := m) pass idx)
    (List.range idx) (c := (_, [])) h₀
  exact ⟨h₁.receipts_nil, h₁.installs_nil⟩

section Copies

variable {ctx : LoopCtx S} {n₀ : Node S} {tr : List (Event S)}

theorem Serial.accepted {m : Node S} (h : Serial ctx n₀ m tr) :
    ∃ is, receipts ((node ctx).run (n₀, []) is).2 = receipts tr ∧
      installs ((node ctx).run (n₀, []) is).2 = installs tr := by
  obtain ⟨is, -, hcore⟩ := h
  refine ⟨is, ?_, ?_⟩
  · rw [← receipts_core, hcore, receipts_core]
  · rw [← installs_core, hcore, installs_core]

theorem UnderWay.accepted {now : Int} {idx : Nat} {m : Node S}
    (h : UnderWay ctx n₀ now idx m tr) :
    ∃ is, receipts ((node ctx).run (n₀, []) is).2 = receipts tr ∧
      installs ((node ctx).run (n₀, []) is).2 = installs tr := by
  obtain ⟨n₁, tr₁, pass, hserial, -, -, -, -, htr⟩ := h
  obtain ⟨is, hreceipts, hinstalls⟩ := hserial.accepted
  obtain ⟨hr, hi⟩ := connects_events ctx pass n₁ idx
  refine ⟨is, hreceipts.trans ?_, hinstalls.trans ?_⟩
  · rw [← receipts_core tr, htr, receipts_core, receipts_append, hr, List.append_nil]
  · rw [← installs_core tr, htr, installs_core, installs_append, hi, List.append_nil]

omit [DecidableEq W] in
/-- At every moment the threads have accepted and installed what some branches, one after the other,
have. -/
theorem Refines.accepted {c : Threads S W} (h : Refines ctx n₀ c tr) :
    ∃ is, receipts ((node ctx).run (n₀, []) is).2 = receipts tr ∧
      installs ((node ctx).run (n₀, []) is).2 = installs tr := by
  cases hw : c.writer with
  | none =>
      obtain ⟨g, -, hb⟩ := h.reading hw
      exact (hb (fun i => (g.base i).lastSent) fun _ _ => rfl).accepted
  | some t =>
      have hwrites := (h.writing t hw).2
      cases hp : c.place t with
      | housekeeper chore =>
          rw [hp] at hwrites
          cases chore with
          | begin now => exact Serial.accepted hwrites.1
          | connect now idx => exact UnderWay.accepted hwrites
          | resolve now idx s => exact UnderWay.accepted hwrites.1
          | initiate now idx s =>
              obtain ⟨m₁, addr, hunder, -⟩ := hwrites
              exact hunder.accepted
          | finish now => exact UnderWay.accepted hwrites
          | _ => exact Serial.accepted hwrites
      | _ =>
          rw [hp] at hwrites
          exact Serial.accepted hwrites

end Copies

/-- **At most once, with any number of workers.** Whatever copies of a datagram arrive and however
the threads interleave, the datagram is delivered at most once under a session key that is current,
at every moment of every run whose handshakes install pairwise distinct keys. If no datagram opens
under two keys, it is delivered at most once under all of them together. -/
theorem threads_deliver_once (ctx : LoopCtx S) (cfgs : List (PeerConfig S))
    (fresh : Option S.Priv) (sched : List (Thread W × Env S))
    (hkeys : KeysDistinct
      ((threads ctx).run (startThreads (Node.init cfgs fresh), []) sched).2) :
    ((deliveries ((threads ctx).run (startThreads (Node.init cfgs fresh), []) sched).2).Pairwise
      fun r r' => r.usedPrev = false → r'.usedPrev = false → r.key = r'.key → r.pkt ≠ r'.pkt) ∧
    (S.OneKey →
      (deliveries ((threads ctx).run (startThreads (Node.init cfgs fresh), []) sched).2).Pairwise
        fun r r' => r.usedPrev = false → r'.usedPrev = false → r.pkt ≠ r'.pkt) := by
  obtain ⟨is, hreceipts, hinstalls⟩ := (refines_run ctx (Node.init cfgs fresh) sched).accepted
  rw [KeysDistinct, ← hinstalls] at hkeys
  have hinv := deliveryInv_run ctx cfgs fresh is hkeys
  -- the order of the deliveries may be another one than that of the acceptances
  obtain ⟨l, hperm, hsub⟩ :=
    Multiset.coe_le.mp (delivered_of_accepted ctx (Node.init cfgs fresh) sched)
  rw [← hreceipts] at hsub
  refine ⟨(hperm.pairwise_iff ?_).mp (hinv.once.sublist hsub), fun hS =>
    (hperm.pairwise_iff ?_).mp ((hinv.once_of_oneKey hS).sublist hsub)⟩
  · intro r r' h h₁ h₂ hkey heq
    exact h h₂ h₁ hkey.symm heq.symm
  · intro r r' h h₁ h₂ heq
    exact h h₂ h₁ heq.symm

/-- Peer `2` connects. Two copies of its first packet reach the two workers; one delivers its copy
while the other one waits for `hot_lock`. -/
def copiesAtOnce : List (Thread Bool × Env symbolic) :=
  peer2Connects ++ receives false (addrOf 2) (dataOf (keyOf 2 1 12 100) 1 [7]) 110 ++
    receives true (addrOf 2) (dataOf (keyOf 2 1 12 100) 1 [7]) 110 ++
    [.worker false, .worker true, .worker false, .worker true].map (·, .go) ++
    List.replicate 7 (.worker false, .go) ++ [(.worker false, .sent true)]

theorem threads_deliver_once_copiesAtOnce :
    KeysDistinct ((threads (ctxOf 1)).run
      (startThreads (Node.init [peerOf 2, peerOf 3] (some 100)), []) copiesAtOnce).2 ∧
    (deliveries ((threads (ctxOf 1)).run
      (startThreads (Node.init [peerOf 2, peerOf 3] (some 100)), []) copiesAtOnce).2).map (·.time) =
        [110] ∧
    (deliveries ((threads (ctxOf 1)).run
      (startThreads (Node.init [peerOf 2, peerOf 3] (some 100)), []) copiesAtOnce).2).Pairwise
      fun r r' => r.usedPrev = false → r'.usedPrev = false → r.pkt ≠ r'.pkt := by
  have hkeys : KeysDistinct ((threads (ctxOf 1)).run
      (startThreads (Node.init [peerOf 2, peerOf 3] (some 100)), []) copiesAtOnce).2 := by
    decide +kernel
  exact ⟨hkeys, by decide +kernel, (threads_deliver_once (ctxOf 1) [peerOf 2, peerOf 3] (some 100)
    copiesAtOnce hkeys).2 symbolic_oneKey⟩

end Lanecove
