import Lanecove.Peer.Marks
import Lanecove.Threads.Readers

set_option autoImplicit false

/-! # The threads do what their branches do one after the other

Whatever the interleaving, when `table_lock` is free the tables are those that some branches would
have left behind, had each run in one go (`threads_serialisable`). The handshakes, the installed
sessions and the accepted packets come in the same order. So what is proved of the runs of `node`
about the tables and about these events holds of the threads.

While a thread writes it is alone, and its branch is compared with the branch in one go step by
step (`Point.Writes`); the outbound connects of a pass are the only ones it has in several pieces.
-/

namespace Lanecove

variable {S : Suite}

/-! ## The roles of the threads -/

/-- A worker stays a worker. -/
theorem ThreadStep.role {ctx : LoopCtx S} {p : Point S} {a : Act S} (h : ThreadStep ctx p a)
    (hp : p.isChore = false) : a.Leads fun q => q.isChore = false := by
  cases h with
  | signal => exact fun _ => hp
  | poll =>
      intro s
      dsimp only
      split_ifs <;> rfl
  | waitFailed | epollWait | handled | hangup | tun | udp => exact fun _ => rfl
  | housekeeper _ => cases hp
  | worker h =>
      cases h with
      | tunRdlock | dataRdlock | hsWrlock => rfl
      | hsUnlock | tunUnlock | rdUnlock => rfl
      | hotLock | fwdLock | sentLock => rfl
      | hotUnlockNone | hotUnlockSome | encryptFailed | fwdUnlock | sentUnlock => rfl
      | @tunRoute packet =>
          intro s
          dsimp only
          rcases routePacket_cases _ packet s.node with ⟨-, heq⟩ | ⟨i, -, heq⟩ <;> (rw [heq]; rfl)
      | @dataLookup d =>
          intro s
          dsimp only
          rcases lookupSource_cases _ d s.node with ⟨-, heq⟩ | ⟨i, -, heq⟩ <;> (rw [heq]; rfl)
      | @decryptCurrent i d =>
          intro s
          dsimp only
          rcases openCurrent_cases _ i d (s.node.table.sessions i) with
            ⟨-, heq⟩ | ⟨plain, -, heq⟩ <;> (rw [heq]; rfl)
      | @decryptPrev i d =>
          intro s
          dsimp only
          rcases openPrev_cases _ i d (s.node.table.sessions i) with
            ⟨-, heq⟩ | ⟨plain, -, -, heq⟩ <;> (rw [heq]; rfl)
      | @route r =>
          intro s
          dsimp only
          rcases routeReceipt_cases _ r s.node with ⟨-, heq⟩ | ⟨-, ⟨-, heq⟩ | ⟨f, -, heq⟩⟩ <;>
            (rw [heq]; rfl)
      | @encrypt _ _ _ iv =>
          intro s
          cases iv <;> rfl
      | _ => exact fun _ => rfl

/-! ## The writers -/

/-- The outbound connects of a pass before entry `idx`. -/
def connects (ctx : LoopCtx S) (pass : PassInput S) (n : Node S) (idx : Nat) :
    Node S × List (Event S) :=
  (Machine.mk (connectPeer ctx pass)).run ({ n with lastCheck := pass.now }, []) (List.range idx)

theorem connects_succ (ctx : LoopCtx S) (pass : PassInput S) (n : Node S) (idx : Nat) :
    connects ctx pass n (idx + 1) =
      ((connectPeer ctx pass (connects ctx pass n idx).1 idx).1,
        (connects ctx pass n idx).2 ++
          (connectPeer ctx pass (connects ctx pass n idx).1 idx).2) := by
  rw [connects, List.range_succ, Machine.run_append]
  rfl

theorem connects_length (ctx : LoopCtx S) (pass : PassInput S) (n : Node S) (idx : Nat) :
    (connects ctx pass n idx).1.peerConfigs.length = n.peerConfigs.length := by
  induction idx with
  | zero => rfl
  | succ idx ih =>
      have hquiet := connectPeer_quiet ctx (n := (connects ctx pass n idx).1) pass idx
      have hlen := congrArg List.length hquiet.configs
      rw [List.length_map, List.length_map] at hlen
      rw [connects_succ]
      exact hlen.trans ih

/-- What a pass reads for a later entry makes no difference to the earlier ones. -/
theorem connects_congr {ctx : LoopCtx S} {pass pass' : PassInput S} {n : Node S} {idx : Nat}
    (hnow : pass'.now = pass.now)
    (h : ∀ m, ∀ k < idx, connectPeer ctx pass' m k = connectPeer ctx pass m k) :
    connects ctx pass' n idx = connects ctx pass n idx := by
  rw [connects, connects, hnow]
  exact Machine.run_congr (fun m k hk => h m k (List.mem_range.mp hk)) _

/-- The loops after the connects add their events to the trace. -/
theorem finishPass_trace (ctx : LoopCtx S) (pass : PassInput S) (m : Node S)
    (tr : List (Event S)) :
    finishPass ctx pass (m, tr) =
      ((finishPass ctx pass (m, [])).1, tr ++ (finishPass ctx pass (m, [])).2) := by
  unfold finishPass
  dsimp only
  rw [Machine.run_trace _ m tr]
  obtain ⟨m₁, ev₁⟩ :=
    (Machine.mk (expirePending ctx pass.now)).run (m, []) (List.finRange MAX_PEERS)
  dsimp only
  rw [Machine.run_trace _ m₁ (tr ++ ev₁), Machine.run_trace _ m₁ ev₁]
  obtain ⟨m₂, ev₂⟩ :=
    (Machine.mk (expireSession ctx pass.now)).run (m₁, []) (List.finRange MAX_PEERS)
  dsimp only
  rw [Machine.run_trace _ m₂ (tr ++ ev₁ ++ ev₂), Machine.run_trace _ m₂ (ev₁ ++ ev₂),
    List.append_assoc, List.append_assoc, List.append_assoc]

theorem finishPass_congr {ctx : LoopCtx S} {pass pass' : PassInput S} (hnow : pass'.now = pass.now)
    (hiv : pass'.iv = pass.iv) (hok : pass'.sendOk = pass.sendOk)
    (hat : pass'.sentAt = pass.sentAt) (c : Node S × List (Event S)) :
    finishPass ctx pass' c = finishPass ctx pass c := by
  have hkeepalive : keepalive ctx pass' = keepalive ctx pass := by
    unfold keepalive
    rw [hnow, hiv, hok, hat]
  unfold finishPass
  rw [hnow, hkeepalive]

/-- The end of a pass is quiet and sends at most one packet on each session. -/
theorem finishPass_quiet (ctx : LoopCtx S) (pass : PassInput S) (n : Node S) :
    Quiet ctx (.housekeeping pass) 1 n (finishPass ctx pass (n, [])).2
      (finishPass ctx pass (n, [])).1 := by
  have h₁ := Quiet.run (B := fun _ => 0) (fun m j => expirePending_quiet ctx (n := m) pass.now j)
    (List.finRange MAX_PEERS) (c := (n, [])) (Quiet.refl ctx (.housekeeping pass) n)
  have h₂ := Quiet.run (B := fun _ => 0) (fun m i => expireSession_quiet ctx (n := m) pass.now i)
    (List.finRange MAX_PEERS) h₁
  have h₃ := Quiet.run (B := fun i => Pi.single i 1)
    (fun m i => keepalive_quiet ctx (n := m) pass i) (List.finRange MAX_PEERS) h₂
  refine h₃.mono fun i => ?_
  have hsum := Fin.sum_univ_def fun a : Fin MAX_PEERS => if i = a then 1 else 0
  simp [Pi.single_apply, ← hsum]

/-- A round that makes a pass: the outbound connects, then the rest. -/
theorem housekeeping_eq {ctx : LoopCtx S} (pass : PassInput S) {n : Node S}
    (hdue : 10 ≤ pass.now - n.lastCheck) :
    housekeeping ctx n pass =
      ((finishPass ctx pass ((connects ctx pass n n.peerConfigs.length).1, [])).1,
        (connects ctx pass n n.peerConfigs.length).2 ++
          (finishPass ctx pass ((connects ctx pass n n.peerConfigs.length).1, [])).2) := by
  have hround : housekeeping ctx n pass =
      finishPass ctx pass (connects ctx pass n n.peerConfigs.length) := if_pos hdue
  rw [hround]
  exact finishPass_trace ctx pass _ _

/-- A pass over the tables that some branches have left has come to entry `idx`. -/
def UnderWay (ctx : LoopCtx S) (n₀ : Node S) (now : Int) (idx : Nat) (m : Node S)
    (tr : List (Event S)) : Prop :=
  ∃ n₁ tr₁ pass, Serial ctx n₀ n₁ tr₁ ∧ pass.now = now ∧ 10 ≤ now - n₁.lastCheck ∧
    idx ≤ n₁.peerConfigs.length ∧ (connects ctx pass n₁ idx).1 = m ∧
    core tr = core (tr₁ ++ (connects ctx pass n₁ idx).2)

/-- The peer with index `idx` gets a handshake in this pass; `s` is its session. -/
def Chosen (ctx : LoopCtx S) (m : Node S) (now : Int) (idx : Nat) (s : Option (Fin MAX_PEERS)) :
    Prop :=
  idx < m.peerConfigs.length ∧ wantsHandshake ctx m now idx = true ∧
    findSessionByPub m.table (m.config idx).pub = s

/-- How far a writer has come. -/
def Point.Writes (ctx : LoopCtx S) (n₀ m : Node S) (tr : List (Event S)) : Point S → Prop
  | .housekeeper (.begin now) => Serial ctx n₀ m tr ∧ 10 ≤ now - m.lastCheck
  | .housekeeper (.connect now idx) => UnderWay ctx n₀ now idx m tr
  | .housekeeper (.resolve now idx s) => UnderWay ctx n₀ now idx m tr ∧ Chosen ctx m now idx s
  | .housekeeper (.initiate now idx s) => ∃ m₁ addr, UnderWay ctx n₀ now idx m₁ tr ∧
      Chosen ctx m₁ now idx s ∧ m = (writeEndpoint now idx s addr m₁).1
  | .housekeeper (.finish now) => UnderWay ctx n₀ now m.peerConfigs.length m tr
  | _ => Serial ctx n₀ m tr

section Passes

variable {ctx : LoopCtx S} {n₀ m : Node S} {now : Int} {idx : Nat} {tr : List (Event S)}

theorem UnderWay.length (h : UnderWay ctx n₀ now idx m tr) : idx ≤ m.peerConfigs.length := by
  obtain ⟨n₁, tr₁, pass, -, -, -, hidx, rfl, -⟩ := h
  rw [connects_length]
  exact hidx

/-- The pass starts. -/
theorem UnderWay.begin (h : Serial ctx n₀ m tr) (hdue : 10 ≤ now - m.lastCheck) :
    UnderWay ctx n₀ now 0 { m with lastCheck := now } tr :=
  ⟨m, tr, keepalivePass now (fun _ => none) (fun _ => false) fun _ => 0, h, rfl, hdue,
    Nat.zero_le _, rfl, by rw [show (connects ctx _ m 0).2 = [] from rfl, List.append_nil]⟩

theorem UnderWay.events {ev : List (Event S)} (h : UnderWay ctx n₀ now idx m tr)
    (hev : core ev = []) : UnderWay ctx n₀ now idx m (tr ++ ev) := by
  obtain ⟨n₁, tr₁, pass, hserial, hnow, hdue, hidx, hm, htr⟩ := h
  exact ⟨n₁, tr₁, pass, hserial, hnow, hdue, hidx, hm, by
    rw [core_append, hev, List.append_nil, htr]⟩

theorem Point.Writes.events {p : Point S} {ev : List (Event S)} (h : p.Writes ctx n₀ m tr)
    (hev : core ev = []) : p.Writes ctx n₀ m (tr ++ ev) := by
  cases p with
  | housekeeper chore =>
      cases chore with
      | begin now => exact ⟨Serial.events h.1 hev, h.2⟩
      | connect now idx => exact UnderWay.events h hev
      | resolve now idx s => exact ⟨UnderWay.events h.1 hev, h.2⟩
      | initiate now idx s =>
          obtain ⟨m₁, addr, hunder, hrest⟩ := h
          exact ⟨m₁, addr, hunder.events hev, hrest⟩
      | finish now => exact UnderWay.events h hev
      | _ => exact Serial.events h hev
  | _ => exact Serial.events h hev

/-- Nothing is done about a peer that needs no handshake. -/
theorem UnderWay.skip (h : UnderWay ctx n₀ now idx m tr) (hidx : idx < m.peerConfigs.length)
    (hwants : wantsHandshake ctx m now idx = false) : UnderWay ctx n₀ now (idx + 1) m tr := by
  obtain ⟨n₁, tr₁, pass, hserial, rfl, hdue, -, rfl, htr⟩ := h
  rw [connects_length] at hidx
  have hstep : connectPeer ctx pass (connects ctx pass n₁ idx).1 idx =
      ((connects ctx pass n₁ idx).1, []) := by
    unfold connectPeer
    dsimp only
    rw [if_neg]
    intro hcond
    rw [wantsHandshake, hcond] at hwants
    cases hwants
  refine ⟨n₁, tr₁, pass, hserial, rfl, hdue, hidx, ?_, ?_⟩
  · rw [connects_succ, hstep]
  · rw [connects_succ, hstep, List.append_nil]
    exact htr

/-- What a pass reads about the peer with index `idx`. -/
def PassInput.reading (pass : PassInput S) (idx : Nat) (addr : Option SockAddr)
    (clock sentAt : Int) (fresh : Option S.Priv) (sendOk : Bool) : PassInput S :=
  { pass with
    getaddrinfo := Function.update pass.getaddrinfo idx fun _ _ => addr
    clock := Function.update pass.clock idx clock
    initSentAt := Function.update pass.initSentAt idx sentAt
    fresh := Function.update pass.fresh idx fresh
    initOk := Function.update pass.initOk idx sendOk }

theorem connectPeer_reading_ne (pass : PassInput S) {k : Nat} (hk : k ≠ idx)
    (addr : Option SockAddr) (clock sentAt : Int) (fresh : Option S.Priv) (sendOk : Bool)
    (m : Node S) :
    connectPeer ctx (pass.reading idx addr clock sentAt fresh sendOk) m k =
      connectPeer ctx pass m k := by
  unfold connectPeer PassInput.reading
  dsimp only
  rw [Function.update_of_ne hk, Function.update_of_ne hk, Function.update_of_ne hk,
    Function.update_of_ne hk, Function.update_of_ne hk]

/-- The body of the loop in one go, for a peer that gets a handshake. -/
theorem connectPeer_of_chosen {s : Option (Fin MAX_PEERS)} {pass : PassInput S}
    (h : Chosen ctx m pass.now idx s) (addr : Option SockAddr) (clock sentAt : Int)
    (fresh : Option S.Priv) (sendOk : Bool) :
    connectPeer ctx (pass.reading idx addr clock sentAt fresh sendOk) m idx =
      ((initiateNext ctx pass.now idx s clock sentAt fresh sendOk
          (writeEndpoint pass.now idx s addr m).1).1,
        (initiateNext ctx pass.now idx s clock sentAt fresh sendOk
          (writeEndpoint pass.now idx s addr m).1).2.1) := by
  obtain ⟨-, hwants, rfl⟩ := h
  unfold wantsHandshake at hwants
  unfold connectPeer PassInput.reading initiateNext writeEndpoint
  dsimp only
  rw [Function.update_self, Function.update_self, Function.update_self, Function.update_self,
    Function.update_self, if_pos hwants]
  generalize initiateOutboundHandshake ctx (setRekeying (m.setConfig idx
    (resolveEndpoint (fun _ _ => addr) (m.config idx))) true
    (findSessionByPub m.table (m.config idx).pub)) idx clock sentAt fresh sendOk = r
  obtain ⟨n', ok, ev⟩ := r
  cases ok <;> rfl

/-- The handshake of a peer is started. -/
theorem UnderWay.connect {s : Option (Fin MAX_PEERS)} (h : UnderWay ctx n₀ now idx m tr)
    (hs : Chosen ctx m now idx s) (addr : Option SockAddr) (clock sentAt : Int)
    (fresh : Option S.Priv) (sendOk : Bool) :
    UnderWay ctx n₀ now (idx + 1)
      (initiateNext ctx now idx s clock sentAt fresh sendOk (writeEndpoint now idx s addr m).1).1
      (tr ++ (initiateNext ctx now idx s clock sentAt fresh sendOk
        (writeEndpoint now idx s addr m).1).2.1) := by
  obtain ⟨n₁, tr₁, pass, hserial, rfl, hdue, -, rfl, htr⟩ := h
  have hidx := hs.1
  rw [connects_length] at hidx
  -- the pass reads for this entry what the thread has read
  have hsame : connects ctx (pass.reading idx addr clock sentAt fresh sendOk) n₁ idx =
      connects ctx pass n₁ idx :=
    connects_congr rfl fun m k hk => connectPeer_reading_ne pass (Nat.ne_of_lt hk) ..
  have hstep := connectPeer_of_chosen hs addr clock sentAt fresh sendOk
  refine ⟨n₁, tr₁, pass.reading idx addr clock sentAt fresh sendOk, hserial, rfl, hdue, hidx,
    ?_, ?_⟩
  · rw [connects_succ, hsame, hstep]
  · rw [connects_succ, hsame, hstep, core_append, htr, ← core_append, List.append_assoc]

/-- The pass comes to its end. -/
theorem UnderWay.finish (h : UnderWay ctx n₀ now m.peerConfigs.length m tr)
    (iv : Fin MAX_PEERS → Option S.Iv) (sendOk : Fin MAX_PEERS → Bool)
    (sentAt : Fin MAX_PEERS → Int) :
    Serial ctx n₀ (finishNext ctx (keepalivePass now iv sendOk sentAt) m).1
      (tr ++ (finishNext ctx (keepalivePass now iv sendOk sentAt) m).2.1) := by
  obtain ⟨n₁, tr₁, pass, hserial, rfl, hdue, hidx, hm, htr⟩ := h
  have hlen : m.peerConfigs.length = n₁.peerConfigs.length := by
    rw [← hm, connects_length]
  rw [hlen] at hm htr
  -- the pass reads for the keepalives what the thread has read
  obtain ⟨pass', hpass'⟩ :
      ∃ pass', pass' = { pass with iv := iv, sendOk := sendOk, sentAt := sentAt } := ⟨_, rfl⟩
  have hconnects : connects ctx pass' n₁ n₁.peerConfigs.length =
      connects ctx pass n₁ n₁.peerConfigs.length := by
    subst hpass'
    exact connects_congr rfl fun m k _ => by
      unfold connectPeer
      dsimp only
  have hfinish : finishPass ctx pass' (m, []) =
      finishPass ctx (keepalivePass pass.now iv sendOk sentAt) (m, []) := by
    subst hpass'
    exact finishPass_congr rfl rfl rfl rfl _
  have hstep : (node ctx).step n₁ (.housekeeping pass') =
      ((finishNext ctx (keepalivePass pass.now iv sendOk sentAt) m).1,
        (connects ctx pass n₁ n₁.peerConfigs.length).2 ++
          (finishNext ctx (keepalivePass pass.now iv sendOk sentAt) m).2.1) := by
    show housekeeping ctx n₁ pass' = _
    rw [housekeeping_eq pass' (by subst hpass'; exact hdue), hconnects, hm, hfinish]
    unfold finishNext
    dsimp only
  generalize finishNext ctx (keepalivePass pass.now iv sendOk sentAt) m = q at hstep ⊢
  have hnext := hserial.next (.housekeeping pass')
    ((connects ctx pass n₁ n₁.peerConfigs.length).2 ++ q.2.1) (by rw [hstep])
  rw [hstep] at hnext
  obtain ⟨is, hnode, hcore⟩ := hnext
  refine ⟨is, hnode, hcore.trans ?_⟩
  rw [core_append, core_append, core_append, htr, core_append, List.append_assoc]

end Passes

/-! ## From readers to writers and back -/

variable {W : Type} [DecidableEq W]

section Turns

variable {ctx : LoopCtx S} {n₀ : Node S} {c : Threads S W} {tr : List (Event S)}

omit [DecidableEq W] in
/-- Nobody holds `hot_lock` outside `table_lock`. -/
theorem no_owner_of_free (hc : c.Consistent Point.held)
    (hfree : ∀ t, (c.place t).held.mode = .free) (i : Fin MAX_PEERS) : c.owner i = none := by
  cases ho : c.owner i with
  | none => rfl
  | some t =>
      have hread := Point.read_of_mutex _ (((hc.holds t).owner i).mp ho)
      rw [hfree t] at hread
      cases hread

omit [DecidableEq W] in
/-- The tables after the branches so far are the tables, when nothing is under way. -/
theorem Ghost.node_of_idle {g : Ghost S W} {m : Node S} (hbase : ∀ i, m.table.sessions i = g.base i)
    (hdebt : ∀ i, g.debt i = ∅) : g.node m (fun i => (g.base i).lastSent) = m := by
  have hsessions : g.session (fun i => (g.base i).lastSent) = m.table.sessions := by
    funext i
    have howed : g.owed i = 0 := by rw [Ghost.owed, hdebt]; rfl
    rw [Ghost.session, howed, show (g.base i).sendSeq + 0 = (g.base i).sendSeq from
      BitVec.add_zero _, hbase]
    rfl
  rw [Ghost.node, hsessions]

omit [DecidableEq W] in
/-- When `table_lock` is free, the tables are those after some branches. -/
theorem Reads.quiescent (h : Reads ctx n₀ c tr) (hc : c.Consistent Point.held)
    (hfree : ∀ t, (c.place t).held.mode = .free) : Serial ctx n₀ c.shared.node tr := by
  obtain ⟨g, hg, hb⟩ := h
  have hdebt : ∀ i, g.debt i = ∅ := by
    intro i
    refine Finset.eq_empty_of_forall_notMem fun t ht => ?_
    have howes := (hg.owes i t).mp ht
    rw [Point.owes_outside (hfree t)] at howes
    cases howes
  have hserial := hb (fun i => (g.base i).lastSent) fun _ _ => rfl
  rw [Ghost.node_of_idle (fun i => hg.idle i (no_owner_of_free hc hfree i)) hdebt]
    at hserial
  exact hserial

omit [DecidableEq W] in
/-- A writer has given `table_lock` back. -/
theorem Reads.start (h : Serial ctx n₀ c.shared.node tr) (hc : c.Consistent Point.held)
    (hfree : ∀ t, (c.place t).held.mode = .free)
    (hknows : ∀ t, (c.place t).Knows ctx c.shared.node.cold ∅) : Reads ctx n₀ c tr := by
  have howner := no_owner_of_free hc hfree
  refine ⟨⟨c.shared.node.table.sessions, fun _ => ∅, ∅⟩,
    ⟨fun _ _ => rfl, fun i t ho => ?_, fun i t => ?_, hknows⟩, fun stamp hstamp => ?_⟩
  · rw [howner i] at ho
    cases ho
  · refine iff_of_false (Finset.notMem_empty t) ?_
    rw [Point.owes_outside (hfree t)]
    intro heq
    cases heq
  · obtain rfl : stamp = fun i => (c.shared.node.table.sessions i).lastSent :=
      funext fun i => hstamp i (Set.notMem_empty i)
    rw [Ghost.node_of_idle (fun _ => rfl) fun _ => rfl]
    exact h

end Turns

/-! ## Steps of the writer -/

/-- The handshake branch, for a datagram that has the size and the magic of a handshake. -/
theorem Serial.handshake {ctx : LoopCtx S} {n₀ m : Node S} {tr : List (Event S)}
    (h : Serial ctx n₀ m tr) {d : Incoming S} (hd : isHandshake ctx d.pkt = true)
    (todo : List Source) (clock : Int) (fresh : Option S.Priv) (sendOk : Bool) :
    Serial ctx n₀ (handleHandshake ctx todo d clock fresh sendOk m).1
      (tr ++ (handleHandshake ctx todo d clock fresh sendOk m).2.1) := by
  have hstep : (node ctx).step m (.udp ⟨d.src, d.pkt, d.now, clock, fresh, sendOk, none⟩) =
      handshakePkt ctx m ⟨d.src, d.pkt, d.now, clock, fresh, sendOk, none⟩ :=
    udpPacket_of_handshake hd m
  have hnext := h.next (.udp ⟨d.src, d.pkt, d.now, clock, fresh, sendOk, none⟩)
    (handshakePkt ctx m ⟨d.src, d.pkt, d.now, clock, fresh, sendOk, none⟩).2 (by rw [hstep])
  rw [hstep] at hnext
  exact hnext

/-- How the tables and the threads stand to the branches so far. -/
structure Refines (ctx : LoopCtx S) (n₀ : Node S) (c : Threads S W) (tr : List (Event S)) :
    Prop where
  consistent : c.Consistent Point.held
  roles : ∀ w, (c.place (.worker w)).isChore = false
  reading : c.writer = none → Reads ctx n₀ c tr
  writing : ∀ t, c.writer = some t → (∀ u, (c.place u).Knows ctx c.shared.node.cold ∅) ∧
    (c.place t).Writes ctx n₀ c.shared.node tr

section Writers

variable {ctx : LoopCtx S} {n₀ : Node S} {c c' : Threads S W} {t : Thread W}
  {tr ev : List (Event S)} {a : Act S}

omit [DecidableEq W] in
/-- Besides a thread at a chore there are only workers. -/
theorem Refines.others (h : Refines ctx n₀ c tr) (ht : (c.place t).isChore = true) {u : Thread W}
    (hu : u ≠ t) : (c.place u).isChore = false := by
  cases u with
  | worker w => exact h.roles w
  | housekeeping =>
      cases t with
      | housekeeping => exact absurd rfl hu
      | worker w =>
          rw [h.roles w] at ht
          cases ht

/-- What every step keeps. -/
theorem Refines.of_step (h : Refines ctx n₀ c tr) (ha : ThreadStep ctx (c.place t) a)
    (hp : Pool.Performed c t a c' ev) (hreading : c'.writer = none → Reads ctx n₀ c' (tr ++ ev))
    (hwriting : ∀ u, c'.writer = some u → (∀ v, (c'.place v).Knows ctx c'.shared.node.cold ∅) ∧
      (c'.place u).Writes ctx n₀ c'.shared.node (tr ++ ev)) : Refines ctx n₀ c' (tr ++ ev) where
  consistent := hp.consistent h.consistent ha.fits
  roles w := by
    by_cases ht : .worker w = t
    · subst ht
      exact hp.leads (ha.role (h.roles w))
    · rw [hp.place_ne ht]
      exact h.roles w
  reading := hreading
  writing := hwriting

/-- The writer stays the writer, with what the step has done to the tables. -/
theorem Refines.write (h : Refines ctx n₀ c tr) (hw : c.writer = some t) {p : Point S}
    (hat : c.place t = p) (hstep : ThreadStep ctx p a) (hp : Pool.Performed c t a c' ev)
    {f : Node S → Node S × List (Event S) × Point S} {m : Node S} {ev₀ : List (Event S)}
    {q : Point S} (ha : a = onNode f ∨ a = onNodeLocking f) (hf : f c.shared.node = (m, ev₀, q))
    (hlast : p.isChore = false → m.lastCheck = c.shared.node.lastCheck)
    (hknows : q.Knows ctx m.cold ∅) (hwrites : q.Writes ctx n₀ m (tr ++ ev₀)) :
    Refines ctx n₀ c' (tr ++ ev) := by
  subst hat
  have hmode : (c.place t).held.mode = .write := (h.consistent.holds t).writer.mp hw
  have hperformed : c'.writer = c.writer ∧ c'.shared.node = (f c.shared.node).1 ∧
      c'.place t = (f c.shared.node).2.2 ∧ ev = (f c.shared.node).2.1 := by
    rcases ha with rfl | rfl
    · unfold onNode at hp
      cases hp
      exact ⟨rfl, rfl, Pool.goto_self .., rfl⟩
    · unfold onNodeLocking at hp
      cases hp
      exact ⟨rfl, rfl, Pool.goto_self .., rfl⟩
  rw [hf, hw] at hperformed
  obtain ⟨hwriter, hnode, hplace, rfl⟩ := hperformed
  refine h.of_step hstep hp (fun hnone => ?_) fun v hv => ⟨fun u => ?_, ?_⟩
  · rw [hwriter] at hnone
    cases hnone
  · by_cases hu : u = t
    · rw [hu, hplace, hnode]
      exact hknows
    · rw [hp.place_ne hu, hnode]
      refine ((h.writing t hw).1 u).outside (h.consistent.exclusive hmode hu) fun hchore => ?_
      refine hlast ?_
      cases ht : (c.place t).isChore with
      | false => rfl
      | true =>
          rw [h.others ht hu] at hchore
          cases hchore
  · obtain rfl : t = v := Option.some.inj (hwriter.symm.trans hv)
    rw [hplace, hnode]
    exact hwrites

/-- The writer gives `table_lock` back. -/
theorem Refines.unlock (h : Refines ctx n₀ c tr) (hw : c.writer = some t) {p q : Point S}
    (hat : c.place t = p) (ha : ThreadStep ctx p (.rwunlock q))
    (hp : Pool.Performed c t (.rwunlock q) c' ev) (hserial : Serial ctx n₀ c.shared.node tr)
    (hq : q.Knows ctx c.shared.node.cold ∅) : Refines ctx n₀ c' (tr ++ ev) := by
  subst hat
  have hmode : (c.place t).held.mode = .write := (h.consistent.holds t).writer.mp hw
  have hc := hp.consistent h.consistent ha.fits
  have hnode : c'.shared.node = c.shared.node ∧ c'.writer = none ∧ c'.place t = q ∧ ev = [] := by
    cases hp
    exact ⟨rfl, by rw [Pool.goto_writer]; exact if_pos hw, Pool.goto_self .., rfl⟩
  obtain ⟨hnode, hwriter, hplace, rfl⟩ := hnode
  have hfree : ∀ u, (c'.place u).held.mode = .free := by
    intro u
    by_cases hu : u = t
    · rw [hu, hplace, ha.fits.2.2]
    · rw [hp.place_ne hu]
      exact h.consistent.exclusive hmode hu
  refine h.of_step ha hp (fun _ => ?_) fun u hu => ?_
  · rw [List.append_nil]
    refine Reads.start (by rw [hnode]; exact hserial) hc hfree fun u => ?_
    rw [hnode]
    by_cases hu : u = t
    · rw [hu, hplace]
      exact hq
    · rw [hp.place_ne hu]
      exact (h.writing t hw).1 u
  · rw [hwriter] at hu
    cases hu

/-- The signal handler runs. -/
theorem Refines.undisturbed (h : Refines ctx n₀ c tr) {sig : Signal}
    (hp : Pool.Performed c t (.work [] fun s => (handleSignal sig s, [], c.place t)) c' ev) :
    Refines ctx n₀ c' (tr ++ ev) := by
  have ha : ThreadStep ctx (c.place t) (.work [] fun s => (handleSignal sig s, [], c.place t)) :=
    .signal
  have hsame : c'.shared.node = c.shared.node ∧ c'.owner = c.owner ∧ c'.writer = c.writer ∧
      c'.place = c.place ∧ ev = [] := by
    cases hp
    refine ⟨?_, rfl, rfl, Function.update_eq_self .., rfl⟩
    show (handleSignal sig c.shared).node = c.shared.node
    unfold handleSignal
    split_ifs <;> rfl
  obtain ⟨hnode, howner, hwriter, hplace, rfl⟩ := hsame
  refine h.of_step ha hp (fun hw => ?_) fun u hu => ?_
  · rw [List.append_nil]
    exact (h.reading (hwriter.symm.trans hw)).undisturbed hnode howner hplace
  · rw [List.append_nil, hnode, hplace]
    exact h.writing u (hwriter.symm.trans hu)

/-- A step of the thread that holds `table_lock` for writing. -/
theorem Refines.writer (h : Refines ctx n₀ c tr) (hw : c.writer = some t)
    (ha : ThreadStep ctx (c.place t) a) (hp : Pool.Performed c t a c' ev) :
    Refines ctx n₀ c' (tr ++ ev) := by
  have hmode : (c.place t).held.mode = .write := (h.consistent.holds t).writer.mp hw
  obtain ⟨hknows, hwrites⟩ := h.writing t hw
  have hmine := hknows t
  generalize hat : c.place t = p at ha hmode hwrites hmine
  have hstep := ha
  cases ha with
  | signal =>
      subst hat
      exact h.undisturbed hp
  | @worker todo job _ ha' =>
      cases ha' with
      | hsHandle =>
          exact h.write hw hat hstep hp (.inr rfl) rfl (fun _ => (handshakePkt_fixed ..).1) trivial
            (Serial.handshake hwrites hmine todo ..)
      | hsUnlock => exact h.unlock hw hat hstep hp hwrites trivial
      | _ => cases hmode
  | housekeeper ha' =>
      -- only this thread writes `last_check`
      have hrole : ∀ {chore : Chore} {P : Prop}, (Point.housekeeper chore : Point S).isChore =
          false → P := fun hfalse => by cases hfalse
      cases ha' with
      | begin =>
          refine h.write hw hat hstep hp (.inl rfl) rfl hrole trivial ?_
          rw [List.append_nil]
          exact UnderWay.begin hwrites.1 hwrites.2
      | @connect now idx =>
          rcases connectNext_cases ctx now idx c.shared.node with
            ⟨hidx, hwants, heq⟩ | ⟨hidx, hwants, heq⟩ | ⟨hidx, heq⟩ <;>
            refine h.write hw hat hstep hp (.inl rfl) heq hrole trivial ?_ <;>
            rw [List.append_nil]
          · exact ⟨hwrites, hidx, hwants, rfl⟩
          · exact UnderWay.skip hwrites hidx hwants
          · obtain rfl : idx = c.shared.node.peerConfigs.length :=
              Nat.le_antisymm (UnderWay.length hwrites) hidx
            exact hwrites
      | @resolve now idx s addr =>
          refine h.write hw hat hstep hp (.inl rfl) rfl hrole trivial ?_
          rw [List.append_nil]
          exact ⟨c.shared.node, addr, hwrites.1, hwrites.2, rfl⟩
      | @initiate now idx s clock sentAt fresh sendOk =>
          obtain ⟨m₁, addr, hunder, hchosen, hnode⟩ := hwrites
          have hconnect := hunder.connect hchosen addr clock sentAt fresh sendOk
          rw [← hnode] at hconnect
          obtain ⟨n', -, heq⟩ :=
            initiateNext_cases ctx now idx s clock sentAt fresh sendOk c.shared.node
          rw [heq] at hconnect
          exact h.write hw hat hstep hp (.inl rfl) heq hrole trivial hconnect
      | @finish now iv sendOk sentAt =>
          have hdone := UnderWay.finish hwrites iv sendOk sentAt
          have heq : finishNext ctx (keepalivePass now iv sendOk sentAt) c.shared.node =
              (_, _, .housekeeper .passUnlock) := rfl
          rw [heq] at hdone
          dsimp only at hdone
          exact h.write hw hat hstep hp (.inr rfl) heq hrole trivial hdone
      | passUnlock => exact h.unlock hw hat hstep hp hwrites trivial
      | _ => cases hmode
  | _ => cases hmode

/-- A step while another thread writes. -/
theorem Refines.beside (h : Refines ctx n₀ c tr) {u : Thread W} (hw : c.writer = some u)
    (hut : t ≠ u) (ha : ThreadStep ctx (c.place t) a) (hp : Pool.Performed c t a c' ev) :
    Refines ctx n₀ c' (tr ++ ev) := by
  have hmode : (c.place u).held.mode = .write := (h.consistent.holds u).writer.mp hw
  have hfree := h.consistent.exclusive hmode hut
  rcases ha.outside hfree with ⟨q, rfl⟩ | ⟨q, rfl⟩ | ⟨f, rfl, hf⟩
  · cases hp with
    | rdlock hnone =>
        rw [hw] at hnone
        cases hnone
  · cases hp with
    | wrlock hnone _ =>
        rw [hw] at hnone
        cases hnone
  · obtain ⟨hnode, hev⟩ := hf c.shared
    obtain ⟨hknows, hwrites⟩ := h.writing u hw
    have hself := ha.knows_aside hfree c.shared (hknows t) ∅
    have hsame : c'.shared.node = c.shared.node ∧ c'.writer = c.writer ∧
        c'.place t = (f c.shared).2.2 ∧ core ev = [] := by
      cases hp
      exact ⟨hnode, rfl, Pool.goto_self .., core_of_delivered hev⟩
    obtain ⟨hnode', hwriter, hplace, hcore⟩ := hsame
    refine h.of_step ha hp (fun hnone => ?_) fun v hv => ⟨fun x => ?_, ?_⟩
    · rw [hwriter, hw] at hnone
      cases hnone
    · rw [hnode']
      by_cases hx : x = t
      · rw [hx, hplace]
        exact hself
      · rw [hp.place_ne hx]
        exact hknows x
    · obtain rfl : u = v := Option.some.inj (hw.symm.trans (hwriter.symm.trans hv))
      rw [hnode', hp.place_ne hut.symm]
      exact Point.Writes.events hwrites hcore

/-- What a thread knows when it has got `table_lock` for reading. -/
theorem ThreadStep.knows_rdlock {p q : Point S} (h : ThreadStep ctx p (.rdlock q)) {m : Node S}
    {touched : Set (Fin MAX_PEERS)} (hknows : p.Knows ctx m touched) :
    q.Knows ctx m touched ∧ (∀ tb, q.owes tb = none) ∧ ∀ s, q.Half s s := by
  cases h with
  | worker h => cases h <;> exact ⟨hknows, fun _ => rfl, fun _ => rfl⟩
  | housekeeper h =>
      cases h
      exact ⟨trivial, fun _ => rfl, fun _ => rfl⟩

/-- Where a thread is when it has got `table_lock` for writing. -/
theorem ThreadStep.writes_wrlock {p q : Point S} (h : ThreadStep ctx p (.wrlock q)) {m : Node S}
    {touched : Set (Fin MAX_PEERS)} (hknows : p.Knows ctx m.cold touched)
    (hserial : Serial ctx n₀ m tr) : q.Knows ctx m.cold ∅ ∧ q.Writes ctx n₀ m tr := by
  cases h with
  | worker h =>
      cases h
      exact ⟨hknows, hserial⟩
  | housekeeper h =>
      cases h
      exact ⟨trivial, hserial, hknows⟩

/-- A thread takes `table_lock` for writing. -/
theorem Refines.wrlock (h : Refines ctx n₀ c tr) (hw : c.writer = none) {q : Point S}
    (ha : ThreadStep ctx (c.place t) (.wrlock q))
    (hp : Pool.Performed c t (.wrlock q) c' ev) : Refines ctx n₀ c' (tr ++ ev) := by
  have hsame : c.readers = ∅ ∧ c'.shared.node = c.shared.node ∧ c'.writer = some t ∧
      c'.place t = q ∧ ev = [] := by
    cases hp with
    | wrlock _ hr => exact ⟨hr, rfl, rfl, Pool.goto_self .., rfl⟩
  obtain ⟨hreaders, hnode, hwriter, hplace, rfl⟩ := hsame
  have hfree := fun u => h.consistent.outside hreaders hw u
  have hreads := h.reading hw
  have hserial := hreads.quiescent h.consistent hfree
  obtain ⟨g, hg, -⟩ := hreads
  obtain ⟨hknows, hwrites⟩ := ha.writes_wrlock (hg.knows t) hserial
  refine h.of_step ha hp (fun hnone => ?_) fun u hu => ⟨fun v => ?_, ?_⟩
  · rw [hwriter] at hnone
    cases hnone
  · rw [hnode]
    by_cases hv : v = t
    · rw [hv, hplace]
      exact hknows
    · rw [hp.place_ne hv]
      exact (hg.knows v).outside (hfree v) fun _ => rfl
  · obtain rfl : t = u := Option.some.inj (hwriter.symm.trans hu)
    rw [hnode, hplace, List.append_nil]
    exact hwrites

/-- A step while nobody writes. -/
theorem Refines.reader (h : Refines ctx n₀ c tr) (hw : c.writer = none)
    (ha : ThreadStep ctx (c.place t) a) (hp : Pool.Performed c t a c' ev) :
    Refines ctx n₀ c' (tr ++ ev) := by
  have hreads := h.reading hw
  have hstay : (∀ q, a ≠ .wrlock q) → Reads ctx n₀ c' (tr ++ ev) →
      Refines ctx n₀ c' (tr ++ ev) := by
    intro hne hreads'
    have hwriter : c'.writer = none := by
      cases hp with
      | wrlock _ _ => exact absurd rfl (hne _)
      | rwunlock =>
          rw [Pool.goto_writer, hw]
          rfl
      | _ => exact hw
    refine h.of_step ha hp (fun _ => hreads') fun u hu => ?_
    rw [hwriter] at hu
    cases hu
  cases hmode : (c.place t).held.mode with
  | write =>
      have hwriter := (h.consistent.holds t).writer.mpr hmode
      rw [hw] at hwriter
      cases hwriter
  | free =>
      rcases ha.outside hmode with ⟨q, rfl⟩ | ⟨q, rfl⟩ | haside
      · obtain ⟨g, hg, -⟩ := h.reading hw
        obtain ⟨-, howes, hafter⟩ := ha.knows_rdlock (hg.knows t)
        refine hstay (fun _ heq => by cases heq) (hreads.locking h.consistent rfl hp (.inl rfl)
          ha.fits (fun s s' => (Point.half_outside hmode s s').mp) hafter
          (fun touched hk => (ha.knows_rdlock hk).1) ?_)
        rw [howes, Point.owes_outside hmode]
      · exact h.wrlock hw ha hp
      · refine hstay (fun q heq => ?_) (hreads.aside ha hmode haside hp)
        obtain ⟨f, hf, -⟩ := haside
        rw [hf] at heq
        cases heq
  | read =>
      have hne : ∀ q, a ≠ .wrlock q := by
        rintro q rfl
        have hheld := ha.fits.1
        rw [hheld] at hmode
        cases hmode
      cases hplace : c.place t with
      | worker todo job =>
          rw [hplace] at ha hmode
          cases ha with
          | signal =>
              rw [← hplace] at hp
              exact h.undisturbed hp
          | worker ha' => exact hstay hne (hreads.job h.consistent hplace hmode ha' hp)
      | housekeeper chore =>
          rw [hplace] at ha hmode
          cases ha with
          | signal =>
              rw [← hplace] at hp
              exact h.undisturbed hp
          | housekeeper ha' => exact hstay hne (hreads.chore h.consistent hplace hmode ha' hp)
      | _ =>
          rw [hplace] at hmode
          cases hmode

/-- **Every step of the threads keeps to the branches.** -/
theorem Refines.step (h : Refines ctx n₀ c tr) (x : Thread W × Env S) :
    Refines ctx n₀ ((threads ctx).step c x).1 (tr ++ ((threads ctx).step c x).2) := by
  rcases Pool.step_cases (action ctx) c x.1 x.2 with ⟨a, c', ev, ha, hp, heq⟩ | heq
  · rw [show (threads ctx).step c x = (c', ev) from heq]
    cases hw : c.writer with
    | none => exact h.reader hw (action_cases ha) hp
    | some u =>
        by_cases hu : x.1 = u
        · exact h.writer (hu ▸ hw) (action_cases ha) hp
        · exact h.beside hw hu (action_cases ha) hp
  · rw [show (threads ctx).step c x = (c, []) from heq, List.append_nil]
    exact h

end Writers

/-! ## Runs -/

theorem refines_start (ctx : LoopCtx S) (n : Node S) :
    Refines ctx n (startThreads n : Threads S W) [] where
  consistent := consistent_threads ctx n []
  roles _ := rfl
  reading _ := by
    refine Reads.start (Serial.init ctx n) (consistent_threads ctx n []) (fun t => ?_) fun t => ?_
    · cases t <;> rfl
    · cases t <;> trivial
  writing _ hw := by cases hw

theorem refines_run (ctx : LoopCtx S) (n : Node S) (sched : List (Thread W × Env S)) :
    Refines ctx n ((threads ctx).run (startThreads n, []) sched).1
      ((threads ctx).run (startThreads n, []) sched).2 :=
  (threads ctx).invariant_all (I := fun c => Refines ctx n c.1 c.2) (fun _ x h => h.step x) sched _
    (refines_start ctx n)

/-- **The threads are serialisable.** Whatever the interleaving, when `table_lock` is free the
tables are those that some branches would have left, each run in one go and one after the other.
The handshakes, the sessions installed and the packets accepted are the same, in the same order. -/
theorem threads_serialisable (ctx : LoopCtx S) (n : Node S) (sched : List (Thread W × Env S))
    (hr : ((threads ctx).run (startThreads n, []) sched).1.readers = ∅)
    (hw : ((threads ctx).run (startThreads n, []) sched).1.writer = none) :
    ∃ is, ((node ctx).run (n, []) is).1 =
        ((threads ctx).run (startThreads n, []) sched).1.shared.node ∧
      core ((node ctx).run (n, []) is).2 =
        core ((threads ctx).run (startThreads n, []) sched).2 := by
  have h := refines_run ctx n sched
  exact (h.reading hw).quiescent h.consistent fun t => h.consistent.outside hr hw t

/-- One worker forwards a packet, and before it draws its sequence number the other one gets a
datagram that neither key of the session opens. -/
def overtakingRun : List (Thread Bool × Env symbolic) :=
  tunArrival ++ udpArrival (dataOf (Msg.pub 7) 1 [7]) ++ List.replicate 3 (.worker true, .go) ++
    [.go, .iv (some []), .go, .go, .sent true, .go, .time 200, .go, .go].map (.worker false, ·) ++
    List.replicate 6 (.worker true, .go)

set_option maxRecDepth 4096 in
theorem threads_serialisable_overtakingRun :
    ((threads (ctxOf 1)).run (startThreads routedNode, []) overtakingRun).1.readers = ∅ ∧
    (sendings ((threads (ctxOf 1)).run (startThreads routedNode, []) overtakingRun).2).length = 1 ∧
    ∃ is, ((node (ctxOf 1)).run (routedNode, []) is).1 =
        ((threads (ctxOf 1)).run (startThreads routedNode, []) overtakingRun).1.shared.node ∧
      core ((node (ctxOf 1)).run (routedNode, []) is).2 =
        core ((threads (ctxOf 1)).run (startThreads routedNode, []) overtakingRun).2 :=
  ⟨by decide +kernel, by decide +kernel,
    threads_serialisable (ctxOf 1) routedNode overtakingRun (by decide +kernel)
      (by decide +kernel)⟩

end Lanecove
