import Lanecove.Basic.Threads
import Lanecove.Peer.Housekeeping

set_option autoImplicit false

/-! # The threads of a node

`worker_loop`, `forward_to_peer` and `housekeeping_loop` of `src/peer.c` at the level of their
locks and of their single accesses to the shared tables. A place of a thread is a line of the
source with the local variables that are still needed; between two places there is one lock
operation, one access, or one call of the operating system. The worker threads and the
housekeeping thread run in any interleaving (`threads`).

Under `table_lock` held for reading, several workers are inside at once, and only `hot_lock`
keeps them apart. Under `table_lock` held for writing a thread is alone; what the handshake branch
does there is one step, and so is a pass after its last outbound connect. The outbound connects
are taken apart, since the thread waits for the resolver between them.
-/

namespace Lanecove

variable {S : Suite}

/-! ## The process -/

/-- The globals of the process: the tables, and the two flags of the signal handler. -/
structure Process (S : Suite) where
  node : Node S
  stopFlag : Bool
  printSessionsFlag : Bool

inductive Signal where
  | term
  | int
  | usr1
  deriving DecidableEq

/-- `handle_signal`. -/
def handleSignal (sig : Signal) (s : Process S) : Process S :=
  if sig = .usr1 then { s with printSessionsFlag := true } else { s with stopFlag := true }

/-- A file descriptor a worker waits for. -/
inductive Source where
  | tun
  | udp
  deriving DecidableEq

/-- What the environment gives a thread that moves. -/
inductive Env (S : Suite) where
  /-- Nothing: the step is the thread's own. -/
  | go
  | signal (sig : Signal)
  /-- `epoll_wait` returned these. -/
  | ready (fds : List Source)
  /-- A system call failed. -/
  | failed
  /-- `read` from the TUN device. -/
  | packet (bytes : List UInt8)
  /-- `recvfrom`, and the time read after it. -/
  | datagram (src : SockAddr) (pkt : S.Wire) (now : Int)
  /-- The IV drawn by `encrypt_packet`, `none` if the encryption fails. -/
  | iv (iv : Option S.Iv)
  | sent (ok : Bool)
  | time (t : Int)
  /-- What the handshake branch reads: the time, a fresh key, the result of `sendto`. -/
  | handshake (clock : Int) (fresh : Option S.Priv) (sendOk : Bool)
  /-- What `getaddrinfo` returns. -/
  | resolved (addr : Option SockAddr)
  /-- What `initiate_outbound_handshake` reads. -/
  | initiation (clock sentAt : Int) (fresh : Option S.Priv) (sendOk : Bool)
  /-- What the keepalives of a pass read, for each session. -/
  | keepalives (iv : Fin MAX_PEERS → Option S.Iv) (sendOk : Fin MAX_PEERS → Bool)
      (sentAt : Fin MAX_PEERS → Int)

/-! ## Places -/

/-- A datagram as a worker has received it. -/
structure Incoming (S : Suite) where
  src : SockAddr
  pkt : S.Wire
  now : Int

/-- The places of a worker while it handles one event. -/
inductive Job (S : Suite) where
  -- TUN -> UDP
  | readTun
  | tunRdlock (packet : List UInt8)
  | tunRoute (packet : List UInt8)
  -- UDP: handshake
  | recvfrom
  | hsWrlock (d : Incoming S)
  | hsHandle (d : Incoming S)
  | hsUnlock
  -- UDP: data
  | dataRdlock (d : Incoming S)
  | dataLookup (d : Incoming S)
  | hotLock (i : Fin MAX_PEERS) (d : Incoming S)
  | markSeen (i : Fin MAX_PEERS) (d : Incoming S)
  | decryptCurrent (i : Fin MAX_PEERS) (d : Incoming S)
  | retirePrev (i : Fin MAX_PEERS) (d : Incoming S) (plain : List UInt8)
  | decryptPrev (i : Fin MAX_PEERS) (d : Incoming S)
  | checkFrame (i : Fin MAX_PEERS) (d : Incoming S) (usedPrev : Bool) (plain : List UInt8)
  | hotUnlock (i : Fin MAX_PEERS) (r : Option (Receipt S))
  | route (r : Receipt S)
  | tunUnlock (r : Receipt S)
  | tunWrite (r : Receipt S)
  -- forward_to_peer
  | fwdLock (i : Fin MAX_PEERS) (payload : List UInt8)
  | drawSeq (i : Fin MAX_PEERS) (payload : List UInt8)
  | encrypt (i : Fin MAX_PEERS) (payload : List UInt8) (seq : BitVec 64)
  | encryptFailed (i : Fin MAX_PEERS)
  | readAddr (d : Sending S)
  | fwdUnlock (d : Sending S)
  | sendto (d : Sending S)
  | sentLock (i : Fin MAX_PEERS)
  | markSent (i : Fin MAX_PEERS)
  | sentUnlock (i : Fin MAX_PEERS)
  | rdUnlock

/-- The places of the housekeeping thread. -/
inductive Chore where
  | loop
  -- print_sessions
  | printRdlock
  | printing (todo : List (Fin MAX_PEERS))
  | printLock (i : Fin MAX_PEERS) (todo : List (Fin MAX_PEERS))
  | printAddr (i : Fin MAX_PEERS) (todo : List (Fin MAX_PEERS))
  | printUnlock (i : Fin MAX_PEERS) (todo : List (Fin MAX_PEERS))
  | printRdunlock
  -- the pass
  | clock
  | passWrlock (now : Int)
  | begin (now : Int)
  | connect (now : Int) (idx : Nat)
  | resolve (now : Int) (idx : Nat) (s : Option (Fin MAX_PEERS))
  | initiate (now : Int) (idx : Nat) (s : Option (Fin MAX_PEERS))
  | finish (now : Int)
  | passUnlock

/-- Where a thread is. -/
inductive Point (S : Suite) where
  /-- `while (!stop_flag)` of `worker_loop`. -/
  | poll
  | epollWait
  /-- `for (int i = 0; i < nfds; i++)`, with the events still to handle. -/
  | events (todo : List Source)
  | worker (todo : List Source) (job : Job S)
  | housekeeper (chore : Chore)
  | done

/-! ## The program -/

abbrev Act (S : Suite) : Type := Action (Process S) (Event S) (Point S) (Fin MAX_PEERS)

/-- A step that touches nothing shared. -/
def goto (p : Point S) : Act S := .work [] fun s => (s, [], p)

/-- An access to the tables. -/
def onNode (f : Node S → Node S × List (Event S) × Point S) : Act S :=
  .work [] fun s => ({ s with node := (f s.node).1 }, (f s.node).2)

/-- An access to the tables by a thread that takes `hot_lock` of sessions on the way. -/
def onNodeLocking (f : Node S → Node S × List (Event S) × Point S) : Act S :=
  .work (List.finRange MAX_PEERS) fun s => ({ s with node := (f s.node).1 }, (f s.node).2)

/-- An access to one session. -/
def onSession (i : Fin MAX_PEERS) (f : Session S → Session S × List (Event S) × Point S) :
    Act S :=
  onNode fun n => (n.setSession i (f (n.table.sessions i)).1, (f (n.table.sessions i)).2)

/-! ### Accesses of a worker

`todo` is what `epoll_wait` returned besides the event at hand. -/

section Accesses

variable (ctx : LoopCtx S) (todo : List Source)

/-- `route_lookup` of a packet from the TUN device. -/
def routePacket (packet : List UInt8) (n : Node S) : Node S × List (Event S) × Point S :=
  match routeLookup n.table (ipAt packet 16) with
  | none => (n, [], .worker todo .rdUnlock)
  | some i => (n, [], .worker todo (.fwdLock i packet))

/-- The handshake branch. -/
def handleHandshake (d : Incoming S) (clock : Int) (fresh : Option S.Priv) (sendOk : Bool)
    (n : Node S) : Node S × List (Event S) × Point S :=
  let r := handshakePkt ctx n ⟨d.src, d.pkt, d.now, clock, fresh, sendOk, none⟩
  (r.1, r.2, .worker todo .hsUnlock)

/-- `find_session_by_addr` of the source of a data packet. -/
def lookupSource (d : Incoming S) (n : Node S) : Node S × List (Event S) × Point S :=
  match findSessionByAddr n.table d.src with
  | none => (n, [], .worker todo .rdUnlock)
  | some i => (n, [], .worker todo (.hotLock i d))

/-- `s->last_seen = now`. -/
def writeLastSeen (i : Fin MAX_PEERS) (d : Incoming S) (s : Session S) :
    Session S × List (Event S) × Point S :=
  ({ s with lastSeen := d.now }, [], .worker todo (.decryptCurrent i d))

/-- `decrypt_packet` with the current key. -/
def openCurrent (i : Fin MAX_PEERS) (d : Incoming S) (s : Session S) :
    Session S × List (Event S) × Point S :=
  match S.decryptPacket s.sessionKey d.pkt with
  | some plain => (s, [], .worker todo (.retirePrev i d plain))
  | none => (s, [], .worker todo (.decryptPrev i d))

/-- `s->prev_key_active = 0`. -/
def writePrevKeyActive (i : Fin MAX_PEERS) (d : Incoming S) (plain : List UInt8) (s : Session S) :
    Session S × List (Event S) × Point S :=
  ({ s with prevKeyActive := false }, [], .worker todo (.checkFrame i d false plain))

/-- `decrypt_packet` with the previous key, while that is valid. -/
def openPrev (i : Fin MAX_PEERS) (d : Incoming S) (s : Session S) :
    Session S × List (Event S) × Point S :=
  if s.prevKeyActive && decide (d.now ≤ s.prevKeyExpires) then
    match S.decryptPacket s.prevSessionKey d.pkt with
    | some plain => (s, [], .worker todo (.checkFrame i d true plain))
    | none => (s, [], .worker todo (.hotUnlock i none))
  else (s, [], .worker todo (.hotUnlock i none))

/-- What the worker knows of a packet that passed the checks. -/
def receiptOf (i : Fin MAX_PEERS) (d : Incoming S) (usedPrev : Bool) (s : Session S)
    (x : BitVec 64 × List UInt8) : Receipt S :=
  ⟨i, s.staticPub, if usedPrev then s.prevSessionKey else s.sessionKey, usedPrev, d.pkt, x.1, x.2,
    d.now⟩

/-- Magic check and `check_replay`. -/
def checkPacket (i : Fin MAX_PEERS) (d : Incoming S) (usedPrev : Bool) (plain : List UInt8)
    (s : Session S) : Session S × List (Event S) × Point S :=
  let r := (acceptFrame s usedPrev plain).2.map (receiptOf i d usedPrev s)
  ((acceptFrame s usedPrev plain).1, (r.map Event.accepted).toList,
    .worker todo (.hotUnlock i r))

/-- `check_allowed_src` and `route_lookup` of an accepted packet. -/
def routeReceipt (r : Receipt S) (n : Node S) : Node S × List (Event S) × Point S :=
  if r.payload.length = 0 then (n, [], .worker todo .rdUnlock)
  else if sourceAllowed (n.table.sessions r.slot) r.payload then
    match relayTarget n.table r.slot r.payload with
    | none => (n, [], .worker todo (.tunUnlock r))
    | some f => (n, [.delivered r (some f)], .worker todo (.fwdLock f r.payload))
  else (n, [], .worker todo .rdUnlock)

/-- `htobe64(s->send_seq++)`. -/
def takeSeq (i : Fin MAX_PEERS) (payload : List UInt8) (s : Session S) :
    Session S × List (Event S) × Point S :=
  ({ s with sendSeq := s.sendSeq + 1 }, [], .worker todo (.encrypt i payload s.sendSeq))

/-- `encrypt_packet`. -/
def sealFrame (i : Fin MAX_PEERS) (payload : List UInt8) (seq : BitVec 64) (iv : Option S.Iv)
    (s : Session S) : Session S × List (Event S) × Point S :=
  match iv with
  | none => (s, [], .worker todo (.encryptFailed i))
  | some iv => (s, [], .worker todo (.readAddr ⟨i, s.staticPub, s.sessionKey, .zero, seq, payload,
      S.encryptPacket s.sessionKey iv (frame seq payload)⟩))

/-- `dest = s->addr`. -/
def copyAddr (d : Sending S) (s : Session S) : Session S × List (Event S) × Point S :=
  (s, [], .worker todo (.fwdUnlock { d with dst := s.addr }))

/-- `s->last_sent = time(NULL)`. -/
def writeLastSent (i : Fin MAX_PEERS) (t : Int) (s : Session S) :
    Session S × List (Event S) × Point S :=
  ({ s with lastSent := t }, [], .worker todo (.sentUnlock i))

/-! What the accesses with a decision come to. -/

theorem routePacket_cases (packet : List UInt8) (n : Node S) :
    (routeLookup n.table (ipAt packet 16) = none ∧
      routePacket todo packet n = (n, [], .worker todo .rdUnlock)) ∨
    ∃ i, routeLookup n.table (ipAt packet 16) = some i ∧
      routePacket todo packet n = (n, [], .worker todo (.fwdLock i packet)) := by
  unfold routePacket
  cases routeLookup n.table (ipAt packet 16) with
  | none => exact .inl ⟨rfl, rfl⟩
  | some i => exact .inr ⟨i, rfl, rfl⟩

theorem lookupSource_cases (d : Incoming S) (n : Node S) :
    (findSessionByAddr n.table d.src = none ∧
      lookupSource todo d n = (n, [], .worker todo .rdUnlock)) ∨
    ∃ i, findSessionByAddr n.table d.src = some i ∧
      lookupSource todo d n = (n, [], .worker todo (.hotLock i d)) := by
  unfold lookupSource
  cases findSessionByAddr n.table d.src with
  | none => exact .inl ⟨rfl, rfl⟩
  | some i => exact .inr ⟨i, rfl, rfl⟩

theorem openCurrent_cases (i : Fin MAX_PEERS) (d : Incoming S) (s : Session S) :
    (S.decryptPacket s.sessionKey d.pkt = none ∧
      openCurrent todo i d s = (s, [], .worker todo (.decryptPrev i d))) ∨
    ∃ plain, S.decryptPacket s.sessionKey d.pkt = some plain ∧
      openCurrent todo i d s = (s, [], .worker todo (.retirePrev i d plain)) := by
  unfold openCurrent
  cases S.decryptPacket s.sessionKey d.pkt with
  | none => exact .inl ⟨rfl, rfl⟩
  | some plain => exact .inr ⟨plain, rfl, rfl⟩

theorem openPrev_cases (i : Fin MAX_PEERS) (d : Incoming S) (s : Session S) :
    (((s.prevKeyActive && decide (d.now ≤ s.prevKeyExpires)) = true →
        S.decryptPacket s.prevSessionKey d.pkt = none) ∧
      openPrev todo i d s = (s, [], .worker todo (.hotUnlock i none))) ∨
    ∃ plain, (s.prevKeyActive && decide (d.now ≤ s.prevKeyExpires)) = true ∧
      S.decryptPacket s.prevSessionKey d.pkt = some plain ∧
      openPrev todo i d s = (s, [], .worker todo (.checkFrame i d true plain)) := by
  unfold openPrev
  by_cases hvalid : (s.prevKeyActive && decide (d.now ≤ s.prevKeyExpires)) = true
  · rw [if_pos hvalid]
    cases S.decryptPacket s.prevSessionKey d.pkt with
    | none => exact .inl ⟨fun _ => rfl, rfl⟩
    | some plain => exact .inr ⟨plain, hvalid, rfl, rfl⟩
  · rw [if_neg hvalid]
    exact .inl ⟨fun h => absurd h hvalid, rfl⟩

theorem routeReceipt_cases (r : Receipt S) (n : Node S) :
    ((r.payload.length = 0 ∨ sourceAllowed (n.table.sessions r.slot) r.payload = false) ∧
      routeReceipt todo r n = (n, [], .worker todo .rdUnlock)) ∨
    (r.payload.length ≠ 0 ∧ sourceAllowed (n.table.sessions r.slot) r.payload = true) ∧
      (relayTarget n.table r.slot r.payload = none ∧
        routeReceipt todo r n = (n, [], .worker todo (.tunUnlock r)) ∨
      ∃ f, relayTarget n.table r.slot r.payload = some f ∧ routeReceipt todo r n =
        (n, [.delivered r (some f)], .worker todo (.fwdLock f r.payload))) := by
  unfold routeReceipt
  by_cases hzero : r.payload.length = 0
  · rw [if_pos hzero]
    exact .inl ⟨.inl hzero, rfl⟩
  · rw [if_neg hzero]
    cases hsrc : sourceAllowed (n.table.sessions r.slot) r.payload with
    | false => exact .inl ⟨.inr rfl, rfl⟩
    | true =>
        rw [if_pos rfl]
        refine .inr ⟨⟨hzero, rfl⟩, ?_⟩
        cases relayTarget n.table r.slot r.payload with
        | none => exact .inl ⟨rfl, rfl⟩
        | some f => exact .inr ⟨f, rfl, rfl⟩

/-! ### The steps of a worker on one event -/

def jobAction : Job S → Env S → Option (Act S)
  | .readTun, .failed => some (goto .done)
  | .readTun, .packet bytes =>
      if bytes = [] then some (goto .done)
      else if isIpv4 bytes then some (goto (.worker todo (.tunRdlock bytes)))
      else some (goto (.events todo))
  | .tunRdlock packet, .go => some (.rdlock (.worker todo (.tunRoute packet)))
  | .tunRoute packet, .go => some (onNode (routePacket todo packet))
  | .recvfrom, .failed => some (goto .done)
  | .recvfrom, .datagram src pkt now =>
      if isHandshake ctx pkt then some (goto (.worker todo (.hsWrlock ⟨src, pkt, now⟩)))
      else some (goto (.worker todo (.dataRdlock ⟨src, pkt, now⟩)))
  | .hsWrlock d, .go => some (.wrlock (.worker todo (.hsHandle d)))
  | .hsHandle d, .handshake clock fresh sendOk =>
      some (onNodeLocking (handleHandshake ctx todo d clock fresh sendOk))
  | .hsUnlock, .go => some (.rwunlock (.events todo))
  | .dataRdlock d, .go => some (.rdlock (.worker todo (.dataLookup d)))
  | .dataLookup d, .go => some (onNode (lookupSource todo d))
  | .hotLock i d, .go => some (.lock i (.worker todo (.markSeen i d)))
  | .markSeen i d, .go => some (onSession i (writeLastSeen todo i d))
  | .decryptCurrent i d, .go => some (onSession i (openCurrent todo i d))
  | .retirePrev i d plain, .go => some (onSession i (writePrevKeyActive todo i d plain))
  | .decryptPrev i d, .go => some (onSession i (openPrev todo i d))
  | .checkFrame i d usedPrev plain, .go => some (onSession i (checkPacket todo i d usedPrev plain))
  | .hotUnlock i none, .go => some (.unlock i (.worker todo .rdUnlock))
  | .hotUnlock i (some r), .go => some (.unlock i (.worker todo (.route r)))
  | .route r, .go => some (onNode (routeReceipt todo r))
  | .tunUnlock r, .go => some (.rwunlock (.worker todo (.tunWrite r)))
  -- a failed `write` is logged only
  | .tunWrite r, .sent _ => some (.work [] fun s => (s, [.delivered r none], .events todo))
  | .fwdLock i payload, .go => some (.lock i (.worker todo (.drawSeq i payload)))
  | .drawSeq i payload, .go => some (onSession i (takeSeq todo i payload))
  | .encrypt i payload seq, .iv iv => some (onSession i (sealFrame todo i payload seq iv))
  | .encryptFailed i, .go => some (.unlock i (.worker todo .rdUnlock))
  | .readAddr d, .go => some (onSession d.slot (copyAddr todo d))
  | .fwdUnlock d, .go => some (.unlock d.slot (.worker todo (.sendto d)))
  | .sendto d, .sent true =>
      some (.work [] fun s => (s, [.dataSent d], .worker todo (.sentLock d.slot)))
  | .sendto _, .sent false => some (goto (.worker todo .rdUnlock))
  | .sentLock i, .go => some (.lock i (.worker todo (.markSent i)))
  | .markSent i, .time t => some (onSession i (writeLastSent todo i t))
  | .sentUnlock i, .go => some (.unlock i (.worker todo .rdUnlock))
  | .rdUnlock, .go => some (.rwunlock (.events todo))
  | _, _ => none

end Accesses

/-! ### Accesses of the housekeeping thread -/

/-- The three loops of a pass after the outbound connects. -/
def finishPass (ctx : LoopCtx S) (pass : PassInput S) (c : Node S × List (Event S)) :
    Node S × List (Event S) :=
  let slots := List.finRange MAX_PEERS
  let c₂ := (Machine.mk (expirePending ctx pass.now)).run c slots
  let c₃ := (Machine.mk (expireSession ctx pass.now)).run c₂ slots
  (Machine.mk (keepalive ctx pass)).run c₃ slots

/-- A pass that reads these values for its keepalives. -/
def keepalivePass (now : Int) (iv : Fin MAX_PEERS → Option S.Iv) (sendOk : Fin MAX_PEERS → Bool)
    (sentAt : Fin MAX_PEERS → Int) : PassInput S where
  now := now
  getaddrinfo := fun _ _ _ => none
  clock := fun _ => now
  initSentAt := fun _ => now
  fresh := fun _ => none
  initOk := fun _ => false
  iv := iv
  sendOk := sendOk
  sentAt := sentAt

/-- `has_endpoint`, `needs` and `ready` for the peer with index `idx`. -/
def wantsHandshake (ctx : LoopCtx S) (n : Node S) (now : Int) (idx : Nat) : Bool :=
  (n.config idx).hasEndpoint &&
    needsHandshake ctx n now (findSessionByPub n.table (n.config idx).pub) &&
    decide (ctx.reconnectInterval ≤ now - (n.config idx).lastAttempt)

/-- The two flags at the head of the loop. -/
def checkFlags (s : Process S) : Process S × List (Event S) × Point S :=
  if s.stopFlag then (s, [], .done)
  else if s.printSessionsFlag then
    ({ s with printSessionsFlag := false }, [], .housekeeper .printRdlock)
  else (s, [], .housekeeper .clock)

/-- One slot of `print_sessions`. -/
def printSlot (i : Fin MAX_PEERS) (todo : List (Fin MAX_PEERS)) (n : Node S) :
    Node S × List (Event S) × Point S :=
  if decide (i.val < n.table.slots) && (n.table.sessions i).active then
    (n, [], .housekeeper (.printLock i todo))
  else (n, [], .housekeeper (.printing todo))

/-- `now - last_check >= 10`; `last_check` is a variable of this thread. -/
def checkClock (now : Int) (n : Node S) : Node S × List (Event S) × Point S :=
  if 10 ≤ now - n.lastCheck then (n, [], .housekeeper (.passWrlock now))
  else (n, [], .housekeeper .loop)

def beginPass (now : Int) (n : Node S) : Node S × List (Event S) × Point S :=
  ({ n with lastCheck := now }, [], .housekeeper (.connect now 0))

/-- The head of the loop over `peer_configs[]`. -/
def connectNext (ctx : LoopCtx S) (now : Int) (idx : Nat) (n : Node S) :
    Node S × List (Event S) × Point S :=
  if idx < n.peerConfigs.length then
    if wantsHandshake ctx n now idx then
      (n, [], .housekeeper (.resolve now idx (findSessionByPub n.table (n.config idx).pub)))
    else (n, [], .housekeeper (.connect now (idx + 1)))
  else (n, [], .housekeeper (.finish now))

/-- `resolve_endpoint` has returned; the session is marked. -/
def writeEndpoint (now : Int) (idx : Nat) (s : Option (Fin MAX_PEERS)) (addr : Option SockAddr)
    (n : Node S) : Node S × List (Event S) × Point S :=
  (setRekeying (n.setConfig idx (resolveEndpoint (fun _ _ => addr) (n.config idx))) true s, [],
    .housekeeper (.initiate now idx s))

/-- `initiate_outbound_handshake`; the mark is taken back if it fails. -/
def initiateNext (ctx : LoopCtx S) (now : Int) (idx : Nat) (s : Option (Fin MAX_PEERS))
    (clock sentAt : Int) (fresh : Option S.Priv) (sendOk : Bool) (n : Node S) :
    Node S × List (Event S) × Point S :=
  match initiateOutboundHandshake ctx n idx clock sentAt fresh sendOk with
  | (n', true, ev) => (n', ev, .housekeeper (.connect now (idx + 1)))
  | (n', false, ev) => (setRekeying n' false s, ev, .housekeeper (.connect now (idx + 1)))

def finishNext (ctx : LoopCtx S) (pass : PassInput S) (n : Node S) :
    Node S × List (Event S) × Point S :=
  let r := finishPass ctx pass (n, [])
  (r.1, r.2, .housekeeper .passUnlock)

theorem checkFlags_cases (s : Process S) :
    (s.stopFlag = true ∧ checkFlags s = (s, [], .done)) ∨
    (s.stopFlag = false ∧ s.printSessionsFlag = true ∧
      checkFlags s = ({ s with printSessionsFlag := false }, [], .housekeeper .printRdlock)) ∨
    s.stopFlag = false ∧ checkFlags s = (s, [], .housekeeper .clock) := by
  unfold checkFlags
  cases s.stopFlag with
  | true => exact .inl ⟨rfl, rfl⟩
  | false =>
      cases s.printSessionsFlag with
      | true => exact .inr (.inl ⟨rfl, rfl, rfl⟩)
      | false => exact .inr (.inr ⟨rfl, rfl⟩)

theorem printSlot_cases (i : Fin MAX_PEERS) (todo : List (Fin MAX_PEERS)) (n : Node S) :
    printSlot i todo n = (n, [], .housekeeper (.printLock i todo)) ∨
    printSlot i todo n = (n, [], .housekeeper (.printing todo)) := by
  unfold printSlot
  split_ifs
  · exact .inl rfl
  · exact .inr rfl

theorem checkClock_cases (now : Int) (n : Node S) :
    (10 ≤ now - n.lastCheck ∧ checkClock now n = (n, [], .housekeeper (.passWrlock now))) ∨
    checkClock now n = (n, [], .housekeeper .loop) := by
  unfold checkClock
  split_ifs with hdue
  · exact .inl ⟨hdue, rfl⟩
  · exact .inr rfl

theorem connectNext_cases (ctx : LoopCtx S) (now : Int) (idx : Nat) (n : Node S) :
    (idx < n.peerConfigs.length ∧ wantsHandshake ctx n now idx = true ∧
      connectNext ctx now idx n = (n, [], .housekeeper
        (.resolve now idx (findSessionByPub n.table (n.config idx).pub)))) ∨
    (idx < n.peerConfigs.length ∧ wantsHandshake ctx n now idx = false ∧
      connectNext ctx now idx n = (n, [], .housekeeper (.connect now (idx + 1)))) ∨
    n.peerConfigs.length ≤ idx ∧
      connectNext ctx now idx n = (n, [], .housekeeper (.finish now)) := by
  unfold connectNext
  by_cases hidx : idx < n.peerConfigs.length
  · rw [if_pos hidx]
    cases wantsHandshake ctx n now idx with
    | true => exact .inl ⟨hidx, rfl, rfl⟩
    | false => exact .inr (.inl ⟨hidx, rfl, rfl⟩)
  · rw [if_neg hidx]
    exact .inr (.inr ⟨Nat.le_of_not_lt hidx, rfl⟩)

section Initiate

variable (ctx : LoopCtx S) (now : Int) (idx : Nat) (s : Option (Fin MAX_PEERS))
  (clock sentAt : Int) (fresh : Option S.Priv) (sendOk : Bool) (n : Node S)

theorem initiateNext_cases :
    ∃ n', (n' = (initiateOutboundHandshake ctx n idx clock sentAt fresh sendOk).1 ∨
        n' = setRekeying (initiateOutboundHandshake ctx n idx clock sentAt fresh sendOk).1 false
          s) ∧
      initiateNext ctx now idx s clock sentAt fresh sendOk n = (n',
        (initiateOutboundHandshake ctx n idx clock sentAt fresh sendOk).2.2,
        .housekeeper (.connect now (idx + 1))) := by
  unfold initiateNext
  rcases initiateOutboundHandshake ctx n idx clock sentAt fresh sendOk with ⟨n', _ | _, ev⟩
  · exact ⟨_, .inr rfl, rfl⟩
  · exact ⟨_, .inl rfl, rfl⟩

theorem initiateNext_place : (initiateNext ctx now idx s clock sentAt fresh sendOk n).2.2 =
    .housekeeper (.connect now (idx + 1)) := by
  obtain ⟨n', -, heq⟩ := initiateNext_cases ctx now idx s clock sentAt fresh sendOk n
  rw [heq]

end Initiate

/-! ### The steps of the housekeeping thread -/

def choreAction (ctx : LoopCtx S) : Chore → Env S → Option (Act S)
  | .loop, .go => some (.work [] checkFlags)
  | .printRdlock, .go => some (.rdlock (.housekeeper (.printing (List.finRange MAX_PEERS))))
  | .printing [], .go => some (goto (.housekeeper .printRdunlock))
  | .printing (i :: todo), .go => some (onNode (printSlot i todo))
  | .printLock i todo, .go => some (.lock i (.housekeeper (.printAddr i todo)))
  | .printAddr i todo, .go => some (goto (.housekeeper (.printUnlock i todo)))
  | .printUnlock i todo, .go => some (.unlock i (.housekeeper (.printing todo)))
  | .printRdunlock, .go => some (.rwunlock (.housekeeper .clock))
  | .clock, .time now => some (onNode (checkClock now))
  | .passWrlock now, .go => some (.wrlock (.housekeeper (.begin now)))
  | .begin now, .go => some (onNode (beginPass now))
  | .connect now idx, .go => some (onNode (connectNext ctx now idx))
  | .resolve now idx s, .resolved addr => some (onNode (writeEndpoint now idx s addr))
  | .initiate now idx s, .initiation clock sentAt fresh sendOk =>
      some (onNode (initiateNext ctx now idx s clock sentAt fresh sendOk))
  | .finish now, .keepalives iv sendOk sentAt =>
      some (onNodeLocking (finishNext ctx (keepalivePass now iv sendOk sentAt)))
  | .passUnlock, .go => some (.rwunlock (.housekeeper .loop))
  | _, _ => none

/-- What a thread does next. The signal handler may run at any place. -/
def action (ctx : LoopCtx S) : Program (Process S) (Event S) (Point S) (Fin MAX_PEERS) (Env S)
  | p, .signal sig => some (.work [] fun s => (handleSignal sig s, [], p))
  | .poll, .go => some (.work [] fun s => (s, [], if s.stopFlag then .done else .epollWait))
  | .epollWait, .failed => some (goto .done)
  -- `epoll_wait` is given room for two events
  | .epollWait, .ready fds => if fds.length ≤ 2 then some (goto (.events fds)) else none
  | .events [], .go => some (goto .poll)
  | .events (_ :: _), .failed => some (goto .done)
  | .events (.tun :: todo), .go => some (goto (.worker todo .readTun))
  | .events (.udp :: todo), .go => some (goto (.worker todo .recvfrom))
  | .worker todo job, e => jobAction ctx todo job e
  | .housekeeper chore, e => choreAction ctx chore e
  | _, _ => none

/-! ## What a step can be

One constructor for each step of the program, so that proofs about all steps have named cases. -/

section Steps

variable (ctx : LoopCtx S) (todo : List Source)

/-- The steps of a worker on one event. -/
inductive JobStep : Job S → Act S → Prop
  | readFailed : JobStep .readTun (goto .done)
  | notIpv4 : JobStep .readTun (goto (.events todo))
  | readTun {packet} (h : isIpv4 packet = true) :
      JobStep .readTun (goto (.worker todo (.tunRdlock packet)))
  | tunRdlock {packet} : JobStep (.tunRdlock packet) (.rdlock (.worker todo (.tunRoute packet)))
  | tunRoute {packet} : JobStep (.tunRoute packet) (onNode (routePacket todo packet))
  | recvFailed : JobStep .recvfrom (goto .done)
  | recvHandshake {d} (h : isHandshake ctx d.pkt = true) :
      JobStep .recvfrom (goto (.worker todo (.hsWrlock d)))
  | recvData {d} (h : isHandshake ctx d.pkt = false) :
      JobStep .recvfrom (goto (.worker todo (.dataRdlock d)))
  | hsWrlock {d} : JobStep (.hsWrlock d) (.wrlock (.worker todo (.hsHandle d)))
  | hsHandle {d clock fresh sendOk} :
      JobStep (.hsHandle d) (onNodeLocking (handleHandshake ctx todo d clock fresh sendOk))
  | hsUnlock : JobStep .hsUnlock (.rwunlock (.events todo))
  | dataRdlock {d} : JobStep (.dataRdlock d) (.rdlock (.worker todo (.dataLookup d)))
  | dataLookup {d} : JobStep (.dataLookup d) (onNode (lookupSource todo d))
  | hotLock {i d} : JobStep (.hotLock i d) (.lock i (.worker todo (.markSeen i d)))
  | markSeen {i d} : JobStep (.markSeen i d) (onSession i (writeLastSeen todo i d))
  | decryptCurrent {i d} : JobStep (.decryptCurrent i d) (onSession i (openCurrent todo i d))
  | retirePrev {i d plain} :
      JobStep (.retirePrev i d plain) (onSession i (writePrevKeyActive todo i d plain))
  | decryptPrev {i d} : JobStep (.decryptPrev i d) (onSession i (openPrev todo i d))
  | checkFrame {i d usedPrev plain} :
      JobStep (.checkFrame i d usedPrev plain) (onSession i (checkPacket todo i d usedPrev plain))
  | hotUnlockNone {i} : JobStep (.hotUnlock i none) (.unlock i (.worker todo .rdUnlock))
  | hotUnlockSome {i r} : JobStep (.hotUnlock i (some r)) (.unlock i (.worker todo (.route r)))
  | route {r} : JobStep (.route r) (onNode (routeReceipt todo r))
  | tunUnlock {r} : JobStep (.tunUnlock r) (.rwunlock (.worker todo (.tunWrite r)))
  | tunWrite {r} :
      JobStep (.tunWrite r) (.work [] fun s => (s, [.delivered r none], .events todo))
  | fwdLock {i payload} : JobStep (.fwdLock i payload) (.lock i (.worker todo (.drawSeq i payload)))
  | drawSeq {i payload} : JobStep (.drawSeq i payload) (onSession i (takeSeq todo i payload))
  | encrypt {i payload seq iv} :
      JobStep (.encrypt i payload seq) (onSession i (sealFrame todo i payload seq iv))
  | encryptFailed {i} : JobStep (.encryptFailed i) (.unlock i (.worker todo .rdUnlock))
  | readAddr {d} : JobStep (.readAddr d) (onSession d.slot (copyAddr todo d))
  | fwdUnlock {d} : JobStep (.fwdUnlock d) (.unlock d.slot (.worker todo (.sendto d)))
  | sendto {d} : JobStep (.sendto d)
      (.work [] fun s => (s, [.dataSent d], .worker todo (.sentLock d.slot)))
  | sendFailed {d} : JobStep (.sendto d) (goto (.worker todo .rdUnlock))
  | sentLock {i} : JobStep (.sentLock i) (.lock i (.worker todo (.markSent i)))
  | markSent {i t} : JobStep (.markSent i) (onSession i (writeLastSent todo i t))
  | sentUnlock {i} : JobStep (.sentUnlock i) (.unlock i (.worker todo .rdUnlock))
  | rdUnlock : JobStep .rdUnlock (.rwunlock (.events todo))

/-- The steps of the housekeeping thread. -/
inductive ChoreStep : Chore → Act S → Prop
  | loop : ChoreStep .loop (.work [] checkFlags)
  | printRdlock :
      ChoreStep .printRdlock (.rdlock (.housekeeper (.printing (List.finRange MAX_PEERS))))
  | printed : ChoreStep (.printing []) (goto (.housekeeper .printRdunlock))
  | printing {i rest} : ChoreStep (.printing (i :: rest)) (onNode (printSlot i rest))
  | printLock {i rest} :
      ChoreStep (.printLock i rest) (.lock i (.housekeeper (.printAddr i rest)))
  | printAddr {i rest} : ChoreStep (.printAddr i rest) (goto (.housekeeper (.printUnlock i rest)))
  | printUnlock {i rest} :
      ChoreStep (.printUnlock i rest) (.unlock i (.housekeeper (.printing rest)))
  | printRdunlock : ChoreStep .printRdunlock (.rwunlock (.housekeeper .clock))
  | clock {now} : ChoreStep .clock (onNode (checkClock now))
  | passWrlock {now} : ChoreStep (.passWrlock now) (.wrlock (.housekeeper (.begin now)))
  | begin {now} : ChoreStep (.begin now) (onNode (beginPass now))
  | connect {now idx} : ChoreStep (.connect now idx) (onNode (connectNext ctx now idx))
  | resolve {now idx s addr} :
      ChoreStep (.resolve now idx s) (onNode (writeEndpoint now idx s addr))
  | initiate {now idx s clock sentAt fresh sendOk} : ChoreStep (.initiate now idx s)
      (onNode (initiateNext ctx now idx s clock sentAt fresh sendOk))
  | finish {now iv sendOk sentAt} : ChoreStep (.finish now)
      (onNodeLocking (finishNext ctx (keepalivePass now iv sendOk sentAt)))
  | passUnlock : ChoreStep .passUnlock (.rwunlock (.housekeeper .loop))

/-- The steps of a thread. -/
inductive ThreadStep : Point S → Act S → Prop
  | signal {p sig} : ThreadStep p (.work [] fun s => (handleSignal sig s, [], p))
  | poll : ThreadStep .poll
      (.work [] fun s => (s, [], if s.stopFlag then .done else .epollWait))
  | waitFailed : ThreadStep .epollWait (goto .done)
  | epollWait {fds} (h : fds.length ≤ 2) : ThreadStep .epollWait (goto (.events fds))
  | handled : ThreadStep (.events []) (goto .poll)
  | hangup {fd rest} : ThreadStep (.events (fd :: rest)) (goto .done)
  | tun {rest} : ThreadStep (.events (.tun :: rest)) (goto (.worker rest .readTun))
  | udp {rest} : ThreadStep (.events (.udp :: rest)) (goto (.worker rest .recvfrom))
  | worker {rest job a} (h : JobStep ctx rest job a) : ThreadStep (.worker rest job) a
  | housekeeper {chore a} (h : ChoreStep ctx chore a) : ThreadStep (.housekeeper chore) a

end Steps

section StepCases

variable {ctx : LoopCtx S} {e : Env S} {a : Act S}

theorem jobAction_cases {todo : List Source} {job : Job S}
    (h : jobAction ctx todo job e = some a) : JobStep ctx todo job a := by
  unfold jobAction at h
  split at h
  all_goals first
    | (cases h; constructor)
    | cases h
    | split_ifs at h
  all_goals (cases h; constructor)
  all_goals simp_all

theorem choreAction_cases {chore : Chore} (h : choreAction ctx chore e = some a) :
    ChoreStep ctx chore a := by
  unfold choreAction at h
  split at h
  all_goals first
    | (cases h; constructor)
    | cases h

theorem action_cases {p : Point S} (h : action ctx p e = some a) : ThreadStep ctx p a := by
  unfold action at h
  split at h
  case h_4 =>
    split_ifs at h with hlen
    cases h
    exact .epollWait hlen
  all_goals first
    | exact .worker (jobAction_cases h)
    | exact .housekeeper (choreAction_cases h)
    | (cases h; constructor)
    | cases h

end StepCases

/-- A worker thread, or the housekeeping thread. -/
inductive Thread (W : Type) where
  | worker (w : W)
  | housekeeping
  deriving DecidableEq

abbrev Threads (S : Suite) (W : Type) : Type :=
  Pool (Process S) (Point S) (Fin MAX_PEERS) (Thread W)

/-- The threads of a node with workers `W`, in any interleaving. -/
def threads {W : Type} [DecidableEq W] (ctx : LoopCtx S) :
    Machine (Threads S W) (Thread W × Env S) (Event S) :=
  Pool.pool (action ctx)

/-- `start_peer`, when the threads have been created. -/
def startThreads {W : Type} (n : Node S) : Threads S W :=
  Pool.start ⟨n, false, false⟩ fun
    | .worker _ => .poll
    | .housekeeping => .housekeeper .loop

/-! ## What is held where -/

def Job.held : Job S → Held (Fin MAX_PEERS)
  | .readTun => ⟨.free, none⟩
  | .tunRdlock _ => ⟨.free, none⟩
  | .tunRoute _ => ⟨.read, none⟩
  | .recvfrom => ⟨.free, none⟩
  | .hsWrlock _ => ⟨.free, none⟩
  | .hsHandle _ => ⟨.write, none⟩
  | .hsUnlock => ⟨.write, none⟩
  | .dataRdlock _ => ⟨.free, none⟩
  | .dataLookup _ => ⟨.read, none⟩
  | .hotLock _ _ => ⟨.read, none⟩
  | .markSeen i _ => ⟨.read, some i⟩
  | .decryptCurrent i _ => ⟨.read, some i⟩
  | .retirePrev i _ _ => ⟨.read, some i⟩
  | .decryptPrev i _ => ⟨.read, some i⟩
  | .checkFrame i _ _ _ => ⟨.read, some i⟩
  | .hotUnlock i _ => ⟨.read, some i⟩
  | .route _ => ⟨.read, none⟩
  | .tunUnlock _ => ⟨.read, none⟩
  | .tunWrite _ => ⟨.free, none⟩
  | .fwdLock _ _ => ⟨.read, none⟩
  | .drawSeq i _ => ⟨.read, some i⟩
  | .encrypt i _ _ => ⟨.read, some i⟩
  | .encryptFailed i => ⟨.read, some i⟩
  | .readAddr d => ⟨.read, some d.slot⟩
  | .fwdUnlock d => ⟨.read, some d.slot⟩
  | .sendto _ => ⟨.read, none⟩
  | .sentLock _ => ⟨.read, none⟩
  | .markSent i => ⟨.read, some i⟩
  | .sentUnlock i => ⟨.read, some i⟩
  | .rdUnlock => ⟨.read, none⟩

def Chore.held : Chore → Held (Fin MAX_PEERS)
  | .loop => ⟨.free, none⟩
  | .printRdlock => ⟨.free, none⟩
  | .printing _ => ⟨.read, none⟩
  | .printLock _ _ => ⟨.read, none⟩
  | .printAddr i _ => ⟨.read, some i⟩
  | .printUnlock i _ => ⟨.read, some i⟩
  | .printRdunlock => ⟨.read, none⟩
  | .clock => ⟨.free, none⟩
  | .passWrlock _ => ⟨.free, none⟩
  | .begin _ => ⟨.write, none⟩
  | .connect _ _ => ⟨.write, none⟩
  | .resolve _ _ _ => ⟨.write, none⟩
  | .initiate _ _ _ => ⟨.write, none⟩
  | .finish _ => ⟨.write, none⟩
  | .passUnlock => ⟨.write, none⟩

def Point.held : Point S → Held (Fin MAX_PEERS)
  | .worker _ job => job.held
  | .housekeeper chore => chore.held
  | _ => ⟨.free, none⟩

/-! ## The discipline of the locks -/

theorem fits_goto {p : Point S} {h : Held (Fin MAX_PEERS)} (hp : p.held = h) :
    (goto p).Fits Point.held h := ⟨fun _ => hp, fun hne => absurd rfl hne⟩

theorem fits_onNode {f : Node S → Node S × List (Event S) × Point S} {h : Held (Fin MAX_PEERS)}
    (hf : ∀ n, (f n).2.2.held = h) : (onNode f).Fits Point.held h :=
  ⟨fun s => hf s.node, fun hne => absurd rfl hne⟩

theorem fits_onNodeLocking {f : Node S → Node S × List (Event S) × Point S}
    {h : Held (Fin MAX_PEERS)} (hf : ∀ n, (f n).2.2.held = h) (hw : h.mode = .write) :
    (onNodeLocking f).Fits Point.held h :=
  ⟨fun s => hf s.node, fun _ => hw⟩

theorem fits_onSession {i : Fin MAX_PEERS} {f : Session S → Session S × List (Event S) × Point S}
    {h : Held (Fin MAX_PEERS)} (hf : ∀ s, (f s).2.2.held = h) :
    (onSession i f).Fits Point.held h :=
  fits_onNode fun _ => hf _

section Discipline

variable {ctx : LoopCtx S} {a : Act S}

theorem JobStep.fits {todo : List Source} {job : Job S} (h : JobStep ctx todo job a) :
    a.Fits Point.held job.held := by
  cases h with
  | readFailed | notIpv4 | recvFailed => exact fits_goto rfl
  | readTun | recvHandshake | recvData => exact fits_goto rfl
  | sendFailed => exact fits_goto rfl
  | tunRdlock | dataRdlock | hsWrlock => exact ⟨rfl, rfl⟩
  | hsUnlock | tunUnlock | rdUnlock => exact ⟨nofun, rfl, rfl⟩
  | hotLock | fwdLock | sentLock => exact ⟨rfl, rfl⟩
  | hotUnlockNone | hotUnlockSome | encryptFailed | fwdUnlock | sentUnlock => exact ⟨rfl, rfl⟩
  | tunWrite | sendto => exact ⟨fun _ => rfl, fun hne => absurd rfl hne⟩
  | hsHandle => exact fits_onNodeLocking (fun _ => rfl) rfl
  | markSeen | retirePrev | checkFrame | drawSeq | readAddr | markSent =>
      exact fits_onSession fun _ => rfl
  | @tunRoute packet =>
      refine fits_onNode fun n => ?_
      rcases routePacket_cases todo packet n with ⟨-, heq⟩ | ⟨i, -, heq⟩ <;> (rw [heq]; rfl)
  | @dataLookup d =>
      refine fits_onNode fun n => ?_
      rcases lookupSource_cases todo d n with ⟨-, heq⟩ | ⟨i, -, heq⟩ <;> (rw [heq]; rfl)
  | @decryptCurrent i d =>
      refine fits_onSession fun s => ?_
      rcases openCurrent_cases todo i d s with ⟨-, heq⟩ | ⟨plain, -, heq⟩ <;> (rw [heq]; rfl)
  | @decryptPrev i d =>
      refine fits_onSession fun s => ?_
      rcases openPrev_cases todo i d s with ⟨-, heq⟩ | ⟨plain, -, -, heq⟩ <;> (rw [heq]; rfl)
  | @route r =>
      refine fits_onNode fun n => ?_
      rcases routeReceipt_cases todo r n with ⟨-, heq⟩ | ⟨-, ⟨-, heq⟩ | ⟨f, -, heq⟩⟩ <;>
        (rw [heq]; rfl)
  | @encrypt _ _ _ iv =>
      refine fits_onSession fun s => ?_
      cases iv <;> rfl

theorem ChoreStep.fits {chore : Chore} (h : ChoreStep ctx chore a) :
    a.Fits Point.held chore.held := by
  cases h with
  | loop =>
      refine ⟨fun s => ?_, fun hne => absurd rfl hne⟩
      rcases checkFlags_cases s with ⟨-, heq⟩ | ⟨-, -, heq⟩ | ⟨-, heq⟩ <;> (rw [heq]; rfl)
  | printed | printAddr => exact fits_goto rfl
  | printRdlock | passWrlock | printLock | printUnlock => exact ⟨rfl, rfl⟩
  | printRdunlock | passUnlock => exact ⟨nofun, rfl, rfl⟩
  | @printing i rest =>
      refine fits_onNode fun n => ?_
      rcases printSlot_cases i rest n with heq | heq <;> (rw [heq]; rfl)
  | @clock now =>
      refine fits_onNode fun n => ?_
      rcases checkClock_cases now n with ⟨-, heq⟩ | heq <;> (rw [heq]; rfl)
  | begin | resolve => exact fits_onNode fun _ => rfl
  | @connect now idx =>
      refine fits_onNode fun n => ?_
      rcases connectNext_cases ctx now idx n with ⟨-, -, heq⟩ | ⟨-, -, heq⟩ | ⟨-, heq⟩ <;>
        (rw [heq]; rfl)
  | initiate =>
      refine fits_onNode fun n => ?_
      rw [initiateNext_place]
      rfl
  | finish => exact fits_onNodeLocking (fun _ => rfl) rfl

theorem ThreadStep.fits {p : Point S} (h : ThreadStep ctx p a) : a.Fits Point.held p.held := by
  cases h with
  | signal => exact ⟨fun _ => rfl, fun hne => absurd rfl hne⟩
  | poll =>
      refine ⟨fun s => ?_, fun hne => absurd rfl hne⟩
      dsimp only
      split_ifs <;> rfl
  | waitFailed | epollWait | handled | hangup | tun | udp => exact fits_goto rfl
  | worker h => exact h.fits
  | housekeeper h => exact h.fits

end Discipline

theorem Job.read_of_mutex (job : Job S) {l : Fin MAX_PEERS} (h : job.held.mutex = some l) :
    job.held.mode = .read := by
  cases job <;> first | rfl | cases h

theorem Chore.read_of_mutex (chore : Chore) {l : Fin MAX_PEERS}
    (h : chore.held.mutex = some l) : chore.held.mode = .read := by
  cases chore <;> first | rfl | cases h

theorem Point.read_of_mutex (p : Point S) {l : Fin MAX_PEERS} (h : p.held.mutex = some l) :
    p.held.mode = .read := by
  cases p with
  | worker todo job => exact job.read_of_mutex h
  | housekeeper chore => exact chore.read_of_mutex h
  | _ => cases h

/-- The threads take `table_lock` before `hot_lock`, and never two of one kind. -/
theorem disciplined (ctx : LoopCtx S) : Disciplined (action ctx) Point.held where
  fits _ _ _ h := (action_cases h).fits
  read_of_mutex p _ h := p.read_of_mutex h

/-! ## Outside the locks -/

/-- A step that leaves the tables alone and at most writes to the TUN device. -/
def Action.Aside (a : Act S) : Prop :=
  ∃ f, a = .work [] f ∧
    ∀ s, (f s).1.node = s.node ∧ ∀ ev ∈ (f s).2.1, ∃ r, ev = .delivered r none

theorem aside_goto (p : Point S) : (goto p).Aside :=
  ⟨_, rfl, fun _ => ⟨rfl, fun _ hev => (List.not_mem_nil hev).elim⟩⟩

section Outside

variable {ctx : LoopCtx S} {a : Act S}

theorem JobStep.outside {todo : List Source} {job : Job S} (h : JobStep ctx todo job a)
    (hfree : job.held.mode = .free) : (∃ p, a = .rdlock p) ∨ (∃ p, a = .wrlock p) ∨ a.Aside := by
  cases h with
  | readFailed | notIpv4 | recvFailed => exact .inr (.inr (aside_goto _))
  | readTun | recvHandshake | recvData => exact .inr (.inr (aside_goto _))
  | tunRdlock | dataRdlock => exact .inl ⟨_, rfl⟩
  | hsWrlock => exact .inr (.inl ⟨_, rfl⟩)
  | tunWrite =>
      refine .inr (.inr ⟨_, rfl, fun s => ⟨rfl, fun ev hev => ?_⟩⟩)
      exact ⟨_, List.mem_singleton.mp hev⟩
  | _ => cases hfree

theorem ChoreStep.outside {chore : Chore} (h : ChoreStep ctx chore a)
    (hfree : chore.held.mode = .free) :
    (∃ p, a = .rdlock p) ∨ (∃ p, a = .wrlock p) ∨ a.Aside := by
  cases h with
  | printRdlock => exact .inl ⟨_, rfl⟩
  | passWrlock => exact .inr (.inl ⟨_, rfl⟩)
  | loop =>
      refine .inr (.inr ⟨_, rfl, fun s => ?_⟩)
      rcases checkFlags_cases s with ⟨-, heq⟩ | ⟨-, -, heq⟩ | ⟨-, heq⟩ <;>
        (rw [heq]; exact ⟨rfl, fun _ hev => (List.not_mem_nil hev).elim⟩)
  | @clock now =>
      refine .inr (.inr ⟨_, rfl, fun s => ?_⟩)
      dsimp only
      rcases checkClock_cases now s.node with ⟨-, heq⟩ | heq <;>
        (rw [heq]; exact ⟨rfl, fun _ hev => (List.not_mem_nil hev).elim⟩)
  | _ => cases hfree

/-- A thread that holds nothing takes `table_lock`, or leaves the tables alone. -/
theorem ThreadStep.outside {p : Point S} (h : ThreadStep ctx p a) (hfree : p.held.mode = .free) :
    (∃ q, a = .rdlock q) ∨ (∃ q, a = .wrlock q) ∨ a.Aside := by
  cases h with
  | signal =>
      refine .inr (.inr ⟨_, rfl, fun s => ⟨?_, fun _ hev => (List.not_mem_nil hev).elim⟩⟩)
      unfold handleSignal
      split_ifs <;> rfl
  | poll =>
      exact .inr (.inr ⟨_, rfl, fun s => ⟨rfl, fun _ hev => (List.not_mem_nil hev).elim⟩⟩)
  | waitFailed | epollWait | handled | hangup | tun | udp => exact .inr (.inr (aside_goto _))
  | worker h => exact h.outside hfree
  | housekeeper h => exact h.outside hfree

end Outside

section Runs

variable {W : Type} [DecidableEq W] (ctx : LoopCtx S) (n : Node S)
  (sched : List (Thread W × Env S))

theorem consistent_threads :
    ((threads ctx).run (startThreads n, []) sched).1.Consistent Point.held := by
  refine Pool.consistent_run (disciplined ctx) (fun t => ?_) sched
  cases t <;> rfl

end Runs

end Lanecove
