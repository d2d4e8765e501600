import Lanecove.Threads.Program
import Lanecove.Safety.KeyOwnership

set_option autoImplicit false

/-! # What the locks of the threads guarantee

The comments of `src/peer.c` say which variables `table_lock` guards and which ones `hot_lock`
does. Here each place of a thread gets the variables its next step touches (`Point.touches`); that
the step touches no others is proved (`ThreadStep.keepsTo`), and so is that the guards are held
(`guarded`).

* `accesses_commute`: two threads inside `table_lock` do not disturb each other's next access.
* `lock_holder_goes_on`: a thread that waits for a lock waits for one that can go on.
-/

namespace Lanecove

variable {S : Suite}

/-! ## Variables and guards -/

/-- The fields of a session. Those that change together are one. -/
inductive SessionField where
  /-- `active`, `static_pub`, `routes`, `is_outbound`, `rekeying` and the handshake times. -/
  | member
  | addr
  /-- Both keys, and when the previous one expires. -/
  | keys
  | prevKeyActive
  | lastSeen
  | lastSent
  | sendSeq
  | recvSeq
  deriving DecidableEq

/-- What `SessionField.member` stands for. -/
structure Membership (S : Suite) where
  active : Bool
  staticPub : S.Block
  routes : List IpPrefix
  isOutbound : Bool
  lastHandshake : Int
  rekeyDeadline : Int
  rekeying : Bool

namespace SessionField

def Value (S : Suite) : SessionField → Type
  | member => Membership S
  | addr => SockAddr
  | keys => S.Block × S.Block × Int
  | prevKeyActive => Bool
  | lastSeen => Int
  | lastSent => Int
  | sendSeq => BitVec 64
  | recvSeq => ReplayState

def read : (x : SessionField) → Session S → x.Value S
  | member, s =>
      (⟨s.active, s.staticPub, s.routes, s.isOutbound, s.lastHandshake, s.rekeyDeadline,
        s.rekeying⟩ : Membership S)
  | addr, s => s.addr
  | keys, s => (s.sessionKey, s.prevSessionKey, s.prevKeyExpires)
  | prevKeyActive, s => s.prevKeyActive
  | lastSeen, s => s.lastSeen
  | lastSent, s => s.lastSent
  | sendSeq, s => s.sendSeq
  | recvSeq, s => s.recvSeq

theorem read_ext (s s' : Session S) (h : ∀ x, read x s = read x s') : s = s' := by
  have hm := Membership.mk.inj (h member)
  have ha : s.addr = s'.addr := h addr
  obtain ⟨hkey, hrest⟩ := Prod.mk.inj (h keys)
  obtain ⟨hprev, hexpires⟩ := Prod.mk.inj hrest
  have h₁ : s.prevKeyActive = s'.prevKeyActive := h prevKeyActive
  have h₂ : s.lastSeen = s'.lastSeen := h lastSeen
  have h₃ : s.lastSent = s'.lastSent := h lastSent
  have h₄ : s.sendSeq = s'.sendSeq := h sendSeq
  have h₅ : s.recvSeq = s'.recvSeq := h recvSeq
  clear h
  cases s
  cases s'
  simp_all

end SessionField

/-- What the threads share. -/
inductive SharedVar where
  | flags
  | lastCheck
  /-- `session_slots`, `peer_configs[]`, `pending_hs[]` and the precomputed key. -/
  | tables
  | field (x : SessionField) (i : Fin MAX_PEERS)

/-- What `SharedVar.tables` stands for. -/
structure Tables (S : Suite) where
  slots : Nat
  peerConfigs : List (PeerConfig S)
  pendingHs : Fin MAX_PEERS → PendingHs S
  precompEphKey : Option S.Priv

namespace SharedVar

/-- The address is looked up by threads that hold `table_lock` only, so that is its guard. -/
def guard : SharedVar → Guard (Fin MAX_PEERS)
  | flags | lastCheck | tables | field .member _ | field .addr _ => .table
  | field _ i => .mutex i

def Value (S : Suite) : SharedVar → Type
  | flags => Bool × Bool
  | lastCheck => Int
  | tables => Tables S
  | field x _ => x.Value S

def read : (x : SharedVar) → Process S → x.Value S
  | flags, s => (s.stopFlag, s.printSessionsFlag)
  | lastCheck, s => s.node.lastCheck
  | tables, s =>
      (⟨s.node.table.slots, s.node.peerConfigs, s.node.pendingHs, s.node.precompEphKey⟩ : Tables S)
  | field x i, s => x.read (s.node.table.sessions i)

/-- The variables are all there is to share. -/
theorem read_ext (s s' : Process S) (h : ∀ x, read x s = read x s') : s = s' := by
  obtain ⟨⟨cfgs, ⟨sess, slots⟩, pend, pre, last⟩, stop, print⟩ := s
  obtain ⟨⟨cfgs', ⟨sess', slots'⟩, pend', pre', last'⟩, stop', print'⟩ := s'
  obtain ⟨rfl, rfl⟩ := Prod.mk.inj (h flags)
  obtain ⟨rfl, rfl, rfl, rfl⟩ := Tables.mk.inj (h tables)
  obtain rfl : last = last' := h lastCheck
  obtain rfl : sess = sess' :=
    funext fun i => SessionField.read_ext _ _ fun x => h (field x i)
  rfl

end SharedVar

/-! ## What each step touches -/

/-- What the lookups in the session table read. -/
def lookupReads : Set SharedVar := {.tables} ∪ Set.range (SharedVar.field .member)

/-- A footprint in session `i`. -/
def Footprint.at (fp : Footprint SessionField) (i : Fin MAX_PEERS) : Footprint SharedVar :=
  ⟨(fun x => .field x i) '' fp.reads, (fun x => .field x i) '' fp.writes⟩

def Job.touches : Job S → Footprint SharedVar
  | .tunRoute _ => ⟨lookupReads, ∅⟩
  | .hsHandle _ => ⟨Set.univ, Set.univ⟩
  | .dataLookup _ => ⟨lookupReads ∪ Set.range (SharedVar.field .addr), ∅⟩
  | .markSeen i _ => Footprint.at ⟨∅, {.lastSeen}⟩ i
  | .decryptCurrent i _ => Footprint.at ⟨{.keys}, ∅⟩ i
  | .retirePrev i _ _ => Footprint.at ⟨∅, {.prevKeyActive}⟩ i
  | .decryptPrev i _ => Footprint.at ⟨{.keys, .prevKeyActive}, ∅⟩ i
  | .checkFrame i _ _ _ => Footprint.at ⟨{.keys, .member, .recvSeq}, {.recvSeq}⟩ i
  | .route _ => ⟨lookupReads, ∅⟩
  | .drawSeq i _ => Footprint.at ⟨{.sendSeq}, {.sendSeq}⟩ i
  | .encrypt i _ _ => Footprint.at ⟨{.keys, .member}, ∅⟩ i
  | .readAddr d => Footprint.at ⟨{.addr}, ∅⟩ d.slot
  | .markSent i => Footprint.at ⟨∅, {.lastSent}⟩ i
  | _ => ⟨∅, ∅⟩

def Chore.touches : Chore → Footprint SharedVar
  | .loop => ⟨{.flags}, {.flags}⟩
  | .printing _ => ⟨lookupReads, ∅⟩
  | .printAddr i _ => Footprint.at ⟨{.addr, .member}, ∅⟩ i
  | .clock => ⟨{.lastCheck}, ∅⟩
  | .begin _ => ⟨Set.univ, Set.univ⟩
  | .connect _ _ => ⟨Set.univ, Set.univ⟩
  | .resolve _ _ _ => ⟨Set.univ, Set.univ⟩
  | .initiate _ _ _ => ⟨Set.univ, Set.univ⟩
  | .finish _ => ⟨Set.univ, Set.univ⟩
  | _ => ⟨∅, ∅⟩

def Point.touches : Point S → Footprint SharedVar
  | .poll => ⟨{.flags}, ∅⟩
  | .worker _ job => job.touches
  | .housekeeper chore => chore.touches
  | _ => ⟨∅, ∅⟩

/-! ### Steps on one session -/

theorem Node.setSession_self (n : Node S) (i : Fin MAX_PEERS) :
    n.setSession i (n.table.sessions i) = n := by
  unfold Node.setSession SessionTable.set
  rw [Function.update_eq_self]

theorem read_setSession (s : Process S) (i : Fin MAX_PEERS) (y : Session S) (x : SharedVar) :
    (∃ z, x = .field z i) ∨ x.read { s with node := s.node.setSession i y } = x.read s := by
  cases x with
  | field z j =>
      by_cases hj : j = i
      · exact .inl ⟨z, by rw [hj]⟩
      · refine .inr ?_
        show z.read ((s.node.setSession i y).table.sessions j) = z.read (s.node.table.sessions j)
        rw [Node.setSession_table, SessionTable.set_sessions_ne _ _ hj]
  | _ => exact .inr rfl

/-- What keeps to a footprint in a session keeps to it in the process. -/
theorem KeepsTo.onSession {fp : Footprint SessionField}
    {f : Session S → Session S × List (Event S) × Point S}
    (h : KeepsTo SessionField.read fp f) (i : Fin MAX_PEERS) :
    (onSession i f).KeepsTo SharedVar.read (fp.at i) := by
  have hself : ∀ (s : Process S) (y : Session S),
      (s.node.setSession i y).table.sessions i = y := by
    intro s y
    rw [Node.setSession_table, SessionTable.set_sessions_self]
  have hall : ∀ {s s' : Process S}, (∀ x ∈ (fp.at i).all, x.read s' = x.read s) →
      ∀ z ∈ fp.all, z.read (s'.node.table.sessions i) = z.read (s.node.table.sessions i) := by
    intro s s' hs z hz
    refine hs (.field z i) ?_
    rcases hz with hz | hz
    · exact .inl ⟨z, hz, rfl⟩
    · exact .inr ⟨z, hz, rfl⟩
  refine ⟨fun s x hx => ?_, fun s s' hs => ?_, fun s s' hs x hx => ?_⟩
  · rcases read_setSession s i (f (s.node.table.sessions i)).1 x with ⟨z, rfl⟩ | heq
    · show z.read ((s.node.setSession i (f (s.node.table.sessions i)).1).table.sessions i) = _
      rw [hself]
      exact h.frame _ _ fun hz => hx ⟨z, hz, rfl⟩
    · exact heq
  · exact h.result _ _ (hall hs)
  · obtain ⟨z, hz, rfl⟩ := hx
    show z.read ((s'.node.setSession i _).table.sessions i)
      = z.read ((s.node.setSession i _).table.sessions i)
    rw [hself, hself]
    exact h.written _ _ (hall hs) z hz

/-- Writing a value to one field. -/
theorem keepsTo_write {z : SessionField} {g : Session S → Session S}
    {r : List (Event S) × Point S} (hframe : ∀ s x, x ≠ z → x.read (g s) = x.read s)
    (hvalue : ∀ s s', z.read (g s') = z.read (g s)) :
    KeepsTo SessionField.read ⟨∅, {z}⟩ fun s => (g s, r) where
  frame s x hx := hframe s x hx
  result _ _ _ := rfl
  written s s' _ x hx := by
    obtain rfl : x = z := hx
    exact hvalue s s'

theorem acceptFrame_frame (s : Session S) (usedPrev : Bool) (plain : List UInt8)
    (x : SessionField) (hx : x ≠ .recvSeq) :
    x.read (acceptFrame s usedPrev plain).1 = x.read s := by
  unfold acceptFrame
  split
  · rfl
  · split
    · rfl
    · split
      · rfl
      · cases x <;> first | rfl | exact absurd rfl hx

theorem acceptFrame_congr {s s' : Session S} (h : s'.recvSeq = s.recvSeq) (usedPrev : Bool)
    (plain : List UInt8) :
    (acceptFrame s' usedPrev plain).2 = (acceptFrame s usedPrev plain).2 ∧
    (acceptFrame s' usedPrev plain).1.recvSeq = (acceptFrame s usedPrev plain).1.recvSeq := by
  unfold acceptFrame
  rw [h]
  split
  · exact ⟨rfl, h⟩
  · split
    · exact ⟨rfl, h⟩
    · split
      · exact ⟨rfl, h⟩
      · exact ⟨rfl, rfl⟩

theorem keepsTo_checkPacket (todo : List Source) (i : Fin MAX_PEERS) (d : Incoming S)
    (usedPrev : Bool) (plain : List UInt8) :
    KeepsTo SessionField.read ⟨{.keys, .member, .recvSeq}, {.recvSeq}⟩
      (checkPacket todo i d usedPrev plain) := by
  have hagree : ∀ {s s' : Session S},
      (∀ x ∈ (⟨{.keys, .member, .recvSeq}, {.recvSeq}⟩ : Footprint SessionField).all,
        x.read s' = x.read s) →
      s'.recvSeq = s.recvSeq ∧ s'.sessionKey = s.sessionKey ∧
        s'.prevSessionKey = s.prevSessionKey ∧ s'.staticPub = s.staticPub := by
    intro s s' h
    obtain ⟨hkey, hrest⟩ := Prod.mk.inj (h .keys (by simp [Footprint.all]))
    have hmember := Membership.mk.inj (h .member (by simp [Footprint.all]))
    exact ⟨h .recvSeq (by simp [Footprint.all]), hkey, (Prod.mk.inj hrest).1, hmember.2.1⟩
  refine ⟨fun s x hx => acceptFrame_frame s usedPrev plain x hx, fun s s' h => ?_,
    fun s s' h x hx => ?_⟩
  · obtain ⟨hseq, hkey, hprev, hpub⟩ := hagree h
    have hreceipt : receiptOf i d usedPrev s' = receiptOf i d usedPrev s := by
      funext x
      simp only [receiptOf, hkey, hprev, hpub]
    simp only [checkPacket, (acceptFrame_congr hseq usedPrev plain).1, hreceipt]
  · obtain rfl : x = .recvSeq := hx
    exact (acceptFrame_congr (hagree h).1 usedPrev plain).2

/-! ### Lookups -/

/-- Two processes in which the lookups see the same. -/
structure SameLookups (s s' : Process S) : Prop where
  slots : s'.node.table.slots = s.node.table.slots
  active : ∀ i, (s'.node.table.sessions i).active = (s.node.table.sessions i).active
  routes : ∀ i, (s'.node.table.sessions i).routes = (s.node.table.sessions i).routes

theorem sameLookups_of_reads {s s' : Process S}
    (h : ∀ x ∈ lookupReads, x.read s' = x.read s) : SameLookups s s' := by
  have hmember : ∀ i, SessionField.read .member (s'.node.table.sessions i)
      = SessionField.read .member (s.node.table.sessions i) :=
    fun i => h (.field .member i) (.inr ⟨i, rfl⟩)
  refine ⟨(Tables.mk.inj (h .tables (.inl rfl))).1, fun i => ?_, fun i => ?_⟩
  · exact (Membership.mk.inj (hmember i)).1
  · exact (Membership.mk.inj (hmember i)).2.2.1

theorem SameLookups.routeLookup {s s' : Process S} (h : SameLookups s s') (ip : BitVec 32) :
    Lanecove.routeLookup s'.node.table ip = Lanecove.routeLookup s.node.table ip :=
  routeLookup_congr h.slots (fun i => ⟨h.active i, h.routes i⟩) ip

theorem sourceAllowed_congr {s s' : Session S} (h : s'.routes = s.routes)
    (payload : List UInt8) : sourceAllowed s' payload = sourceAllowed s payload := by
  unfold sourceAllowed checkAllowedSrc
  rw [h]

theorem relayTarget_congr {tb tb' : SessionTable S}
    (h : ∀ ip, routeLookup tb' ip = routeLookup tb ip) (i : Fin MAX_PEERS)
    (payload : List UInt8) : relayTarget tb' i payload = relayTarget tb i payload := by
  unfold relayTarget
  rw [h]

/-- An access that only looks something up. -/
theorem keepsTo_onNode {R : Set SharedVar} {f : Node S → Node S × List (Event S) × Point S}
    (hf : ∀ n, (f n).1 = n) (hresult : ∀ s s' : Process S, (∀ x ∈ R, x.read s' = x.read s) →
      (f s'.node).2 = (f s.node).2) : (onNode f).KeepsTo SharedVar.read ⟨R, ∅⟩ :=
  KeepsTo.of_reads (fun s => by rw [hf]) hresult

theorem keepsTo_goto (R : Set SharedVar) (p : Point S) :
    (goto p).KeepsTo SharedVar.read ⟨R, ∅⟩ :=
  KeepsTo.of_reads (fun _ => rfl) fun _ _ _ => rfl

theorem keepsTo_routePacket (todo : List Source) (packet : List UInt8) :
    (onNode (S := S) (routePacket todo packet)).KeepsTo SharedVar.read ⟨lookupReads, ∅⟩ := by
  refine keepsTo_onNode (fun n => ?_) fun s s' h => ?_
  · rcases routePacket_cases todo packet n with ⟨-, heq⟩ | ⟨i, -, heq⟩ <;> rw [heq]
  · unfold routePacket
    rw [(sameLookups_of_reads h).routeLookup]
    split <;> rfl

theorem keepsTo_lookupSource (todo : List Source) (d : Incoming S) :
    (onNode (lookupSource todo d)).KeepsTo SharedVar.read
      ⟨lookupReads ∪ Set.range (SharedVar.field .addr), ∅⟩ := by
  refine keepsTo_onNode (fun n => ?_) fun s s' h => ?_
  · rcases lookupSource_cases todo d n with ⟨-, heq⟩ | ⟨i, -, heq⟩ <;> rw [heq]
  · have hlook := sameLookups_of_reads fun x hx => h x (.inl hx)
    have haddr : ∀ i, (s'.node.table.sessions i).addr = (s.node.table.sessions i).addr :=
      fun i => h (.field .addr i) (.inr ⟨i, rfl⟩)
    unfold lookupSource
    rw [findSessionByAddr_congr hlook.slots (fun i => ⟨hlook.active i, haddr i⟩)]
    split <;> rfl

theorem keepsTo_routeReceipt (todo : List Source) (r : Receipt S) :
    (onNode (routeReceipt todo r)).KeepsTo SharedVar.read ⟨lookupReads, ∅⟩ := by
  refine keepsTo_onNode (fun n => ?_) fun s s' h => ?_
  · rcases routeReceipt_cases todo r n with ⟨-, heq⟩ | ⟨-, ⟨-, heq⟩ | ⟨f, -, heq⟩⟩ <;> rw [heq]
  · have hlook := sameLookups_of_reads h
    unfold routeReceipt
    rw [sourceAllowed_congr (hlook.routes r.slot), relayTarget_congr hlook.routeLookup]
    split_ifs
    · rfl
    · split <;> rfl
    · rfl

theorem keepsTo_printSlot (i : Fin MAX_PEERS) (todo : List (Fin MAX_PEERS)) :
    (onNode (S := S) (printSlot i todo)).KeepsTo SharedVar.read ⟨lookupReads, ∅⟩ := by
  refine keepsTo_onNode (fun n => ?_) fun s s' h => ?_
  · rcases printSlot_cases i todo n with heq | heq <;> rw [heq]
  · have hlook := sameLookups_of_reads h
    unfold printSlot
    rw [hlook.slots, hlook.active]
    split_ifs <;> rfl

/-! ### All steps -/

section KeepsTo

variable {ctx : LoopCtx S} {a : Act S}

theorem JobStep.keepsTo {todo : List Source} {job : Job S} (h : JobStep ctx todo job a) :
    a.KeepsTo SharedVar.read job.touches := by
  cases h with
  | readFailed | notIpv4 | recvFailed => exact keepsTo_goto ..
  | readTun | recvHandshake | recvData => exact keepsTo_goto ..
  | sendFailed => exact keepsTo_goto ..
  | tunRdlock | dataRdlock | hsWrlock => trivial
  | hsUnlock | tunUnlock | rdUnlock => trivial
  | hotLock | fwdLock | sentLock => trivial
  | hotUnlockNone | hotUnlockSome | encryptFailed | fwdUnlock | sentUnlock => trivial
  | tunWrite | sendto => exact KeepsTo.of_reads (fun _ => rfl) fun _ _ _ => rfl
  | hsHandle => exact KeepsTo.of_all SharedVar.read_ext _
  | tunRoute => exact keepsTo_routePacket ..
  | dataLookup => exact keepsTo_lookupSource ..
  | route => exact keepsTo_routeReceipt ..
  | checkFrame => exact (keepsTo_checkPacket ..).onSession _
  | markSeen =>
      refine (keepsTo_write (fun s x hx => ?_) fun s s' => rfl).onSession _
      cases x <;> first | rfl | exact absurd rfl hx
  | retirePrev =>
      refine (keepsTo_write (fun s x hx => ?_) fun s s' => rfl).onSession _
      cases x <;> first | rfl | exact absurd rfl hx
  | markSent =>
      refine (keepsTo_write (fun s x hx => ?_) fun s s' => rfl).onSession _
      cases x <;> first | rfl | exact absurd rfl hx
  | @decryptCurrent i d =>
      refine KeepsTo.onSession (KeepsTo.of_reads (fun s => ?_) fun s s' h => ?_) _
      · rcases openCurrent_cases todo i d s with ⟨-, heq⟩ | ⟨plain, -, heq⟩ <;> rw [heq]
      · have hkey : s'.sessionKey = s.sessionKey := (Prod.mk.inj (h .keys rfl)).1
        unfold openCurrent
        rw [hkey]
        split <;> rfl
  | @decryptPrev i d =>
      refine KeepsTo.onSession (KeepsTo.of_reads (fun s => ?_) fun s s' h => ?_) _
      · rcases openPrev_cases todo i d s with ⟨-, heq⟩ | ⟨plain, -, -, heq⟩ <;> rw [heq]
      · obtain ⟨-, hrest⟩ := Prod.mk.inj (h .keys (.inl rfl))
        obtain ⟨hprev, hexpires⟩ := Prod.mk.inj hrest
        have hactive : s'.prevKeyActive = s.prevKeyActive := h .prevKeyActive (.inr rfl)
        unfold openPrev
        rw [hprev, hexpires, hactive]
        split_ifs
        · split <;> rfl
        · rfl
  | drawSeq =>
      refine KeepsTo.onSession ⟨fun s x hx => ?_, fun s s' h => ?_, fun s s' h x hx => ?_⟩ _
      · cases x <;> first | rfl | exact absurd rfl hx
      · have hseq : s'.sendSeq = s.sendSeq := h .sendSeq (.inl rfl)
        unfold takeSeq
        rw [hseq]
      · obtain rfl : x = .sendSeq := hx
        have hseq : s'.sendSeq = s.sendSeq := h .sendSeq (.inl rfl)
        exact congrArg (· + 1) hseq
  | @encrypt _ _ _ iv =>
      refine KeepsTo.onSession (KeepsTo.of_reads (fun s => ?_) fun s s' h => ?_) _
      · cases iv <;> rfl
      · have hkey : s'.sessionKey = s.sessionKey := (Prod.mk.inj (h .keys (.inl rfl))).1
        have hpub : s'.staticPub = s.staticPub :=
          (Membership.mk.inj (h .member (.inr rfl))).2.1
        cases iv with
        | none => rfl
        | some iv => simp only [sealFrame, hkey, hpub]
  | readAddr =>
      refine KeepsTo.onSession (KeepsTo.of_reads (fun s => rfl) fun s s' h => ?_) _
      have haddr : s'.addr = s.addr := h .addr rfl
      unfold copyAddr
      rw [haddr]

theorem ChoreStep.keepsTo {chore : Chore} (h : ChoreStep ctx chore a) :
    a.KeepsTo SharedVar.read chore.touches := by
  cases h with
  | printed => exact keepsTo_goto ..
  | printAddr =>
      show Action.KeepsTo _ (Footprint.at ⟨_, ∅⟩ _) _
      rw [Footprint.at, Set.image_empty]
      exact keepsTo_goto ..
  | printRdlock | passWrlock | printLock | printUnlock => trivial
  | printRdunlock | passUnlock => trivial
  | printing => exact keepsTo_printSlot ..
  | begin | connect | resolve | initiate | finish => exact KeepsTo.of_all SharedVar.read_ext _
  | @clock now =>
      refine keepsTo_onNode (fun n => ?_) fun s s' h => ?_
      · rcases checkClock_cases now n with ⟨-, heq⟩ | heq <;> rw [heq]
      · have hlast : s'.node.lastCheck = s.node.lastCheck := h .lastCheck rfl
        unfold checkClock
        rw [hlast]
        split_ifs <;> rfl
  | loop =>
      have hframe : ∀ s : Process S, (checkFlags s).1.node = s.node := by
        intro s
        rcases checkFlags_cases s with ⟨-, heq⟩ | ⟨-, -, heq⟩ | ⟨-, heq⟩ <;> rw [heq]
      have hflags : ∀ s s' : Process S,
          (∀ x ∈ (⟨{.flags}, {.flags}⟩ : Footprint SharedVar).all, x.read s' = x.read s) →
          (checkFlags s').2 = (checkFlags s).2 ∧
          SharedVar.read .flags (checkFlags s').1 = SharedVar.read .flags (checkFlags s).1 := by
        intro s s' h
        obtain ⟨hstop, hprint⟩ := Prod.mk.inj (h .flags (.inl rfl))
        unfold checkFlags
        rw [hstop, hprint]
        split_ifs
        · exact ⟨rfl, h .flags (.inl rfl)⟩
        · exact ⟨rfl, rfl⟩
        · exact ⟨rfl, h .flags (.inl rfl)⟩
      refine ⟨fun s x hx => ?_, fun s s' h => (hflags s s' h).1, fun s s' h x hx => ?_⟩
      · cases x with
        | flags => exact absurd rfl hx
        | _ =>
            simp only [SharedVar.read, hframe]
            rfl
      · obtain rfl : x = .flags := hx
        exact (hflags s s' h).2

/-- **The footprints are right**: inside `table_lock`, and away from signals, a step changes nothing
but what its place writes, and depends on nothing but what its place touches. -/
theorem action_keepsTo {p : Point S} {e : Env S} (hsig : ∀ sig, e ≠ .signal sig)
    (hin : p.held.mode ≠ .free) (h : action ctx p e = some a) :
    a.KeepsTo SharedVar.read p.touches := by
  cases p with
  | worker todo job =>
      cases e with
      | signal sig => exact absurd rfl (hsig sig)
      | _ => exact (jobAction_cases h).keepsTo
  | housekeeper chore =>
      cases e with
      | signal sig => exact absurd rfl (hsig sig)
      | _ => exact (choreAction_cases h).keepsTo
  | _ => exact absurd rfl hin

end KeepsTo

/-! ## The guards are held -/

theorem Guard.writable_of_write {h : Held (Fin MAX_PEERS)} (hw : h.mode = .write)
    (g : Guard (Fin MAX_PEERS)) : g.Writable h := by
  cases g with
  | table => exact hw
  | mutex l => exact .inr hw

/-- What may be done with the variables of a footprint. -/
structure Footprint.Permitted (fp : Footprint SharedVar) (h : Held (Fin MAX_PEERS)) : Prop where
  reads : ∀ x ∈ fp.reads, x.guard.Readable h
  writes : ∀ x ∈ fp.writes, x.guard.Writable h

theorem permitted_empty (h : Held (Fin MAX_PEERS)) : Footprint.Permitted ⟨∅, ∅⟩ h :=
  ⟨fun _ hx => (Set.notMem_empty _ hx).elim, fun _ hx => (Set.notMem_empty _ hx).elim⟩

theorem permitted_all {h : Held (Fin MAX_PEERS)} (hw : h.mode = .write) (fp : Footprint SharedVar) :
    fp.Permitted h :=
  ⟨fun x _ => (x.guard.writable_of_write hw).readable, fun x _ => x.guard.writable_of_write hw⟩

theorem permitted_lookup {h : Held (Fin MAX_PEERS)} (hin : h.mode ≠ .free) {R : Set SharedVar}
    (hR : ∀ x ∈ R, x.guard = .table) : Footprint.Permitted ⟨R, ∅⟩ h := by
  refine ⟨fun x hx => ?_, fun _ hx => (Set.notMem_empty _ hx).elim⟩
  rw [hR x hx]
  exact hin

theorem guard_lookupReads {x : SharedVar} (hx : x ∈ lookupReads) : x.guard = .table := by
  rcases hx with rfl | ⟨i, rfl⟩ <;> rfl

/-- The owner of `hot_lock` may use the fields of its session, and write those it guards. -/
theorem permitted_at {i : Fin MAX_PEERS} {fp : Footprint SessionField}
    (hw : ∀ x ∈ fp.writes, (SharedVar.field x i).guard = .mutex i) :
    (fp.at i).Permitted ⟨.read, some i⟩ := by
  refine ⟨?_, ?_⟩
  · rintro _ ⟨x, -, rfl⟩
    cases x with
    | member | addr =>
        intro hfree
        cases hfree
    | _ => exact .inl rfl
  · rintro _ ⟨x, hx, rfl⟩
    dsimp only
    rw [hw x hx]
    exact .inl rfl

theorem Job.permitted (job : Job S) (hin : job.held.mode ≠ .free) :
    job.touches.Permitted job.held := by
  cases job with
  | tunRoute | route => exact permitted_lookup hin fun _ => guard_lookupReads
  | dataLookup =>
      refine permitted_lookup hin ?_
      rintro x (hx | ⟨i, rfl⟩)
      · exact guard_lookupReads hx
      · rfl
  | hsHandle => exact permitted_all rfl _
  | decryptCurrent | decryptPrev | encrypt | readAddr =>
      exact permitted_at fun _ hx => (Set.notMem_empty _ hx).elim
  | markSeen | retirePrev | checkFrame | drawSeq | markSent =>
      refine permitted_at ?_
      rintro _ rfl
      rfl
  | _ => exact permitted_empty _

theorem Chore.permitted (chore : Chore) (hin : chore.held.mode ≠ .free) :
    chore.touches.Permitted chore.held := by
  cases chore with
  | loop | clock => exact absurd rfl hin
  | printing => exact permitted_lookup hin fun _ => guard_lookupReads
  | printAddr => exact permitted_at fun _ hx => (Set.notMem_empty _ hx).elim
  | begin | connect | resolve | initiate | finish => exact permitted_all rfl _
  | _ => exact permitted_empty _

theorem guarded : Guarded (Point.held (S := S)) SharedVar.guard Point.touches := by
  have hall : ∀ p : Point S, p.held.mode ≠ .free → p.touches.Permitted p.held := by
    intro p hin
    cases p with
    | worker todo job => exact job.permitted hin
    | housekeeper chore => exact chore.permitted hin
    | _ => exact absurd rfl hin
  exact ⟨fun p hin => (hall p hin).reads, fun p hin => (hall p hin).writes⟩

/-! ## Results -/

section Results

variable {W : Type} [DecidableEq W] {ctx : LoopCtx S} {n : Node S} {c : Threads S W}

/-- The threads of a node that started as `n` can get to `c`, in some interleaving. -/
def ThreadsReach (ctx : LoopCtx S) (n : Node S) (c : Threads S W) : Prop :=
  ∃ sched, ((threads ctx).run (startThreads n, []) sched).1 = c

theorem ThreadsReach.consistent (hc : ThreadsReach ctx n c) : c.Consistent Point.held := by
  obtain ⟨sched, rfl⟩ := hc
  exact consistent_threads ctx n sched

theorem ThreadsReach.run (hc : ThreadsReach ctx n c) (sched : List (Thread W × Env S)) :
    ThreadsReach ctx n ((threads ctx).run (c, []) sched).1 := by
  obtain ⟨sched₀, rfl⟩ := hc
  refine ⟨sched₀ ++ sched, ?_⟩
  rw [Machine.run_append]
  exact (congrArg Prod.fst ((threads ctx).run_trace _ _ sched) :)

/-- Two threads that hold `table_lock` do not disturb each other: whichever makes its next access
first, both find what they would have found alone, and the tables end up the same. -/
theorem accesses_commute (hc : ThreadsReach ctx n c) {t u : Thread W} (hne : u ≠ t)
    {e e' : Env S} (he : ∀ sig, e ≠ .signal sig) (he' : ∀ sig, e' ≠ .signal sig)
    {inner inner' : List (Fin MAX_PEERS)}
    {f g : Process S → Process S × List (Event S) × Point S}
    (ht : (c.place t).held.mode ≠ .free) (hu : (c.place u).held.mode ≠ .free)
    (hf : action ctx (c.place t) e = some (.work inner f))
    (hg : action ctx (c.place u) e' = some (.work inner' g)) : Independent f g c.shared := by
  have hcons := hc.consistent
  exact independent_of_footprints SharedVar.read_ext (action_keepsTo he ht hf)
    (action_keepsTo he' hu hg) (fun x hx => no_race guarded hcons hne ht hu hx)
    (fun x hx => no_race guarded hcons hne.symm hu ht hx) c.shared

/-- A node with one session, which all packets are routed to. -/
def routedNode : Node symbolic :=
  { Node.init [endpointOf 2] none with
    table := ⟨fun _ => { Session.zero symbolic with active := true, routes := [⟨0, 0, 0⟩] }, 1⟩ }

/-- A worker forwards an IPv4 packet from the TUN device, up to the sequence number. -/
def tunArrival : List (Thread Bool × Env symbolic) :=
  [.go, .ready [.tun], .go, .packet (0x45 :: List.replicate 19 0), .go, .go, .go].map
    (.worker false, ·)

/-- The other worker receives a datagram, up to where it takes `table_lock`. -/
def udpArrival (pkt : Msg) : List (Thread Bool × Env symbolic) :=
  [.go, .ready [.udp], .go, .datagram .zero pkt 100].map (.worker true, ·)

/-- One worker is about to draw a sequence number, the other one to look up a source. -/
def drawAndLookup : Threads symbolic Bool :=
  ((threads (ctxOf 1)).run (startThreads routedNode, [])
    (tunArrival ++ udpArrival (dataOf (Msg.pub 7) 1 [7]) ++ [(.worker true, .go)])).1

theorem accesses_commute_drawAndLookup : ∃ f g,
    action (ctxOf 1) (drawAndLookup.place (.worker false)) .go = some (.work [] f) ∧
    action (ctxOf 1) (drawAndLookup.place (.worker true)) .go = some (.work [] g) ∧
    (f drawAndLookup.shared).1.node ≠ drawAndLookup.shared.node ∧
    Independent f g drawAndLookup.shared := by
  have hgo : ∀ sig, (.go : Env symbolic) ≠ .signal sig := fun _ heq => by cases heq
  refine ⟨_, _, rfl, rfl, fun heq => ?_, accesses_commute ⟨_, rfl⟩ (t := .worker false)
    (u := .worker true) (by decide) hgo hgo (by decide) (by decide) rfl rfl⟩
  have hseq := congrArg (fun n : Node symbolic => (n.table.sessions ⟨0, by decide⟩).sendSeq) heq
  exact absurd hseq (by decide)

/-- A thread that has not ended waits for nothing but locks and the answers of the environment. -/
theorem exists_action (ctx : LoopCtx S) {p : Point S} (hp : p ≠ .done) :
    ∃ e a, (∀ sig, e ≠ .signal sig) ∧ action ctx p e = some a := by
  have hgo : ∀ {a : Act S}, action ctx p .go = some a →
      ∃ e a, (∀ sig, e ≠ .signal sig) ∧ action ctx p e = some a :=
    fun h => ⟨.go, _, (fun _ heq => by cases heq), h⟩
  have hgive : ∀ (e : Env S) (a : Act S), (∀ sig, e ≠ .signal sig) → action ctx p e = some a →
      ∃ e a, (∀ sig, e ≠ .signal sig) ∧ action ctx p e = some a :=
    fun e a he h => ⟨e, a, he, h⟩
  cases p with
  | worker todo job =>
      cases job with
      | readTun | recvfrom => exact hgive .failed _ (fun _ heq => by cases heq) rfl
      | tunWrite => exact hgive (.sent true) _ (fun _ heq => by cases heq) rfl
      | hsHandle =>
          exact hgive (.handshake 0 none false) _ (fun _ heq => by cases heq) rfl
      | encrypt => exact hgive (.iv none) _ (fun _ heq => by cases heq) rfl
      | sendto => exact hgive (.sent false) _ (fun _ heq => by cases heq) rfl
      | markSent => exact hgive (.time 0) _ (fun _ heq => by cases heq) rfl
      | hotUnlock i r => cases r <;> exact hgo rfl
      | _ => exact hgo rfl
  | housekeeper chore =>
      cases chore with
      | clock => exact hgive (.time 0) _ (fun _ heq => by cases heq) rfl
      | resolve => exact hgive (.resolved none) _ (fun _ heq => by cases heq) rfl
      | initiate => exact hgive (.initiation 0 0 none false) _ (fun _ heq => by cases heq) rfl
      | finish =>
          exact hgive (.keepalives (fun _ => none) (fun _ => false) fun _ => 0) _
            (fun _ heq => by cases heq) rfl
      | printing todo => cases todo <;> exact hgo rfl
      | _ => exact hgo rfl
  | poll => exact hgo rfl
  | epollWait => exact hgive .failed _ (fun _ heq => by cases heq) rfl
  | events todo =>
      cases todo with
      | nil => exact hgo rfl
      | cons fd todo => exact hgive .failed _ (fun _ heq => by cases heq) rfl
  | done => exact absurd rfl hp

/-- A thread that has not ended and does not wait for a lock can make its next step. -/
theorem exists_move {t : Thread W} (ht : c.place t ≠ .done)
    (hfree : ¬ Pool.Blocked (action ctx) c t) :
    ∃ e r, (∀ sig, e ≠ .signal sig) ∧ c.move (action ctx) t e = some r := by
  obtain ⟨e, a, he, ha⟩ := exists_action ctx ht
  cases hr : c.perform t a with
  | none => exact absurd ⟨e, a, ha, hr⟩ hfree
  | some r => exact ⟨e, r, he, by rw [Pool.move, ha, Option.bind_some, hr]⟩

/-- No deadlock: when a thread has to wait for a lock, some thread that holds `table_lock` can make
its next step. -/
theorem lock_holder_goes_on (hc : ThreadsReach ctx n c) {t : Thread W}
    (ht : Pool.Blocked (action ctx) c t) :
    ∃ u e r, (c.place u).held.mode ≠ .free ∧ (∀ sig, e ≠ .signal sig) ∧
      c.move (action ctx) u e = some r := by
  obtain ⟨u, hin, hfree⟩ := Pool.exists_runnable (disciplined ctx) hc.consistent ht
  obtain ⟨e, r, he, hr⟩ := exists_move (fun hdone => hin (by rw [hdone]; rfl)) hfree
  exact ⟨u, e, r, hin, he, hr⟩

/-- One worker holds `table_lock` for reading, the other one has a handshake packet. -/
def handshakeWaits : Threads symbolic Bool :=
  ((threads (ctxOf 1)).run (startThreads routedNode, [])
    (tunArrival ++ udpArrival (initiationOf 2 1 11))).1

theorem lock_holder_goes_on_handshakeWaits :
    Pool.Blocked (action (ctxOf 1)) handshakeWaits (.worker true) ∧
    ∃ u e r, (handshakeWaits.place u).held.mode ≠ .free ∧ (∀ sig, e ≠ .signal sig) ∧
      handshakeWaits.move (action (ctxOf 1)) u e = some r := by
  have hblocked : Pool.Blocked (action (ctxOf 1)) handshakeWaits (.worker true) :=
    ⟨.go, _, rfl, rfl⟩
  exact ⟨hblocked, lock_holder_goes_on ⟨_, rfl⟩ hblocked⟩

end Results

end Lanecove
