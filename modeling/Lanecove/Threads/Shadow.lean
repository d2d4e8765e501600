import Lanecove.Threads.Sections

set_option autoImplicit false

/-! # The tables without the branches under way

A datagram takes effect when it is accepted, a packet from the TUN device when it is routed. From
there on the worker owes `forward_to_peer`, which other workers may overtake; all of it that the
tables show is a counter and a time.

`Point.Half`, `Point.owes` and `Point.Knows` say what a place means for the branch under way. A
`Ghost` records what the tables do not show, and `Backed` says that the tables it stands for are
those after some branches that ran one after the other.
-/

namespace Lanecove

variable {S : Suite}

/-! ## What a place stands for -/

/-- A place of the housekeeping thread. -/
def Point.isChore : Point S → Bool
  | .housekeeper _ => true
  | _ => false

/-- A data packet from the address of the session in slot `i`. -/
def Incoming.From (ctx : LoopCtx S) (m : Node S) (i : Fin MAX_PEERS) (d : Incoming S) : Prop :=
  isHandshake ctx d.pkt = false ∧ findSessionByAddr m.table d.src = some i

/-- How far the worker that holds `hot_lock` of a session has come with it: the session before its
branch, and now. -/
def Job.Half : Job S → Session S → Session S → Prop
  | .decryptCurrent _ d, s, s' => s' = { s with lastSeen := d.now }
  | .retirePrev _ d plain, s, s' =>
      s' = { s with lastSeen := d.now } ∧ S.decryptPacket s.sessionKey d.pkt = some plain
  | .decryptPrev _ d, s, s' =>
      s' = { s with lastSeen := d.now } ∧ S.decryptPacket s.sessionKey d.pkt = none
  | .checkFrame _ d usedPrev plain, s, s' =>
      decryptSession s d.pkt d.now = (s', some (usedPrev, plain))
  | _, s, s' => s' = s

/-- The session that a worker still has to draw a sequence number of, for a branch that counts as
done. -/
def Job.owes (tb : SessionTable S) : Job S → Option (Fin MAX_PEERS)
  | .hotUnlock _ (some r) => r.target tb
  | .route r => r.target tb
  | .fwdLock i _ => some i
  | .drawSeq i _ => some i
  | _ => none

/-- What a worker has found out. `touched` are the sessions that may have been sent on since
`table_lock` was last held for writing. -/
def Job.Knows (ctx : LoopCtx S) (m : Node S) (touched : Set (Fin MAX_PEERS)) : Job S → Prop
  | .tunRdlock packet => isIpv4 packet = true
  | .tunRoute packet => isIpv4 packet = true
  | .hsWrlock d => isHandshake ctx d.pkt = true
  | .hsHandle d => isHandshake ctx d.pkt = true
  | .dataRdlock d => isHandshake ctx d.pkt = false
  | .dataLookup d => isHandshake ctx d.pkt = false
  | .hotLock i d => d.From ctx m i
  | .markSeen i d => d.From ctx m i
  | .decryptCurrent i d => d.From ctx m i
  | .retirePrev i d _ => d.From ctx m i
  | .decryptPrev i d => d.From ctx m i
  | .checkFrame i d _ _ => d.From ctx m i
  | .hotUnlock _ (some r) => ∀ f, r.target m.table = some f → Nonempty S.Iv → f ∈ touched
  | .route r => ∀ f, r.target m.table = some f → Nonempty S.Iv → f ∈ touched
  | .fwdLock i _ => Nonempty S.Iv → i ∈ touched
  | .drawSeq i _ => Nonempty S.Iv → i ∈ touched
  | .encrypt i _ _ => Nonempty S.Iv → i ∈ touched
  | .readAddr d => d.slot ∈ touched
  | .fwdUnlock d => d.slot ∈ touched
  | .sendto d => d.slot ∈ touched
  | .sentLock i => i ∈ touched
  | .markSent i => i ∈ touched
  | _ => True

def Point.Half : Point S → Session S → Session S → Prop
  | .worker _ job => job.Half
  | _ => fun s s' => s' = s

def Point.owes (tb : SessionTable S) : Point S → Option (Fin MAX_PEERS)
  | .worker _ job => job.owes tb
  | _ => none

def Point.Knows (ctx : LoopCtx S) (m : Node S) (touched : Set (Fin MAX_PEERS)) : Point S → Prop
  | .worker _ job => job.Knows ctx m touched
  -- `last_check` is not changed by the workers
  | .housekeeper (.passWrlock now) => 10 ≤ now - m.lastCheck
  | _ => True

section Places

variable {ctx : LoopCtx S} {m m' : Node S} {touched touched' : Set (Fin MAX_PEERS)}

theorem decryptSession_cold (s : Session S) (pkt : S.Wire) (now : Int) :
    (decryptSession s pkt now).1.cold = s.cold := by
  unfold decryptSession
  split
  · rfl
  · split_ifs <;> rfl

theorem acceptFrame_cold (s : Session S) (usedPrev : Bool) (plain : List UInt8) :
    (acceptFrame s usedPrev plain).1.cold = s.cold := by
  unfold acceptFrame
  split
  · rfl
  · split_ifs
    · rfl
    · split <;> rfl

theorem Point.Half.cold {p : Point S} {s s' : Session S} (h : p.Half s s') : s'.cold = s.cold := by
  cases p with
  | worker todo job =>
      cases job with
      | decryptCurrent i d => rw [show s' = { s with lastSeen := d.now } from h]; rfl
      | retirePrev i d plain => rw [h.1]; rfl
      | decryptPrev i d => rw [h.1]; rfl
      | checkFrame i d usedPrev plain =>
          have hcold := decryptSession_cold s d.pkt d.now
          rw [show decryptSession s d.pkt d.now = (s', some (usedPrev, plain)) from h] at hcold
          exact hcold
      | _ => rw [show s' = s from h]
  | _ => rw [show s' = s from h]

theorem Point.owes_cold (p : Point S) (m : Node S) : p.owes m.cold.table = p.owes m.table := by
  cases p with
  | worker todo job =>
      cases job with
      | hotUnlock i r => cases r <;> rfl
      | _ => rfl
  | _ => rfl

theorem Point.owes_of_cold (h : m'.cold = m.cold) (p : Point S) :
    p.owes m'.table = p.owes m.table := by
  rw [← p.owes_cold, h, p.owes_cold]

theorem Point.Knows.mono {p : Point S} (h : p.Knows ctx m touched) (hsub : touched ⊆ touched') :
    p.Knows ctx m touched' := by
  cases p with
  | worker todo job =>
      cases job with
      | hotUnlock i r =>
          cases r with
          | none => trivial
          | some r => exact fun f hf hiv => hsub (h f hf hiv)
      | route r => exact fun f hf hiv => hsub (h f hf hiv)
      | fwdLock | drawSeq | encrypt => exact fun hiv => hsub (h hiv)
      | readAddr | fwdUnlock | sendto | sentLock | markSent => exact hsub h
      | _ => exact h
  | housekeeper chore => cases chore <;> exact h
  | _ => exact h

/-- Outside the locks a thread knows nothing of the tables but `last_check`. -/
theorem Point.Knows.outside {p : Point S} (h : p.Knows ctx m touched)
    (hfree : p.held.mode = .free) (hlast : p.isChore = true → m'.lastCheck = m.lastCheck) :
    p.Knows ctx m' touched' := by
  cases p with
  | worker todo job =>
      cases job <;> first | cases hfree; done | exact h
  | housekeeper chore =>
      cases chore with
      | passWrlock now =>
          show 10 ≤ now - m'.lastCheck
          rw [hlast rfl]
          exact h
      | _ => trivial
  | _ => trivial

theorem Point.owes_outside {p : Point S} (hfree : p.held.mode = .free) (tb : SessionTable S) :
    p.owes tb = none := by
  cases p with
  | worker todo job => cases job <;> first | cases hfree; done | rfl
  | _ => rfl

theorem Point.half_outside {p : Point S} (hfree : p.held.mode = .free) (s s' : Session S) :
    p.Half s s' ↔ s' = s := by
  cases p with
  | worker todo job => cases job <;> first | cases hfree; done | exact Iff.rfl
  | _ => exact Iff.rfl

/-- What a thread finds out outside the locks. -/
theorem ThreadStep.knows_aside {p : Point S} {inner : List (Fin MAX_PEERS)}
    {f : Process S → Process S × List (Event S) × Point S}
    (h : ThreadStep ctx p (.work inner f)) (hfree : p.held.mode = .free) (s : Process S)
    (hknows : p.Knows ctx s.node.cold touched) (touched' : Set (Fin MAX_PEERS)) :
    (f s).2.2.Knows ctx s.node.cold touched' := by
  have hfits := h.fits
  have hafter := hfits.1 s
  generalize ha : (Action.work inner f : Act S) = a at h
  cases h with
  | signal =>
      cases ha
      exact hknows.outside hfree fun _ => rfl
  | poll =>
      cases ha
      dsimp only
      split_ifs <;> trivial
  | waitFailed | epollWait | handled | hangup | tun | udp =>
      cases ha
      trivial
  | worker h =>
      cases h with
      | readFailed | notIpv4 | recvFailed | tunWrite =>
          cases ha
          trivial
      | readTun hip =>
          cases ha
          exact hip
      | recvHandshake hd | recvData hd =>
          cases ha
          exact hd
      | tunRdlock | dataRdlock | hsWrlock => cases ha
      | _ => cases hfree
  | housekeeper h =>
      cases h with
      | loop =>
          cases ha
          rcases checkFlags_cases s with ⟨-, heq⟩ | ⟨-, -, heq⟩ | ⟨-, heq⟩ <;>
            (rw [heq]; trivial)
      | @clock now =>
          cases ha
          dsimp only
          rcases checkClock_cases now s.node with ⟨hdue, heq⟩ | heq
          · rw [heq]
            exact hdue
          · rw [heq]
            trivial
      | printRdlock | passWrlock => cases ha
      | _ => cases hfree

/-- Without `table_lock` held for writing a thread leaves alone what the data path leaves alone. -/
theorem ThreadStep.cold {p : Point S} {inner : List (Fin MAX_PEERS)}
    {f : Process S → Process S × List (Event S) × Point S} (h : ThreadStep ctx p (.work inner f))
    (hmode : p.held.mode ≠ .write) (s : Process S) : (f s).1.node.cold = s.node.cold := by
  generalize ha : (Action.work inner f : Act S) = a at h
  cases h with
  | @signal _ sig =>
      cases ha
      show (handleSignal sig s).node.cold = _
      unfold handleSignal
      split <;> rfl
  | poll | waitFailed | epollWait | handled | hangup | tun | udp => cases ha; rfl
  | @worker todo job _ h =>
      cases h with
      | hsHandle => exact absurd rfl hmode
      | readFailed | notIpv4 | recvFailed | readTun | recvHandshake | recvData | sendFailed
        | sendto | tunWrite => cases ha; rfl
      | @tunRoute packet =>
          cases ha
          show (routePacket todo packet s.node).1.cold = _
          rcases routePacket_cases todo packet s.node with ⟨-, heq⟩ | ⟨i, -, heq⟩ <;> rw [heq]
      | @dataLookup d =>
          cases ha
          show (lookupSource todo d s.node).1.cold = _
          rcases lookupSource_cases todo d s.node with ⟨-, heq⟩ | ⟨i, -, heq⟩ <;> rw [heq]
      | @route r =>
          cases ha
          show (routeReceipt todo r s.node).1.cold = _
          rcases routeReceipt_cases todo r s.node with
            ⟨-, heq⟩ | ⟨-, ⟨-, heq⟩ | ⟨f, -, heq⟩⟩ <;> rw [heq]
      | markSeen | retirePrev | drawSeq | readAddr | markSent => cases ha; exact cold_setSession rfl
      | @decryptCurrent i d =>
          cases ha
          refine cold_setSession ?_
          rcases openCurrent_cases todo i d (s.node.table.sessions i) with
            ⟨-, heq⟩ | ⟨plain, -, heq⟩ <;> rw [heq]
      | @decryptPrev i d =>
          cases ha
          refine cold_setSession ?_
          rcases openPrev_cases todo i d (s.node.table.sessions i) with
            ⟨-, heq⟩ | ⟨plain, -, -, heq⟩ <;> rw [heq]
      | @encrypt i payload seq iv =>
          cases ha
          refine cold_setSession ?_
          cases iv <;> rfl
      | checkFrame => cases ha; exact cold_setSession (acceptFrame_cold ..)
      | _ => cases ha
  | housekeeper h =>
      cases h with
      | loop =>
          cases ha
          rcases checkFlags_cases s with ⟨-, heq⟩ | ⟨-, -, heq⟩ | ⟨-, heq⟩ <;> rw [heq]
      | printed | printAddr => cases ha; rfl
      | @printing i rest =>
          cases ha
          show (printSlot i rest s.node).1.cold = _
          rcases printSlot_cases i rest s.node with heq | heq <;> rw [heq]
      | @clock now =>
          cases ha
          show (checkClock now s.node).1.cold = _
          rcases checkClock_cases now s.node with ⟨-, heq⟩ | heq <;> rw [heq]
      | begin | connect | resolve | initiate | finish => exact absurd rfl hmode
      | _ => cases ha

end Places

/-! ## The tables after the branches so far -/

variable {W : Type} [DecidableEq W]

/-- What the tables do not show: each session without the branch that is under way on it, the
workers that owe a sequence number, and the sessions that may have been sent on. -/
structure Ghost (S : Suite) (W : Type) where
  base : Fin MAX_PEERS → Session S
  debt : Fin MAX_PEERS → Finset (Thread W)
  touched : Set (Fin MAX_PEERS)

namespace Ghost

variable (g : Ghost S W) (m : Node S) (stamp : Fin MAX_PEERS → Int)

def owed (i : Fin MAX_PEERS) : BitVec 64 := BitVec.ofNat 64 (g.debt i).card

/-- A session after the branches so far, last sent on at `stamp`. -/
def session (i : Fin MAX_PEERS) : Session S :=
  (g.base i).sending ((g.base i).sendSeq + g.owed i) (stamp i)

/-- The tables after the branches so far. -/
def node : Node S := { m with table := ⟨g.session stamp, m.table.slots⟩ }

/-- The session in slot `i` changes. -/
def rebase (i : Fin MAX_PEERS) (s : Session S) : Ghost S W :=
  { g with base := Function.update g.base i s }

/-- A branch counts as done that thread `t` has yet to forward to slot `f`. -/
def pledge (t : Thread W) (f : Fin MAX_PEERS) : Ghost S W :=
  { g with
    debt := Function.update g.debt f (insert t (g.debt f))
    touched := g.touched ∪ {i | i = f ∧ Nonempty S.Iv} }

/-- The thread draws its sequence number. -/
def settle (t : Thread W) (i : Fin MAX_PEERS) : Ghost S W :=
  { g.rebase i { g.base i with sendSeq := (g.base i).sendSeq + 1 } with
    debt := Function.update g.debt i ((g.debt i).erase t) }

section Updates

variable {g} {t : Thread W} {i j f : Fin MAX_PEERS} {s : Session S}

omit [DecidableEq W] in
@[simp] theorem rebase_base_self : (g.rebase i s).base i = s := Function.update_self ..

omit [DecidableEq W] in
theorem rebase_base_ne (hj : j ≠ i) : (g.rebase i s).base j = g.base j :=
  Function.update_of_ne hj ..

omit [DecidableEq W] in
@[simp] theorem rebase_owed : (g.rebase i s).owed j = g.owed j := rfl

@[simp] theorem pledge_base : (g.pledge t f).base = g.base := rfl

@[simp] theorem pledge_debt_self : (g.pledge t f).debt f = insert t (g.debt f) :=
  Function.update_self ..

theorem pledge_debt_ne (hi : i ≠ f) : (g.pledge t f).debt i = g.debt i :=
  Function.update_of_ne hi ..

@[simp] theorem settle_base_self :
    (g.settle t i).base i = { g.base i with sendSeq := (g.base i).sendSeq + 1 } :=
  Function.update_self ..

theorem settle_base_ne (hj : j ≠ i) : (g.settle t i).base j = g.base j :=
  Function.update_of_ne hj ..

@[simp] theorem settle_debt_self : (g.settle t i).debt i = (g.debt i).erase t :=
  Function.update_self ..

theorem settle_debt_ne (hj : j ≠ i) : (g.settle t i).debt j = g.debt j :=
  Function.update_of_ne hj ..

theorem owed_pledge_self (ht : t ∉ g.debt f) : (g.pledge t f).owed f = g.owed f + 1 := by
  rw [owed, pledge_debt_self, Finset.card_insert_of_notMem ht, BitVec.ofNat_add]
  rfl

theorem owed_pledge_ne (hi : i ≠ f) : (g.pledge t f).owed i = g.owed i := by
  rw [owed, pledge_debt_ne hi, owed]

theorem owed_settle_self (ht : t ∈ g.debt i) : 1 + (g.settle t i).owed i = g.owed i := by
  rw [owed, owed, settle_debt_self, ← Finset.card_erase_add_one ht, BitVec.ofNat_add,
    BitVec.add_comm]
  rfl

theorem owed_settle_ne (hj : j ≠ i) : (g.settle t i).owed j = g.owed j := by
  rw [owed, settle_debt_ne hj, owed]

theorem pledge_debt_other {u : Thread W} (hu : u ≠ t) (i : Fin MAX_PEERS) :
    u ∈ (g.pledge t f).debt i ↔ u ∈ g.debt i := by
  by_cases hi : i = f
  · rw [hi, pledge_debt_self, Finset.mem_insert]
    exact or_iff_right hu
  · rw [pledge_debt_ne hi]

theorem pledge_debt_mine (ht : ∀ j, t ∉ g.debt j) (i : Fin MAX_PEERS) :
    t ∈ (g.pledge t f).debt i ↔ some f = some i := by
  by_cases hi : i = f
  · rw [hi, pledge_debt_self]
    exact iff_of_true (Finset.mem_insert_self ..) rfl
  · rw [pledge_debt_ne hi]
    exact iff_of_false (ht i) fun heq => hi (Option.some.inj heq).symm

theorem settle_debt_other {u : Thread W} (hu : u ≠ t) (j : Fin MAX_PEERS) :
    u ∈ (g.settle t i).debt j ↔ u ∈ g.debt j := by
  by_cases hj : j = i
  · rw [hj, settle_debt_self, Finset.mem_erase]
    exact and_iff_right hu
  · rw [settle_debt_ne hj]

theorem pledge_touched (hiv : Nonempty S.Iv) : f ∈ (g.pledge t f).touched := .inr ⟨rfl, hiv⟩

end Updates

omit [DecidableEq W] in
theorem node_rebase (i : Fin MAX_PEERS) (s : Session S) :
    (g.rebase i s).node m stamp =
      (g.node m stamp).setSession i (s.sending (s.sendSeq + g.owed i) (stamp i)) := by
  have hsessions : (g.rebase i s).session stamp =
      Function.update (g.session stamp) i (s.sending (s.sendSeq + g.owed i) (stamp i)) := by
    funext j
    by_cases hj : j = i
    · subst hj
      rw [Function.update_self, session, rebase_base_self, rebase_owed]
    · rw [Function.update_of_ne hj, session, session, rebase_base_ne hj, rebase_owed]
  rw [node, hsessions]
  rfl

/-- A new debt shows as one `forward_to_peer` in the tables after the branches so far. -/
theorem node_pledge {t : Thread W} {f : Fin MAX_PEERS} (ht : t ∉ g.debt f)
    {stamp stamp' : Fin MAX_PEERS → Int} (hstamp : ∀ i, i ≠ f → stamp' i = stamp i) :
    (g.pledge t f).node m stamp = (g.node m stamp').setSession f
      ((g.session stamp' f).sending ((g.session stamp' f).sendSeq + 1) (stamp f)) := by
  have hsessions : (g.pledge t f).session stamp = Function.update (g.session stamp') f
      ((g.session stamp' f).sending ((g.session stamp' f).sendSeq + 1) (stamp f)) := by
    funext j
    by_cases hj : j = f
    · subst hj
      rw [Function.update_self, session, owed_pledge_self ht, ← BitVec.add_assoc]
      rfl
    · rw [Function.update_of_ne hj, session, session, owed_pledge_ne hj, hstamp j hj]
      rfl
  rw [node, hsessions]
  rfl

/-- Drawing a sequence number pays a debt: the tables after the branches so far are the same. -/
theorem node_settle {t : Thread W} {i : Fin MAX_PEERS} (ht : t ∈ g.debt i) :
    (g.settle t i).node m stamp = g.node m stamp := by
  have hsessions : (g.settle t i).session stamp = g.session stamp := by
    funext j
    by_cases hj : j = i
    · subst hj
      rw [session, session, ← owed_settle_self ht, ← BitVec.add_assoc, settle_base_self]
      rfl
    · rw [session, session, settle_base_ne hj, owed_settle_ne hj]
  rw [node, hsessions]
  rfl

end Ghost

/-- The tables after the branches so far, whenever the sessions that may have been sent on were last
sent on. -/
def Backed (ctx : LoopCtx S) (n₀ m : Node S) (tr : List (Event S)) (g : Ghost S W) : Prop :=
  ∀ stamp : Fin MAX_PEERS → Int, (∀ i ∉ g.touched, stamp i = (g.base i).lastSent) →
    Serial ctx n₀ (g.node m stamp) tr

section Backed

variable {ctx : LoopCtx S} {n₀ m : Node S} {tr ev : List (Event S)} {g : Ghost S W}

omit [DecidableEq W] in
theorem Backed.events (h : Backed ctx n₀ m tr g) (hev : core ev = []) :
    Backed ctx n₀ m (tr ++ ev) g :=
  fun stamp hstamp => (h stamp hstamp).events hev

/-- `forward_to_peer` in one go for a new debt, with the outcome that gives `stamp`. -/
theorem Ghost.pledge_outcome (g : Ghost S W) (m : Node S) {t : Thread W} {f : Fin MAX_PEERS}
    (payload : List UInt8) (ht : t ∉ g.debt f) {stamp : Fin MAX_PEERS → Int}
    (hstamp : ∀ i ∉ (g.pledge t f).touched, stamp i = (g.base i).lastSent) :
    ∃ stamp' iv ok, (∀ i ∉ g.touched, stamp' i = (g.base i).lastSent) ∧
      (g.pledge t f).node m stamp = (g.node m stamp').setSession f
        (forwardToPeer (g.session stamp' f) f payload iv ok (stamp f)).1 ∧
      core (forwardToPeer (g.session stamp' f) f payload iv ok (stamp f)).2 = [] := by
  by_cases hiv : Nonempty S.Iv
  · -- the forward succeeds, at the time that is asked for
    obtain ⟨iv, ok, hstate, hev⟩ := forwardToPeer_outcome
      (g.session (Function.update stamp f (g.base f).lastSent) f) f payload (stamp f)
      (.inr hiv)
    refine ⟨Function.update stamp f (g.base f).lastSent, iv, ok, fun i hi => ?_, ?_, hev⟩
    · by_cases hif : i = f
      · rw [hif, Function.update_self]
      · rw [Function.update_of_ne hif]
        refine hstamp i fun hmem => hmem.elim hi fun h => hif h.1
    · rw [hstate]
      exact g.node_pledge m ht fun i hi => Function.update_of_ne hi ..
  · -- no packet can be sent, so nothing is asked for
    obtain ⟨iv, ok, hstate, hev⟩ := forwardToPeer_outcome (g.session stamp f) f payload
      (stamp f) (.inl rfl)
    refine ⟨stamp, iv, ok, fun i hi => hstamp i fun hmem => hmem.elim hi fun h => hiv h.2, ?_, hev⟩
    rw [hstate]
    exact g.node_pledge m ht fun _ _ => rfl

omit [DecidableEq W] in
/-- A ghost that stands for the same tables. -/
theorem Backed.same {g' : Ghost S W} {m' : Node S} (h : Backed ctx n₀ m tr g)
    (hnode : ∀ stamp, g'.node m' stamp = g.node m stamp) (htouched : g'.touched = g.touched)
    (hlast : ∀ i ∉ g.touched, (g'.base i).lastSent = (g.base i).lastSent) :
    Backed ctx n₀ m' tr g' := by
  intro stamp hstamp
  rw [hnode]
  rw [htouched] at hstamp
  exact h stamp fun i hi => (hstamp i hi).trans (hlast i hi)

/-- A packet from the TUN device takes effect when it is routed. -/
theorem Backed.tun (h : Backed ctx n₀ m tr g) {t : Thread W} {f : Fin MAX_PEERS}
    {packet : List UInt8} (hip : isIpv4 packet = true)
    (hcold : ∀ stamp, (g.node m stamp).cold = m.cold)
    (hroute : routeLookup m.table (ipAt packet 16) = some f) (ht : t ∉ g.debt f) :
    Backed ctx n₀ m tr (g.pledge t f) := by
  intro stamp hstamp
  obtain ⟨stamp', iv, ok, hstamp', hnode, hev⟩ := g.pledge_outcome m packet ht hstamp
  have hstep : (node ctx).step (g.node m stamp') (.tun packet iv ok (stamp f)) =
      ((g.pledge t f).node m stamp,
        (forwardToPeer (g.session stamp' f) f packet iv ok (stamp f)).2) := by
    show tunPacket (g.node m stamp') packet iv ok (stamp f) = _
    rw [tunPacket, if_pos hip, routeLookup_of_cold (hcold stamp'), hroute, hnode]
    rfl
  have hserial := (h stamp' hstamp').next (.tun packet iv ok (stamp f)) []
    (by rw [hstep]; exact hev)
  rw [hstep, List.append_nil] at hserial
  exact hserial

/-- What a data packet makes of the branches so far. -/
def Ghost.receive (g : Ghost S W) (t : Thread W) (i : Fin MAX_PEERS) (s : Session S) :
    Option (Fin MAX_PEERS) → Ghost S W
  | none => g.rebase i s
  | some f => (g.rebase i s).pledge t f

theorem receive_sendFields (s : Session S) (i : Fin MAX_PEERS) (pkt : S.Wire) (now : Int) :
    (Lanecove.receive s i pkt now).1.sendSeq = s.sendSeq ∧
    (Lanecove.receive s i pkt now).1.lastSent = s.lastSent := by
  have h := receive_sending s s.sendSeq s.lastSent i pkt now
  rw [show s.sending s.sendSeq s.lastSent = s from rfl] at h
  rw [h]
  exact ⟨rfl, rfl⟩

/-- A data packet takes effect when it is accepted or dropped. -/
theorem Backed.receive (h : Backed ctx n₀ m tr g) {t : Thread W} {i : Fin MAX_PEERS}
    {d : Incoming S} (hd : d.From ctx m i) (hcold : ∀ stamp, (g.node m stamp).cold = m.cold)
    {s : Session S} {r : Option (Receipt S)} (hs : s.cold = (g.base i).cold)
    (hr : Lanecove.receive (g.base i) i d.pkt d.now = (s, r)) (ht : ∀ f, t ∉ g.debt f) :
    Backed ctx n₀ m (tr ++ (r.map Event.accepted).toList)
      (g.receive t i s (r.bind fun r => r.target m.table)) := by
  obtain ⟨hseq, hsent⟩ := receive_sendFields (g.base i) i d.pkt d.now
  rw [hr] at hseq hsent
  have hlast : ∀ j, ((g.rebase i s).base j).lastSent = (g.base j).lastSent := by
    intro j
    by_cases hj : j = i
    · rw [hj, Ghost.rebase_base_self, hsent]
    · rw [Ghost.rebase_base_ne hj]
  -- the branch up to where the packet is accepted or dropped
  have hreceived : ∀ stamp, Lanecove.receive ((g.node m stamp).table.sessions i) i d.pkt d.now =
      (s.sending (s.sendSeq + g.owed i) (stamp i), r) := by
    intro stamp
    show Lanecove.receive ((g.base i).sending _ _) i d.pkt d.now = _
    rw [receive_sending, hr, hseq]
  have hstep : ∀ stamp clock iv ok, (node ctx).step (g.node m stamp)
      (.udp ⟨d.src, d.pkt, d.now, clock, none, ok, iv⟩) =
      afterReceive ((g.rebase i s).node m stamp) iv ok clock r := by
    intro stamp clock iv ok
    have hf := (findSessionByAddr_of_cold (hcold stamp) d.src).trans hd.2
    rw [g.node_rebase, ← dataPacket_of_receive hf (hreceived stamp)]
    exact udpPacket_of_data (d := ⟨d.src, d.pkt, d.now, clock, none, ok, iv⟩) hd.1 _
  -- the tables after that, up to what was sent
  have hcold' : ∀ stamp, ((g.rebase i s).node m stamp).cold = m.cold := by
    intro stamp
    rw [g.node_rebase, ← hcold stamp]
    exact cold_setSession hs
  cases r with
  | none =>
      intro stamp hstamp
      have hserial := (h stamp fun j hj => (hstamp j hj).trans (hlast j)).next
        (.udp ⟨d.src, d.pkt, d.now, 0, none, false, none⟩) [] (by rw [hstep]; rfl)
      rw [hstep] at hserial
      exact hserial
  | some r =>
      show Backed ctx n₀ m (tr ++ [.accepted r]) (g.receive t i s (r.target m.table))
      cases htarget : r.target m.table with
      | none =>
          intro stamp hstamp
          obtain ⟨hnode, hev⟩ := deliver_of_target_none (n := (g.rebase i s).node m stamp)
            ((target_of_cold (hcold' stamp) r).trans htarget) none false 0
          have hserial := (h stamp fun j hj => (hstamp j hj).trans (hlast j)).next
            (.udp ⟨d.src, d.pkt, d.now, 0, none, false, none⟩) [.accepted r]
            (by
              rw [hstep]
              show core ([.accepted r] ++ _) = _
              rw [core_append, hev, List.append_nil])
          rw [hstep, afterReceive, hnode] at hserial
          exact hserial
      | some f =>
          intro stamp hstamp
          obtain ⟨stamp', iv, ok, hstamp', hnode, hev⟩ :=
            (g.rebase i s).pledge_outcome m r.payload (ht f) hstamp
          have hdeliver := deliver_of_target_some (n := (g.rebase i s).node m stamp')
            ((target_of_cold (hcold' stamp') r).trans htarget) iv ok (stamp f)
          have hserial := (h stamp' fun j hj => (hstamp' j hj).trans (hlast j)).next
            (.udp ⟨d.src, d.pkt, d.now, stamp f, none, ok, iv⟩) [.accepted r]
            (by
              rw [hstep, afterReceive, hdeliver]
              show core ([.accepted r, .delivered r (some f)] ++ _) = _
              rw [core_append]
              exact congrArg _ hev)
          rw [hstep, afterReceive, hdeliver] at hserial
          show Serial ctx n₀ (((g.rebase i s).pledge t f).node m stamp) _
          rw [hnode]
          exact hserial

end Backed

end Lanecove
