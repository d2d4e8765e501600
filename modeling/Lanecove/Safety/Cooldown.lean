import Lanecove.Safety.AddressTable
import Lanecove.Safety.SessionExpiry

set_option autoImplicit false

/-! # The cooldown of handshakes

An inbound handshake is refused if the session at its address, or the session of its peer, has
had a handshake less than `handshake_cooldown` seconds ago. There is no other record of past
handshakes than `last_handshake` of these two sessions, and it can get lost:

* A peer moves onto the address of another session. The lookup by address then returns the
  older session.
* The response to a handshake of our own overwrites the slot, with another key or another
  address, whenever it comes.
* The session expires. It is kept for `session_expiry` seconds, which may be less.

In runs without these three the cooldown is kept, for each key and for each address
(`cooldown_kept`): every inbound session that was installed is either old enough, or there is an
active session with its key and its address that remembers it.
-/

namespace Lanecove

variable {S : Suite}

/-! ## What is claimed -/

/-- The sessions the inbound branch has installed. -/
def inbound (tr : List (Event S)) : List (Install S) :=
  (installs tr).filter fun e => !e.isOutbound

theorem inbound_append (tr ev : List (Event S)) :
    inbound (tr ++ ev) = inbound tr ++ inbound ev := by
  rw [inbound, installs_append, List.filter_append]
  rfl

/-- Two inbound sessions for one key, or from one address, are `handshake_cooldown` seconds
apart. -/
def CooldownKept (ctx : LoopCtx S) (tr : List (Event S)) : Prop :=
  (inbound tr).Pairwise fun e₁ e₂ =>
    e₁.pub = e₂.pub ∨ e₁.src = e₂.src → ctx.handshakeCooldown ≤ e₂.time - e₁.time

/-- At time `t` the last handshake of the session is old enough for another one. -/
def Session.CooledDown (ctx : LoopCtx S) (s : Session S) (t : Int) : Prop :=
  ctx.handshakeCooldown ≤ t - s.lastHandshake

instance (ctx : LoopCtx S) (s : Session S) (t : Int) : Decidable (s.CooledDown ctx t) :=
  inferInstanceAs (Decidable (_ ≤ _))

theorem Session.CooledDown.mono {ctx : LoopCtx S} {s : Session S} {t t' : Int}
    (h : s.CooledDown ctx t) (hle : t ≤ t') : s.CooledDown ctx t' := by
  unfold Session.CooledDown at h ⊢
  omega

/-- The peer whose response the datagram is: a handshake with it waits for the address, and the
response opens. -/
def respondingPeer (ctx : LoopCtx S) (n : Node S) (d : Datagram S) : Option S.Block := do
  let j ← pendingFrom n d.src
  let pub := (n.config (n.pendingHs j).cfgIdx).pub
  let _ ← clientKeyInput d.pkt ctx.pskKey ctx.staticKey ctx.staticPub pub (n.pendingHs j).hsState
  return pub

/-- The step takes the record of a handshake away only when it is old enough. No peer moves onto
the address of another session; the slot that a response is given is not active, or is the
session of the same key and address, or has cooled down; and so has every session that expires. -/
def Remembers (ctx : LoopCtx S) (n : Node S) : Input S → Prop
  | .udp d =>
      movesOnto ctx n d = false ∧
      ∀ pub ∈ respondingPeer ctx n d, ∀ al ∈ allocSession n.table pub d.src,
        (n.table.sessions al.1).active = true →
        ((n.table.sessions al.1).staticPub = pub ∧ (n.table.sessions al.1).addr = d.src) ∨
          (n.table.sessions al.1).CooledDown ctx d.clock
  | .tun .. => True
  | .housekeeping pass =>
      ∀ i, (n.table.sessions i).active = true →
        ctx.sessionExpiry < pass.now - (n.table.sessions i).lastAlive →
        (n.table.sessions i).CooledDown ctx pass.now

instance (ctx : LoopCtx S) (n : Node S) : (inp : Input S) → Decidable (Remembers ctx n inp)
  | .udp _ => inferInstanceAs (Decidable (_ = false ∧ ∀ pub ∈ respondingPeer _ _ _,
      ∀ al ∈ allocSession _ _ _, _ = true → _ ∧ _ ∨ _))
  | .tun .. => instDecidableTrue
  | .housekeeping _ => inferInstanceAs (Decidable (∀ _ : Fin MAX_PEERS, _ = true → _ < _ → _))

/-! ## The checks before an inbound session -/

theorem cooledDown_of_not_inCooldown {ctx : LoopCtx S} {tb : SessionTable S} {now : Int}
    {i : Fin MAX_PEERS} (h : inCooldown ctx tb now (some i) = false) :
    (tb.sessions i).CooledDown ctx now :=
  not_lt.mp (of_decide_eq_false h)

theorem installed_of_installSession {ctx : LoopCtx S} {n : Node S} {d : Datagram S}
    {pub key : S.Block} {cfg : PeerConfig S} {out : Bool} {e : Install S}
    (h : .installed e ∈ (installSession ctx n d pub key cfg out).2) :
    e.pub = pub ∧ e.isOutbound = out := by
  rcases hal : allocSession n.table pub d.src with _ | ⟨i, tb⟩
  · rw [installSession_of_none hal] at h
    cases h
  · rw [installSession_of_some hal] at h
    obtain rfl := Event.installed.inj (List.mem_singleton.mp h)
    exact ⟨rfl, rfl⟩

/-- An outbound session is that of the peer whose response came. -/
theorem step_responding {ctx : LoopCtx S} {n n' : Node S} {d : Datagram S} {ev : List (Event S)}
    {e : Install S} (hstep : StepCase ctx n (.udp d) ev n') (he : .installed e ∈ ev)
    (hout : e.isOutbound = true) :
    respondingPeer ctx n d = some e.pub := by
  cases hstep with
  | quiet h => exact absurd he (h.works.no_install e)
  | accept _ _ hr hdl h => exact absurd he ((works_of_accept hr hdl h).no_install e)
  | answer => cases List.mem_singleton.mp he
  | initiator _ hp hi =>
      rcases List.mem_cons.mp he with heq | he
      · cases heq
      · -- the pending entry names the peer, and its response gives the key
        rw [(installed_of_installSession he).1, respondingPeer, hp]
        simp only [Option.bind_eq_bind, Option.bind_some, hi]
        rfl
  | @responder _ _ pub key =>
      rcases List.mem_cons.mp he with heq | he
      · cases heq
      rcases List.mem_cons.mp he with heq | he
      · cases heq
      rcases acceptInitiation_cases ctx (refreshPrecompEph n d.fresh) d pub key with
        ⟨-, hnone⟩ | ⟨cfg, -, -, heq⟩
      · rw [hnone] at he
        cases he
      · rw [heq] at he
        exact absurd (hout.symm.trans (installed_of_installSession he).2) Bool.noConfusion

/-- An inbound session is installed only after the check of its address and that of its key. -/
theorem step_checked {ctx : LoopCtx S} {n n' : Node S} {d : Datagram S} {ev : List (Event S)}
    {e : Install S} (hstep : StepCase ctx n (.udp d) ev n') (he : .installed e ∈ ev)
    (hin : e.isOutbound = false) :
    inCooldown ctx n.table d.now (findSessionByAddr n.table d.src) = false ∧
      inCooldown ctx n.table d.now (findSessionByPub n.table e.pub) = false := by
  cases hstep with
  | quiet h => exact absurd he (h.works.no_install e)
  | accept _ _ hr hdl h => exact absurd he ((works_of_accept hr hdl h).no_install e)
  | answer => cases List.mem_singleton.mp he
  | initiator =>
      rcases List.mem_cons.mp he with heq | he
      · cases heq
      · exact nomatch hin.symm.trans (installed_of_installSession he).2
  | @responder _ _ pub key hd hp hc hr =>
      rcases List.mem_cons.mp he with heq | he
      · cases heq
      rcases List.mem_cons.mp he with heq | he
      · cases heq
      rcases acceptInitiation_cases ctx (refreshPrecompEph n d.fresh) d pub key with
        ⟨-, hnone⟩ | ⟨cfg, -, hc', heq⟩
      · rw [hnone] at he
        cases he
      · rw [heq] at he
        rw [(installed_of_installSession he).1]
        rw [refreshPrecompEph_table] at hc'
        exact ⟨hc, hc'⟩

/-! ## Which records survive a step -/

/-- Only a pass ends sessions. -/
theorem installSession_active {ctx : LoopCtx S} {n : Node S} {d : Datagram S} {pub key : S.Block}
    {cfg : PeerConfig S} {out : Bool} {i : Fin MAX_PEERS}
    (hi : (n.table.sessions i).active = true) :
    ((installSession ctx n d pub key cfg out).1.table.sessions i).active = true := by
  rcases hal : allocSession n.table pub d.src with _ | ⟨k, tb⟩
  · rw [installSession_of_none hal]
    exact hi
  · rw [installSession_of_some hal]
    by_cases hik : i = k
    · subst hik
      rw [installAt_sessions_self]
      rfl
    · rw [installAt_sessions_ne hal hik]
      exact hi

theorem udpPacket_active {ctx : LoopCtx S} {n : Node S} (d : Datagram S) {i : Fin MAX_PEERS}
    (hi : (n.table.sessions i).active = true) :
    ((udpPacket ctx n d).1.table.sessions i).active = true := by
  cases hd : isHandshake ctx d.pkt with
  | false =>
      rw [udpPacket_of_data hd, unmoved_active.dataPacket (fun _ _ _ _ => rfl)]
      exact hi
  | true =>
      rw [udpPacket_of_handshake hd]
      cases hp : pendingFrom n d.src with
      | some j =>
          rw [handshakePkt_of_pendingFrom_some ctx n hp]
          obtain ⟨st, heq | ⟨key, heq⟩⟩ := outboundResponse_node ctx n j d
          · rw [heq]
            exact (unmoved_active.drop n j _ _ i).trans hi
          · rw [heq]
            exact installSession_active (n := n.setPending j _) hi
      | none =>
          rw [handshakePkt_of_pendingFrom_none ctx n hp]
          have hi' : ((refreshPrecompEph n d.fresh).table.sessions i).active = true := by
            rw [refreshPrecompEph_table]
            exact hi
          rcases inboundHandshake_node ctx n d with heq | heq | ⟨pub, key, cfg, heq⟩
          · rw [heq]
            exact hi
          · rw [heq]
            exact hi'
          · rw [heq]
            exact installSession_active hi'

/-- A pass ends a session only if it was silent for too long. -/
theorem housekeeping_active {ctx : LoopCtx S} {n : Node S} (pass : PassInput S)
    {i : Fin MAX_PEERS} (hbelow : i.val < n.table.slots)
    (hi : (n.table.sessions i).active = true) :
    ((housekeeping ctx n pass).1.table.sessions i).active = true ∨
      ctx.sessionExpiry < pass.now - (n.table.sessions i).lastAlive := by
  by_cases hpass : 10 ≤ pass.now - n.lastCheck
  · cases h : ((housekeeping ctx n pass).1.table.sessions i).active with
    | true => exact .inl rfl
    | false => exact .inr ((housekeeping_expires hpass hbelow hi).mp h)
  · unfold housekeeping
    rw [if_neg hpass]
    exact .inl hi

/-- The session goes on, for the same key and at the same address. -/
structure GoesOn (s s' : Session S) : Prop where
  active : s'.active = true
  staticPub : s'.staticPub = s.staticPub
  addr : s'.addr = s.addr
  lastHandshake : s.lastHandshake ≤ s'.lastHandshake

/-- **Which records survive a step**: a session that was active goes on, or had cooled down. -/
theorem step_goesOn {ctx : LoopCtx S} {n : Node S} {inp : Input S} {t t' : Int}
    (htable : TableInv n) (hknown : ∀ i, (n.table.sessions i).active = true →
      (n.table.sessions i).lastHandshake ≤ t)
    (hclock : inp.During t t') (hG : Remembers ctx n inp) {i : Fin MAX_PEERS}
    (hi : (n.table.sessions i).active = true) :
    GoesOn (n.table.sessions i) (((node ctx).step n inp).1.table.sessions i) ∨
      (n.table.sessions i).CooledDown ctx t' := by
  have hactive : (((node ctx).step n inp).1.table.sessions i).active = true ∨
      (n.table.sessions i).CooledDown ctx t' := by
    cases inp with
    | tun packet iv ok now =>
        exact .inl ((unmoved_active.tunPacket n packet iv ok now i).trans hi)
    | udp d => exact .inl (udpPacket_active d hi)
    | housekeeping pass =>
        refine (housekeeping_active pass (htable.below i hi) hi).imp_right fun hold => ?_
        exact (hG i hi hold).mono hclock.2.1
  have hcase := step_cases ctx n inp
  have hstep := step_table ctx n inp
  revert hactive hcase hstep
  generalize ((node ctx).step n inp).2 = ev
  generalize ((node ctx).step n inp).1 = n'
  intro hactive hcase hstep
  cases hstep with
  | kept _ hk _ =>
      refine hactive.imp_left fun ha => ?_
      exact ⟨ha, (hk.keeps i).staticPub, (hk.keeps i).addr, (hk.keeps i).lastHandshake.ge⟩
  | @install d _ m k tb pub key cfg out hinp hone hm htb hcfg hal =>
      subst hinp
      have hmem : ⟨k, pub, key, d.src, d.pkt, out, d.clock⟩ ∈ installs ev := by
        rw [hone]
        exact List.mem_singleton_self _
      by_cases hik : i = k
      · subst hik
        cases out with
        | true =>
            -- the response to a handshake of our own
            have hpeer := step_responding hcase (mem_installs.mp hmem) rfl
            have hrule := hG.2 pub hpeer (i, tb) hal hi
            refine hrule.imp (fun hsame => ?_) fun hcool => hcool.mono hclock.2.2
            rw [installAt_sessions_self]
            exact ⟨rfl, hsame.1.symm, hsame.2.symm, (hknown i hi).trans hclock.2.1⟩
        | false =>
            -- the slot was found by key or by address, and was checked
            obtain ⟨hbyAddr, hbyPub⟩ := step_checked hcase (mem_installs.mp hmem) rfl
            have hle : d.now ≤ t' := hclock.1.trans hclock.2.2
            rcases allocSession_slot htable.below hal with hp | ⟨-, ha⟩ | ⟨-, -, hfree⟩
            · rw [hp] at hbyPub
              exact .inr ((cooledDown_of_not_inCooldown hbyPub).mono hle)
            · rw [ha] at hbyAddr
              exact .inr ((cooledDown_of_not_inCooldown hbyAddr).mono hle)
            · exact nomatch hi.symm.trans hfree
      · rw [← htb] at hal
        rw [installAt_sessions_ne hal hik, htb]
        exact .inl ⟨hi, rfl, rfl, le_rfl⟩

/-! ## What is remembered -/

section Remembered

variable {α : Type} {f : Session S → α} {g : Install S → α} {ctx : LoopCtx S}
  {n n' : Node S} {t t' : Int} {e e' : Install S}

/-- What was installed is old enough at time `t`, or an active session remembers it. The sessions
are told apart by `f`, and `g` is what they are compared with. -/
def Remembered (f : Session S → α) (g : Install S → α) (ctx : LoopCtx S) (n : Node S) (t : Int)
    (e : Install S) : Prop :=
  ctx.handshakeCooldown ≤ t - e.time ∨
    ∃ i, (n.table.sessions i).active = true ∧ f (n.table.sessions i) = g e ∧
      e.time ≤ (n.table.sessions i).lastHandshake

theorem Remembered.step (h : Remembered f g ctx n t e) (hle : t ≤ t')
    (hf : ∀ {s s' : Session S}, GoesOn s s' → f s' = f s)
    (hstep : ∀ i, (n.table.sessions i).active = true →
      GoesOn (n.table.sessions i) (n'.table.sessions i) ∨
        (n.table.sessions i).CooledDown ctx t') : Remembered f g ctx n' t' e := by
  rcases h with hold | ⟨i, hi, hfi, htime⟩
  · exact .inl (by omega)
  · rcases hstep i hi with hon | hcool
    · exact .inr ⟨i, hon.active, (hf hon).trans hfi, htime.trans hon.lastHandshake⟩
    · unfold Session.CooledDown at hcool
      exact .inl (by omega)

/-- What is checked against the sessions is checked against all that was installed. -/
theorem Remembered.spaced (h : Remembered f g ctx n t e) (heq : g e = g e')
    (hcheck : ∀ i, (n.table.sessions i).active = true → f (n.table.sessions i) = g e' →
      (n.table.sessions i).CooledDown ctx e'.time)
    (ht : t ≤ e'.time) : ctx.handshakeCooldown ≤ e'.time - e.time := by
  rcases h with hold | ⟨i, hi, hfi, htime⟩
  · omega
  · have hcool := hcheck i hi (hfi.trans heq)
    unfold Session.CooledDown at hcool
    omega

end Remembered

/-- The invariant: keys and addresses tell the active sessions apart, no handshake lies in the
future, and every inbound session is remembered, by its key and by its address. -/
structure CooldownInv (ctx : LoopCtx S) (n : Node S) (tr : List (Event S)) (t : Int) : Prop where
  table : TableInv n
  addr : AddrInv n.table
  known : ∀ i, (n.table.sessions i).active = true → (n.table.sessions i).lastHandshake ≤ t
  byPub : ∀ e ∈ inbound tr, Remembered Session.staticPub Install.pub ctx n t e
  byAddr : ∀ e ∈ inbound tr, Remembered Session.addr Install.src ctx n t e
  spaced : CooldownKept ctx tr

namespace CooldownInv

variable {ctx : LoopCtx S} {n n' : Node S} {tr ev : List (Event S)} {t t' : Int}

theorem init (ctx : LoopCtx S) (cfgs : List (PeerConfig S)) (fresh : Option S.Priv) (t : Int) :
    CooldownInv ctx (Node.init cfgs fresh) [] t where
  table := TableInv.init cfgs fresh
  addr := ⟨nofun, nofun⟩
  known := nofun
  byPub := nofun
  byAddr := nofun
  spaced := .nil

/-- The session an inbound handshake meets by its key, or by its address, has cooled down. -/
theorem checked (h : CooldownInv ctx n tr t) {d : Datagram S} {e : Install S}
    (hstep : StepCase ctx n (.udp d) ev n') (he : .installed e ∈ ev) (hin : e.isOutbound = false)
    (hsrc : e.src = d.src) {i : Fin MAX_PEERS} (hi : (n.table.sessions i).active = true)
    (heq : (n.table.sessions i).staticPub = e.pub ∨ (n.table.sessions i).addr = e.src) :
    (n.table.sessions i).CooledDown ctx d.now := by
  obtain ⟨hbyAddr, hbyPub⟩ := step_checked hstep he hin
  rcases heq with heq | heq
  · rw [← heq, h.table.findSessionByPub_self hi] at hbyPub
    exact cooledDown_of_not_inCooldown hbyPub
  · rw [← hsrc, ← heq, h.addr.addressesUnique.found i hi] at hbyAddr
    exact cooledDown_of_not_inCooldown hbyAddr

/-- The part of the step that has nothing to do with how it is made: old sessions are remembered
as before, and what is new has been checked and remembers itself. -/
theorem extend (h : CooldownInv ctx n tr t) (htable : TableInv n') (haddr : AddrInv n'.table)
    (hle : t ≤ t')
    (hknown : ∀ i, (n'.table.sessions i).active = true → (n'.table.sessions i).lastHandshake ≤ t')
    (hon : ∀ i, (n.table.sessions i).active = true →
      GoesOn (n.table.sessions i) (n'.table.sessions i) ∨ (n.table.sessions i).CooledDown ctx t')
    (hlone : CooldownKept ctx ev)
    (hcheck : ∀ e ∈ inbound ev, t ≤ e.time ∧ ∀ i, (n.table.sessions i).active = true →
      (n.table.sessions i).staticPub = e.pub ∨ (n.table.sessions i).addr = e.src →
      (n.table.sessions i).CooledDown ctx e.time)
    (hnew : ∀ e ∈ inbound ev, ∃ i, (n'.table.sessions i).active = true ∧
      (n'.table.sessions i).staticPub = e.pub ∧ (n'.table.sessions i).addr = e.src ∧
      (n'.table.sessions i).lastHandshake = e.time) : CooldownInv ctx n' (tr ++ ev) t' := by
  refine ⟨htable, haddr, hknown, ?_, ?_, ?_⟩
  · intro e he
    rw [inbound_append, List.mem_append] at he
    rcases he with he | he
    · exact (h.byPub e he).step hle GoesOn.staticPub hon
    · obtain ⟨i, hi, hpub, -, hlast⟩ := hnew e he
      exact .inr ⟨i, hi, hpub, hlast.ge⟩
  · intro e he
    rw [inbound_append, List.mem_append] at he
    rcases he with he | he
    · exact (h.byAddr e he).step hle GoesOn.addr hon
    · obtain ⟨i, hi, -, hsrc, hlast⟩ := hnew e he
      exact .inr ⟨i, hi, hsrc, hlast.ge⟩
  · unfold CooldownKept
    rw [inbound_append, List.pairwise_append]
    refine ⟨h.spaced, hlone, ?_⟩
    intro e he e' he' hsame
    obtain ⟨htime, hcool⟩ := hcheck e' he'
    -- the session that remembers `e` is the one that `e'` was checked against
    rcases hsame with hpub | hsrc
    · exact (h.byPub e he).spaced hpub (fun i hi hf => hcool i hi (.inl hf)) htime
    · exact (h.byAddr e he).spaced hsrc (fun i hi hf => hcool i hi (.inr hf)) htime

/-- **One step.** -/
theorem step (h : CooldownInv ctx n tr t) {inp : Input S} (hclock : inp.During t t')
    (hG : Remembers ctx n inp) :
    CooldownInv ctx ((node ctx).step n inp).1 (tr ++ ((node ctx).step n inp).2) t' := by
  have haddr : AddrInv ((node ctx).step n inp).1.table := by
    refine @Preserves.step S ctx _ _ _ (addrInv_preserves ctx) n [] inp trivial ?_ h.addr
    rintro d rfl
    exact hG.1
  have hon := fun i hi => step_goesOn h.table h.known hclock hG (i := i) hi
  have hcase := step_cases ctx n inp
  have hstep := step_table ctx n inp
  have htable := h.table.step hstep
  revert haddr hon hcase hstep htable
  generalize ((node ctx).step n inp).2 = ev
  generalize ((node ctx).step n inp).1 = n'
  intro haddr hon hcase hstep htable
  cases hstep with
  | kept hev hk _ =>
      have hnone : inbound ev = [] := by rw [inbound, hev, List.filter_nil]
      refine h.extend htable haddr hclock.le ?_ hon ?_ ?_ ?_
      · intro i hi
        rw [(hk.keeps i).lastHandshake]
        exact (h.known i ((hk.keeps i).active hi)).trans hclock.le
      · unfold CooldownKept
        rw [hnone]
        exact .nil
      · rw [hnone]
        exact nofun
      · rw [hnone]
        exact nofun
  | @install d _ m k tb pub key cfg out hinp hev hm htb hcfg hal =>
      subst hinp
      obtain ⟨hnow, hlow, hhigh⟩ := hclock
      rw [← htb] at hal
      -- if the session is inbound, it is the one in slot `k`
      have hmem : ∀ e ∈ inbound ev, .installed e ∈ ev ∧ e.isOutbound = false ∧
          e = ⟨k, pub, key, d.src, d.pkt, out, d.clock⟩ := by
        intro e he
        obtain ⟨hi, hout⟩ := List.mem_filter.mp he
        refine ⟨mem_installs.mp hi, by simpa using hout, ?_⟩
        rw [hev] at hi
        exact List.mem_singleton.mp hi
      refine h.extend htable haddr (hlow.trans hhigh) ?_ hon ?_ ?_ ?_
      · intro i hi
        by_cases hik : i = k
        · subst hik
          rw [installAt_sessions_self]
          exact hhigh
        · rw [installAt_sessions_ne hal hik, htb] at hi ⊢
          exact (h.known i hi).trans (hlow.trans hhigh)
      · unfold CooldownKept
        rw [inbound, hev]
        exact (List.pairwise_singleton _ _).filter _
      · intro e he
        obtain ⟨hin, hout, rfl⟩ := hmem e he
        refine ⟨hlow, fun i hi hsame => ?_⟩
        exact (h.checked hcase hin hout rfl hi hsame).mono hnow
      · intro e he
        obtain ⟨-, -, rfl⟩ := hmem e he
        refine ⟨k, ?_⟩
        rw [installAt_sessions_self]
        exact ⟨rfl, rfl, rfl, rfl⟩

end CooldownInv

/-- **The cooldown is kept.** In every run with a clock that does not go back, in which no step
takes the record of a recent handshake away, two inbound sessions for one key, or from one
address, are at least `handshake_cooldown` seconds apart. -/
theorem cooldown_kept (ctx : LoopCtx S) (cfgs : List (PeerConfig S)) (fresh : Option S.Priv)
    (t : Int) (is : List (Input S)) (hclock : Machine.Timed Input.During t is)
    (hrun : (node ctx).Along (fun c => Remembers ctx c.1) (Node.init cfgs fresh, []) is) :
    CooldownKept ctx ((node ctx).run (Node.init cfgs fresh, []) is).2 := by
  obtain ⟨t', h⟩ := (node ctx).invariant_timed (I := fun c t => CooldownInv ctx c.1 c.2 t)
    (fun c t inp t' hc hinp hG => hc.step hinp hG) is _ t (CooldownInv.init ctx cfgs fresh t)
    hclock hrun
  exact h.spaced

instance (ctx : LoopCtx S) (tr : List (Event S)) : Decidable (CooldownKept ctx tr) :=
  inferInstanceAs (Decidable (List.Pairwise _ _))

theorem cooldown_kept_roamRun :
    Machine.Timed Input.During 100 roamRun ∧
    (node (ctxOf 1)).Along (fun c => Remembers (ctxOf 1) c.1) twoPeers roamRun ∧
    (inbound ((node (ctxOf 1)).run twoPeers roamRun).2).map (fun e => (e.pub, e.time))
      = [(Msg.pub 2, 100), (Msg.pub 3, 100), (Msg.pub 3, 200)] ∧
    CooldownKept (ctxOf 1) ((node (ctxOf 1)).run twoPeers roamRun).2 := by
  have hclock : Machine.Timed Input.During 100 roamRun :=
    ⟨100, during_arrival _ _ _ (by decide), 100, during_arrival _ _ _ (by decide),
      200, during_arrival _ _ _ (by decide), trivial⟩
  have hrun : (node (ctxOf 1)).Along (fun c => Remembers (ctxOf 1) c.1) twoPeers roamRun := by
    decide +kernel
  exact ⟨hclock, hrun, by decide +kernel,
    cooldown_kept (ctxOf 1) [peerOf 2, peerOf 3] (some 100) 100 roamRun hclock hrun⟩

/-! ## How it is lost -/

/-- Peer `3` has moved onto the address of peer `2`, and one second later peer `2` completes a
handshake from there. -/
def sharedAddressRun : List (Input symbolic) :=
  moveOntoRun ++ [arrival (addrOf 2) (initiationOf 2 1 15) 201 104]

/-- Node `1` has started a handshake with peer `2`, and accepts one from it in the meantime, from
another address. The response moves the session back, and two seconds after the inbound handshake
peer `3` completes one from the same address. -/
def overwrittenRun : List (Input symbolic) :=
  [passAt 100 21, arrival (addrOf 5) (initiationOf 2 1 12) 101 101,
    arrival (addrOf 2) (responseOf 2 21 31) 102 102,
    arrival (addrOf 5) (initiationOf 3 1 13) 103 103]

/-- Node `1` with a cooldown that is longer than its sessions are kept. -/
def longCooldown : LoopCtx symbolic := { ctxOf 1 with handshakeCooldown := 1000 }

/-- The session of peer `2` has expired when it comes back. -/
def expiredRun : List (Input symbolic) :=
  [arrival (addrOf 2) (initiationOf 2 1 12) 100 101, passAt 700 21,
    arrival (addrOf 2) (initiationOf 2 1 13) 701 102]

/-- The three ways in which the record of a handshake gets lost. -/
theorem cooldown_forgotten :
    (Machine.Timed Input.During 100 sharedAddressRun ∧
      ¬ CooldownKept (ctxOf 1) ((node (ctxOf 1)).run twoPeers sharedAddressRun).2) ∧
    (Machine.Timed Input.During 100 overwrittenRun ∧
      ¬ CooldownKept (ctxOf 1) ((node (ctxOf 1)).run
        (Node.init [endpointOf 2, peerOf 3] (some 100), []) overwrittenRun).2) ∧
    Machine.Timed Input.During 100 expiredRun ∧
      ¬ CooldownKept longCooldown ((node longCooldown).run
        (Node.init [peerOf 2, peerOf 3] (some 100), []) expiredRun).2 := by
  refine ⟨⟨⟨100, during_arrival _ _ _ (by decide), 100, during_arrival _ _ _ (by decide),
      200, during_arrival _ _ _ (by decide), 201, during_arrival _ _ _ (by decide), trivial⟩,
      by decide +kernel⟩,
    ⟨⟨100, during_passAt _ (by decide), 101, during_arrival _ _ _ (by decide),
      102, during_arrival _ _ _ (by decide), 103, during_arrival _ _ _ (by decide), trivial⟩,
      by decide +kernel⟩,
    ⟨100, during_arrival _ _ _ (by decide), 700, during_passAt _ (by decide),
      701, during_arrival _ _ _ (by decide), trivial⟩, by decide +kernel⟩

end Lanecove
