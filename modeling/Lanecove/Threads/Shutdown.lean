import Lanecove.Basic.Progress
import Lanecove.Peer.Marks
import Lanecove.Threads.Locks
import Lanecove.Threads.Serialisation

set_option autoImplicit false

/-! # Shutdown

`SIGTERM` and `SIGINT` set `stop_flag`, which a worker looks at when it has handled what
`epoll_wait` returned, and the housekeeping thread when its pass is over. `Point.remaining` counts
the steps a thread has left until then. With the flag set each step takes one off
(`action_spends`), so the threads make only so many more steps. As long as a thread has not ended,
some thread has a step to make, if the system call it is in returns (`exists_stepsOn`). So if these
calls return, the threads all end (`threads_wind_down`).

That they return is assumed. The handlers are set with `signal`, which restarts a call that a signal
interrupts, and `recvfrom` and `read` are blocking: a worker that waits there, because another one
took the packet, does not end before the next packet comes.
-/

namespace Lanecove

variable {S : Suite}

/-! ## The steps a thread has left -/

/-- The steps of a worker until the event at hand is handled. -/
def Job.remaining : Job S → Nat
  | .readTun => 13
  | .tunRdlock _ => 12
  | .tunRoute _ => 11
  | .recvfrom => 20
  | .hsWrlock _ => 3
  | .hsHandle _ => 2
  | .hsUnlock => 1
  | .dataRdlock _ => 19
  | .dataLookup _ => 18
  | .hotLock _ _ => 17
  | .markSeen _ _ => 16
  | .decryptCurrent _ _ => 15
  | .retirePrev _ _ _ => 14
  | .decryptPrev _ _ => 14
  | .checkFrame _ _ _ _ => 13
  | .hotUnlock _ _ => 12
  | .route _ => 11
  | .tunUnlock _ => 2
  | .tunWrite _ => 1
  | .fwdLock _ _ => 10
  | .drawSeq _ _ => 9
  | .encrypt _ _ _ => 8
  | .encryptFailed _ => 2
  | .readAddr _ => 7
  | .fwdUnlock _ => 6
  | .sendto _ => 5
  | .sentLock _ => 4
  | .markSent _ => 3
  | .sentUnlock _ => 2
  | .rdUnlock => 1

/-- The steps of the housekeeping thread until it looks at the flags, with `peers` entries in
`peer_configs[]`. -/
def Chore.remaining (peers : Nat) : Chore → Nat
  | .loop => 1
  | .passUnlock => 2
  | .finish _ => 3
  | .connect _ idx => 3 * (peers - idx) + 4
  | .initiate _ idx _ => 3 * (peers - (idx + 1)) + 5
  | .resolve _ idx _ => 3 * (peers - (idx + 1)) + 6
  | .begin _ => 3 * peers + 5
  | .passWrlock _ => 3 * peers + 6
  | .clock => 3 * peers + 7
  | .printRdunlock => 3 * peers + 8
  | .printing todo => 3 * peers + 4 * todo.length + 9
  | .printUnlock _ todo => 3 * peers + 4 * todo.length + 10
  | .printAddr _ todo => 3 * peers + 4 * todo.length + 11
  | .printLock _ todo => 3 * peers + 4 * todo.length + 12
  | .printRdlock => 3 * peers + 4 * MAX_PEERS + 10

/-- The steps of a thread until it looks at `stop_flag`, and that one. -/
def Point.remaining (peers : Nat) : Point S → Nat
  | .poll => 1
  | .epollWait => 45
  | .events todo => 21 * todo.length + 2
  | .worker todo job => 21 * todo.length + 2 + job.remaining
  | .housekeeper chore => chore.remaining peers
  | .done => 0

/-- Where a thread that goes on has new steps. -/
def Point.Renewed (peers : Nat) (p q : Point S) : Prop :=
  q = .epollWait ∨ p.isChore = true ∧ q.remaining peers ≤ 3 * peers + 4 * MAX_PEERS + 10

/-- A step takes at least one off what remains, unless `stop_flag` is not set. -/
def Action.Spends (peers : Nat) (p : Point S) : Act S → Prop
  | .work _ f => ∀ s, s.node.peerConfigs.length = peers →
      (f s).2.2.remaining peers < p.remaining peers ∨
      s.stopFlag = false ∧ p.Renewed peers (f s).2.2
  | .rdlock q => q.remaining peers < p.remaining peers
  | .wrlock q => q.remaining peers < p.remaining peers
  | .rwunlock q => q.remaining peers < p.remaining peers
  | .lock _ q => q.remaining peers < p.remaining peers
  | .unlock _ q => q.remaining peers < p.remaining peers

section Spends

variable {ctx : LoopCtx S} {peers : Nat} {p : Point S} {a : Act S}

theorem spends_goto {q : Point S} (h : q.remaining peers < p.remaining peers) :
    (goto q).Spends peers p := fun _ _ => .inl h

theorem spends_onNode {f : Node S → Node S × List (Event S) × Point S}
    (h : ∀ n, n.peerConfigs.length = peers → (f n).2.2.remaining peers < p.remaining peers) :
    (onNode f).Spends peers p := fun s hs => .inl (h s.node hs)

theorem JobStep.spends {todo : List Source} {job : Job S} (h : JobStep ctx todo job a) :
    a.Spends peers (.worker todo job) := by
  -- the places of one event are numbered downwards
  have hnext : ∀ {job' : Job S}, job'.remaining < job.remaining →
      (Point.worker todo job').remaining peers < (Point.worker todo job).remaining peers :=
    fun hlt => Nat.add_lt_add_left hlt _
  have hover : (Point.events todo : Point S).remaining peers <
      (Point.worker todo job).remaining peers := by
    have hpos : 0 < job.remaining := by cases job <;> exact Nat.succ_pos _
    exact Nat.lt_add_of_pos_right hpos
  have hdone : (Point.done : Point S).remaining peers <
      (Point.worker todo job).remaining peers := by
    simp only [Point.remaining]
    omega
  cases h with
  | readFailed | recvFailed => exact spends_goto hdone
  | notIpv4 => exact spends_goto hover
  | readTun | recvHandshake | recvData | sendFailed =>
      exact spends_goto (hnext (by simp [Job.remaining]))
  | tunRdlock | dataRdlock | hsWrlock => exact hnext (by simp [Job.remaining])
  | hotLock | fwdLock | sentLock => exact hnext (by simp [Job.remaining])
  | hotUnlockNone | hotUnlockSome | encryptFailed | fwdUnlock | sentUnlock =>
      exact hnext (by simp [Job.remaining])
  | tunUnlock => exact hnext (by simp [Job.remaining])
  | hsUnlock | rdUnlock => exact hover
  | sendto => exact fun _ _ => .inl (hnext (by simp [Job.remaining]))
  | tunWrite => exact fun _ _ => .inl hover
  | hsHandle => exact fun _ _ => .inl (hnext (by simp [Job.remaining]))
  | markSeen | retirePrev | checkFrame | drawSeq | readAddr | markSent =>
      exact fun _ _ => .inl (hnext (by simp [Job.remaining]))
  | @tunRoute packet =>
      refine spends_onNode fun n _ => ?_
      rcases routePacket_cases todo packet n with ⟨-, heq⟩ | ⟨i, -, heq⟩ <;>
        (rw [heq]; exact hnext (by simp [Job.remaining]))
  | @dataLookup d =>
      refine spends_onNode fun n _ => ?_
      rcases lookupSource_cases todo d n with ⟨-, heq⟩ | ⟨i, -, heq⟩ <;>
        (rw [heq]; exact hnext (by simp [Job.remaining]))
  | @decryptCurrent i d =>
      refine spends_onNode fun n _ => ?_
      dsimp only
      rcases openCurrent_cases todo i d (n.table.sessions i) with ⟨-, heq⟩ | ⟨plain, -, heq⟩ <;>
        (rw [heq]; exact hnext (by simp [Job.remaining]))
  | @decryptPrev i d =>
      refine spends_onNode fun n _ => ?_
      dsimp only
      rcases openPrev_cases todo i d (n.table.sessions i) with ⟨-, heq⟩ | ⟨plain, -, -, heq⟩ <;>
        (rw [heq]; exact hnext (by simp [Job.remaining]))
  | @encrypt _ _ _ iv =>
      refine spends_onNode fun n _ => ?_
      cases iv <;> exact hnext (by simp [Job.remaining])
  | @route r =>
      refine spends_onNode fun n _ => ?_
      rcases routeReceipt_cases todo r n with ⟨-, heq⟩ | ⟨-, ⟨-, heq⟩ | ⟨f, -, heq⟩⟩ <;>
        (rw [heq]; exact hnext (by simp [Job.remaining]))

theorem ChoreStep.spends {chore : Chore} (h : ChoreStep ctx chore a) :
    a.Spends peers (.housekeeper chore) := by
  cases h with
  | loop =>
      intro s _
      rcases checkFlags_cases s with ⟨-, heq⟩ | ⟨hstop, -, heq⟩ | ⟨hstop, heq⟩
      · rw [heq]
        exact .inl (Nat.zero_lt_one)
      · rw [heq]
        exact .inr ⟨hstop, .inr ⟨rfl, le_rfl⟩⟩
      · rw [heq]
        refine .inr ⟨hstop, .inr ⟨rfl, ?_⟩⟩
        simp only [Point.remaining, Chore.remaining]
        omega
  | printRdlock =>
      show 3 * peers + 4 * (List.finRange MAX_PEERS).length + 9 < 3 * peers + 4 * MAX_PEERS + 10
      rw [List.length_finRange]
      exact Nat.lt_succ_self _
  | printed => exact spends_goto (Nat.lt_succ_self _)
  | printAddr => exact spends_goto (Nat.lt_succ_self _)
  | printLock | printRdunlock | passWrlock | passUnlock => exact Nat.lt_succ_self _
  | printUnlock => exact Nat.lt_succ_self _
  | @printing i rest =>
      refine spends_onNode fun n _ => ?_
      rcases printSlot_cases i rest n with heq | heq <;>
      · rw [heq]
        simp only [Point.remaining, Chore.remaining, List.length_cons]
        omega
  | @clock now =>
      refine spends_onNode fun n _ => ?_
      rcases checkClock_cases now n with ⟨-, heq⟩ | heq <;>
      · rw [heq]
        simp only [Point.remaining, Chore.remaining]
        omega
  | begin => exact spends_onNode fun _ _ => Nat.lt_succ_self _
  | @connect now idx =>
      refine spends_onNode fun n hn => ?_
      rcases connectNext_cases ctx now idx n with ⟨hidx, -, heq⟩ | ⟨hidx, -, heq⟩ | ⟨hidx, heq⟩ <;>
      · rw [heq]
        simp only [Point.remaining, Chore.remaining]
        omega
  | resolve => exact spends_onNode fun _ _ => Nat.lt_succ_self _
  | initiate =>
      refine spends_onNode fun n _ => ?_
      rw [initiateNext_place]
      exact Nat.lt_succ_self _
  | finish => exact fun _ _ => .inl (Nat.lt_succ_self _)

/-- **Every step counts**, except for the signal handler. -/
theorem action_spends {e : Env S} (hsig : ∀ sig, e ≠ .signal sig) (h : action ctx p e = some a) :
    a.Spends peers p := by
  cases p with
  | poll =>
      cases e with
      | signal sig => exact absurd rfl (hsig sig)
      | go =>
          cases h
          intro s _
          dsimp only
          split_ifs with hstop
          · exact .inl Nat.zero_lt_one
          · exact .inr ⟨Bool.eq_false_of_not_eq_true hstop, .inl rfl⟩
      | _ => cases h
  | epollWait =>
      cases e with
      | signal sig => exact absurd rfl (hsig sig)
      | failed =>
          cases h
          exact spends_goto (Nat.zero_lt_succ _)
      | ready fds =>
          have h : (if fds.length ≤ 2 then some (goto (.events fds)) else none) = some a := h
          split_ifs at h with hfds
          cases h
          refine spends_goto ?_
          simp only [Point.remaining]
          omega
      | _ => cases h
  | events todo =>
      cases todo with
      | nil =>
          cases e with
          | signal sig => exact absurd rfl (hsig sig)
          | go =>
              cases h
              exact spends_goto (Nat.lt_succ_self 1)
          | _ => cases h
      | cons fd todo =>
          cases e with
          | signal sig => exact absurd rfl (hsig sig)
          | failed =>
              cases h
              exact spends_goto (Nat.zero_lt_succ _)
          | go =>
              cases fd <;>
              · cases h
                refine spends_goto ?_
                simp only [Point.remaining, Job.remaining, List.length_cons]
                omega
          | _ => cases fd <;> cases h
  | worker todo job =>
      cases e with
      | signal sig => exact absurd rfl (hsig sig)
      | _ => exact (jobAction_cases h).spends
  | housekeeper chore =>
      cases e with
      | signal sig => exact absurd rfl (hsig sig)
      | _ => exact (choreAction_cases h).spends
  | done =>
      cases e with
      | signal sig => exact absurd rfl (hsig sig)
      | _ => cases h

/-- The number of peers stays as it is. -/
theorem ThreadStep.peerCount {inner : List (Fin MAX_PEERS)}
    {f : Process S → Process S × List (Event S) × Point S} (h : ThreadStep ctx p (.work inner f))
    (s : Process S) : (f s).1.node.peerConfigs.length = s.node.peerConfigs.length := by
  by_cases hmode : p.held.mode = .write
  · -- the writers replace entries of `peer_configs[]`
    have hset : ∀ (n : Node S) (idx : Nat) (cfg : PeerConfig S),
        (n.setConfig idx cfg).peerConfigs.length = n.peerConfigs.length :=
      fun n idx cfg => List.length_set
    generalize ha : (Action.work inner f : Act S) = a at h
    cases h with
    | @signal _ sig =>
        cases ha
        show (handleSignal sig s).node.peerConfigs.length = _
        unfold handleSignal
        split <;> rfl
    | poll | waitFailed | epollWait | handled | hangup | tun | udp => cases hmode
    | worker h =>
        cases h with
        | hsHandle =>
            cases ha
            exact congrArg List.length (handshakePkt_fixed ctx s.node _).2
        | hsUnlock => cases ha
        | _ => cases hmode
    | housekeeper h =>
        cases h with
        | begin => cases ha; rfl
        | @connect now idx =>
            cases ha
            show (connectNext ctx now idx s.node).1.peerConfigs.length = _
            rcases connectNext_cases ctx now idx s.node with
              ⟨-, -, heq⟩ | ⟨-, -, heq⟩ | ⟨-, heq⟩ <;> rw [heq]
        | @resolve now idx i addr =>
            cases ha
            show (setRekeying _ true i).peerConfigs.length = _
            rw [setRekeying_peerConfigs]
            exact hset ..
        | @initiate now idx i clock sentAt fresh sendOk =>
            cases ha
            have hcfgs := (initiateOutboundHandshake_started ctx s.node idx clock sentAt fresh
              sendOk).2.1
            show (initiateNext ctx now idx i clock sentAt fresh sendOk s.node).1.peerConfigs.length
              = _
            obtain ⟨n', hn' | hn', heq⟩ :=
              initiateNext_cases ctx now idx i clock sentAt fresh sendOk s.node
            · rw [heq, hn']
              exact (congrArg List.length hcfgs).trans (hset ..)
            · rw [heq, hn', setRekeying_peerConfigs]
              exact (congrArg List.length hcfgs).trans (hset ..)
        | @finish now iv sendOk sentAt =>
            cases ha
            have hcfgs := congrArg List.length
              (finishPass_quiet ctx (keepalivePass now iv sendOk sentAt) s.node).configs
            rw [List.length_map, List.length_map] at hcfgs
            dsimp only [finishNext]
            generalize finishPass ctx (keepalivePass now iv sendOk sentAt) (s.node, []) = r at *
            exact hcfgs
        | printed | printAddr | printing | loop | clock => cases hmode
        | _ => cases ha
  · exact (congrArg (fun m : Node S => m.peerConfigs.length) (h.cold hmode s) :)

/-- `stop_flag` stays set. -/
theorem ThreadStep.stopFlag {inner : List (Fin MAX_PEERS)}
    {f : Process S → Process S × List (Event S) × Point S} (h : ThreadStep ctx p (.work inner f))
    (s : Process S) (hs : s.stopFlag = true) : (f s).1.stopFlag = true := by
  generalize ha : (Action.work inner f : Act S) = a at h
  cases h with
  | @signal _ sig =>
      cases ha
      show (handleSignal sig s).stopFlag = true
      unfold handleSignal
      split
      · exact hs
      · rfl
  | poll | waitFailed | epollWait | handled | hangup | tun | udp => cases ha; exact hs
  | worker h => cases h <;> first | cases ha; done | (cases ha; exact hs)
  | housekeeper h =>
      cases h with
      | loop =>
          cases ha
          rw [checkFlags, if_pos hs]
          exact hs
      | _ => first | cases ha; done | (cases ha; exact hs)

def Env.isSignal : Env S → Bool
  | .signal _ => true
  | _ => false

theorem isSignal_eq_false {e : Env S} : e.isSignal = false ↔ ∀ sig, e ≠ .signal sig := by
  cases e with
  | signal sig => exact ⟨nofun, fun h => absurd rfl (h sig)⟩
  | _ => exact ⟨fun _ _ => nofun, fun _ => rfl⟩

theorem action_signal (ctx : LoopCtx S) (p : Point S) (sig : Signal) :
    action ctx p (.signal sig) = some (.work [] fun s => (handleSignal sig s, [], p)) := by
  cases p with
  | events todo =>
      cases todo with
      | nil => rfl
      | cons fd todo => cases fd <;> rfl
  | _ => rfl

end Spends

/-! ## All the threads -/

/-- The steps a thread has left at most. -/
def Thread.budget {W : Type} (peers : Nat) : Thread W → Nat
  | .worker _ => 45
  | .housekeeping => 3 * peers + 4 * MAX_PEERS + 10

/-- The threads are the workers and one more. -/
def Thread.equiv (W : Type) : Option W ≃ Thread W where
  toFun := fun | some w => .worker w | none => .housekeeping
  invFun := fun | .worker w => some w | .housekeeping => none
  left_inv x := by cases x <;> rfl
  right_inv t := by cases t <;> rfl

instance {W : Type} [Fintype W] : Fintype (Thread W) := .ofEquiv _ (Thread.equiv W)

theorem sum_budget (W : Type) [Fintype W] (peers : Nat) :
    ∑ t : Thread W, t.budget peers = 45 * Fintype.card W + 3 * peers + 266 := by
  have hsum : ∑ t : Thread W, t.budget peers = ∑ o : Option W, (Thread.equiv W o).budget peers :=
    ((Thread.equiv W).sum_comp fun t => t.budget peers).symm
  have hworkers : ∑ w : W, (Thread.equiv W (some w)).budget peers = 45 * Fintype.card W := by
    show ∑ _ : W, 45 = _
    rw [Finset.sum_const, Finset.card_univ, smul_eq_mul, Nat.mul_comm]
  rw [hsum, Fintype.sum_option, hworkers]
  show 3 * peers + 4 * MAX_PEERS + 10 + _ = _
  simp only [MAX_PEERS]
  omega

section Run

variable {W : Type} [DecidableEq W] {ctx : LoopCtx S} {n : Node S} {c c' : Threads S W}
  {t : Thread W} {a : Act S} {ev : List (Event S)} {peers : Nat}

/-- How much each thread has left at any time. -/
structure Budgeted (peers : Nat) (c : Threads S W) : Prop where
  configs : c.shared.node.peerConfigs.length = peers
  workers : ∀ w, (c.place (.worker w)).isChore = false
  within : ∀ t, (c.place t).remaining peers ≤ t.budget peers

theorem ThreadStep.peerCount_of_performed (ha : ThreadStep ctx (c.place t) a)
    (hp : Pool.Performed c t a c' ev) :
    c'.shared.node.peerConfigs.length = c.shared.node.peerConfigs.length := by
  cases hp with
  | work _ => exact ha.peerCount c.shared
  | _ => rfl

theorem Action.Spends.performed (h : a.Spends peers (c.place t)) (hp : Pool.Performed c t a c' ev)
    (hpeers : c.shared.node.peerConfigs.length = peers) :
    (c'.place t).remaining peers < (c.place t).remaining peers ∨
    c.shared.stopFlag = false ∧ (c.place t).Renewed peers (c'.place t) := by
  cases hp with
  | work _ =>
      rw [Pool.goto_self]
      exact h c.shared hpeers
  | _ =>
      rw [Pool.goto_self]
      exact .inl h

theorem Budgeted.performed (h : Budgeted peers c) {e : Env S}
    (ha : action ctx (c.place t) e = some a) (hp : Pool.Performed c t a c' ev) :
    Budgeted peers c' where
  configs := ((action_cases ha).peerCount_of_performed hp).trans h.configs
  workers w := by
    by_cases hw : (.worker w) = t
    · subst hw
      exact hp.leads ((action_cases ha).role (h.workers w))
    · rw [hp.place_ne hw]
      exact h.workers w
  within u := by
    by_cases hu : u = t
    · subst hu
      by_cases hsig : ∃ sig, e = .signal sig
      · obtain ⟨sig, rfl⟩ := hsig
        rw [action_signal] at ha
        cases ha
        cases hp
        rw [Pool.goto_self]
        exact h.within u
      · rcases (action_spends (fun sig heq => hsig ⟨sig, heq⟩) ha).performed hp h.configs with
          hlt | ⟨-, heq | ⟨hchore, hle⟩⟩
        · exact hlt.le.trans (h.within u)
        -- back at the head of its loop, a thread has its whole budget again
        · rw [heq]
          cases u with
          | worker w => exact le_rfl
          | housekeeping =>
              simp only [Point.remaining, Thread.budget, MAX_PEERS]
              omega
        · cases u with
          | worker w =>
              rw [h.workers w] at hchore
              cases hchore
          | housekeeping => exact hle
    · rw [hp.place_ne hu]
      exact h.within u

theorem Budgeted.step (h : Budgeted peers c) (x : Thread W × Env S) :
    Budgeted peers ((threads ctx).step c x).1 := by
  rcases Pool.step_cases (action ctx) c x.1 x.2 with ⟨a, c', ev, ha, hp, heq⟩ | heq
  · rw [show (threads ctx).step c x = (c', ev) from heq]
    exact h.performed ha hp
  · rw [show (threads ctx).step c x = (c, []) from heq]
    exact h

theorem stopFlag_step (hc : c.shared.stopFlag = true) (x : Thread W × Env S) :
    ((threads ctx).step c x).1.shared.stopFlag = true := by
  rcases Pool.step_cases (action ctx) c x.1 x.2 with ⟨a, c', ev, ha, hp, heq⟩ | heq
  · rw [show (threads ctx).step c x = (c', ev) from heq]
    cases hp with
    | work _ => exact (action_cases ha).stopFlag c.shared hc
    | _ => exact hc
  · rw [show (threads ctx).step c x = (c, []) from heq]
    exact hc

theorem ThreadsReach.budgeted (hc : ThreadsReach ctx n c) :
    Budgeted n.peerConfigs.length c := by
  obtain ⟨sched, rfl⟩ := hc
  refine (threads ctx).invariant_all (I := fun x => Budgeted n.peerConfigs.length x.1)
    (fun x y h => h.step y) sched (startThreads n, []) ⟨rfl, fun _ => rfl, fun t => ?_⟩
  cases t with
  | worker w => exact (by decide : 1 ≤ 45)
  | housekeeping =>
      show 1 ≤ 3 * n.peerConfigs.length + 4 * MAX_PEERS + 10
      omega

/-- The thread makes a step of its own, not of the signal handler. -/
def StepsOn (ctx : LoopCtx S) (c : Threads S W) (x : Thread W × Env S) : Prop :=
  x.2.isSignal = false ∧ Pool.CanMove (action ctx) c x

instance (ctx : LoopCtx S) (c : Threads S W) (x : Thread W × Env S) : Decidable (StepsOn ctx c x) :=
  inferInstanceAs (Decidable (_ ∧ _))

theorem exists_stepsOn (hc : c.Consistent Point.held) (ht : c.place t ≠ .done) :
    ∃ x, StepsOn ctx c x := by
  have hfree : ∀ u, c.place u ≠ .done → ¬ Pool.Blocked (action ctx) c u → ∃ x, StepsOn ctx c x := by
    intro u hu hblocked
    obtain ⟨e, r, he, hr⟩ := exists_move hu hblocked
    exact ⟨(u, e), isSignal_eq_false.mpr he, Option.isSome_iff_exists.mpr ⟨r, hr⟩⟩
  by_cases hblocked : Pool.Blocked (action ctx) c t
  · obtain ⟨u, hin, hu⟩ := Pool.exists_runnable (disciplined ctx) hc hblocked
    exact hfree u (fun hdone => hin (by rw [hdone]; rfl)) hu
  · exact hfree t ht hblocked

/-- The number of steps that are left when `stop_flag` is set. -/
theorem steps_bounded [Fintype W] (hc : ThreadsReach ctx n c) (hstop : c.shared.stopFlag = true)
    (sched : List (Thread W × Env S))
    (hmoves : (threads ctx).Along (fun x y => StepsOn ctx x.1 y) (c, []) sched) :
    sched.length ≤ 45 * Fintype.card W + 3 * n.peerConfigs.length + 266 := by
  have hbudget := hc.budgeted
  have hbound := Pool.moves_bounded (action ctx)
    (Point.remaining n.peerConfigs.length) (G := fun x => x.2.isSignal = false)
    (I := fun c => Budgeted n.peerConfigs.length c ∧ c.shared.stopFlag = true)
    (fun c x h _ => ⟨h.1.step x, stopFlag_step h.2 x⟩) ?_ sched ⟨hbudget, hstop⟩ hmoves
  · calc sched.length
        ≤ ∑ t, (c.place t).remaining n.peerConfigs.length :=
          (Nat.le_add_right _ _).trans hbound
      _ ≤ ∑ t : Thread W, t.budget n.peerConfigs.length :=
          Finset.sum_le_sum fun t _ => hbudget.within t
      _ = 45 * Fintype.card W + 3 * n.peerConfigs.length + 266 := sum_budget W _
  · intro c t e a c' ev h he ha hp
    rcases (action_spends (isSignal_eq_false.mp he) ha).performed hp h.1.configs with
      hlt | ⟨hrunning, -⟩
    · exact hlt
    · rw [h.2] at hrunning
      cases hrunning

/-- **After `stop_flag` is set** the threads make a bounded number of steps, whatever still arrives
and however they are scheduled. If the system calls they wait in return, they can all go on to their
end: whatever they have done since, there are steps, none of them a signal, after which every thread
has ended. -/
theorem threads_wind_down [Fintype W] (hc : ThreadsReach ctx n c)
    (hstop : c.shared.stopFlag = true) (sched : List (Thread W × Env S))
    (hmoves : (threads ctx).Along (fun x y => StepsOn ctx x.1 y) (c, []) sched) :
    sched.length ≤ 45 * Fintype.card W + 3 * n.peerConfigs.length + 266 ∧
    ∃ rest, (threads ctx).Along (fun x y => StepsOn ctx x.1 y) (c, []) (sched ++ rest) ∧
      ∀ t, ((threads ctx).run (c, []) (sched ++ rest)).1.place t = .done := by
  refine ⟨steps_bounded hc hstop sched hmoves, ?_⟩
  refine Machine.exists_completion (fun x => ∀ t, x.1.place t = .done)
    (steps_bounded hc hstop) ?_ hmoves
  intro is _ hgoing
  obtain ⟨t, ht⟩ := not_forall.mp hgoing
  exact exists_stepsOn (hc.run is).consistent ht

end Run

/-- `SIGTERM` while a worker is about to draw a sequence number. -/
def stopped : Threads symbolic Bool :=
  ((threads (ctxOf 1)).run (startThreads routedNode, [])
    (tunArrival ++ [(.worker true, .signal .term)])).1

/-- The packet is sent, and all threads end. -/
def lastSteps : List (Thread Bool × Env symbolic) :=
  [.go, .iv (some []), .go, .go, .sent true, .go, .time 100, .go, .go, .go, .go].map
    (.worker false, ·) ++ [(.worker true, .go), (.housekeeping, .go)]

set_option maxRecDepth 4096 in
theorem threads_wind_down_stopped :
    stopped.shared.stopFlag = true ∧
    (threads (ctxOf 1)).Along (fun x y => StepsOn (ctxOf 1) x.1 y) (stopped, []) lastSteps ∧
    lastSteps.length ≤ 45 * Fintype.card Bool + 3 * routedNode.peerConfigs.length + 266 ∧
    ∃ rest, (threads (ctxOf 1)).Along (fun x y => StepsOn (ctxOf 1) x.1 y) (stopped, [])
        (lastSteps ++ rest) ∧
      ∀ t, ((threads (ctxOf 1)).run (stopped, []) (lastSteps ++ rest)).1.place t = .done := by
  have hmoves : (threads (ctxOf 1)).Along (fun x y => StepsOn (ctxOf 1) x.1 y) (stopped, [])
      lastSteps := by decide +kernel
  exact ⟨rfl, hmoves, threads_wind_down ⟨_, rfl⟩ rfl lastSteps hmoves⟩

end Lanecove
