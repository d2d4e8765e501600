import Lanecove.Threads.Locks
import Lanecove.Threads.Shadow

set_option autoImplicit false

/-! # Threads that hold `table_lock` for reading

How the ghost of the branches so far follows the workers from section to section, while nobody
writes. `Reads` is the invariant; there is one lemma for each kind of step, and `Reads.job` and
`Reads.chore` put them together.
-/

namespace Lanecove

variable {S : Suite} {W : Type} [DecidableEq W]

/-- How the ghost belongs to the tables and to the places of the threads. -/
structure Midway (ctx : LoopCtx S) (c : Threads S W) (g : Ghost S W) : Prop where
  idle : ∀ i, c.owner i = none → c.shared.node.table.sessions i = g.base i
  busy : ∀ i t, c.owner i = some t →
    (c.place t).Half (g.base i) (c.shared.node.table.sessions i)
  owes : ∀ i t, t ∈ g.debt i ↔ (c.place t).owes c.shared.node.table = some i
  knows : ∀ t, (c.place t).Knows ctx c.shared.node.cold g.touched

namespace Midway

omit [DecidableEq W]

variable {ctx : LoopCtx S} {c c' : Threads S W} {g g' : Ghost S W} {t : Thread W}

theorem cold_base (h : Midway ctx c g) (i : Fin MAX_PEERS) :
    (g.base i).cold = (c.shared.node.table.sessions i).cold := by
  cases ho : c.owner i with
  | none => rw [h.idle i ho]
  | some t => exact (h.busy i t ho).cold.symm

/-- The branches so far have left the lookups as they are. -/
theorem cold_node (h : Midway ctx c g) (stamp : Fin MAX_PEERS → Int) :
    (g.node c.shared.node stamp).cold = c.shared.node.cold := by
  have hsessions : (fun i => (g.session stamp i).cold) =
      fun i => (c.shared.node.table.sessions i).cold := by
    funext i
    rw [← h.cold_base i]
    rfl
  unfold Node.cold Ghost.node
  dsimp only
  rw [hsessions]

/-- Thread `t` moves, and the tables change only where no other thread is at work. -/
theorem transfer (h : Midway ctx c g) (hcold : c'.shared.node.cold = c.shared.node.cold)
    (hplace : ∀ u, u ≠ t → c'.place u = c.place u) (htouched : g.touched ⊆ g'.touched)
    (hknows : (c'.place t).Knows ctx c.shared.node.cold g'.touched)
    (hdebt : ∀ i u, u ≠ t → (u ∈ g'.debt i ↔ u ∈ g.debt i))
    (howes : ∀ i, t ∈ g'.debt i ↔ (c'.place t).owes c.shared.node.table = some i)
    (hidle : ∀ i, c'.owner i = none → c'.shared.node.table.sessions i = g'.base i)
    (hmine : ∀ i, c'.owner i = some t →
      (c'.place t).Half (g'.base i) (c'.shared.node.table.sessions i))
    (hothers : ∀ i u, u ≠ t → c'.owner i = some u → c.owner i = some u ∧
      g'.base i = g.base i ∧ c'.shared.node.table.sessions i = c.shared.node.table.sessions i) :
    Midway ctx c' g' where
  idle := hidle
  busy i u hu := by
    by_cases hut : u = t
    · rw [hut] at hu ⊢
      exact hmine i hu
    · obtain ⟨hown, hbase, hsession⟩ := hothers i u hut hu
      rw [hplace u hut, hbase, hsession]
      exact h.busy i u hown
  owes i u := by
    rw [Point.owes_of_cold hcold]
    by_cases hut : u = t
    · rw [hut]
      exact howes i
    · rw [hdebt i u hut, hplace u hut]
      exact h.owes i u
  knows u := by
    rw [hcold]
    by_cases hut : u = t
    · rw [hut]
      exact hknows
    · rw [hplace u hut]
      exact (h.knows u).mono htouched

/-- A step that leaves the sessions alone. It may take or give back the lock of a session on which
thread `t` has changed nothing. -/
theorem walk (h : Midway ctx c g) (hnode : c'.shared.node = c.shared.node)
    (hbase : g'.base = g.base) (hplace : ∀ u, u ≠ t → c'.place u = c.place u)
    (howner : ∀ i, c'.owner i = c.owner i ∨ (c.owner i = none ∧ c'.owner i = some t) ∨
      (c.owner i = some t ∧ c'.owner i = none))
    (hbefore : ∀ s s', (c.place t).Half s s' → s' = s) (hafter : ∀ s, (c'.place t).Half s s)
    (htouched : g.touched ⊆ g'.touched)
    (hknows : (c'.place t).Knows ctx c.shared.node.cold g'.touched)
    (hdebt : ∀ i u, u ≠ t → (u ∈ g'.debt i ↔ u ∈ g.debt i))
    (howes : ∀ i, t ∈ g'.debt i ↔ (c'.place t).owes c.shared.node.table = some i) :
    Midway ctx c' g' := by
  refine h.transfer (by rw [hnode]) hplace htouched hknows hdebt howes (fun i hi => ?_)
    (fun i hi => ?_) fun i u hut hu => ?_
  · rw [hnode, hbase]
    rcases howner i with heq | ⟨-, heq⟩ | ⟨hmine, -⟩
    · exact h.idle i (heq.symm.trans hi)
    · rw [heq] at hi
      cases hi
    · exact hbefore _ _ (h.busy i t hmine)
  · have hsame : c.shared.node.table.sessions i = g.base i := by
      rcases howner i with heq | ⟨hnone, -⟩ | ⟨-, heq⟩
      · exact hbefore _ _ (h.busy i t (heq.symm.trans hi))
      · exact h.idle i hnone
      · rw [heq] at hi
        cases hi
    rw [hnode, hbase, hsame]
    exact hafter _
  · refine ⟨?_, by rw [hbase], by rw [hnode]⟩
    rcases howner i with heq | ⟨-, heq⟩ | ⟨-, heq⟩
    · exact heq.symm.trans hu
    · exact absurd (Option.some.inj (hu.symm.trans heq)) hut
    · rw [heq] at hu
      cases hu

/-- A step of the thread that holds `hot_lock` of a session, on that session. -/
theorem access (h : Midway ctx c g) (hc : c.Consistent Point.held) {l : Fin MAX_PEERS}
    {s : Session S} (hl : c.owner l = some t)
    (hnode : c'.shared.node = c.shared.node.setSession l s) (howner : c'.owner = c.owner)
    (hplace : ∀ u, u ≠ t → c'.place u = c.place u)
    (hs : s.cold = (c.shared.node.table.sessions l).cold)
    (hbase : ∀ i, i ≠ l → g'.base i = g.base i) (hhalf : (c'.place t).Half (g'.base l) s)
    (htouched : g.touched ⊆ g'.touched)
    (hknows : (c'.place t).Knows ctx c.shared.node.cold g'.touched)
    (hdebt : ∀ i u, u ≠ t → (u ∈ g'.debt i ↔ u ∈ g.debt i))
    (howes : ∀ i, t ∈ g'.debt i ↔ (c'.place t).owes c.shared.node.table = some i) :
    Midway ctx c' g' := by
  have hself : c'.shared.node.table.sessions l = s := by
    rw [hnode]
    exact SessionTable.set_sessions_self ..
  have hne : ∀ i, i ≠ l →
      c'.shared.node.table.sessions i = c.shared.node.table.sessions i := by
    intro i hi
    rw [hnode]
    exact SessionTable.set_sessions_ne _ _ hi
  refine h.transfer (by rw [hnode]; exact cold_setSession hs) hplace htouched hknows hdebt howes
    (fun i hi => ?_) (fun i hi => ?_) fun i u hut hu => ?_
  · rw [howner] at hi
    have hil : i ≠ l := by
      rintro rfl
      rw [hl] at hi
      cases hi
    rw [hne i hil, hbase i hil]
    exact h.idle i hi
  · rw [howner] at hi
    have hil : i = l := Option.some.inj
      ((((hc.holds t).owner i).mp hi).symm.trans (((hc.holds t).owner l).mp hl))
    rw [hil, hself]
    exact hhalf
  · rw [howner] at hu
    have hil : i ≠ l := by
      rintro rfl
      exact hut (Option.some.inj (hu.symm.trans hl))
    exact ⟨hu, hbase i hil, hne i hil⟩

end Midway

/-- While nobody writes, the tables are those after some branches, up to what is under way. -/
def Reads (ctx : LoopCtx S) (n₀ : Node S) (c : Threads S W) (tr : List (Event S)) : Prop :=
  ∃ g, Midway ctx c g ∧ Backed ctx n₀ c.shared.node tr g

section Performed

variable {c c' : Threads S W} {t : Thread W} {ev : List (Event S)}

/-- What a step that is not a lock operation does. -/
theorem performed_onNode {f : Node S → Node S × List (Event S) × Point S}
    (h : Pool.Performed c t (onNode f) c' ev) :
    c'.shared.node = (f c.shared.node).1 ∧ c'.owner = c.owner ∧
    (∀ u, u ≠ t → c'.place u = c.place u) ∧ c'.place t = (f c.shared.node).2.2 ∧
    ev = (f c.shared.node).2.1 := by
  unfold onNode at h
  cases h
  exact ⟨rfl, rfl, fun u hu => Pool.goto_ne _ _ _ hu, Pool.goto_self .., rfl⟩

end Performed

section Readers

variable {ctx : LoopCtx S} {n₀ : Node S} {c c' : Threads S W} {t : Thread W}
  {tr ev : List (Event S)} {a : Act S}

omit [DecidableEq W] in
/-- Nothing has changed that the ghost is about. -/
theorem Reads.walk (h : Reads ctx n₀ c tr) (hnode : c'.shared.node = c.shared.node)
    (hplace : ∀ u, u ≠ t → c'.place u = c.place u)
    (howner : ∀ i, c'.owner i = c.owner i ∨ (c.owner i = none ∧ c'.owner i = some t) ∨
      (c.owner i = some t ∧ c'.owner i = none))
    (hbefore : ∀ s s', (c.place t).Half s s' → s' = s) (hafter : ∀ s, (c'.place t).Half s s)
    (hknows : ∀ touched, (c.place t).Knows ctx c.shared.node.cold touched →
      (c'.place t).Knows ctx c.shared.node.cold touched)
    (howes : (c'.place t).owes c.shared.node.table = (c.place t).owes c.shared.node.table)
    (hev : core ev = []) : Reads ctx n₀ c' (tr ++ ev) := by
  obtain ⟨g, hg, hb⟩ := h
  refine ⟨g, hg.walk hnode rfl hplace howner hbefore hafter subset_rfl (hknows _ (hg.knows t))
    (fun _ _ _ => Iff.rfl) (fun i => ?_), ?_⟩
  · rw [howes]
    exact hg.owes i t
  · rw [hnode]
    exact hb.events hev

/-- A thread takes or gives back a lock. -/
theorem Reads.locking (h : Reads ctx n₀ c tr) (hc : c.Consistent Point.held) {p q : Point S}
    (hat : c.place t = p) (hp : Pool.Performed c t a c' ev)
    (ha : a = .rdlock q ∨ a = .rwunlock q ∨ (∃ l, a = .lock l q) ∨ ∃ l, a = .unlock l q)
    (hfit : a.Fits Point.held p.held)
    (hbefore : ∀ s s', p.Half s s' → s' = s) (hafter : ∀ s, q.Half s s)
    (hknows : ∀ touched, p.Knows ctx c.shared.node.cold touched →
      q.Knows ctx c.shared.node.cold touched)
    (howes : q.owes c.shared.node.table = p.owes c.shared.node.table) :
    Reads ctx n₀ c' (tr ++ ev) := by
  subst hat
  have hmove : ∀ {c₁ : Threads S W}, c₁.shared = c.shared → c₁.place = c.place →
      (∀ i, c₁.owner i = c.owner i ∨ (c.owner i = none ∧ c₁.owner i = some t) ∨
        (c.owner i = some t ∧ c₁.owner i = none)) → Reads ctx n₀ (c₁.goto t q) (tr ++ []) := by
    intro c₁ hshared hplace howner
    refine h.walk (t := t) (congrArg Process.node hshared) (fun u hu => ?_) howner hbefore ?_ ?_ ?_
      rfl
    · rw [Pool.goto_ne _ _ _ hu, hplace]
    · rw [Pool.goto_self]
      exact hafter
    · rw [Pool.goto_self]
      exact hknows
    · rw [Pool.goto_self]
      exact howes
  rcases ha with rfl | rfl | ⟨l, rfl⟩ | ⟨l, rfl⟩
  · cases hp
    exact hmove rfl rfl fun _ => .inl rfl
  · cases hp
    exact hmove rfl rfl fun _ => .inl rfl
  · cases hp with
    | lock hfree =>
        refine hmove rfl rfl fun i => ?_
        by_cases hi : i = l
        · subst hi
          exact .inr (.inl ⟨hfree, Function.update_self ..⟩)
        · exact .inl (Function.update_of_ne hi ..)
  · have hown := ((hc.holds t).owner l).mpr (by rw [hfit.1])
    cases hp
    refine hmove rfl rfl fun i => ?_
    by_cases hi : i = l
    · subst hi
      exact .inr (.inr ⟨hown, Function.update_self ..⟩)
    · exact .inl (Function.update_of_ne hi ..)

/-- A step that is not a lock operation and changes nothing in the tables. -/
theorem Reads.moving (h : Reads ctx n₀ c tr) {inner : List (Fin MAX_PEERS)}
    {f : Process S → Process S × List (Event S) × Point S} {s : Process S}
    {ev₀ : List (Event S)} {p q : Point S} (hat : c.place t = p)
    (hp : Pool.Performed c t (.work inner f) c' ev) (hf : f c.shared = (s, ev₀, q))
    (hnode : s.node = c.shared.node) (hev : core ev₀ = [])
    (hbefore : ∀ s s', p.Half s s' → s' = s) (hafter : ∀ s, q.Half s s)
    (hknows : ∀ touched, p.Knows ctx c.shared.node.cold touched →
      q.Knows ctx c.shared.node.cold touched)
    (howes : q.owes c.shared.node.table = p.owes c.shared.node.table) :
    Reads ctx n₀ c' (tr ++ ev) := by
  subst hat
  cases hp
  rw [hf]
  refine h.walk (t := t) hnode (fun u hu => Pool.goto_ne _ _ _ hu) (fun _ => .inl rfl) hbefore ?_
    ?_ ?_ hev
  · rw [Pool.goto_self]
    exact hafter
  · rw [Pool.goto_self]
    exact hknows
  · rw [Pool.goto_self]
    exact howes

/-- An access to the tables that changes nothing. -/
theorem Reads.looking (h : Reads ctx n₀ c tr) {f : Node S → Node S × List (Event S) × Point S}
    {ev₀ : List (Event S)} {p q : Point S} (hat : c.place t = p)
    (hp : Pool.Performed c t (onNode f) c' ev)
    (hf : f c.shared.node = (c.shared.node, ev₀, q)) (hev : core ev₀ = [])
    (hbefore : ∀ s s', p.Half s s' → s' = s) (hafter : ∀ s, q.Half s s)
    (hknows : ∀ touched, p.Knows ctx c.shared.node.cold touched →
      q.Knows ctx c.shared.node.cold touched)
    (howes : q.owes c.shared.node.table = p.owes c.shared.node.table) :
    Reads ctx n₀ c' (tr ++ ev) := by
  refine h.moving hat hp (s := c.shared) ?_ rfl hev hbefore hafter hknows howes
  show ({ c.shared with node := (f c.shared.node).1 }, (f c.shared.node).2) = _
  rw [hf]

/-- A step on a session under its `hot_lock` that leaves the branch under way. -/
theorem Reads.working (h : Reads ctx n₀ c tr) (hc : c.Consistent Point.held)
    {i : Fin MAX_PEERS} {f : Session S → Session S × List (Event S) × Point S} {s : Session S}
    {p q : Point S} (hat : c.place t = p) (hp : Pool.Performed c t (onSession i f) c' ev)
    (hl : p.held.mutex = some i) (hf : f (c.shared.node.table.sessions i) = (s, [], q))
    (hcold : s.cold = (c.shared.node.table.sessions i).cold)
    (hhalf : ∀ b, p.Half b (c.shared.node.table.sessions i) → q.Half b s)
    (hknows : ∀ touched, p.Knows ctx c.shared.node.cold touched →
      q.Knows ctx c.shared.node.cold touched)
    (howes : ∀ tb, q.owes tb = p.owes tb) : Reads ctx n₀ c' (tr ++ ev) := by
  subst hat
  obtain ⟨g, hg, hb⟩ := h
  obtain ⟨hnode, howner, hothers, hplace, rfl⟩ := performed_onNode hp
  dsimp only at hnode hplace ⊢
  rw [hf] at hnode hplace ⊢
  have hown := ((hc.holds t).owner i).mpr hl
  refine ⟨g, hg.access hc hown hnode howner hothers hcold (fun _ _ => rfl) ?_ subset_rfl ?_
    (fun _ _ _ => Iff.rfl) (fun j => ?_), ?_⟩
  · rw [hplace]
    exact hhalf _ (hg.busy i t hown)
  · rw [hplace]
    exact hknows _ (hg.knows t)
  · rw [hplace, howes]
    exact hg.owes j t
  · refine (hb.events rfl).same (fun stamp => ?_) rfl fun _ _ => rfl
    rw [hnode]
    rfl

/-- A worker is done with a data packet on the session it came from. -/
theorem Reads.receiving (h : Reads ctx n₀ c tr) (hc : c.Consistent Point.held)
    {i : Fin MAX_PEERS} {f : Session S → Session S × List (Event S) × Point S}
    {todo : List Source} {d : Incoming S} {s : Session S} {r : Option (Receipt S)} {p : Point S}
    (hat : c.place t = p) (hp : Pool.Performed c t (onSession i f) c' ev)
    (hl : p.held.mutex = some i)
    (hf : f (c.shared.node.table.sessions i) =
      (s, (r.map Event.accepted).toList, .worker todo (.hotUnlock i r)))
    (hcold : s.cold = (c.shared.node.table.sessions i).cold)
    (hrecv : ∀ b, p.Half b (c.shared.node.table.sessions i) →
      receive b i d.pkt d.now = (s, r))
    (hknows : ∀ touched, p.Knows ctx c.shared.node.cold touched →
      d.From ctx c.shared.node.cold i)
    (howes : ∀ tb, p.owes tb = none) : Reads ctx n₀ c' (tr ++ ev) := by
  subst hat
  obtain ⟨g, hg, hb⟩ := h
  obtain ⟨hnode, howner, hothers, hplace, rfl⟩ := performed_onNode hp
  dsimp only at hnode hplace ⊢
  rw [hf] at hnode hplace ⊢
  dsimp only at hnode hplace ⊢
  have hown := ((hc.holds t).owner i).mpr hl
  have hfree : ∀ j, t ∉ g.debt j := by
    intro j hmem
    have hsome := (hg.owes j t).mp hmem
    rw [howes] at hsome
    cases hsome
  have hback := hb.receive (hknows _ (hg.knows t)) hg.cold_node
    (hcold.trans (hg.cold_base i).symm) (hrecv _ (hg.busy i t hown)) hfree
  refine ⟨_, ?_, hback.same (fun stamp => by rw [hnode]; rfl) rfl fun _ _ => rfl⟩
  -- the worker owes what the packet is relayed with, if it is
  cases htarget : r.bind fun r => r.target c.shared.node.table with
  | none =>
      have hnone : (Point.worker todo (.hotUnlock i r)).owes c.shared.node.table = none := by
        cases r with
        | none => rfl
        | some r => exact htarget
      refine hg.access hc hown hnode howner hothers hcold (fun j hj => Ghost.rebase_base_ne hj) ?_
        subset_rfl ?_ (fun _ _ _ => Iff.rfl) (fun j => ?_)
      · rw [hplace]
        exact Ghost.rebase_base_self.symm
      · rw [hplace]
        cases r with
        | none => trivial
        | some r =>
            intro f' hf'
            rw [target_cold, show r.target c.shared.node.table = none from htarget] at hf'
            cases hf'
      · rw [hplace, hnone]
        exact iff_of_false (hfree j) fun heq => by cases heq
  | some f' =>
      cases r with
      | none => cases htarget
      | some r =>
          refine hg.access hc hown hnode howner hothers hcold
            (fun j hj => Ghost.rebase_base_ne hj) ?_ Set.subset_union_left ?_
            (fun j u hu => Ghost.pledge_debt_other hu j) (fun j => ?_)
          · rw [hplace]
            exact Ghost.rebase_base_self.symm
          · rw [hplace]
            intro f'' hf'' hiv
            obtain rfl : f' = f'' := Option.some.inj (htarget.symm.trans hf'')
            exact Ghost.pledge_touched hiv
          · rw [hplace, show (Point.worker todo (.hotUnlock i (some r))).owes
              c.shared.node.table = some f' from htarget]
            exact Ghost.pledge_debt_mine hfree j

/-- A worker has found the session that a packet from the TUN device is for. -/
theorem Reads.routing (h : Reads ctx n₀ c tr) {todo : List Source} {packet : List UInt8}
    (hplace : c.place t = .worker todo (.tunRoute packet))
    (hp : Pool.Performed c t (onNode (routePacket todo packet)) c' ev) :
    Reads ctx n₀ c' (tr ++ ev) := by
  rcases routePacket_cases todo packet c.shared.node with ⟨-, heq⟩ | ⟨f, hroute, heq⟩
  · exact h.looking hplace hp heq rfl (fun _ _ hs => hs) (fun _ => rfl) (fun _ _ => trivial) rfl
  · obtain ⟨g, hg, hb⟩ := h
    obtain ⟨hnode, howner, hothers, hnext, rfl⟩ := performed_onNode hp
    rw [heq] at hnode hnext ⊢
    have hfree : ∀ j, t ∉ g.debt j := by
      intro j hmem
      have hsome := (hg.owes j t).mp hmem
      rw [hplace] at hsome
      cases hsome
    have hip : isIpv4 packet = true := by
      have hk := hg.knows t
      rw [hplace] at hk
      exact hk
    refine ⟨g.pledge t f, ?_, ?_⟩
    · refine hg.walk hnode rfl hothers (fun i => .inl (by rw [howner])) ?_ ?_
        Set.subset_union_left ?_ (fun j u hu => Ghost.pledge_debt_other hu j) (fun j => ?_)
      · rw [hplace]; exact fun _ _ hs => hs
      · rw [hnext]; exact fun _ => rfl
      · rw [hnext]; exact fun hiv => Ghost.pledge_touched hiv
      · rw [hnext]; exact Ghost.pledge_debt_mine hfree j
    · rw [hnode, List.append_nil]
      exact hb.tun hip hg.cold_node hroute (hfree f)

/-- A worker draws the sequence number it owes. -/
theorem Reads.drawing (h : Reads ctx n₀ c tr) (hc : c.Consistent Point.held) {todo : List Source}
    {i : Fin MAX_PEERS} {payload : List UInt8}
    (hplace : c.place t = .worker todo (.drawSeq i payload))
    (hp : Pool.Performed c t (onSession i (takeSeq todo i payload)) c' ev) :
    Reads ctx n₀ c' (tr ++ ev) := by
  obtain ⟨g, hg, hb⟩ := h
  obtain ⟨hnode, howner, hothers, hnext, rfl⟩ := performed_onNode hp
  have hown := ((hc.holds t).owner i).mpr (by rw [hplace]; rfl)
  have hsame : c.shared.node.table.sessions i = g.base i := by
    have hbusy := hg.busy i t hown
    rw [hplace] at hbusy
    exact hbusy
  have hdebt : t ∈ g.debt i := (hg.owes i t).mpr (by rw [hplace]; rfl)
  refine ⟨g.settle t i, hg.access hc hown hnode howner hothers rfl
    (fun j hj => Ghost.settle_base_ne hj) ?_ subset_rfl ?_
    (fun j u hu => Ghost.settle_debt_other hu j) (fun j => ?_), ?_⟩
  · rw [hnext, Ghost.settle_base_self, ← hsame]
    rfl
  · have hk := hg.knows t
    rw [hplace] at hk
    rw [hnext]
    exact hk
  · rw [hnext]
    refine iff_of_false (fun hmem => ?_) (fun heq => by cases heq)
    by_cases hj : j = i
    · rw [hj, Ghost.settle_debt_self] at hmem
      exact Finset.notMem_erase _ _ hmem
    · rw [Ghost.settle_debt_ne hj] at hmem
      have hsome := (hg.owes j t).mp hmem
      rw [hplace] at hsome
      exact hj (Option.some.inj hsome).symm
  · refine (hb.events rfl).same (fun stamp => ?_) rfl (fun j _ => ?_)
    · rw [hnode]
      exact g.node_settle _ stamp hdebt
    · by_cases hj : j = i
      · rw [hj, Ghost.settle_base_self]
      · rw [Ghost.settle_base_ne hj]

/-- A worker notes that it has sent something. -/
theorem Reads.marking (h : Reads ctx n₀ c tr) (hc : c.Consistent Point.held) {todo : List Source}
    {i : Fin MAX_PEERS} {time : Int} (hplace : c.place t = .worker todo (.markSent i))
    (hp : Pool.Performed c t (onSession i (writeLastSent todo i time)) c' ev) :
    Reads ctx n₀ c' (tr ++ ev) := by
  obtain ⟨g, hg, hb⟩ := h
  obtain ⟨hnode, howner, hothers, hnext, rfl⟩ := performed_onNode hp
  have hown := ((hc.holds t).owner i).mpr (by rw [hplace]; rfl)
  have hsame : c.shared.node.table.sessions i = g.base i := by
    have hbusy := hg.busy i t hown
    rw [hplace] at hbusy
    exact hbusy
  have htouched : i ∈ g.touched := by
    have hk := hg.knows t
    rw [hplace] at hk
    exact hk
  refine ⟨g.rebase i { g.base i with lastSent := time }, hg.access hc hown hnode howner hothers
    rfl (fun j hj => Ghost.rebase_base_ne hj) ?_ subset_rfl ?_ (fun _ _ _ => Iff.rfl)
    (fun j => ?_), ?_⟩
  · rw [hnext, Ghost.rebase_base_self, ← hsame]
    rfl
  · rw [hnext]
    trivial
  · rw [hnext]
    have howes := hg.owes j t
    rw [hplace] at howes
    exact howes
  · refine (hb.events rfl).same (fun stamp => ?_) rfl (fun j hj => ?_)
    · rw [hnode, Ghost.node_rebase]
      exact Node.setSession_self (g.node c.shared.node stamp) i
    · rw [Ghost.rebase_base_ne]
      rintro rfl
      exact hj htouched

/-- A thread outside the locks does something that leaves the tables alone. -/
theorem Reads.aside (h : Reads ctx n₀ c tr) (ha : ThreadStep ctx (c.place t) a)
    (hfree : (c.place t).held.mode = .free) (haside : a.Aside)
    (hp : Pool.Performed c t a c' ev) : Reads ctx n₀ c' (tr ++ ev) := by
  obtain ⟨f, rfl, hf⟩ := haside
  have hafter : (f c.shared).2.2.held.mode = .free := by
    rw [ha.fits.1 c.shared]
    exact hfree
  refine h.moving rfl hp rfl (hf c.shared).1 (core_of_delivered (hf c.shared).2)
    (fun s s' => (Point.half_outside hfree s s').mp)
    (fun s => (Point.half_outside hafter s s).mpr rfl)
    (fun touched hk => ha.knows_aside hfree c.shared hk _) ?_
  rw [Point.owes_outside hafter, Point.owes_outside hfree]

omit [DecidableEq W] in
/-- The signal handler touches neither the tables nor the places. -/
theorem Reads.undisturbed (h : Reads ctx n₀ c tr) (hnode : c'.shared.node = c.shared.node)
    (howner : c'.owner = c.owner) (hplace : c'.place = c.place) : Reads ctx n₀ c' tr := by
  obtain ⟨g, hg, hb⟩ := h
  refine ⟨g, ⟨?_, ?_, ?_, ?_⟩, by rw [hnode]; exact hb⟩
  · rw [hnode, howner]
    exact hg.idle
  · rw [hnode, howner, hplace]
    exact hg.busy
  · rw [hnode, hplace]
    exact hg.owes
  · rw [hnode, hplace]
    exact hg.knows

/-- What the two attempts at decryption leave for the checks. -/
theorem receive_of_decrypted {b s : Session S} {i : Fin MAX_PEERS} {d : Incoming S}
    {usedPrev : Bool} {plain : List UInt8}
    (h : decryptSession b d.pkt d.now = (s, some (usedPrev, plain))) :
    receive b i d.pkt d.now = ((acceptFrame s usedPrev plain).1,
      (acceptFrame s usedPrev plain).2.map (receiptOf i d usedPrev s)) := by
  have hcold := decryptSession_cold b d.pkt d.now
  rw [h] at hcold
  have hpub : s.staticPub = b.staticPub := (congrArg Session.staticPub hcold :)
  have hkey : s.sessionKey = b.sessionKey := (congrArg Session.sessionKey hcold :)
  have hprev : s.prevSessionKey = b.prevSessionKey := (congrArg Session.prevSessionKey hcold :)
  unfold receive
  rw [h]
  dsimp only
  unfold receiptOf
  rw [hpub, hkey, hprev]

/-- The attempt with the previous key ends in the checks, or the packet is dropped. -/
theorem half_openPrev (todo : List Source) (i : Fin MAX_PEERS) (d : Incoming S) (s : Session S) :
    (∃ plain, openPrev todo i d s = (s, [], .worker todo (.checkFrame i d true plain)) ∧
      ∀ b, (Job.decryptPrev i d).Half b s →
        decryptSession b d.pkt d.now = (s, some (true, plain))) ∨
    openPrev todo i d s = (s, [], .worker todo (.hotUnlock i none)) ∧
      ∀ b, (Job.decryptPrev i d).Half b s → receive b i d.pkt d.now = (s, none) := by
  have hsession : ∀ b, (Job.decryptPrev i d).Half b s → decryptSession b d.pkt d.now =
      (s, if s.prevKeyActive && decide (d.now ≤ s.prevKeyExpires) then
        (S.decryptPacket s.prevSessionKey d.pkt).map fun plain => (true, plain) else none) := by
    rintro b ⟨rfl, hcur⟩
    unfold decryptSession
    rw [hcur]
    dsimp only
    split_ifs <;> rfl
  rcases openPrev_cases todo i d s with ⟨hnone, heq⟩ | ⟨plain, hvalid, hopen, heq⟩
  · refine .inr ⟨heq, fun b hb => ?_⟩
    unfold receive
    rw [hsession b hb]
    split_ifs with hvalid
    · rw [hnone hvalid]
      rfl
    · rfl
  · refine .inl ⟨plain, heq, fun b hb => ?_⟩
    rw [hsession b hb, if_pos hvalid, hopen, Option.map_some]

/-- A step of a worker inside `table_lock` held for reading. -/
theorem Reads.job (h : Reads ctx n₀ c tr) (hc : c.Consistent Point.held) {todo : List Source}
    {job : Job S} (hplace : c.place t = .worker todo job) (hread : job.held.mode = .read)
    (ha : JobStep ctx todo job a) (hp : Pool.Performed c t a c' ev) :
    Reads ctx n₀ c' (tr ++ ev) := by
  have hfit : a.Fits Point.held (Point.worker todo job).held := ha.fits
  cases ha with
  | tunRoute => exact h.routing hplace hp
  | drawSeq => exact h.drawing hc hplace hp
  | markSent => exact h.marking hc hplace hp
  -- lock operations: nothing has been changed that the lock guards
  | tunUnlock | rdUnlock =>
      exact h.locking hc hplace hp (.inr (.inl rfl)) hfit (fun _ _ hs => hs) (fun _ => rfl)
        (fun _ _ => trivial) rfl
  | hotLock | fwdLock | sentLock =>
      exact h.locking hc hplace hp (.inr (.inr (.inl ⟨_, rfl⟩))) hfit (fun _ _ hs => hs)
        (fun _ => rfl) (fun _ hk => hk) rfl
  | hotUnlockNone | encryptFailed | sentUnlock =>
      exact h.locking hc hplace hp (.inr (.inr (.inr ⟨_, rfl⟩))) hfit (fun _ _ hs => hs)
        (fun _ => rfl) (fun _ _ => trivial) rfl
  | hotUnlockSome | fwdUnlock =>
      exact h.locking hc hplace hp (.inr (.inr (.inr ⟨_, rfl⟩))) hfit (fun _ _ hs => hs)
        (fun _ => rfl) (fun _ hk => hk) rfl
  -- system calls and lookups: the tables stay as they are
  | sendto =>
      exact h.moving hplace hp rfl rfl rfl (fun _ _ hs => hs) (fun _ => rfl) (fun _ hk => hk) rfl
  | sendFailed =>
      exact h.moving hplace hp rfl rfl rfl (fun _ _ hs => hs) (fun _ => rfl)
        (fun _ _ => trivial) rfl
  | @dataLookup d =>
      rcases lookupSource_cases todo d c.shared.node with ⟨-, heq⟩ | ⟨i, hfound, heq⟩
      · exact h.looking hplace hp heq rfl (fun _ _ hs => hs) (fun _ => rfl) (fun _ _ => trivial)
          rfl
      · exact h.looking hplace hp heq rfl (fun _ _ hs => hs) (fun _ => rfl)
          (fun _ hk => ⟨hk, hfound⟩) rfl
  | @route r =>
      rcases routeReceipt_target todo r c.shared.node with
        ⟨hnone, heq | heq⟩ | ⟨f, hsome, heq⟩
      · exact h.looking hplace hp heq rfl (fun _ _ hs => hs) (fun _ => rfl) (fun _ _ => trivial)
          hnone.symm
      · exact h.looking hplace hp heq rfl (fun _ _ hs => hs) (fun _ => rfl) (fun _ _ => trivial)
          hnone.symm
      · exact h.looking hplace hp heq rfl (fun _ _ hs => hs) (fun _ => rfl)
          (fun _ hk => hk f hsome) hsome.symm
  -- accesses under `hot_lock`: what has been done of the branch grows by one access
  | @markSeen i d =>
      refine h.working hc hplace hp rfl rfl rfl (fun b hb => ?_) (fun _ hk => hk) fun _ => rfl
      rw [show c.shared.node.table.sessions i = b from hb]
      rfl
  | @decryptCurrent i d =>
      rcases openCurrent_cases todo i d (c.shared.node.table.sessions i) with
        ⟨hopen, heq⟩ | ⟨plain, hopen, heq⟩
      · refine h.working hc hplace hp rfl heq rfl (fun b hb => ⟨hb, ?_⟩) (fun _ hk => hk)
          fun _ => rfl
        rwa [hb] at hopen
      · refine h.working hc hplace hp rfl heq rfl (fun b hb => ⟨hb, ?_⟩) (fun _ hk => hk)
          fun _ => rfl
        rwa [hb] at hopen
  | @retirePrev i d plain =>
      refine h.working hc hplace hp rfl rfl rfl ?_ (fun _ hk => hk) fun _ => rfl
      rintro b ⟨hb, hopen⟩
      show decryptSession b d.pkt d.now = _
      rw [decryptSession, hopen, hb]
  | @encrypt i payload seq iv =>
      cases iv with
      | none =>
          exact h.working hc hplace hp rfl rfl rfl (fun _ hb => hb) (fun _ _ => trivial)
            fun _ => rfl
      | some iv =>
          exact h.working hc hplace hp rfl rfl rfl (fun _ hb => hb) (fun _ hk => hk ⟨iv⟩)
            fun _ => rfl
  | readAddr =>
      exact h.working hc hplace hp rfl rfl rfl (fun _ hb => hb) (fun _ hk => hk) fun _ => rfl
  -- the last access of a branch on the session the packet came from
  | @decryptPrev i d =>
      rcases half_openPrev todo i d (c.shared.node.table.sessions i) with
        ⟨plain, heq, hhalf⟩ | ⟨heq, hrecv⟩
      · exact h.working hc hplace hp rfl heq rfl hhalf (fun _ hk => hk) fun _ => rfl
      · exact h.receiving hc hplace hp rfl (r := none) heq rfl hrecv (fun _ hk => hk)
          fun _ => rfl
  | @checkFrame i d usedPrev plain =>
      exact h.receiving hc hplace hp rfl rfl (acceptFrame_cold ..)
        (fun _ hb => receive_of_decrypted hb) (fun _ hk => hk) fun _ => rfl
  | _ => cases hread

/-- A step of the housekeeping thread inside `table_lock` held for reading. -/
theorem Reads.chore (h : Reads ctx n₀ c tr) (hc : c.Consistent Point.held) {chore : Chore}
    (hplace : c.place t = .housekeeper chore) (hread : chore.held.mode = .read)
    (ha : ChoreStep ctx chore a) (hp : Pool.Performed c t a c' ev) :
    Reads ctx n₀ c' (tr ++ ev) := by
  have hfit : a.Fits Point.held (Point.housekeeper chore : Point S).held := ha.fits
  cases ha with
  | printed | printAddr =>
      exact h.moving hplace hp rfl rfl rfl (fun _ _ hs => hs) (fun _ => rfl) (fun _ _ => trivial)
        rfl
  | printLock =>
      exact h.locking hc hplace hp (.inr (.inr (.inl ⟨_, rfl⟩))) hfit (fun _ _ hs => hs)
        (fun _ => rfl) (fun _ _ => trivial) rfl
  | printUnlock =>
      exact h.locking hc hplace hp (.inr (.inr (.inr ⟨_, rfl⟩))) hfit (fun _ _ hs => hs)
        (fun _ => rfl) (fun _ _ => trivial) rfl
  | printRdunlock =>
      exact h.locking hc hplace hp (.inr (.inl rfl)) hfit (fun _ _ hs => hs) (fun _ => rfl)
        (fun _ _ => trivial) rfl
  | @printing i rest =>
      rcases printSlot_cases i rest c.shared.node with heq | heq
      · exact h.looking hplace hp heq rfl (fun _ _ hs => hs) (fun _ => rfl) (fun _ _ => trivial)
          rfl
      · exact h.looking hplace hp heq rfl (fun _ _ hs => hs) (fun _ => rfl) (fun _ _ => trivial)
          rfl
  | _ => cases hread

end Readers

end Lanecove
