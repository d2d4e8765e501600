import Lanecove.Basic.Machine
import Mathlib.Data.Finset.Basic

set_option autoImplicit false

/-! # Threads that share a state under locks

Any number of threads work on one shared state. There is one read-write lock and a family of
mutexes. A program says, for the place a thread has reached and for what the environment gives it,
which action comes next; `pool` is the machine in which a scheduler picks the thread that moves.

* `Disciplined` ties a program to what it holds at each place: nothing is taken twice, a mutex is
  taken only inside a read section, and what a writer takes it gives back in the same action.
* `Consistent` says that the locks are held by the threads whose places say so. Every run keeps it
  (`consistent_run`), so a writer is alone and a mutex has one owner.
* `exists_runnable` is the absence of deadlock: a blocked thread waits for a holder that can go on.
* `no_race` is the absence of data races, for programs that touch each variable only with the lock
  that guards it.
-/

namespace Lanecove

/-- What a thread does next. With `work` it reads and writes the shared state; the mutexes of
`inner` are taken and given back on the way. -/
inductive Action (σ ε P L : Type) where
  | rdlock (next : P)
  | wrlock (next : P)
  | rwunlock (next : P)
  | lock (l : L) (next : P)
  | unlock (l : L) (next : P)
  | work (inner : List L) (f : σ → σ × List ε × P)

/-- The action at a place, for what the environment gives; `none` if the place does not wait for
that. -/
abbrev Program (σ ε P L E : Type) : Type := P → E → Option (Action σ ε P L)

/-- The shared state, who holds the locks, and where each thread is. -/
structure Pool (σ P L T : Type) where
  shared : σ
  readers : Finset T
  writer : Option T
  owner : L → Option T
  place : T → P

/-- Wherever the action leads, `Q` holds of the next place. -/
def Action.Leads {σ ε P L : Type} (Q : P → Prop) : Action σ ε P L → Prop
  | .rdlock p => Q p
  | .wrlock p => Q p
  | .rwunlock p => Q p
  | .lock _ p => Q p
  | .unlock _ p => Q p
  | .work _ f => ∀ s, Q (f s).2.2

namespace Pool

variable {σ ε P L T E : Type} [DecidableEq T] [DecidableEq L]

def goto (c : Pool σ P L T) (t : T) (p : P) : Pool σ P L T :=
  { c with place := Function.update c.place t p }

/-- Thread `t` carries out an action; `none` if it has to wait. -/
def perform (c : Pool σ P L T) (t : T) : Action σ ε P L → Option (Pool σ P L T × List ε)
  | .rdlock p =>
      if c.writer = none then some ({ c with readers := insert t c.readers }.goto t p, [])
      else none
  | .wrlock p =>
      if c.writer = none ∧ c.readers = ∅ then some ({ c with writer := some t }.goto t p, [])
      else none
  | .rwunlock p =>
      some ({ c with
        readers := c.readers.erase t
        writer := if c.writer = some t then none else c.writer }.goto t p, [])
  | .lock l p =>
      if c.owner l = none then
        some ({ c with owner := Function.update c.owner l (some t) }.goto t p, [])
      else none
  | .unlock l p => some ({ c with owner := Function.update c.owner l none }.goto t p, [])
  | .work inner f =>
      if ∀ l ∈ inner, c.owner l = none then
        some ({ c with shared := (f c.shared).1 }.goto t (f c.shared).2.2, (f c.shared).2.1)
      else none

/-- A move of thread `t`, if it has one. -/
def move (prog : Program σ ε P L E) (c : Pool σ P L T) (t : T) (e : E) :
    Option (Pool σ P L T × List ε) :=
  (prog (c.place t) e).bind (c.perform t)

/-- The threads in any interleaving. A thread that cannot move stays where it is. -/
def pool (prog : Program σ ε P L E) : Machine (Pool σ P L T) (T × E) ε where
  step c x := (c.move prog x.1 x.2).getD (c, [])

/-- The threads before they start. -/
def start (s : σ) (place : T → P) : Pool σ P L T := ⟨s, ∅, none, fun _ => none, place⟩

section Places

omit [DecidableEq L]

variable (c : Pool σ P L T) (t : T) (p : P)

@[simp] theorem goto_shared : (c.goto t p).shared = c.shared := rfl
@[simp] theorem goto_readers : (c.goto t p).readers = c.readers := rfl
@[simp] theorem goto_writer : (c.goto t p).writer = c.writer := rfl
@[simp] theorem goto_owner : (c.goto t p).owner = c.owner := rfl
@[simp] theorem goto_self : (c.goto t p).place t = p := Function.update_self ..

theorem goto_ne {u : T} (h : u ≠ t) : (c.goto t p).place u = c.place u :=
  Function.update_of_ne h ..

end Places

/-- What an action does, and when it can be carried out. -/
inductive Performed (c : Pool σ P L T) (t : T) :
    Action σ ε P L → Pool σ P L T → List ε → Prop
  | rdlock {p} (h : c.writer = none) :
      Performed c t (.rdlock p) ({ c with readers := insert t c.readers }.goto t p) []
  | wrlock {p} (h : c.writer = none) (hr : c.readers = ∅) :
      Performed c t (.wrlock p) ({ c with writer := some t }.goto t p) []
  | rwunlock {p} : Performed c t (.rwunlock p) ({ c with
      readers := c.readers.erase t
      writer := if c.writer = some t then none else c.writer }.goto t p) []
  | lock {l p} (h : c.owner l = none) : Performed c t (.lock l p)
      ({ c with owner := Function.update c.owner l (some t) }.goto t p) []
  | unlock {l p} : Performed c t (.unlock l p)
      ({ c with owner := Function.update c.owner l none }.goto t p) []
  | work {inner f} (h : ∀ l ∈ inner, c.owner l = none) : Performed c t (.work inner f)
      ({ c with shared := (f c.shared).1 }.goto t (f c.shared).2.2) (f c.shared).2.1

theorem perform_cases {c : Pool σ P L T} {t : T} {a : Action σ ε P L}
    {r : Pool σ P L T × List ε} (hr : c.perform t a = some r) : Performed c t a r.1 r.2 := by
  cases a with
  | rdlock p =>
      simp only [perform] at hr
      split at hr
      · rename_i h
        cases hr
        exact .rdlock h
      · cases hr
  | wrlock p =>
      simp only [perform] at hr
      split at hr
      · rename_i h
        cases hr
        exact .wrlock h.1 h.2
      · cases hr
  | rwunlock p =>
      cases hr
      exact .rwunlock
  | lock l p =>
      simp only [perform] at hr
      split at hr
      · rename_i h
        cases hr
        exact .lock h
      · cases hr
  | unlock l p =>
      cases hr
      exact .unlock
  | work inner f =>
      simp only [perform] at hr
      split at hr
      · rename_i h
        cases hr
        exact .work h
      · cases hr

theorem Performed.leads {c c' : Pool σ P L T} {t : T} {a : Action σ ε P L} {ev : List ε}
    {Q : P → Prop} (h : Performed c t a c' ev) (hQ : a.Leads Q) : Q (c'.place t) := by
  cases h with
  | work _ =>
      rw [goto_self]
      exact hQ _
  | _ =>
      rw [goto_self]
      exact hQ

theorem Performed.place_ne {c c' : Pool σ P L T} {t u : T} {a : Action σ ε P L} {ev : List ε}
    (h : Performed c t a c' ev) (hu : u ≠ t) : c'.place u = c.place u := by
  cases h <;> exact goto_ne _ _ _ hu

/-- **What a step can do**: a thread moves, or nothing changes. -/
theorem step_cases (prog : Program σ ε P L E) (c : Pool σ P L T) (t : T) (e : E) :
    (∃ a c' ev, prog (c.place t) e = some a ∧ Performed c t a c' ev ∧
      (pool prog).step c (t, e) = (c', ev)) ∨ (pool prog).step c (t, e) = (c, []) := by
  show (∃ a c' ev, _ ∧ _ ∧ (c.move prog t e).getD (c, []) = (c', ev)) ∨
    (c.move prog t e).getD (c, []) = _
  unfold move
  cases hp : prog (c.place t) e with
  | none => exact .inr rfl
  | some a =>
      rw [Option.bind_some]
      cases hr : c.perform t a with
      | none => exact .inr rfl
      | some r => exact .inl ⟨a, r.1, r.2, rfl, perform_cases hr, rfl⟩

end Pool

/-! ## What a thread holds -/

/-- How a thread holds the read-write lock. -/
inductive Mode where
  | free
  | read
  | write
  deriving DecidableEq

/-- What a thread holds at a place: the read-write lock, and at most one mutex. -/
structure Held (L : Type) where
  mode : Mode
  mutex : Option L

/-- The action fits what is held before it, `h`, and what its next place says is held after it. -/
def Action.Fits {σ ε P L : Type} (held : P → Held L) (h : Held L) : Action σ ε P L → Prop
  | .rdlock p => h = ⟨.free, none⟩ ∧ held p = ⟨.read, none⟩
  | .wrlock p => h = ⟨.free, none⟩ ∧ held p = ⟨.write, none⟩
  | .rwunlock p => h.mode ≠ .free ∧ h.mutex = none ∧ held p = ⟨.free, none⟩
  | .lock l p => h = ⟨.read, none⟩ ∧ held p = ⟨.read, some l⟩
  | .unlock l p => h = ⟨.read, some l⟩ ∧ held p = ⟨.read, none⟩
  | .work inner f => (∀ s, held (f s).2.2 = h) ∧ (inner ≠ [] → h.mode = .write)

/-- The program keeps the order of the locks: the read-write lock first, then one mutex. -/
structure Disciplined {σ ε P L E : Type} (prog : Program σ ε P L E) (held : P → Held L) :
    Prop where
  fits : ∀ p e a, prog p e = some a → a.Fits held (held p)
  read_of_mutex : ∀ p l, (held p).mutex = some l → (held p).mode = .read

namespace Pool

variable {σ ε P L T E : Type} [DecidableEq T] [DecidableEq L]

/-- What the locks say that thread `t` holds is `h`. -/
structure Holds (c : Pool σ P L T) (t : T) (h : Held L) : Prop where
  reader : t ∈ c.readers ↔ h.mode = .read
  writer : c.writer = some t ↔ h.mode = .write
  owner : ∀ l, c.owner l = some t ↔ h.mutex = some l

/-- The locks are held by the threads whose places say so. -/
structure Consistent (held : P → Held L) (c : Pool σ P L T) : Prop where
  holds : ∀ t, c.Holds t (held (c.place t))
  alone : c.writer ≠ none → c.readers = ∅

variable {prog : Program σ ε P L E} {held : P → Held L} {c c' : Pool σ P L T}

omit [DecidableEq T] [DecidableEq L] in
theorem consistent_start (s : σ) {place : T → P} (h : ∀ t, held (place t) = ⟨.free, none⟩) :
    (start s place : Pool σ P L T).Consistent held := by
  refine ⟨fun t => ?_, fun hw => absurd rfl hw⟩
  show (start s place).Holds t (held (place t))
  rw [h t]
  constructor <;> simp [start]

/-- A thread that moves holds afterwards what its next place says. -/
theorem Performed.holds {t : T} {a : Action σ ε P L} {ev : List ε} (hc : c.Consistent held)
    (hfit : a.Fits held (held (c.place t))) (h : Performed c t a c' ev) :
    c'.Holds t (held (c'.place t)) := by
  obtain ⟨hreader, hwriter, howner⟩ := hc.holds t
  -- what changes for a mutex other than the one taken or given back
  have hother : ∀ {l l' : L} {o : Option T}, l' ≠ l →
      (Function.update c.owner l o l' = some t ↔ (held (c.place t)).mutex = some l') := by
    intro l l' o hl
    rw [Function.update_of_ne hl]
    exact howner l'
  cases h with
  | rdlock hw =>
      obtain ⟨hbefore, hafter⟩ := hfit
      rw [hbefore] at howner
      rw [goto_self, hafter]
      exact ⟨by simp, by simp [hw], howner⟩
  | wrlock hw hr =>
      obtain ⟨hbefore, hafter⟩ := hfit
      rw [hbefore] at howner
      rw [goto_self, hafter]
      exact ⟨by simp [hr], by simp, howner⟩
  | rwunlock =>
      obtain ⟨-, hmutex, hafter⟩ := hfit
      rw [hmutex] at howner
      rw [goto_self, hafter]
      refine ⟨by simp, ?_, howner⟩
      simp only [goto_writer]
      split <;> simp_all
  | @lock l p hfree =>
      obtain ⟨hbefore, hafter⟩ := hfit
      rw [hbefore] at hreader hwriter hother
      rw [goto_self, hafter]
      refine ⟨hreader, hwriter, fun l' => ?_⟩
      by_cases hl : l' = l
      · simp [hl]
      · have hne : l ≠ l' := fun heq => hl heq.symm
        simpa [hne] using hother hl
  | @unlock l p =>
      obtain ⟨hbefore, hafter⟩ := hfit
      rw [hbefore] at hreader hwriter hother
      rw [goto_self, hafter]
      refine ⟨hreader, hwriter, fun l' => ?_⟩
      by_cases hl : l' = l
      · simp [hl]
      · have hne : l ≠ l' := fun heq => hl heq.symm
        simpa [hne] using hother hl
  | work _ =>
      rw [goto_self, hfit.1]
      exact ⟨hreader, hwriter, howner⟩

/-- What the other threads hold does not change. -/
theorem Performed.others {t u : T} {a : Action σ ε P L} {ev : List ε} (hu : u ≠ t)
    (hc : c.Consistent held) (hfit : a.Fits held (held (c.place t)))
    (h : Performed c t a c' ev) : c'.Holds u (held (c'.place u)) := by
  obtain ⟨hreader, hwriter, howner⟩ := hc.holds u
  have hne : t ≠ u := hu.symm
  cases h with
  | rdlock _ =>
      rw [goto_ne _ _ _ hu]
      exact ⟨by simpa [hu] using hreader, hwriter, howner⟩
  | wrlock hw _ =>
      rw [goto_ne _ _ _ hu]
      rw [hw] at hwriter
      exact ⟨hreader, by simpa [hne] using hwriter, howner⟩
  | rwunlock =>
      rw [goto_ne _ _ _ hu]
      refine ⟨by simpa [hu] using hreader, ?_, howner⟩
      rw [← hwriter, goto_writer]
      split
      · rename_i hw
        simp [hw, hne]
      · rfl
  | @lock l p hfree =>
      rw [goto_ne _ _ _ hu]
      refine ⟨hreader, hwriter, fun l' => ?_⟩
      by_cases hl : l' = l
      · have hown := howner l
        rw [hfree] at hown
        simpa [hl, hne] using hown
      · simpa [Function.update_of_ne hl] using howner l'
  | @unlock l p =>
      rw [goto_ne _ _ _ hu]
      have hmine := ((hc.holds t).owner l).mpr (by rw [hfit.1])
      refine ⟨hreader, hwriter, fun l' => ?_⟩
      by_cases hl : l' = l
      · have hown := howner l
        rw [hmine] at hown
        simpa [hl, hne] using hown
      · simpa [Function.update_of_ne hl] using howner l'
  | work _ =>
      rw [goto_ne _ _ _ hu]
      exact ⟨hreader, hwriter, howner⟩

theorem Performed.alone {t : T} {a : Action σ ε P L} {ev : List ε}
    (hc : c.writer ≠ none → c.readers = ∅) (h : Performed c t a c' ev) :
    c'.writer ≠ none → c'.readers = ∅ := by
  cases h with
  | rdlock hw => exact fun hne => absurd hw hne
  | wrlock _ hr => exact fun _ => hr
  | rwunlock =>
      intro hne
      have hw : c.writer ≠ none := fun hw => by simp [hw] at hne
      simp [hc hw]
  | lock _ => exact hc
  | unlock => exact hc
  | work _ => exact hc

/-- A move keeps the locks consistent with the places. -/
theorem Performed.consistent {t : T} {a : Action σ ε P L} {ev : List ε}
    (hc : c.Consistent held) (hfit : a.Fits held (held (c.place t)))
    (h : Performed c t a c' ev) : c'.Consistent held := by
  refine ⟨fun u => ?_, h.alone hc.alone⟩
  by_cases hu : u = t
  · rw [hu]
    exact h.holds hc hfit
  · exact h.others hu hc hfit

theorem Consistent.step (hc : c.Consistent held) (hd : Disciplined prog held) (x : T × E) :
    ((pool prog).step c x).1.Consistent held := by
  rcases step_cases prog c x.1 x.2 with ⟨a, c', ev, ha, h, heq⟩ | heq
  · rw [heq]
    exact h.consistent hc (hd.fits _ _ _ ha)
  · rw [heq]
    exact hc

/-- **Every run keeps the locks consistent with the places.** -/
theorem consistent_run (hd : Disciplined prog held) {s : σ} {place : T → P}
    (h : ∀ t, held (place t) = ⟨.free, none⟩) (sched : List (T × E)) :
    ((pool prog).run (start s place, []) sched).1.Consistent held :=
  (pool prog).invariant_all (I := fun c => c.1.Consistent held) (fun _ x hc => hc.step hd x) sched
    _ (consistent_start s h)

/-! ## Mutual exclusion -/

section Exclusion

omit [DecidableEq T] [DecidableEq L]

variable (hc : c.Consistent held)

include hc

/-- A writer is alone. -/
theorem Consistent.exclusive {t u : T} (ht : (held (c.place t)).mode = .write) (hu : u ≠ t) :
    (held (c.place u)).mode = .free := by
  have hw := (hc.holds t).writer.mpr ht
  cases hm : (held (c.place u)).mode with
  | free => rfl
  | read =>
      have hmem := (hc.holds u).reader.mpr hm
      rw [hc.alone (by simp [hw])] at hmem
      cases hmem
  | write => exact absurd (Option.some.inj (((hc.holds u).writer.mpr hm).symm.trans hw)) hu

/-- A mutex has one owner. -/
theorem Consistent.mutex_unique {t u : T} {l : L} (ht : (held (c.place t)).mutex = some l)
    (hu : (held (c.place u)).mutex = some l) : u = t :=
  Option.some.inj ((((hc.holds u).owner l).mpr hu).symm.trans (((hc.holds t).owner l).mpr ht))

/-- With the read-write lock free, every thread is outside. -/
theorem Consistent.outside (hr : c.readers = ∅) (hw : c.writer = none) (t : T) :
    (held (c.place t)).mode = .free := by
  cases hm : (held (c.place t)).mode with
  | free => rfl
  | read =>
      have hmem := (hc.holds t).reader.mpr hm
      rw [hr] at hmem
      cases hmem
  | write =>
      have hwriter := (hc.holds t).writer.mpr hm
      rw [hw] at hwriter
      cases hwriter

end Exclusion

/-! ## No deadlock -/

/-- The thread has an action that it cannot carry out now. -/
def Blocked (prog : Program σ ε P L E) (c : Pool σ P L T) (t : T) : Prop :=
  ∃ e a, prog (c.place t) e = some a ∧ c.perform t a = none

/-- What a blocked thread waits for. -/
theorem blocked_cases {t : T} {a : Action σ ε P L} (h : c.perform t a = none) :
    (∃ p, a = .rdlock p ∧ c.writer ≠ none) ∨
    (∃ p, a = .wrlock p ∧ (c.writer ≠ none ∨ c.readers ≠ ∅)) ∨
    (∃ l p, a = .lock l p ∧ c.owner l ≠ none) ∨
    ∃ inner f l, a = .work inner f ∧ l ∈ inner ∧ c.owner l ≠ none := by
  cases a with
  | rdlock p =>
      refine .inl ⟨p, rfl, fun hw => ?_⟩
      simp [perform, hw] at h
  | wrlock p =>
      refine .inr (.inl ⟨p, rfl, ?_⟩)
      by_contra hfree
      rw [not_or, not_not, not_not] at hfree
      simp [perform, hfree] at h
  | rwunlock p => cases h
  | lock l p =>
      refine .inr (.inr (.inl ⟨l, p, rfl, fun hfree => ?_⟩))
      simp [perform, hfree] at h
  | unlock l p => cases h
  | work inner f =>
      have hsome : ¬ ∀ l ∈ inner, c.owner l = none := fun hfree => by
        rw [perform, if_pos hfree] at h
        cases h
      rw [not_forall] at hsome
      obtain ⟨l, hl⟩ := hsome
      rw [Classical.not_imp] at hl
      exact .inr (.inr (.inr ⟨inner, f, l, rfl, hl.1, hl.2⟩))

section Deadlock

variable (hd : Disciplined prog held) (hc : c.Consistent held)

include hd hc

omit [DecidableEq L] in
/-- While a thread writes, no mutex is taken. -/
theorem no_owner_of_write {t : T} (ht : (held (c.place t)).mode = .write) (l : L) :
    c.owner l = none := by
  by_contra hown
  obtain ⟨u, hu⟩ := Option.ne_none_iff_exists'.mp hown
  have hmutex := ((hc.holds u).owner l).mp hu
  have hread := hd.read_of_mutex _ _ hmutex
  by_cases hut : u = t
  · rw [hut, ht] at hread
    cases hread
  · rw [hc.exclusive ht hut] at hread
    cases hread

/-- A writer goes on. -/
theorem not_blocked_of_write {t : T} (ht : (held (c.place t)).mode = .write) :
    ¬ Blocked prog c t := by
  rintro ⟨e, a, ha, hnone⟩
  have hfit := hd.fits _ _ _ ha
  rcases blocked_cases hnone with ⟨p, rfl, -⟩ | ⟨p, rfl, -⟩ | ⟨l, p, rfl, -⟩ | ⟨_, _, l, -, -, hown⟩
  · rw [hfit.1] at ht
    cases ht
  · rw [hfit.1] at ht
    cases ht
  · rw [hfit.1] at ht
    cases ht
  · exact hown (no_owner_of_write hd hc ht l)

omit hc in
/-- The owner of a mutex goes on. -/
theorem not_blocked_of_mutex {t : T} {l : L} (ht : (held (c.place t)).mutex = some l) :
    ¬ Blocked prog c t := by
  rintro ⟨e, a, ha, hnone⟩
  have hfit := hd.fits _ _ _ ha
  rcases blocked_cases hnone with
    ⟨p, rfl, -⟩ | ⟨p, rfl, -⟩ | ⟨l, p, rfl, -⟩ | ⟨inner, f, l, rfl, hl, -⟩
  · rw [hfit.1] at ht
    cases ht
  · rw [hfit.1] at ht
    cases ht
  · rw [hfit.1] at ht
    cases ht
  · have hwrite := hfit.2 (List.ne_nil_of_mem hl)
    rw [hd.read_of_mutex _ _ ht] at hwrite
    cases hwrite

/-- **No deadlock.** When a thread is blocked, a thread that holds a lock is not. -/
theorem exists_runnable {t : T} (ht : Blocked prog c t) :
    ∃ u, (held (c.place u)).mode ≠ .free ∧ ¬ Blocked prog c u := by
  have hwriter : c.writer ≠ none → ∃ u, (held (c.place u)).mode ≠ .free ∧ ¬ Blocked prog c u := by
    intro hw
    obtain ⟨u, hu⟩ := Option.ne_none_iff_exists'.mp hw
    have hmode := (hc.holds u).writer.mp hu
    exact ⟨u, by simp [hmode], not_blocked_of_write hd hc hmode⟩
  have howner : ∀ l, c.owner l ≠ none →
      ∃ u, (held (c.place u)).mode ≠ .free ∧ ¬ Blocked prog c u := by
    intro l hown
    obtain ⟨u, hu⟩ := Option.ne_none_iff_exists'.mp hown
    have hmutex := ((hc.holds u).owner l).mp hu
    exact ⟨u, by simp [hd.read_of_mutex _ _ hmutex], not_blocked_of_mutex hd hmutex⟩
  obtain ⟨e, a, ha, hnone⟩ := ht
  rcases blocked_cases hnone with
    ⟨_, -, hw⟩ | ⟨_, -, hw | hreaders⟩ | ⟨l, _, -, hown⟩ | ⟨_, _, l, -, -, hown⟩
  · exact hwriter hw
  · exact hwriter hw
  · obtain ⟨u, hu⟩ := Finset.nonempty_iff_ne_empty.mpr hreaders
    have hmode := (hc.holds u).reader.mp hu
    -- a reader waits for a mutex at most, and its owner does not wait
    by_cases hblocked : Blocked prog c u
    · obtain ⟨e', a', ha', hnone'⟩ := hblocked
      have hfit := hd.fits _ _ _ ha'
      rcases blocked_cases hnone' with
        ⟨_, rfl, -⟩ | ⟨_, rfl, -⟩ | ⟨l, _, -, hown⟩ | ⟨_, _, l, -, -, hown⟩
      · rw [hfit.1] at hmode
        cases hmode
      · rw [hfit.1] at hmode
        cases hmode
      · exact howner l hown
      · exact howner l hown
    · exact ⟨u, by simp [hmode], hblocked⟩
  · exact howner l hown
  · exact howner l hown

end Deadlock

end Pool

/-! ## No data races -/

/-- The lock that guards a variable: the read-write lock, or a mutex. -/
inductive Guard (L : Type) where
  | table
  | mutex (l : L)

/-- Which variables a step reads and which it writes. -/
structure Footprint (X : Type) where
  reads : Set X
  writes : Set X

/-- What the step touches. -/
def Footprint.all {X : Type} (fp : Footprint X) : Set X := fp.reads ∪ fp.writes

/-- The guard allows a thread that holds `h` to read the variable. -/
def Guard.Readable {L : Type} (h : Held L) : Guard L → Prop
  | .table => h.mode ≠ .free
  | .mutex l => h.mutex = some l ∨ h.mode = .write

/-- The guard allows a thread that holds `h` to write the variable. -/
def Guard.Writable {L : Type} (h : Held L) : Guard L → Prop
  | .table => h.mode = .write
  | .mutex l => h.mutex = some l ∨ h.mode = .write

theorem Guard.Writable.readable {L : Type} {h : Held L} {g : Guard L} (hw : g.Writable h) :
    g.Readable h := by
  cases g with
  | table =>
      intro hfree
      rw [show h.mode = .write from hw] at hfree
      cases hfree
  | mutex l => exact hw

section Races

variable {P L X T σ ε : Type}

/-- Inside the read-write lock the program touches each variable only with its guard. -/
structure Guarded (held : P → Held L) (guard : X → Guard L) (touches : P → Footprint X) :
    Prop where
  reads : ∀ p, (held p).mode ≠ .free → ∀ x ∈ (touches p).reads, (guard x).Readable (held p)
  writes : ∀ p, (held p).mode ≠ .free → ∀ x ∈ (touches p).writes, (guard x).Writable (held p)

/-- **No data race.** What one thread is about to write, no other thread is about to touch. -/
theorem no_race {held : P → Held L} {guard : X → Guard L} {touches : P → Footprint X}
    (hg : Guarded held guard touches) {c : Pool σ P L T}
    (hc : c.Consistent held) {t u : T} (hne : u ≠ t) (ht : (held (c.place t)).mode ≠ .free)
    (hu : (held (c.place u)).mode ≠ .free) {x : X} (hx : x ∈ (touches (c.place t)).writes) :
    x ∉ (touches (c.place u)).all := by
  intro hmem
  have hwrite := hg.writes _ ht _ hx
  have htouch : (guard x).Readable (held (c.place u)) := by
    rcases hmem with hr | hw
    · exact hg.reads _ hu _ hr
    · exact (hg.writes _ hu _ hw).readable
  -- a thread inside beside a writer, or two owners of one mutex
  cases hgx : guard x with
  | table =>
      rw [hgx] at hwrite
      exact hu (hc.exclusive hwrite hne)
  | mutex l =>
      rw [hgx] at hwrite htouch
      rcases hwrite with hwrite | hwrite
      · rcases htouch with htouch | htouch
        · exact hne (hc.mutex_unique hwrite htouch)
        · exact ht (hc.exclusive htouch hne.symm)
      · exact hu (hc.exclusive hwrite hne)

end Races

section Independence

variable {P L X σ ε : Type} {V : X → Type} (read : ∀ x, σ → V x)

/-- A step keeps to a footprint: it changes nothing but what it writes, and what it does depends on
nothing but what it touches. -/
structure KeepsTo (fp : Footprint X) (f : σ → σ × List ε × P) : Prop where
  frame : ∀ s, ∀ x ∉ fp.writes, read x (f s).1 = read x s
  result : ∀ s s', (∀ x ∈ fp.all, read x s' = read x s) → (f s').2 = (f s).2
  written : ∀ s s', (∀ x ∈ fp.all, read x s' = read x s) →
    ∀ x ∈ fp.writes, read x (f s').1 = read x (f s).1

/-- What an action does to the shared state keeps to a footprint. -/
def Action.KeepsTo (fp : Footprint X) : Action σ ε P L → Prop
  | .work _ f => Lanecove.KeepsTo read fp f
  | _ => True

/-- Two steps are independent in a state: in either order they lead to one state, and each does
what it would have done alone. -/
structure Independent (f g : σ → σ × List ε × P) (s : σ) : Prop where
  state : (g (f s).1).1 = (f (g s).1).1
  first : (f (g s).1).2 = (f s).2
  second : (g (f s).1).2 = (g s).2

variable {read}

/-- A step that writes nothing. -/
theorem KeepsTo.of_reads {R : Set X} {f : σ → σ × List ε × P} (hf : ∀ s, (f s).1 = s)
    (hresult : ∀ s s', (∀ x ∈ R, read x s' = read x s) → (f s').2 = (f s).2) :
    KeepsTo read ⟨R, ∅⟩ f where
  frame s x _ := by rw [hf]
  result s s' h := hresult s s' fun x hx => h x (.inl hx)
  written _ _ _ x hx := by cases hx

variable (hext : ∀ s s' : σ, (∀ x, read x s = read x s') → s = s')

include hext

/-- A step that may touch everything. -/
theorem KeepsTo.of_all (f : σ → σ × List ε × P) : KeepsTo read ⟨Set.univ, Set.univ⟩ f where
  frame _ _ hx := absurd (Set.mem_univ _) hx
  result s s' h := by rw [hext s' s fun x => h x (.inl (Set.mem_univ x))]
  written s s' h _ _ := by rw [hext s' s fun x => h x (.inl (Set.mem_univ x))]

/-- Steps whose footprints do not meet are independent. -/
theorem independent_of_footprints {fp fp' : Footprint X} {f g : σ → σ × List ε × P}
    (hf : KeepsTo read fp f) (hg : KeepsTo read fp' g) (hfg : ∀ x ∈ fp.writes, x ∉ fp'.all)
    (hgf : ∀ x ∈ fp'.writes, x ∉ fp.all) (s : σ) : Independent f g s := by
  have htouch : ∀ x ∈ fp.all, read x (g s).1 = read x s :=
    fun x hx => hg.frame s x fun hw => hgf x hw hx
  have htouch' : ∀ x ∈ fp'.all, read x (f s).1 = read x s :=
    fun x hx => hf.frame s x fun hw => hfg x hw hx
  refine ⟨hext _ _ fun x => ?_, hf.result _ _ htouch, hg.result _ _ htouch'⟩
  by_cases hx : x ∈ fp.writes
  · have hx' : x ∉ fp'.writes := fun hw => hfg x hx (.inr hw)
    rw [hg.frame _ x hx', hf.written _ _ htouch x hx]
  · by_cases hx' : x ∈ fp'.writes
    · rw [hg.written _ _ htouch' x hx', hf.frame _ x hx]
    · rw [hg.frame _ x hx', hf.frame _ x hx, hf.frame _ x hx, hg.frame _ x hx']

end Independence

end Lanecove
