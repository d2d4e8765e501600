import Lanecove.Basic.Threads
import Mathlib.Algebra.BigOperators.Group.Finset.Basic
import Mathlib.Algebra.Order.Group.Multiset

set_option autoImplicit false

/-! # What the threads of a pool carry

`f t` is what thread `t` has in hand, and `load f ts` is what a finite set of threads carry
together. When a thread moves, the load changes by what that thread has put down and picked up
(`load_move`), so what is made, carried and spent can be balanced over a whole run
(`conserved_run`): nothing is spent that was not made, and nothing is spent twice.
-/

namespace Lanecove.Pool

variable {σ ε P L T E α : Type}

/-- What the threads of `ts` carry. -/
def load (f : T → Multiset α) (ts : Finset T) : Multiset α := ∑ t ∈ ts, f t

/-- Only the threads of `ts` carry anything. -/
def Manned (f : T → Multiset α) (ts : Finset T) : Prop := ∀ t ∉ ts, f t = 0

variable [DecidableEq T] {f f' : T → Multiset α} {ts : Finset T} {t : T}

theorem Manned.load_insert (h : Manned f ts) (t : T) : load f (insert t ts) = load f ts := by
  by_cases ht : t ∈ ts
  · rw [Finset.insert_eq_of_mem ht]
  · rw [load, Finset.sum_insert ht, h t ht, zero_add, load]

theorem Manned.moved (h : Manned f ts) (hothers : ∀ u, u ≠ t → f' u = f u) :
    Manned f' (insert t ts) := by
  intro u hu
  rw [Finset.mem_insert, not_or] at hu
  rw [hothers u hu.1]
  exact h u hu.2

/-- A thread moves: the load changes by what it has put down and picked up. -/
theorem load_move (hothers : ∀ u, u ≠ t → f' u = f u) (ht : t ∈ ts) :
    load f' ts + f t = load f ts + f' t := by
  have hrest : ∑ u ∈ ts.erase t, f' u = ∑ u ∈ ts.erase t, f u :=
    Finset.sum_congr rfl fun u hu => hothers u (Finset.ne_of_mem_erase hu)
  rw [load, load, ← Finset.sum_erase_add _ _ ht, ← Finset.sum_erase_add ts f ht, hrest]
  exact add_right_comm ..

/-- The balance after a step, from the balance of the thread that moved. -/
theorem Manned.balance (h : Manned f ts) {made spent made' spent' : Multiset α}
    (hothers : ∀ u, u ≠ t → f' u = f u) (hc : spent + load f ts ≤ made)
    (hstep : spent' + f' t ≤ f t + made') :
    spent + spent' + load f' (insert t ts) ≤ made + made' := by
  have hmove : load f' (insert t ts) + f t = load f (insert t ts) + f' t :=
    load_move hothers (Finset.mem_insert_self t ts)
  rw [h.load_insert t] at hmove
  refine le_of_add_le_add_right (a := f t) ?_
  calc spent + spent' + load f' (insert t ts) + f t
      = spent + load f ts + (spent' + f' t) := by rw [add_assoc, hmove, add_add_add_comm]
    _ ≤ made + (f t + made') := add_le_add hc hstep
    _ = made + made' + f t := by rw [add_comm (f t), add_assoc]

/-- **Nothing is spent that was not made, and nothing twice**, over any run. What a thread has in
hand depends on where it is. -/
theorem conserved_run [DecidableEq L] {prog : Program σ ε P L E} (carries : P → Multiset α)
    (made spent : List ε → Multiset α)
    (hmade : ∀ tr ev, made (tr ++ ev) = made tr + made ev)
    (hspent : ∀ tr ev, spent (tr ++ ev) = spent tr + spent ev)
    (hstep : ∀ (c : Pool σ P L T) t e a c' ev, prog (c.place t) e = some a →
      Performed c t a c' ev → spent ev + carries (c'.place t) ≤ carries (c.place t) + made ev)
    {c : Pool σ P L T} (hempty : ∀ t, carries (c.place t) = 0) (sched : List (T × E)) :
    spent ((pool prog).run (c, []) sched).2 ≤ made ((pool prog).run (c, []) sched).2 := by
  have hnil : ∀ {f : List ε → Multiset α}, (∀ tr ev, f (tr ++ ev) = f tr + f ev) → f [] = 0 := by
    intro f hf
    have h := hf [] []
    rw [List.append_nil] at h
    exact left_eq_add.mp h
  have hinv := (pool prog).invariant_all (I := fun x => ∃ ts,
    Manned (fun t => carries (x.1.place t)) ts ∧
    spent x.2 + load (fun t => carries (x.1.place t)) ts ≤ made x.2) ?_ sched (c, [])
    ⟨∅, fun t _ => hempty t, by rw [hnil hmade, hnil hspent]; exact le_rfl⟩
  · obtain ⟨ts, -, hle⟩ := hinv
    exact (Multiset.le_add_right _ _).trans hle
  · rintro x y ⟨ts, hts, hle⟩
    show ∃ ts', Manned (fun t => carries (((pool prog).step x.1 y).1.place t)) ts' ∧
      spent (x.2 ++ ((pool prog).step x.1 y).2) +
        load (fun t => carries (((pool prog).step x.1 y).1.place t)) ts' ≤
      made (x.2 ++ ((pool prog).step x.1 y).2)
    rcases step_cases prog x.1 y.1 y.2 with ⟨a, c', ev, ha, hp, heq⟩ | heq
    · rw [show (pool prog).step x.1 y = (c', ev) from heq, hmade, hspent]
      have hothers : ∀ u, u ≠ y.1 → carries (c'.place u) = carries (x.1.place u) :=
        fun u hu => by rw [hp.place_ne hu]
      exact ⟨insert y.1 ts, hts.moved hothers,
        hts.balance hothers hle (hstep _ _ _ _ _ _ ha hp)⟩
    · rw [show (pool prog).step x.1 y = (x.1, []) from heq, List.append_nil]
      exact ⟨ts, hts, hle⟩

end Lanecove.Pool
