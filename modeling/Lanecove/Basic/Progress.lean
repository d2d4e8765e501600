import Lanecove.Basic.Threads
import Mathlib.Algebra.BigOperators.Group.Finset.Basic
import Mathlib.Algebra.Order.BigOperators.Group.Finset

set_option autoImplicit false

/-! # Threads that come to an end

`CanMove` says that a thread can carry out its next action. When each move takes the thread that
moves to a place of lower rank, the ranks of all places together bound the number of moves, in
whatever order the threads are scheduled (`moves_bounded`). When there is a bound, and a move
wherever the machine is not finished, then every run can be completed (`Machine.exists_completion`).
-/

namespace Lanecove

theorem Machine.exists_completion {σ ι ε : Type} {M : Machine σ ι ε} {G : M.Config → ι → Prop}
    (finished : M.Config → Prop) {c : M.Config} {bound : Nat}
    (hbound : ∀ is, M.Along G c is → is.length ≤ bound)
    (hmove : ∀ is, M.Along G c is → ¬ finished (M.run c is) → ∃ i, G (M.run c is) i)
    {is : List ι} (his : M.Along G c is) :
    ∃ js, M.Along G c (is ++ js) ∧ finished (M.run c (is ++ js)) := by
  -- on the number of moves that are left
  induction hk : bound - is.length generalizing is with
  | zero =>
      refine ⟨[], by rwa [List.append_nil], ?_⟩
      rw [List.append_nil]
      by_contra hfin
      obtain ⟨i, hi⟩ := hmove is his hfin
      have hlen := hbound (is ++ [i]) ((M.along_append c is [i]).mpr ⟨his, hi, trivial⟩)
      rw [List.length_append, List.length_singleton] at hlen
      omega
  | succ k ih =>
      by_cases hfin : finished (M.run c is)
      · refine ⟨[], by rwa [List.append_nil], ?_⟩
        rwa [List.append_nil]
      · obtain ⟨i, hi⟩ := hmove is his hfin
        have hnext := (M.along_append c is [i]).mpr ⟨his, hi, trivial⟩
        obtain ⟨js, hjs, hend⟩ := ih hnext (by
          rw [List.length_append, List.length_singleton]
          omega)
        rw [List.append_assoc] at hjs hend
        exact ⟨i :: js, hjs, hend⟩

namespace Pool

variable {σ ε P L T E : Type} [DecidableEq T] [DecidableEq L] {prog : Program σ ε P L E}

/-- The thread can carry out its next action. -/
def CanMove (prog : Program σ ε P L E) (c : Pool σ P L T) (x : T × E) : Prop :=
  (c.move prog x.1 x.2).isSome = true

instance (prog : Program σ ε P L E) (c : Pool σ P L T) (x : T × E) : Decidable (CanMove prog c x) :=
  inferInstanceAs (Decidable (_ = true))

theorem CanMove.performed {c : Pool σ P L T} {x : T × E} (h : CanMove prog c x) :
    ∃ a c' ev, prog (c.place x.1) x.2 = some a ∧ Performed c x.1 a c' ev ∧
      (pool prog).step c x = (c', ev) := by
  obtain ⟨r, hr⟩ := Option.isSome_iff_exists.mp h
  rw [move, Option.bind_eq_some_iff] at hr
  obtain ⟨a, ha, hperform⟩ := hr
  refine ⟨a, r.1, r.2, ha, perform_cases hperform, ?_⟩
  show (c.move prog x.1 x.2).getD (c, []) = r
  rw [move, ha, Option.bind_some, hperform, Option.getD_some]

/-- **Only so many moves.** `I` is what is known of the configurations, and `G` the moves that are
counted. -/
theorem moves_bounded [Fintype T] (prog : Program σ ε P L E) (rank : P → Nat)
    {G : T × E → Prop} {I : Pool σ P L T → Prop}
    (hI : ∀ c x, I c → G x → I ((pool prog).step c x).1)
    (hrank : ∀ c t e a c' ev, I c → G (t, e) → prog (c.place t) e = some a →
      Performed c t a c' ev → rank (c'.place t) < rank (c.place t))
    (sched : List (T × E)) {c : Pool σ P L T} {tr : List ε} (hc : I c)
    (hmoves : (pool prog).Along (fun x y => G y ∧ CanMove prog x.1 y) (c, tr) sched) :
    sched.length + ∑ t, rank (((pool prog).run (c, tr) sched).1.place t) ≤
      ∑ t, rank (c.place t) := by
  -- each move lowers the rank of one thread and leaves the others where they are
  induction sched generalizing c tr with
  | nil => exact le_of_eq (Nat.zero_add _)
  | cons y sched ih =>
      obtain ⟨⟨hG, hmove⟩, hrest⟩ := hmoves
      obtain ⟨a, c', ev, ha, hp, heq⟩ := hmove.performed
      have hnext := ih (hI c y hc hG) hrest
      have hlt := hrank c y.1 y.2 a c' ev hc hG ha hp
      have hsum : ∑ t, rank (((pool prog).step c y).1.place t) < ∑ t, rank (c.place t) := by
        rw [heq]
        refine Finset.sum_lt_sum (fun t _ => ?_) ⟨y.1, Finset.mem_univ _, hlt⟩
        by_cases ht : t = y.1
        · rw [ht]
          exact hlt.le
        · rw [hp.place_ne ht]
      show sched.length + 1 + ∑ t, rank (((pool prog).run _ sched).1.place t) ≤ _
      have hle := Nat.lt_of_le_of_lt hnext hsum
      rw [Nat.add_right_comm]
      exact hle

end Pool

end Lanecove
