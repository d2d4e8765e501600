import Mathlib.Data.List.Basic
import Mathlib.Tactic

set_option autoImplicit false

/-! # Machines, runs and traces

A deterministic machine reads inputs and emits events. Everything that is chosen from the
outside (messages, clock readings, random values, failures of the environment) is part of
the input, so a run is a list of inputs.

* `Machine.run c is` is the configuration (state and trace of all events so far) reached
  from `c` by the inputs `is`.
* `Machine.Along G c is` says that every input of the run meets the guard `G`, which may
  look at the configuration before the step.
* `Machine.invariant` is the induction over guarded runs that every safety result uses.
* `Machine.Timed` says that the inputs come one after the other on a clock that does not go
  back, and `Machine.invariant_timed` is the invariant rule for such runs.
* `Machine.log` is a history variable: what an observer notes down along a run.
* `Machine.pair` lets two machines run side by side, in any interleaving.
-/

namespace Lanecove

/-- A deterministic machine with inputs `ι` and emitted events `ε`. -/
structure Machine (σ ι ε : Type) where
  step : σ → ι → σ × List ε

namespace Machine

variable {σ ι ε : Type} (M : Machine σ ι ε)

/-- A configuration: the state, and all events emitted so far, oldest first. -/
abbrev Config (_ : Machine σ ι ε) : Type := σ × List ε

/-- One step on configurations. -/
def next (c : M.Config) (i : ι) : M.Config :=
  ((M.step c.1 i).1, c.2 ++ (M.step c.1 i).2)

/-- The configuration a list of inputs leads to. -/
def run : M.Config → List ι → M.Config
  | c, [] => c
  | c, i :: is => run (M.next c i) is

/-- Every step of the run meets the guard `G`. -/
def Along (G : M.Config → ι → Prop) : M.Config → List ι → Prop
  | _, [] => True
  | c, i :: is => G c i ∧ Along G (M.next c i) is

instance decidableAlong (G : M.Config → ι → Prop) [∀ c i, Decidable (G c i)] :
    ∀ c is, Decidable (M.Along G c is)
  | _, [] => isTrue trivial
  | c, i :: is =>
      have := decidableAlong G (M.next c i) is
      inferInstanceAs (Decidable (G c i ∧ M.Along G (M.next c i) is))

/-- **The invariant rule.** What every guarded step preserves holds after every guarded
run. -/
theorem invariant {G : M.Config → ι → Prop} {I : M.Config → Prop}
    (hstep : ∀ c i, I c → G c i → I (M.next c i)) :
    ∀ (is : List ι) (c : M.Config), I c → M.Along G c is → I (M.run c is) := by
  intro is
  induction is with
  | nil => intro c hc _; exact hc
  | cons i is ih =>
      intro c hc hG
      exact ih (M.next c i) (hstep c i hc hG.1) hG.2

/-- The invariant rule for runs without a guard. -/
theorem invariant_all {I : M.Config → Prop} (hstep : ∀ c i, I c → I (M.next c i))
    (is : List ι) (c : M.Config) (hc : I c) : I (M.run c is) := by
  induction is generalizing c with
  | nil => exact hc
  | cons i is ih => exact ih (M.next c i) (hstep c i hc)

/-! ## Runs piece by piece -/

theorem run_append (c : M.Config) (is js : List ι) :
    M.run c (is ++ js) = M.run (M.run c is) js := by
  induction is generalizing c with
  | nil => rfl
  | cons i is ih => exact ih (M.next c i)

/-- A run adds its events to the trace and does not look at it. -/
theorem run_trace (s : σ) (tr : List ε) (is : List ι) :
    M.run (s, tr) is = ((M.run (s, []) is).1, tr ++ (M.run (s, []) is).2) := by
  induction is generalizing s tr with
  | nil => simp [run]
  | cons i is ih =>
      show M.run ((M.step s i).1, tr ++ (M.step s i).2) is =
        ((M.run ((M.step s i).1, [] ++ (M.step s i).2) is).1,
          tr ++ (M.run ((M.step s i).1, [] ++ (M.step s i).2) is).2)
      rw [ih, List.nil_append, ih (M.step s i).1 (M.step s i).2, List.append_assoc]

/-- Machines that do the same on the inputs of a run do the same in the run. -/
theorem run_congr {M M' : Machine σ ι ε} {is : List ι}
    (h : ∀ s, ∀ i ∈ is, M.step s i = M'.step s i) (c : σ × List ε) : M.run c is = M'.run c is := by
  induction is generalizing c with
  | nil => rfl
  | cons i is ih =>
      have hnext : M.next c i = M'.next c i := by rw [next, next, h _ i List.mem_cons_self]
      rw [run, run, hnext]
      exact ih (fun s j hj => h s j (List.mem_cons_of_mem _ hj)) _

theorem along_append {G : M.Config → ι → Prop} (c : M.Config) (is js : List ι) :
    M.Along G c (is ++ js) ↔ M.Along G c is ∧ M.Along G (M.run c is) js := by
  induction is generalizing c with
  | nil => exact (and_iff_right trivial).symm
  | cons i is ih => exact (and_congr_right fun _ => ih (M.next c i)).trans and_assoc.symm

theorem along_of_forall {G : M.Config → ι → Prop} (h : ∀ c i, G c i) :
    ∀ (is : List ι) (c : M.Config), M.Along G c is := by
  intro is
  induction is with
  | nil => intro c; trivial
  | cons i is ih => intro c; exact ⟨h c i, ih (M.next c i)⟩

/-- A guard that looks at the inputs only. -/
theorem along_of_mem {P : ι → Prop} {is : List ι} (h : ∀ i ∈ is, P i) (c : M.Config) :
    M.Along (fun _ => P) c is := by
  induction is generalizing c with
  | nil => trivial
  | cons i is ih =>
      exact ⟨h i List.mem_cons_self, ih (fun j hj => h j (List.mem_cons_of_mem _ hj)) (M.next c i)⟩

/-! ## Clocks -/

section Timed

variable {τ : Type}

/-- The inputs take place one after the other, the first not before `t`. That input `i` takes
place between the times `t` and `t'` is `C t i t'`. -/
def Timed (C : τ → ι → τ → Prop) : τ → List ι → Prop
  | _, [] => True
  | t, i :: is => ∃ t', C t i t' ∧ Timed C t' is

/-- **The invariant rule with a clock.** -/
theorem invariant_timed {C : τ → ι → τ → Prop} {G : M.Config → ι → Prop}
    {I : M.Config → τ → Prop}
    (hstep : ∀ c t i t', I c t → C t i t' → G c i → I (M.next c i) t') :
    ∀ (is : List ι) (c : M.Config) (t : τ), I c t → Timed C t is → M.Along G c is →
      ∃ t', I (M.run c is) t' := by
  intro is
  induction is with
  | nil => intro c t hc _ _; exact ⟨t, hc⟩
  | cons i is ih =>
      intro c t hc hC hG
      obtain ⟨t', hi, his⟩ := hC
      exact ih (M.next c i) t' (hstep c t i t' hc hi hG.1) his hG.2

end Timed

/-! ## History variables -/

section Log

variable {ω : Type}

/-- What an observer notes down along a run. It sees the state before each step and the
input. -/
def log (f : σ → ι → List ω) : M.Config → List ι → List ω
  | _, [] => []
  | c, i :: is => f c.1 i ++ log f (M.next c i) is

/-- **The invariant rule with a history variable.** -/
theorem invariant_log {f : σ → ι → List ω} {G : M.Config → ι → Prop}
    {I : M.Config → List ω → Prop}
    (hstep : ∀ c w i, I c w → G c i → I (M.next c i) (w ++ f c.1 i)) :
    ∀ (is : List ι) (c : M.Config) (w : List ω), I c w → M.Along G c is →
      I (M.run c is) (w ++ M.log f c is) := by
  intro is
  induction is with
  | nil =>
      intro c w hc _
      rw [log, List.append_nil]
      exact hc
  | cons i is ih =>
      intro c w hc hG
      rw [log, ← List.append_assoc]
      exact ih (M.next c i) _ (hstep c w i hc hG.1) hG.2

end Log

/-! ## Parts of a trace -/

/-- The events of one kind, read off with `view` and rebuilt with `f`. -/
theorem mem_filterMap_iff {α β : Type} {view : α → Option β} {f : β → α}
    (h : ∀ e b, view e = some b ↔ e = f b) {tr : List α} {b : β} :
    b ∈ tr.filterMap view ↔ f b ∈ tr := by
  rw [List.mem_filterMap]
  constructor
  · rintro ⟨e, he, hview⟩
    rw [← (h e b).mp hview]
    exact he
  · intro hmem
    exact ⟨f b, hmem, (h _ b).mpr rfl⟩

/-! ## Two machines side by side -/

section Pair

variable {σ₁ ι₁ ε₁ σ₂ ι₂ ε₂ : Type}

/-- Two machines in any interleaving. An input is tagged with the machine that takes it,
and so is every event. -/
def pair (M₁ : Machine σ₁ ι₁ ε₁) (M₂ : Machine σ₂ ι₂ ε₂) :
    Machine (σ₁ × σ₂) (ι₁ ⊕ ι₂) (ε₁ ⊕ ε₂) where
  step s i :=
    match i with
    | .inl i => (((M₁.step s.1 i).1, s.2), (M₁.step s.1 i).2.map .inl)
    | .inr i => ((s.1, (M₂.step s.2 i).1), (M₂.step s.2 i).2.map .inr)

/-- The events of the first machine in a joint trace. -/
def lefts : List (ε₁ ⊕ ε₂) → List ε₁ := List.filterMap Sum.getLeft?

/-- The events of the second machine in a joint trace. -/
def rights : List (ε₁ ⊕ ε₂) → List ε₂ := List.filterMap Sum.getRight?

variable {M₁ : Machine σ₁ ι₁ ε₁} {M₂ : Machine σ₂ ι₂ ε₂}

/-- What the first machine knows of a joint configuration. -/
def left (c : (M₁.pair M₂).Config) : M₁.Config := (c.1.1, lefts c.2)

/-- What the second machine knows of a joint configuration. -/
def right (c : (M₁.pair M₂).Config) : M₂.Config := (c.1.2, rights c.2)

theorem filterMap_map_eq_self {α β : Type} {f : β → α} {g : α → Option β}
    (h : ∀ b, g (f b) = some b) (l : List β) : (l.map f).filterMap g = l := by
  rw [List.filterMap_map, show g ∘ f = some from funext h, List.filterMap_some]

theorem filterMap_map_eq_nil {α β γ : Type} {f : γ → α} {g : α → Option β}
    (h : ∀ c, g (f c) = none) (l : List γ) : (l.map f).filterMap g = [] := by
  rw [List.filterMap_map, show g ∘ f = fun _ => none from funext h, List.filterMap_none]

@[simp] theorem left_next_inl (c : (M₁.pair M₂).Config) (i : ι₁) :
    left ((M₁.pair M₂).next c (.inl i)) = M₁.next (left c) i := by
  refine Prod.ext rfl ?_
  show lefts (c.2 ++ (M₁.step c.1.1 i).2.map .inl) = lefts c.2 ++ (M₁.step c.1.1 i).2
  rw [lefts, List.filterMap_append, filterMap_map_eq_self (f := Sum.inl) fun _ => rfl]

@[simp] theorem right_next_inl (c : (M₁.pair M₂).Config) (i : ι₁) :
    right ((M₁.pair M₂).next c (.inl i)) = right c := by
  refine Prod.ext rfl ?_
  show rights (c.2 ++ (M₁.step c.1.1 i).2.map .inl) = rights c.2
  rw [rights, List.filterMap_append, filterMap_map_eq_nil fun _ => rfl, List.append_nil]

@[simp] theorem left_next_inr (c : (M₁.pair M₂).Config) (i : ι₂) :
    left ((M₁.pair M₂).next c (.inr i)) = left c := by
  refine Prod.ext rfl ?_
  show lefts (c.2 ++ (M₂.step c.1.2 i).2.map .inr) = lefts c.2
  rw [lefts, List.filterMap_append, filterMap_map_eq_nil fun _ => rfl, List.append_nil]

@[simp] theorem right_next_inr (c : (M₁.pair M₂).Config) (i : ι₂) :
    right ((M₁.pair M₂).next c (.inr i)) = M₂.next (right c) i := by
  refine Prod.ext rfl ?_
  show rights (c.2 ++ (M₂.step c.1.2 i).2.map .inr) = rights c.2 ++ (M₂.step c.1.2 i).2
  rw [rights, List.filterMap_append, filterMap_map_eq_self (f := Sum.inr) fun _ => rfl]

/-- **The invariant rule for two machines**: each one's steps preserve what relates the two,
however they interleave. -/
theorem pair_invariant {G : (M₁.pair M₂).Config → ι₁ ⊕ ι₂ → Prop}
    {I : M₁.Config → M₂.Config → Prop}
    (hleft : ∀ c i, I (left c) (right c) → G c (.inl i) → I (M₁.next (left c) i) (right c))
    (hright : ∀ c i, I (left c) (right c) → G c (.inr i) → I (left c) (M₂.next (right c) i))
    {c : (M₁.pair M₂).Config} {is : List (ι₁ ⊕ ι₂)} (hc : I (left c) (right c))
    (h : (M₁.pair M₂).Along G c is) :
    I (left ((M₁.pair M₂).run c is)) (right ((M₁.pair M₂).run c is)) := by
  refine (M₁.pair M₂).invariant (I := fun c => I (left c) (right c)) ?_ is c hc h
  rintro c (i | i) hI hG
  · rw [left_next_inl, right_next_inl]
    exact hleft c i hI hG
  · rw [left_next_inr, right_next_inr]
    exact hright c i hI hG

end Pair

end Machine

end Lanecove
