import Mathlib.Data.List.Basic
import Mathlib.Tactic

set_option autoImplicit false

/-! # Scanning for the heaviest element

A loop over a list keeps the heaviest element seen so far, together with its weight; an element
replaces it only if it is strictly heavier. The loop returns the first of the heaviest elements
above the floor it starts from, and nothing if there is none.
-/

namespace Lanecove

section Scan

variable {α : Type} (weight : α → Int)

/-- The body of the loop. -/
def keepBest (best : Option α × Int) (a : α) : Option α × Int :=
  if best.2 < weight a then (some a, weight a) else best

/-- The loop, from nothing and the weight `floor`. -/
def scanBest (floor : Int) (l : List α) : Option α × Int :=
  l.foldl (keepBest weight) (none, floor)

/-- `a` is the first of the heaviest elements of `l`. -/
def FirstBest (l : List α) (a : α) : Prop :=
  ∃ before after, l = before ++ a :: after ∧ (∀ x ∈ before, weight x < weight a) ∧
    ∀ x ∈ after, weight x ≤ weight a

/-- What the loop has after a list, from any element and weight it held before. -/
theorem foldl_keepBest (l : List α) (best : Option α × Int) :
    (l.foldl (keepBest weight) best = best ∧ ∀ x ∈ l, weight x ≤ best.2) ∨
    ∃ a, l.foldl (keepBest weight) best = (some a, weight a) ∧ best.2 < weight a ∧
      FirstBest weight l a := by
  induction l generalizing best with
  | nil => exact Or.inl ⟨rfl, nofun⟩
  | cons b l ih =>
      rw [List.foldl_cons, keepBest]
      by_cases hb : best.2 < weight b
      · rw [if_pos hb]
        right
        rcases ih (some b, weight b) with
          ⟨hfold, hle⟩ | ⟨a, hfold, hlt, before, after, rfl, hbef, haft⟩
        · exact ⟨b, hfold, hb, [], l, rfl, nofun, hle⟩
        · refine ⟨a, hfold, lt_trans hb hlt, b :: before, after, rfl, ?_, haft⟩
          intro x hx
          rcases List.mem_cons.mp hx with rfl | hx
          · exact hlt
          · exact hbef x hx
      · rw [if_neg hb]
        rcases ih best with ⟨hfold, hle⟩ | ⟨a, hfold, hlt, before, after, rfl, hbef, haft⟩
        · left
          refine ⟨hfold, ?_⟩
          intro x hx
          rcases List.mem_cons.mp hx with rfl | hx
          · exact not_lt.mp hb
          · exact hle x hx
        · right
          refine ⟨a, hfold, hlt, b :: before, after, rfl, ?_, haft⟩
          intro x hx
          rcases List.mem_cons.mp hx with rfl | hx
          · exact lt_of_le_of_lt (not_lt.mp hb) hlt
          · exact hbef x hx

variable {weight}

/-- The loop finds nothing exactly when nothing is heavier than the floor. -/
theorem scanBest_eq_none {floor : Int} {l : List α} :
    (scanBest weight floor l).1 = none ↔ ∀ x ∈ l, weight x ≤ floor := by
  rcases foldl_keepBest weight l (none, floor) with ⟨hfold, hle⟩ | ⟨a, hfold, hlt, hbest⟩
  · rw [scanBest, hfold]
    exact ⟨fun _ => hle, fun _ => rfl⟩
  · rw [scanBest, hfold]
    obtain ⟨before, after, rfl, -, -⟩ := hbest
    refine ⟨nofun, fun hle => ?_⟩
    have := hle a (by simp)
    exact absurd hlt (not_lt.mpr this)

/-- What the loop finds is the first of the heaviest elements. -/
theorem scanBest_eq_some {floor : Int} {l : List α} {a : α}
    (h : (scanBest weight floor l).1 = some a) : FirstBest weight l a := by
  rcases foldl_keepBest weight l (none, floor) with ⟨hfold, -⟩ | ⟨b, hfold, -, hbest⟩
  · rw [scanBest, hfold] at h
    cases h
  · rw [scanBest, hfold] at h
    cases h
    exact hbest

theorem FirstBest.mem {l : List α} {a : α} (h : FirstBest weight l a) : a ∈ l := by
  obtain ⟨before, after, rfl, -, -⟩ := h
  simp

theorem FirstBest.le {l : List α} {a : α} (h : FirstBest weight l a) {x : α} (hx : x ∈ l) :
    weight x ≤ weight a := by
  obtain ⟨before, after, rfl, hbef, haft⟩ := h
  rcases List.mem_append.mp hx with hx | hx
  · exact le_of_lt (hbef x hx)
  · rcases List.mem_cons.mp hx with rfl | hx
    · exact le_refl _
    · exact haft x hx

/-- In a list sorted by `R`, an element that is not `R`-above the chosen one is lighter. -/
theorem FirstBest.lt_of_not {R : α → α → Prop} {l : List α} {a : α} (h : FirstBest weight l a)
    (hsorted : l.Pairwise R) {x : α} (hx : x ∈ l) (hne : x ≠ a) (hR : ¬ R a x) :
    weight x < weight a := by
  obtain ⟨before, after, rfl, hbef, -⟩ := h
  rcases List.mem_append.mp hx with hx | hx
  · exact hbef x hx
  · rcases List.mem_cons.mp hx with rfl | hx
    · exact absurd rfl hne
    · have hpair := (List.pairwise_append.mp hsorted).2.1
      exact absurd ((List.pairwise_cons.mp hpair).1 x hx) hR

end Scan

end Lanecove
