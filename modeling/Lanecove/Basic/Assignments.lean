import Mathlib.Data.List.Forall2
import Mathlib.Data.List.Nodup
import Mathlib.Tactic

set_option autoImplicit false

/-! # Assignments with distinct keys

A list of entries is read from left to right; each entry may set some part of a record, chosen by
its key, or fail. When the keys are distinct, a part that only one key sets holds in the end what
the entry with this key gives, or its initial value if there is no such entry (`foldlM_given`).
Stated with membership (`Given`), the outcome does not depend on the order of the entries.

A list that is filled one item after another up to a capacity is complete exactly when every item
can be converted and there are not too many (`foldlM_push_eq_some`).
-/

namespace Lanecove

section Given

variable {κ ε τ : Type}

/-- `x` is what the entry with key `name` gives, or the default if there is none. -/
def Given (entries : List (κ × ε)) (name : κ) (R : ε → τ → Prop) (dflt x : τ) : Prop :=
  (∀ v, (name, v) ∈ entries → R v x) ∧ ((∀ v, (name, v) ∉ entries) → x = dflt)

variable {entries entries' : List (κ × ε)} {name : κ} {R R' : ε → τ → Prop} {dflt x y : τ}

theorem Given.unique (hR : ∀ v x y, R v x → R v y → x = y) (hx : Given entries name R dflt x)
    (hy : Given entries name R dflt y) : x = y := by
  by_cases h : ∃ v, (name, v) ∈ entries
  · obtain ⟨v, hv⟩ := h
    exact hR v x y (hx.1 v hv) (hy.1 v hv)
  · have hnone : ∀ v, (name, v) ∉ entries := fun v hv => h ⟨v, hv⟩
    rw [hx.2 hnone, hy.2 hnone]

theorem Given.imp (h : ∀ v, (name, v) ∈ entries → R v x → R' v x)
    (hx : Given entries name R dflt x) : Given entries name R' dflt x :=
  ⟨fun v hv => h v hv (hx.1 v hv), hx.2⟩

/-- Only the entries with this key matter. -/
theorem Given.congr (h : ∀ v, (name, v) ∈ entries ↔ (name, v) ∈ entries')
    (hx : Given entries name R dflt x) : Given entries' name R dflt x :=
  ⟨fun v hv => hx.1 v ((h v).mpr hv), fun hnone => hx.2 (fun v hv => hnone v ((h v).mp hv))⟩

end Given

section Fold

variable {κ ε β τ : Type} {step : β → ε → Option β} (key : ε → κ) (get : β → τ) (name : κ)
  {g₀ : τ}

/-- Entries with other keys leave the part alone. -/
theorem foldlM_keep (hkeep : ∀ b e b', step b e = some b' → key e ≠ name → get b' = get b)
    (es : List ε) {b b' : β} (hes : ∀ e ∈ es, key e ≠ name) (h : es.foldlM step b = some b') :
    get b' = get b := by
  induction es generalizing b with
  | nil =>
      obtain rfl := Option.some.inj h
      rfl
  | cons e es ih =>
      rw [List.foldlM_cons] at h
      obtain ⟨b₁, hstep, hrest⟩ := Option.bind_eq_some_iff.mp h
      rw [ih (fun x hx => hes x (List.mem_cons_of_mem _ hx)) hrest,
        hkeep b e b₁ hstep (hes e List.mem_cons_self)]

/-- **One part after all entries**: set by the entry with its key, from its initial value, and kept
by the others. -/
theorem foldlM_given (R : ε → τ → Prop)
    (hset : ∀ b e b', step b e = some b' → key e = name → get b = g₀ → R e (get b'))
    (hkeep : ∀ b e b', step b e = some b' → key e ≠ name → get b' = get b)
    (es : List ε) (hnodup : (es.map key).Nodup) {b b' : β} (hb : get b = g₀)
    (h : es.foldlM step b = some b') :
    (∀ e ∈ es, key e = name → R e (get b')) ∧ ((∀ e ∈ es, key e ≠ name) → get b' = g₀) := by
  refine ⟨?_, fun hes => by rw [foldlM_keep key get name hkeep es hes h, hb]⟩
  induction es generalizing b with
  | nil => nofun
  | cons e es ih =>
      rw [List.foldlM_cons] at h
      obtain ⟨b₁, hstep, hrest⟩ := Option.bind_eq_some_iff.mp h
      rw [List.map_cons, List.nodup_cons] at hnodup
      intro x hx hkey
      rcases List.mem_cons.mp hx with rfl | hx
      · -- the entry itself: no later one has its key
        have hlater : ∀ y ∈ es, key y ≠ name := by
          intro y hy heq
          exact hnodup.1 (by rw [hkey, ← heq]; exact List.mem_map_of_mem hy)
        rw [foldlM_keep key get name hkeep es hlater hrest]
        exact hset b x b₁ hstep hkey hb
      · have hne : key e ≠ name := by
          intro heq
          exact hnodup.1 (by rw [heq, ← hkey]; exact List.mem_map_of_mem hx)
        exact ih hnodup.2 (by rw [hkeep b e b₁ hstep hne, hb]) hrest x hx hkey

/-- A list collected from the entries with one key comes from one entry. -/
theorem flatMap_of_distinct {α : Type} {f : ε → List α} {es : List ε}
    (hnodup : (es.map key).Nodup) (hf : ∀ e, key e ≠ name → f e = []) {e : ε} (he : e ∈ es)
    (hkey : key e = name) : es.flatMap f = f e := by
  induction es with
  | nil => cases he
  | cons x es ih =>
      rw [List.map_cons, List.nodup_cons] at hnodup
      rw [List.flatMap_cons]
      rcases List.mem_cons.mp he with rfl | he
      · have hrest : es.flatMap f = [] := by
          rw [List.flatMap_eq_nil_iff]
          intro y hy
          refine hf y (fun heq => hnodup.1 ?_)
          rw [hkey, ← heq]
          exact List.mem_map_of_mem hy
        rw [hrest, List.append_nil]
      · have hx : f x = [] := by
          refine hf x (fun heq => hnodup.1 ?_)
          rw [heq, ← hkey]
          exact List.mem_map_of_mem he
        rw [hx, List.nil_append, ih hnodup.2 he]

end Fold

section Push

variable {α β ξ : Type} (items : β → List α) (put : β → List α → β) {f : ξ → Option α}
  {cap : Nat} {step : β → ξ → Option β}

/-- Items can be converted one by one exactly when the list can. -/
theorem exists_forall₂_iff {xs : List ξ} :
    (∃ as, List.Forall₂ (fun x a => f x = some a) xs as) ↔ ∀ x ∈ xs, (f x).isSome = true := by
  constructor
  · rintro ⟨as, has⟩
    have hboth := has.imp (fun x a hx => (⟨by rw [hx]; rfl, hx⟩ : (f x).isSome = true ∧ _))
    exact ((List.forall₂_and_left _ _).mp hboth).1
  · intro h
    induction xs with
    | nil => exact ⟨[], .nil⟩
    | cons x xs ih =>
        obtain ⟨a, ha⟩ := Option.isSome_iff_exists.mp (h x List.mem_cons_self)
        obtain ⟨as, has⟩ := ih (fun y hy => h y (List.mem_cons_of_mem _ hy))
        exact ⟨a :: as, .cons ha has⟩

/-- **Filling a bounded list.** -/
theorem foldlM_push_eq_some
    (hstep : ∀ b x, step b x =
      if cap ≤ (items b).length then none else (f x).map fun a => put b (items b ++ [a]))
    (hitems : ∀ b l, items (put b l) = l) (hput : ∀ b l l', put (put b l) l' = put b l')
    (hself : ∀ b, put b (items b) = b) (xs : List ξ) {b b' : β} :
    xs.foldlM step b = some b' ↔
      ∃ as, List.Forall₂ (fun x a => f x = some a) xs as ∧
        (xs = [] ∨ (items b).length + xs.length ≤ cap) ∧ b' = put b (items b ++ as) := by
  induction xs generalizing b with
  | nil =>
      constructor
      · intro h
        obtain rfl := Option.some.inj h
        exact ⟨[], .nil, Or.inl rfl, by rw [List.append_nil, hself]⟩
      · rintro ⟨as, has, -, rfl⟩
        cases has
        rw [List.append_nil, hself]
        rfl
  | cons x xs ih =>
      rw [List.foldlM_cons, hstep]
      by_cases hfull : cap ≤ (items b).length
      · rw [if_pos hfull]
        constructor
        · nofun
        · rintro ⟨as, -, hempty | hlen, -⟩
          · cases hempty
          · rw [List.length_cons] at hlen
            omega
      · rw [if_neg hfull]
        cases hx : f x with
        | none =>
            constructor
            · nofun
            · rintro ⟨as, has, -, -⟩
              cases has with
              | cons ha _ =>
                  rw [hx] at ha
                  cases ha
        | some a =>
            show xs.foldlM step (put b (items b ++ [a])) = some b' ↔ _
            rw [ih, hitems, List.length_append, List.length_singleton, List.length_cons]
            -- there was room for `x`, so an empty rest fits as well
            have hroom : (xs = [] ∨ (items b).length + 1 + xs.length ≤ cap) ↔
                (x :: xs = [] ∨ (items b).length + (xs.length + 1) ≤ cap) := by
              constructor
              · rintro (rfl | hlen)
                · exact Or.inr (by simp only [List.length_nil]; omega)
                · exact Or.inr (by omega)
              · rintro (hempty | hlen)
                · cases hempty
                · exact Or.inr (by omega)
            rw [hroom]
            constructor
            · rintro ⟨as, has, hcount, rfl⟩
              refine ⟨a :: as, .cons hx has, hcount, ?_⟩
              rw [hput, List.append_assoc]
              rfl
            · rintro ⟨as, has, hcount, rfl⟩
              cases has with
              | @cons _ a' _ as ha has =>
                  rw [hx] at ha
                  obtain rfl := Option.some.inj ha
                  refine ⟨as, has, hcount, ?_⟩
                  rw [hput, List.append_assoc]
                  rfl

end Push

/-- A last element has a partner, and so have those before it. -/
theorem forall₂_concat_right {α β : Type} {R : α → β → Prop} {l : List α} {l' : List β} {b : β}
    (h : List.Forall₂ R l (l' ++ [b])) : ∃ l₀ a, l = l₀ ++ [a] ∧ List.Forall₂ R l₀ l' ∧ R a b := by
  have hrev := List.forall₂_reverse_iff.mpr h
  rw [List.reverse_concat] at hrev
  obtain ⟨a, l₁, hab, hl₁, heq⟩ := List.forall₂_cons_right_iff.mp hrev
  refine ⟨l₁.reverse, a, ?_, ?_, hab⟩
  · rw [← List.reverse_cons, ← heq, List.reverse_reverse]
  · rw [← l'.reverse_reverse]
    exact List.forall₂_reverse_iff.mpr hl₁

/-- Every element has a partner. -/
theorem exists_of_forall₂_mem {α β : Type} {R : α → β → Prop} {l : List α} {l' : List β}
    (h : List.Forall₂ R l l') {a : α} (ha : a ∈ l) : ∃ b ∈ l', R a b := by
  induction h with
  | nil => cases ha
  | @cons x y l l' hxy _ ih =>
      rcases List.mem_cons.mp ha with rfl | ha
      · exact ⟨y, List.mem_cons_self, hxy⟩
      · obtain ⟨b, hb, hab⟩ := ih ha
        exact ⟨b, List.mem_cons_of_mem _ hb, hab⟩

/-- Two relations on the same list, one element at a time. -/
theorem forall₂_of_forall₂ {α β γ : Type} {R : α → β → Prop} {P : α → γ → Prop} {Q : β → γ → Prop}
    (h : ∀ a b c, R a b → P a c → Q b c) {l : List α} {l' : List β} {m : List γ}
    (hR : List.Forall₂ R l l') (hP : List.Forall₂ P l m) : List.Forall₂ Q l' m := by
  induction hR generalizing m with
  | nil =>
      cases hP
      exact .nil
  | cons hab _ ih =>
      cases hP with
      | cons hac hrest => exact .cons (h _ _ _ hab hac) (ih hrest)

end Lanecove
