import Lanecove.Basic.Machine
import Lanecove.Peer.Replay

set_option autoImplicit false

/-! # The replay window as a set of numbers

`check_replay` is called once for each packet that decrypts, on the same two variables. What it
stands for is the set of numbers it has accepted so far: a number is accepted when it is not in
the set and not a whole window below a member (`Fresh`). `Represents` relates the two variables
to that set; a call keeps the relation (`Represents.next`), so it holds after every sequence of
calls.
-/

namespace Lanecove

/-- `check_replay` with its in-out parameters: the return value, and `*highest` and `window` after
the call. -/
def checkReplayInPlace (seq : BitVec 64) (r : ReplayState) : Int × ReplayState :=
  if r.highest < seq then
    (0, ⟨seq, (raiseWindow r.window (seq - r.highest).toNat).setBit 0⟩)
  else
    let diff := (r.highest - seq).toNat
    if windowBits ≤ diff then (-1, r)
    else if r.window.bit diff then (-1, r)
    else (0, ⟨r.highest, r.window.setBit diff⟩)

theorem checkReplayInPlace_eq (seq : BitVec 64) (r : ReplayState) :
    checkReplayInPlace seq r = ((checkReplay seq r).elim (-1, r) (fun r' => (0, r'))) := by
  simp only [checkReplayInPlace, checkReplay]
  split
  · rfl
  · split
    · rfl
    · split <;> rfl

/-- A call returns 0 exactly for the numbers the window has not seen. -/
theorem checkReplayInPlace_eq_zero (seq : BitVec 64) (r : ReplayState) :
    (checkReplayInPlace seq r).1 = 0 ↔ ¬ r.Seen seq := by
  rw [checkReplayInPlace_eq, ← checkReplay_eq_none]
  cases checkReplay seq r <;> simp

/-- A call that does not return 0 returns -1 and writes nothing. -/
theorem checkReplayInPlace_of_ne_zero {seq : BitVec 64} {r : ReplayState}
    (h : (checkReplayInPlace seq r).1 ≠ 0) : checkReplayInPlace seq r = (-1, r) := by
  rw [checkReplayInPlace_eq] at h ⊢
  cases hc : checkReplay seq r with
  | none => rfl
  | some r' => simp [hc] at h

/-- Successive calls on the same variables. The trace is the list of the accepted numbers. -/
def replayCalls : Machine ReplayState (BitVec 64) (BitVec 64) where
  step r seq := ((checkReplayInPlace seq r).2,
    if (checkReplayInPlace seq r).1 = 0 then [seq] else [])

/-! ## The set behind the window -/

/-- A number the window has to accept when the numbers in `A` were accepted before. -/
def Fresh (A : List (BitVec 64)) (q : BitVec 64) : Prop :=
  q ∉ A ∧ ∀ a ∈ A, ¬ q.toNat + windowBits ≤ a.toNat

/-- `highest` and `window` describe the accepted numbers `A`. -/
structure Represents (r : ReplayState) (A : List (BitVec 64)) : Prop where
  le : ∀ a ∈ A, a ≤ r.highest
  max : r.highest ∈ A ∨ A = [] ∧ r.highest = 0
  bit : ∀ k < windowBits,
    r.window.bit k = true ↔ ∃ a ∈ A, a.toNat + k = r.highest.toNat

namespace Represents

variable {r : ReplayState} {A : List (BitVec 64)}

theorem zero : Represents ReplayState.zero [] where
  le := nofun
  max := Or.inr ⟨rfl, rfl⟩
  bit := by
    intro k _
    simp [ReplayState.zero]

/-- What the window has seen is what is not fresh. -/
theorem seen_iff (h : Represents r A) (q : BitVec 64) : r.Seen q ↔ ¬ Fresh A q := by
  have hle : ∀ a ∈ A, a.toNat ≤ r.highest.toNat := fun a ha => BitVec.le_def.mp (h.le a ha)
  have hpos : 0 < windowBits := by decide
  unfold ReplayState.Seen Fresh
  constructor
  · rintro ⟨hq, hfar | hbit⟩ ⟨hnew, hnear⟩
    · -- a whole window below the highest number, which is itself accepted
      rcases h.max with hmax | ⟨-, hzero⟩
      · exact hnear _ hmax (by omega)
      · rw [hzero] at hfar
        simp at hfar
        omega
    · have hk : r.highest.toNat - q.toNat < windowBits := by
        by_contra hfar
        rcases h.max with hmax | ⟨-, hzero⟩
        · exact hnear _ hmax (by omega)
        · rw [hzero] at hfar
          simp at hfar
          omega
      obtain ⟨a, ha, hsum⟩ := (h.bit _ hk).mp hbit
      have hqle := BitVec.le_def.mp hq
      have haq : a = q := BitVec.eq_of_toNat_eq (by omega)
      exact hnew (haq ▸ ha)
  · intro hstale
    by_cases hmem : q ∈ A
    · have hq := hle q hmem
      refine ⟨h.le q hmem, ?_⟩
      by_cases hk : windowBits ≤ r.highest.toNat - q.toNat
      · exact Or.inl hk
      · exact Or.inr ((h.bit _ (by omega)).mpr ⟨q, hmem, by omega⟩)
    · obtain ⟨a, ha, hfar⟩ : ∃ a ∈ A, q.toNat + windowBits ≤ a.toNat := by
        by_contra hnone
        exact hstale ⟨hmem, fun a ha hfar => hnone ⟨a, ha, hfar⟩⟩
      have hah := hle a ha
      exact ⟨BitVec.le_def.mpr (by omega), Or.inl (by omega)⟩

/-- A number above the highest one: the window moves up with it. -/
theorem raised (h : Represents r A) {seq : BitVec 64} (hlt : r.highest < seq) :
    Represents ⟨seq, (raiseWindow r.window (seq - r.highest).toNat).setBit 0⟩ (A ++ [seq]) := by
  have hlt' := BitVec.lt_def.mp hlt
  have hd : (seq - r.highest).toNat = seq.toNat - r.highest.toNat :=
    BitVec.toNat_sub_of_le (BitVec.le_def.mpr (by omega))
  refine ⟨?_, Or.inl (by simp), ?_⟩
  · intro a ha
    rcases List.mem_append.mp ha with ha | ha
    · have := BitVec.le_def.mp (h.le a ha)
      exact BitVec.le_def.mpr (by simp only; omega)
    · rw [List.mem_singleton.mp ha]
      exact BitVec.le_refl _
  · intro k hk
    rw [Words.bit_setBit _ (by decide) k, bit_raiseWindow _ hk, hd]
    simp only [Bool.or_eq_true, Bool.and_eq_true, decide_eq_true_eq, List.mem_append,
      List.mem_singleton]
    constructor
    · rintro (rfl | ⟨hdk, hbit⟩)
      · exact ⟨seq, Or.inr rfl, by omega⟩
      · obtain ⟨a, ha, hsum⟩ := (h.bit _ (by omega)).mp hbit
        exact ⟨a, Or.inl ha, by omega⟩
    · rintro ⟨a, ha | rfl, hsum⟩
      · -- an older number keeps its distance to the highest one, moved by the jump
        have hah := BitVec.le_def.mp (h.le a ha)
        exact Or.inr ⟨by omega, (h.bit _ (by omega)).mpr ⟨a, ha, by omega⟩⟩
      · exact Or.inl (by omega)

/-- A fresh number at or below the highest one: its bit is set. -/
theorem marked (h : Represents r A) {seq : BitVec 64} (hle : seq ≤ r.highest)
    (hw : r.highest.toNat - seq.toNat < windowBits) :
    Represents ⟨r.highest, r.window.setBit (r.highest.toNat - seq.toNat)⟩ (A ++ [seq]) := by
  have hle' := BitVec.le_def.mp hle
  refine ⟨?_, ?_, ?_⟩
  · intro a ha
    rcases List.mem_append.mp ha with ha | ha
    · exact h.le a ha
    · rw [List.mem_singleton.mp ha]
      exact hle
  · left
    rw [List.mem_append, List.mem_singleton]
    rcases h.max with hmax | ⟨-, hzero⟩
    · exact Or.inl hmax
    · -- nothing was accepted yet, so the only number not above is 0 itself
      right
      rw [hzero] at hle'
      simp only [hzero]
      exact (BitVec.eq_of_toNat_eq (by simpa using hle')).symm
  · intro k hk
    rw [Words.bit_setBit _ (by rw [windowBits, Nat.mul_comm] at hw; exact hw) k]
    simp only [Bool.or_eq_true, decide_eq_true_eq, List.mem_append, List.mem_singleton]
    rw [h.bit k hk]
    constructor
    · rintro (rfl | ⟨a, ha, hsum⟩)
      · exact ⟨seq, Or.inr rfl, by omega⟩
      · exact ⟨a, Or.inl ha, hsum⟩
    · rintro ⟨a, ha | rfl, hsum⟩
      · exact Or.inr ⟨a, ha, hsum⟩
      · exact Or.inl (by omega)

/-- **One call keeps the relation.** -/
theorem next (c : replayCalls.Config) (seq : BitVec 64) (h : Represents c.1 c.2) :
    Represents (replayCalls.next c seq).1 (replayCalls.next c seq).2 := by
  obtain ⟨r, A⟩ := c
  show Represents (checkReplayInPlace seq r).2
    (A ++ if (checkReplayInPlace seq r).1 = 0 then [seq] else [])
  by_cases hret : (checkReplayInPlace seq r).1 = 0
  · rw [if_pos hret]
    have hnew := (checkReplayInPlace_eq_zero seq r).mp hret
    by_cases hlt : r.highest < seq
    · have hstate : (checkReplayInPlace seq r).2 =
          ⟨seq, (raiseWindow r.window (seq - r.highest).toNat).setBit 0⟩ := by
        rw [checkReplayInPlace, if_pos hlt]
      rw [hstate]
      exact h.raised hlt
    · have hle : seq ≤ r.highest := by
        rw [BitVec.le_def]; rw [BitVec.lt_def] at hlt; omega
      have hw : r.highest.toNat - seq.toNat < windowBits := by
        by_contra hfar
        exact hnew ⟨hle, Or.inl (by omega)⟩
      have hbit : ¬ r.window.bit (r.highest.toNat - seq.toNat) = true :=
        fun hbit => hnew ⟨hle, Or.inr hbit⟩
      have hstate : (checkReplayInPlace seq r).2 =
          ⟨r.highest, r.window.setBit (r.highest.toNat - seq.toNat)⟩ := by
        simp only [checkReplayInPlace, if_neg hlt, BitVec.toNat_sub_of_le hle,
          if_neg (not_le.mpr hw), if_neg hbit]
      rw [hstate]
      exact h.marked hle hw
  · rw [if_neg hret, List.append_nil, checkReplayInPlace_of_ne_zero hret]
    exact h

/-- The relation holds after every sequence of calls on zeroed variables. -/
theorem run (calls : List (BitVec 64)) :
    Represents (replayCalls.run (ReplayState.zero, []) calls).1
      (replayCalls.run (ReplayState.zero, []) calls).2 :=
  replayCalls.invariant_all (I := fun c => Represents c.1 c.2) (fun c q h => next c q h) calls _
    zero

end Represents

/-- The state `r` does for the next call what the accepted numbers `A` say. The call returns 0
exactly for a number that was not accepted and is not 2048 or more below an accepted one;
`highest` is the maximum of the accepted numbers, or 0; bit `k` of the window says whether
`highest - k` was accepted; and a call that rejects returns -1 and changes nothing. -/
structure RefinesAccepted (r : ReplayState) (A : List (BitVec 64)) : Prop where
  accepts : ∀ seq, (checkReplayInPlace seq r).1 = 0 ↔
    seq ∉ A ∧ ∀ a ∈ A, ¬ seq.toNat + 2048 ≤ a.toNat
  le : ∀ a ∈ A, a ≤ r.highest
  max : r.highest ∈ A ∨ A = [] ∧ r.highest = 0
  window : ∀ k < 2048, r.window.bit k = true ↔
    k ≤ r.highest.toNat ∧ r.highest - BitVec.ofNat 64 k ∈ A
  rejects : ∀ seq, (checkReplayInPlace seq r).1 ≠ 0 → checkReplayInPlace seq r = (-1, r)

/-- **The sliding window refines the set of accepted numbers**, after any sequence of calls. -/
theorem check_replay_refines_accepted (calls : List (BitVec 64)) :
    RefinesAccepted (replayCalls.run (ReplayState.zero, []) calls).1
      (replayCalls.run (ReplayState.zero, []) calls).2 := by
  have h := Represents.run calls
  revert h
  generalize (replayCalls.run (ReplayState.zero, []) calls).1 = r
  generalize (replayCalls.run (ReplayState.zero, []) calls).2 = A
  intro h
  refine ⟨?_, h.le, h.max, ?_, fun seq hret => checkReplayInPlace_of_ne_zero hret⟩
  · intro seq
    rw [checkReplayInPlace_eq_zero, h.seen_iff, not_not]
    rfl
  · intro k hk
    rw [h.bit k hk]
    have hk64 : (BitVec.ofNat 64 k).toNat = k := by
      rw [BitVec.toNat_ofNat, Nat.mod_eq_of_lt (by omega)]
    constructor
    · rintro ⟨a, ha, hsum⟩
      have hsub : r.highest - BitVec.ofNat 64 k = a := by
        apply BitVec.eq_of_toNat_eq
        rw [BitVec.toNat_sub_of_le (BitVec.le_def.mpr (by omega)), hk64]
        omega
      exact ⟨by omega, hsub ▸ ha⟩
    · rintro ⟨hle, hmem⟩
      refine ⟨_, hmem, ?_⟩
      rw [BitVec.toNat_sub_of_le (BitVec.le_def.mpr (by omega)), hk64]
      omega

end Lanecove
