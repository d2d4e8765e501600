import Lanecove.Basic.Words

set_option autoImplicit false

/-! # The replay window

`check_replay` of `src/common.h`. The window is an array of 32 words; bit `k` stands for the
sequence number `highest - k`. `ReplayState.Seen` is the set of numbers the window rejects,
and the two specification lemmas say that `check_replay` rejects exactly that set
(`checkReplay_eq_none`) and how an accepted number enlarges it (`seen_checkReplay`).
-/

namespace Lanecove

def REPLAY_WINDOW_WORDS : Nat := 32

/-- The width of the window in bits. -/
def windowBits : Nat := REPLAY_WINDOW_WORDS * 64

/-- `recv_seq_highest` and `recv_seq_window`. -/
structure ReplayState where
  highest : BitVec 64
  window : Words REPLAY_WINDOW_WORDS

namespace ReplayState

/-- The state of a fresh session key. -/
def zero : ReplayState := ⟨0, fun _ => 0#64⟩

/-- The numbers the window rejects: too far below the highest one, or marked. -/
def Seen (r : ReplayState) (q : BitVec 64) : Prop :=
  q ≤ r.highest ∧
    (windowBits ≤ r.highest.toNat - q.toNat ∨ r.window.bit (r.highest.toNat - q.toNat) = true)

instance (r : ReplayState) (q : BitVec 64) : Decidable (r.Seen q) :=
  inferInstanceAs (Decidable (_ ∧ _))

theorem not_seen_zero (q : BitVec 64) : ¬ zero.Seen q := by
  rintro ⟨hle, h⟩
  have hq : q.toNat = 0 := by
    have := BitVec.le_def.mp hle
    simpa [zero] using this
  rcases h with h | h
  · simp [zero, windowBits, REPLAY_WINDOW_WORDS] at h
  · simp [zero] at h

end ReplayState

/-- The window moved up by `diff`: cleared when nothing of it stays inside. -/
def raiseWindow (window : Words REPLAY_WINDOW_WORDS) (diff : Nat) :
    Words REPLAY_WINDOW_WORDS :=
  if windowBits ≤ diff then fun _ => 0#64 else window.shiftLeft (diff / 64) (diff % 64)

/-- `check_replay`: `none` for a duplicate or a number too old, else the updated state. -/
def checkReplay (seq : BitVec 64) (r : ReplayState) : Option ReplayState :=
  if r.highest < seq then
    some ⟨seq, (raiseWindow r.window (seq - r.highest).toNat).setBit 0⟩
  else
    let diff := (r.highest - seq).toNat
    if windowBits ≤ diff then none
    else if r.window.bit diff then none
    else some ⟨r.highest, r.window.setBit diff⟩

/-- A number is rejected exactly when the window has seen it. -/
theorem checkReplay_eq_none (seq : BitVec 64) (r : ReplayState) :
    checkReplay seq r = none ↔ r.Seen seq := by
  unfold checkReplay ReplayState.Seen
  by_cases hlt : r.highest < seq
  · rw [if_pos hlt]
    have hle : ¬ seq ≤ r.highest := by
      rw [BitVec.le_def]; rw [BitVec.lt_def] at hlt; omega
    simp [hle]
  · have hle : seq ≤ r.highest := by
      rw [BitVec.le_def]; rw [BitVec.lt_def] at hlt; omega
    rw [if_neg hlt, BitVec.toNat_sub_of_le hle]
    simp only [hle, true_and]
    by_cases hw : windowBits ≤ r.highest.toNat - seq.toNat
    · simp [hw]
    · by_cases hb : r.window.bit (r.highest.toNat - seq.toNat) = true
      · simp [hb]
      · simp [hw, hb]

/-- Bit `k` of a raised window was bit `k - diff`, if it was a bit of the window at all. -/
theorem bit_raiseWindow (window : Words REPLAY_WINDOW_WORDS) {diff k : Nat}
    (hk : k < windowBits) :
    (raiseWindow window diff).bit k = (decide (diff ≤ k) && window.bit (k - diff)) := by
  unfold raiseWindow
  split
  · rw [Words.bit_zero, decide_eq_false (by omega), Bool.false_and]
  · exact Words.bit_shiftLeft _ _ (by rw [windowBits, Nat.mul_comm] at hk; exact hk)

/-- A number above the highest one moves the window up to it. -/
theorem seen_raised {seq : BitVec 64} {r : ReplayState} (hlt : r.highest < seq)
    (q : BitVec 64) :
    ReplayState.Seen ⟨seq, (raiseWindow r.window (seq - r.highest).toNat).setBit 0⟩ q ↔
      r.Seen q ∨ q = seq ∨ q.toNat + windowBits ≤ seq.toNat := by
  have hlt' := BitVec.lt_def.mp hlt
  have hd : (seq - r.highest).toNat = seq.toNat - r.highest.toNat :=
    BitVec.toNat_sub_of_le (by rw [BitVec.le_def]; omega)
  have hpos : 0 < windowBits := by decide
  have hset : ∀ w : Words REPLAY_WINDOW_WORDS, ∀ j,
      (w.setBit 0).bit j = (decide (j = 0) || w.bit j) :=
    fun w j => Words.bit_setBit w (by decide) j
  simp only [ReplayState.Seen, BitVec.le_def, hd, hset, Bool.or_eq_true, decide_eq_true_eq]
  constructor
  · rintro ⟨hq, hfar | h0 | hbit⟩
    · exact Or.inr (Or.inr (by omega))
    · exact Or.inr (Or.inl (BitVec.eq_of_toNat_eq (by omega)))
    · by_cases hfar : q.toNat + windowBits ≤ seq.toNat
      · exact Or.inr (Or.inr hfar)
      · -- the bit came from the old window, where it stood for the same number
        rw [bit_raiseWindow _ (by omega), Bool.and_eq_true, decide_eq_true_eq] at hbit
        have hk : seq.toNat - q.toNat - (seq.toNat - r.highest.toNat)
            = r.highest.toNat - q.toNat := by omega
        rw [hk] at hbit
        exact Or.inl ⟨by omega, Or.inr hbit.2⟩
  · rintro (⟨hq, hold⟩ | rfl | hfar)
    · refine ⟨by omega, ?_⟩
      by_cases hfar : windowBits ≤ seq.toNat - q.toNat
      · exact Or.inl hfar
      · have hk : seq.toNat - q.toNat - (seq.toNat - r.highest.toNat)
            = r.highest.toNat - q.toNat := by omega
        refine Or.inr (Or.inr ?_)
        rw [bit_raiseWindow _ (by omega), hk, Bool.and_eq_true, decide_eq_true_eq]
        exact ⟨by omega, hold.resolve_left (by omega)⟩
    · exact ⟨le_refl _, Or.inr (Or.inl (by omega))⟩
    · exact ⟨by omega, Or.inl (by omega)⟩

/-- A number inside the window only sets its own bit. -/
theorem seen_marked {seq : BitVec 64} {r : ReplayState} (hle : seq ≤ r.highest)
    (hw : r.highest.toNat - seq.toNat < windowBits) (q : BitVec 64) :
    ReplayState.Seen ⟨r.highest, r.window.setBit (r.highest.toNat - seq.toNat)⟩ q ↔
      r.Seen q ∨ q = seq ∨ q.toNat + windowBits ≤ seq.toNat := by
  have hle' := BitVec.le_def.mp hle
  have hset : ∀ j, (r.window.setBit (r.highest.toNat - seq.toNat)).bit j
      = (decide (j = r.highest.toNat - seq.toNat) || r.window.bit j) :=
    Words.bit_setBit _ (by rw [windowBits, Nat.mul_comm] at hw; exact hw)
  simp only [ReplayState.Seen, BitVec.le_def, hset, Bool.or_eq_true, decide_eq_true_eq]
  constructor
  · rintro ⟨hq, hfar | heq | hbit⟩
    · exact Or.inl ⟨hq, Or.inl hfar⟩
    · exact Or.inr (Or.inl (BitVec.eq_of_toNat_eq (by omega)))
    · exact Or.inl ⟨hq, Or.inr hbit⟩
  · rintro (⟨hq, hold⟩ | rfl | hfar)
    · exact ⟨hq, hold.imp_right Or.inr⟩
    · exact ⟨hle', Or.inr (Or.inl rfl)⟩
    · exact ⟨by omega, Or.inl (by omega)⟩

/-- **What an accepted number does to the window**: it becomes seen itself, and so does
everything a whole window or more below it. Nothing else changes. -/
theorem seen_checkReplay {seq : BitVec 64} {r r' : ReplayState}
    (h : checkReplay seq r = some r') (q : BitVec 64) :
    r'.Seen q ↔ r.Seen q ∨ q = seq ∨ q.toNat + windowBits ≤ seq.toNat := by
  unfold checkReplay at h
  by_cases hlt : r.highest < seq
  · rw [if_pos hlt, Option.some.injEq] at h
    subst h
    exact seen_raised hlt q
  · have hle : seq ≤ r.highest := by
      rw [BitVec.le_def]; rw [BitVec.lt_def] at hlt; omega
    rw [if_neg hlt, BitVec.toNat_sub_of_le hle] at h
    by_cases hw : windowBits ≤ r.highest.toNat - seq.toNat
    · simp [hw] at h
    · by_cases hb : r.window.bit (r.highest.toNat - seq.toNat) = true
      · simp [hb] at h
      · simp only [hw, hb, if_false, Bool.false_eq_true, Option.some.injEq] at h
        subst h
        exact seen_marked hle (by omega) q

/-- What was seen stays seen. -/
theorem seen_mono {seq : BitVec 64} {r r' : ReplayState} (h : checkReplay seq r = some r')
    {q : BitVec 64} (hq : r.Seen q) : r'.Seen q :=
  (seen_checkReplay h q).mpr (Or.inl hq)

theorem seen_self {seq : BitVec 64} {r r' : ReplayState} (h : checkReplay seq r = some r') :
    r'.Seen seq :=
  (seen_checkReplay h seq).mpr (Or.inr (Or.inl rfl))

end Lanecove
