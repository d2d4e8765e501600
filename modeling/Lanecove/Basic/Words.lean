import Mathlib.Data.List.FinRange
import Mathlib.Logic.Function.Basic
import Mathlib.Tactic

set_option autoImplicit false

/-! # Bit sets in arrays of machine words

An array of `n` 64-bit words read as a set of `64 * n` bits, word `0` first and the least
significant bit of a word first. The array is shifted towards higher bits in place, from the
last word down to the first (`shiftLeft`); since word `i` is computed from words at or below
`i` only, the loop computes what a simultaneous update would (`inPlaceDown_apply`), and the
bits move by the shift distance (`bit_shiftLeft`).
-/

namespace Lanecove

/-! ## Updating an array in place, downwards -/

section InPlace

variable {n : Nat} {α : Type}

/-- Replace the entries of `w` by `f w i`, from the last index down to the first. -/
def inPlaceDown (f : (Fin n → α) → Fin n → α) (w : Fin n → α) : Fin n → α :=
  (List.finRange n).reverse.foldl (fun w i => Function.update w i (f w i)) w

/-- The loop over a strictly decreasing list of indices, when `f w i` reads no entry above
`i`: the listed entries are replaced, as if all at once. -/
theorem foldl_update_down (f : (Fin n → α) → Fin n → α)
    (hf : ∀ w w' i, (∀ j, j ≤ i → w j = w' j) → f w i = f w' i) :
    ∀ (l : List (Fin n)) (w : Fin n → α), l.Pairwise (· > ·) → ∀ i,
      l.foldl (fun w i => Function.update w i (f w i)) w i = if i ∈ l then f w i else w i := by
  intro l
  induction l with
  | nil => intro w _ i; simp
  | cons a l ih =>
      intro w hl i
      obtain ⟨ha, hl'⟩ := List.pairwise_cons.mp hl
      rw [List.foldl_cons, ih _ hl']
      by_cases hi : i ∈ l
      · -- `i` comes later, so it is below `a` and does not see the new entry
        have hlt : i < a := ha i hi
        rw [if_pos hi, if_pos (List.mem_cons_of_mem _ hi)]
        refine hf _ _ i (fun j hj => ?_)
        exact Function.update_of_ne (ne_of_lt (lt_of_le_of_lt hj hlt)) _ _
      · rw [if_neg hi]
        by_cases hia : i = a
        · subst hia
          rw [Function.update_self, if_pos List.mem_cons_self]
        · rw [Function.update_of_ne hia, if_neg]
          rintro hmem
          rcases List.mem_cons.mp hmem with h | h
          · exact hia h
          · exact hi h

theorem inPlaceDown_apply (f : (Fin n → α) → Fin n → α)
    (hf : ∀ w w' i, (∀ j, j ≤ i → w j = w' j) → f w i = f w' i) (w : Fin n → α) (i : Fin n) :
    inPlaceDown f w i = f w i := by
  have hl : (List.finRange n).reverse.Pairwise (· > ·) := by
    rw [List.pairwise_reverse]
    exact List.pairwise_lt_finRange n
  rw [inPlaceDown, foldl_update_down f hf _ w hl i, if_pos (by simp)]

end InPlace

/-! ## Words and bits -/

/-- Arrays of `n` 64-bit words. -/
abbrev Words (n : Nat) : Type := Fin n → BitVec 64

namespace Words

variable {n : Nat}

/-- Word `i`; zero beyond the end. -/
def word (w : Words n) (i : Nat) : BitVec 64 := if h : i < n then w ⟨i, h⟩ else 0

/-- Bit `k` of the whole array. -/
def bit (w : Words n) (k : Nat) : Bool := (w.word (k / 64)).getLsbD (k % 64)

/-- Set bit `k`. -/
def setBit (w : Words n) (k : Nat) : Words n :=
  fun i => if i.val = k / 64 then w i ||| (1#64 <<< (k % 64)) else w i

/-- Word `i` of the array shifted by `wn` words and `bn` bits: the low part comes from word
`i - wn`, the carry from the word below. -/
def shiftWord (wn bn : Nat) (w : Words n) (i : Nat) : BitVec 64 :=
  let lo := if wn ≤ i then w.word (i - wn) else 0
  let hi := if 0 < bn ∧ wn + 1 ≤ i then w.word (i - wn - 1) else 0
  if 0 < bn then (lo <<< bn) ||| (hi >>> (64 - bn)) else lo

/-- The shift loop: words from the last down to the first, in place. -/
def shiftLeft (w : Words n) (wn bn : Nat) : Words n :=
  inPlaceDown (fun w i => shiftWord wn bn w i) w

theorem word_of_lt (w : Words n) {i : Nat} (h : i < n) : w.word i = w ⟨i, h⟩ := dif_pos h

@[simp] theorem bit_zero (k : Nat) : bit (fun _ : Fin n => 0#64) k = false := by
  unfold bit word
  split <;> simp

theorem bit_mul_add (w : Words n) {i b : Nat} (hb : b < 64) :
    w.bit (64 * i + b) = (w.word i).getLsbD b := by
  have h1 : (64 * i + b) / 64 = i := by omega
  have h2 : (64 * i + b) % 64 = b := by omega
  rw [bit, h1, h2]

/-- Bit `b` of a shifted word, as a bit of the whole array. -/
theorem getLsbD_shiftWord (w : Words n) {wn bn i b : Nat} (hbn : bn < 64) (hb : b < 64) :
    (shiftWord wn bn w i).getLsbD b =
      (decide (64 * wn + bn ≤ 64 * i + b) && w.bit (64 * i + b - (64 * wn + bn))) := by
  unfold shiftWord
  rcases Nat.eq_zero_or_pos bn with h0 | hpos
  · subst h0
    simp only [Nat.lt_irrefl, if_false, Nat.add_zero]
    by_cases hw : wn ≤ i
    · have hk : 64 * i + b - 64 * wn = 64 * (i - wn) + b := by omega
      rw [if_pos hw, hk, bit_mul_add w hb, decide_eq_true (by omega), Bool.true_and]
    · rw [if_neg hw, decide_eq_false (by omega), Bool.false_and]
      simp
  · rw [if_pos hpos, BitVec.getLsbD_or, BitVec.getLsbD_shiftLeft, BitVec.getLsbD_ushiftRight]
    by_cases hbb : bn ≤ b
    · -- the bit comes from the low part; the carry has no bit this high
      have hhi : ∀ x : BitVec 64, x.getLsbD (64 - bn + b) = false :=
        fun x => BitVec.getLsbD_of_ge x _ (by omega)
      rw [hhi, Bool.or_false, decide_eq_true hb, decide_eq_false (by omega : ¬ b < bn)]
      by_cases hw : wn ≤ i
      · have hk : 64 * i + b - (64 * wn + bn) = 64 * (i - wn) + (b - bn) := by omega
        rw [if_pos hw, hk, bit_mul_add w (by omega), decide_eq_true (by omega)]
        simp
      · rw [if_neg hw, decide_eq_false (by omega)]
        simp
    · -- the bit comes from the carry
      rw [decide_eq_true (by omega : b < bn), Bool.not_true, Bool.and_false, Bool.false_and,
        Bool.false_or]
      by_cases hw : wn + 1 ≤ i
      · have hk : 64 * i + b - (64 * wn + bn) = 64 * (i - wn - 1) + (64 - bn + b) := by omega
        rw [if_pos ⟨hpos, hw⟩, hk, bit_mul_add w (by omega), decide_eq_true (by omega),
          Bool.true_and]
      · rw [if_neg (fun h => hw h.2), decide_eq_false (by omega)]
        simp

/-- **The shift moves bits.** Bit `k` of the shifted array is bit `k - d` of the old one. -/
theorem bit_shiftLeft (w : Words n) (d : Nat) {k : Nat} (hk : k < 64 * n) :
    (w.shiftLeft (d / 64) (d % 64)).bit k = (decide (d ≤ k) && w.bit (k - d)) := by
  have hi : k / 64 < n := by omega
  have hread : ∀ (v v' : Words n) (i : Fin n), (∀ j, j ≤ i → v j = v' j) →
      shiftWord (d / 64) (d % 64) v i = shiftWord (d / 64) (d % 64) v' i := by
    intro v v' i h
    have hword : ∀ m, m ≤ i.val → v.word m = v'.word m := by
      intro m hm
      have hmn : m < n := lt_of_le_of_lt hm i.isLt
      rw [word_of_lt v hmn, word_of_lt v' hmn, h ⟨m, hmn⟩ hm]
    simp only [shiftWord, hword (i - d / 64) (by omega), hword (i - d / 64 - 1) (by omega)]
  have hd : 64 * (d / 64) + d % 64 = d := Nat.div_add_mod d 64
  have hkk : 64 * (k / 64) + k % 64 = k := Nat.div_add_mod k 64
  rw [bit, word_of_lt _ hi, shiftLeft, inPlaceDown_apply _ hread,
    getLsbD_shiftWord w (Nat.mod_lt d (by decide)) (Nat.mod_lt k (by decide)), hd, hkk]

theorem bit_setBit (w : Words n) {k : Nat} (hk : k < 64 * n) (j : Nat) :
    (w.setBit k).bit j = (decide (j = k) || w.bit j) := by
  have hkn : k / 64 < n := by omega
  by_cases hw : j / 64 = k / 64
  · have hjn : j / 64 < n := by omega
    have hset : (w.setBit k).word (j / 64) = w.word (j / 64) ||| (1#64 <<< (k % 64)) := by
      rw [word_of_lt _ hjn, word_of_lt _ hjn, setBit, if_pos hw]
    have hone : (1#64 <<< (k % 64)).getLsbD (j % 64) = decide (j = k) := by
      rw [BitVec.getLsbD_shiftLeft, BitVec.getLsbD_one]
      have h1 : j % 64 < 64 := Nat.mod_lt j (by decide)
      by_cases hjk : j = k
      · subst hjk; simp [h1]
      · rw [decide_eq_false hjk]
        have hne : j % 64 ≠ k % 64 := by omega
        by_cases hlt : j % 64 < k % 64
        · simp [hlt]
        · simp only [Bool.and_eq_false_iff, decide_eq_false_iff_not]
          right
          omega
    rw [bit, hset, BitVec.getLsbD_or, hone, Bool.or_comm]
    rfl
  · have hjk : j ≠ k := fun h => hw (by rw [h])
    have hset : (w.setBit k).word (j / 64) = w.word (j / 64) := by
      unfold word
      split
      · simp only [setBit, if_neg hw]
      · rfl
    rw [bit, hset, decide_eq_false hjk, Bool.false_or]
    rfl

end Words

end Lanecove
