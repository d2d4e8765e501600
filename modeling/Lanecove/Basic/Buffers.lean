import Mathlib.Data.Vector.Basic
import Mathlib.Tactic

set_option autoImplicit false

/-! # Buffers of a fixed size

An array of `n` elements that is read and written in ranges, as `memcpy` does. An access
beyond the end is undefined in C; here it has no result (`none`), so a computation with a
result is one that stays within its buffers.

`Holds b off xs` says that the elements `xs` lie at offset `off`. The rules are: a store puts
its elements in place and leaves what lies outside of them alone (`store_spec`), neighbouring
ranges join (`Holds.append`), the parts of a range are ranges (`Holds.left`, `Holds.right`),
storing right after a range makes it longer (`Holds.store_append`), and storing what is there
already does nothing (`Holds.store_self`).
-/

namespace Lanecove

/-- An array of `n` elements. -/
abbrev Buffer (α : Type) (n : Nat) : Type := List.Vector α n

namespace Buffer

variable {α : Type} {n : Nat} {b b' : Buffer α n} {off len : Nat} {xs ys : List α}

/-- The `len` elements from offset `off` on. -/
def load (b : Buffer α n) (off len : Nat) : Option (List α) :=
  if off + len ≤ n then some ((b.toList.drop off).take len) else none

/-- The buffer with `xs` in place of the elements from offset `off` on. -/
def overwrite (b : Buffer α n) (off : Nat) (xs : List α) (h : off + xs.length ≤ n) : Buffer α n :=
  ⟨b.toList.take off ++ xs ++ b.toList.drop (off + xs.length), by
    simp only [List.length_append, List.length_take, List.length_drop, List.Vector.toList_length]
    omega⟩

/-- The buffer after `xs` was copied to offset `off`. -/
def store (b : Buffer α n) (off : Nat) (xs : List α) : Option (Buffer α n) :=
  if h : off + xs.length ≤ n then some (overwrite b off xs h) else none

/-- The elements `xs` lie at offset `off`. -/
def Holds (b : Buffer α n) (off : Nat) (xs : List α) : Prop := load b off xs.length = some xs

theorem holds_iff : Holds b off xs ↔
    off + xs.length ≤ n ∧ (b.toList.drop off).take xs.length = xs := by
  unfold Holds load
  by_cases h : off + xs.length ≤ n
  · rw [if_pos h, Option.some.injEq, and_iff_right h]
  · rw [if_neg h]
    exact ⟨fun h' => (nomatch h'), fun h' => absurd h'.1 h⟩

/-- Elements lie in a buffer if they lie there one by one. -/
theorem holds_iff_getElem : Holds b off xs ↔
    off + xs.length ≤ n ∧ ∀ k, k < xs.length → b.toList[off + k]? = xs[k]? := by
  rw [holds_iff]
  refine and_congr_right fun hn => ?_
  constructor
  · intro h k hk
    rw [← List.getElem?_drop, ← List.getElem?_take_of_lt hk, h]
  · intro h
    refine List.ext_getElem? fun k => ?_
    by_cases hk : k < xs.length
    · rw [List.getElem?_take_of_lt hk, List.getElem?_drop, h k hk]
    · rw [List.getElem?_eq_none (by rw [List.length_take]; omega),
        List.getElem?_eq_none (Nat.le_of_not_lt hk)]

/-- What a load returns lies where it was loaded from. -/
theorem holds_of_load (h : load b off len = some xs) : xs.length = len ∧ Holds b off xs := by
  have hlen : off + len ≤ n := by
    by_contra hn
    rw [load, if_neg hn] at h
    cases h
  rw [load, if_pos hlen, Option.some.injEq] at h
  have hxs : xs.length = len := by
    rw [← h, List.length_take, List.length_drop, List.Vector.toList_length]
    omega
  exact ⟨hxs, holds_iff.mpr ⟨hxs ▸ hlen, hxs ▸ h⟩⟩

/-- A part of a range that was loaded. -/
theorem load_part (h : load b off len = some xs) {k l : Nat} (hkl : k + l ≤ len) :
    load b (off + k) l = some ((xs.drop k).take l) := by
  obtain ⟨hxs, hhold⟩ := holds_of_load h
  obtain ⟨hle, htake⟩ := holds_iff.mp hhold
  rw [load, if_pos (by omega), ← htake, List.drop_take, List.take_take, List.drop_drop]
  congr 2
  omega

namespace Holds

theorem le (h : Holds b off xs) : off + xs.length ≤ n := (holds_iff.mp h).1

/-- At the start of a buffer lies the empty range. -/
theorem nil (b : Buffer α n) : Holds b 0 [] := holds_iff.mpr ⟨Nat.zero_le _, rfl⟩

/-- Neighbouring ranges join. -/
theorem append (hx : Holds b off xs) (hy : Holds b (off + xs.length) ys) :
    Holds b off (xs ++ ys) := by
  rw [holds_iff_getElem] at hx hy ⊢
  refine ⟨by rw [List.length_append]; omega, ?_⟩
  intro k hk
  rw [List.length_append] at hk
  by_cases hkx : k < xs.length
  · rw [List.getElem?_append_left hkx, hx.2 k hkx]
  · rw [List.getElem?_append_right (Nat.le_of_not_lt hkx), ← hy.2 (k - xs.length) (by omega)]
    congr 1
    omega

/-- The first part of a range. -/
theorem left (h : Holds b off (xs ++ ys)) : Holds b off xs := by
  rw [holds_iff_getElem, List.length_append] at h
  rw [holds_iff_getElem]
  refine ⟨by omega, fun k hk => ?_⟩
  rw [h.2 k (by omega), List.getElem?_append_left hk]

/-- The second part of a range. -/
theorem right (h : Holds b off (xs ++ ys)) : Holds b (off + xs.length) ys := by
  rw [holds_iff_getElem, List.length_append] at h
  rw [holds_iff_getElem]
  refine ⟨by omega, fun k hk => ?_⟩
  rw [Nat.add_assoc, h.2 (xs.length + k) (by omega), List.getElem?_append_right (by omega),
    Nat.add_sub_cancel_left]

/-- Storing what is there already changes nothing. -/
theorem store_self (h : Holds b off xs) : store b off xs = some b := by
  obtain ⟨hle, htake⟩ := holds_iff.mp h
  rw [store, dif_pos hle]
  refine congrArg some (List.Vector.toList_injective ?_)
  show b.toList.take off ++ xs ++ b.toList.drop (off + xs.length) = b.toList
  calc b.toList.take off ++ xs ++ b.toList.drop (off + xs.length)
      = b.toList.take off ++
          ((b.toList.drop off).take xs.length ++ (b.toList.drop off).drop xs.length) := by
        rw [htake, List.append_assoc, List.drop_drop]
    _ = b.toList := by rw [List.take_append_drop, List.take_append_drop]

end Holds

/-- What is read from a buffer that was written to. -/
theorem getElem?_overwrite (b : Buffer α n) (h : off + xs.length ≤ n) (k : Nat) :
    (overwrite b off xs h).toList[k]? =
      if off ≤ k ∧ k < off + xs.length then xs[k - off]? else b.toList[k]? := by
  have hoff : (b.toList.take off).length = off := by
    rw [List.length_take, List.Vector.toList_length]
    omega
  show (b.toList.take off ++ xs ++ b.toList.drop (off + xs.length))[k]? = _
  by_cases hlow : off ≤ k
  · by_cases hhigh : k < off + xs.length
    · rw [if_pos ⟨hlow, hhigh⟩, List.append_assoc, List.getElem?_append_right (by omega), hoff,
        List.getElem?_append_left (by omega)]
    · rw [if_neg (by omega), List.getElem?_append_right (by rw [List.length_append]; omega),
        List.length_append, hoff, List.getElem?_drop]
      congr 1
      omega
  · rw [if_neg (by omega), List.append_assoc, List.getElem?_append_left (by omega),
      List.getElem?_take_of_lt (by omega)]

/-- **The rule for stores.** The elements are in place, and a range apart from them is as it
was. -/
theorem store_spec (b : Buffer α n) (off : Nat) (xs : List α) (h : off + xs.length ≤ n) :
    ∃ b', store b off xs = some b' ∧ Holds b' off xs ∧
      ∀ k ys, k + ys.length ≤ off ∨ off + xs.length ≤ k → Holds b k ys → Holds b' k ys := by
  refine ⟨overwrite b off xs h, dif_pos h, ?_, ?_⟩
  · refine holds_iff_getElem.mpr ⟨h, fun k hk => ?_⟩
    rw [getElem?_overwrite, if_pos (by omega), Nat.add_sub_cancel_left]
  · intro k ys hapart hys
    rw [holds_iff_getElem] at hys ⊢
    refine ⟨hys.1, fun j hj => ?_⟩
    rw [getElem?_overwrite, if_neg (by omega), hys.2 j hj]

/-- Storing right after a range makes it longer. -/
theorem Holds.store_append (hx : Holds b off xs) (ys : List α) {k : Nat}
    (hk : k = off + xs.length) (h : k + ys.length ≤ n) :
    ∃ b', store b k ys = some b' ∧ Holds b' off (xs ++ ys) := by
  subst hk
  obtain ⟨b', hstore, hy, hkeep⟩ := store_spec b _ ys h
  exact ⟨b', hstore, (hkeep off xs (.inl le_rfl) hx).append hy⟩

end Buffer

end Lanecove
