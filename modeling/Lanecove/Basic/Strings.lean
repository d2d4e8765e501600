import Lanecove.Basic.Checked

set_option autoImplicit false

/-! # C strings in buffers

A string is what stands in a buffer before the first terminator. Where there is none, a function
that looks for the end of the string reads past the buffer, so reading a string there is a fault.
`strncpy` writes a fixed number of characters, and those may all be of the string.
-/

namespace Lanecove

namespace Checked

open Buffer (Holds)

variable {M : Type} {n k : Nat} {off : Int} {a : BufferOf M Char n} {m : M} {s : List Char}

/-- The terminator of a string. -/
def NUL : Char := Char.ofNat 0

/-- The string at an offset. -/
def string (a : BufferOf M Char n) (off : Int) : Checked M (List Char) := fun m =>
  if 0 ≤ off ∧ NUL ∈ (a.get m).toList.drop off.toNat then
    .ok (((a.get m).toList.drop off.toNat).takeWhile (fun c => decide (c ≠ NUL)), m)
  else .error (.outside n off (n - off + 1))

/-- The `k` characters that `strncpy` writes: of the string, then terminators. -/
def padded (s : List Char) (k : Nat) : List Char := (s ++ List.replicate k NUL).take k

/-- `strncpy` of a string into a buffer. -/
def strncpy (a : BufferOf M Char n) (s : List Char) (k : Nat) : Checked M Unit :=
  write a 0 (padded s k)

theorem length_padded (s : List Char) (k : Nat) : (padded s k).length = k := by
  rw [padded, List.length_take, List.length_append, List.length_replicate]
  omega

/-- A string that is shorter than what is written gets a terminator. -/
theorem padded_of_lt (h : s.length < k) :
    padded s k = s ++ [NUL] ++ List.replicate (k - s.length - 1) NUL := by
  obtain ⟨r, hr⟩ : ∃ r, k = s.length + (r + 1) := ⟨k - s.length - 1, by omega⟩
  have hrest : k - s.length - 1 = r := by omega
  rw [padded, hrest, hr, List.take_length_add_append, List.take_replicate,
    Nat.min_eq_left (by omega), List.replicate_succ, List.append_assoc]
  rfl

/-- A longer one does not. -/
theorem padded_of_le (h : k ≤ s.length) : padded s k = s.take k := by
  rw [padded, List.take_append_of_le_length h]

theorem Runs.string (hoff : off = k) (hs : Holds (a.get m) k (s ++ [NUL])) (hnul : NUL ∉ s) :
    Runs (Checked.string a off) m s m := by
  subst hoff
  obtain ⟨-, htake⟩ := Buffer.holds_iff.mp hs
  obtain ⟨rest, hrest⟩ : ∃ rest, (a.get m).toList.drop k = s ++ NUL :: rest := by
    refine ⟨((a.get m).toList.drop k).drop (s ++ [NUL]).length, ?_⟩
    conv_lhs => rw [← List.take_append_drop (s ++ [NUL]).length ((a.get m).toList.drop k), htake]
    rw [List.append_assoc]
    rfl
  have hstring : (s ++ NUL :: rest).takeWhile (fun c => decide (c ≠ NUL)) = s := by
    rw [List.takeWhile_append_of_pos]
    · simp
    · intro c hc
      exact decide_eq_true fun heq => hnul (heq ▸ hc)
  unfold Runs Checked.string
  rw [Int.toNat_natCast, hrest, if_pos ⟨Int.natCast_nonneg k, by simp⟩, hstring]

/-- A string is read from any place in it to its end. -/
theorem Runs.string_drop {i : Nat} (hoff : off = (k + i : Nat))
    (hs : Holds (a.get m) k (s ++ [NUL])) (hnul : NUL ∉ s) (hi : i ≤ s.length) :
    Runs (Checked.string a off) m (s.drop i) m := by
  refine Runs.string hoff ?_ fun hmem => hnul (List.mem_of_mem_drop hmem)
  rw [← List.take_append_drop i s, List.append_assoc] at hs
  have hrest := hs.right
  rwa [List.length_take, Nat.min_eq_left hi] at hrest

/-- Without a terminator the reader leaves the buffer. -/
theorem not_runs_string (hnul : NUL ∉ (a.get m).toList.drop off.toNat) (s : List Char) (m' : M) :
    ¬ Runs (Checked.string a off) m s m' := by
  unfold Runs Checked.string
  rw [if_neg fun h => hnul h.2]
  intro h
  cases h

/-- What is written is in place, and the rest of the buffer is as it was. -/
theorem Runs.strncpy (a : BufferOf M Char n) (m : M) (s : List Char) (hk : k ≤ n) :
    ∃ b, Runs (Checked.strncpy a s k) m () (a.set m b) ∧ Holds b 0 (padded s k) ∧
      ∀ j ys, k ≤ j → Holds (a.get m) j ys → Holds b j ys := by
  have hlen := length_padded s k
  obtain ⟨b, hstore, hput, hkeep⟩ := Buffer.store_spec (a.get m) 0 (padded s k) (by omega)
  exact ⟨b, Runs.write rfl hstore, hput, fun j ys hj => hkeep j ys (.inr (by omega))⟩

/-- A run of two parts is a run of each. -/
theorem Runs.of_bind {β γ : Type} {c : Checked M β} {f : β → Checked M γ} {y : γ} {m'' : M}
    (h : Runs (c >>= f) m y m'') : ∃ x m', Runs c m x m' ∧ Runs (f x) m' y m'' := by
  unfold Runs at h
  cases hc : c m with
  | error e =>
      simp only [Bind.bind, hc] at h
      cases h
  | ok r =>
      simp only [Bind.bind, hc] at h
      exact ⟨r.1, r.2, hc, h⟩

end Checked

end Lanecove
