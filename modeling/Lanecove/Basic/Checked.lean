import Lanecove.Basic.Buffers

set_option autoImplicit false

/-! # Checked access to buffers

Computations on a memory that consists of buffers. Offsets and lengths are integers, as in C, and a
computation stops with a fault at the first access that is not inside its buffer, and at the first
length that is negative.

`Runs c m x m'` is the evaluation relation: from the memory `m` the computation `c` returns `x` and
leaves `m'`, without a fault. There is one rule for each operation.
-/

namespace Lanecove

/-- Why a computation stopped: `len` elements at `off` are not inside a buffer of `size` elements,
or a length is negative. -/
inductive Fault where
  | outside (size : Nat) (off len : Int)
  | negative (len : Int)
  deriving DecidableEq

/-- A computation on a memory `M` that returns a `β`, or stops with a fault. -/
def Checked (M β : Type) : Type := M → Except Fault (β × M)

namespace Checked

variable {M α β γ : Type} {n : Nat}

instance : Monad (Checked M) where
  pure x := fun m => .ok (x, m)
  bind c f := fun m =>
    match c m with
    | .ok (x, m') => f x m'
    | .error e => .error e

/-- One of the buffers of a memory. -/
structure BufferOf (M α : Type) (n : Nat) where
  get : M → Buffer α n
  set : M → Buffer α n → M

/-- The `len` elements from offset `off` on. -/
def read (a : BufferOf M α n) (off len : Int) : Checked M (List α) := fun m =>
  if 0 ≤ off ∧ 0 ≤ len then
    match (a.get m).load off.toNat len.toNat with
    | some xs => .ok (xs, m)
    | none => .error (.outside n off len)
  else .error (.outside n off len)

example : read (⟨id, fun _ b => b⟩ : BufferOf (Buffer Nat 2) Nat 2) 1 2 ⟨[0, 1], rfl⟩
    = .error (.outside 2 1 2) := rfl

/-- Copy `xs` to offset `off`. -/
def write (a : BufferOf M α n) (off : Int) (xs : List α) : Checked M Unit := fun m =>
  if 0 ≤ off then
    match (a.get m).store off.toNat xs with
    | some b => .ok ((), a.set m b)
    | none => .error (.outside n off xs.length)
  else .error (.outside n off xs.length)

/-- A length that is going to be used. -/
def length (len : Int) : Checked M Int := fun m =>
  if 0 ≤ len then .ok (len, m) else .error (.negative len)

/-- From `m` the computation returns `x` and leaves `m'`. -/
def Runs (c : Checked M β) (m : M) (x : β) (m' : M) : Prop := c m = .ok (x, m')

namespace Runs

variable {m m' m'' : M}

theorem pure (x : β) : Runs (Pure.pure x : Checked M β) m x m := rfl

theorem bind {c : Checked M β} {f : β → Checked M γ} {x : β} {y : γ} (hc : Runs c m x m')
    (hf : Runs (f x) m' y m'') : Runs (c >>= f) m y m'' := by
  show (match c m with | .ok (x, m') => f x m' | .error e => .error e) = _
  rw [show c m = _ from hc]
  exact hf

theorem read {a : BufferOf M α n} {off len : Int} {k l : Nat} {xs : List α} (hoff : off = k)
    (hlen : len = l) (h : (a.get m).load k l = some xs) : Runs (Checked.read a off len) m xs m := by
  subst hoff hlen
  unfold Runs Checked.read
  rw [if_pos ⟨Int.natCast_nonneg k, Int.natCast_nonneg l⟩, Int.toNat_natCast, Int.toNat_natCast, h]

theorem write {a : BufferOf M α n} {off : Int} {k : Nat} {xs : List α} {b : Buffer α n}
    (hoff : off = k) (h : (a.get m).store k xs = some b) :
    Runs (Checked.write a off xs) m () (a.set m b) := by
  subst hoff
  unfold Runs Checked.write
  rw [if_pos (Int.natCast_nonneg k), Int.toNat_natCast, h]

theorem length {len : Int} (h : 0 ≤ len) : Runs (Checked.length len) m len m := by
  unfold Runs Checked.length
  rw [if_pos h]

end Runs

end Checked

end Lanecove
