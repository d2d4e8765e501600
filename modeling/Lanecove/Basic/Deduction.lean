import Mathlib.Data.List.Sort
import Mathlib.Tactic

set_option autoImplicit false

/-! # Symbolic messages and what an attacker can derive

The messages of an ideal cryptography with Diffie–Hellman exponentiation. Exponents are
names of private keys; a power carries the sorted list of its exponents, so that
exponentiations commute on the nose. An attacker who controls the network derives messages
with every public operation, exponentiates with the private keys it knows, and removes such
exponents again.

Secrecy follows by the closed-set method: `Safe` is closed under every derivation
(`Derives.safe`), so what is not safe is never derived from safe messages.
-/

namespace Lanecove

/-- Symbolic messages over private-key names `ν` and payloads `δ`. -/
inductive Term (ν δ : Type) where
  | gen : Term ν δ
  | nil : Term ν δ
  | data : δ → Term ν δ
  | pair : Term ν δ → Term ν δ → Term ν δ
  /-- Base and exponents. -/
  | pow : Term ν δ → List ν → Term ν δ
  | hash : Term ν δ → Term ν δ
  | mac : Term ν δ → Term ν δ → Term ν δ
  /-- Authenticated encryption: key, nonce (sent in the clear), plaintext. -/
  | aead : Term ν δ → Term ν δ → Term ν δ → Term ν δ
  deriving DecidableEq

namespace Term

variable {ν δ : Type}

/-- A list of messages as one message. -/
def tuple : List (Term ν δ) → Term ν δ := List.foldr pair nil

theorem tuple_injective : Function.Injective (tuple : List (Term ν δ) → Term ν δ) := by
  intro l
  induction l with
  | nil =>
      rintro (_ | ⟨b, m⟩) h
      · rfl
      · cases h
  | cons a l ih =>
      rintro (_ | ⟨b, m⟩) h
      · cases h
      · obtain ⟨rfl, htail⟩ := pair.inj h
        rw [ih htail]

section Exp

variable [LinearOrder ν]

/-- Exponentiation. -/
def exp (n : ν) : Term ν δ → Term ν δ
  | pow b e => pow b (e.orderedInsert (· ≤ ·) n)
  | t => pow t [n]

theorem exp_pub_comm (a b : ν) :
    exp a (pow gen [b] : Term ν δ) = exp b (pow gen [a]) := by
  rcases lt_trichotomy a b with h | rfl | h
  · simp [exp, h.le, not_le.mpr h]
  · rfl
  · simp [exp, h.le, not_le.mpr h]

/-- A shared secret determines the two keys it was made from. -/
theorem exp_pub_inj {a b c d : ν}
    (h : exp a (pow gen [b] : Term ν δ) = exp c (pow gen [d])) :
    a = c ∧ b = d ∨ a = d ∧ b = c := by
  have hperm : List.Perm [a, b] [c, d] := by
    have hab := List.perm_orderedInsert (· ≤ ·) a [b]
    rw [(pow.inj h).2] at hab
    exact hab.symm.trans (List.perm_orderedInsert (· ≤ ·) c [d])
  have ha : a = c ∨ a = d := by simpa using hperm.subset List.mem_cons_self
  rcases ha with rfl | rfl
  · exact .inl ⟨rfl, List.singleton_perm_singleton.mp hperm.cons_inv⟩
  · have hswap := hperm.trans (List.Perm.swap _ _ _)
    exact .inr ⟨rfl, List.singleton_perm_singleton.mp hswap.cons_inv⟩

end Exp

/-! ## Safe messages -/

section Safe

variable (known : ν → Bool)

/-- How many of the exponents the attacker does not know. -/
def hidden (e : List ν) : Nat := e.countP fun n => !known n

/-- The closed set: a message is safe if no secret can be got from it. A power with hidden
exponents is safe only if it is a public key, the generator to one hidden exponent. -/
def Safe : Term ν δ → Prop
  | gen => True
  | nil => True
  | data _ => True
  | pair a b => Safe a ∧ Safe b
  | pow b e => Safe b ∧ (hidden known e = 0 ∨ b = gen ∧ hidden known e ≤ 1)
  | hash t => Safe t
  | mac _ _ => True
  | aead k n t => Safe n ∧ (Safe k → Safe t)

variable {known}

theorem hidden_cons_known {n : ν} (hn : known n = true) (e : List ν) :
    hidden known (n :: e) = hidden known e := by
  simp [hidden, hn]

theorem safe_tuple {l : List (Term ν δ)} : Safe known (tuple l) ↔ ∀ t ∈ l, Safe known t := by
  induction l with
  | nil => simp [tuple, Safe]
  | cons a l ih => simpa [tuple, Safe] using fun _ => ih

/-- A public key is safe, whether or not its private key is known. -/
theorem safe_pub (n : ν) : Safe known (pow gen [n] : Term ν δ) :=
  ⟨trivial, .inr ⟨rfl, List.countP_le_length⟩⟩

end Safe

/-! ## Derivations -/

section Attacker

variable [LinearOrder ν] (known : ν → Bool)

/-- What an attacker derives who has seen the messages in `K` and knows the private keys in
`known`. -/
inductive Derives (K : Set (Term ν δ)) : Term ν δ → Prop
  | seen {t} (h : t ∈ K) : Derives K t
  | gen : Derives K gen
  | nil : Derives K nil
  | data (d : δ) : Derives K (data d)
  | pair {a b} (ha : Derives K a) (hb : Derives K b) : Derives K (pair a b)
  | fst {a b} (h : Derives K (Term.pair a b)) : Derives K a
  | snd {a b} (h : Derives K (Term.pair a b)) : Derives K b
  | exp {t} (n : ν) (hn : known n = true) (h : Derives K t) : Derives K (exp n t)
  | unexp {t} (n : ν) (hn : known n = true) (h : Derives K (Term.exp n t)) : Derives K t
  | hash {t} (h : Derives K t) : Derives K (hash t)
  | mac {k t} (hk : Derives K k) (h : Derives K t) : Derives K (mac k t)
  | encrypt {k n t} (hk : Derives K k) (hn : Derives K n) (h : Derives K t) :
      Derives K (aead k n t)
  | nonce {k n t} (h : Derives K (Term.aead k n t)) : Derives K n
  | decrypt {k n t} (hk : Derives K k) (h : Derives K (Term.aead k n t)) : Derives K t

variable {known}

theorem hidden_orderedInsert (n : ν) (e : List ν) :
    hidden known (e.orderedInsert (· ≤ ·) n) = hidden known (n :: e) :=
  (List.perm_orderedInsert _ n e).countP_eq _

/-- Exponentiation with a known key neither makes nor destroys safety. -/
theorem safe_exp_iff {n : ν} (hn : known n = true) (t : Term ν δ) :
    Safe known (exp n t) ↔ Safe known t := by
  have hone : hidden known [n] = 0 := by simp [hidden, hn]
  cases t with
  | pow b e => simp only [exp, Safe, hidden_orderedInsert, hidden_cons_known hn]
  | _ => simp [exp, Safe, hone]

/-- **Soundness of the closed set.** From safe messages only safe messages are derived. -/
theorem Derives.safe {K : Set (Term ν δ)} (hK : ∀ t ∈ K, Safe known t) {t : Term ν δ}
    (h : Derives known K t) : Safe known t := by
  induction h with
  | seen h => exact hK _ h
  | gen => trivial
  | nil => trivial
  | data d => trivial
  | pair _ _ ha hb => exact ⟨ha, hb⟩
  | fst _ h => exact h.1
  | snd _ h => exact h.2
  | exp n hn _ h => exact (safe_exp_iff hn _).mpr h
  | unexp n hn _ h => exact (safe_exp_iff hn _).mp h
  | hash _ h => exact h
  | mac _ _ _ _ => trivial
  | encrypt _ _ _ hk hn h => exact ⟨hn, fun _ => h⟩
  | nonce _ h => exact h.1
  | decrypt _ _ hk h => exact h.2 hk

/-- The shared secret of two hidden keys is not safe. -/
theorem not_safe_exp_pub {n m : ν} (hn : known n = false) (hm : known m = false) :
    ¬ Safe known (exp n (pow gen [m]) : Term ν δ) := by
  rintro ⟨-, hs⟩
  rw [hidden_orderedInsert] at hs
  simp [hidden, hn, hm] at hs

end Attacker

end Term

end Lanecove
