import Lanecove.Basic.Deduction
import Lanecove.Crypto.Suite

set_option autoImplicit false

/-! # Ideal cryptography

The suite whose arrays and datagrams are symbolic messages: private keys are numbers, the
public half of a key is the generator raised to it, hashes and MACs are free constructors and
a ciphertext opens under its own key only. It is the cryptography of the attacker model, and
small enough to run the node on examples.
-/

namespace Lanecove

/-- Symbolic messages with numbered private keys and byte payloads. -/
abbrev Msg : Type := Term Nat (List UInt8)

namespace Msg

open Term

/-- The public half of a private key. -/
def pub (n : Nat) : Msg := pow gen [n]

/-- Public keys in the order of their private keys; other messages are not compared. -/
def above : Msg → Msg → Bool
  | pow _ (a :: _), pow _ (b :: _) => decide (b < a)
  | _, _ => false

/-- Handshake packets with and without an HMAC have different lengths. -/
def hello (e s : Msg) (m : Option Msg) : Msg := tuple (e :: s :: m.toList)

def helloFields : Bool → Msg → Option (Msg × Msg × Option Msg)
  | false, pair e (pair s nil) => some (e, s, none)
  | true, pair e (pair s (pair m nil)) => some (e, s, some m)
  | _, _ => none

/-- Identities are encrypted with the zero nonce, written as the empty message. -/
def openSealed (k : Msg) : Msg → Option Msg
  | aead k' nil m => if k = k' then some m else none
  | _ => none

def openData (k : Msg) : Msg → Option (List UInt8)
  | aead k' _ (data m) => if k = k' then some m else none
  | _ => none

end Msg

open Msg in
/-- The symbolic suite. -/
@[reducible] def symbolic : Suite where
  Priv := Nat
  Block := Msg
  Sealed := Msg
  Iv := List UInt8
  Wire := Msg
  decEqBlock := inferInstance
  zero := .nil
  gt := above
  pubOf := pub
  x25519 n t := some (t.exp n)
  sha256 l := .hash (.tuple l)
  hmac k e s := .mac k (.pair e s)
  gcmSeal k m := .aead k .nil m
  gcmOpen := openSealed
  hsPacket := hello
  hsFields := helloFields
  encryptPacket k iv m := .aead k (.data iv) (.data m)
  decryptPacket := openData

theorem symbolic_lawful : symbolic.Lawful where
  x25519_comm := fun a b : Nat => congrArg some (Term.exp_pub_comm a b)
  x25519_isSome _ _ := rfl
  gcmOpen_gcmSeal k m := if_pos rfl
  decrypt_encrypt k iv m := if_pos rfl
  hsFields_hsPacket e s m := by cases m <;> rfl

theorem symbolic_hashInjective : symbolic.HashInjective := by
  intro l l' h
  exact Term.tuple_injective (Term.hash.inj h)

/-- Only ciphertexts open, and only under their key. -/
theorem openData_eq_some {k w : Msg} {m : List UInt8} (h : Msg.openData k w = some m) :
    ∃ n, w = .aead k n (.data m) := by
  unfold Msg.openData at h
  split at h
  · rename_i k' n m'
    split at h
    · rename_i hk
      obtain rfl := Option.some.inj h
      exact ⟨n, by rw [hk]⟩
    · cases h
  · cases h

theorem symbolic_oneKey : symbolic.OneKey := by
  intro (k : Msg) (k' : Msg) (w : Msg) m m' h h'
  obtain ⟨n, hw⟩ := openData_eq_some h
  obtain ⟨n', hw'⟩ := openData_eq_some h'
  exact (Term.aead.inj (hw.symm.trans hw')).1

theorem symbolic_ideal : symbolic.Ideal where
  toLawful := symbolic_lawful
  hashInjective := symbolic_hashInjective
  oneKey := symbolic_oneKey
  gcmOpen_key := by
    intro (k : Msg) (k' : Msg) (m : Msg) m' h
    by_contra hne
    have hnone : Msg.openSealed k (.aead k' .nil m) = none := if_neg hne
    cases hnone.symm.trans h
  x25519_inj := by
    intro (a : Nat) (b : Nat) (c : Nat) h
    rcases Term.exp_pub_inj (Option.some.inj h) with ⟨rfl, -⟩ | ⟨rfl, rfl⟩ <;> rfl
  hsFields_encrypt b k iv m := by cases b <;> rfl
  decrypt_hsPacket k e s m := rfl

end Lanecove
