import Mathlib.Data.Vector.Basic
import Mathlib.Tactic

set_option autoImplicit false

/-! # The cryptographic interface

`src/common.c` calls OpenSSL for X25519, SHA-256, HMAC-SHA256 and AES-256-GCM. The model
takes these as a parameter: a `Suite` is what the handshake and the data path see of them.
Public keys, X25519 outputs, SHA-256 digests, HMACs and symmetric keys are all 32-byte
arrays in the source, so one type `Block` stands for all of them.

`Crypto/Bytes.lean` builds the suite of the real packet layouts from byte-level primitives,
`Crypto/Symbolic.lean` the suite of an ideal (symbolic) cryptography. What a result assumes
about the primitives is one of the named properties below.
-/

namespace Lanecove

/-- What the program sees of the cryptographic library and of its packet layouts. -/
structure Suite where
  /-- Private keys (`EVP_PKEY`). -/
  Priv : Type
  /-- 32-byte arrays. -/
  Block : Type
  /-- 48-byte encrypted identities. -/
  Sealed : Type
  /-- The random values `encrypt_packet` draws. -/
  Iv : Type
  /-- UDP datagrams. -/
  Wire : Type
  decEqBlock : DecidableEq Block
  /-- The content of a zero-initialised array. -/
  zero : Block
  /-- `memcmp(a, b, 32) > 0`. -/
  gt : Block → Block → Bool
  /-- The public half of a key pair. -/
  pubOf : Priv → Block
  /-- `x25519_shared_secret`; `none` is the return value `-1`. -/
  x25519 : Priv → Block → Option Block
  /-- SHA-256 of a concatenation of 32-byte arrays. -/
  sha256 : List Block → Block
  /-- HMAC-SHA256 of an ephemeral public key followed by an encrypted identity. -/
  hmac : Block → Block → Sealed → Block
  /-- AES-256-GCM with the zero IV on a 32-byte array: ciphertext and tag. -/
  gcmSeal : Block → Block → Sealed
  gcmOpen : Block → Sealed → Option Block
  /-- `[magic][eph_pub][enc_static]`, followed by the HMAC if there is one. -/
  hsPacket : Block → Sealed → Option Block → Wire
  /-- The fields of a datagram of handshake size (with an HMAC or without) that starts with
  the magic; `none` for any other datagram. -/
  hsFields : Bool → Wire → Option (Block × Sealed × Option Block)
  /-- `encrypt_packet` for a given IV. -/
  encryptPacket : Block → Iv → List UInt8 → Wire
  /-- `decrypt_packet`; `none` is the return value `-1`. -/
  decryptPacket : Block → Wire → Option (List UInt8)

attribute [instance] Suite.decEqBlock

namespace Suite

variable (S : Suite)

/-! ## What results may assume of the primitives -/

/-- X25519 is commutative and succeeds on the public halves of key pairs, AES-GCM decryption
inverts encryption, and reading a handshake packet returns the fields it was built from. -/
structure Lawful : Prop where
  x25519_comm : ∀ a b : S.Priv, S.x25519 a (S.pubOf b) = S.x25519 b (S.pubOf a)
  x25519_isSome : ∀ a b : S.Priv, (S.x25519 a (S.pubOf b)).isSome
  gcmOpen_gcmSeal : ∀ k m, S.gcmOpen k (S.gcmSeal k m) = some m
  decrypt_encrypt : ∀ k iv m, S.decryptPacket k (S.encryptPacket k iv m) = some m
  hsFields_hsPacket : ∀ e s m, S.hsFields m.isSome (S.hsPacket e s m) = some (e, s, m)

/-- SHA-256 has no collisions. -/
def HashInjective : Prop := Function.Injective S.sha256

/-- A data datagram decrypts under one key only. -/
def OneKey : Prop :=
  ∀ k k' w m m', S.decryptPacket k w = some m → S.decryptPacket k' w = some m' → k = k'

/-- Ideal primitives: SHA-256 has no collisions, both uses of AES-GCM decrypt under the key of
the encryption only, shared secrets with one key tell the other keys apart, and handshake
packets and data packets are not taken for each other. -/
structure Ideal : Prop extends S.Lawful where
  hashInjective : S.HashInjective
  oneKey : S.OneKey
  gcmOpen_key : ∀ k k' m m', S.gcmOpen k (S.gcmSeal k' m) = some m' → k = k'
  x25519_inj : ∀ a b c, S.x25519 a (S.pubOf b) = S.x25519 c (S.pubOf b) → S.pubOf a = S.pubOf c
  hsFields_encrypt : ∀ b k iv m, S.hsFields b (S.encryptPacket k iv m) = none
  decrypt_hsPacket : ∀ k e s m, S.decryptPacket k (S.hsPacket e s m) = none

end Suite

end Lanecove
