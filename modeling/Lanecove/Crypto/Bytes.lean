import Lanecove.Crypto.Suite

set_option autoImplicit false

/-! # The byte-level suite

The packet layouts of `src/common.c` and `src/common.h` over byte strings. The primitives of
OpenSSL are the parameter `OpenSSL`; everything the program itself does with offsets and
lengths (`encrypt_packet`, `decrypt_packet`, the 48-byte identities, the handshake packets,
the input of the key derivation) is defined here.
-/

namespace Lanecove

def CRYPTO_IV_LEN : Nat := 12
def CRYPTO_TAG_LEN : Nat := 16
def CRYPTO_OVERHEAD : Nat := CRYPTO_IV_LEN + CRYPTO_TAG_LEN
def HEADER_SIZE : Nat := 8
def SEQ_SIZE : Nat := 8
def DH_PUBKEY_LEN : Nat := 32
def HMAC_LEN : Nat := 32
def HS_ENCRYPTED_PUB_LEN : Nat := DH_PUBKEY_LEN + CRYPTO_TAG_LEN

/-- The magic both handshake packets and decrypted data packets start with. -/
def pktHeader : List UInt8 := [0xde, 0xad, 0xbe, 0xef, 0xca, 0xfe, 0xba, 0xbe]

/-- Byte arrays of a fixed length. -/
abbrev Bytes (n : Nat) : Type := List.Vector UInt8 n

/-- The `n` bytes of `w` from offset `off` on. (Every use is behind a length check; beyond
the end the bytes read as zero.) -/
def slice (w : List UInt8) (off n : Nat) : Bytes n :=
  ⟨(w.drop off).takeD n 0, List.takeD_length n _ 0⟩

/-- The primitives of OpenSSL the program calls. AES-GCM keeps the length of its input. -/
structure OpenSSL where
  Priv : Type
  pubOf : Priv → Bytes 32
  x25519 : Priv → Bytes 32 → Option (Bytes 32)
  sha256 : List UInt8 → Bytes 32
  hmacSha256 : Bytes 32 → List UInt8 → Bytes 32
  gcmEncrypt : Bytes 32 → Bytes 12 → List UInt8 → List UInt8 × Bytes 16
  gcmDecrypt : Bytes 32 → Bytes 12 → List UInt8 → Bytes 16 → Option (List UInt8)
  gcmEncrypt_length : ∀ k iv m, (gcmEncrypt k iv m).1.length = m.length

namespace OpenSSL

variable (O : OpenSSL)

/-- X25519 is commutative and succeeds on public keys, AES-GCM decryption inverts
encryption. -/
structure Lawful : Prop where
  x25519_comm : ∀ a b : O.Priv, O.x25519 a (O.pubOf b) = O.x25519 b (O.pubOf a)
  x25519_isSome : ∀ a b : O.Priv, (O.x25519 a (O.pubOf b)).isSome
  gcmDecrypt_gcmEncrypt : ∀ k iv m,
    O.gcmDecrypt k iv (O.gcmEncrypt k iv m).1 (O.gcmEncrypt k iv m).2 = some m

/-- The 32-byte arrays of a list, one after the other. -/
def concatBlocks (bs : List (Bytes 32)) : List UInt8 := bs.flatMap List.Vector.toList

/-- The all-zero IV of `encrypt_identity`. -/
def zeroIv : Bytes 12 := List.Vector.replicate 12 0

/-- The AES-GCM call of `encrypt_identity`: 32 bytes of ciphertext, then the tag. -/
def sealIdentity (key pub : Bytes 32) : Bytes 48 :=
  ⟨(O.gcmEncrypt key zeroIv pub.toList).1 ++ (O.gcmEncrypt key zeroIv pub.toList).2.toList, by
    rw [List.length_append, O.gcmEncrypt_length]; simp⟩

def openIdentity (key : Bytes 32) (enc : Bytes 48) : Option (Bytes 32) :=
  (O.gcmDecrypt key zeroIv (slice enc.toList 0 32).toList (slice enc.toList 32 16)).map
    fun m => slice m 0 32

/-- `[magic][eph_pub][enc_static]`, then the HMAC if there is one. -/
def handshakePacket (ephPub : Bytes 32) (enc : Bytes 48) (mac : Option (Bytes 32)) :
    List UInt8 :=
  pktHeader ++ ephPub.toList ++ enc.toList ++ (mac.map List.Vector.toList).getD []

/-- The expected size of a handshake packet. -/
def handshakeSize (psk : Bool) : Nat :=
  HEADER_SIZE + DH_PUBKEY_LEN + HS_ENCRYPTED_PUB_LEN + (if psk then HMAC_LEN else 0)

def handshakeFields (psk : Bool) (pkt : List UInt8) :
    Option (Bytes 32 × Bytes 48 × Option (Bytes 32)) :=
  if pkt.length = handshakeSize psk ∧ pkt.take HEADER_SIZE = pktHeader then
    some (slice pkt HEADER_SIZE 32, slice pkt (HEADER_SIZE + DH_PUBKEY_LEN) 48,
      if psk then some (slice pkt (HEADER_SIZE + DH_PUBKEY_LEN + HS_ENCRYPTED_PUB_LEN) 32)
      else none)
  else none

/-- `encrypt_packet` for a given IV: `[iv][ciphertext][tag]`. -/
def encryptBytes (key : Bytes 32) (iv : Bytes 12) (plain : List UInt8) : List UInt8 :=
  iv.toList ++ (O.gcmEncrypt key iv plain).1 ++ (O.gcmEncrypt key iv plain).2.toList

/-- `decrypt_packet`. -/
def decryptBytes (key : Bytes 32) (pkt : List UInt8) : Option (List UInt8) :=
  if pkt.length < CRYPTO_OVERHEAD then none
  else
    O.gcmDecrypt key (slice pkt 0 12)
      (slice pkt CRYPTO_IV_LEN (pkt.length - CRYPTO_OVERHEAD)).toList
      (slice pkt (pkt.length - CRYPTO_TAG_LEN) 16)

/-- **The suite of the program**, on byte strings. -/
def suite : Suite where
  Priv := O.Priv
  Block := Bytes 32
  Sealed := Bytes 48
  Iv := Bytes 12
  Wire := List UInt8
  decEqBlock := inferInstance
  zero := List.Vector.replicate 32 0
  gt a b := decide (b.toList < a.toList)
  pubOf := O.pubOf
  x25519 := O.x25519
  sha256 bs := O.sha256 (concatBlocks bs)
  hmac k e s := O.hmacSha256 k (e.toList ++ s.toList)
  gcmSeal := O.sealIdentity
  gcmOpen := O.openIdentity
  hsPacket := handshakePacket
  hsFields := handshakeFields
  encryptPacket := O.encryptBytes
  decryptPacket := O.decryptBytes

/-! ## Reading back what was written -/

theorem toList_slice_append (a b c : List UInt8) (n : Nat) (hb : b.length = n) :
    (slice (a ++ b ++ c) a.length n).toList = b := by
  subst hb
  show ((a ++ b ++ c).drop a.length).takeD b.length 0 = b
  rw [List.append_assoc, List.drop_left, List.takeD_left]

/-- A slice of a concatenation that starts where the middle part starts is that part. -/
theorem slice_append {n off : Nat} (a c : List UInt8) (b : Bytes n) (ha : a.length = off) :
    slice (a ++ b.toList ++ c) off n = b := by
  subst ha
  exact List.Vector.toList_injective (toList_slice_append a b.toList c n b.toList_length)

theorem openIdentity_sealIdentity (h : O.Lawful) (k m : Bytes 32) :
    O.openIdentity k (O.sealIdentity k m) = some m := by
  set p := O.gcmEncrypt k zeroIv m.toList with hp
  have hlen : p.1.length = 32 := by rw [hp, O.gcmEncrypt_length]; simp
  have hsplit : (O.sealIdentity k m).toList = [] ++ p.1 ++ p.2.toList := rfl
  have hct : (slice (O.sealIdentity k m).toList 0 32).toList = p.1 := by
    rw [hsplit]; exact toList_slice_append [] p.1 _ 32 hlen
  have htag : slice (O.sealIdentity k m).toList 32 16 = p.2 := by
    rw [hsplit, ← List.append_nil ([] ++ p.1 ++ p.2.toList)]
    exact slice_append _ _ _ (by simpa using hlen)
  have hm : slice m.toList 0 32 = m := by
    have := slice_append [] [] m rfl
    simpa using this
  rw [openIdentity, hct, htag, h.gcmDecrypt_gcmEncrypt, Option.map_some, hm]

theorem handshakeFields_handshakePacket (e : Bytes 32) (s : Bytes 48)
    (mac : Option (Bytes 32)) :
    handshakeFields mac.isSome (handshakePacket e s mac) = some (e, s, mac) := by
  have he : slice (handshakePacket e s mac) HEADER_SIZE 32 = e := by
    rw [handshakePacket, List.append_assoc _ s.toList]
    exact slice_append _ _ _ rfl
  have hs : slice (handshakePacket e s mac) (HEADER_SIZE + DH_PUBKEY_LEN) 48 = s := by
    rw [handshakePacket]
    exact slice_append _ _ _ (by simp [HEADER_SIZE, DH_PUBKEY_LEN, pktHeader])
  have hmagic : (handshakePacket e s mac).take HEADER_SIZE = pktHeader := by
    rw [handshakePacket, List.append_assoc, List.append_assoc]
    exact List.take_left' rfl
  have hlen : (handshakePacket e s mac).length = handshakeSize mac.isSome := by
    cases mac <;>
      simp [handshakePacket, handshakeSize, pktHeader, HEADER_SIZE, DH_PUBKEY_LEN,
        HS_ENCRYPTED_PUB_LEN, CRYPTO_TAG_LEN, HMAC_LEN]
  rw [handshakeFields, if_pos ⟨hlen, hmagic⟩, he, hs]
  cases mac with
  | none => rfl
  | some m =>
      have hm : slice (handshakePacket e s (some m))
          (HEADER_SIZE + DH_PUBKEY_LEN + HS_ENCRYPTED_PUB_LEN) 32 = m := by
        rw [handshakePacket, ← List.append_nil (_ ++ _)]
        exact slice_append _ _ _
          (by simp [HEADER_SIZE, DH_PUBKEY_LEN, HS_ENCRYPTED_PUB_LEN, CRYPTO_TAG_LEN, pktHeader])
      simp only [Option.isSome_some, if_true, hm]

theorem decryptBytes_encryptBytes (h : O.Lawful) (k : Bytes 32) (iv : Bytes 12)
    (m : List UInt8) : O.decryptBytes k (O.encryptBytes k iv m) = some m := by
  set p := O.gcmEncrypt k iv m with hp
  have hlen : p.1.length = m.length := by rw [hp, O.gcmEncrypt_length]
  have hw : O.encryptBytes k iv m = iv.toList ++ p.1 ++ p.2.toList := rfl
  have hwl : (O.encryptBytes k iv m).length = 12 + m.length + 16 := by
    rw [hw]; simp [hlen]; omega
  have hiv : slice (O.encryptBytes k iv m) 0 12 = iv := by
    rw [hw, List.append_assoc]; exact slice_append [] _ iv rfl
  have hct : (slice (O.encryptBytes k iv m) CRYPTO_IV_LEN
      ((O.encryptBytes k iv m).length - CRYPTO_OVERHEAD)).toList = p.1 := by
    have hn : (O.encryptBytes k iv m).length - CRYPTO_OVERHEAD = p.1.length := by
      rw [hwl, hlen, CRYPTO_OVERHEAD, CRYPTO_IV_LEN, CRYPTO_TAG_LEN]; omega
    have hoff : CRYPTO_IV_LEN = iv.toList.length := by simp [CRYPTO_IV_LEN]
    rw [hn, hoff, hw]
    exact toList_slice_append _ _ _ _ rfl
  have htag : slice (O.encryptBytes k iv m)
      ((O.encryptBytes k iv m).length - CRYPTO_TAG_LEN) 16 = p.2 := by
    rw [hwl, hw, ← List.append_nil (_ ++ _ ++ _)]
    exact slice_append _ _ _ (by simp [hlen, CRYPTO_TAG_LEN])
  have hshort : ¬ (O.encryptBytes k iv m).length < CRYPTO_OVERHEAD := by
    rw [hwl, CRYPTO_OVERHEAD, CRYPTO_IV_LEN, CRYPTO_TAG_LEN]; omega
  rw [decryptBytes, if_neg hshort, hiv, hct, htag, h.gcmDecrypt_gcmEncrypt]

/-- The byte-level suite is lawful when its primitives are. -/
theorem suite_lawful (h : O.Lawful) : O.suite.Lawful where
  x25519_comm := h.x25519_comm
  x25519_isSome := h.x25519_isSome
  gcmOpen_gcmSeal := O.openIdentity_sealIdentity h
  decrypt_encrypt := O.decryptBytes_encryptBytes h
  hsFields_hsPacket := handshakeFields_handshakePacket

theorem concatBlocks_cons_ne_nil (b : Bytes 32) (bs : List (Bytes 32)) :
    concatBlocks (b :: bs) ≠ [] := by
  intro h
  have := congrArg List.length h
  simp [concatBlocks] at this

/-- Concatenations of 32-byte arrays determine the arrays. -/
theorem concatBlocks_injective : Function.Injective concatBlocks := by
  intro as
  induction as with
  | nil =>
      intro bs h
      cases bs with
      | nil => rfl
      | cons b bs => exact absurd h.symm (concatBlocks_cons_ne_nil b bs)
  | cons a as ih =>
      intro bs h
      cases bs with
      | nil => exact absurd h (concatBlocks_cons_ne_nil a as)
      | cons b bs =>
          simp only [concatBlocks, List.flatMap_cons] at h
          obtain ⟨hab, hrest⟩ := List.append_inj h (by simp)
          rw [List.Vector.toList_injective hab, ih hrest]

end OpenSSL

end Lanecove
