import Lanecove.Crypto.Bytes
import Lanecove.Handshake.Messages

set_option autoImplicit false

/-! # Agreement and binding of the handshake

The three shared secrets of the key derivation are computed from different halves on the two
sides. `respond_completes` is the working form of their agreement: whatever answer an honest
initiation gets, the initiator completes with exactly the key the responder derived.
`handshake_agrees_and_binds` is the statement for the byte-level suite, with the converse:
a common key fixes both ephemeral and both static public keys, in their roles.
-/

namespace Lanecove

section Suite

variable {S : Suite}

/-- An honest initiation opens at the server it was made for, to the client's identity. -/
theorem openInitiation_initiationPacket (hS : S.Lawful) (pskKey : Option S.Block)
    (cs ss ce : S.Priv) {x : S.Block} (hx : S.x25519 ce (S.pubOf ss) = some x) :
    openInitiation (initiationPacket pskKey (S.pubOf cs) ce x) pskKey ss =
      some ⟨S.pubOf ce, x, S.pubOf cs⟩ := by
  have hf := hsFields_initiationPacket hS pskKey (S.pubOf cs) ce x
  have hx' : S.x25519 ss (S.pubOf ce) = some x := by rw [hS.x25519_comm, hx]
  have hd : decryptIdentity x (encryptIdentity x (S.pubOf cs)) = some (S.pubOf cs) :=
    hS.gcmOpen_gcmSeal _ _
  simp only [openInitiation, hf, hmacOk_hmacField, if_true, hx', hd,
    Option.map_some]

/-- The initiator's side of a response to its own initiation. -/
theorem clientKeyInput_responsePacket (hS : S.Lawful) (pskKey : Option S.Block)
    (cs ss ce se : S.Priv) {x y z : S.Block} (hy : S.x25519 se (S.pubOf ce) = some y)
    (hz : S.x25519 se (S.pubOf cs) = some z) :
    clientKeyInput (responsePacket pskKey (S.pubOf ss) se y) pskKey cs (S.pubOf cs)
        (S.pubOf ss) ⟨some ce, S.pubOf ce, x⟩ =
      some ⟨y, z, x, S.pubOf ce, S.pubOf se, S.pubOf cs, S.pubOf ss⟩ := by
  have hf := hsFields_responsePacket hS pskKey (S.pubOf ss) se y
  have hy' : S.x25519 ce (S.pubOf se) = some y := by rw [hS.x25519_comm, hy]
  have hz' : S.x25519 cs (S.pubOf se) = some z := by rw [hS.x25519_comm, hz]
  have hd : decryptIdentity y (encryptIdentity y (S.pubOf ss)) = some (S.pubOf ss) :=
    hS.gcmOpen_gcmSeal _ _
  simp only [clientKeyInput, hf, hmacOk_hmacField, if_true, hy', hd, hz',
    Option.map_some]

/-- **Key agreement.** If the packet of `handshake_client_send` gets a response from
`handshake_server_respond`, the responder has recovered the client's identity and derived a
key, and the initiator derives the same key from the response. -/
theorem respond_completes (hS : S.Lawful) {pskKey : Option S.Block} {cs ss : S.Priv}
    {fresh pre : Option S.Priv} {ok ok' : Bool} {pkt resp : S.Wire} {st : HsClientState S}
    (hsend : handshakeClientSend pskKey (S.pubOf cs) (S.pubOf ss) fresh ok = some (pkt, st))
    (hresp : (handshakeServerRespond pkt pskKey ss (S.pubOf ss) pre ok').sent = some resp) :
    ∃ input : KeyInput S,
      (handshakeServerRespond pkt pskKey ss (S.pubOf ss) pre ok').done =
        some (S.pubOf cs, deriveSessionKey input) ∧
      clientKeyInput resp pskKey cs (S.pubOf cs) (S.pubOf ss) st = some input := by
  obtain ⟨ce, x, rfl, hx, rfl, rfl⟩ := handshakeClientSend_eq_some hsend
  obtain ⟨ini, se, y, hini, rfl, hy, rfl, rfl, hdone⟩ := handshakeServerRespond_sent hresp
  rw [openInitiation_initiationPacket hS pskKey cs ss ce hx, Option.some.injEq] at hini
  subst hini
  obtain ⟨z, hz⟩ := Option.isSome_iff_exists.mp (hS.x25519_isSome se cs)
  refine ⟨⟨y, z, x, S.pubOf ce, S.pubOf se, S.pubOf cs, S.pubOf ss⟩, ?_, ?_⟩
  · rw [hdone]
    simp [serverKeyInput, hz]
  · exact clientKeyInput_responsePacket hS pskKey cs ss ce se hy hz

/-- An honest initiation is answered whenever the responder has an ephemeral key and can
send. -/
theorem respond_sends (hS : S.Lawful) {pskKey : Option S.Block} {cs ss ce : S.Priv}
    {pkt : S.Wire} {st : HsClientState S} (se : S.Priv)
    (hsend : handshakeClientSend pskKey (S.pubOf cs) (S.pubOf ss) (some ce) true
      = some (pkt, st)) :
    ∃ resp,
      (handshakeServerRespond pkt pskKey ss (S.pubOf ss) (some se) true).sent = some resp := by
  obtain ⟨e, x, he, hx, rfl, -⟩ := handshakeClientSend_eq_some hsend
  obtain rfl := Option.some.inj he
  obtain ⟨y, hy⟩ := Option.isSome_iff_exists.mp (hS.x25519_isSome se ce)
  refine ⟨responsePacket pskKey (S.pubOf ss) se y, ?_⟩
  simp [handshakeServerRespond, openInitiation_initiationPacket hS pskKey cs ss ce hx, hy]

/-- What the responder hashes in a completed execution. -/
def RespondHashes (pkt : S.Wire) (pskKey : Option S.Block) (staticKey : S.Priv)
    (staticPub : S.Block) (pre : Option S.Priv) (input : KeyInput S) : Prop :=
  ∃ ini e ecdhEph, openInitiation pkt pskKey staticKey = some ini ∧ pre = some e ∧
    S.x25519 e ini.clientEphPub = some ecdhEph ∧
    serverKeyInput ini staticPub e ecdhEph = some input

theorem respondHashes_of_done {pkt : S.Wire} {pskKey : Option S.Block} {staticKey : S.Priv}
    {staticPub : S.Block} {pre : Option S.Priv} {ok : Bool} {pub key : S.Block}
    (h : (handshakeServerRespond pkt pskKey staticKey staticPub pre ok).done
      = some (pub, key)) :
    ∃ input, RespondHashes pkt pskKey staticKey staticPub pre input ∧
      pub = input.clientStaticPub ∧ key = deriveSessionKey input := by
  obtain ⟨resp, hresp⟩ := handshakeServerRespond_done h
  obtain ⟨ini, e, ecdhEph, hini, hpre, hx, -, -, hdone⟩ := handshakeServerRespond_sent hresp
  rw [h] at hdone
  obtain ⟨input, hinput, hpair⟩ := Option.map_eq_some_iff.mp hdone.symm
  obtain ⟨rfl, rfl⟩ := Prod.mk.inj hpair
  refine ⟨input, ⟨ini, e, ecdhEph, hini, hpre, hx, hinput⟩, ?_, rfl⟩
  obtain ⟨_, -, rfl⟩ := serverKeyInput_eq_some hinput
  rfl

/-- With the same PSK setting on both sides the handshake completes on both sides. -/
theorem handshake_completes (hS : S.Lawful) (pskKey : Option S.Block) (cs ss ce se : S.Priv) :
    ∃ pkt resp st key,
      handshakeClientSend pskKey (S.pubOf cs) (S.pubOf ss) (some ce) true = some (pkt, st) ∧
      handshakeServerRespond pkt pskKey ss (S.pubOf ss) (some se) true
        = ⟨some resp, some (S.pubOf cs, key)⟩ ∧
      (handshakeClientRecv resp pskKey cs (S.pubOf cs) (S.pubOf ss) st).1 = some key := by
  obtain ⟨x, hx⟩ := Option.isSome_iff_exists.mp (hS.x25519_isSome ce ss)
  have hsend : handshakeClientSend pskKey (S.pubOf cs) (S.pubOf ss) (some ce) true
      = some (initiationPacket pskKey (S.pubOf cs) ce x, ⟨some ce, S.pubOf ce, x⟩) := by
    simp [handshakeClientSend, hx]
  obtain ⟨resp, hresp⟩ := respond_sends hS se hsend
  obtain ⟨input, hdone, hrecv⟩ := respond_completes hS hsend hresp
  refine ⟨_, resp, _, deriveSessionKey input, hsend, ?_, ?_⟩
  · rw [← hresp, ← hdone]
  · rw [handshakeClientRecv, hrecv]

/-- A completed client and a completed server execution with one key used the same public
keys, provided the derivation does not collide on the two inputs they hashed. -/
theorem handshake_binds {resp pkt : S.Wire} {pskC pskS : Option S.Block} {cs ss se : S.Priv}
    {serverPub clientPub key : S.Block} {st : HsClientState S} {ok : Bool}
    (hc : (handshakeClientRecv resp pskC cs (S.pubOf cs) serverPub st).1 = some key)
    (hs : (handshakeServerRespond pkt pskS ss (S.pubOf ss) (some se) ok).done
      = some (clientPub, key))
    (hcoll : ∀ i j, clientKeyInput resp pskC cs (S.pubOf cs) serverPub st = some i →
      RespondHashes pkt pskS ss (S.pubOf ss) (some se) j →
      deriveSessionKey i = deriveSessionKey j → i = j) :
    ∃ clientEph serverEph encC encS macC macS,
      S.hsFields pskS.isSome pkt = some (clientEph, encC, macC) ∧
      S.hsFields pskC.isSome resp = some (serverEph, encS, macS) ∧
      st.ephPub = clientEph ∧ serverEph = S.pubOf se ∧ S.pubOf cs = clientPub ∧
      serverPub = S.pubOf ss := by
  -- unfold both executions to the inputs they hashed
  obtain ⟨j, hj, hpub, hkey⟩ := respondHashes_of_done hs
  cases hi : clientKeyInput resp pskC cs (S.pubOf cs) serverPub st with
  | none => rw [handshakeClientRecv, hi] at hc; cases hc
  | some i =>
      rw [handshakeClientRecv, hi] at hc
      obtain rfl : i = j := hcoll i j hi hj ((Option.some.inj hc).trans hkey)
      obtain ⟨serverEph, encS, macS, e, y, z, hf, -, -, -, -, -, hin⟩ :=
        clientKeyInput_eq_some hi
      obtain ⟨ini, e', y', hini, he', -, hin'⟩ := hj
      obtain ⟨encC, macC, hf', -, -, -⟩ := openInitiation_eq_some hini
      obtain ⟨z', -, hin''⟩ := serverKeyInput_eq_some hin'
      obtain rfl := Option.some.inj he'
      have hstatic : S.pubOf cs = clientPub := by rw [hpub, hin]
      rw [hin] at hin''
      injection hin'' with _ _ _ h4 h5 _ h7
      exact ⟨ini.clientEphPub, serverEph, encC, encS, macC, macS, hf', hf, h4, h5, hstatic, h7⟩

end Suite

/-! ## The statement on byte strings -/

section Bytes

variable (O : OpenSSL)

/-- Equal keys come from equal inputs, when SHA-256 does not collide on these two inputs. -/
theorem keyInput_eq_of_key_eq {i j : KeyInput O.suite}
    (hcoll : O.sha256 (OpenSSL.concatBlocks i.blocks) = O.sha256 (OpenSSL.concatBlocks j.blocks) →
      OpenSSL.concatBlocks i.blocks = OpenSSL.concatBlocks j.blocks)
    (h : deriveSessionKey i = deriveSessionKey j) : i = j := by
  have hb : i.blocks = j.blocks := OpenSSL.concatBlocks_injective (hcoll h)
  cases i
  cases j
  simpa [KeyInput.blocks] using hb

/-- **Key agreement and binding.** With the same PSK setting on both sides, the packet of
`handshake_client_send` and the response to it complete on both sides, the server recovers
the client's static key, and both derive one key. Conversely, if a completed client and a
completed server execution output the same key (and SHA-256 does not collide on the two
inputs they hashed), both used the same four public keys in the same roles. -/
theorem handshake_agrees_and_binds (hO : O.Lawful) :
    (∀ (pskKey : Option (Bytes 32)) (cs ss ce se : O.Priv),
      ∃ (pkt resp : List UInt8) (st : HsClientState O.suite) (key : Bytes 32),
        handshakeClientSend (S := O.suite) pskKey (O.pubOf cs) (O.pubOf ss) (some ce) true
          = some (pkt, st) ∧
        handshakeServerRespond (S := O.suite) pkt pskKey ss (O.pubOf ss) (some se) true
          = ⟨some resp, some (O.pubOf cs, key)⟩ ∧
        (handshakeClientRecv resp pskKey cs (O.pubOf cs) (O.pubOf ss) st).1 = some key) ∧
    (∀ (resp pkt : List UInt8) (pskC pskS : Option (Bytes 32)) (cs ss se : O.Priv)
      (serverPub clientPub key : Bytes 32) (st : HsClientState O.suite) (ok : Bool),
      (handshakeClientRecv resp pskC cs (O.pubOf cs) serverPub st).1 = some key →
      (handshakeServerRespond (S := O.suite) pkt pskS ss (O.pubOf ss) (some se) ok).done
        = some (clientPub, key) →
      (∀ i j : KeyInput O.suite,
        clientKeyInput resp pskC cs (O.pubOf cs) serverPub st = some i →
        RespondHashes (S := O.suite) pkt pskS ss (O.pubOf ss) (some se) j →
        O.sha256 (OpenSSL.concatBlocks i.blocks) = O.sha256 (OpenSSL.concatBlocks j.blocks) →
        OpenSSL.concatBlocks i.blocks = OpenSSL.concatBlocks j.blocks) →
      ∃ clientEph serverEph encC encS macC macS,
        OpenSSL.handshakeFields pskS.isSome pkt = some (clientEph, encC, macC) ∧
        OpenSSL.handshakeFields pskC.isSome resp = some (serverEph, encS, macS) ∧
        st.ephPub = clientEph ∧ serverEph = O.pubOf se ∧ O.pubOf cs = clientPub ∧
        serverPub = O.pubOf ss) := by
  refine ⟨?_, ?_⟩
  · intro pskKey cs ss ce se
    exact handshake_completes (O.suite_lawful hO) pskKey cs ss ce se
  · intro resp pkt pskC pskS cs ss se serverPub clientPub key st ok hc hs hcoll
    exact handshake_binds hc hs fun i j hi hj =>
      keyInput_eq_of_key_eq O (hcoll i j hi hj)

/-! A small instance: a key pair is its own public half, the shared secret is the exclusive
or, a tag is the first half of the key and a digest the first 32 bytes. -/

def xorBytes (a b : Bytes 32) : Bytes 32 := List.Vector.map₂ (· ^^^ ·) a b

theorem xorBytes_comm (a b : Bytes 32) : xorBytes a b = xorBytes b a := by
  refine List.Vector.ext fun i => ?_
  rw [xorBytes, xorBytes, List.Vector.get_map₂, List.Vector.get_map₂, UInt8.xor_comm]

/-- Primitives that satisfy the laws and can be evaluated. -/
def xorOpenSSL : OpenSSL where
  Priv := Bytes 32
  pubOf a := a
  x25519 a p := some (xorBytes a p)
  sha256 m := slice m 0 32
  hmacSha256 k m := xorBytes k (slice m 0 32)
  gcmEncrypt k _ m := (m, slice k.toList 0 16)
  gcmDecrypt k _ c t := if t = slice k.toList 0 16 then some c else none
  gcmEncrypt_length _ _ _ := rfl

theorem xorOpenSSL_lawful : xorOpenSSL.Lawful where
  x25519_comm a b := congrArg some (xorBytes_comm a b)
  x25519_isSome _ _ := rfl
  gcmDecrypt_gcmEncrypt k iv m := by simp [xorOpenSSL]

/-- The key pair of the instance whose bytes are all `b`. -/
def xorKey (b : UInt8) : Bytes 32 := List.Vector.replicate 32 b

/-- The instance run without a PSK, both directions of the theorem. -/
theorem handshake_agrees_and_binds_xor :
    xorOpenSSL.Lawful ∧
    (∃ (pkt resp : List UInt8) (st : HsClientState xorOpenSSL.suite) (key : Bytes 32),
      handshakeClientSend (S := xorOpenSSL.suite) none (xorKey 1) (xorKey 2) (some (xorKey 4)) true
        = some (pkt, st) ∧
      handshakeServerRespond (S := xorOpenSSL.suite) pkt none (xorKey 2) (xorKey 2)
        (some (xorKey 8)) true = ⟨some resp, some (xorKey 1, key)⟩ ∧
      (handshakeClientRecv resp none (xorKey 1) (xorKey 1) (xorKey 2) st).1 = some key) ∧
    ∃ clientEph serverEph encC encS macC macS,
      OpenSSL.handshakeFields false
        (OpenSSL.handshakePacket (xorKey 4) (xorOpenSSL.sealIdentity (xorKey 6) (xorKey 1)) none)
        = some (clientEph, encC, macC) ∧
      OpenSSL.handshakeFields false
        (OpenSSL.handshakePacket (xorKey 8) (xorOpenSSL.sealIdentity (xorKey 12) (xorKey 2)) none)
        = some (serverEph, encS, macS) ∧
      xorKey 4 = clientEph ∧ serverEph = xorKey 8 ∧ xorKey 1 = xorKey 1 ∧
      xorKey 2 = xorKey 2 := by
  refine ⟨xorOpenSSL_lawful,
    (handshake_agrees_and_binds xorOpenSSL xorOpenSSL_lawful).1 none (xorKey 1) (xorKey 2)
      (xorKey 4) (xorKey 8), ?_⟩
  refine (handshake_agrees_and_binds xorOpenSSL xorOpenSSL_lawful).2 _ _ none none (xorKey 1)
    (xorKey 2) (xorKey 8) (xorKey 2) (xorKey 1) (xorKey 12)
    ⟨some (xorKey 4), xorKey 4, xorKey 6⟩ true rfl rfl ?_
  intro i j hi hj _
  have hin : some i = some (⟨xorKey 12, xorKey 9, xorKey 6, xorKey 4, xorKey 8, xorKey 1,
      xorKey 2⟩ : KeyInput xorOpenSSL.suite) := hi.symm
  obtain ⟨ini, e, y, hini, he, hy, hj⟩ := hj
  have hin' : some ini = some (⟨xorKey 4, xorKey 6, xorKey 1⟩ : Initiation xorOpenSSL.suite) :=
    hini.symm
  obtain rfl := Option.some.inj hin
  obtain rfl := Option.some.inj hin'
  obtain rfl := Option.some.inj he
  obtain rfl := Option.some.inj hy
  obtain rfl := Option.some.inj hj
  rfl

end Bytes

end Lanecove
