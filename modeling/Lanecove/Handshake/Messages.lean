import Lanecove.Crypto.Suite

set_option autoImplicit false

/-! # The handshake functions

`derive_session_key`, `encrypt_identity`, `decrypt_identity`, `handshake_client_send`,
`handshake_client_recv` and `handshake_server_respond` of `src/common.c`, over any suite.
A return value `-1` is `none`; the outcomes of `sendto` and of the key generation are inputs.
-/

namespace Lanecove

variable {S : Suite}

/-- What `derive_session_key` hashes: three shared secrets and four public keys. -/
structure KeyInput (S : Suite) where
  ecdhEph : S.Block
  ecdhScEs : S.Block
  ecdhEcSs : S.Block
  clientEphPub : S.Block
  serverEphPub : S.Block
  clientStaticPub : S.Block
  serverStaticPub : S.Block

/-- The seven 32-byte arrays in the order of their offsets in `input`. -/
def KeyInput.blocks (i : KeyInput S) : List S.Block :=
  [i.ecdhEph, i.ecdhScEs, i.ecdhEcSs, i.clientEphPub, i.serverEphPub, i.clientStaticPub,
    i.serverStaticPub]

def deriveSessionKey (i : KeyInput S) : S.Block := S.sha256 i.blocks

/-- Encrypt a public key under the hash of a shared secret (zero IV). -/
def encryptIdentity (keyMaterial pub : S.Block) : S.Sealed :=
  S.gcmSeal (S.sha256 [keyMaterial]) pub

def decryptIdentity (keyMaterial : S.Block) (enc : S.Sealed) : Option S.Block :=
  S.gcmOpen (S.sha256 [keyMaterial]) enc

/-- The HMAC field of an outgoing handshake packet; absent without a PSK. -/
def hmacField (pskKey : Option S.Block) (ephPub : S.Block) (enc : S.Sealed) :
    Option S.Block :=
  pskKey.map fun k => S.hmac k ephPub enc

/-- The HMAC check of both receiving functions. Without a PSK there is nothing to check. -/
def hmacOk (pskKey : Option S.Block) (ephPub : S.Block) (enc : S.Sealed)
    (mac : Option S.Block) : Bool :=
  match pskKey with
  | none => true
  | some k => decide (mac = some (S.hmac k ephPub enc))

/-- `hs_client_state_t`: what an initiator keeps between the two phases. A `NULL` key is
`none`. -/
structure HsClientState (S : Suite) where
  ephKey : Option S.Priv
  ephPub : S.Block
  ecdhEcSs : S.Block

/-- The zero-initialised state of an unused slot. -/
def HsClientState.zero (S : Suite) : HsClientState S := ⟨none, S.zero, S.zero⟩

/-! ## The initiator -/

/-- The initiation packet of the ephemeral key `ephKey`, whose secret with the server's
static key is `ecdhEcSs`. -/
def initiationPacket (pskKey : Option S.Block) (staticPub : S.Block) (ephKey : S.Priv)
    (ecdhEcSs : S.Block) : S.Wire :=
  let encStatic : S.Sealed := encryptIdentity ecdhEcSs staticPub
  S.hsPacket (S.pubOf ephKey) encStatic (hmacField pskKey (S.pubOf ephKey) encStatic)

/-- `handshake_client_send`: the datagram sent and the state kept. `fresh` is the generated
ephemeral key, `none` if the generation fails. -/
def handshakeClientSend (pskKey : Option S.Block) (staticPub serverStaticPub : S.Block)
    (fresh : Option S.Priv) (sendOk : Bool) : Option (S.Wire × HsClientState S) :=
  match fresh with
  | none => none
  | some ephKey =>
      match S.x25519 ephKey serverStaticPub with
      | none => none
      | some ecdhEcSs =>
          if sendOk then
            some (initiationPacket pskKey staticPub ephKey ecdhEcSs,
              ⟨some ephKey, S.pubOf ephKey, ecdhEcSs⟩)
          else none

/-- The checks of `handshake_client_recv`, up to the input of the key derivation. -/
def clientKeyInput (resp : S.Wire) (pskKey : Option S.Block) (staticKey : S.Priv)
    (staticPub serverStaticPub : S.Block) (state : HsClientState S) : Option (KeyInput S) :=
  match S.hsFields pskKey.isSome resp with
  | none => none
  | some (serverEphPub, encServerStatic, mac) =>
      if hmacOk pskKey serverEphPub encServerStatic mac then
        match state.ephKey with
        | none => none
        | some ephKey =>
            match S.x25519 ephKey serverEphPub with
            | none => none
            | some ecdhEph =>
                match decryptIdentity ecdhEph encServerStatic with
                | none => none
                | some serverStaticPubRecv =>
                    if serverStaticPubRecv = serverStaticPub then
                      (S.x25519 staticKey serverEphPub).map fun ecdhScEs =>
                        ⟨ecdhEph, ecdhScEs, state.ecdhEcSs, state.ephPub, serverEphPub,
                          staticPub, serverStaticPubRecv⟩
                    else none
      else none

/-- `handshake_client_recv`: the session key, and the state with the ephemeral key freed on
success and untouched on failure. -/
def handshakeClientRecv (resp : S.Wire) (pskKey : Option S.Block) (staticKey : S.Priv)
    (staticPub serverStaticPub : S.Block) (state : HsClientState S) :
    Option S.Block × HsClientState S :=
  match clientKeyInput resp pskKey staticKey staticPub serverStaticPub state with
  | none => (none, state)
  | some input => (some (deriveSessionKey input), { state with ephKey := none })

/-! ## The responder -/

/-- What a responder reads from an initiation: the client's ephemeral key, the shared secret
of that key and the own static key, and the decrypted client identity. -/
structure Initiation (S : Suite) where
  clientEphPub : S.Block
  ecdhEcSs : S.Block
  clientStaticPub : S.Block

/-- The first half of `handshake_server_respond`: size, magic, HMAC, and the decryption of
the client identity. -/
def openInitiation (pkt : S.Wire) (pskKey : Option S.Block) (staticKey : S.Priv) :
    Option (Initiation S) :=
  match S.hsFields pskKey.isSome pkt with
  | none => none
  | some (clientEphPub, encClientStatic, mac) =>
      if hmacOk pskKey clientEphPub encClientStatic mac then
        match S.x25519 staticKey clientEphPub with
        | none => none
        | some ecdhEcSs =>
            (decryptIdentity ecdhEcSs encClientStatic).map fun clientStaticPub =>
              ⟨clientEphPub, ecdhEcSs, clientStaticPub⟩
      else none

/-- The response packet of the ephemeral key `ephKey`, whose secret with the client's
ephemeral key is `ecdhEph`. -/
def responsePacket (pskKey : Option S.Block) (staticPub : S.Block) (ephKey : S.Priv)
    (ecdhEph : S.Block) : S.Wire :=
  let encServerStatic : S.Sealed := encryptIdentity ecdhEph staticPub
  S.hsPacket (S.pubOf ephKey) encServerStatic
    (hmacField pskKey (S.pubOf ephKey) encServerStatic)

/-- The last secret of `handshake_server_respond` and the input of the key derivation. -/
def serverKeyInput (ini : Initiation S) (staticPub : S.Block) (ephKey : S.Priv)
    (ecdhEph : S.Block) : Option (KeyInput S) :=
  (S.x25519 ephKey ini.clientStaticPub).map fun ecdhScEs =>
    ⟨ecdhEph, ecdhScEs, ini.ecdhEcSs, ini.clientEphPub, S.pubOf ephKey, ini.clientStaticPub,
      staticPub⟩

/-- What `handshake_server_respond` did: the response it sent, if any, and its outputs
(client identity, session key) if it returned `0`. The response is sent before the last
check, so the first may be there without the second. -/
structure Response (S : Suite) where
  sent : Option S.Wire
  done : Option (S.Block × S.Block)

/-- `handshake_server_respond`. A `NULL` precomputed key fails in `x25519_shared_secret`. -/
def handshakeServerRespond (pkt : S.Wire) (pskKey : Option S.Block) (staticKey : S.Priv)
    (staticPub : S.Block) (precompEphKey : Option S.Priv) (sendOk : Bool) : Response S :=
  match openInitiation pkt pskKey staticKey with
  | none => ⟨none, none⟩
  | some ini =>
      match precompEphKey with
      | none => ⟨none, none⟩
      | some ephKey =>
          match S.x25519 ephKey ini.clientEphPub with
          | none => ⟨none, none⟩
          | some ecdhEph =>
              if sendOk then
                -- the response is out before the last secret is computed
                ⟨some (responsePacket pskKey staticPub ephKey ecdhEph),
                  (serverKeyInput ini staticPub ephKey ecdhEph).map fun input =>
                    (ini.clientStaticPub, deriveSessionKey input)⟩
              else ⟨none, none⟩

/-! ## What the functions did when they succeed -/

theorem hmacOk_hmacField (pskKey : Option S.Block) (e : S.Block) (c : S.Sealed) :
    hmacOk pskKey e c (hmacField pskKey e c) = true := by
  cases pskKey <;> simp [hmacOk, hmacField]

@[simp] theorem hmacField_isSome (pskKey : Option S.Block) (e : S.Block) (c : S.Sealed) :
    (hmacField pskKey e c).isSome = pskKey.isSome := by
  cases pskKey <;> rfl

section Packets

variable (hS : S.Lawful)
include hS

theorem hsFields_initiationPacket (pskKey : Option S.Block) (pub : S.Block) (e : S.Priv)
    (x : S.Block) :
    S.hsFields pskKey.isSome (initiationPacket pskKey pub e x) = some (S.pubOf e,
      encryptIdentity x pub, hmacField pskKey (S.pubOf e) (encryptIdentity x pub)) := by
  rw [← hmacField_isSome pskKey (S.pubOf e) (encryptIdentity x pub)]
  exact hS.hsFields_hsPacket ..

theorem hsFields_responsePacket (pskKey : Option S.Block) (pub : S.Block) (e : S.Priv)
    (y : S.Block) :
    S.hsFields pskKey.isSome (responsePacket pskKey pub e y) = some (S.pubOf e,
      encryptIdentity y pub, hmacField pskKey (S.pubOf e) (encryptIdentity y pub)) := by
  rw [← hmacField_isSome pskKey (S.pubOf e) (encryptIdentity y pub)]
  exact hS.hsFields_hsPacket ..

end Packets

theorem handshakeClientSend_eq_some {pskKey : Option S.Block} {staticPub serverPub : S.Block}
    {fresh : Option S.Priv} {sendOk : Bool} {pkt : S.Wire} {st : HsClientState S}
    (h : handshakeClientSend pskKey staticPub serverPub fresh sendOk = some (pkt, st)) :
    ∃ e ss, fresh = some e ∧ S.x25519 e serverPub = some ss ∧
      pkt = initiationPacket pskKey staticPub e ss ∧ st = ⟨some e, S.pubOf e, ss⟩ := by
  unfold handshakeClientSend at h
  cases fresh with
  | none => cases h
  | some e =>
      simp only at h
      cases hx : S.x25519 e serverPub with
      | none => rw [hx] at h; cases h
      | some ss =>
          rw [hx] at h
          cases sendOk with
          | false => simp at h
          | true =>
              simp only [if_true, Option.some.injEq, Prod.mk.injEq] at h
              exact ⟨e, ss, rfl, hx, h.1.symm, h.2.symm⟩

/-- A completed initiator: the response carries `serverEphPub` and an identity that opens
under the secret of the two ephemeral keys and is the expected one. -/
theorem clientKeyInput_eq_some {resp : S.Wire} {pskKey : Option S.Block} {staticKey : S.Priv}
    {staticPub serverPub : S.Block} {st : HsClientState S} {input : KeyInput S}
    (h : clientKeyInput resp pskKey staticKey staticPub serverPub st = some input) :
    ∃ serverEphPub enc mac e ecdhEph ecdhScEs,
      S.hsFields pskKey.isSome resp = some (serverEphPub, enc, mac) ∧
      hmacOk pskKey serverEphPub enc mac = true ∧
      st.ephKey = some e ∧ S.x25519 e serverEphPub = some ecdhEph ∧
      decryptIdentity ecdhEph enc = some serverPub ∧
      S.x25519 staticKey serverEphPub = some ecdhScEs ∧
      input = ⟨ecdhEph, ecdhScEs, st.ecdhEcSs, st.ephPub, serverEphPub, staticPub,
        serverPub⟩ := by
  unfold clientKeyInput at h
  split at h
  · cases h
  · rename_i serverEphPub enc mac hf
    split at h
    · rename_i hm
      split at h
      · cases h
      · rename_i e he
        split at h
        · cases h
        · rename_i ecdhEph hx
          split at h
          · cases h
          · rename_i recv hd
            split at h
            · rename_i hr
              subst hr
              obtain ⟨ecdhScEs, hs, hi⟩ := Option.map_eq_some_iff.mp h
              exact ⟨serverEphPub, enc, mac, e, ecdhEph, ecdhScEs, hf, hm, he, hx, hd, hs,
                hi.symm⟩
            · cases h
    · cases h

theorem openInitiation_eq_some {pkt : S.Wire} {pskKey : Option S.Block} {staticKey : S.Priv}
    {ini : Initiation S} (h : openInitiation pkt pskKey staticKey = some ini) :
    ∃ enc mac, S.hsFields pskKey.isSome pkt = some (ini.clientEphPub, enc, mac) ∧
      hmacOk pskKey ini.clientEphPub enc mac = true ∧
      S.x25519 staticKey ini.clientEphPub = some ini.ecdhEcSs ∧
      decryptIdentity ini.ecdhEcSs enc = some ini.clientStaticPub := by
  unfold openInitiation at h
  split at h
  · cases h
  · rename_i e enc mac hf
    split at h
    · rename_i hm
      split at h
      · cases h
      · rename_i ss hx
        obtain ⟨cs, hd, rfl⟩ := Option.map_eq_some_iff.mp h
        exact ⟨enc, mac, hf, hm, hx, hd⟩
    · cases h

/-- A response is sent exactly when the initiation opens, there is a precomputed key whose
secret with the client's ephemeral key exists, and `sendto` succeeds. -/
theorem handshakeServerRespond_sent {pkt : S.Wire} {pskKey : Option S.Block}
    {staticKey : S.Priv} {staticPub : S.Block} {pre : Option S.Priv} {sendOk : Bool}
    {resp : S.Wire}
    (h : (handshakeServerRespond pkt pskKey staticKey staticPub pre sendOk).sent = some resp) :
    ∃ ini e ecdhEph, openInitiation pkt pskKey staticKey = some ini ∧ pre = some e ∧
      S.x25519 e ini.clientEphPub = some ecdhEph ∧ sendOk = true ∧
      resp = responsePacket pskKey staticPub e ecdhEph ∧
      (handshakeServerRespond pkt pskKey staticKey staticPub pre sendOk).done =
        (serverKeyInput ini staticPub e ecdhEph).map fun input =>
          (ini.clientStaticPub, deriveSessionKey input) := by
  unfold handshakeServerRespond at h ⊢
  cases hi : openInitiation pkt pskKey staticKey with
  | none => rw [hi] at h; cases h
  | some ini =>
      cases pre with
      | none => rw [hi] at h; cases h
      | some e =>
          cases hx : S.x25519 e ini.clientEphPub with
          | none => simp [hi, hx] at h
          | some ecdhEph =>
              cases sendOk with
              | false => simp [hi, hx] at h
              | true =>
                  simp only [hi, hx, if_true, Option.some.injEq] at h ⊢
                  exact ⟨ini, e, ecdhEph, rfl, rfl, hx, trivial, h.symm, rfl⟩

/-- The outputs of a responder come after its response. -/
theorem handshakeServerRespond_done {pkt : S.Wire} {pskKey : Option S.Block}
    {staticKey : S.Priv} {staticPub : S.Block} {pre : Option S.Priv} {sendOk : Bool}
    {r : S.Block × S.Block}
    (h : (handshakeServerRespond pkt pskKey staticKey staticPub pre sendOk).done = some r) :
    ∃ resp,
      (handshakeServerRespond pkt pskKey staticKey staticPub pre sendOk).sent = some resp := by
  unfold handshakeServerRespond at h ⊢
  cases hi : openInitiation pkt pskKey staticKey with
  | none => rw [hi] at h; cases h
  | some ini =>
      cases pre with
      | none => rw [hi] at h; cases h
      | some e =>
          cases hx : S.x25519 e ini.clientEphPub with
          | none => simp [hi, hx] at h
          | some ecdhEph =>
              cases sendOk with
              | false => simp [hi, hx] at h
              | true => exact ⟨responsePacket pskKey staticPub e ecdhEph, by simp [hx]⟩

theorem serverKeyInput_eq_some {ini : Initiation S} {staticPub : S.Block} {e : S.Priv}
    {ecdhEph : S.Block} {input : KeyInput S}
    (h : serverKeyInput ini staticPub e ecdhEph = some input) :
    ∃ ecdhScEs, S.x25519 e ini.clientStaticPub = some ecdhScEs ∧
      input = ⟨ecdhEph, ecdhScEs, ini.ecdhEcSs, ini.clientEphPub, S.pubOf e,
        ini.clientStaticPub, staticPub⟩ := by
  obtain ⟨ecdhScEs, hx, hi⟩ := Option.map_eq_some_iff.mp h
  exact ⟨ecdhScEs, hx, hi.symm⟩

end Lanecove
