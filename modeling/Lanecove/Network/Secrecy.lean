import Lanecove.Network.Origin

set_option autoImplicit false

/-! # Session keys stay secret

The symbolic attacker: it sees every datagram, makes up and sends whatever it likes, knows all
public keys, the PSK, and the private keys in `known`. Not among those are the static key of
the peer and the ephemeral keys the two honest nodes generate. Then no key that a node
installs for the peer can be derived (`session_key_secret`).

The closed set of `Basic/Deduction.lean` does the work. Whatever the nodes send is safe: the
identity in a handshake packet is a public key, and data packets hold data. A session key is
not: for either role one of the three secrets in it is made from two hidden keys, the node's
own ephemeral key and the static key of the peer.
-/

namespace Lanecove

open Machine (left right)
open Term (Safe Derives)

/-- `derive_key`: the PSK of a node is the hash of the configured string. -/
def deriveKey (psk : List UInt8) : Msg := .hash (.data psk)

/-- What the attacker has seen: all datagrams, all public keys, and the PSKs. -/
def knowledge (ctxN ctxP : LoopCtx symbolic) (trN trP : List (Event symbolic)) : Set Msg :=
  { t | t ∈ wires trN ∨ t ∈ wires trP ∨ (∃ n, t = Msg.pub n) ∨ ctxN.pskKey = some t ∨
    ctxP.pskKey = some t }

/-- The ephemeral keys a step generates are not known to the attacker. What arrives in the
step is not restricted. -/
def HidesKeys (known : Nat → Bool) (inp : Input symbolic) : Prop :=
  ∀ e, inp.offers e → known e = false

section Safe

variable {known : Nat → Bool}

/-! ## What is safe and what is not -/

/-- Both handshake packets: an ephemeral key, an encrypted static key, and perhaps a MAC. -/
theorem safe_hsPacket (pskKey : Option Msg) (e k : Nat) (x : Msg) :
    Safe known (Msg.hello (Msg.pub e) (encryptIdentity (S := symbolic) x (Msg.pub k))
      (hmacField (S := symbolic) pskKey (Msg.pub e)
        (encryptIdentity (S := symbolic) x (Msg.pub k)))) := by
  have hid : Safe known (encryptIdentity (S := symbolic) x (Msg.pub k) : Msg) :=
    ⟨trivial, fun _ => Term.safe_pub k⟩
  apply Term.safe_tuple.mpr
  intro t ht
  rcases List.mem_cons.mp ht with rfl | ht
  · exact Term.safe_pub e
  rcases List.mem_cons.mp ht with rfl | ht
  · exact hid
  · cases pskKey with
    | none => cases ht
    | some psk =>
        obtain rfl := List.mem_singleton.mp ht
        trivial

/-- A session key is as unsafe as any of the secrets it is derived from. -/
theorem not_safe_sessionKey {input : KeyInput symbolic} {t : Msg} (hmem : t ∈ input.blocks)
    (ht : ¬ Safe known t) : ¬ Safe known (deriveSessionKey input : Msg) := by
  intro hkey
  exact ht (Term.safe_tuple.mp (show Safe known (Term.tuple input.blocks) from hkey) t hmem)

/-- The initiator's key contains the secret of its ephemeral key and the static key of the
peer. -/
theorem client_key_not_safe {pkt : Msg} {pskKey : Option Msg} {k e p : Nat} {own : Msg}
    {st : HsClientState symbolic} {input : KeyInput symbolic} (he : known e = false)
    (hp : known p = false) (hst : st.ecdhEcSs = Term.exp e (Msg.pub p))
    (h : clientKeyInput (S := symbolic) pkt pskKey k own (Msg.pub p) st = some input) :
    ¬ Safe known (deriveSessionKey input : Msg) := by
  obtain ⟨_, _, _, _, _, _, -, -, -, -, -, -, rfl⟩ := clientKeyInput_eq_some h
  apply not_safe_sessionKey (t := st.ecdhEcSs)
  · simp [KeyInput.blocks]
  · rw [hst]
    exact Term.not_safe_exp_pub he hp

/-- The responder's key contains the secret of its ephemeral key and the static key the client
claims. -/
theorem server_key_not_safe {pkt : Msg} {pskKey : Option Msg} {k p : Nat} {own key : Msg}
    {pre : Option Nat} {ok : Bool} (he : ∀ e, pre = some e → known e = false)
    (hp : known p = false)
    (h : (handshakeServerRespond (S := symbolic) pkt pskKey k own pre ok).done
      = some (Msg.pub p, key)) : ¬ Safe known key := by
  obtain ⟨resp, hresp⟩ := handshakeServerRespond_done h
  obtain ⟨ini, e, y, -, hpre, -, -, -, hdone⟩ := handshakeServerRespond_sent hresp
  rw [h] at hdone
  obtain ⟨input, hin, hpair⟩ := Option.map_eq_some_iff.mp hdone.symm
  obtain ⟨hpub, rfl⟩ := Prod.mk.inj hpair
  obtain ⟨x, hx, rfl⟩ := serverKeyInput_eq_some hin
  apply not_safe_sessionKey (t := x)
  · simp [KeyInput.blocks]
  · have hx' : x = Term.exp e (Msg.pub p) := by
      rw [← hpub]
      exact (Option.some.inj hx).symm
    rw [hx']
    exact Term.not_safe_exp_pub (he e hpre) hp

end Safe

/-! ## The invariant of an honest node -/

/-- An honest node: the ephemeral keys it holds are hidden, whatever it has sent is safe, and
a key it derived with a peer whose static key is hidden is not. -/
structure SecretsKept (known : Nat → Bool) (n : Node symbolic) (tr : List (Event symbolic)) :
    Prop where
  precomp : ∀ e, n.precompEphKey = some e → known e = false
  pending : ∀ j, (n.pendingHs j).active = true → ∃ e, known e = false ∧
    (n.pendingHs j).hsState.ecdhEcSs = Term.exp e (n.config (n.pendingHs j).cfgIdx).pub
  sent : ∀ w ∈ wires tr, Safe known w
  done : ∀ p key, known p = false → .hsDone (Msg.pub p) key ∈ tr → ¬ Safe known key
  installed : ∀ i, .installed i ∈ tr → .hsDone i.pub i.key ∈ tr

namespace SecretsKept

variable {known : Nat → Bool} {n n' : Node symbolic} {tr ev : List (Event symbolic)}

theorem init {cfgs : List (PeerConfig symbolic)} {fresh : Option Nat}
    (hfresh : ∀ e, fresh = some e → known e = false) :
    SecretsKept known (Node.init cfgs fresh) [] where
  precomp := hfresh
  pending := by rintro j ⟨⟩
  sent := by rintro w ⟨⟩
  done := by rintro p key - ⟨⟩
  installed := by rintro i ⟨⟩

/-- The trace grows by events that are safe to see. -/
theorem grow (h : SecretsKept known n tr)
    (hpre : ∀ e, n'.precompEphKey = some e → known e = false)
    (hpend : ∀ j, (n'.pendingHs j).active = true → ∃ e, known e = false ∧
      (n'.pendingHs j).hsState.ecdhEcSs = Term.exp e (n'.config (n'.pendingHs j).cfgIdx).pub)
    (hsent : ∀ w ∈ wires ev, Safe known w)
    (hdone : ∀ p key, known p = false → .hsDone (Msg.pub p) key ∈ ev → ¬ Safe known key)
    (hinst : ∀ i, .installed i ∈ ev → .hsDone i.pub i.key ∈ tr) :
    SecretsKept known n' (tr ++ ev) where
  precomp := hpre
  pending := hpend
  sent w hw := by
    rw [wires_append] at hw
    rcases List.mem_append.mp hw with hw | hw
    · exact h.sent w hw
    · exact hsent w hw
  done p key hp hmem := by
    rcases List.mem_append.mp hmem with hmem | hmem
    · exact h.done p key hp hmem
    · exact hdone p key hp hmem
  installed i hi := by
    refine List.mem_append_left _ ?_
    rcases List.mem_append.mp hi with hi | hi
    · exact h.installed i hi
    · exact hinst i hi

end SecretsKept

/-- What a quiet step sends is safe. -/
theorem safe_of_emits {known : Nat → Bool} {ctx : LoopCtx symbolic} {inp : Input symbolic}
    {n : Node symbolic} {ev : List (Event symbolic)} (hev : ∀ e ∈ ev, Emits ctx inp n e) :
    ∀ w ∈ wires ev, Safe known w := by
  intro w hw
  obtain ⟨dst, hmem⟩ := mem_wires.mp hw
  rcases mem_datagrams.mp hmem with hinit | hresp | ⟨d, hd, -, rfl⟩
  · obtain ⟨idx, k, x, -, -, -, rfl⟩ := hev _ hinit
    exact safe_hsPacket ..
  · exact (hev _ hresp).elim
  · obtain ⟨iv, hpkt⟩ := (hev _ hd).pkt
    rw [hpkt]
    exact ⟨trivial, fun _ => trivial⟩

/-- Steps that generate hidden ephemeral keys keep the secrets, whatever arrives. -/
theorem secretsKept_preserves (known : Nat → Bool) (ctx : LoopCtx symbolic) :
    Preserves ctx (HidesKeys known) (fun _ _ _ => True) (SecretsKept known) := by
  constructor
  case quiet =>
    intro inp n tr ev n' hA hI hq
    refine hI.grow ?_ ?_ (safe_of_emits hq.emits) ?_ ?_
    · rw [hq.precomp]
      exact hI.precomp
    · intro j hj
      rw [hq.config_pub]
      rcases hq.pending j hj with hold | hnew
      · rw [hold] at hj ⊢
        exact hI.pending j hj
      · obtain ⟨e, x, hoffer, hx, hst⟩ := hnew.hsState
        refine ⟨e, hA e hoffer, ?_⟩
        rw [hst]
        exact (Option.some.inj hx).symm
    · intro p key _ hmem
      exact (hq.emits _ hmem).elim
    · intro i hi
      exact (hq.emits _ hi).elim
  case accept =>
    rintro d n tr r s dl - - hI - - hdl
    refine hI.grow hI.precomp hI.pending ?_ ?_ ?_
    all_goals rcases hdl with rfl | ⟨f, rfl⟩ <;> simp [wires, datagrams]
  case answer =>
    rintro d n tr resp - - hI - hresp
    refine hI.grow hI.precomp hI.pending ?_ (by simp) (by simp)
    intro w hw
    obtain rfl : w = resp := by simpa [wires, datagrams] using hw
    obtain ⟨ini, e, y, -, -, -, -, rfl, -⟩ := handshakeServerRespond_sent hresp
    exact safe_hsPacket ..
  case initiator =>
    rintro d n tr j input - - hI hp hi
    obtain ⟨hact, -⟩ := pendingFrom_eq_some hp
    refine hI.grow hI.precomp ?_ (by simp [wires, datagrams]) ?_ (by simp)
    · intro i hi'
      by_cases hij : i = j
      · subst hij
        rw [Node.setPending_pendingHs, Function.update_self] at hi'
        cases hi'
      · rw [Node.setPending_pendingHs, Function.update_of_ne hij] at hi' ⊢
        exact hI.pending i hi'
    · intro p key hp' hmem
      obtain ⟨hpub, rfl⟩ := Event.hsDone.inj (List.mem_singleton.mp hmem)
      obtain ⟨e, he, hst⟩ := hI.pending j hact
      rw [← hpub] at hst hi
      exact client_key_not_safe he hp' hst hi
  case responder =>
    rintro d n tr₀ tr pub key hA - - hI - hdone
    refine hI.grow ?_ ?_ (by simp [wires, datagrams]) ?_ (by simp)
    · intro e he
      cases hfresh : d.fresh with
      | none =>
          rw [hfresh] at he
          exact hI.precomp e he
      | some k =>
          rw [hfresh] at he
          obtain rfl := Option.some.inj he
          exact hA _ hfresh
    · intro j hj
      simp only [refreshPrecompEph_pendingHs, Node.config, refreshPrecompEph_peerConfigs] at hj ⊢
      exact hI.pending j hj
    · intro p key' hp' hmem
      obtain ⟨hpub, rfl⟩ := Event.hsDone.inj (List.mem_singleton.mp hmem)
      rw [← hpub] at hdone
      exact server_key_not_safe hI.precomp hp' hdone
  case install =>
    rintro d n₀ tr₀ n tr pub key i tb cfg out - - - - - hI - hdone -
    refine hI.grow hI.precomp hI.pending (by simp [wires, datagrams]) (by simp) ?_
    intro e he
    obtain rfl := Event.installed.inj (List.mem_singleton.mp he)
    exact hdone

/-! ## Secrecy -/

/-- What the attacker sees of two honest nodes is safe. -/
theorem safe_knowledge {known : Nat → Bool} {ctxN ctxP : LoopCtx symbolic}
    {pskN pskP : Option (List UInt8)} (hpskN : ctxN.pskKey = pskN.map deriveKey)
    (hpskP : ctxP.pskKey = pskP.map deriveKey) {n m : Node symbolic}
    {trN trP : List (Event symbolic)} (hN : SecretsKept known n trN)
    (hP : SecretsKept known m trP) : ∀ t ∈ knowledge ctxN ctxP trN trP, Safe known t := by
  have hpsk : ∀ {psk : Option (List UInt8)} {t : Msg}, psk.map deriveKey = some t →
      Safe known t := by
    intro psk t ht
    obtain ⟨str, -, rfl⟩ := Option.map_eq_some_iff.mp ht
    trivial
  rintro t (ht | ht | ⟨k, rfl⟩ | ht | ht)
  · exact hN.sent t ht
  · exact hP.sent t ht
  · exact Term.safe_pub k
  · exact hpsk (hpskN.symm.trans ht)
  · exact hpsk (hpskP.symm.trans ht)

/-- **Session keys stay secret.** Let `known` be the private keys the attacker knows: any but
the static key of the second node and the ephemeral keys the two nodes generate. In every run
of the two, whatever datagrams they are sent, no session key that the first node installs for
the second, as initiator or as responder, can be derived from all that the attacker sees. -/
theorem session_key_secret (known : Nat → Bool) (ctxN ctxP : LoopCtx symbolic)
    (pskN pskP : Option (List UInt8)) (hpskN : ctxN.pskKey = pskN.map deriveKey)
    (hpskP : ctxP.pskKey = pskP.map deriveKey) (cfgsN cfgsP : List (PeerConfig symbolic))
    (freshN freshP : Option Nat) (is : List (Input symbolic ⊕ Input symbolic))
    (hstatic : known ctxP.staticKey = false)
    (hN : ∀ e, freshN = some e → known e = false) (hP : ∀ e, freshP = some e → known e = false)
    (hfresh : ∀ inp ∈ is, Sum.elim (HidesKeys known) (HidesKeys known) inp) :
    ∀ i ∈ installs (left ((network ctxN ctxP).run
        (networkInit ctxN ctxP cfgsN cfgsP freshN freshP) is)).2,
      i.pub = ctxP.staticPub →
      ¬ Derives known (knowledge ctxN ctxP
        (left ((network ctxN ctxP).run (networkInit ctxN ctxP cfgsN cfgsP freshN freshP) is)).2
        (right ((network ctxN ctxP).run (networkInit ctxN ctxP cfgsN cfgsP freshN freshP) is)).2)
        i.key := by
  have hinv := Machine.pair_invariant
    (I := fun a b => SecretsKept known a.1 a.2 ∧ SecretsKept known b.1 b.2) ?_ ?_ ?_
    ((network ctxN ctxP).along_of_mem hfresh (networkInit ctxN ctxP cfgsN cfgsP freshN freshP))
  · obtain ⟨hkeptN, hkeptP⟩ := hinv
    intro i hi hpub hder
    have hdone := hkeptN.installed i (mem_installs.mp hi)
    rw [hpub] at hdone
    have hsafe := hder.safe (safe_knowledge hpskN hpskP hkeptN hkeptP)
    exact hkeptN.done _ _ hstatic hdone hsafe
  · intro c inp hI hG
    exact ⟨(secretsKept_preserves known ctxN).step hG (fun _ _ => trivial) hI.1, hI.2⟩
  · intro c inp hI hG
    exact ⟨hI.1, (secretsKept_preserves known ctxP).step hG (fun _ _ => trivial) hI.2⟩
  · exact ⟨SecretsKept.init hN, SecretsKept.init hP⟩

/-! Node `1` connects to node `2`, and the attacker to node `1`, as peer `3`. -/

/-- The attacker has the static keys of nodes `1` and `3`, and an ephemeral key of its own. -/
def attackerKeys (k : Nat) : Bool := decide (k = 1 ∨ k = 3 ∨ k = 5)

def attackedRun : List (Input symbolic ⊕ Input symbolic) :=
  [.inl (arrival (addrOf 3) (initiationOf 3 1 5) 900 101),
    .inl (passAt 1000 11),
    .inr (arrival (addrOf 1) (initiationOf 1 2 11) 1001 201),
    .inl (arrival (addrOf 2) (responseOf 2 11 200) 1002 102)]

def attackedStart : (network (ctxOf 1) (ctxOf 2)).Config :=
  networkInit (ctxOf 1) (ctxOf 2) [endpointOf 2, peerOf 3] [peerOf 1] (some 100) (some 200)

theorem session_key_secret_attackedRun :
    (installs (left ((network (ctxOf 1) (ctxOf 2)).run attackedStart attackedRun)).2).map
      Install.pub = [Msg.pub 3, Msg.pub 2] ∧
    ∀ i ∈ installs (left ((network (ctxOf 1) (ctxOf 2)).run attackedStart attackedRun)).2,
      i.pub = Msg.pub 2 →
      ¬ Derives attackerKeys (knowledge (ctxOf 1) (ctxOf 2)
        (left ((network (ctxOf 1) (ctxOf 2)).run attackedStart attackedRun)).2
        (right ((network (ctxOf 1) (ctxOf 2)).run attackedStart attackedRun)).2) i.key := by
  have hkeys : ∀ inp ∈ attackedRun,
      Sum.elim (HidesKeys attackerKeys) (HidesKeys attackerKeys) inp := by
    intro inp hinp
    simp only [attackedRun, List.mem_cons, List.not_mem_nil, or_false] at hinp
    rcases hinp with rfl | rfl | rfl | rfl
    · rintro e ⟨rfl⟩; rfl
    · rintro e ⟨idx, ⟨rfl⟩⟩; rfl
    · rintro e ⟨rfl⟩; rfl
    · rintro e ⟨rfl⟩; rfl
  refine ⟨by decide +kernel, ?_⟩
  exact session_key_secret attackerKeys (ctxOf 1) (ctxOf 2) none none rfl rfl _ _ _ _
    attackedRun rfl (by rintro e ⟨rfl⟩; rfl) (by rintro e ⟨rfl⟩; rfl) hkeys

end Lanecove
