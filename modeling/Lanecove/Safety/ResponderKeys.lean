import Lanecove.Peer.Fields
import Lanecove.Safety.KeyOwnership

set_option autoImplicit false

/-! # The ephemeral keys of a responder

The identity in a response is encrypted under the hash of an ephemeral secret, with a zero IV.
That is safe if no ephemeral key answers twice. `worker_loop` generates a new key after
`handshake_server_respond` has returned `0`; but the response is sent before the last X25519,
with the static key the client claims to have. If that one fails, the key stays.

So the keys are used once in every run in which the last X25519 succeeds for each initiation that is
answered (`responder_keys_single_use`), and a client that claims a low-order static key gets two
responses with one key (`low_order_client_reuses_key`).
-/

namespace Lanecove

variable {S : Suite}

/-- An answer: the ephemeral key and its secret with the client's ephemeral key. -/
structure Answer (S : Suite) where
  ephKey : S.Priv
  ecdhEph : S.Block

/-- The response that was sent. -/
def Answer.packet (ctx : LoopCtx S) (a : Answer S) : S.Wire :=
  responsePacket ctx.pskKey ctx.staticPub a.ephKey a.ecdhEph

/-- The AES-GCM key `encrypt_identity` used for it. -/
def Answer.gcmKey (a : Answer S) : S.Block := S.sha256 [a.ecdhEph]

theorem ephPubOf_packet (hL : S.Lawful) (ctx : LoopCtx S) (a : Answer S) :
    ephPubOf ctx (a.packet ctx) = some (S.pubOf a.ephKey) := by
  rw [ephPubOf, Answer.packet, hsFields_responsePacket hL]
  rfl

/-- What a step answers. -/
def answers (ctx : LoopCtx S) (n : Node S) : Input S → List (Answer S)
  | .udp d =>
      if responses ((node ctx).step n (.udp d)).2 = [] then []
      else
        match openInitiation d.pkt ctx.pskKey ctx.staticKey, n.precompEphKey with
        | some ini, some e => ((S.x25519 e ini.clientEphPub).map (Answer.mk e)).toList
        | _, _ => []
  | _ => []

/-! ## Responses, step by step -/

/-- The precomputed key after `handshake_server_respond` was called with a datagram. -/
def precompAfter (ctx : LoopCtx S) (n : Node S) (d : Datagram S) : Option S.Priv :=
  match (handshakeServerRespond d.pkt ctx.pskKey ctx.staticKey ctx.staticPub n.precompEphKey
    d.sendOk).done with
  | none => n.precompEphKey
  | some _ => (refreshPrecompEph n d.fresh).precompEphKey

/-- A step sends no response and keeps the precomputed key, or it sends one. -/
inductive ResponseStep (ctx : LoopCtx S) (n : Node S) (inp : Input S) :
    List (Event S) → Node S → Prop
  | silent {ev : List (Event S)} {n' : Node S} (hev : responses ev = [])
      (hpre : n'.precompEphKey = n.precompEphKey) : ResponseStep ctx n inp ev n'
  | sent {d : Datagram S} {resp : S.Wire} {ev : List (Event S)} {n' : Node S}
      (hinp : inp = .udp d) (hev : responses ev = [(d.src, resp)])
      (hp : pendingFrom n d.src = none)
      (hc : inCooldown ctx n.table d.now (findSessionByAddr n.table d.src) = false)
      (hsent : (handshakeServerRespond d.pkt ctx.pskKey ctx.staticKey ctx.staticPub
        n.precompEphKey d.sendOk).sent = some resp)
      (hdone : completed ev = (handshakeServerRespond d.pkt ctx.pskKey ctx.staticKey
        ctx.staticPub n.precompEphKey d.sendOk).done.toList)
      (hpre : n'.precompEphKey = precompAfter ctx n d) : ResponseStep ctx n inp ev n'

theorem responses_eq_nil {ev : List (Event S)} (h : ∀ dst pkt, .respSent dst pkt ∉ ev) :
    responses ev = [] :=
  List.eq_nil_iff_forall_not_mem.mpr fun r hr => h r.1 r.2 (mem_responses.mp hr)

/-- What follows a completed handshake sends nothing and completes nothing. -/
theorem of_installs {ev : List (Event S)} (h : ∀ e ∈ ev, ∃ x, e = .installed x) :
    responses ev = [] ∧ completed ev = [] := by
  refine ⟨responses_eq_nil fun dst pkt hmem => ?_,
    List.eq_nil_iff_forall_not_mem.mpr fun r hr => ?_⟩
  · obtain ⟨x, hx⟩ := h _ hmem
    cases hx
  · obtain ⟨x, hx⟩ := h _ (mem_completed.mp hr)
    cases hx

theorem StepCase.response {ctx : LoopCtx S} {n n' : Node S} {inp : Input S}
    {ev : List (Event S)} (h : StepCase ctx n inp ev n') : ResponseStep ctx n inp ev n' := by
  cases h with
  | quiet h => exact .silent (responses_eq_nil h.works.no_response) h.precomp
  | accept hd hf hr hdl h =>
      have hw := works_of_accept hr hdl h
      exact .silent (responses_eq_nil hw.no_response) hw.precomp
  | @answer d resp hd hp hc hr =>
      refine .sent rfl rfl hp hc (by rw [hr]) (by rw [hr]; rfl) ?_
      rw [precompAfter, hr]
  | initiator hd hp hi =>
      refine .silent (of_installs fun e he => mem_installSession he).1 ?_
      obtain ⟨tb, htb⟩ := installSession_node ctx _ _ _ _ _ true
      rw [htb]
      rfl
  | @responder d resp pub key hd hp hc hr =>
      have hrest : ∀ e ∈ (acceptInitiation ctx (refreshPrecompEph n d.fresh) d pub key).2,
          ∃ x, e = .installed x := fun _ => mem_acceptInitiation
      obtain ⟨hresp, hcomp⟩ := of_installs hrest
      refine .sent rfl ?_ hp hc (by rw [hr]) ?_ ?_
      · show (d.src, resp) :: responses (acceptInitiation ctx _ d pub key).2 = _
        rw [hresp]
      · show (pub, key) :: completed (acceptInitiation ctx _ d pub key).2 = _
        rw [hcomp, hr]
        rfl
      · obtain ⟨tb, htb⟩ := acceptInitiation_node ctx (refreshPrecompEph n d.fresh) d pub key
        rw [htb, precompAfter, hr]

/-- A step that sends a response answers once, and the response is the packet of that answer. -/
theorem answers_of_sent {ctx : LoopCtx S} {n : Node S} {d : Datagram S} {resp : S.Wire}
    (hev : responses ((node ctx).step n (.udp d)).2 = [(d.src, resp)])
    (hsent : (handshakeServerRespond d.pkt ctx.pskKey ctx.staticKey ctx.staticPub n.precompEphKey
      d.sendOk).sent = some resp) :
    ∃ a, answers ctx n (.udp d) = [a] ∧ n.precompEphKey = some a.ephKey ∧ resp = a.packet ctx := by
  obtain ⟨ini, e, ecdhEph, hini, hpre, hx, -, hresp, -⟩ := handshakeServerRespond_sent hsent
  refine ⟨⟨e, ecdhEph⟩, ?_, hpre, hresp⟩
  simp only [answers, hev, List.cons_ne_nil, if_false, hini, hpre, hx, Option.map_some,
    Option.toList_some]

theorem answers_of_silent {ctx : LoopCtx S} {n : Node S} {inp : Input S}
    (hev : responses ((node ctx).step n inp).2 = []) : answers ctx n inp = [] := by
  cases inp with
  | udp d => exact if_pos hev
  | tun packet iv ok now => rfl
  | housekeeping pass => rfl

/-! ## What a run assumes -/

/-- Key generation: whenever an initiation is answered, a new key pair is ready to take the place of
the one that was used, and its public half is neither that of the key in use nor that of an
earlier response. -/
def NextKeyFresh (ctx : LoopCtx S) (c : (node ctx).Config) : Input S → Prop
  | .udp d => (answerTo ctx c.1 d).isSome = true →
      ∃ k ∈ d.fresh, c.1.precompEphKey.map S.pubOf ≠ some (S.pubOf k) ∧
        ∀ r ∈ responses c.2, ephPubOf ctx r.2 ≠ some (S.pubOf k)
  | _ => True

/-- The X25519 of the precomputed key with the static key that an answered initiation claims
succeeds. -/
def LastSecretExists (ctx : LoopCtx S) (n : Node S) : Input S → Prop
  | .udp d => ∀ a ∈ answerTo ctx n d, (S.x25519 a.1 a.2.clientStaticPub).isSome = true
  | _ => True

instance (ctx : LoopCtx S) (c : (node ctx).Config) :
    (inp : Input S) → Decidable (NextKeyFresh ctx c inp)
  | .udp d => inferInstanceAs (Decidable ((answerTo ctx c.1 d).isSome = true →
      ∃ k ∈ d.fresh, c.1.precompEphKey.map S.pubOf ≠ some (S.pubOf k) ∧
        ∀ r ∈ responses c.2, ephPubOf ctx r.2 ≠ some (S.pubOf k)))
  | .tun .. => instDecidableTrue
  | .housekeeping _ => instDecidableTrue

instance (ctx : LoopCtx S) (n : Node S) : (inp : Input S) → Decidable (LastSecretExists ctx n inp)
  | .udp d => inferInstanceAs (Decidable (∀ a ∈ answerTo ctx n d,
      (S.x25519 a.1 a.2.clientStaticPub).isSome = true))
  | .tun .. => instDecidableTrue
  | .housekeeping _ => instDecidableTrue

/-- Different ephemeral keys of the responder had different secrets with the ephemeral keys of
its clients. -/
def SecretsDiffer (w : List (Answer S)) : Prop :=
  w.Pairwise fun a b => S.pubOf a.ephKey ≠ S.pubOf b.ephKey → a.ecdhEph ≠ b.ecdhEph

/-- No ephemeral key answers twice: no two responses carry the same one, and hence no two
identities are encrypted under one AES-GCM key. `w` are the answers behind the responses. -/
structure SingleUse (ctx : LoopCtx S) (tr : List (Event S)) (w : List (Answer S)) : Prop where
  packets : (responses tr).map Prod.snd = w.map (Answer.packet ctx)
  ephemerals : (responses tr).Pairwise fun r r' => ephPubOf ctx r.2 ≠ ephPubOf ctx r'.2
  gcmKeys : S.HashInjective → SecretsDiffer w → (w.map Answer.gcmKey).Nodup

/-! ## The invariant -/

/-- No two answers used one key, and the precomputed key has not been used. -/
structure KeysUnused (ctx : LoopCtx S) (c : (node ctx).Config) (w : List (Answer S)) : Prop where
  packets : (responses c.2).map Prod.snd = w.map (Answer.packet ctx)
  distinct : w.Pairwise fun a b => S.pubOf a.ephKey ≠ S.pubOf b.ephKey
  unused : ∀ e, c.1.precompEphKey = some e → ∀ a ∈ w, S.pubOf a.ephKey ≠ S.pubOf e

/-- What is sent was answered. It completes the handshake if the last secret exists. -/
theorem answerTo_of_sent {ctx : LoopCtx S} {n : Node S} {d : Datagram S} {resp : S.Wire}
    (hp : pendingFrom n d.src = none)
    (hc : inCooldown ctx n.table d.now (findSessionByAddr n.table d.src) = false)
    (hsent : (handshakeServerRespond d.pkt ctx.pskKey ctx.staticKey ctx.staticPub n.precompEphKey
      d.sendOk).sent = some resp) :
    ∃ e ini, answerTo ctx n d = some (e, ini) ∧
      (handshakeServerRespond d.pkt ctx.pskKey ctx.staticKey ctx.staticPub n.precompEphKey
        d.sendOk).done.isSome = (S.x25519 e ini.clientStaticPub).isSome := by
  rcases respond_cases hp hc with ⟨-, hr⟩ | ⟨e, ini, resp', key, hanswered, hr⟩
  · rw [hr] at hsent
    cases hsent
  · refine ⟨e, ini, hanswered, ?_⟩
    rw [hr, Option.isSome_map]

theorem responses_append (tr ev : List (Event S)) :
    responses (tr ++ ev) = responses tr ++ responses ev := List.filterMap_append

theorem KeysUnused.step (hL : S.Lawful) {ctx : LoopCtx S} {c : (node ctx).Config}
    {w : List (Answer S)} {inp : Input S} (h : KeysUnused ctx c w) (hfresh : NextKeyFresh ctx c inp)
    (hlast : LastSecretExists ctx c.1 inp) :
    KeysUnused ctx ((node ctx).next c inp) (w ++ answers ctx c.1 inp) := by
  unfold Machine.next
  rcases (step_cases ctx c.1 inp).response with ⟨hev, hpre⟩ | ⟨rfl, hev, hp, hc, hsent, hdone, hpre⟩
  · rw [answers_of_silent hev, List.append_nil]
    refine ⟨?_, h.distinct, ?_⟩
    · rw [responses_append, hev, List.append_nil]
      exact h.packets
    · intro e he
      exact h.unused e (hpre ▸ he)
  · rename_i d resp
    obtain ⟨a, ha, hkey, hpkt⟩ := answers_of_sent hev hsent
    obtain ⟨e, ini, hanswered, hcomp⟩ := answerTo_of_sent hp hc hsent
    obtain ⟨k, hk, hcur, hearlier⟩ := hfresh (by rw [hanswered]; rfl)
    -- the key was replaced, because the handshake was completed
    have hnew : ((node ctx).step c.1 (.udp d)).1.precompEphKey = some k := by
      rw [hpre, precompAfter]
      rw [hlast (e, ini) hanswered] at hcomp
      split
      · rename_i hnone
        rw [hnone] at hcomp
        cases hcomp
      · rw [show d.fresh = some k from hk]
        rfl
    rw [ha]
    refine ⟨?_, ?_, ?_⟩
    · rw [responses_append, hev, List.map_append, List.map_append, h.packets, hpkt]
      rfl
    · refine List.pairwise_append.mpr ⟨h.distinct, List.pairwise_singleton _ _, ?_⟩
      intro x hx y hy
      rw [List.mem_singleton.mp hy]
      exact h.unused a.ephKey hkey x hx
    · intro e he x hx
      obtain rfl : k = e := Option.some.inj (hnew.symm.trans he)
      rcases List.mem_append.mp hx with hx | hx
      · -- an earlier answer: its response carries its key
        have hmem : x.packet ctx ∈ (responses c.2).map Prod.snd := by
          rw [h.packets]
          exact List.mem_map_of_mem hx
        obtain ⟨r, hr, hrx⟩ := List.mem_map.mp hmem
        have hdiff := hearlier r hr
        rw [hrx, ephPubOf_packet hL] at hdiff
        exact fun heq => hdiff (congrArg some heq)
      · rw [List.mem_singleton.mp hx]
        rw [hkey, Option.map_some] at hcur
        exact fun heq => hcur (congrArg some heq)

/-- What the invariant means for the responses. -/
theorem KeysUnused.singleUse (hL : S.Lawful) {ctx : LoopCtx S} {c : (node ctx).Config}
    {w : List (Answer S)} (h : KeysUnused ctx c w) : SingleUse ctx c.2 w := by
  refine ⟨h.packets, ?_, ?_⟩
  · have hdist : (w.map (Answer.packet ctx)).Pairwise
        fun p q => ephPubOf ctx p ≠ ephPubOf ctx q := by
      refine List.pairwise_map.mpr (h.distinct.imp fun {a b} hab => ?_)
      rw [ephPubOf_packet hL, ephPubOf_packet hL]
      exact fun heq => hab (Option.some.inj heq)
    rw [← h.packets, List.pairwise_map] at hdist
    exact hdist
  · intro hS hdiff
    refine List.pairwise_map.mpr ((h.distinct.and hdiff).imp fun {a b} hab heq => ?_)
    exact hab.2 hab.1 (List.cons.inj (hS heq)).1

/-- **Responder keys are single-use.** In every run in which key generation succeeds with fresh
pairs, and the last X25519 succeeds for each initiation that is answered, no two responses carry
the same ephemeral public key; and if different ephemeral keys have different secrets and SHA-256
has no collisions, no two are encrypted under the same AES-GCM key. -/
theorem responder_keys_single_use (hL : S.Lawful) (ctx : LoopCtx S) (cfgs : List (PeerConfig S))
    (fresh : Option S.Priv) (is : List (Input S))
    (hrun : (node ctx).Along (fun c inp => NextKeyFresh ctx c inp ∧ LastSecretExists ctx c.1 inp)
      (Node.init cfgs fresh, []) is) :
    SingleUse ctx ((node ctx).run (Node.init cfgs fresh, []) is).2
      ((node ctx).log (answers ctx) (Node.init cfgs fresh, []) is) := by
  have hinit : KeysUnused ctx (Node.init cfgs fresh, []) [] := ⟨rfl, List.Pairwise.nil, nofun⟩
  have hinv := (node ctx).invariant_log (f := answers ctx) (I := KeysUnused ctx)
    (fun c w inp h hG => h.step hL hG.1 hG.2) is _ [] hinit hrun
  rw [List.nil_append] at hinv
  exact hinv.singleUse hL

/-! ## A low-order static key

In `lowOrder` the X25519 with the zero block fails, as its secret would be zero. Everything else
is as in the symbolic suite. -/

@[reducible] def lowOrder : Suite :=
  { symbolic with x25519 := fun n t => if t = Term.nil then none else some (Term.exp n t) }

theorem lowOrder_lawful : lowOrder.Lawful where
  x25519_comm a b := symbolic_lawful.x25519_comm a b
  x25519_isSome _ _ := rfl
  gcmOpen_gcmSeal := symbolic_lawful.gcmOpen_gcmSeal
  decrypt_encrypt := symbolic_lawful.decrypt_encrypt
  hsFields_hsPacket := symbolic_lawful.hsFields_hsPacket

/-- The responder `1`, without a PSK; its first ephemeral key is `100`. -/
def lowOrderCtx : LoopCtx lowOrder :=
  { Settings.default with staticKey := (1 : Nat), pskKey := none }

def lowOrderStart : (node lowOrderCtx).Config :=
  (Node.init [{ PeerConfig.zero lowOrder with pub := Msg.pub 2 }] (some (100 : Nat)), [])

/-- An initiation with the ephemeral key `ce` of a client that claims the static key `cs`. -/
def claiming (cs : Msg) (ce : Nat) (src : SockAddr) (now : Int) (fresh : Nat) : Input lowOrder :=
  .udp ⟨src, initiationPacket (S := lowOrder) none cs ce (Term.exp ce (Msg.pub 1)), now, now,
    some fresh, true, none⟩

/-- Two clients with static keys of their own, the second of which is not configured. -/
def honestClients : List (Input lowOrder) :=
  [claiming (Msg.pub 2) 12 (addrOf 2) 100 101, claiming (Msg.pub 3) 13 (addrOf 3) 200 102]

theorem responder_keys_single_use_honestClients :
    (responses ((node lowOrderCtx).run lowOrderStart honestClients).2).map
      (fun r => ephPubOf lowOrderCtx r.2) = [some (Msg.pub 100), some (Msg.pub 101)] ∧
    SingleUse lowOrderCtx ((node lowOrderCtx).run lowOrderStart honestClients).2
      ((node lowOrderCtx).log (answers lowOrderCtx) lowOrderStart honestClients) := by
  refine ⟨by decide +kernel, ?_⟩
  exact responder_keys_single_use lowOrder_lawful lowOrderCtx _ _ honestClients
    (by decide +kernel)

/-- A client sends the same initiation twice, with the zero block as its static key. -/
def lowOrderRun : List (Input lowOrder) :=
  [claiming .nil 12 (addrOf 2) 100 101, claiming .nil 12 (addrOf 2) 101 102]

/-- Both are answered with the ephemeral key `100`, although key generation never fails and
never repeats a key. The identity is encrypted twice under one AES-GCM key. -/
theorem low_order_client_reuses_key :
    (∀ (n : Nat) (t : Msg), lowOrder.x25519 n t = none ↔ t = lowOrder.zero) ∧
    (node lowOrderCtx).Along (NextKeyFresh lowOrderCtx) lowOrderStart lowOrderRun ∧
    (responses ((node lowOrderCtx).run lowOrderStart lowOrderRun).2).map
      (fun r => ephPubOf lowOrderCtx r.2) = [some (Msg.pub 100), some (Msg.pub 100)] ∧
    ¬ (((node lowOrderCtx).log (answers lowOrderCtx) lowOrderStart lowOrderRun).map
      Answer.gcmKey).Nodup ∧
    ¬ SingleUse lowOrderCtx ((node lowOrderCtx).run lowOrderStart lowOrderRun).2
      ((node lowOrderCtx).log (answers lowOrderCtx) lowOrderStart lowOrderRun) := by
  have heph : (responses ((node lowOrderCtx).run lowOrderStart lowOrderRun).2).map
      (fun r => ephPubOf lowOrderCtx r.2) = [some (Msg.pub 100), some (Msg.pub 100)] := by
    decide +kernel
  refine ⟨?_, by decide +kernel, heph, by decide +kernel, ?_⟩
  · intro n t
    show (if t = Term.nil then none else some (Term.exp n t)) = none ↔ t = Term.nil
    by_cases ht : t = Term.nil
    · simp [ht]
    · simp [ht]
  · intro h
    have hdist : ((responses ((node lowOrderCtx).run lowOrderStart lowOrderRun).2).map
        (fun r => ephPubOf lowOrderCtx r.2)).Pairwise (· ≠ ·) := List.pairwise_map.mpr h.ephemerals
    rw [heph] at hdist
    exact absurd hdist (by decide)

end Lanecove
