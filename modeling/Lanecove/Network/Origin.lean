import Lanecove.Safety.KeyOwnership

set_option autoImplicit false

/-! # Where accepted data comes from

Two nodes on a network that may do anything with datagrams except produce a ciphertext that
decrypts under a key the two share. Whatever one of them accepts under such a key was then
produced by `forward_to_peer` of one of the two, for the other (`accepted_from_pair`).

It need not have been the other one. Both directions use one key, and neither the frame nor
the nonce says who sent it: `reflected_datagram_accepted` sends a node its own datagram back.
-/

namespace Lanecove

open Machine (left right)

variable {S : Suite}

/-- Two nodes, in any interleaving of their steps. -/
abbrev network (ctxA ctxP : LoopCtx S) :
    Machine (Node S × Node S) (Input S ⊕ Input S) (Event S ⊕ Event S) :=
  (node ctxA).pair (node ctxP)

section Network

variable (ctxA ctxP : LoopCtx S) (trA trP : List (Event S))

/-- The keys one of the two derived in a handshake with the other. -/
def sharedKeys : List S.Block :=
  ((completed trA).filter fun r => decide (r.1 = ctxP.staticPub)).map Prod.snd ++
    ((completed trP).filter fun r => decide (r.1 = ctxA.staticPub)).map Prod.snd

/-- The data datagrams the two have sent. -/
def dataWires : List S.Wire :=
  (sendings trA).map Sending.pkt ++ (sendings trP).map Sending.pkt

/-- The datagram is no forgery under a key the two share. -/
def Genuine (pkt : S.Wire) : Prop :=
  ∀ k ∈ sharedKeys ctxA ctxP trA trP, (S.decryptPacket k pkt).isSome = true →
    pkt ∈ dataWires trA trP

/-- What one would like: every packet accepted from the second node was sent by it, for the
first, and is no packet of the first. -/
def OriginAuthentic : Prop :=
  ∀ r ∈ receipts trA, r.pub = ctxP.staticPub →
    (∃ d ∈ sendings trP, d.pub = ctxA.staticPub ∧ d.pkt = r.pkt ∧ d.payload = r.payload) ∧
    ∀ d ∈ sendings trA, d.pkt ≠ r.pkt

/-- The payload was produced by `forward_to_peer`: by the second node for the first, or by the
first for the second. -/
def ProducedByPair (r : Receipt S) : Prop :=
  ∃ d : Sending S, d.key = r.key ∧ d.pkt = r.pkt ∧ d.seq = r.seq ∧ d.payload = r.payload ∧
    (d ∈ sendings trP ∧ d.pub = ctxA.staticPub ∨ d ∈ sendings trA ∧ d.pub = ctxP.staticPub)

/-- What the first node accepted from the second: the keys of packets under the current key of
a session with it were negotiated with it, and all packets under such keys were produced by
the two. -/
structure OriginKnown : Prop where
  current : ∀ r ∈ receipts trA, r.pub = ctxP.staticPub → r.usedPrev = false →
    (ctxP.staticPub, r.key) ∈ completed trA
  produced : ∀ r ∈ receipts trA, (ctxP.staticPub, r.key) ∈ completed trA →
    ProducedByPair ctxA ctxP trA trP r

variable {ctxA ctxP trA trP}

/-- AES-GCM is unforgeable: the network delivers, to either node and from any source address,
no forgery under a key the two share. It is free in everything else. -/
def Unforged (c : (network ctxA ctxP).Config) : Input S ⊕ Input S → Prop
  | .inl (.udp d) => Genuine ctxA ctxP (left c).2 (right c).2 d.pkt
  | .inr (.udp d) => Genuine ctxA ctxP (left c).2 (right c).2 d.pkt
  | _ => True

instance [DecidableEq S.Wire] (pkt : S.Wire) : Decidable (Genuine ctxA ctxP trA trP pkt) :=
  inferInstanceAs (Decidable (∀ k ∈ sharedKeys ctxA ctxP trA trP, _ → _))

instance [DecidableEq S.Wire] (c : (network ctxA ctxP).Config) :
    ∀ inp, Decidable (Unforged c inp)
  | .inl (.udp d) => inferInstanceAs (Decidable (Genuine ctxA ctxP (left c).2 (right c).2 d.pkt))
  | .inr (.udp d) => inferInstanceAs (Decidable (Genuine ctxA ctxP (left c).2 (right c).2 d.pkt))
  | .inl (.tun ..) => isTrue trivial
  | .inr (.tun ..) => isTrue trivial
  | .inl (.housekeeping _) => isTrue trivial
  | .inr (.housekeeping _) => isTrue trivial

end Network

/-! ## The invariant -/

/-- A key negotiated by one node with another is one the other negotiated with it. -/
theorem Negotiated.symm {ctxA ctxP : LoopCtx S} {key : S.Block}
    (h : Negotiated ctxA ctxP.staticPub key) : Negotiated ctxP ctxA.staticPub key := by
  obtain ⟨input, hkey, ⟨hc, hs⟩ | ⟨hc, hs⟩⟩ := h
  · exact ⟨input, hkey, .inr ⟨hc, hs⟩⟩
  · exact ⟨input, hkey, .inl ⟨hc, hs⟩⟩

section Relay

variable {ctxA ctxP : LoopCtx S} {trA trP : List (Event S)}

theorem mem_sharedKeys {k : S.Block} (h : .hsDone ctxP.staticPub k ∈ trA) :
    k ∈ sharedKeys ctxA ctxP trA trP := by
  refine List.mem_append_left _ (List.mem_map.mpr ⟨(ctxP.staticPub, k), ?_, rfl⟩)
  exact List.mem_filter.mpr ⟨mem_completed.mpr h, by simp⟩

theorem mem_dataWires {pkt : S.Wire} :
    pkt ∈ dataWires trA trP ↔
      ∃ d : Sending S, d.pkt = pkt ∧ (.dataSent d ∈ trA ∨ .dataSent d ∈ trP) := by
  simp only [dataWires, List.mem_append, List.mem_map, mem_sendings]
  constructor
  · rintro (⟨d, hd, rfl⟩ | ⟨d, hd, rfl⟩)
    · exact ⟨d, rfl, .inl hd⟩
    · exact ⟨d, rfl, .inr hd⟩
  · rintro ⟨d, rfl, hd | hd⟩
    · exact .inl ⟨d, hd, rfl⟩
    · exact .inr ⟨d, hd, rfl⟩

theorem dataWires_mono {trA' trP' : List (Event S)} (hA : trA ⊆ trA') (hP : trP ⊆ trP') :
    dataWires trA trP ⊆ dataWires trA' trP' := by
  intro pkt hpkt
  obtain ⟨d, rfl, hd⟩ := mem_dataWires.mp hpkt
  exact mem_dataWires.mpr ⟨d, rfl, hd.imp (fun h => hA h) (fun h => hP h)⟩

/-- What the first node accepted under a key negotiated with the second was relayed. -/
def Relayed (ctxA ctxP : LoopCtx S) (trA trP : List (Event S)) : Prop :=
  ∀ r, .accepted r ∈ trA → Negotiated ctxA ctxP.staticPub r.key → r.pkt ∈ dataWires trA trP

/-- The first trace grows without an accepted packet. -/
theorem Relayed.grow (h : Relayed ctxA ctxP trA trP) {ev : List (Event S)}
    (hev : ∀ r, .accepted r ∉ ev) : Relayed ctxA ctxP (trA ++ ev) trP := by
  intro r hr hkey
  rcases List.mem_append.mp hr with hr | hr
  · exact dataWires_mono (List.subset_append_left _ _) (List.Subset.refl _) (h r hr hkey)
  · exact absurd hr (hev r)

/-- A step of the first node, while the second waits. -/
theorem relayed_preserves (hS : S.HashInjective) (ctxA ctxP : LoopCtx S) (trP : List (Event S)) :
    Preserves ctxA (fun _ => True) (fun _ tr d => Genuine ctxA ctxP tr trP d.pkt)
      (fun n tr => KeyInv (fun _ _ => True) ctxA n tr ∧ Relayed ctxA ctxP tr trP) := by
  have hkeys : Preserves ctxA (fun _ => True) (fun _ tr d => Genuine ctxA ctxP tr trP d.pkt)
      (KeyInv (fun _ _ => True) ctxA) :=
    keyInv_preserves (fun _ => trivial) ctxA fun _ _ _ _ _ _ _ _ _ => trivial
  constructor
  case quiet =>
    rintro inp n tr ev n' - ⟨hI, hrel⟩ hq
    refine ⟨hkeys.quiet trivial hI hq, hrel.grow ?_⟩
    intro r hr
    exact hq.emits _ hr
  case accept =>
    rintro d n tr r s dl - hG ⟨hI, hrel⟩ hf hr hdl
    have hI' := hkeys.accept trivial hG hI hf hr hdl
    refine ⟨hI', ?_⟩
    intro r' hr' hkey
    have hgrow := dataWires_mono (List.subset_append_left tr (.accepted r :: dl))
      (List.Subset.refl trP)
    rcases List.mem_append.mp hr' with hold | hnew
    · exact hgrow (hrel r' hold hkey)
    · obtain rfl : r' = r := by
        rcases hdl with rfl | ⟨f, rfl⟩ <;> simpa using hnew
      -- the key was negotiated with some peer; there is only one peer it can be
      obtain ⟨⟨q, -, hdone⟩, -, plain, hplain, -⟩ := hI'.accepted r' hr'
      obtain rfl := (hI'.negotiated q _ hdone).remote_eq hS hkey
      have hmem : .hsDone ctxP.staticPub r'.key ∈ tr := by
        rcases hdl with rfl | ⟨f, rfl⟩ <;> simpa using hdone
      have hpkt : r'.pkt = d.pkt := (receive_eq_some hr).2.2.1
      rw [hpkt] at hplain ⊢
      exact hgrow (hG r'.key (mem_sharedKeys hmem) (by rw [hplain]; rfl))
  case answer =>
    rintro d n tr resp - hG ⟨hI, hrel⟩ hp hr
    exact ⟨hkeys.answer trivial hG hI hp hr, hrel.grow (by simp)⟩
  case initiator =>
    rintro d n tr j input - hG ⟨hI, hrel⟩ hp hi
    exact ⟨hkeys.initiator trivial hG hI hp hi, hrel.grow (by simp)⟩
  case responder =>
    rintro d n tr₀ tr pub key - hG htr ⟨hI, hrel⟩ hp hd
    exact ⟨hkeys.responder trivial hG htr hI hp hd, hrel.grow (by simp)⟩
  case install =>
    rintro d n₀ tr₀ n tr pub key i tb cfg out - hG hpeer htb htr ⟨hI, hrel⟩ hin hdone hal
    exact ⟨hkeys.install trivial hG hpeer htb htr hI hin hdone hal,
      hrel.grow (by simp)⟩

/-- The sender of a relayed datagram, once both nodes' keys are accounted for. -/
theorem producedByPair (hL : S.Lawful) (hO : S.OneKey) (hS : S.HashInjective) {n m : Node S}
    (hA : KeyInv (fun _ _ => True) ctxA n trA) (hP : KeyInv (fun _ _ => True) ctxP m trP)
    (hrel : Relayed ctxA ctxP trA trP) {r : Receipt S} (hr : .accepted r ∈ trA)
    (hdone : .hsDone ctxP.staticPub r.key ∈ trA) : ProducedByPair ctxA ctxP trA trP r := by
  have hkey := hA.negotiated _ _ hdone
  obtain ⟨-, -, plain, hplain, hframe⟩ := hA.accepted r hr
  obtain ⟨d, hpkt, hsent⟩ := mem_dataWires.mp (hrel r hr hkey)
  -- a datagram decrypts under one key only, to the frame it was made from
  have hsame : (∃ iv, d.pkt = S.encryptPacket d.key iv (frame d.seq d.payload)) →
      d.key = r.key ∧ d.seq = r.seq ∧ d.payload = r.payload := by
    rintro ⟨iv, henc⟩
    have hdec : S.decryptPacket d.key r.pkt = some (frame d.seq d.payload) := by
      rw [← hpkt, henc]
      exact hL.decrypt_encrypt ..
    have hk := hO _ _ _ _ _ hdec hplain
    rw [hk, hplain] at hdec
    rw [Option.some.inj hdec, unframe_frame] at hframe
    obtain ⟨hseq, hpay⟩ := Prod.mk.inj (Option.some.inj hframe)
    exact ⟨hk, hseq, hpay⟩
  rcases hsent with hd | hd
  · obtain ⟨hown, henc⟩ := hA.sent d hd
    obtain ⟨hk, hseq, hpay⟩ := hsame henc
    have hneg := hA.negotiated _ _ hown
    rw [hk] at hneg
    exact ⟨d, hk, hpkt, hseq, hpay, .inr ⟨mem_sendings.mpr hd, hneg.remote_eq hS hkey⟩⟩
  · obtain ⟨hown, henc⟩ := hP.sent d hd
    obtain ⟨hk, hseq, hpay⟩ := hsame henc
    have hneg := hP.negotiated _ _ hown
    rw [hk] at hneg
    exact ⟨d, hk, hpkt, hseq, hpay, .inl ⟨mem_sendings.mpr hd, hneg.remote_eq hS hkey.symm⟩⟩

end Relay

/-- Two nodes at the start. -/
def networkInit (ctxA ctxP : LoopCtx S) (cfgsA cfgsP : List (PeerConfig S))
    (freshA freshP : Option S.Priv) : (network ctxA ctxP).Config :=
  ((Node.init cfgsA freshA, Node.init cfgsP freshP), [])

/-- **Origin of accepted data.** In every run of two nodes on a network that cannot forge,
whatever the first accepts on a session with the second under the session's current key, or
under any other key it negotiated with the second, is a payload that `forward_to_peer`
produced: at the second node for the first, or at the first node for the second. -/
theorem accepted_from_pair (hL : S.Lawful) (hO : S.OneKey) (hS : S.HashInjective)
    (ctxA ctxP : LoopCtx S) (cfgsA cfgsP : List (PeerConfig S)) (freshA freshP : Option S.Priv)
    (is : List (Input S ⊕ Input S))
    (hrun : (network ctxA ctxP).Along Unforged
      (networkInit ctxA ctxP cfgsA cfgsP freshA freshP) is) :
    OriginKnown ctxA ctxP
      (left ((network ctxA ctxP).run (networkInit ctxA ctxP cfgsA cfgsP freshA freshP) is)).2
      (right ((network ctxA ctxP).run (networkInit ctxA ctxP cfgsA cfgsP freshA freshP) is)).2 := by
  have hinv := Machine.pair_invariant
    (I := fun a b => (KeyInv (fun _ _ => True) ctxA a.1 a.2 ∧ Relayed ctxA ctxP a.2 b.2) ∧
      KeyInv (fun _ _ => True) ctxP b.1 b.2) ?_ ?_ ?_ hrun
  · obtain ⟨⟨hA, hrel⟩, hP⟩ := hinv
    constructor
    · intro r hr hpub hcur
      obtain ⟨-, hown, -⟩ := hA.accepted r (mem_receipts.mp hr)
      rw [← hpub]
      exact mem_completed.mpr (hown hcur)
    · intro r hr hdone
      exact producedByPair hL hO hS hA hP hrel (mem_receipts.mp hr) (mem_completed.mp hdone)
  · intro c inp hI hG
    refine ⟨(relayed_preserves hS ctxA ctxP (right c).2).step trivial ?_ hI.1, hI.2⟩
    rintro d rfl
    exact hG
  · intro c inp hI hG
    have hkeys : Preserves ctxP (fun _ => True) (fun _ _ _ => True)
        (KeyInv (fun _ _ => True) ctxP) :=
      keyInv_preserves (fun _ => trivial) ctxP fun _ _ _ _ _ _ _ _ _ => trivial
    refine ⟨⟨hI.1.1, ?_⟩, hkeys.step trivial (fun _ _ => trivial) hI.2⟩
    intro r hr hkey
    exact dataWires_mono (List.Subset.refl _) (List.subset_append_left _ _) (hI.1.2 r hr hkey)
  · exact ⟨⟨KeyInv.init _ ctxA cfgsA freshA, by rintro r ⟨⟩⟩, KeyInv.init _ ctxP cfgsP freshP⟩

/-! Node `2` connects to node `1`; each routes all packets to the other. -/

/-- The peer, with a route for every destination. -/
def routed (cfg : PeerConfig symbolic) : PeerConfig symbolic := { cfg with routes := [⟨0, 0, 0⟩] }

def pairStart : (network (ctxOf 1) (ctxOf 2)).Config :=
  networkInit (ctxOf 1) (ctxOf 2) [routed (peerOf 2)] [routed (endpointOf 1)] (some 100) (some 200)

/-- An IPv4 header from host `a` to host `b`. -/
def ipHeader (a b : UInt8) : List UInt8 :=
  [0x45, 0, 0, 20, 0, 0, 0, 0, 64, 17, 0, 0, 10, 0, 0, a, 10, 0, 0, b]

/-- Node `2` initiates, node `1` answers, node `2` completes the handshake; then both send a
packet. -/
def connectRun : List (Input symbolic ⊕ Input symbolic) :=
  [.inr (passAt 1000 12),
    .inl (arrival (addrOf 2) (initiationOf 2 1 12) 1001 101),
    .inr (arrival (addrOf 1) (responseOf 1 12 100) 1002 201),
    .inl (.tun (ipHeader 1 2) (some []) true 1003),
    .inr (.tun (ipHeader 2 1) (some []) true 1003)]

/-- The packet of node `2` arrives at node `1`. -/
def talkRun : List (Input symbolic ⊕ Input symbolic) :=
  connectRun ++ [.inl (arrival (addrOf 2) (dataOf (keyOf 2 1 12 100) 0 (ipHeader 2 1)) 1004 102)]

theorem accepted_from_pair_talkRun :
    (network (ctxOf 1) (ctxOf 2)).Along Unforged pairStart talkRun ∧
    (receipts (left ((network (ctxOf 1) (ctxOf 2)).run pairStart talkRun)).2).map
      Receipt.payload = [ipHeader 2 1] ∧
    OriginKnown (ctxOf 1) (ctxOf 2)
      (left ((network (ctxOf 1) (ctxOf 2)).run pairStart talkRun)).2
      (right ((network (ctxOf 1) (ctxOf 2)).run pairStart talkRun)).2 := by
  have hrun : (network (ctxOf 1) (ctxOf 2)).Along Unforged pairStart talkRun := by decide +kernel
  refine ⟨hrun, by decide +kernel, ?_⟩
  exact accepted_from_pair symbolic_lawful symbolic_oneKey symbolic_hashInjective (ctxOf 1)
    (ctxOf 2) _ _ _ _ talkRun hrun

/-- The network sends the packet of node `1` back to it, from the address of node `2`; the
packet of node `2` comes later. -/
def reflectRun : List (Input symbolic ⊕ Input symbolic) :=
  connectRun ++
    [.inl (arrival (addrOf 2) (dataOf (keyOf 2 1 12 100) 0 (ipHeader 1 2)) 1004 102),
      .inl (arrival (addrOf 2) (dataOf (keyOf 2 1 12 100) 0 (ipHeader 2 1)) 1005 103)]

/-- Node `1` accepts its own packet as one of node `2`, and its number counts as seen: the
packet that node `2` did send is dropped. -/
theorem reflected_datagram_accepted :
    (network (ctxOf 1) (ctxOf 2)).Along Unforged pairStart reflectRun ∧
    ¬ OriginAuthentic (ctxOf 1) (ctxOf 2)
      (left ((network (ctxOf 1) (ctxOf 2)).run pairStart reflectRun)).2
      (right ((network (ctxOf 1) (ctxOf 2)).run pairStart reflectRun)).2 ∧
    (receipts (left ((network (ctxOf 1) (ctxOf 2)).run pairStart reflectRun)).2).map
      (fun r => (r.pub, r.pkt, r.seq))
      = [(Msg.pub 2, dataOf (keyOf 2 1 12 100) 0 (ipHeader 1 2), 0)] ∧
    (sendings (left ((network (ctxOf 1) (ctxOf 2)).run pairStart reflectRun)).2).map Sending.pkt
      = [dataOf (keyOf 2 1 12 100) 0 (ipHeader 1 2)] ∧
    (sendings (right ((network (ctxOf 1) (ctxOf 2)).run pairStart reflectRun)).2).map Sending.pkt
      = [dataOf (keyOf 2 1 12 100) 0 (ipHeader 2 1)] ∧
    ¬ (((network (ctxOf 1) (ctxOf 2)).run pairStart connectRun).1.1.table.sessions
        ⟨0, by decide⟩).recvSeq.Seen 0 ∧
    (((network (ctxOf 1) (ctxOf 2)).run pairStart reflectRun).1.1.table.sessions
        ⟨0, by decide⟩).recvSeq.Seen 0 := by
  refine ⟨by decide +kernel, ?_, by decide +kernel⟩
  unfold OriginAuthentic
  decide +kernel

end Lanecove
