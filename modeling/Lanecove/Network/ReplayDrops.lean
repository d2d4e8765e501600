import Lanecove.Network.Origin
import Lanecove.Safety.SendSequence

set_option autoImplicit false

/-! # No false replay drops

A sender and a receiver on a network that may lose, delay, reorder and duplicate datagrams. The
sender numbers its packets without repetition under each key; the window of the receiver
belongs to the current key of the session and holds only what was accepted under that key. So
what the receiver drops as a replay is a datagram it has accepted, or one that is at least
`windowBits` behind (`no_false_drops`).

That the two counters start anew at different moments of a handshake does no harm: a packet
under the new key is not looked at by the old window, and a packet under the previous key does
not touch the window at all.
-/

namespace Lanecove

open Machine (left right)

variable {S : Suite}

/-! ## The window of a receiver -/

/-- What a window marks was accepted under the current key of its session, or is as far behind a
packet that was. -/
def WindowEarned (n : Node S) (tr : List (Event S)) : Prop :=
  ∀ i, (n.table.sessions i).active = true → ∀ q, (n.table.sessions i).recvSeq.Seen q →
    ∃ r, .accepted r ∈ tr ∧ r.usedPrev = false ∧ r.pub = (n.table.sessions i).staticPub ∧
      r.key = (n.table.sessions i).sessionKey ∧
      (r.seq = q ∨ q.toNat + windowBits ≤ r.seq.toNat)

/-- Steps in which no session is installed and no window moves. -/
theorem WindowEarned.keeps {n n' : Node S} {tr : List (Event S)} (h : WindowEarned n tr)
    (hk : ∀ i, Keeps (n.table.sessions i) (n'.table.sessions i))
    (hw : ∀ i, (n'.table.sessions i).recvSeq = (n.table.sessions i).recvSeq)
    (ev : List (Event S)) : WindowEarned n' (tr ++ ev) := by
  intro i hi q hq
  rw [hw] at hq
  rw [(hk i).staticPub, (hk i).sessionKey]
  obtain ⟨r, hr, hrest⟩ := h i ((hk i).active hi) q hq
  exact ⟨r, List.mem_append_left _ hr, hrest⟩

theorem WindowEarned.accept {n : Node S} {tr : List (Event S)} (h : WindowEarned n tr)
    {r : Receipt S} {s : Session S} {pkt : S.Wire} {now : Int}
    (hr : receive (n.table.sessions r.slot) r.slot pkt now = (s, some r))
    (dl : List (Event S)) : WindowEarned (n.setSession r.slot s) (tr ++ .accepted r :: dl) := by
  intro i hi q hq
  have hk := setSession_keeps (n := n) (receive_keeps hr) i
  rw [hk.staticPub, hk.sessionKey]
  have hold : (n.table.sessions i).recvSeq.Seen q → ∃ r', .accepted r' ∈ tr ++ .accepted r :: dl ∧
      r'.usedPrev = false ∧ r'.pub = (n.table.sessions i).staticPub ∧
      r'.key = (n.table.sessions i).sessionKey ∧
      (r'.seq = q ∨ q.toNat + windowBits ≤ r'.seq.toNat) := by
    intro hseen
    obtain ⟨r', hr', hrest⟩ := h i (hk.active hi) q hseen
    exact ⟨r', List.mem_append_left _ hr', hrest⟩
  by_cases hir : i = r.slot
  · subst hir
    rw [Node.setSession_table, SessionTable.set_sessions_self] at hq
    obtain ⟨-, hpub, -, -, -, ⟨hcur, hkey, w, hw, rfl⟩ | ⟨-, -, -, -, -, rfl⟩⟩ :=
      receive_eq_some hr
    · -- the packet itself is what the window marks now
      rcases (seen_checkReplay hw q).mp hq with hseen | rfl | hfar
      · exact hold hseen
      · exact ⟨r, by simp, hcur, hpub, hkey, .inl rfl⟩
      · exact ⟨r, by simp, hcur, hpub, hkey, .inr hfar⟩
    · exact hold hq
  · rw [Node.setSession_table, SessionTable.set_sessions_ne _ _ hir] at hq
    exact hold hq

theorem WindowEarned.install {ctx : LoopCtx S} {n : Node S} {tr : List (Event S)}
    {d : Datagram S} {i : Fin MAX_PEERS} {tb : SessionTable S} {pub key : S.Block}
    {cfg : PeerConfig S} {out : Bool} (h : WindowEarned n tr)
    (hal : allocSession n.table pub d.src = some (i, tb)) (ev : List (Event S)) :
    WindowEarned (installAt ctx n d i tb pub key cfg out) (tr ++ ev) := by
  intro j hj q hq
  by_cases hji : j = i
  · subst hji
    rw [installAt_sessions_self] at hq
    exact absurd hq (ReplayState.not_seen_zero q)
  · rw [installAt_sessions_ne hal hji] at hj hq ⊢
    obtain ⟨r, hr, hrest⟩ := h j hj q hq
    exact ⟨r, List.mem_append_left _ hr, hrest⟩

/-! ## Receiver and sender -/

section Network

variable {ctxR ctxS : LoopCtx S}

/-- The datagram is one that the sender produced for the receiver. -/
def SentFor (ctxR : LoopCtx S) (trS : List (Event S)) (pkt : S.Wire) : Prop :=
  ∃ d ∈ sendings trS, d.pub = ctxR.staticPub ∧ d.pkt = pkt

/-- Of what decrypts under a key the two share, the receiver gets only what the sender addressed
to it. -/
def ForReceiver (ctxR ctxS : LoopCtx S) (trR trS : List (Event S)) (pkt : S.Wire) : Prop :=
  ∀ k ∈ sharedKeys ctxR ctxS trR trS, (S.decryptPacket k pkt).isSome = true →
    SentFor ctxR trS pkt

/-- The network delivers datagrams only to their addressee; when, in which order and how often is
up to the network. The receiver is the first node. -/
def Addressed (c : (network ctxR ctxS).Config) : Input S ⊕ Input S → Prop
  | .inl (.udp d) => ForReceiver ctxR ctxS (left c).2 (right c).2 d.pkt
  | _ => True

instance [DecidableEq S.Wire] (trR trS : List (Event S)) (pkt : S.Wire) :
    Decidable (ForReceiver ctxR ctxS trR trS pkt) :=
  inferInstanceAs (Decidable (∀ k ∈ sharedKeys ctxR ctxS trR trS, _ →
    ∃ d ∈ sendings trS, d.pub = ctxR.staticPub ∧ d.pkt = pkt))

instance [DecidableEq S.Wire] (c : (network ctxR ctxS).Config) : ∀ inp, Decidable (Addressed c inp)
  | .inl (.udp d) =>
      inferInstanceAs (Decidable (ForReceiver ctxR ctxS (left c).2 (right c).2 d.pkt))
  | .inl (.tun ..) => isTrue trivial
  | .inl (.housekeeping _) => isTrue trivial
  | .inr _ => isTrue trivial

/-- The calls of `forward_to_peer` at the sender, by key. -/
def senderCalls (ctxS : LoopCtx S) (s : Node S × Node S) : Input S ⊕ Input S → List S.Block
  | .inl _ => []
  | .inr inp => forwards ctxS s.2 inp

/-- The node drops the datagram as a replay: it comes from the address of the session in slot
`i`, decrypts under its current key to a frame with number `seq`, and `check_replay` refuses
the number. -/
def DropsAsReplay (ctx : LoopCtx S) (n : Node S) (d : Datagram S) (i : Fin MAX_PEERS)
    (seq : BitVec 64) : Prop :=
  isHandshake ctx d.pkt = false ∧ findSessionByAddr n.table d.src = some i ∧
    (∃ plain payload, S.decryptPacket (n.table.sessions i).sessionKey d.pkt = some plain ∧
      unframe plain = some (seq, payload)) ∧
    checkReplay seq (n.table.sessions i).recvSeq = none

/-- No two packets have the same number under the same key. -/
def NumberedOnce (tr : List (Event S)) : Prop :=
  (sendings tr).Pairwise fun d d' => d.key = d'.key → d.seq ≠ d'.seq

/-- What the receiver drops as a replay on its session with the sender it has accepted before, or
it has accepted, under the same key, a number at least `windowBits` higher. Packets accepted under
a previous key play no part. -/
def NoFalseDrops (c : (network ctxR ctxS).Config) : Prop :=
  ∀ d i seq, Addressed c (.inl (.udp d)) → DropsAsReplay ctxR (left c).1 d i seq →
    ((left c).1.table.sessions i).staticPub = ctxS.staticPub →
    ∃ r ∈ receipts (left c).2, r.usedPrev = false ∧
      r.key = ((left c).1.table.sessions i).sessionKey ∧
      (r.pkt = d.pkt ∨ seq.toNat + windowBits ≤ r.seq.toNat)

/-- The receiver: where its keys come from, what its windows mark, and that the sender produced
what it accepted under a current key of a session with the sender. -/
structure ReceiverInv (ctxR ctxS : LoopCtx S) (trS : List (Event S)) (n : Node S)
    (tr : List (Event S)) : Prop where
  keys : KeyInv (fun _ _ => True) ctxR n tr
  window : WindowEarned n tr
  produced : ∀ r, .accepted r ∈ tr → r.usedPrev = false → r.pub = ctxS.staticPub →
    SentFor ctxR trS r.pkt

theorem receiverInv_preserves (ctxR ctxS : LoopCtx S) (trS : List (Event S)) :
    Preserves ctxR (fun _ => True) (fun _ tr d => ForReceiver ctxR ctxS tr trS d.pkt)
      (ReceiverInv ctxR ctxS trS) := by
  have hkeys : Preserves ctxR (fun _ => True)
      (fun _ tr d => ForReceiver ctxR ctxS tr trS d.pkt) (KeyInv (fun _ _ => True) ctxR) :=
    keyInv_preserves (fun _ => trivial) ctxR fun _ _ _ _ _ _ _ _ _ => trivial
  -- events other than an accepted packet
  have hgrow : ∀ {tr ev : List (Event S)}, (∀ r, .accepted r ∈ tr → r.usedPrev = false →
      r.pub = ctxS.staticPub → SentFor ctxR trS r.pkt) → (∀ r, .accepted r ∉ ev) →
      ∀ r, .accepted r ∈ tr ++ ev → r.usedPrev = false → r.pub = ctxS.staticPub →
        SentFor ctxR trS r.pkt := by
    intro tr ev h hev r hr
    rcases List.mem_append.mp hr with hr | hr
    · exact h r hr
    · exact absurd hr (hev r)
  constructor
  case quiet =>
    intro inp n tr ev n' _ hI hq
    exact ⟨hkeys.quiet trivial hI.keys hq, hI.window.keeps hq.keeps hq.recvSeq ev,
      hgrow hI.produced fun r hr => hq.emits _ hr⟩
  case accept =>
    intro d n tr r s dl _ hG hI hf hr hdl
    refine ⟨hkeys.accept trivial hG hI.keys hf hr hdl, hI.window.accept hr dl, ?_⟩
    intro r' hr' hcur hpub
    rcases List.mem_append.mp hr' with hr' | hr'
    · exact hI.produced r' hr' hcur hpub
    · obtain rfl : r' = r := by
        rcases hdl with rfl | ⟨f, rfl⟩ <;> simpa using hr'
      -- the key of the session was negotiated with the sender
      obtain ⟨-, hact, -⟩ := findSessionByAddr_eq_some hf
      obtain ⟨-, hpub', hpkt, -, ⟨plain, hplain, -⟩, -⟩ := receive_eq_some hr
      obtain ⟨hkey, -⟩ := receive_of_current hr hcur
      have hdone := hI.keys.current r'.slot hact
      rw [← hpub', ← hkey, hpub] at hdone
      rw [hpkt]
      exact hG r'.key (mem_sharedKeys hdone) (by rw [hplain]; rfl)
  case answer =>
    intro d n tr resp _ hG hI hp hr
    exact ⟨hkeys.answer trivial hG hI.keys hp hr,
      hI.window.keeps (fun _ => Keeps.refl _) (fun _ => rfl) _, hgrow hI.produced (by simp)⟩
  case initiator =>
    intro d n tr j input _ hG hI hp hi
    exact ⟨hkeys.initiator trivial hG hI.keys hp hi,
      hI.window.keeps (fun _ => Keeps.refl _) (fun _ => rfl) _, hgrow hI.produced (by simp)⟩
  case responder =>
    intro d n tr₀ tr pub key _ hG htr hI hp hd
    refine ⟨hkeys.responder trivial hG htr hI.keys hp hd, ?_, hgrow hI.produced (by simp)⟩
    refine hI.window.keeps ?_ ?_ _
    · intro i
      rw [refreshPrecompEph_table]
      exact Keeps.refl _
    · intro i
      rw [refreshPrecompEph_table]
  case install =>
    intro d n₀ tr₀ n tr pub key i tb cfg out _ hG hpeer htb htr hI hin hdone hal
    exact ⟨hkeys.install trivial hG hpeer htb htr hI.keys hin hdone hal, hI.window.install hal _,
      hgrow hI.produced (by simp)⟩

/-- What was sent under a key is what decrypts under it. -/
theorem sent_of_decrypts (hL : S.Lawful) (hO : S.OneKey) {n : Node S} {tr : List (Event S)}
    (h : KeyInv (fun _ _ => True) ctxS n tr) {d : Sending S} (hd : .dataSent d ∈ tr)
    {key : S.Block} {plain payload : List UInt8} {seq : BitVec 64}
    (hdec : S.decryptPacket key d.pkt = some plain) (hun : unframe plain = some (seq, payload)) :
    d.key = key ∧ d.seq = seq := by
  obtain ⟨-, iv, henc⟩ := h.sent d hd
  have hown : S.decryptPacket d.key d.pkt = some (frame d.seq d.payload) := by
    rw [henc]
    exact hL.decrypt_encrypt ..
  have hkey := hO _ _ _ _ _ hown hdec
  rw [hkey, hdec] at hown
  rw [Option.some.inj hown, unframe_frame] at hun
  exact ⟨hkey, (Prod.mk.inj (Option.some.inj hun)).1⟩

/-- The receiver's half of a step of the network. -/
theorem receiverInv_next {c : (network ctxR ctxS).Config}
    (h : ReceiverInv ctxR ctxS (right c).2 (left c).1 (left c).2) (inp : Input S ⊕ Input S)
    (hG : Addressed c inp) :
    ReceiverInv ctxR ctxS (right ((network ctxR ctxS).next c inp)).2
      (left ((network ctxR ctxS).next c inp)).1 (left ((network ctxR ctxS).next c inp)).2 := by
  cases inp with
  | inl inp =>
      rw [Machine.left_next_inl, Machine.right_next_inl]
      refine (receiverInv_preserves ctxR ctxS (right c).2).step trivial ?_ h
      rintro d rfl
      exact hG
  | inr inp =>
      -- the sender has sent what it had sent before
      rw [Machine.left_next_inr, Machine.right_next_inr]
      refine ⟨h.keys, h.window, ?_⟩
      intro r hr hcur hpub
      obtain ⟨d, hd, hrest⟩ := h.produced r hr hcur hpub
      refine ⟨d, ?_, hrest⟩
      rw [Machine.next, sendings_append]
      exact List.mem_append_left _ hd

/-- The sender; `w` lists its calls of `forward_to_peer`. -/
structure SenderInv (c : (network ctxR ctxS).Config) (w : List S.Block) : Prop where
  keys : KeyInv (fun _ _ => True) ctxS (right c).1 (right c).2
  sends : KeysDistinct (right c).2 → (∀ k, w.count k < 2 ^ 64) →
    SendInv (right c).1 (right c).2 w

theorem SenderInv.step {c : (network ctxR ctxS).Config} {w : List S.Block} (h : SenderInv c w)
    (inp : Input S ⊕ Input S) :
    SenderInv ((network ctxR ctxS).next c inp) (w ++ senderCalls ctxS c.1 inp) := by
  cases inp with
  | inl inp =>
      rw [senderCalls, List.append_nil]
      constructor
      · rw [Machine.right_next_inl]
        exact h.keys
      · rw [Machine.right_next_inl]
        exact h.sends
  | inr inp =>
      have hkeys : Preserves ctxS (fun _ => True) (fun _ _ _ => True)
          (KeyInv (fun _ _ => True) ctxS) :=
        keyInv_preserves (fun _ => trivial) ctxS fun _ _ _ _ _ _ _ _ _ => trivial
      constructor
      · rw [Machine.right_next_inr]
        exact hkeys.step trivial (fun _ _ => trivial) h.keys
      · rw [Machine.right_next_inr]
        intro hdist hbound
        refine (h.sends hdist.of_append ?_).step ctxS inp hdist hbound
        intro k
        have hk := hbound k
        rw [List.count_append] at hk
        exact Nat.lt_of_le_of_lt (Nat.le_add_right _ _) hk

/-- Receiver and sender together. -/
theorem noFalseDrops_of_inv (hL : S.Lawful) (hO : S.OneKey) {c : (network ctxR ctxS).Config}
    (hrecv : ReceiverInv ctxR ctxS (right c).2 (left c).1 (left c).2)
    (hkeys : KeyInv (fun _ _ => True) ctxS (right c).1 (right c).2)
    (honce : NumberedOnce (right c).2) : NoFalseDrops c := by
  rintro d i seq hG ⟨-, hf, ⟨plain, payload, hdec, hun⟩, hdrop⟩ hpub
  obtain ⟨-, hact, -⟩ := findSessionByAddr_eq_some hf
  obtain ⟨r, hr, hcur, hrpub, hrkey, hseq⟩ :=
    hrecv.window i hact seq ((checkReplay_eq_none seq _).mp hdrop)
  refine ⟨r, mem_receipts.mpr hr, hcur, hrkey, hseq.imp_left ?_⟩
  rintro rfl
  -- both datagrams are the sender's, under one key and with one number
  have hdone := hrecv.keys.current i hact
  rw [hpub] at hdone
  obtain ⟨x, hx, -, hxpkt⟩ := hG _ (mem_sharedKeys hdone) (by rw [hdec]; rfl)
  obtain ⟨y, hy, -, hypkt⟩ := hrecv.produced r hr hcur (hrpub.trans hpub)
  obtain ⟨-, -, plain', hdec', hun'⟩ := hrecv.keys.accepted r hr
  rw [← hxpkt] at hdec
  rw [← hypkt] at hdec'
  obtain ⟨hxkey, hxseq⟩ := sent_of_decrypts hL hO hkeys (mem_sendings.mp hx) hdec hun
  obtain ⟨hykey, hyseq⟩ := sent_of_decrypts hL hO hkeys (mem_sendings.mp hy) hdec' hun'
  have hxy : x = y := by
    have hsymm : Std.Symm fun d d' : Sending S => d.key = d'.key → d.seq ≠ d'.seq :=
      ⟨fun a b hab hkey hseq => hab hkey.symm hseq.symm⟩
    by_contra hne
    exact List.Pairwise.forall honce hx hy hne (hxkey.trans (hrkey.symm.trans hykey.symm))
      (hxseq.trans hyseq.symm)
  rw [← hxpkt, ← hypkt, hxy]

end Network

/-- **No false replay drops.** In every run of a receiver and a sender, with any number of rekeys,
as long as the sender's keys are pairwise distinct and none is used for 2^64 calls of
`forward_to_peer`, the sender numbers its packets without repetition. If the network delivers
datagrams to their addressee only, and a packet opens under the key it was encrypted with and under
no other, no packet is dropped as a replay that is not one. -/
theorem no_false_drops (ctxR ctxS : LoopCtx S) (cfgsR cfgsS : List (PeerConfig S))
    (freshR freshS : Option S.Priv) (is : List (Input S ⊕ Input S))
    (hdist : KeysDistinct (right ((network ctxR ctxS).run
      (networkInit ctxR ctxS cfgsR cfgsS freshR freshS) is)).2)
    (hcalls : ∀ k, ((network ctxR ctxS).log (senderCalls ctxS)
      (networkInit ctxR ctxS cfgsR cfgsS freshR freshS) is).count k < 2 ^ 64) :
    NumberedOnce (right ((network ctxR ctxS).run
      (networkInit ctxR ctxS cfgsR cfgsS freshR freshS) is)).2 ∧
    (S.Lawful → S.OneKey → (network ctxR ctxS).Along Addressed
        (networkInit ctxR ctxS cfgsR cfgsS freshR freshS) is →
      NoFalseDrops ((network ctxR ctxS).run
        (networkInit ctxR ctxS cfgsR cfgsS freshR freshS) is)) := by
  have hsender := (network ctxR ctxS).invariant_log (G := fun _ _ => True)
    (I := fun c w => SenderInv c w) (fun c w inp hc _ => hc.step inp) is
    (networkInit ctxR ctxS cfgsR cfgsS freshR freshS) []
    ⟨KeyInv.init _ ctxS cfgsS freshS, fun _ _ => SendInv.init cfgsS freshS⟩
    ((network ctxR ctxS).along_of_forall (fun _ _ => trivial) is _)
  -- the sender's part needs nothing of the cipher
  have honce : NumberedOnce _ := (hsender.sends hdist hcalls).once
  refine ⟨honce, fun hL hO hrun => ?_⟩
  have hrecv := (network ctxR ctxS).invariant
    (I := fun c => ReceiverInv ctxR ctxS (right c).2 (left c).1 (left c).2)
    (fun c inp hc hG => receiverInv_next hc inp hG) is
    (networkInit ctxR ctxS cfgsR cfgsS freshR freshS)
    ⟨KeyInv.init _ ctxR cfgsR freshR, by rintro i ⟨⟩, by rintro r ⟨⟩⟩ hrun
  exact noFalseDrops_of_inv hL hO hrecv hsender.keys honce

/-- Node `1` accepts the packet of node `2`, and gets it again. -/
def repeatRun : List (Input symbolic ⊕ Input symbolic) :=
  talkRun ++ [.inl (arrival (addrOf 2) (dataOf (keyOf 2 1 12 100) 0 (ipHeader 2 1)) 1005 103)]

theorem no_false_drops_repeatRun :
    (network (ctxOf 1) (ctxOf 2)).Along Addressed pairStart repeatRun ∧
    DropsAsReplay (ctxOf 1) (left ((network (ctxOf 1) (ctxOf 2)).run pairStart talkRun)).1
      ⟨addrOf 2, dataOf (keyOf 2 1 12 100) 0 (ipHeader 2 1), 1005, 1005, some 103, true, none⟩
      ⟨0, by decide⟩ 0 ∧
    NoFalseDrops ((network (ctxOf 1) (ctxOf 2)).run pairStart repeatRun) := by
  have hrun : (network (ctxOf 1) (ctxOf 2)).Along Addressed pairStart repeatRun := by
    decide +kernel
  refine ⟨hrun, ⟨by decide +kernel, by decide +kernel, ⟨frame 0 (ipHeader 2 1), ipHeader 2 1,
    by decide +kernel, by decide +kernel⟩, by decide +kernel⟩, ?_⟩
  refine (no_false_drops (ctxOf 1) (ctxOf 2) _ _ _ _ repeatRun
    (by unfold KeysDistinct; decide +kernel) ?_).2 symbolic_lawful symbolic_oneKey hrun
  intro k
  refine Nat.lt_of_le_of_lt List.count_le_length ?_
  decide +kernel

end Lanecove
