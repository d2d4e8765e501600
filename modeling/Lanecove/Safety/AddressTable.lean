import Lanecove.Safety.KeyOwnership

set_option autoImplicit false

/-! # One session for each address

Datagrams are matched to sessions by their source address, so two active sessions must not
have the same one. `alloc_session` looks for the peer's own session first: a peer that
completes a handshake from the address of another peer's session keeps its slot, and the
other session stays where it is. As long as no peer moves onto the address of another
session, addresses are unique (`addresses_unique`); `move_onto_shares_address` is a run in
which a peer does.
-/

namespace Lanecove

variable {S : Suite}

/-- No two active sessions have the same address, and the lookup by address finds every
active session. -/
structure AddressesUnique (tb : SessionTable S) : Prop where
  distinct : ∀ i j, (tb.sessions i).active = true → (tb.sessions j).active = true →
    (tb.sessions i).addr = (tb.sessions j).addr → i = j
  found : ∀ i, (tb.sessions i).active = true →
    findSessionByAddr tb (tb.sessions i).addr = some i

/-- The datagram is a handshake of a peer with a session, from the address of a different
active session. -/
def movesOnto (ctx : LoopCtx S) (n : Node S) (d : Datagram S) : Bool :=
  match remotePeer ctx n d with
  | none => false
  | some pub =>
      match findSessionByPub n.table pub, findSessionByAddr n.table d.src with
      | some i, some j => decide (i ≠ j)
      | _, _ => false

/-- No step of the run moves a session onto the address of another one. -/
def NoMoveOnto (ctx : LoopCtx S) (c : (node ctx).Config) : Input S → Prop
  | .udp d => movesOnto ctx c.1 d = false
  | _ => True

instance (ctx : LoopCtx S) (c : (node ctx).Config) : ∀ inp, Decidable (NoMoveOnto ctx c inp)
  | .udp d => inferInstanceAs (Decidable (movesOnto ctx c.1 d = false))
  | .tun .. => isTrue trivial
  | .housekeeping _ => isTrue trivial

theorem eq_of_not_movesOnto {ctx : LoopCtx S} {n : Node S} {d : Datagram S} {pub : S.Block}
    {i j : Fin MAX_PEERS} (hpeer : remotePeer ctx n d = some pub)
    (h : movesOnto ctx n d = false) (hi : findSessionByPub n.table pub = some i)
    (hj : findSessionByAddr n.table d.src = some j) : i = j := by
  unfold movesOnto at h
  rw [hpeer] at h
  simpa [hi, hj] using h

/-- The invariant: slots in use lie below `session_slots`, and addresses are distinct. -/
structure AddrInv (tb : SessionTable S) : Prop where
  below : tb.Below
  distinct : ∀ i j, (tb.sessions i).active = true → (tb.sessions j).active = true →
    (tb.sessions i).addr = (tb.sessions j).addr → i = j

namespace AddrInv

/-- Distinct addresses make the lookup exact. -/
theorem addressesUnique {tb : SessionTable S} (h : AddrInv tb) : AddressesUnique tb where
  distinct := h.distinct
  found i hi := by
    cases hf : findSessionByAddr tb (tb.sessions i).addr with
    | none => exact absurd rfl (findSessionByAddr_eq_none hf (h.below i hi) hi)
    | some j =>
        obtain ⟨-, hj, hja⟩ := findSessionByAddr_eq_some hf
        rw [h.distinct j i hj hi hja]

theorem keeps {tb tb' : SessionTable S} (h : AddrInv tb) (hslots : tb'.slots = tb.slots)
    (hk : ∀ i, Keeps (tb.sessions i) (tb'.sessions i)) : AddrInv tb' where
  below i hi := by
    rw [hslots]
    exact h.below i ((hk i).active hi)
  distinct i j hi hj hij := by
    rw [(hk i).addr, (hk j).addr] at hij
    exact h.distinct i j ((hk i).active hi) ((hk j).active hj) hij

/-- Installing a session at an address that no other session has. -/
theorem install {tb tb' : SessionTable S} {pub : S.Block} {addr : SockAddr}
    {i : Fin MAX_PEERS} {s : Session S} (h : AddrInv tb) (haddr : s.addr = addr)
    (hal : allocSession tb pub addr = some (i, tb'))
    (hmove : ∀ i j, findSessionByPub tb pub = some i → findSessionByAddr tb addr = some j →
      i = j) : AddrInv (tb'.set i s) := by
  obtain ⟨hsess, -, -⟩ := allocSession_sessions hal
  -- nobody else is at the address
  have hother : ∀ j, j ≠ i → (tb.sessions j).active = true → (tb.sessions j).addr ≠ addr := by
    intro j hji hj hja
    cases hf : findSessionByAddr tb addr with
    | none => exact findSessionByAddr_eq_none hf (h.below j hj) hj hja
    | some k =>
        obtain ⟨-, hk, hka⟩ := findSessionByAddr_eq_some hf
        have hkj : k = j := h.distinct k j hk hj (hka.trans hja.symm)
        rcases allocSession_slot h.below hal with hpub | ⟨-, hat⟩ | ⟨-, hnone, -⟩
        · exact hji (hkj.symm.trans (hmove i k hpub hf).symm)
        · rw [hf] at hat
          exact hji (hkj.symm.trans (Option.some.inj hat))
        · rw [hf] at hnone
          cases hnone
  refine ⟨h.below.set hal, ?_⟩
  intro j k hj hk hjk
  by_cases hji : j = i <;> by_cases hki : k = i
  · exact hji.trans hki.symm
  · subst hji
    rw [SessionTable.set_sessions_ne _ _ hki, hsess] at hk hjk
    rw [SessionTable.set_sessions_self, haddr] at hjk
    exact absurd hjk.symm (hother k hki hk)
  · subst hki
    rw [SessionTable.set_sessions_ne _ _ hji, hsess] at hj hjk
    rw [SessionTable.set_sessions_self, haddr] at hjk
    exact absurd hjk (hother j hji hj)
  · rw [SessionTable.set_sessions_ne _ _ hji, hsess] at hj hjk
    rw [SessionTable.set_sessions_ne _ _ hki, hsess] at hk hjk
    exact h.distinct j k hj hk hjk

end AddrInv

theorem addrInv_preserves (ctx : LoopCtx S) :
    Preserves ctx (fun _ => True) (fun n _ d => movesOnto ctx n d = false)
      (fun n _ => AddrInv n.table) where
  quiet _ hI hq := hI.keeps hq.slots hq.keeps
  accept _ _ hI _ hr _ := hI.keeps rfl (setSession_keeps (receive_keeps hr))
  answer _ _ hI _ _ := hI
  initiator _ _ hI _ _ := hI
  responder _ _ _ hI _ _ := by rwa [refreshPrecompEph_table]
  install _ hG hpeer htb _ hI _ _ hal := by
    refine hI.install rfl hal ?_
    intro i j hi hj
    rw [htb] at hi hj
    exact eq_of_not_movesOnto hpeer hG hi hj

/-- **Addresses are unique.** In every run in which no peer completes its handshake from the
address of another session, no two active sessions have the same address, and the lookup by
address finds every active session. -/
theorem addresses_unique (ctx : LoopCtx S) (cfgs : List (PeerConfig S)) (fresh : Option S.Priv)
    (is : List (Input S))
    (hrun : (node ctx).Along (NoMoveOnto ctx) (Node.init cfgs fresh, []) is) :
    AddressesUnique ((node ctx).run (Node.init cfgs fresh, []) is).1.table := by
  refine AddrInv.addressesUnique ((addrInv_preserves ctx).run ?_ ?_ hrun)
  · intro c inp hG
    refine ⟨trivial, ?_⟩
    rintro d rfl
    exact hG
  · constructor
    · rintro i ⟨⟩
    · rintro i j ⟨⟩

/-- Both peers connect and peer `3` rekeys from a new address. -/
def roamRun : List (Input symbolic) :=
  [arrival (addrOf 2) (initiationOf 2 1 12) 100 101,
    arrival (addrOf 3) (initiationOf 3 1 13) 100 102,
    arrival (addrOf 4) (initiationOf 3 1 14) 200 103]

theorem addresses_unique_roamRun :
    (node (ctxOf 1)).Along (NoMoveOnto (ctxOf 1)) twoPeers roamRun ∧
    findSessionByAddr ((node (ctxOf 1)).run twoPeers roamRun).1.table (addrOf 4)
      = findSessionByPub ((node (ctxOf 1)).run twoPeers roamRun).1.table (Msg.pub 3) ∧
    AddressesUnique ((node (ctxOf 1)).run twoPeers roamRun).1.table := by
  have hrun : (node (ctxOf 1)).Along (NoMoveOnto (ctxOf 1)) twoPeers roamRun := by decide +kernel
  refine ⟨hrun, by decide +kernel, ?_⟩
  unfold twoPeers at hrun ⊢
  exact addresses_unique (ctxOf 1) [peerOf 2, peerOf 3] (some 100) roamRun hrun

/-- Both peers connect and peer `3` rekeys from the address of peer `2`. -/
def moveOntoRun : List (Input symbolic) :=
  [arrival (addrOf 2) (initiationOf 2 1 12) 100 101,
    arrival (addrOf 3) (initiationOf 3 1 13) 100 102,
    arrival (addrOf 2) (initiationOf 3 1 14) 200 103]

/-- Peer `3` has a session at the address of peer `2`, and the lookup by that address finds
the session of peer `2`. -/
theorem move_onto_shares_address :
    ¬ AddressesUnique ((node (ctxOf 1)).run twoPeers moveOntoRun).1.table ∧
    ∃ i j, i ≠ j ∧
      (((node (ctxOf 1)).run twoPeers moveOntoRun).1.table.sessions i).active = true ∧
      (((node (ctxOf 1)).run twoPeers moveOntoRun).1.table.sessions i).staticPub = Msg.pub 3 ∧
      findSessionByAddr ((node (ctxOf 1)).run twoPeers moveOntoRun).1.table
        (((node (ctxOf 1)).run twoPeers moveOntoRun).1.table.sessions i).addr = some j := by
  have hshare : (⟨1, by decide⟩ : Fin MAX_PEERS) ≠ ⟨0, by decide⟩ ∧
      (((node (ctxOf 1)).run twoPeers moveOntoRun).1.table.sessions ⟨1, by decide⟩).active
        = true ∧
      (((node (ctxOf 1)).run twoPeers moveOntoRun).1.table.sessions ⟨1, by decide⟩).staticPub
        = Msg.pub 3 ∧
      findSessionByAddr ((node (ctxOf 1)).run twoPeers moveOntoRun).1.table
        (((node (ctxOf 1)).run twoPeers moveOntoRun).1.table.sessions ⟨1, by decide⟩).addr
        = some ⟨0, by decide⟩ := by
    decide +kernel
  refine ⟨?_, _, _, hshare⟩
  intro hunique
  have hfound := hunique.found _ hshare.2.1
  rw [hshare.2.2.2] at hfound
  exact hshare.1 (Option.some.inj hfound).symm

end Lanecove
