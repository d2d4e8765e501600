import Lanecove.Peer.Fields
import Lanecove.Safety.Delivery

set_option autoImplicit false

/-! # Old keys retire

In a slot in which the keys K1, K2, … are installed one after the other, packets are accepted
under the last key, and for a time under the one before. That time ends with the grace period
or with the first packet that decrypts under the last key, whichever comes first, and it never
begins if the slot was not active when the last key was installed (`old_keys_retire`). Expiry
leaves `prev_session_key` and its flag behind in the slot; nothing reads them before
`session_init` sets them anew.

Two facts about the past are not in the trace: whether a slot was active when a key was
installed in it, and whether a packet has decrypted under a key (it need not have been
accepted). The history variable `notes` records them.
-/

namespace Lanecove

variable {S : Suite}

/-- What is noted of a step. -/
inductive Note (S : Suite) where
  /-- A session was installed in a slot that was active, or not. -/
  | installed (e : Install S) (wasActive : Bool)
  /-- A datagram decrypted under the current key of a slot. -/
  | opened (slot : Fin MAX_PEERS) (key : S.Block)

/-- The session under whose current key the datagram decrypts. -/
def opens (ctx : LoopCtx S) (n : Node S) : Input S → Option (Fin MAX_PEERS)
  | .udp d =>
      if isHandshake ctx d.pkt then none
      else (findSessionByAddr n.table d.src).filter fun i =>
        (S.decryptPacket (n.table.sessions i).sessionKey d.pkt).isSome
  | _ => none

def notes (ctx : LoopCtx S) (n : Node S) (inp : Input S) : List (Note S) :=
  (installs ((node ctx).step n inp).2).map
      (fun e => .installed e (n.table.sessions e.slot).active) ++
    ((opens ctx n inp).map fun i => .opened i (n.table.sessions i).sessionKey).toList

theorem opens_eq_some {ctx : LoopCtx S} {n : Node S} {inp : Input S} {i : Fin MAX_PEERS}
    (h : opens ctx n inp = some i) :
    ∃ d plain, inp = .udp d ∧ isHandshake ctx d.pkt = false ∧
      findSessionByAddr n.table d.src = some i ∧
      S.decryptPacket (n.table.sessions i).sessionKey d.pkt = some plain := by
  cases inp with
  | udp d =>
      simp only [opens] at h
      split at h
      · cases h
      · rename_i hd
        obtain ⟨hf, hdec⟩ := Option.filter_eq_some_iff.mp h
        obtain ⟨plain, hplain⟩ := Option.isSome_iff_exists.mp hdec
        exact ⟨d, plain, rfl, Bool.eq_false_iff.mpr hd, hf, hplain⟩
  | tun packet iv ok now => cases h
  | housekeeping pass => cases h

theorem mem_notes_opened {ctx : LoopCtx S} {n : Node S} {inp : Input S} {i : Fin MAX_PEERS}
    {k : S.Block} (h : .opened i k ∈ notes ctx n inp) :
    opens ctx n inp = some i ∧ (n.table.sessions i).sessionKey = k := by
  simp only [notes, List.mem_append, List.mem_map, Option.mem_toList, Option.map_eq_some_iff,
    reduceCtorEq, and_false, exists_false, false_or] at h
  obtain ⟨j, hj, hnote⟩ := h
  cases hnote
  exact ⟨hj, rfl⟩

/-- A datagram that installs a session is a handshake message and decrypts under no key. -/
theorem notes_of_installs {ctx : LoopCtx S} {n : Node S} {inp : Input S}
    (h : installs ((node ctx).step n inp).2 ≠ []) :
    notes ctx n inp = (installs ((node ctx).step n inp).2).map
      (fun e => .installed e (n.table.sessions e.slot).active) := by
  have hopens : opens ctx n inp = none := by
    refine Option.eq_none_iff_forall_ne_some.mpr fun i hi => h ?_
    obtain ⟨d, -, rfl, hd, -⟩ := opens_eq_some hi
    exact ((step_cases ctx n (.udp d)).works hd).installs_nil
  rw [notes, hopens]
  exact List.append_nil _

theorem unmoved_prevKeyActive : Unmoved (Session.prevKeyActive (S := S)) :=
  ⟨fun _ _ _ => rfl, fun _ _ => rfl⟩

/-- A packet that decrypts under the current key retires the previous one, accepted or not. -/
theorem prevKeyActive_of_opens {ctx : LoopCtx S} {n : Node S} {inp : Input S}
    {i : Fin MAX_PEERS} (h : opens ctx n inp = some i) :
    (((node ctx).step n inp).1.table.sessions i).prevKeyActive = false := by
  obtain ⟨d, plain, rfl, hd, hf, hdec⟩ := opens_eq_some h
  have hrec : (receive (n.table.sessions i) i d.pkt d.now).1.prevKeyActive = false := by
    unfold receive decryptSession
    rw [hdec]
    unfold acceptFrame
    dsimp only
    split
    · rfl
    · rw [if_neg Bool.false_ne_true]
      split <;> rfl
  show ((udpPacket ctx n d).1.table.sessions i).prevKeyActive = false
  rw [udpPacket_of_data hd]
  unfold dataPacket
  rw [hf]
  dsimp only
  split
  · rename_i s heq
    rw [heq] at hrec
    rw [Node.setSession_table, SessionTable.set_sessions_self]
    exact hrec
  · rename_i s r heq
    rw [heq] at hrec
    rw [unmoved_prevKeyActive.deliver _ r d.iv d.sendOk d.clock i, Node.setSession_table,
      SessionTable.set_sessions_self]
    exact hrec

/-! ## The invariant of a slot -/

/-- What is left of the keys of a slot: the last one is current. If the one before is still
accepted, the slot was active when the last one was installed, nothing has decrypted under the
last one, and the end of the grace period is set. `w` are the notes of the run. -/
structure SlotKeys (ctx : LoopCtx S) (slot : Fin MAX_PEERS) (n : Node S) (tr : List (Event S))
    (w : List (Note S)) : Prop where
  used : (n.table.sessions slot).active = true → installsAt slot tr ≠ []
  current : ∀ older e, installsAt slot tr = older ++ [e] →
    (n.table.sessions slot).sessionKey = e.key ∧
    ((n.table.sessions slot).prevKeyActive = true →
      (∃ oldest e₀, older = oldest ++ [e₀] ∧ (n.table.sessions slot).prevSessionKey = e₀.key) ∧
      (n.table.sessions slot).prevKeyExpires = e.time + ctx.prevKeyGrace ∧
      .installed e true ∈ w ∧ .opened slot e.key ∉ w)
  opened : ∀ k, .opened slot k ∈ w → ∃ e ∈ installsAt slot tr, e.key = k

namespace SlotKeys

variable {ctx : LoopCtx S} {slot : Fin MAX_PEERS} {n n' : Node S} {tr ev : List (Event S)}
  {w : List (Note S)}

theorem init (ctx : LoopCtx S) (slot : Fin MAX_PEERS) (cfgs : List (PeerConfig S))
    (fresh : Option S.Priv) : SlotKeys ctx slot (Node.init cfgs fresh) [] [] where
  used := by rintro ⟨⟩
  current := by
    intro older e h
    exact absurd h.symm (List.append_ne_nil_of_right_ne_nil _ (List.cons_ne_nil _ _))
  opened := by rintro k ⟨⟩

/-- An active slot has a last key, which is the current one. -/
theorem last (h : SlotKeys ctx slot n tr w) (hact : (n.table.sessions slot).active = true) :
    ∃ older e, installsAt slot tr = older ++ [e] ∧ (n.table.sessions slot).sessionKey = e.key := by
  have hsplit := List.dropLast_append_getLast (h.used hact)
  exact ⟨_, _, hsplit.symm, (h.current _ _ hsplit.symm).1⟩

/-- Steps that install nothing in the slot. A packet that decrypts under the current key makes
the previous key inactive. -/
theorem kept {v : List (Note S)} (h : SlotKeys ctx slot n tr w)
    (hk : Keeps (n.table.sessions slot) (n'.table.sessions slot))
    (hev : installsAt slot ev = [])
    (hopen : ∀ k, .opened slot k ∈ v → (n.table.sessions slot).active = true ∧
      (n.table.sessions slot).sessionKey = k ∧
      (n'.table.sessions slot).prevKeyActive = false) :
    SlotKeys ctx slot n' (tr ++ ev) (w ++ v) := by
  have htr : installsAt slot (tr ++ ev) = installsAt slot tr := by
    rw [installsAt_append, hev, List.append_nil]
  constructor
  · intro hact
    rw [htr]
    exact h.used (hk.active hact)
  · intro older e he
    rw [htr] at he
    obtain ⟨hkey, hprev⟩ := h.current older e he
    rw [hk.sessionKey, hk.prevSessionKey, hk.prevKeyExpires]
    refine ⟨hkey, ?_⟩
    intro hact
    obtain ⟨hbefore, hexp, hwas, hno⟩ := hprev (hk.prevKeyActive hact)
    refine ⟨hbefore, hexp, List.mem_append_left _ hwas, ?_⟩
    intro hmem
    rcases List.mem_append.mp hmem with hmem | hmem
    · exact hno hmem
    · rw [(hopen _ hmem).2.2] at hact
      cases hact
  · intro k hmem
    rw [htr]
    rcases List.mem_append.mp hmem with hmem | hmem
    · exact h.opened k hmem
    · obtain ⟨hact, hkey, -⟩ := hopen k hmem
      obtain ⟨older, e, he, hek⟩ := h.last hact
      exact ⟨e, by rw [he]; simp, hek.symm.trans hkey⟩

/-- A session is installed in the slot, under a key it has not had. -/
theorem install {d : Datagram S} {m : Node S} {tb : SessionTable S} {pub key : S.Block}
    {cfg : PeerConfig S} {out : Bool} (h : SlotKeys ctx slot n tr w)
    (htable : m.table = n.table)
    (hev : installsAt slot ev = [⟨slot, pub, key, d.src, d.pkt, out, d.clock⟩])
    (hnew : ∀ e ∈ installsAt slot tr, e.key ≠ key) :
    SlotKeys ctx slot (installAt ctx m d slot tb pub key cfg out) (tr ++ ev)
      (w ++ [.installed ⟨slot, pub, key, d.src, d.pkt, out, d.clock⟩
        (n.table.sessions slot).active]) := by
  have htr : installsAt slot (tr ++ ev)
      = installsAt slot tr ++ [⟨slot, pub, key, d.src, d.pkt, out, d.clock⟩] := by
    rw [installsAt_append, hev]
  constructor
  · intro _
    rw [htr]
    exact List.append_ne_nil_of_right_ne_nil _ (List.cons_ne_nil _ _)
  · intro older e he
    rw [htr] at he
    obtain ⟨rfl, heq⟩ := List.append_inj' he rfl
    obtain rfl := List.head_eq_of_cons_eq heq
    rw [installAt_sessions_self, htable]
    refine ⟨rfl, ?_⟩
    -- the slot was active, so its key is now the previous one
    intro hact
    have hact : (n.table.sessions slot).active = true := hact
    obtain ⟨oldest, e₀, hlast, hkey⟩ := h.last hact
    refine ⟨⟨oldest, e₀, hlast, ?_⟩, ?_, ?_, ?_⟩
    · simp [sessionInit, hact, hkey]
    · simp [sessionInit, hact]
    · rw [hact]
      simp
    · intro hmem
      have hold : .opened slot key ∈ w := by simpa using hmem
      obtain ⟨e', he', hek⟩ := h.opened key hold
      exact hnew e' he' hek
  · intro k hmem
    have hold : .opened slot k ∈ w := by simpa using hmem
    obtain ⟨e, he, hek⟩ := h.opened k hold
    exact ⟨e, by rw [htr]; exact List.mem_append_left _ he, hek⟩

/-- **One step**, as long as the keys of the slot are pairwise distinct. -/
theorem step (h : SlotKeys ctx slot n tr w) (inp : Input S)
    (hdist : ((installsAt slot (tr ++ ((node ctx).step n inp).2)).map Install.key).Nodup) :
    SlotKeys ctx slot ((node ctx).step n inp).1 (tr ++ ((node ctx).step n inp).2)
      (w ++ notes ctx n inp) := by
  have hopen : ∀ k, .opened slot k ∈ notes ctx n inp →
      (n.table.sessions slot).active = true ∧ (n.table.sessions slot).sessionKey = k ∧
      (((node ctx).step n inp).1.table.sessions slot).prevKeyActive = false := by
    intro k hmem
    obtain ⟨hopens, hkey⟩ := mem_notes_opened hmem
    obtain ⟨d, plain, -, -, hf, -⟩ := opens_eq_some hopens
    exact ⟨(findSessionByAddr_eq_some hf).2.1, hkey, prevKeyActive_of_opens hopens⟩
  have hnotes := @notes_of_installs S ctx n inp
  have hslot := step_slot ctx n inp slot
  revert hopen hnotes hdist
  generalize ((node ctx).step n inp).2 = ev at hslot ⊢
  generalize ((node ctx).step n inp).1 = n' at hslot ⊢
  intro hdist hopen hnotes
  cases hslot with
  | kept hev hkeeps _ => exact h.kept hkeeps hev hopen
  | @install d ev m tb pub key cfg out hinp hev hhere htable =>
      rw [hnotes (by rw [hev]; exact List.cons_ne_nil _ _), hev]
      refine h.install htable hhere ?_
      intro e he hek
      rw [installsAt_append, hhere, List.map_append] at hdist
      exact (List.nodup_append.mp hdist).2.2 e.key (List.mem_map_of_mem he) key
        (List.mem_singleton.mpr rfl) hek

end SlotKeys

/-- The invariant along whole runs. What is asked of the keys at the end of a run holds of
all its beginnings. -/
theorem slotKeys_run (ctx : LoopCtx S) (cfgs : List (PeerConfig S)) (fresh : Option S.Priv)
    (slot : Fin MAX_PEERS) (is : List (Input S)) :
    ((installsAt slot ((node ctx).run (Node.init cfgs fresh, []) is).2).map Install.key).Nodup →
    SlotKeys ctx slot ((node ctx).run (Node.init cfgs fresh, []) is).1
      ((node ctx).run (Node.init cfgs fresh, []) is).2
      ((node ctx).log (notes ctx) (Node.init cfgs fresh, []) is) := by
  refine (node ctx).invariant_log (f := notes ctx) (G := fun _ _ => True)
    (I := fun c w => ((installsAt slot c.2).map Install.key).Nodup → SlotKeys ctx slot c.1 c.2 w)
    ?_ is _ [] (fun _ => SlotKeys.init ctx slot cfgs fresh)
    ((node ctx).along_of_forall (fun _ _ => trivial) is _)
  intro c w inp hI _ hdist
  refine (hI ?_).step inp hdist
  change ((installsAt slot (c.2 ++ ((node ctx).step c.1 inp).2)).map _).Nodup at hdist
  rw [installsAt_append, List.map_append] at hdist
  exact (List.nodup_append.mp hdist).1

/-! ## Acceptance -/

/-- A packet under the `j`th key of a slot may be accepted at time `now`: the key is the last
one installed, or it is the one before and its time is not over. -/
def MayAccept (ctx : LoopCtx S) (slot : Fin MAX_PEERS) (keys : List (Install S))
    (past : List (Note S)) (j : Nat) (now : Int) : Prop :=
  j + 1 = keys.length ∨
  j + 2 = keys.length ∧ ∃ e, keys.getLast? = some e ∧ .installed e true ∈ past ∧
    now ≤ e.time + ctx.prevKeyGrace ∧ .opened slot e.key ∉ past

/-- Distinct keys are at distinct places. -/
theorem index_of_key {keys : List (Install S)} (hdist : (keys.map Install.key).Nodup)
    {j k : Nat} {e e' : Install S} (hj : keys[j]? = some e) (hk : keys[k]? = some e')
    (hkey : e.key = e'.key) : j = k := by
  have hlt : j < keys.length := (List.getElem?_eq_some_iff.mp hj).1
  refine (List.getElem?_inj (by rwa [List.length_map]) hdist).mp ?_
  rw [List.getElem?_map, List.getElem?_map, hj, hk, Option.map_some, Option.map_some, hkey]

/-- **Old keys retire and never come back.** Let the keys installed in a slot during a run be
pairwise distinct. A datagram under the `j`th of them is accepted there only if that key is the
last one, or if it is the one before, the slot was active when the last one was installed, at
most `prev_key_grace` seconds have passed since, and nothing has decrypted under the last one. -/
theorem old_keys_retire (hO : S.OneKey) (ctx : LoopCtx S) (cfgs : List (PeerConfig S))
    (fresh : Option S.Priv) (is : List (Input S)) (slot : Fin MAX_PEERS)
    (hdist : ((installsAt slot ((node ctx).run (Node.init cfgs fresh, []) is).2).map
      Install.key).Nodup) (d : Datagram S) (r : Receipt S)
    (hacc : .accepted r ∈
      ((node ctx).step ((node ctx).run (Node.init cfgs fresh, []) is).1 (.udp d)).2)
    (hslot : r.slot = slot) (j : Nat) (e : Install S)
    (hj : (installsAt slot ((node ctx).run (Node.init cfgs fresh, []) is).2)[j]? = some e)
    (hdec : (S.decryptPacket e.key d.pkt).isSome) :
    MayAccept ctx slot (installsAt slot ((node ctx).run (Node.init cfgs fresh, []) is).2)
      ((node ctx).log (notes ctx) (Node.init cfgs fresh, []) is) j d.now := by
  have hinv := slotKeys_run ctx cfgs fresh slot is hdist
  revert hinv hdist hacc hj
  generalize (node ctx).run (Node.init cfgs fresh, []) is = c
  generalize (node ctx).log (notes ctx) (Node.init cfgs fresh, []) is = w
  intro hdist hacc hj hinv
  obtain ⟨d', s, hd', -, hf, hr⟩ := (step_cases ctx c.1 (.udp d)).receive_of_accepted hacc
  obtain rfl := Input.udp.inj hd'
  subst hslot
  obtain ⟨-, -, -, -, ⟨plain, hplain, -⟩, hkey⟩ := receive_eq_some hr
  obtain ⟨plain', hplain'⟩ := Option.isSome_iff_exists.mp hdec
  -- the packet decrypts under one key only, so it was accepted under the `j`th
  have he : e.key = r.key := hO _ _ _ _ _ hplain' hplain
  obtain ⟨older, last, hks, hlast⟩ := hinv.last (findSessionByAddr_eq_some hf).2.1
  rcases hkey with ⟨-, hcur, -⟩ | ⟨-, hprev, hact, hnow, -⟩
  · left
    have hat : (installsAt r.slot c.2)[older.length]? = some last := by
      rw [hks, List.getElem?_concat_length]
    rw [index_of_key hdist hj hat (he.trans (hcur.trans hlast)), hks, List.length_append]
    rfl
  · right
    obtain ⟨⟨oldest, e₀, rfl, hkey₀⟩, hexp, hwas, hno⟩ := (hinv.current _ _ hks).2 hact
    have hat : (installsAt r.slot c.2)[oldest.length]? = some e₀ := by
      rw [hks, List.append_assoc, List.getElem?_append_right (Nat.le_refl _), Nat.sub_self]
      rfl
    refine ⟨?_, last, by rw [hks, List.getLast?_concat], hwas, hexp ▸ hnow, hno⟩
    rw [index_of_key hdist hj hat (he.trans (hprev.trans hkey₀)), hks]
    simp

/-- A packet under the first of two keys arrives one second after the second was installed. -/
theorem old_keys_retire_rekeyRun :
    let slot : Fin MAX_PEERS := ⟨0, by decide⟩
    let d : Datagram symbolic :=
      ⟨addrOf 2, dataOf (keyOf 2 1 12 100) 2 [8], 201, 201, none, true, none⟩
    (receipts ((node (ctxOf 1)).step ((node (ctxOf 1)).run twoPeers rekeyRun).1 (.udp d)).2).map
      (fun r => (r.slot, r.usedPrev)) = [(slot, true)] ∧
    (installsAt slot ((node (ctxOf 1)).run twoPeers rekeyRun).2).map Install.key =
      [keyOf 2 1 12 100, keyOf 2 1 13 101] ∧
    MayAccept (ctxOf 1) slot (installsAt slot ((node (ctxOf 1)).run twoPeers rekeyRun).2)
      ((node (ctxOf 1)).log (notes (ctxOf 1)) twoPeers rekeyRun) 0 201 := by
  intro slot d
  have hacc : (receipts ((node (ctxOf 1)).step ((node (ctxOf 1)).run twoPeers rekeyRun).1
      (.udp d)).2).map (fun r => (r.slot, r.usedPrev)) = [(slot, true)] := by decide +kernel
  have hkeys : (installsAt slot ((node (ctxOf 1)).run twoPeers rekeyRun).2).map Install.key =
      [keyOf 2 1 12 100, keyOf 2 1 13 101] := by decide +kernel
  refine ⟨hacc, hkeys, ?_⟩
  obtain ⟨r, hr, hrs⟩ := List.map_eq_singleton_iff.mp hacc
  obtain ⟨e, ks, hks, he, -⟩ := List.map_eq_cons_iff.mp hkeys
  have hdec : (symbolic.decryptPacket (keyOf 2 1 12 100) d.pkt).isSome := by decide +kernel
  have hfirst : (installsAt slot ((node (ctxOf 1)).run twoPeers rekeyRun).2)[0]? = some e := by
    rw [hks]
    rfl
  exact old_keys_retire symbolic_oneKey (ctxOf 1) [peerOf 2, peerOf 3] (some 100) rekeyRun slot
    (hkeys ▸ by decide +kernel) d r (mem_receipts.mp (hr ▸ List.mem_singleton_self r))
    (congrArg Prod.fst hrs) 0 e hfirst (he ▸ hdec)

end Lanecove
