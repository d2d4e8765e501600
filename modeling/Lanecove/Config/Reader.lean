import Lanecove.Basic.Machine
import Lanecove.Config.Schema

set_option autoImplicit false

/-! # What the loader makes of a stream

Where the loader is in a stream, and which key it remembers there, depends on the events alone and
not on what has been configured. So a stream stands for a list of assignments (`assignments`), read
by a machine whose state is a `Cursor`, and `load_config` carries them out one after another
(`loadConfig_eq`). What a stream does can then be said without the loader, and what it leaves behind
follows from what the single assignments do.
-/

namespace Lanecove

open CString

/-! ## Assignments -/

/-- What an event can do to the configuration. -/
inductive Assignment where
  | setting (key : RootKey) (value : List Char)
  | newPeer
  | publicKey (value : List Char)
  | endpoint (value : List Char)
  | route (value : List Char)
  deriving DecidableEq

variable {O : OpenSSL}

def Assignment.apply (env : LoadEnv) (c : Config O.suite) : Assignment → Option (Config O.suite)
  | setting k v => some (k.set v c)
  | newPeer =>
      if MAX_PEERS ≤ c.peers.length then none
      else some { c with peers := c.peers ++ [.zero O.suite] }
  | publicKey v => c.atLastPeer fun pc => (hexKey env v).map fun pub => { pc with pub := pub }
  | endpoint v => c.atLastPeer fun pc => (readEndpoint env v).map pc.setEndpoint
  | route v => c.atLastPeer (addRoute v)

/-- What an assignment does when it succeeds. -/
inductive Assigned (env : LoadEnv) (c : Config O.suite) : Assignment → Config O.suite → Prop
  | setting (k : RootKey) (v : List Char) : Assigned env c (.setting k v) (k.set v c)
  | newPeer (hroom : c.peers.length < MAX_PEERS) :
      Assigned env c .newPeer { c with peers := c.peers ++ [.zero O.suite] }
  | publicKey {v : List Char} {ps : List (PeerConfig O.suite)} {pc : PeerConfig O.suite}
      {pub : O.suite.Block} (hc : c.peers = ps ++ [pc]) (hpub : hexKey env v = some pub) :
      Assigned env c (.publicKey v) { c with peers := ps ++ [{ pc with pub := pub }] }
  | endpoint {v : List Char} {ps : List (PeerConfig O.suite)} {pc : PeerConfig O.suite}
      {e : Endpoint} (hc : c.peers = ps ++ [pc]) (he : readEndpoint env v = some e) :
      Assigned env c (.endpoint v) { c with peers := ps ++ [pc.setEndpoint e] }
  | route {v : List Char} {ps : List (PeerConfig O.suite)} {pc : PeerConfig O.suite} {r : IpPrefix}
      (hc : c.peers = ps ++ [pc]) (hroom : pc.routes.length < MAX_ROUTES_PER_PEER)
      (hr : parseCidr v = some r) :
      Assigned env c (.route v) { c with peers := ps ++ [{ pc with routes := pc.routes ++ [r] }] }

theorem Assignment.apply_cases {env : LoadEnv} {c c' : Config O.suite} {a : Assignment}
    (h : a.apply env c = some c') : Assigned env c a c' := by
  cases a with
  | setting k v =>
      cases h
      exact .setting k v
  | newPeer =>
      simp only [Assignment.apply] at h
      split at h
      · cases h
      · rename_i hroom
        cases h
        exact .newPeer (Nat.lt_of_not_le hroom)
  | publicKey v =>
      obtain ⟨ps, pc, pc', hpeers, hpc', rfl⟩ := Config.atLastPeer_eq_some h
      obtain ⟨pub, hpub, rfl⟩ := Option.map_eq_some_iff.mp hpc'
      exact .publicKey hpeers hpub
  | endpoint v =>
      obtain ⟨ps, pc, pc', hpeers, hpc', rfl⟩ := Config.atLastPeer_eq_some h
      obtain ⟨e, he, rfl⟩ := Option.map_eq_some_iff.mp hpc'
      exact .endpoint hpeers he
  | route v =>
      obtain ⟨ps, pc, pc', hpeers, hpc', rfl⟩ := Config.atLastPeer_eq_some h
      unfold addRoute at hpc'
      split at hpc'
      · cases hpc'
      · rename_i hroom
        obtain ⟨r, hr, rfl⟩ := Option.map_eq_some_iff.mp hpc'
        exact .route hpeers (Nat.lt_of_not_le hroom) hr

/-- The assignments of a list, one after another. -/
def assign (env : LoadEnv) (c : Config O.suite) (as : List Assignment) : Option (Config O.suite) :=
  as.foldlM (Assignment.apply env) c

theorem assign_append (env : LoadEnv) (c : Config O.suite) (as bs : List Assignment) :
    assign env c (as ++ bs) = (assign env c as).bind fun c' => assign env c' bs :=
  List.foldlM_append

theorem assign_cons (env : LoadEnv) (c : Config O.suite) (a : Assignment) (as : List Assignment) :
    assign env c (a :: as) = (a.apply env c).bind fun c' => assign env c' as :=
  List.foldlM_cons

@[simp] theorem assign_nil (env : LoadEnv) (c : Config O.suite) : assign env c [] = some c := rfl

theorem assign_singleton (env : LoadEnv) (c : Config O.suite) (a : Assignment) :
    assign env c [a] = a.apply env c := by
  rw [assign_cons]
  exact Option.bind_fun_some _

/-- **The invariant rule of assignments.** -/
theorem assign_invariant {env : LoadEnv} {I : Config O.suite → Prop} {as : List Assignment}
    (happly : ∀ a ∈ as, ∀ c c', I c → Assigned env c a c' → I c') {c c' : Config O.suite}
    (h : I c) (hrun : assign env c as = some c') : I c' := by
  induction as generalizing c with
  | nil =>
      cases hrun
      exact h
  | cons a as ih =>
      rw [assign_cons] at hrun
      obtain ⟨c₁, hc₁, hrest⟩ := Option.bind_eq_some_iff.mp hrun
      exact ih (fun b hb => happly b (List.mem_cons_of_mem _ hb))
        (happly a List.mem_cons_self c c₁ h (Assignment.apply_cases hc₁)) hrest

/-! ## The reader -/

/-- The state of the loader, with the key it remembers for the value to come. -/
inductive Cursor where
  | root
  | rootVal (key : List Char)
  | peersSeq
  | peerMap
  | peerVal (peerKey : List Char)
  | allowedIpsSeq
  deriving DecidableEq

namespace Cursor

def next : Cursor → YamlEvent → Cursor
  | root, .scalar v => rootVal (v.take 63)
  | rootVal _, .scalar _ => root
  | rootVal key, .sequenceStart => if key = "peers".toList then peersSeq else rootVal key
  | peersSeq, .sequenceEnd => root
  | peersSeq, .mappingStart => peerMap
  | peerMap, .mappingEnd => peersSeq
  | peerMap, .scalar v => peerVal (v.take 63)
  | peerVal _, .scalar _ => peerMap
  | peerVal key, .sequenceStart =>
      if key = "allowed_ips".toList then allowedIpsSeq else peerVal key
  | allowedIpsSeq, .sequenceEnd => peerMap
  -- an event that the state does not expect
  | u, _ => u

/-- The setting of a key; none if the key is not known. -/
def assignSetting (key v : List Char) : List Assignment :=
  ((RootKey.all.find? fun k => decide (k.name = key)).map (Assignment.setting · v)).toList

/-- The field of a peer; none if the key is not known. -/
def assignField (peerKey v : List Char) : List Assignment :=
  if peerKey = "public_key".toList then [.publicKey v]
  else if peerKey = "endpoint".toList then [.endpoint v]
  else []

def assigns : Cursor → YamlEvent → List Assignment
  | rootVal key, .scalar v => assignSetting key v
  | peersSeq, .mappingStart => [.newPeer]
  | peerVal key, .scalar v => assignField key v
  | allowedIpsSeq, .scalar v => [.route v]
  | _, _ => []

/-- In a peer mapping. -/
def inPeer : Cursor → Bool
  | peerMap => true
  | peerVal _ => true
  | allowedIpsSeq => true
  | _ => false

theorem next_rootVal_sequenceStart (key : List Char) : next (rootVal key) .sequenceStart
    = if key = "peers".toList then peersSeq else rootVal key := rfl

theorem next_peerVal_sequenceStart (key : List Char) : next (peerVal key) .sequenceStart
    = if key = "allowed_ips".toList then allowedIpsSeq else peerVal key := rfl

/-- The start of a mapping in the list of peers is the only way into a peer mapping. -/
theorem assigns_of_enter {u : Cursor} {ev : YamlEvent} (hu : u.inPeer = false)
    (h : (u.next ev).inPeer = true) : u.assigns ev = [.newPeer] := by
  cases u with
  | root => cases ev <;> cases h
  | rootVal key =>
      cases ev with
      | sequenceStart =>
          rw [next_rootVal_sequenceStart] at h
          split at h <;> cases h
      | _ => cases h
  | peersSeq =>
      cases ev with
      | mappingStart => rfl
      | _ => cases h
  | _ => cases hu

/-- Outside of peer mappings there are settings and new peers. -/
theorem mem_assigns {u : Cursor} {ev : YamlEvent} {a : Assignment} (hu : u.inPeer = false)
    (ha : a ∈ u.assigns ev) : a = .newPeer ∨ ∃ k v, a = .setting k v := by
  cases u with
  | root => cases ev <;> cases ha
  | rootVal key =>
      cases ev with
      | scalar v =>
          obtain ⟨k, -, rfl⟩ := Option.map_eq_some_iff.mp (Option.mem_toList.mp ha)
          exact .inr ⟨k, v, rfl⟩
      | _ => cases ha
  | peersSeq =>
      cases ev with
      | mappingStart => exact .inl (List.mem_singleton.mp ha)
      | _ => cases ha
  | _ => cases hu

end Cursor

def reader : Machine Cursor YamlEvent Assignment := ⟨fun u ev => (u.next ev, u.assigns ev)⟩

/-- Where the reader is after the events. -/
def Cursor.after (u : Cursor) (evs : List YamlEvent) : Cursor := (reader.run (u, []) evs).1

/-- The assignments of the events, read from a cursor on. -/
def Cursor.reads (u : Cursor) (evs : List YamlEvent) : List Assignment :=
  (reader.run (u, []) evs).2

section Pieces

variable (u : Cursor) (evs evs' : List YamlEvent) (ev : YamlEvent)

theorem Cursor.after_append : u.after (evs ++ evs') = (u.after evs).after evs' := by
  rw [after, reader.run_append, ← Prod.mk.eta (p := reader.run (u, []) evs), reader.run_trace]
  rfl

theorem Cursor.reads_append : u.reads (evs ++ evs') = u.reads evs ++ (u.after evs).reads evs' := by
  rw [reads, reader.run_append, ← Prod.mk.eta (p := reader.run (u, []) evs), reader.run_trace]
  rfl

@[simp] theorem Cursor.after_cons : u.after (ev :: evs) = (u.next ev).after evs :=
  u.after_append [ev] evs

@[simp] theorem Cursor.reads_cons : u.reads (ev :: evs) = u.assigns ev ++ (u.next ev).reads evs :=
  u.reads_append [ev] evs

end Pieces

/-- The assignments of a stream. -/
def assignments (evs : List YamlEvent) : List Assignment := Cursor.root.reads (beforeEnd evs)

/-- Outside of peer mappings a reader meets a new peer, or stays outside and finds settings only. -/
theorem Cursor.newPeer_mem {u : Cursor} (hu : u.inPeer = false) (evs : List YamlEvent) :
    .newPeer ∈ u.reads evs ∨ (u.after evs).inPeer = false ∧
      ∀ a ∈ u.reads evs, ∃ k v, a = .setting k v := by
  induction evs generalizing u with
  | nil => exact .inr ⟨hu, fun a ha => by cases ha⟩
  | cons ev evs ih =>
      rw [after_cons, reads_cons]
      by_cases hnew : .newPeer ∈ u.assigns ev
      · exact .inl (List.mem_append_left _ hnew)
      · have hnext : (u.next ev).inPeer = false := by
          refine Bool.eq_false_iff.mpr fun h => hnew ?_
          rw [assigns_of_enter hu h]
          exact List.mem_singleton_self _
        refine (ih hnext).imp (List.mem_append_right _) (And.imp_right fun hall a ha => ?_)
        rcases List.mem_append.mp ha with ha | ha
        · rcases mem_assigns hu ha with rfl | hset
          · exact absurd ha hnew
          · exact hset
        · exact hall a ha

/-! ## The loader follows the reader -/

/-- A state in which the loader writes to `peer_configs[peer_config_count - 1]`. -/
def LoadState.inPeer : LoadState → Bool
  | .peerMap => true
  | .peerVal => true
  | .allowedIpsSeq => true
  | _ => false

namespace Loader

def cursor (l : Loader O) : Cursor :=
  match l.state with
  | .root => .root
  | .rootVal => .rootVal l.key
  | .peersSeq => .peersSeq
  | .peerMap => .peerMap
  | .peerVal => .peerVal l.peerKey
  | .allowedIpsSeq => .allowedIpsSeq

/-- In a peer mapping there is an entry to write to. -/
def InPlace (l : Loader O) : Prop := l.state.inPeer = true → l.config.HasPeer

end Loader

theorem assign_assignSetting (env : LoadEnv) (c : Config O.suite) (key v : List Char) :
    assign env c (Cursor.assignSetting key v) = some (setRoot key v c) := by
  unfold Cursor.assignSetting setRoot
  cases RootKey.all.find? fun k => decide (k.name = key) <;> rfl

theorem assign_assignField (env : LoadEnv) {c : Config O.suite} (hc : c.HasPeer)
    (peerKey v : List Char) :
    assign env c (Cursor.assignField peerKey v) = c.atLastPeer (setPeer env peerKey v) := by
  unfold Cursor.assignField
  by_cases hpub : peerKey = "public_key".toList
  · have hset : setPeer (O := O) env peerKey v
        = fun pc => (hexKey env v).map fun pub => { pc with pub := pub } := by
      funext pc
      rw [setPeer, if_pos hpub]
    rw [if_pos hpub, hset, assign_singleton, Assignment.apply]
  · rw [if_neg hpub]
    by_cases hend : peerKey = "endpoint".toList
    · have hset : setPeer (O := O) env peerKey v
          = fun pc => (readEndpoint env v).map pc.setEndpoint := by
        funext pc
        rw [setPeer, if_neg hpub, if_pos hend]
      rw [if_pos hend, hset, assign_singleton, Assignment.apply]
    · obtain ⟨ps, pc, hpeers⟩ := hc
      rw [if_neg hend, Config.atLastPeer_of_peers hpeers, setPeer, if_neg hpub, if_neg hend,
        Option.map_some, ← hpeers]
      rfl

/-- **One event**: the loader goes where the reader goes, and makes its assignments. -/
theorem loadEvent_reader (env : LoadEnv) {l : Loader O} (hl : l.InPlace) (ev : YamlEvent) :
    (loadEvent env l ev).map (fun l' => (l'.cursor, l'.config))
      = (assign env l.config (l.cursor.assigns ev)).map (l.cursor.next ev, ·) := by
  obtain ⟨state, key, peerKey, c⟩ := l
  -- where the loader tests the event only, both sides compute; elsewhere it tests a key or a count
  cases state with
  | root => cases ev <;> rfl
  | rootVal =>
      cases ev with
      | scalar v =>
          show _ = (assign env c (Cursor.assignSetting key v)).map _
          rw [assign_assignSetting]
          rfl
      | sequenceStart =>
          show (if key = "peers".toList then some (⟨.peersSeq, key, peerKey, c⟩ : Loader O)
            else some ⟨.rootVal, key, peerKey, c⟩).map _
              = some (Cursor.next (.rootVal key) .sequenceStart, c)
          rw [Cursor.next_rootVal_sequenceStart]
          split <;> rfl
      | _ => rfl
  | peersSeq =>
      cases ev with
      | mappingStart =>
          show (if MAX_PEERS ≤ c.peers.length then none
            else some (⟨.peerMap, key, peerKey, _⟩ : Loader O)).map _
              = (assign env c [.newPeer]).map _
          rw [assign_singleton, Assignment.apply]
          split <;> rfl
      | _ => rfl
  | peerMap => cases ev <;> rfl
  | peerVal =>
      cases ev with
      | scalar v =>
          show ((c.atLastPeer (setPeer env peerKey v)).map _).map _
            = (assign env c (Cursor.assignField peerKey v)).map _
          rw [assign_assignField env (hl rfl), Option.map_map]
          rfl
      | sequenceStart =>
          show (if peerKey = "allowed_ips".toList
            then some (⟨.allowedIpsSeq, key, peerKey, c⟩ : Loader O)
            else some ⟨.peerVal, key, peerKey, c⟩).map _
              = some (Cursor.next (.peerVal peerKey) .sequenceStart, c)
          rw [Cursor.next_peerVal_sequenceStart]
          split <;> rfl
      | _ => rfl
  | allowedIpsSeq =>
      cases ev with
      | scalar v =>
          show ((c.atLastPeer (addRoute v)).map _).map _ = (assign env c [.route v]).map _
          rw [assign_singleton, Option.map_map]
          rfl
      | _ => rfl

theorem RootKey.peers_set {S : Suite} (k : RootKey) (v : List Char) (c : Config S) :
    (k.set v c).peers = c.peers := by
  cases k <;> rfl

theorem Config.HasPeer.assigned {env : LoadEnv} {c c' : Config O.suite} (h : c.HasPeer)
    {a : Assignment} (ha : Assigned env c a c') : c'.HasPeer := by
  cases ha with
  | setting k v =>
      obtain ⟨ps, pc, hpeers⟩ := h
      exact ⟨ps, pc, (k.peers_set v c).trans hpeers⟩
  | _ => exact ⟨_, _, rfl⟩

theorem Loader.inPeer_cursor (l : Loader O) : l.cursor.inPeer = l.state.inPeer := by
  unfold Loader.cursor
  cases l.state <;> rfl

/-- What the loader has after an event is what the reader says. -/
theorem loadEvent_eq_some {env : LoadEnv} {l l' : Loader O} (hl : l.InPlace) {ev : YamlEvent}
    (hev : loadEvent env l ev = some l') :
    l'.cursor = l.cursor.next ev ∧ assign env l.config (l.cursor.assigns ev) = some l'.config := by
  have hread := loadEvent_reader env hl ev
  rw [hev] at hread
  obtain ⟨c', hc', heq⟩ := Option.map_eq_some_iff.mp hread.symm
  obtain ⟨hcursor, rfl⟩ := Prod.mk.inj heq
  exact ⟨hcursor.symm, hc'⟩

theorem Loader.InPlace.event {env : LoadEnv} {l l' : Loader O} (h : l.InPlace) {ev : YamlEvent}
    (hev : loadEvent env l ev = some l') : l'.InPlace := by
  obtain ⟨hcursor, hassign⟩ := loadEvent_eq_some h hev
  intro hin
  rw [← l'.inPeer_cursor, hcursor] at hin
  cases hu : l.cursor.inPeer with
  | true =>
      rw [l.inPeer_cursor] at hu
      exact assign_invariant (fun a _ c c' hc ha => hc.assigned ha) (h hu) hassign
  | false =>
      rw [Cursor.assigns_of_enter hu hin, assign_singleton] at hassign
      generalize l'.config = c' at hassign ⊢
      cases Assignment.apply_cases hassign with
      | newPeer _ => exact ⟨_, _, rfl⟩

/-- **The loop.** -/
theorem loadRun_reader (env : LoadEnv) {l : Loader O} (hl : l.InPlace) (evs : List YamlEvent) :
    (loadRun env l evs).map (fun l' => (l'.cursor, l'.config))
      = (assign env l.config (l.cursor.reads evs)).map (l.cursor.after evs, ·) := by
  induction evs generalizing l with
  | nil => rfl
  | cons ev evs ih =>
      have hread := loadEvent_reader env hl ev
      rw [loadRun, List.foldlM_cons, Cursor.after_cons, Cursor.reads_cons, assign_append]
      cases hev : loadEvent env l ev with
      | none =>
          rw [hev] at hread
          rw [Option.map_eq_none_iff.mp hread.symm]
          rfl
      | some l' =>
          obtain ⟨hcursor, hassign⟩ := loadEvent_eq_some hl hev
          rw [hassign, Option.bind_some, ← hcursor]
          exact ih (hl.event hev)

/-- **`load_config` makes the assignments of the stream**, if the stream has an end. -/
theorem loadConfig_eq (env : LoadEnv) (init : Config O.suite) (evs : List YamlEvent) :
    loadConfig env init evs
      = if .streamEnd ∈ evs then assign env init (assignments evs) else none := by
  have hplace : (⟨.root, [], [], init⟩ : Loader O).InPlace := fun h => absurd h Bool.false_ne_true
  have hread := congrArg (Option.map Prod.snd) (loadRun_reader env hplace (beforeEnd evs))
  rw [Option.map_map, Option.map_map] at hread
  rw [loadConfig, loadEvents_eq]
  split
  · exact hread.trans (Option.map_id_apply)
  · rfl

theorem loadConfig_eq_some {env : LoadEnv} {init c : Config O.suite} {evs : List YamlEvent}
    (h : loadConfig env init evs = some c) : assign env init (assignments evs) = some c := by
  rw [loadConfig_eq] at h
  split at h
  · exact h
  · cases h

end Lanecove
