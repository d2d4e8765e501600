import Lanecove.Config.Load

set_option autoImplicit false

/-! # Documents of the documented schema

A document is a mapping with distinct keys whose values are scalars, except that `peers` is a list
of mappings; those have distinct keys and scalar values, except that `allowed_ips` is a list of
scalars. Here the event stream of such a document is followed through the loader: each entry of a
mapping acts on the configuration once (`RootEntry.apply`, `PeerEntry.apply`), in the order of the
document (`loadConfig_events`).
-/

namespace Lanecove

open CString

/-! ## Documents -/

/-- An entry of a peer mapping. -/
inductive PeerEntry where
  | scalar (key value : List Char) (h : key ≠ "allowed_ips".toList)
  | allowedIps (cidrs : List (List Char))

namespace PeerEntry

def key : PeerEntry → List Char
  | scalar key _ _ => key
  | allowedIps _ => "allowed_ips".toList

def events : PeerEntry → List YamlEvent
  | scalar key value _ => [.scalar key, .scalar value]
  | allowedIps cidrs =>
      [.scalar "allowed_ips".toList, .sequenceStart] ++
        (cidrs.flatMap (fun s => [.scalar s]) ++ [.sequenceEnd])

end PeerEntry

/-- A peer mapping. -/
structure PeerDoc where
  entries : List PeerEntry
  distinct : (entries.map PeerEntry.key).Nodup

def PeerDoc.events (p : PeerDoc) : List YamlEvent :=
  [.mappingStart] ++ (p.entries.flatMap PeerEntry.events ++ [.mappingEnd])

theorem publicKey_ne_allowedIps : "public_key".toList ≠ "allowed_ips".toList := by decide

/-- A peer with one allowed network and nothing else. -/
def networkPeer : PeerDoc := ⟨[.allowedIps ["10.9.0.0/24".toList]], by decide⟩

/-- A resolver that knows no host. -/
def plainEnv : LoadEnv := ⟨true, fun _ _ => none⟩

/-- An entry of the root mapping. -/
inductive RootEntry where
  | scalar (key value : List Char) (h : key ≠ "peers".toList)
  | peers (docs : List PeerDoc)

namespace RootEntry

def key : RootEntry → List Char
  | scalar key _ _ => key
  | peers _ => "peers".toList

def events : RootEntry → List YamlEvent
  | scalar key value _ => [.scalar key, .scalar value]
  | peers docs =>
      [.scalar "peers".toList, .sequenceStart] ++
        (docs.flatMap PeerDoc.events ++ [.sequenceEnd])

end RootEntry

/-- A configuration document. -/
structure ConfigDoc where
  entries : List RootEntry
  distinct : (entries.map RootEntry.key).Nodup

/-- The events between the start of the root mapping and its end, in their stream. -/
def inDocument (evs : List YamlEvent) : List YamlEvent :=
  [.streamStart, .documentStart, .mappingStart] ++ evs ++ [.mappingEnd, .documentEnd, .streamEnd]

def ConfigDoc.events (d : ConfigDoc) : List YamlEvent :=
  inDocument (d.entries.flatMap RootEntry.events)

/-! ## What an entry does -/

variable {O : OpenSSL}

/-- One entry of a peer mapping. -/
def PeerEntry.apply (env : LoadEnv) (pc : PeerConfig O.suite) :
    PeerEntry → Option (PeerConfig O.suite)
  | scalar key value _ => setPeer env key value pc
  | allowedIps cidrs => cidrs.foldlM (fun pc s => addRoute s pc) pc

/-- A whole peer mapping. -/
def PeerDoc.apply (env : LoadEnv) (c : Config O.suite) (p : PeerDoc) : Option (Config O.suite) :=
  if MAX_PEERS ≤ c.peers.length then none
  else (p.entries.foldlM (PeerEntry.apply env) (.zero O.suite)).map fun pc =>
    { c with peers := c.peers ++ [pc] }

/-- One entry of the root mapping. -/
def RootEntry.apply (env : LoadEnv) (c : Config O.suite) : RootEntry → Option (Config O.suite)
  | scalar key value _ => some (setRoot key value c)
  | peers docs => docs.foldlM (PeerDoc.apply env) c

/-! ## Keys in their buffers -/

/-- Cutting a key to its buffer makes no known key of it. -/
theorem take_eq_iff {key name : List Char} (h : name.length < 63) :
    key.take 63 = name ↔ key = name := by
  constructor
  · intro heq
    have hlen : (key.take 63).length < 63 := by rw [heq]; exact h
    rw [List.length_take] at hlen
    rw [← heq, List.take_of_length_le (by omega)]
  · rintro rfl
    exact List.take_of_length_le (by omega)

theorem RootKey.name_length (k : RootKey) : k.name.length < 63 := by
  cases k <;> decide

theorem setRoot_take {S : Suite} (key v : List Char) (c : Config S) :
    setRoot (key.take 63) v c = setRoot key v c := by
  have hfun : (fun k : RootKey => decide (k.name = key.take 63)) =
      fun k => decide (k.name = key) := by
    funext k
    rw [decide_eq_decide, eq_comm, take_eq_iff k.name_length, eq_comm]
  rw [setRoot, hfun, setRoot]

theorem setPeer_take (env : LoadEnv) (key v : List Char) (pc : PeerConfig O.suite) :
    setPeer env (key.take 63) v pc = setPeer env key v pc := by
  simp only [setPeer, take_eq_iff (show ("public_key".toList).length < 63 by decide),
    take_eq_iff (show ("endpoint".toList).length < 63 by decide)]

/-! ## The last peer -/

theorem Config.atLastPeer_of_peers {S : Suite} {c : Config S} {ps : List (PeerConfig S)}
    {pc : PeerConfig S} (hc : c.peers = ps ++ [pc]) (f : PeerConfig S → Option (PeerConfig S)) :
    c.atLastPeer f = (f pc).map fun pc' => { c with peers := ps ++ [pc'] } := by
  unfold Config.atLastPeer
  rw [hc, List.getLast?_append_cons, List.getLast?_singleton, List.dropLast_concat]

theorem Config.atLastPeer_eq_some {S : Suite} {c c' : Config S}
    {f : PeerConfig S → Option (PeerConfig S)} (h : c.atLastPeer f = some c') :
    ∃ ps pc pc', c.peers = ps ++ [pc] ∧ f pc = some pc' ∧
      c' = { c with peers := ps ++ [pc'] } := by
  unfold Config.atLastPeer at h
  split at h
  · cases h
  · rename_i pc hlast
    obtain ⟨pc', hpc', rfl⟩ := Option.map_eq_some_iff.mp h
    obtain ⟨ps, hps⟩ := List.getLast?_eq_some_iff.mp hlast
    refine ⟨ps, pc, pc', hps, hpc', ?_⟩
    rw [hps, List.dropLast_concat]

/-- Changes of the last peer one after another. -/
theorem Config.foldlM_atLastPeer {S : Suite} {α : Type}
    (f : PeerConfig S → α → Option (PeerConfig S)) (items : List α) {c : Config S}
    {ps : List (PeerConfig S)} {pc : PeerConfig S} (hc : c.peers = ps ++ [pc]) :
    items.foldlM (fun c x => c.atLastPeer fun pc => f pc x) c =
      c.atLastPeer fun pc => items.foldlM f pc := by
  induction items generalizing c pc with
  | nil =>
      rw [Config.atLastPeer_of_peers hc]
      simp [← hc]
  | cons x items ih =>
      rw [List.foldlM_cons, Config.atLastPeer_of_peers hc, Config.atLastPeer_of_peers hc,
        List.foldlM_cons]
      cases hx : f pc x with
      | none => rfl
      | some pc' =>
          show items.foldlM _ { c with peers := ps ++ [pc'] } = _
          rw [ih (c := { c with peers := ps ++ [pc'] }) rfl, Config.atLastPeer_of_peers rfl]
          rfl

/-- There is a last peer. -/
def Config.HasPeer {S : Suite} (c : Config S) : Prop := ∃ ps pc, c.peers = ps ++ [pc]

theorem Config.HasPeer.atLastPeer {S : Suite} {c c' : Config S}
    {f : PeerConfig S → Option (PeerConfig S)} (h : c.atLastPeer f = some c') : c'.HasPeer := by
  obtain ⟨ps, -, pc', -, -, rfl⟩ := Config.atLastPeer_eq_some h
  exact ⟨ps, pc', rfl⟩

/-! ## Entries in the stream -/

section Stream

variable {env : LoadEnv} {c : Config O.suite}

theorem yields_allowedIps (cidrs : List (List Char)) (hc : c.HasPeer) :
    Yields env .allowedIpsSeq c (cidrs.flatMap fun s => [.scalar s]) .allowedIpsSeq
      (c.atLastPeer fun pc => cidrs.foldlM (fun pc s => addRoute s pc) pc) := by
  obtain ⟨ps, pc, hpeers⟩ := hc
  rw [← Config.foldlM_atLastPeer (fun pc s => addRoute s pc) cidrs hpeers]
  refine Yields.flatMap Config.HasPeer (fun _ _ _ _ h => .atLastPeer h) cidrs ?_
    ⟨ps, pc, hpeers⟩
  intro s _ c _ key peerKey
  refine ⟨key, peerKey, ?_⟩
  show (onAllowedIpsSeq _ (.scalar s)).bind _ = _
  rw [onAllowedIpsSeq]
  cases c.atLastPeer (addRoute s) <;> rfl

/-- An entry of a peer mapping acts on the last peer. -/
theorem yields_peerEntry (e : PeerEntry) (hc : c.HasPeer) :
    Yields env .peerMap c e.events .peerMap (c.atLastPeer fun pc => e.apply env pc) := by
  cases e with
  | scalar k v h =>
      intro key peerKey
      refine ⟨key, k.take 63, ?_⟩
      have hset : setPeer (O := O) env (k.take 63) v = setPeer env k v :=
        funext (setPeer_take env k v)
      show (onPeerVal env (⟨.peerVal, key, k.take 63, c⟩ : Loader O) (.scalar v)).bind _ =
        (c.atLastPeer (setPeer env k v)).map _
      rw [onPeerVal, hset]
      cases c.atLastPeer (setPeer env k v) <;> rfl
  | allowedIps cidrs =>
      have hopen : Yields env .peerMap c [.scalar "allowed_ips".toList, .sequenceStart]
          .allowedIpsSeq (some c) :=
        fun key peerKey => ⟨key, "allowed_ips".toList, by rfl⟩
      have hclose : ∀ c' : Config O.suite,
          Yields env .allowedIpsSeq c' [.sequenceEnd] .peerMap (some c') :=
        fun c' key peerKey => ⟨key, peerKey, rfl⟩
      exact hopen.between (yields_allowedIps cidrs hc) hclose

/-- What is between the start and the end of a peer mapping acts on a new peer. -/
theorem yields_peerMapping {evs : List YamlEvent}
    {f : PeerConfig O.suite → Option (PeerConfig O.suite)}
    (h : ∀ c : Config O.suite, c.HasPeer → Yields env .peerMap c evs .peerMap (c.atLastPeer f)) :
    Yields env .peersSeq c ([YamlEvent.mappingStart] ++ (evs ++ [YamlEvent.mappingEnd])) .peersSeq
      (if MAX_PEERS ≤ c.peers.length then none
        else (f (.zero O.suite)).map fun pc => { c with peers := c.peers ++ [pc] }) := by
  by_cases hfull : MAX_PEERS ≤ c.peers.length
  · rw [if_pos hfull]
    intro key peerKey
    refine ⟨key, peerKey, ?_⟩
    show (onPeersSeq (⟨.peersSeq, key, peerKey, c⟩ : Loader O) .mappingStart).bind _ = _
    rw [onPeersSeq, if_pos hfull]
    rfl
  · rw [if_neg hfull]
    have hopen : Yields env .peersSeq c [.mappingStart] .peerMap
        (some { c with peers := c.peers ++ [.zero O.suite] }) := by
      intro key peerKey
      refine ⟨key, peerKey, ?_⟩
      show (onPeersSeq (⟨.peersSeq, key, peerKey, c⟩ : Loader O) .mappingStart).bind _ = _
      rw [onPeersSeq, if_neg hfull]
      rfl
    have hbody := h { c with peers := c.peers ++ [.zero O.suite] } ⟨_, _, rfl⟩
    rw [Config.atLastPeer_of_peers rfl] at hbody
    have hclose : ∀ c' : Config O.suite,
        Yields env .peerMap c' [.mappingEnd] .peersSeq (some c') :=
      fun c' key peerKey => ⟨key, peerKey, rfl⟩
    exact hopen.between hbody hclose

/-- Entries of a peer mapping act on the last peer, one after another. -/
theorem yields_peerEntries (es : List PeerEntry) (hc : c.HasPeer) :
    Yields env .peerMap c (es.flatMap PeerEntry.events) .peerMap
      (c.atLastPeer fun pc => es.foldlM (PeerEntry.apply env) pc) := by
  have hbody : Yields env .peerMap c (es.flatMap PeerEntry.events) .peerMap
      (es.foldlM (fun c e => c.atLastPeer fun pc => e.apply env pc) c) :=
    Yields.flatMap Config.HasPeer (fun _ _ _ _ h => .atLastPeer h) es
      (fun e _ c hc => yields_peerEntry e hc) hc
  obtain ⟨ps, pc, hpeers⟩ := hc
  rwa [Config.foldlM_atLastPeer (PeerEntry.apply env) es hpeers] at hbody

/-- A peer mapping adds a peer. -/
theorem yields_peerDoc (p : PeerDoc) :
    Yields env .peersSeq c p.events .peersSeq (p.apply env c) :=
  yields_peerMapping (fun _ hc => yields_peerEntries p.entries hc)

theorem yields_peerDocs (docs : List PeerDoc) :
    Yields env .peersSeq c (docs.flatMap PeerDoc.events) .peersSeq
      (docs.foldlM (PeerDoc.apply env) c) :=
  Yields.flatMap (fun _ => True) (fun _ _ _ _ _ => trivial) docs (fun p _ _ _ => yields_peerDoc p)
    trivial

/-- The list `peers`. -/
theorem yields_peersList {evs : List YamlEvent} {r : Option (Config O.suite)}
    (h : Yields env .peersSeq c evs .peersSeq r) :
    Yields env .root c
      ([YamlEvent.scalar "peers".toList, .sequenceStart] ++ (evs ++ [YamlEvent.sequenceEnd])) .root
      r := by
  have hopen : Yields env .root c [.scalar "peers".toList, .sequenceStart] .peersSeq (some c) :=
    fun key peerKey => ⟨"peers".toList, peerKey, by rfl⟩
  have hclose : ∀ c' : Config O.suite,
      Yields env .peersSeq c' [.sequenceEnd] .root (some c') :=
    fun c' key peerKey => ⟨key, peerKey, rfl⟩
  exact hopen.between h hclose

/-- An entry of the root mapping. -/
theorem yields_rootEntry (e : RootEntry) :
    Yields env .root c e.events .root (e.apply env c) := by
  cases e with
  | scalar k v h =>
      intro key peerKey
      refine ⟨k.take 63, peerKey, ?_⟩
      show (onRootVal (⟨.rootVal, k.take 63, peerKey, c⟩ : Loader O) (.scalar v)).bind _ = _
      rw [onRootVal, setRoot_take]
      rfl
  | peers docs => exact yields_peersList (yields_peerDocs docs)

theorem yields_rootEntries (es : List RootEntry) :
    Yields env .root c (es.flatMap RootEntry.events) .root (es.foldlM (RootEntry.apply env) c) :=
  Yields.flatMap (fun _ => True) (fun _ _ _ _ _ => trivial) es (fun e _ _ _ => yields_rootEntry e)
    trivial

/-- The frame around the root mapping is skipped. -/
theorem loadConfig_inDocument {evs : List YamlEvent} {r : Option (Config O.suite)}
    (hevs : .streamEnd ∉ evs) (h : Yields env .root c evs .root r) :
    loadConfig env c (inDocument evs) = r := by
  have hopen : Yields env .root c [.streamStart, .documentStart, .mappingStart] .root (some c) :=
    fun key peerKey => ⟨key, peerKey, rfl⟩
  have hclose : ∀ c' : Config O.suite,
      Yields env .root c' [.mappingEnd, .documentEnd] .root (some c') :=
    fun c' key peerKey => ⟨key, peerKey, rfl⟩
  obtain ⟨key, peerKey, hrun⟩ := hopen.between h hclose [] []
  have hsplit : inDocument evs =
      ([YamlEvent.streamStart, .documentStart, .mappingStart] ++
        (evs ++ [YamlEvent.mappingEnd, .documentEnd])) ++ [YamlEvent.streamEnd] := by
    simp [inDocument]
  rw [loadConfig, hsplit, loadEvents_append_streamEnd _ _ _ (by simpa using hevs), hrun]
  cases r <;> rfl

end Stream

@[simp] theorem PeerEntry.streamEnd_not_mem (e : PeerEntry) : .streamEnd ∉ e.events := by
  cases e <;> simp [PeerEntry.events]

@[simp] theorem PeerDoc.streamEnd_not_mem (p : PeerDoc) : .streamEnd ∉ p.events := by
  simp [PeerDoc.events]

@[simp] theorem RootEntry.streamEnd_not_mem (e : RootEntry) : .streamEnd ∉ e.events := by
  cases e <;> simp [RootEntry.events]

/-- **The loader takes the entries of the root mapping one after another.** -/
theorem loadConfig_events (env : LoadEnv) (init : Config O.suite) (d : ConfigDoc) :
    loadConfig env init d.events = d.entries.foldlM (RootEntry.apply env) init :=
  loadConfig_inDocument (by simp) (yields_rootEntries d.entries)

end Lanecove
