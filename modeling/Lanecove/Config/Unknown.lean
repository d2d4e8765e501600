import Lanecove.Config.Changes
import Lanecove.Handshake.Agreement

set_option autoImplicit false

/-! # Entries under unknown keys

A key the loader does not know may have any YAML node as its value. The loader keeps no nesting
depth: after the key it waits for one scalar, wherever in the value it stands, and goes on reading
keys from there; in a peer mapping the end of any mapping ends the peer. So with no scalar in the
value the next key of the document is taken for it, and with more the further ones are taken for
keys.

Run over the entry, the reader (`Config/Reader.lean`) says what happens. An entry is ignored in
every document exactly if the reader comes back to the mapping and makes no assignment with an
effect (`Place.Skips`, `unknown_entry_ignored`). In a given document it is ignored also if the rest
of the stream makes up for it, as it does for a list without scalars at the very end.
-/

namespace Lanecove

/-! ## YAML nodes -/

mutual

/-- A node of a YAML document. -/
inductive YamlNode where
  | scalar (value : List Char)
  | alias
  | sequence (items : YamlNodes)
  | mapping (entries : YamlEntries)

/-- The items of a sequence. -/
inductive YamlNodes where
  | nil
  | cons (node : YamlNode) (rest : YamlNodes)

/-- The entries of a mapping. -/
inductive YamlEntries where
  | nil
  | cons (key value : YamlNode) (rest : YamlEntries)

end

mutual

def YamlNode.events : YamlNode → List YamlEvent
  | .scalar value => [.scalar value]
  | .alias => [.alias]
  | .sequence items => [.sequenceStart] ++ (items.events ++ [.sequenceEnd])
  | .mapping entries => [.mappingStart] ++ (entries.events ++ [.mappingEnd])

def YamlNodes.events : YamlNodes → List YamlEvent
  | .nil => []
  | .cons node rest => node.events ++ rest.events

def YamlEntries.events : YamlEntries → List YamlEvent
  | .nil => []
  | .cons key value rest => key.events ++ (value.events ++ rest.events)

end

mutual

theorem YamlNode.streamEnd_not_mem : ∀ n : YamlNode, .streamEnd ∉ n.events
  | .scalar value => by simp [YamlNode.events]
  | .alias => by simp [YamlNode.events]
  | .sequence items => by simp [YamlNode.events, items.streamEnd_not_mem]
  | .mapping entries => by simp [YamlNode.events, entries.streamEnd_not_mem]

theorem YamlNodes.streamEnd_not_mem : ∀ ns : YamlNodes, .streamEnd ∉ ns.events
  | .nil => by simp [YamlNodes.events]
  | .cons node rest => by
      simp [YamlNodes.events, node.streamEnd_not_mem, rest.streamEnd_not_mem]

theorem YamlEntries.streamEnd_not_mem : ∀ es : YamlEntries, .streamEnd ∉ es.events
  | .nil => by simp [YamlEntries.events]
  | .cons key value rest => by
      simp [YamlEntries.events, key.streamEnd_not_mem, value.streamEnd_not_mem,
        rest.streamEnd_not_mem]

end

/-! ## Values the loader skips -/

/-- The mapping an extra entry is put into. -/
inductive Place where
  | root
  | peer

namespace Place

/-- The key is none the loader knows at this place. -/
def Unknown (key : List Char) : Place → Prop
  | root => key ≠ "peers".toList ∧ ∀ k : RootKey, k.name ≠ key
  | peer => key ≠ "allowed_ips".toList ∧ key ≠ "public_key".toList ∧ key ≠ "endpoint".toList

/-- Where the next key of the mapping is read. -/
def cursor : Place → Cursor
  | root => .root
  | peer => .peerMap

end Place

/-- The events of an entry. -/
def entryEvents (key : List Char) (value : YamlNode) : List YamlEvent :=
  .scalar key :: value.events

@[simp] theorem streamEnd_not_mem_entryEvents (key : List Char) (value : YamlNode) :
    .streamEnd ∉ entryEvents key value := by
  simp [entryEvents, value.streamEnd_not_mem]

/-- The entry leaves the reader where it was, and makes no assignment with an effect. -/
def Place.Skips (place : Place) (key : List Char) (value : YamlNode) : Prop :=
  place.cursor.after (entryEvents key value) = place.cursor ∧
    ∀ a ∈ place.cursor.reads (entryEvents key value), a.Idle

instance (place : Place) (key : List Char) (value : YamlNode) :
    Decidable (place.Skips key value) := inferInstanceAs (Decidable (_ ∧ _))

/-! ## Documents with an extra entry -/

/-- The events of the document with an extra entry at some position of the root mapping or of a peer
mapping. -/
inductive ConfigDoc.WithExtra (d : ConfigDoc) (key : List Char) (value : YamlNode) :
    Place → List YamlEvent → Prop
  | root {l₁ l₂ : List RootEntry} (h : d.entries = l₁ ++ l₂) :
      WithExtra d key value .root (inDocument (l₁.flatMap RootEntry.events ++
        (entryEvents key value ++ l₂.flatMap RootEntry.events)))
  | peer {l₁ l₂ : List RootEntry} {ps qs : List PeerDoc} {p : PeerDoc} {e₁ e₂ : List PeerEntry}
      (h : d.entries = l₁ ++ .peers (ps ++ p :: qs) :: l₂) (hp : p.entries = e₁ ++ e₂) :
      WithExtra d key value .peer (inDocument (l₁.flatMap RootEntry.events ++
        (([.scalar "peers".toList, .sequenceStart] ++
          ((ps.flatMap PeerDoc.events ++
            (([.mappingStart] ++
              ((e₁.flatMap PeerEntry.events ++
                (entryEvents key value ++ e₂.flatMap PeerEntry.events)) ++ [.mappingEnd])) ++
              qs.flatMap PeerDoc.events)) ++ [.sequenceEnd])) ++
          l₂.flatMap RootEntry.events)))

section Stream

theorem Cursor.after_flatMap {α : Type} {u : Cursor} {f : α → List YamlEvent} {l : List α}
    (h : ∀ x ∈ l, u.after (f x) = u) : u.after (l.flatMap f) = u := by
  induction l with
  | nil => rfl
  | cons x l ih =>
      rw [List.flatMap_cons, after_append, h x List.mem_cons_self]
      exact ih fun y hy => h y (List.mem_cons_of_mem _ hy)

theorem after_peerEntry (e : PeerEntry) : Cursor.peerMap.after e.events = .peerMap := by
  cases e with
  | scalar k v h => rfl
  | allowedIps cidrs =>
      have hcidrs : Cursor.allowedIpsSeq.after (cidrs.flatMap fun s => [.scalar s])
          = .allowedIpsSeq := Cursor.after_flatMap fun _ _ => rfl
      rw [PeerEntry.events, Cursor.after_append, Cursor.after_append]
      exact congrArg (Cursor.after · [.sequenceEnd]) hcidrs

theorem after_peerDoc (p : PeerDoc) : Cursor.peersSeq.after p.events = .peersSeq := by
  rw [PeerDoc.events, Cursor.after_append, Cursor.after_append]
  exact congrArg (Cursor.after · [.mappingEnd]) (Cursor.after_flatMap fun e _ => after_peerEntry e)

theorem after_rootEntry (e : RootEntry) : Cursor.root.after e.events = .root := by
  cases e with
  | scalar k v h => rfl
  | peers docs =>
      rw [RootEntry.events, Cursor.after_append, Cursor.after_append]
      exact congrArg (Cursor.after · [.sequenceEnd])
        (Cursor.after_flatMap fun p _ => after_peerDoc p)

/-- The entry is put where the loader reads the next key. -/
theorem ConfigDoc.WithExtra.split {d : ConfigDoc} {key : List Char} {value : YamlNode}
    {place : Place} {evs : List YamlEvent} (h : d.WithExtra key value place evs) :
    ∃ before after, .streamEnd ∉ before ∧ .streamEnd ∈ after ∧
      Cursor.root.after before = place.cursor ∧
      evs = before ++ (entryEvents key value ++ after) ∧ d.events = before ++ after := by
  cases h with
  | @root l₁ l₂ h =>
      refine ⟨[.streamStart, .documentStart, .mappingStart] ++ l₁.flatMap RootEntry.events,
        l₂.flatMap RootEntry.events ++ [.mappingEnd, .documentEnd, .streamEnd], by simp, by simp,
        ?_, by simp [inDocument], by simp [ConfigDoc.events, inDocument, h]⟩
      rw [Cursor.after_append]
      exact Cursor.after_flatMap fun e _ => after_rootEntry e
  | @peer l₁ l₂ ps qs p e₁ e₂ h hp =>
      refine ⟨[.streamStart, .documentStart, .mappingStart] ++ (l₁.flatMap RootEntry.events ++
          (.scalar "peers".toList :: .sequenceStart :: (ps.flatMap PeerDoc.events ++
            .mappingStart :: e₁.flatMap PeerEntry.events))),
        e₂.flatMap PeerEntry.events ++ .mappingEnd :: (qs.flatMap PeerDoc.events ++
          .sequenceEnd :: (l₂.flatMap RootEntry.events ++
            [.mappingEnd, .documentEnd, .streamEnd])), by simp, by simp, ?_,
        by simp [inDocument],
        by simp [ConfigDoc.events, inDocument, h, RootEntry.events, PeerDoc.events, hp]⟩
      -- the entries in front leave the reader where it was, at each of the three levels
      have hroot : Cursor.root.after (l₁.flatMap RootEntry.events) = .root :=
        Cursor.after_flatMap fun e _ => after_rootEntry e
      have hpeers : Cursor.peersSeq.after (ps.flatMap PeerDoc.events) = .peersSeq :=
        Cursor.after_flatMap fun q _ => after_peerDoc q
      have hentries : Cursor.peerMap.after (e₁.flatMap PeerEntry.events) = .peerMap :=
        Cursor.after_flatMap fun e _ => after_peerEntry e
      rw [Cursor.after_append, Cursor.after_append]
      show ((Cursor.root.after (l₁.flatMap RootEntry.events)).after _) = _
      rw [hroot, Cursor.after_cons, Cursor.after_cons]
      show (Cursor.peersSeq.after _) = _
      rw [Cursor.after_append, hpeers, Cursor.after_cons]
      exact hentries

variable {d : ConfigDoc} {key : List Char} {value : YamlNode} {place : Place}
  {evs : List YamlEvent}

/-- An entry that is skipped adds no assignment with an effect. -/
theorem Place.Skips.significant_eq (h : place.Skips key value)
    (hevs : d.WithExtra key value place evs) :
    significant (assignments evs) = significant (assignments d.events) := by
  obtain ⟨before, after, hbefore, -, hplace, rfl, hd⟩ := hevs.split
  have hnone : significant (place.cursor.reads (entryEvents key value)) = [] :=
    List.filter_eq_nil_iff.mpr fun a ha => by simpa using h.2 a ha
  rw [hd, assignments, assignments, beforeEnd_append hbefore, beforeEnd_append hbefore,
    beforeEnd_append (streamEnd_not_mem_entryEvents key value), Cursor.reads_append,
    Cursor.reads_append, Cursor.reads_append, hplace, h.1, significant, significant,
    List.filter_append, List.filter_append, List.filter_append, ← significant, ← significant,
    ← significant, hnone, List.nil_append]

/-- Streams with the same assignments are loaded alike. -/
theorem ConfigDoc.WithExtra.load_eq {O : OpenSSL} (hevs : d.WithExtra key value place evs)
    (hsame : significant (assignments evs) = significant (assignments d.events)) (env : LoadEnv)
    (init : Config O.suite) : loadConfig env init evs = loadConfig env init d.events := by
  obtain ⟨before, after, -, hend, -, rfl, hd⟩ := hevs.split
  rw [loadConfig_eq, loadConfig_eq, if_pos (by simp [hend]), if_pos (by simp [hd, hend]),
    ← assign_significant, hsame, assign_significant]

end Stream

/-! ## Entries that are not skipped -/

section Exact

variable {O : OpenSSL} {key : List Char} {value : YamlNode}

/-- The entry is ignored in every document, if the resolver knows no host. -/
def Place.Ignored (O : OpenSSL) (place : Place) (key : List Char) (value : YamlNode) : Prop :=
  ∀ (init : Config O.suite) (d : ConfigDoc) (evs : List YamlEvent),
    d.WithExtra key value place evs →
    loadConfig plainEnv init evs = loadConfig plainEnv init d.events

/-- A peer without fields, and one with a key. -/
def keyedPeer : Bool → PeerDoc
  | false => ⟨[], by decide⟩
  | true => ⟨[.scalar "public_key".toList repeatedHex publicKey_ne_allowedIps], by decide⟩

/-- A document with a port. -/
def portDoc : ConfigDoc where
  entries := [.scalar "port".toList "5041".toList (by decide)]
  distinct := by decide

theorem assign_portDoc : (assign plainEnv (Config.default O.suite)
    (Cursor.root.reads (portDoc.entries.flatMap RootEntry.events))).map Config.port
      = some 5041 := by
  have hreads : Cursor.root.reads (portDoc.entries.flatMap RootEntry.events)
      = [.setting .port "5041".toList] := rfl
  rw [hreads, assign_singleton]
  exact congrArg some (by decide +kernel : CString.atoi "5041".toList = 5041)

/-- A setting gives the port the number of its text, or leaves it. -/
theorem port_set {S : Suite} (k : RootKey) (v : List Char) (c : Config S) :
    (k.set v c).port = CString.atoi v ∨ (k.set v c).port = c.port := by
  cases k with
  | port => exact .inl rfl
  | _ => exact .inr rfl

/-- Ends of collections and documents assign nothing. -/
theorem Cursor.reads_closing (u : Cursor) (evs : List YamlEvent)
    (h : ∀ ev ∈ evs, ev = .sequenceEnd ∨ ev = .mappingEnd ∨ ev = .documentEnd) :
    u.reads evs = [] := by
  induction evs generalizing u with
  | nil => rfl
  | cons ev evs ih =>
      have hev : u.assigns ev = [] := by
        rcases h ev List.mem_cons_self with rfl | rfl | rfl <;> cases u <;> rfl
      rw [reads_cons, hev, List.nil_append]
      exact ih _ fun x hx => h x (List.mem_cons_of_mem _ hx)

theorem loadConfig_inDocument_eq (env : LoadEnv) (init : Config O.suite) {evs : List YamlEvent}
    (h : .streamEnd ∉ evs) :
    loadConfig env init (inDocument evs) = assign env init (Cursor.root.reads evs) := by
  have hend : assignments (inDocument evs) = Cursor.root.reads evs := by
    rw [assignments, inDocument, List.append_assoc, beforeEnd_append (by simp),
      beforeEnd_append h, Cursor.reads_append, Cursor.reads_append,
      Cursor.reads_closing _ (beforeEnd _) (by decide), List.append_nil]
    rfl
  rw [loadConfig_eq, if_pos (by simp [inDocument]), hend]

/-- An entry that is ignored in every document makes no assignment with an effect at the root. -/
theorem idle_of_ignored_root (h : Place.root.Ignored O key value) :
    ∀ a ∈ Cursor.root.reads (entryEvents key value), a.Idle := by
  intro a ha
  by_contra hidle
  obtain ⟨c, b, hne⟩ := exists_changed (O := O) ha hidle
  have hload := h (c.withPeer b) ⟨[], .nil⟩ _ (@ConfigDoc.WithExtra.root _ key value [] [] rfl)
  simp only [List.flatMap_nil, List.nil_append, List.append_nil] at hload
  rw [ConfigDoc.events, loadConfig_inDocument_eq _ _ (by simp),
    loadConfig_inDocument_eq _ _ (by simp)] at hload
  exact hne hload

/-- Nor does it leave the reader in the middle of a value, or in the list of peers: there it would
not see the port that follows. -/
theorem returns_of_ignored_root (h : Place.root.Ignored O key value) :
    Cursor.root.after (entryEvents key value) = .root := by
  have hidle := idle_of_ignored_root h
  obtain hnew | ⟨hout, -⟩ := Cursor.newPeer_mem (u := .root) rfl (entryEvents key value)
  · exact absurd (hidle _ hnew) id
  have hload := h (Config.default O.suite) portDoc _
    (@ConfigDoc.WithExtra.root _ key value [] portDoc.entries rfl)
  rw [ConfigDoc.events, loadConfig_inDocument_eq _ _ (by simp),
    loadConfig_inDocument_eq _ _ (by simp)] at hload
  simp only [List.flatMap_nil, List.nil_append, Cursor.reads_append, assign_append,
    assign_idle hidle, Option.bind_some] at hload
  have hport := (congrArg (Option.map Config.port) hload).trans assign_portDoc
  -- in any other place the reader takes `port` for a value or skips it
  have hother : (Config.default O.suite).port ≠ 5041 := (by decide : (5040 : Int) ≠ 5041)
  cases hu : Cursor.root.after (entryEvents key value) with
  | root => rfl
  | rootVal k =>
      rw [hu] at hport
      have hset : assign plainEnv (Config.default O.suite) ((Cursor.rootVal k).reads
          (portDoc.entries.flatMap RootEntry.events))
            = some (setRoot k "port".toList (Config.default O.suite)) := by
        show assign plainEnv _ (Cursor.assignSetting k "port".toList ++ []) = _
        rw [List.append_nil, assign_assignSetting]
      rw [hset] at hport
      rcases setRoot_cases k "port".toList (Config.default O.suite) with ⟨k', -, heq⟩ | ⟨-, heq⟩
      · -- the text `port` is not the number of a port
        rw [heq] at hport
        have hzero : CString.atoi "port".toList = 0 := by decide +kernel
        rcases port_set k' "port".toList (Config.default O.suite) with hset | hset
        · exact absurd ((hset.trans hzero).symm.trans (Option.some.inj hport)) (by decide)
        · exact absurd (hset.symm.trans (Option.some.inj hport)) hother
      · rw [heq] at hport
        exact absurd (Option.some.inj hport) hother
  | peersSeq =>
      have hnone : Cursor.peersSeq.reads (portDoc.entries.flatMap RootEntry.events) = [] := rfl
      rw [hu, hnone, assign_nil] at hport
      exact absurd (Option.some.inj hport) hother
  | _ =>
      rw [hu] at hout
      cases hout

/-- A list of one peer. -/
theorem reads_onePeer (evs : List YamlEvent) :
    Cursor.root.reads (([.scalar "peers".toList, .sequenceStart] : List YamlEvent) ++
      ((([.mappingStart] : List YamlEvent) ++ (evs ++ [.mappingEnd])) ++ [.sequenceEnd]))
      = .newPeer :: Cursor.peerMap.reads evs := by
  rw [Cursor.reads_append, List.append_assoc, List.append_assoc, Cursor.reads_append,
    Cursor.reads_append, Cursor.reads_closing _ ([YamlEvent.mappingEnd] ++ _) (by decide),
    List.append_nil]
  rfl

theorem assign_keyedPeer (c : Config O.suite) (b : Bool) :
    assign plainEnv { c with peers := [] } (.newPeer :: Cursor.peerMap.reads
      ((keyedPeer b).entries.flatMap PeerEntry.events)) = some (c.withPeer b) := by
  cases b with
  | false => rfl
  | true =>
      show assign plainEnv { c with peers := [PeerConfig.zero O.suite] }
        [.publicKey repeatedHex] = _
      rw [assign_singleton, Assignment.apply, Config.atLastPeer_of_peers (List.nil_append _).symm,
        hexKey_repeatedHex]
      rfl

/-- An entry that is put into the one peer of a document, after `before` and in front of `after`. -/
theorem assign_of_ignored_peer (h : Place.peer.Ignored O key value)
    (init : Config O.suite) (p : PeerDoc) (before after : List PeerEntry)
    (hp : p.entries = before ++ after) :
    assign plainEnv init (.newPeer :: Cursor.peerMap.reads (before.flatMap PeerEntry.events ++
      (entryEvents key value ++ after.flatMap PeerEntry.events)))
    = assign plainEnv init
        (.newPeer :: Cursor.peerMap.reads (p.entries.flatMap PeerEntry.events)) := by
  have hload := h init ⟨[.peers [p]], List.nodup_singleton _⟩ _
    (@ConfigDoc.WithExtra.peer _ key value [] [] [] [] p before after rfl hp)
  simp only [ConfigDoc.events, List.flatMap_nil, List.flatMap_cons, List.nil_append,
    List.append_nil, RootEntry.events, PeerDoc.events] at hload
  rwa [loadConfig_inDocument_eq _ _ (by simp), loadConfig_inDocument_eq _ _ (by simp),
    reads_onePeer, reads_onePeer] at hload

theorem idle_of_ignored_peer (h : Place.peer.Ignored O key value) :
    ∀ a ∈ Cursor.peerMap.reads (entryEvents key value), a.Idle := by
  intro a ha
  by_contra hidle
  obtain ⟨c, b, hne⟩ := exists_changed (O := O) ha hidle
  -- the entry stands at the end of a peer that is empty, or has a key
  have hload := assign_of_ignored_peer h { c with peers := [] } (keyedPeer b)
    (keyedPeer b).entries [] (List.append_nil _).symm
  have hback : Cursor.peerMap.after ((keyedPeer b).entries.flatMap PeerEntry.events) = .peerMap :=
    Cursor.after_flatMap fun e _ => after_peerEntry e
  rw [List.flatMap_nil, List.append_nil, Cursor.reads_append, hback, ← List.cons_append,
    assign_append, assign_keyedPeer, Option.bind_some] at hload
  exact hne hload

/-- Neither a setting nor a field of a peer adds a peer or a route. -/
theorem countP_assignSetting (key v : List Char) :
    (Cursor.assignSetting key v).countP Assignment.grows = 0 := by
  unfold Cursor.assignSetting
  cases RootKey.all.find? fun k => decide (k.name = key) <;> rfl

theorem countP_assignField (peerKey v : List Char) :
    (Cursor.assignField peerKey v).countP Assignment.grows = 0 := by
  unfold Cursor.assignField
  split_ifs <;> rfl

theorem assign_networkPeer : ∃ c, assign plainEnv (Config.default O.suite) (.newPeer ::
    Cursor.peerMap.reads (networkPeer.entries.flatMap PeerEntry.events)) = some c := by
  obtain ⟨r, hr⟩ := Option.isSome_iff_exists.mp
    (by decide +kernel : (parseCidr "10.9.0.0/24".toList).isSome = true)
  have hroom : ¬ MAX_ROUTES_PER_PEER ≤ (PeerConfig.zero O.suite).routes.length :=
    (by decide : ¬ MAX_ROUTES_PER_PEER ≤ 0)
  refine ⟨{ Config.default O.suite with
    peers := [{ PeerConfig.zero O.suite with routes := [r] }] }, ?_⟩
  show assign plainEnv { Config.default O.suite with peers := [PeerConfig.zero O.suite] }
    [.route "10.9.0.0/24".toList] = _
  rw [assign_singleton, Assignment.apply, Config.atLastPeer_of_peers (List.nil_append _).symm,
    addRoute, if_neg hroom, hr]
  rfl

/-- The events of `networkPeer`. -/
theorem events_networkPeer : networkPeer.entries.flatMap PeerEntry.events
    = [.scalar "allowed_ips".toList, .sequenceStart, .scalar "10.9.0.0/24".toList,
      .sequenceEnd] := rfl

/-- Elsewhere than in a peer mapping they add no route, or try to add one with the text
`allowed_ips`. -/
theorem reads_networkPeer {u : Cursor} (hu : u ≠ .peerMap) :
    (u.reads (networkPeer.entries.flatMap PeerEntry.events)).countP Assignment.grows = 0 ∨
      .route "allowed_ips".toList ∈ u.reads (networkPeer.entries.flatMap PeerEntry.events) := by
  rw [events_networkPeer]
  cases u with
  | root => exact .inl (by decide +kernel)
  | rootVal k =>
      have hrest : Cursor.root.reads [.sequenceStart, .scalar "10.9.0.0/24".toList, .sequenceEnd]
          = [] := rfl
      refine .inl ?_
      rw [Cursor.reads_cons]
      show (Cursor.assignSetting k _ ++ Cursor.root.reads _).countP _ = 0
      rw [hrest, List.append_nil, countP_assignSetting]
  | peersSeq => exact .inl rfl
  | peerMap => exact absurd rfl hu
  | peerVal k =>
      have hrest : Cursor.peerMap.reads [.sequenceStart, .scalar "10.9.0.0/24".toList, .sequenceEnd]
          = [] := rfl
      refine .inl ?_
      rw [Cursor.reads_cons]
      show (Cursor.assignField k _ ++ Cursor.peerMap.reads _).countP _ = 0
      rw [hrest, List.append_nil, countP_assignField]
  | allowedIpsSeq => exact .inr List.mem_cons_self

/-- An entry that leaves the reader elsewhere takes away the network that follows. -/
theorem returns_of_ignored_peer (h : Place.peer.Ignored O key value) :
    Cursor.peerMap.after (entryEvents key value) = .peerMap := by
  have hidle := idle_of_ignored_peer h
  have hload := assign_of_ignored_peer h (Config.default O.suite) networkPeer []
    networkPeer.entries rfl
  rw [List.flatMap_nil, List.nil_append, Cursor.reads_append] at hload
  obtain ⟨c, hroute⟩ := assign_networkPeer (O := O)
  have hsome := hload.trans hroute
  by_contra hu
  rcases reads_networkPeer hu with hnone | hmem
  · -- the peer has one route without the entry and none with it
    have hentry : (Cursor.peerMap.reads (entryEvents key value)).countP Assignment.grows = 0 :=
      List.countP_eq_zero.mpr fun a ha => by rw [(hidle a ha).grows]; exact Bool.false_ne_true
    have hsize := (assign_size hsome).symm.trans (assign_size hroute)
    rw [List.countP_cons, List.countP_append, hentry, hnone] at hsize
    have htwo : (Assignment.newPeer :: Cursor.peerMap.reads (networkPeer.entries.flatMap
      PeerEntry.events)).countP Assignment.grows = 2 := rfl
    rw [htwo] at hsize
    exact absurd hsize (by simp [Assignment.grows])
  · -- `allowed_ips` is not a network
    obtain ⟨d, d', hd⟩ := assigned_of_mem hsome
      (List.mem_cons_of_mem _ (List.mem_append_right _ hmem))
    cases hd with
    | route _ _ hr =>
        rw [(by decide +kernel : parseCidr "allowed_ips".toList = none)] at hr
        cases hr

/-- **Entries under unknown keys.** An entry is ignored in every document of the documented schema,
wherever it is put into the root mapping or into a peer mapping, if and only if the reader skips it
there. In a given document it is ignored as soon as the stream makes the same assignments with an
effect as without it. -/
theorem unknown_entry_ignored (key : List Char) (value : YamlNode) (place : Place) :
    ((∀ (env : LoadEnv) (init : Config O.suite) (d : ConfigDoc) (evs : List YamlEvent),
        d.WithExtra key value place evs →
        loadConfig env init evs = loadConfig env init d.events) ↔ place.Skips key value) ∧
    ∀ (d : ConfigDoc) (evs : List YamlEvent), d.WithExtra key value place evs →
      significant (assignments evs) = significant (assignments d.events) →
      ∀ (env : LoadEnv) (init : Config O.suite),
        loadConfig env init evs = loadConfig env init d.events := by
  refine ⟨⟨fun h => ?_, fun h env init d evs hevs => ?_⟩, fun d evs hevs hsame env init => ?_⟩
  · cases place with
    | root => exact ⟨returns_of_ignored_root (h plainEnv), idle_of_ignored_root (h plainEnv)⟩
    | peer => exact ⟨returns_of_ignored_peer (h plainEnv), idle_of_ignored_peer (h plainEnv)⟩
  · exact hevs.load_eq (h.significant_eq hevs) env init
  · exact hevs.load_eq hsame env init

end Exact

/-- A port, and one peer with one allowed network. -/
def portAndPeerDoc : ConfigDoc where
  entries := [.scalar "port".toList "5041".toList (by decide), .peers [networkPeer]]
  distinct := by decide

/-- The port and the number of routes of each peer. -/
def portAndRoutes (evs : List YamlEvent) : Option (Int × List Nat) :=
  (loadConfig plainEnv (Config.default xorOpenSSL.suite) evs).map fun c =>
    (c.port, c.peers.map fun pc => pc.routes.length)

theorem note_unknown : Place.root.Unknown "note".toList :=
  ⟨by decide, fun k => by cases k <;> decide⟩

/-- Three scalars in a list under an unknown key are a value, an unknown key and its value. -/
def threeScalars : YamlNode :=
  .sequence (.cons (.scalar "a".toList) (.cons (.scalar "b".toList) (.cons (.scalar "c".toList)
    .nil)))

/-- The list is ignored in every document. A list without scalars is not, but it does no harm at the
very end of the document. -/
theorem unknown_entry_ignored_list :
    (∀ (env : LoadEnv) (init : Config xorOpenSSL.suite) (d : ConfigDoc) (evs : List YamlEvent),
      d.WithExtra "note".toList threeScalars .root evs →
      loadConfig env init evs = loadConfig env init d.events) ∧
    ¬ Place.root.Skips "note".toList (.sequence .nil) ∧
    ∃ evs, portAndPeerDoc.WithExtra "note".toList (.sequence .nil) .root evs ∧
      portAndRoutes evs = portAndRoutes portAndPeerDoc.events := by
  have hlast := @ConfigDoc.WithExtra.root portAndPeerDoc "note".toList (.sequence .nil)
    portAndPeerDoc.entries [] (List.append_nil _).symm
  refine ⟨(unknown_entry_ignored _ _ .root).1.mpr (by decide +kernel), by decide +kernel,
    _, hlast, ?_⟩
  rw [portAndRoutes, (unknown_entry_ignored _ _ .root).2 _ _ hlast (by decide +kernel)]
  rfl

/-- An empty list under an unknown key takes the next key for its value, and a mapping under an
unknown key in a peer ends the peer: the port and the allowed networks are lost. -/
theorem unknown_entry_changes_config :
    portAndRoutes portAndPeerDoc.events = some (5041, [1]) ∧
    (∃ evs, portAndPeerDoc.WithExtra "note".toList (.sequence .nil) .root evs ∧
      Place.root.Unknown "note".toList ∧ portAndRoutes evs = some (5040, [])) ∧
    ∃ evs, portAndPeerDoc.WithExtra "note".toList
      (.mapping (.cons (.scalar "a".toList) (.scalar "b".toList) .nil)) .peer evs ∧
      Place.peer.Unknown "note".toList ∧ portAndRoutes evs = some (5041, [0]) := by
  refine ⟨by decide +kernel, ⟨_, @ConfigDoc.WithExtra.root portAndPeerDoc _ _ []
    portAndPeerDoc.entries rfl, note_unknown, by decide +kernel⟩, ?_⟩
  refine ⟨_, @ConfigDoc.WithExtra.peer portAndPeerDoc _ _
    (portAndPeerDoc.entries.take 1) [] [] [] networkPeer [] networkPeer.entries ?_ rfl, ?_, ?_⟩
  · rfl
  · exact ⟨by decide, by decide, by decide⟩
  · decide +kernel

end Lanecove
