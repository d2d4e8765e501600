import Lanecove.Config.Reading
import Lanecove.Handshake.Agreement

set_option autoImplicit false

/-! # Loading a documented configuration

`load_config` on documents of the documented schema: it succeeds exactly on the valid ones
(`ConfigDoc.valid_of_load`, `ConfigDoc.Valid.load`), gives what they describe
(`ConfigDoc.describes_of_load`), and documents that agree on the known keys are loaded alike
(`ConfigDoc.Same.load`), so neither the order of the entries nor an unknown scalar matters.
-/

namespace Lanecove

open CString

variable {O : OpenSSL} {env : LoadEnv} {init c : Config O.suite} {d d' : ConfigDoc}

/-! ## Settings -/

theorem setRoot_name {S : Suite} (k : RootKey) (v : List Char) (c : Config S) :
    setRoot k.name v c = k.set v c := by
  cases k <;> rfl

/-- A key is known, and sets its value, or it has no effect. -/
theorem setRoot_cases {S : Suite} (key v : List Char) (c : Config S) :
    (∃ k : RootKey, k.name = key ∧ setRoot key v c = k.set v c) ∨
    ((∀ k : RootKey, k.name ≠ key) ∧ setRoot key v c = c) := by
  by_cases h : ∃ k : RootKey, k.name = key
  · obtain ⟨k, rfl⟩ := h
    exact Or.inl ⟨k, rfl, setRoot_name k v c⟩
  · have hnone : RootKey.all.find? (fun k => decide (k.name = key)) = none := by
      rw [List.find?_eq_none]
      intro k _ heq
      exact h ⟨k, of_decide_eq_true heq⟩
    refine Or.inr ⟨fun k heq => h ⟨k, heq⟩, ?_⟩
    rw [setRoot, hnone]

theorem setRoot_peers {S : Suite} (key v : List Char) (c : Config S) :
    (setRoot key v c).peers = c.peers := by
  rcases setRoot_cases key v c with ⟨k, -, heq⟩ | ⟨-, heq⟩
  · rw [heq]
    cases k <;> rfl
  · rw [heq]

theorem foldlM_peerDocs (docs : List PeerDoc) {c c' : Config O.suite} :
    docs.foldlM (PeerDoc.apply env) c = some c' ↔
      ∃ ps, List.Forall₂ (fun p pc => p.read env = some pc) docs ps ∧
        (docs = [] ∨ c.peers.length + docs.length ≤ MAX_PEERS) ∧
        c' = { c with peers := c.peers ++ ps } :=
  foldlM_push_eq_some Config.peers (fun c ps => { c with peers := ps })
    (fun _ _ => rfl) (fun _ _ => rfl) (fun _ _ _ => rfl) (fun _ => rfl) docs

namespace ConfigDoc

/-- The loader's work on the entries of the document. -/
def load (env : LoadEnv) (init : Config O.suite) (d : ConfigDoc) : Option (Config O.suite) :=
  d.entries.foldlM (RootEntry.apply env) init

/-- One setting, set by one key. -/
theorem settings_of_load (hfits : d.Fits) (h : d.load env init = some c) (k : RootKey) :
    Given d.scalars k.name (fun v x => x = k.meaning v (k.get init)) (k.get init) (k.get c) := by
  have hgiven := foldlM_given RootEntry.key (fun c => k.get c) k.name
    (fun e x => ∀ v hk, e = .scalar k.name v hk → (∀ n, k.room = some n → v.length ≤ n) →
      x = k.meaning v (k.get init)) ?_ ?_ d.entries d.distinct rfl h
  · refine ⟨?_, ?_⟩
    · intro v hv
      obtain ⟨hk, hmem⟩ := mem_scalars.mp hv
      exact hgiven.1 _ hmem rfl v hk rfl (hfits.settings k v hv)
    · intro hnone
      refine hgiven.2 (fun e he heq => ?_)
      cases e with
      | scalar key v hk =>
          obtain rfl : key = k.name := heq
          exact hnone v (mem_scalars.mpr ⟨hk, he⟩)
      | peers docs =>
          have hne : k.name ≠ "peers".toList := by cases k <;> decide
          exact hne heq.symm
  · rintro c e c' happ - hget v hk rfl hroom
    obtain rfl := Option.some.inj happ
    rw [setRoot_name, k.get_set v c hroom, hget]
  · intro c e c' happ hne
    cases e with
    | scalar key v hk =>
        obtain rfl := Option.some.inj happ
        rcases setRoot_cases key v c with ⟨k', rfl, heq⟩ | ⟨-, heq⟩
        · rw [heq]
          exact RootKey.get_set_of_ne (fun hkk => hne (by rw [← hkk]; rfl)) v c
        · rw [heq]
    | peers docs =>
        obtain ⟨ps, -, -, rfl⟩ := (foldlM_peerDocs docs).mp happ
        exact k.get_peers c _

/-- The peers come from the list `peers`, and there are at most 64. -/
theorem peers_of_load (hinit : init.peers = []) (h : d.load env init = some c) :
    List.Forall₂ (fun p pc => p.read env = some pc) d.peers c.peers ∧
      d.peers.length ≤ MAX_PEERS := by
  have hgiven := foldlM_given RootEntry.key Config.peers "peers".toList
    (fun e ps => ∀ docs, e = .peers docs →
      List.Forall₂ (fun p pc => p.read env = some pc) docs ps ∧ docs.length ≤ MAX_PEERS)
    ?_ ?_ d.entries d.distinct hinit h
  · by_cases hmem : ∃ docs, .peers docs ∈ d.entries
    · obtain ⟨docs, hdocs⟩ := hmem
      rw [peers_of_mem hdocs]
      exact hgiven.1 _ hdocs rfl docs rfl
    · have hnone : ∀ e ∈ d.entries, e.docs = [] ∧ e.key ≠ "peers".toList := by
        intro e he
        cases e with
        | scalar key v hk => exact ⟨rfl, hk⟩
        | peers docs => exact absurd ⟨docs, he⟩ hmem
      have hnil : d.peers = [] := List.flatMap_eq_nil_iff.mpr (fun e he => (hnone e he).1)
      rw [hnil, hgiven.2 (fun e he => (hnone e he).2)]
      exact ⟨.nil, Nat.zero_le _⟩
  · rintro c e c' happ - hempty docs rfl
    obtain ⟨ps, hps, hlen, rfl⟩ := (foldlM_peerDocs docs).mp happ
    rw [hempty] at hlen ⊢
    refine ⟨hps, ?_⟩
    rcases hlen with rfl | hlen
    · exact Nat.zero_le _
    · rwa [List.length_nil, Nat.zero_add] at hlen
  · intro c e c' happ hne
    cases e with
    | scalar key v hk =>
        obtain rfl := Option.some.inj happ
        exact setRoot_peers key v c
    | peers docs => exact absurd rfl hne

theorem describes_of_load (hfits : d.Fits) (hinit : init.peers = [])
    (h : d.load env init = some c) : d.Describes env init c where
  settings := settings_of_load hfits h
  peers := by
    have hread := (peers_of_load hinit h).1
    have hboth : List.Forall₂ (fun p pc => p.Fits ∧ p.read env = some pc) d.peers c.peers :=
      (List.forall₂_and_left _ _).mpr ⟨hfits.peers, hread⟩
    exact hboth.imp (fun p pc hp => PeerDoc.describes_of_read hp.1 hp.2)

theorem valid_of_load (hfits : d.Fits) (hinit : init.peers = []) (h : d.load env init = some c) :
    d.Valid env where
  count := (peers_of_load hinit h).2
  peers := by
    intro p hp
    obtain ⟨pc, -, hpc⟩ := exists_of_forall₂_mem (peers_of_load hinit h).1 hp
    exact PeerDoc.valid_of_read (hfits.peers p hp) hpc

/-- A valid document is loaded. -/
theorem Valid.load (hv : d.Valid env) (hfits : d.Fits) (hinit : init.peers = []) :
    ∃ c, d.load env init = some c := by
  have hreads : ∀ p ∈ d.peers, (p.read (O := O) env).isSome = true := by
    intro p hp
    obtain ⟨pc, hpc⟩ := (hv.peers p hp).read (O := O) (hfits.peers p hp)
    rw [hpc]
    rfl
  obtain ⟨ps, hps⟩ := exists_forall₂_iff.mpr hreads
  -- a suffix of the entries, as long as the list of peers in it is still to come
  have general : ∀ (es : List RootEntry) (c : Config O.suite), (∀ e ∈ es, e ∈ d.entries) →
      (es.map RootEntry.key).Nodup → ((∃ e ∈ es, e.key = "peers".toList) → c.peers = []) →
      ∃ c', es.foldlM (RootEntry.apply env) c = some c' := by
    intro es
    induction es with
    | nil => exact fun c _ _ _ => ⟨c, rfl⟩
    | cons e es ih =>
        intro c hsub hnodup hfresh
        rw [List.map_cons, List.nodup_cons] at hnodup
        have hmem := hsub e List.mem_cons_self
        have hstep : ∃ c₁, e.apply env c = some c₁ ∧
            ((∃ x ∈ es, x.key = "peers".toList) → c₁.peers = []) := by
          cases e with
          | scalar key v hk =>
              refine ⟨_, rfl, ?_⟩
              rintro ⟨x, hx, hkey⟩
              rw [setRoot_peers]
              exact hfresh ⟨x, List.mem_cons_of_mem _ hx, hkey⟩
          | peers docs =>
              have hdocs := peers_of_mem hmem
              have hempty := hfresh ⟨_, List.mem_cons_self, rfl⟩
              refine ⟨_, (foldlM_peerDocs docs).mpr ⟨ps, hdocs ▸ hps, Or.inr ?_, rfl⟩, ?_⟩
              · rw [hempty, List.length_nil, Nat.zero_add, ← hdocs]
                exact hv.count
              · rintro ⟨x, hx, hkey⟩
                refine absurd ?_ hnodup.1
                rw [show RootEntry.key (.peers docs) = "peers".toList from rfl, ← hkey]
                exact List.mem_map_of_mem hx
        obtain ⟨c₁, happ, hrest⟩ := hstep
        obtain ⟨c', hc'⟩ := ih c₁ (fun x hx => hsub x (List.mem_cons_of_mem _ hx)) hnodup.2 hrest
        refine ⟨c', ?_⟩
        rw [List.foldlM_cons, happ]
        exact hc'
  exact general d.entries init (fun _ he => he) d.distinct (fun _ => hinit)

/-- A document describes one configuration. -/
theorem Describes.unique {c c' : Config O.suite} (h : d.Describes env init c)
    (h' : d.Describes env init c') : c = c' := by
  refine RootKey.eq_of_get (fun k => ?_) ?_
  · exact (h.settings k).unique (fun v x y hx hy => by rw [hx, hy]) (h'.settings k)
  · have hfun : Relator.RightUnique (PeerDoc.Describes (O := O) env) :=
      fun p pc pc' hp hp' => hp.unique hp'
    exact hfun.forall₂ h.peers h'.peers

end ConfigDoc

/-! ## Documents that agree on the known keys -/

/-- The same key and endpoint, and the same allowed addresses in the same order. -/
structure PeerDoc.Same (p p' : PeerDoc) : Prop where
  pub : ∀ v, ("public_key".toList, v) ∈ p.scalars ↔ ("public_key".toList, v) ∈ p'.scalars
  endpoint : ∀ v, ("endpoint".toList, v) ∈ p.scalars ↔ ("endpoint".toList, v) ∈ p'.scalars
  cidrs : p.cidrs = p'.cidrs

/-- The same settings, and the same peers in the same order. -/
structure ConfigDoc.Same (d d' : ConfigDoc) : Prop where
  settings : ∀ (k : RootKey) v, (k.name, v) ∈ d.scalars ↔ (k.name, v) ∈ d'.scalars
  peers : List.Forall₂ PeerDoc.Same d.peers d'.peers

namespace PeerDoc.Same

variable {p p' : PeerDoc}

theorem symm (h : p.Same p') : p'.Same p :=
  ⟨fun v => (h.pub v).symm, fun v => (h.endpoint v).symm, h.cidrs.symm⟩

theorem fits (h : p.Same p') (hfits : p.Fits) : p'.Fits :=
  fun v hv => hfits v ((h.endpoint v).mpr hv)

theorem valid (h : p.Same p') (hv : p.Valid env) : p'.Valid env where
  pub v hmem := hv.pub v ((h.pub v).mpr hmem)
  endpoint v hmem := hv.endpoint v ((h.endpoint v).mpr hmem)
  count := h.cidrs ▸ hv.count
  routes := h.cidrs ▸ hv.routes

theorem describes (h : p.Same p') {pc : PeerConfig O.suite} (hd : p.Describes env pc) :
    p'.Describes env pc :=
  ⟨hd.pub.congr h.pub, hd.endpoint.congr h.endpoint, h.cidrs ▸ hd.routes, hd.lastAttempt⟩

end PeerDoc.Same

namespace ConfigDoc.Same

theorem symm (h : d.Same d') : d'.Same d :=
  ⟨fun k v => (h.settings k v).symm, h.peers.flip.imp (fun _ _ hp => hp.symm)⟩

theorem fits (h : d.Same d') (hfits : d.Fits) : d'.Fits where
  settings k v hv := hfits.settings k v ((h.settings k v).mpr hv)
  peers := by
    intro p' hp'
    obtain ⟨p, hp, hsame⟩ := exists_of_forall₂_mem h.symm.peers hp'
    exact hsame.symm.fits (hfits.peers p hp)

theorem valid (h : d.Same d') (hv : d.Valid env) : d'.Valid env where
  count := h.peers.length_eq ▸ hv.count
  peers := by
    intro p' hp'
    obtain ⟨p, hp, hsame⟩ := exists_of_forall₂_mem h.symm.peers hp'
    exact hsame.symm.valid (hv.peers p hp)

theorem describes (h : d.Same d') (hd : d.Describes env init c) : d'.Describes env init c where
  settings k := (hd.settings k).congr (h.settings k)
  peers := forall₂_of_forall₂ (fun _ _ _ hsame hp => hsame.describes hp) h.peers hd.peers

/-- Documents that agree on the known keys are loaded alike. -/
theorem load (h : d.Same d') (hfits : d.Fits) (hinit : init.peers = []) :
    d.load env init = d'.load env init := by
  have transfer : ∀ {d d' : ConfigDoc}, d.Same d' → d.Fits → ∀ c, d.load env init = some c →
      d'.load env init = some c := by
    intro d d' h hfits c hc
    obtain ⟨c', hc'⟩ := (h.valid (valid_of_load hfits hinit hc)).load (h.fits hfits) hinit
    have hd := h.describes (describes_of_load hfits hinit hc)
    rw [hc', hd.unique (describes_of_load (h.fits hfits) hinit hc')]
  cases hc : d.load env init with
  | some c => exact (transfer h hfits c hc).symm
  | none =>
      cases hc' : d'.load env init with
      | none => rfl
      | some c' =>
          rw [transfer h.symm (h.fits hfits) c' hc'] at hc
          cases hc

end ConfigDoc.Same

/-! ## Order, and unknown keys -/

/-- The entries of the mapping in another order. -/
def PeerDoc.Reordered (p p' : PeerDoc) : Prop := p.entries.Perm p'.entries

/-- The same entry, up to the order of entries in its peer mappings. -/
inductive RootEntry.Reordered : RootEntry → RootEntry → Prop
  | scalar (key value : List Char) (h : key ≠ "peers".toList) :
      Reordered (.scalar key value h) (.scalar key value h)
  | peers {docs docs' : List PeerDoc} (h : List.Forall₂ PeerDoc.Reordered docs docs') :
      Reordered (.peers docs) (.peers docs')

/-- The entries of the root mapping, and those of the peer mappings, in another order. -/
def ConfigDoc.Reordered (d d' : ConfigDoc) : Prop :=
  ∃ entries, List.Forall₂ RootEntry.Reordered d.entries entries ∧ entries.Perm d'.entries

theorem PeerDoc.Reordered.same {p p' : PeerDoc} (h : p.Reordered p') : p.Same p' := by
  have hscalar : ∀ k v, (k, v) ∈ p.scalars ↔ (k, v) ∈ p'.scalars := by
    intro k v
    rw [mem_scalars, mem_scalars]
    exact exists_congr (fun hk => h.mem_iff)
  refine ⟨hscalar _, hscalar _, ?_⟩
  by_cases hmem : ∃ cs, .allowedIps cs ∈ p.entries
  · obtain ⟨cs, hcs⟩ := hmem
    rw [cidrs_of_mem hcs, cidrs_of_mem (h.mem_iff.mp hcs)]
  · have hnil : ∀ q : PeerDoc, (∀ cs, .allowedIps cs ∉ q.entries) → q.cidrs = [] := by
      intro q hq
      rw [List.eq_nil_iff_forall_not_mem]
      intro s hs
      obtain ⟨cs, hcs, -⟩ := mem_cidrs.mp hs
      exact hq cs hcs
    rw [hnil p (fun cs hcs => hmem ⟨cs, hcs⟩),
      hnil p' (fun cs hcs => hmem ⟨cs, h.mem_iff.mpr hcs⟩)]

theorem ConfigDoc.Reordered.same (h : d.Reordered d') : d.Same d' := by
  obtain ⟨entries, hrel, hperm⟩ := h
  have hback : List.Forall₂ (fun e' e => RootEntry.Reordered e e') entries d.entries := hrel.flip
  refine ⟨?_, ?_⟩
  · intro k v
    rw [mem_scalars, mem_scalars]
    refine exists_congr (fun hk => ?_)
    rw [← hperm.mem_iff]
    constructor
    · intro hmem
      obtain ⟨e', he', hre⟩ := exists_of_forall₂_mem hrel hmem
      cases hre with
      | scalar => exact he'
    · intro hmem
      obtain ⟨e, he, hre⟩ := exists_of_forall₂_mem hback hmem
      cases hre with
      | scalar => exact he
  · by_cases hmem : ∃ docs, .peers docs ∈ d.entries
    · obtain ⟨docs, hdocs⟩ := hmem
      obtain ⟨e', he', hre⟩ := exists_of_forall₂_mem hrel hdocs
      cases hre with
      | peers hps =>
          rw [peers_of_mem hdocs, peers_of_mem (hperm.mem_iff.mp he')]
          exact hps.imp (fun _ _ hp => hp.same)
    · have hnil : d.peers = [] := by
        rw [ConfigDoc.peers, List.flatMap_eq_nil_iff]
        intro e he
        cases e with
        | scalar key v hk => rfl
        | peers docs => exact absurd ⟨docs, he⟩ hmem
      have hnil' : d'.peers = [] := by
        rw [ConfigDoc.peers, List.flatMap_eq_nil_iff]
        intro e he
        cases e with
        | scalar key v hk => rfl
        | peers docs =>
            obtain ⟨e, he, hre⟩ := exists_of_forall₂_mem hback (hperm.mem_iff.mpr he)
            cases hre with
            | peers _ => exact absurd ⟨_, he⟩ hmem
      rw [hnil, hnil']
      exact .nil

/-- `d'` is `d` with one more scalar entry, under a key the loader does not know, in the root
mapping or in a peer mapping. -/
inductive ConfigDoc.AddsUnknown (d d' : ConfigDoc) : Prop
  | root {l₁ l₂ : List RootEntry} {key value : List Char} {hk : key ≠ "peers".toList}
      (h : d.entries = l₁ ++ l₂) (h' : d'.entries = l₁ ++ .scalar key value hk :: l₂)
      (hkey : ∀ k : RootKey, k.name ≠ key)
  | peer {l₁ l₂ : List RootEntry} {ps qs : List PeerDoc} {p p' : PeerDoc} {e₁ e₂ : List PeerEntry}
      {key value : List Char} {hk : key ≠ "allowed_ips".toList}
      (h : d.entries = l₁ ++ .peers (ps ++ p :: qs) :: l₂)
      (h' : d'.entries = l₁ ++ .peers (ps ++ p' :: qs) :: l₂)
      (hp : p.entries = e₁ ++ e₂) (hp' : p'.entries = e₁ ++ .scalar key value hk :: e₂)
      (hpub : key ≠ "public_key".toList) (hend : key ≠ "endpoint".toList)

theorem PeerDoc.Same.refl (p : PeerDoc) : p.Same p := ⟨fun _ => Iff.rfl, fun _ => Iff.rfl, rfl⟩

theorem ConfigDoc.AddsUnknown.same (h : d.AddsUnknown d') : d.Same d' := by
  cases h with
  | root h h' hkey =>
      refine ⟨?_, ?_⟩
      · intro k v
        simp only [ConfigDoc.scalars, h, h', List.filterMap_append, List.mem_append,
          List.filterMap_cons, RootEntry.asScalar, List.mem_cons, Prod.mk.injEq, hkey k, false_and,
          false_or]
      · have hpeers : d.peers = d'.peers := by
          simp only [ConfigDoc.peers, h, h', List.flatMap_append, List.flatMap_cons,
            RootEntry.docs, List.nil_append]
        rw [hpeers]
        exact List.forall₂_same.mpr (fun p _ => .refl p)
  | @peer l₁ l₂ ps qs p p' e₁ e₂ key value hk h h' hp hp' hpub hend =>
      have hsame : p.Same p' := by
        refine ⟨?_, ?_, ?_⟩
        · intro v
          simp only [PeerDoc.scalars, hp, hp', List.filterMap_append, List.mem_append,
            List.filterMap_cons, PeerEntry.asScalar, List.mem_cons, Prod.mk.injEq, hpub.symm,
            false_and, false_or]
        · intro v
          simp only [PeerDoc.scalars, hp, hp', List.filterMap_append, List.mem_append,
            List.filterMap_cons, PeerEntry.asScalar, List.mem_cons, Prod.mk.injEq, hend.symm,
            false_and, false_or]
        · simp only [PeerDoc.cidrs, hp, hp', List.flatMap_append, List.flatMap_cons,
            PeerEntry.cidrs, List.nil_append]
      refine ⟨?_, ?_⟩
      · intro k v
        simp only [ConfigDoc.scalars, h, h', List.filterMap_append, List.filterMap_cons,
          RootEntry.asScalar]
      · have hd : d.peers = ps ++ p :: qs :=
          peers_of_mem (by rw [h]; exact List.mem_append_right _ List.mem_cons_self)
        have hd' : d'.peers = ps ++ p' :: qs :=
          peers_of_mem (by rw [h']; exact List.mem_append_right _ List.mem_cons_self)
        have hrefl : ∀ l, List.Forall₂ PeerDoc.Same l l :=
          fun l => List.forall₂_same.mpr (fun p _ => .refl p)
        rw [hd, hd']
        exact List.rel_append (hrefl ps) (.cons hsame (hrefl qs))

/-- **`load_config` implements the documented schema.** On a document of the schema whose strings
fit their buffers it succeeds if and only if the document is valid: at most 64 peers with at most
16 allowed addresses each, every key, address and endpoint readable. Then every setting is the
value given for its key or else its default, and the peers are those of the document, in its
order, each with its own key, endpoint and routes. Neither the order of entries nor a scalar under
an unknown key changes the result. -/
theorem load_config_implements_schema (env : LoadEnv) (init : Config O.suite) (d : ConfigDoc)
    (hinit : init.peers = []) (hfits : d.Fits) :
    ((loadConfig env init d.events).isSome = true ↔ d.Valid env) ∧
    (∀ c, loadConfig env init d.events = some c → d.Describes env init c) ∧
    (∀ d', d.Reordered d' → loadConfig env init d'.events = loadConfig env init d.events) ∧
    (∀ d', d.AddsUnknown d' → loadConfig env init d'.events = loadConfig env init d.events) := by
  have hload : ∀ d : ConfigDoc, loadConfig env init d.events = d.load env init :=
    loadConfig_events env init
  refine ⟨?_, ?_, ?_, ?_⟩
  · rw [hload]
    constructor
    · intro hsome
      obtain ⟨c, hc⟩ := Option.isSome_iff_exists.mp hsome
      exact ConfigDoc.valid_of_load hfits hinit hc
    · intro hv
      obtain ⟨c, hc⟩ := hv.load hfits hinit
      rw [hc]
      rfl
  · intro c hc
    rw [hload] at hc
    exact ConfigDoc.describes_of_load hfits hinit hc
  · intro d' h
    rw [hload, hload, h.same.load hfits hinit]
  · intro d' h
    rw [hload, hload, h.same.load hfits hinit]

def interfaceEntry : RootEntry := .scalar "interface".toList "tun0".toList (by decide)

/-- The key of 32 bytes `1`, in hex. -/
def onesHex : List Char := (List.replicate 32 "01".toList).flatten

/-- An interface and two peers: one with an endpoint and two allowed networks, and one with a single
address. -/
def twoPeersDoc : ConfigDoc where
  entries := [interfaceEntry, .peers [
    ⟨[.scalar "public_key".toList onesHex publicKey_ne_allowedIps,
      .scalar "endpoint".toList "vpn.example.org:5040".toList (by decide),
      .allowedIps ["10.9.0.0/24".toList, "10.8.0.0/16".toList]], by decide⟩,
    ⟨[.allowedIps ["10.9.1.7".toList],
      .scalar "public_key".toList (List.replicate 64 'a') publicKey_ne_allowedIps], by decide⟩]]
  distinct := by decide

/-- A resolver that finds every host at one address. -/
def oneHostEnv : LoadEnv := ⟨true, fun _ port => some ⟨0x0a000001, BitVec.ofInt 16 port⟩⟩

theorem load_config_implements_schema_two_peers :
    twoPeersDoc.Fits ∧ twoPeersDoc.Valid oneHostEnv ∧
    ∃ c : Config xorOpenSSL.suite,
      loadConfig oneHostEnv (Config.default xorOpenSSL.suite) twoPeersDoc.events = some c ∧
      twoPeersDoc.Describes oneHostEnv (Config.default xorOpenSSL.suite) c ∧
      c.peers.map (fun pc => (blockBytes pc.pub, pc.hasEndpoint, pc.endpoint, pc.routes.length))
        = [(List.replicate 32 0x01, true, ⟨0x0a000001, 5040⟩, 2),
            (List.replicate 32 0xaa, false, .zero, 1)] := by
  have hroom : ∀ (k : RootKey) n, k.room = some n → 15 ≤ n := by
    intro k n hn
    cases k <;> cases hn <;> decide
  have hfits : twoPeersDoc.Fits := by
    refine ⟨?_, ?_⟩
    · intro k v hv n hn
      have hlen : v.length = 4 := by
        rw [(Prod.mk.inj (List.mem_singleton.mp hv)).2]
        decide
      have := hroom k n hn
      omega
    · have hall : ∀ p ∈ twoPeersDoc.peers, ∀ e ∈ p.scalars, e.2.length ≤ 254 := by decide +kernel
      intro p hp v hv
      exact hall p hp _ hv
  obtain ⟨hsome, hdescribes, -⟩ := load_config_implements_schema oneHostEnv
    (Config.default xorOpenSSL.suite) twoPeersDoc rfl hfits
  have hpeers : (loadConfig oneHostEnv (Config.default xorOpenSSL.suite) twoPeersDoc.events).map
      (fun c => c.peers.map fun pc =>
        (blockBytes pc.pub, pc.hasEndpoint, pc.endpoint, pc.routes.length))
      = some [(List.replicate 32 0x01, true, ⟨0x0a000001, 5040⟩, 2),
          (List.replicate 32 0xaa, false, .zero, 1)] := by
    decide +kernel
  obtain ⟨c, hc, hmap⟩ := Option.map_eq_some_iff.mp hpeers
  exact ⟨hfits, hsome.mp (by rw [hc]; rfl), c, hc, hdescribes c hc, hmap⟩

end Lanecove
