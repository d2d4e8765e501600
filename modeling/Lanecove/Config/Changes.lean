import Lanecove.Config.Documented
import Lanecove.Config.Reader

set_option autoImplicit false

/-! # Which assignments change a configuration

Of all assignments only a value of `verbose` other than `true` has no effect (`Assignment.Idle`).
Any other one changes some configuration, whatever else is assigned with it (`exists_changed`): it
adds a peer or a route, or it fails, or the configuration forgets what it was.
-/

namespace Lanecove

open CString

/-! ## Assignments without effect -/

/-- An assignment without effect: any value of `verbose` but `true`. -/
def Assignment.Idle : Assignment → Prop
  | .setting .verbose v => v ≠ "true".toList
  | _ => False

instance : DecidablePred Assignment.Idle := fun a =>
  match a with
  | .setting k v =>
      if hk : k = .verbose then decidable_of_iff (v ≠ "true".toList) (by subst hk; rfl)
      else isFalse (by cases k <;> first | exact absurd rfl hk | exact id)
  | .newPeer => isFalse id
  | .publicKey _ => isFalse id
  | .endpoint _ => isFalse id
  | .route _ => isFalse id

/-- The assignments that have an effect. -/
def significant (as : List Assignment) : List Assignment := as.filter fun a => decide ¬ a.Idle

variable {O : OpenSSL} {env : LoadEnv} {as : List Assignment} {a : Assignment}
  {c c' d d' : Config O.suite}

theorem Assignment.Idle.apply (h : a.Idle) (c : Config O.suite) :
    a.apply env c = some c := by
  cases a with
  | setting k v =>
      cases k with
      | verbose =>
          show some { c with logLevel := if v = "true".toList then 1 else c.logLevel } = some c
          rw [if_neg h]
      | _ => exact h.elim
  | _ => exact h.elim

theorem assign_significant (c : Config O.suite) (as : List Assignment) :
    assign env c (significant as) = assign env c as := by
  induction as generalizing c with
  | nil => rfl
  | cons a as ih =>
      rw [significant, List.filter_cons]
      by_cases ha : a.Idle
      · rw [if_neg (by simpa using ha), assign_cons, ha.apply, Option.bind_some]
        exact ih c
      · rw [if_pos (by simpa using ha), assign_cons, assign_cons]
        exact congrArg (Option.bind _) (funext ih)

theorem assign_idle (h : ∀ a ∈ as, a.Idle) : assign env c as = some c := by
  rw [← assign_significant, significant,
    List.filter_eq_nil_iff.mpr fun a ha => by simpa using h a ha]
  rfl

/-! ## What is forgotten -/

/-- What an assignment sets is the same in the end, whatever it was before. -/
theorem assign_forgets {τ : Type} {f : Config O.suite → τ}
    (hset : ∀ c d c' d', Assigned env c a c' → Assigned env d a d' → f c' = f d')
    (hkeep : ∀ b c d c' d', f c = f d → Assigned env c b c' → Assigned env d b d' → f c' = f d')
    (h : f c = f d ∨ a ∈ as) (hc : assign env c as = some c') (hd : assign env d as = some d') :
    f c' = f d' := by
  induction as generalizing c d with
  | nil =>
      cases hc
      cases hd
      exact h.resolve_right List.not_mem_nil
  | cons b as ih =>
      rw [assign_cons] at hc hd
      obtain ⟨c₁, hc₁, hcrest⟩ := Option.bind_eq_some_iff.mp hc
      obtain ⟨d₁, hd₁, hdrest⟩ := Option.bind_eq_some_iff.mp hd
      refine ih ?_ hcrest hdrest
      -- agreement is kept by every later assignment; `a` itself makes it
      rcases h with hsame | hmem
      · exact .inl (hkeep b c d c₁ d₁ hsame (Assignment.apply_cases hc₁)
          (Assignment.apply_cases hd₁))
      · rcases List.mem_cons.mp hmem with rfl | hmem
        · exact .inl (hset c d c₁ d₁ (Assignment.apply_cases hc₁) (Assignment.apply_cases hd₁))
        · exact .inr hmem

theorem get_assign {k : RootKey} {v : List Char} (hidle : ¬ (Assignment.setting k v).Idle)
    (ha : .setting k v ∈ as) (hc : assign env c as = some c') (hd : assign env d as = some d') :
    k.get c' = k.get d' := by
  refine assign_forgets (f := fun c => k.get c) (a := .setting k v) ?_ ?_ (.inr ha) hc hd
  · intro c d c' d' hc hd
    cases hc
    cases hd
    cases k with
    -- the one key that may leave the setting as it was, if its value is idle
    | verbose =>
        have hv : v = "true".toList := not_not.mp hidle
        rw [hv]
        rfl
    | _ => rfl
  · intro b c d c' d' hsame hc hd
    cases hc with
    | setting k' w =>
        cases hd
        by_cases hk : k' = k
        · subst hk
          cases k' with
          | verbose =>
              show (if w = "true".toList then 1 else c.logLevel)
                = if w = "true".toList then 1 else d.logLevel
              rw [show c.logLevel = d.logLevel from hsame]
          | _ => rfl
        · show k.get (k'.set w c) = k.get (k'.set w d)
          rw [RootKey.get_set_of_ne hk, RootKey.get_set_of_ne hk]
          exact hsame
    | _ =>
        cases hd
        show k.get { c with peers := _ } = k.get { d with peers := _ }
        rw [RootKey.get_peers, RootKey.get_peers]
        exact hsame

theorem pub_assign {v : List Char} (ha : .publicKey v ∈ as) (hc : assign env c as = some c')
    (hd : assign env d as = some d') :
    c'.peers.getLast?.map PeerConfig.pub = d'.peers.getLast?.map PeerConfig.pub := by
  refine assign_forgets (f := fun c => c.peers.getLast?.map PeerConfig.pub) (a := .publicKey v)
    ?_ ?_ (.inr ha) hc hd
  · intro c d c' d' hc hd
    cases hc with
    | publicKey _ hpub =>
        cases hd with
        | publicKey _ hpub' =>
            simp only [List.getLast?_concat, Option.map_some]
            rw [← hpub, ← hpub']
  · intro b c d c' d' hsame hc hd
    cases hc with
    | setting k w =>
        cases hd
        simp only [RootKey.peers_set]
        exact hsame
    | newPeer _ =>
        cases hd
        simp only [List.getLast?_concat, Option.map_some]
    | publicKey _ hpub =>
        cases hd with
        | publicKey _ hpub' =>
            simp only [List.getLast?_concat, Option.map_some]
            rw [← hpub, ← hpub']
    | endpoint hpeers _ =>
        cases hd with
        | endpoint hpeers' _ =>
            simp only [hpeers, hpeers', List.getLast?_concat, Option.map_some] at hsame ⊢
            exact hsame
    | route hpeers _ _ =>
        cases hd with
        | route hpeers' _ _ =>
            simp only [hpeers, hpeers', List.getLast?_concat, Option.map_some] at hsame ⊢
            exact hsame

/-- All routes of all peers. -/
def Config.routeTotal {S : Suite} (c : Config S) : Nat :=
  (c.peers.map fun pc => pc.routes.length).sum

/-- A new peer or a route. -/
def Assignment.grows : Assignment → Bool
  | .newPeer => true
  | .route _ => true
  | _ => false

theorem Assignment.Idle.grows (h : a.Idle) : a.grows = false := by
  cases a with
  | newPeer => exact h.elim
  | route v => exact h.elim
  | _ => rfl

theorem Assigned.size (h : Assigned env c a c') :
    c'.peers.length + c'.routeTotal
      = c.peers.length + c.routeTotal + if a.grows then 1 else 0 := by
  cases h with
  | setting k v =>
      rw [Config.routeTotal, RootKey.peers_set]
      rfl
  | newPeer _ =>
      simp [Config.routeTotal, Assignment.grows, PeerConfig.zero]
      omega
  | publicKey hpeers _ => simp [Config.routeTotal, Assignment.grows, hpeers]
  | endpoint hpeers _ =>
      simp [Config.routeTotal, Assignment.grows, hpeers, PeerConfig.setEndpoint]
  | route hpeers _ _ =>
      simp [Config.routeTotal, Assignment.grows, hpeers]
      omega

theorem assign_size (h : assign env c as = some c') :
    c'.peers.length + c'.routeTotal
      = c.peers.length + c.routeTotal + as.countP Assignment.grows := by
  induction as generalizing c with
  | nil =>
      cases h
      rfl
  | cons a as ih =>
      rw [assign_cons] at h
      obtain ⟨c₁, hc₁, hrest⟩ := Option.bind_eq_some_iff.mp h
      rw [ih hrest, (Assignment.apply_cases hc₁).size, List.countP_cons]
      omega

/-- All assignments of a list that is carried out succeed. -/
theorem assigned_of_mem (h : assign env c as = some c') (ha : a ∈ as) :
    ∃ d d' : Config O.suite, Assigned env d a d' := by
  induction as generalizing c with
  | nil => cases ha
  | cons b as ih =>
      rw [assign_cons] at h
      obtain ⟨c₁, hc₁, hrest⟩ := Option.bind_eq_some_iff.mp h
      rcases List.mem_cons.mp ha with rfl | ha
      · exact ⟨c, c₁, Assignment.apply_cases hc₁⟩
      · exact ih hrest ha

/-! ## Configurations that change -/

theorem readEndpoint_plainEnv (v : List Char) : readEndpoint plainEnv v = none := by
  unfold readEndpoint
  split
  · rfl
  · split_ifs <;> rfl

/-- Settings that are all other than the defaults. -/
def Config.unusual (S : Suite) : Config S where
  tunnel := ['x']
  address := ['x']
  port := 0
  keyfile := ['x']
  psk := ['x']
  hasPsk := true
  logLevel := 2
  workerThreads := 1
  settings := ⟨0, 0, 0, 0, 0, 0, 0⟩
  peers := []

theorem get_unusual_ne {S : Suite} (k : RootKey) :
    k.get (Config.default S) ≠ k.get (Config.unusual S) := by
  intro h
  cases k <;> cases h

/-- 32 bytes `0x11`, in hex. -/
def repeatedHex : List Char := List.replicate 64 '1'

/-- No key, and this one. -/
def keyedBlock : Bool → O.suite.Block
  | false => O.suite.zero
  | true => blockOf (List.replicate 32 0x11) (by decide)

theorem keyedBlock_ne : keyedBlock (O := O) false ≠ keyedBlock true := by
  intro h
  have hbytes : List.replicate 32 (0 : UInt8) = List.replicate 32 0x11 := congrArg blockBytes h
  exact absurd hbytes (by decide)

theorem hexKey_repeatedHex : hexKey plainEnv repeatedHex = some (keyedBlock (O := O) true) := by
  have hbytes : hexToBytes true repeatedHex 32 = some (List.replicate 32 0x11) := by
    decide +kernel
  exact hexKey_eq_some.mpr hbytes

/-- A configuration with this peer. -/
def Config.withPeer (c : Config O.suite) (b : Bool) : Config O.suite :=
  { c with peers := [{ PeerConfig.zero O.suite with pub := keyedBlock b }] }

/-- An assignment with an effect changes a configuration with one of the two peers. -/
theorem exists_changed {as : List Assignment} {a : Assignment} (ha : a ∈ as) (hidle : ¬ a.Idle) :
    ∃ (c : Config O.suite) (b : Bool), assign plainEnv (c.withPeer b) as ≠ some (c.withPeer b) := by
  by_contra hnone
  push Not at hnone
  cases a with
  | setting k v =>
      have hget := get_assign hidle ha (hnone (Config.default O.suite) false)
        (hnone (Config.unusual O.suite) false)
      rw [Config.withPeer, Config.withPeer, RootKey.get_peers, RootKey.get_peers] at hget
      exact get_unusual_ne k hget
  | publicKey v =>
      have hpub := pub_assign ha (hnone (Config.default O.suite) false)
        (hnone (Config.default O.suite) true)
      exact keyedBlock_ne (Option.some.inj hpub)
  | endpoint v =>
      -- nothing resolves here, so the load fails
      obtain ⟨d, d', hd⟩ := assigned_of_mem (hnone (Config.default O.suite) false) ha
      cases hd with
      | endpoint _ he =>
          rw [readEndpoint_plainEnv] at he
          cases he
  | newPeer | route =>
      have hsize := assign_size (hnone (Config.default O.suite) false)
      have hpos : 0 < as.countP Assignment.grows := List.countP_pos_iff.mpr ⟨_, ha, rfl⟩
      omega

end Lanecove
