import Lanecove.Basic.Scan
import Lanecove.Config.Cidr
import Lanecove.Crypto.Symbolic

set_option autoImplicit false

/-! # Longest-prefix match

`route_lookup` of `src/peer.c` scans the slots in order, and in each active slot the routes in
order, for the matching route with the longest prefix. The two loops are one scan over the list
of all matching routes of active sessions (`matching`), so the result is the first of the
longest ones. For routes that `parse_cidr` made, the test with the mask says that the first
`prefix_len` bits agree (`contains_iff`).
-/

namespace Lanecove

variable {S : Suite}

/-! ## Masks and bits -/

/-- The first `prefix_len` bits of the destination are those of the network. -/
def IpPrefix.Matches (p : IpPrefix) (ip : BitVec 32) : Prop :=
  ∀ k : Nat, (k : Int) < p.prefixLen → ip.getMsbD k = p.network.getMsbD k

/-- A route that came out of `parse_cidr`. -/
def IpPrefix.Parsed (p : IpPrefix) : Prop := ∃ s, parseCidr s = some p

/-- `parse_cidr` makes routes of up to 32 bits of an address. -/
theorem IpPrefix.Parsed.eq_routeOf {p : IpPrefix} (h : p.Parsed) :
    ∃ addr, ∃ n ≤ 32, p = routeOf addr n := by
  obtain ⟨s, hs⟩ := h
  rcases parseCidr_eq_some hs with ⟨addr, -, hp⟩ | ⟨-, -, addr, -, -, n, hn, -, hp⟩
  · exact ⟨addr, 32, le_refl _, hp⟩
  · exact ⟨addr, n, hn, hp⟩

theorem IpPrefix.Parsed.prefixLen_nonneg {p : IpPrefix} (h : p.Parsed) : 0 ≤ p.prefixLen := by
  obtain ⟨addr, n, -, rfl⟩ := h.eq_routeOf
  exact Int.natCast_nonneg n

/-- **The mask test compares the first bits.** -/
theorem IpPrefix.Parsed.contains_iff {p : IpPrefix} (h : p.Parsed) (ip : BitVec 32) :
    p.contains ip = true ↔ p.Matches ip := by
  obtain ⟨addr, n, hn, rfl⟩ := h.eq_routeOf
  rw [IpPrefix.contains, decide_eq_true_eq]
  show ip &&& prefixMask n = addr &&& prefixMask n ↔
    ∀ k : Nat, (k : Int) < (n : Int) → ip.getMsbD k = (addr &&& prefixMask n).getMsbD k
  constructor
  · intro heq k hk
    have hmask := getMsbD_prefixMask hn (show k < 32 by omega)
    have hbit := congrArg (fun v => v.getMsbD k) heq
    have hkn : decide (k < n) = true := decide_eq_true (by omega)
    simp only [BitVec.getMsbD_and, hmask, hkn, Bool.and_true] at hbit ⊢
    exact hbit
  · intro hbits
    apply BitVec.eq_of_getMsbD_eq
    intro k hk
    have hmask := getMsbD_prefixMask hn hk
    by_cases hkn : k < n
    · have hbit := hbits k (by omega)
      rw [BitVec.getMsbD_and, BitVec.getMsbD_and] at *
      simp only [hmask, decide_eq_true hkn, Bool.and_true] at hbit ⊢
      exact hbit
    · simp [BitVec.getMsbD_and, hmask, hkn]

/-! ## The two loops as one scan -/

namespace SessionTable

/-- Slot `i` is in use and holds a session. -/
def Live (tb : SessionTable S) (i : Fin MAX_PEERS) : Prop :=
  i.val < tb.slots ∧ (tb.sessions i).active = true

instance (tb : SessionTable S) (i : Fin MAX_PEERS) : Decidable (tb.Live i) :=
  inferInstanceAs (Decidable (_ ∧ _))

/-- The routes of slot `i` the inner loop may take, each with its slot. -/
def matchingAt (tb : SessionTable S) (ip : BitVec 32) (i : Fin MAX_PEERS) :
    List (Fin MAX_PEERS × IpPrefix) :=
  if tb.Live i then ((tb.sessions i).routes.filter (·.contains ip)).map (i, ·) else []

/-- All of them, in the order in which `route_lookup` meets them. -/
def matching (tb : SessionTable S) (ip : BitVec 32) : List (Fin MAX_PEERS × IpPrefix) :=
  (List.finRange MAX_PEERS).flatMap (tb.matchingAt ip)

theorem mem_matching {tb : SessionTable S} {ip : BitVec 32} {i : Fin MAX_PEERS} {p : IpPrefix} :
    (i, p) ∈ tb.matching ip ↔ tb.Live i ∧ p ∈ (tb.sessions i).routes ∧ p.contains ip = true := by
  simp only [matching, List.mem_flatMap, List.mem_finRange, true_and, matchingAt]
  constructor
  · rintro ⟨j, hj⟩
    split at hj
    · rename_i hlive
      obtain ⟨q, hq, heq⟩ := List.mem_map.mp hj
      obtain ⟨rfl, rfl⟩ := Prod.mk.inj heq
      exact ⟨hlive, List.mem_filter.mp hq⟩
    · cases hj
  · rintro ⟨hlive, hmem⟩
    refine ⟨i, ?_⟩
    rw [if_pos hlive]
    exact List.mem_map.mpr ⟨p, List.mem_filter.mpr hmem, rfl⟩

/-- The slots come in order. -/
theorem matching_sorted (tb : SessionTable S) (ip : BitVec 32) :
    (tb.matching ip).Pairwise (fun c d => c.1 ≤ d.1) := by
  have hfst : ∀ i, ∀ c ∈ tb.matchingAt ip i, c.1 = i := by
    intro i c hc
    unfold matchingAt at hc
    split at hc
    · obtain ⟨p, -, rfl⟩ := List.mem_map.mp hc
      rfl
    · cases hc
  rw [matching, List.pairwise_flatMap]
  refine ⟨?_, ?_⟩
  · intro i _
    refine List.pairwise_of_forall_mem_list (fun c hc d hd => ?_)
    rw [hfst i c hc, hfst i d hd]
  · refine (List.pairwise_lt_finRange MAX_PEERS).imp (fun {i j} hij c hc d hd => ?_)
    rw [hfst i c hc, hfst j d hd]
    exact le_of_lt hij

end SessionTable

/-- The inner loop is a scan over the matching routes of the slot. -/
theorem foldl_betterRoute (ip : BitVec 32) (i : Fin MAX_PEERS) (routes : List IpPrefix)
    (best : Option (Fin MAX_PEERS × IpPrefix) × Int) :
    routes.foldl (betterRoute ip i) (best.1.map Prod.fst, best.2) =
      Prod.map (Option.map Prod.fst) id
        (((routes.filter (·.contains ip)).map (i, ·)).foldl
          (keepBest fun c => c.2.prefixLen) best) := by
  induction routes generalizing best with
  | nil => rfl
  | cons p routes ih =>
      rw [List.foldl_cons]
      by_cases hp : p.contains ip = true
      · rw [List.filter_cons, if_pos hp, List.map_cons, List.foldl_cons]
        by_cases hlt : best.2 < p.prefixLen
        · have hstep : betterRoute ip i (best.1.map Prod.fst, best.2) p =
              ((some (i, p) : Option (Fin MAX_PEERS × IpPrefix)).map Prod.fst, p.prefixLen) := by
            simp [betterRoute, hp, hlt]
          rw [hstep, keepBest, if_pos hlt]
          exact ih (some (i, p), p.prefixLen)
        · have hstep : betterRoute ip i (best.1.map Prod.fst, best.2) p =
              (best.1.map Prod.fst, best.2) := by
            simp [betterRoute, hlt]
          rw [hstep, keepBest, if_neg hlt]
          exact ih best
      · have hstep : betterRoute ip i (best.1.map Prod.fst, best.2) p =
            (best.1.map Prod.fst, best.2) := by
          simp [betterRoute, hp]
        rw [List.filter_cons, if_neg hp, hstep]
        exact ih best

/-- `route_lookup` is one scan over all matching routes. -/
theorem routeLookup_eq_scan (tb : SessionTable S) (ip : BitVec 32) :
    routeLookup tb ip =
      (scanBest (fun c => c.2.prefixLen) (-1) (tb.matching ip)).1.map Prod.fst := by
  have outer : ∀ (slots : List (Fin MAX_PEERS)) (best : Option (Fin MAX_PEERS × IpPrefix) × Int),
      slots.foldl (fun best i =>
        if decide (i.val < tb.slots) && (tb.sessions i).active then
          (tb.sessions i).routes.foldl (betterRoute ip i) best
        else best) (best.1.map Prod.fst, best.2) =
      Prod.map (Option.map Prod.fst) id
        ((slots.flatMap (tb.matchingAt ip)).foldl (keepBest fun c => c.2.prefixLen) best) := by
    intro slots
    induction slots with
    | nil => intro best; rfl
    | cons i slots ih =>
        intro best
        rw [List.foldl_cons, List.flatMap_cons, List.foldl_append, ← ih]
        congr 1
        by_cases hlive : tb.Live i
        · have hcond : (decide (i.val < tb.slots) && (tb.sessions i).active) = true := by
            simpa [SessionTable.Live] using hlive
          rw [if_pos hcond, SessionTable.matchingAt, if_pos hlive]
          exact foldl_betterRoute ip i _ best
        · have hcond : ¬ (decide (i.val < tb.slots) && (tb.sessions i).active) = true := by
            simpa [SessionTable.Live] using hlive
          rw [if_neg hcond, SessionTable.matchingAt, if_neg hlive]
          rfl
  have h := outer (List.finRange MAX_PEERS) (none, -1)
  exact congrArg Prod.fst h

/-! ## The longest matching route -/

namespace SessionTable

/-- `p` is a matching route of the active session in slot `i`, and no active session has a longer
one. -/
def Longest (tb : SessionTable S) (ip : BitVec 32) (i : Fin MAX_PEERS) (p : IpPrefix) : Prop :=
  tb.Live i ∧ p ∈ (tb.sessions i).routes ∧ p.Matches ip ∧
    ∀ j, tb.Live j → ∀ q ∈ (tb.sessions j).routes, q.Matches ip → q.prefixLen ≤ p.prefixLen

/-- All routes of active sessions came out of `parse_cidr`. -/
def RoutesParsed (tb : SessionTable S) : Prop :=
  ∀ i, tb.Live i → ∀ p ∈ (tb.sessions i).routes, p.Parsed

variable {tb : SessionTable S} {ip : BitVec 32}

theorem RoutesParsed.mem_matching (h : tb.RoutesParsed) {i : Fin MAX_PEERS} {p : IpPrefix} :
    (i, p) ∈ tb.matching ip ↔ tb.Live i ∧ p ∈ (tb.sessions i).routes ∧ p.Matches ip := by
  rw [SessionTable.mem_matching]
  constructor
  · rintro ⟨hlive, hmem, hcontains⟩
    exact ⟨hlive, hmem, ((h i hlive p hmem).contains_iff ip).mp hcontains⟩
  · rintro ⟨hlive, hmem, hmatch⟩
    exact ⟨hlive, hmem, ((h i hlive p hmem).contains_iff ip).mpr hmatch⟩

/-- Nothing is found exactly when nothing matches. -/
theorem RoutesParsed.lookup_none (h : tb.RoutesParsed) :
    routeLookup tb ip = none ↔
      ∀ i, tb.Live i → ∀ p ∈ (tb.sessions i).routes, ¬ p.Matches ip := by
  rw [routeLookup_eq_scan, Option.map_eq_none_iff, scanBest_eq_none]
  constructor
  · intro hnone i hlive p hmem hmatch
    -- a parsed route is longer than the -1 the scan starts from
    have hle := hnone (i, p) (h.mem_matching.mpr ⟨hlive, hmem, hmatch⟩)
    have hnonneg := (h i hlive p hmem).prefixLen_nonneg
    simp only at hle
    omega
  · rintro hnone ⟨i, p⟩ hc
    obtain ⟨hlive, hmem, hmatch⟩ := h.mem_matching.mp hc
    exact absurd hmatch (hnone i hlive p hmem)

/-- What is found holds a longest matching route, in the lowest slot that does. -/
theorem RoutesParsed.lookup_some (h : tb.RoutesParsed) {i : Fin MAX_PEERS}
    (hi : routeLookup tb ip = some i) :
    (∃ p, tb.Longest ip i p) ∧ ∀ j q, tb.Longest ip j q → i ≤ j := by
  rw [routeLookup_eq_scan, Option.map_eq_some_iff] at hi
  obtain ⟨⟨i', p⟩, hscan, rfl⟩ := hi
  have hbest := scanBest_eq_some hscan
  obtain ⟨hlive, hmem, hmatch⟩ := h.mem_matching.mp hbest.mem
  refine ⟨⟨p, hlive, hmem, hmatch, ?_⟩, ?_⟩
  · intro j hj q hq hqm
    exact hbest.le (h.mem_matching.mpr ⟨hj, hq, hqm⟩)
  · rintro j q ⟨hj, hq, hqm, hmax⟩
    -- an equally long route in a lower slot would have come first
    by_contra hlt
    have hqlt := hbest.lt_of_not (tb.matching_sorted ip) (h.mem_matching.mpr ⟨hj, hq, hqm⟩)
      (fun heq => hlt (le_of_eq (congrArg Prod.fst heq).symm)) hlt
    have hple := hmax i' hlive p hmem hmatch
    simp only at hqlt
    omega

/-- The lookup finds exactly the lowest slot with a longest matching route. -/
theorem RoutesParsed.lookup_eq_some (h : tb.RoutesParsed) {i : Fin MAX_PEERS} :
    routeLookup tb ip = some i ↔
      (∃ p, tb.Longest ip i p) ∧ ∀ j q, tb.Longest ip j q → i ≤ j := by
  constructor
  · exact fun hi => h.lookup_some hi
  · rintro ⟨⟨p, hp⟩, hlow⟩
    cases hlook : routeLookup tb ip with
    | none => exact absurd hp.2.2.1 (h.lookup_none.mp hlook i hp.1 p hp.2.1)
    | some j =>
        obtain ⟨⟨q, hq⟩, hlow'⟩ := h.lookup_some hlook
        exact congrArg some (le_antisymm (hlow' i p hp) (hlow j q hq))

/-- The same sessions in other slots, with their routes in another order. -/
structure Rearranged (σ : Equiv.Perm (Fin MAX_PEERS)) (tb tb' : SessionTable S) : Prop where
  live : ∀ i, tb'.Live (σ i) ↔ tb.Live i
  routes : ∀ i, tb.Live i → (tb'.sessions (σ i)).routes.Perm (tb.sessions i).routes

variable {σ : Equiv.Perm (Fin MAX_PEERS)} {tb' : SessionTable S}

theorem Rearranged.parsed (hr : Rearranged σ tb tb') (h : tb.RoutesParsed) : tb'.RoutesParsed := by
  intro j hj p hp
  obtain ⟨i, rfl⟩ := σ.surjective j
  have hi := (hr.live i).mp hj
  exact h i hi p ((hr.routes i hi).mem_iff.mp hp)

theorem Rearranged.longest (hr : Rearranged σ tb tb') {i : Fin MAX_PEERS} {p : IpPrefix} :
    tb'.Longest ip (σ i) p ↔ tb.Longest ip i p := by
  constructor
  · rintro ⟨hlive, hmem, hmatch, hmax⟩
    have hi := (hr.live i).mp hlive
    refine ⟨hi, (hr.routes i hi).mem_iff.mp hmem, hmatch, ?_⟩
    intro j hj q hq hqm
    exact hmax (σ j) ((hr.live j).mpr hj) q ((hr.routes j hj).mem_iff.mpr hq) hqm
  · rintro ⟨hi, hmem, hmatch, hmax⟩
    refine ⟨(hr.live i).mpr hi, (hr.routes i hi).mem_iff.mpr hmem, hmatch, ?_⟩
    intro j' hj' q hq hqm
    obtain ⟨j, rfl⟩ := σ.surjective j'
    have hj := (hr.live j).mp hj'
    exact hmax j hj q ((hr.routes j hj).mem_iff.mp hq) hqm

/-- Without a tie, the sessions may be rearranged. -/
theorem Rearranged.lookup (hr : Rearranged σ tb tb') (h : tb.RoutesParsed)
    (hunique : ∀ i j p q, tb.Longest ip i p → tb.Longest ip j q → i = j) :
    routeLookup tb' ip = (routeLookup tb ip).map σ := by
  cases hlook : routeLookup tb ip with
  | none =>
      rw [Option.map_none, (hr.parsed h).lookup_none]
      intro j hj p hp hmatch
      obtain ⟨i, rfl⟩ := σ.surjective j
      have hi := (hr.live i).mp hj
      exact h.lookup_none.mp hlook i hi p ((hr.routes i hi).mem_iff.mp hp) hmatch
  | some i =>
      obtain ⟨⟨p, hp⟩, -⟩ := h.lookup_some hlook
      rw [Option.map_some, (hr.parsed h).lookup_eq_some]
      refine ⟨⟨p, hr.longest.mpr hp⟩, ?_⟩
      intro j' q hq
      obtain ⟨j, rfl⟩ := σ.surjective j'
      rw [hunique i j p q hp (hr.longest.mp hq)]

end SessionTable

/-- **Routing is longest-prefix match.** With routes that `parse_cidr` made, `route_lookup` finds
nothing exactly when no route of an active session agrees with the destination in its first
`prefix_len` bits; otherwise it finds the lowest slot of an active session that holds a longest
such route; and if only one active session does, the choice depends neither on the slots the
sessions occupy nor on the order of their routes. -/
theorem route_lookup_longest_match (tb : SessionTable S) (ip : BitVec 32)
    (hparsed : tb.RoutesParsed) :
    (routeLookup tb ip = none ↔
      ∀ i, tb.Live i → ∀ p ∈ (tb.sessions i).routes, ¬ p.Matches ip) ∧
    (∀ i, routeLookup tb ip = some i ↔
      (∃ p, tb.Longest ip i p) ∧ ∀ j q, tb.Longest ip j q → i ≤ j) ∧
    ∀ σ tb', SessionTable.Rearranged σ tb tb' →
      (∀ i j p q, tb.Longest ip i p → tb.Longest ip j q → i = j) →
        routeLookup tb' ip = (routeLookup tb ip).map σ :=
  ⟨hparsed.lookup_none, fun _ => hparsed.lookup_eq_some,
    fun _ _ hr hunique => hr.lookup hparsed hunique⟩

/-- A session with `10.9.0.0/16` in slot 0 and one with `10.9.0.0/24` in slot 1. -/
def nestedRoutes : SessionTable symbolic where
  sessions i := { Session.zero symbolic with
    active := decide (i.val < 2)
    routes := if i.val = 0 then [⟨0x0A090000, 0xFFFF0000, 16⟩] else [⟨0x0A090000, 0xFFFFFF00, 24⟩] }
  slots := 2

theorem route_lookup_longest_match_nested :
    routeLookup nestedRoutes 0x0A090005 = some ⟨1, by decide⟩ ∧
    ∃ p, nestedRoutes.Longest 0x0A090005 ⟨1, by decide⟩ p := by
  have hparsed : nestedRoutes.RoutesParsed := by
    intro i _ p hp
    have hroutes : p = ⟨0x0A090000, 0xFFFF0000, 16⟩ ∨ p = ⟨0x0A090000, 0xFFFFFF00, 24⟩ := by
      simp only [nestedRoutes] at hp
      split at hp
      · exact Or.inl (List.mem_singleton.mp hp)
      · exact Or.inr (List.mem_singleton.mp hp)
    rcases hroutes with rfl | rfl
    · exact ⟨"10.9.0.0/16".toList, by decide +kernel⟩
    · exact ⟨"10.9.0.0/24".toList, by decide +kernel⟩
  have hlook : routeLookup nestedRoutes 0x0A090005 = some ⟨1, by decide⟩ := by decide +kernel
  exact ⟨hlook,
    (((route_lookup_longest_match nestedRoutes 0x0A090005 hparsed).2.1 _).mp hlook).1⟩

end Lanecove
