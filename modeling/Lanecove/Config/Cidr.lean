import Lanecove.Basic.CString
import Lanecove.Peer.Session

set_option autoImplicit false

/-! # CIDR notation

`parse_cidr` of `src/peer.c`: the string is copied into 32 bytes, cut at its first slash, and
what follows the slash is read by `atoi`. `atoi` reads anything that does not start with a
number as 0 and stops at the first character that is no digit, so a malformed prefix length is
not an error. `IsCidr` is the notation itself; a string is parsed exactly as written if and only if
`atoi` makes no number in range out of something else (`parse_cidr_exact`).
-/

namespace Lanecove

open CString

/-- `mask`: `~0u << (32 - prefix_len)`, with 0 for the empty prefix. -/
def prefixMask (prefixLen : Int) : BitVec 32 :=
  if prefixLen = 0 then 0 else ~~~(0 : BitVec 32) <<< (32 - prefixLen).toNat

/-- The second half of `parse_cidr`: the address part and the prefix length. -/
def cidrOf (host : List Char) (prefixLen : Int) : Option IpPrefix :=
  (inetPton host).map fun addr =>
    ⟨addr &&& prefixMask prefixLen, prefixMask prefixLen, prefixLen⟩

/-- `parse_cidr`: the route, or `none` for -1. -/
def parseCidr (cidr : List Char) : Option IpPrefix :=
  let buf := cidr.take 31
  match splitFirst '/' buf with
  | none => cidrOf buf 32
  | some (host, tail) =>
      if atoi tail < 0 ∨ 32 < atoi tail then none else cidrOf host (atoi tail)

/-! ## Masks -/

theorem getMsbD_prefixMask {n k : Nat} (hn : n ≤ 32) (hk : k < 32) :
    (prefixMask n).getMsbD k = decide (k < n) := by
  unfold prefixMask
  by_cases h0 : (n : Int) = 0
  · rw [if_pos h0, decide_eq_false (by omega)]
    simp
  · rw [if_neg h0, BitVec.getMsbD_eq_getLsbD, BitVec.getLsbD_shiftLeft, BitVec.getLsbD_not]
    have hshift : (32 - (n : Int)).toNat = 32 - n := by omega
    rw [hshift]
    by_cases hkn : k < n
    · have hlow : ¬ 32 - 1 - k < 32 - n := by omega
      simp [hk, hkn, hlow]
      omega
    · have hlow : 32 - 1 - k < 32 - n := by omega
      simp [hkn, hlow]

/-- Masks with the same bits are the same. -/
theorem eq_prefixMask {mask : BitVec 32} {n : Nat} (hn : n ≤ 32)
    (h : ∀ k < 32, mask.getMsbD k = decide (k < n)) : mask = prefixMask n := by
  apply BitVec.eq_of_getMsbD_eq
  intro k hk
  rw [h k hk, getMsbD_prefixMask hn hk]

/-! ## The notation -/

/-- One or two decimal digits. -/
def ShortNumber (t : List Char) : Prop :=
  (t.length = 1 ∨ t.length = 2) ∧ ∀ d ∈ t, d.isDigit = true

instance (t : List Char) : Decidable (ShortNumber t) :=
  @instDecidableAnd _ _ _ (List.decidableBAll (fun d => d.isDigit = true) t)

/-- `s` is the address `addr` in dotted-quad form, alone (then the prefix has 32 bits) or followed
by a slash and the number `n`. -/
inductive IsCidr : List Char → BitVec 32 → Nat → Prop
  | host {s addr} (h : inetPton s = some addr) : IsCidr s addr 32
  | net {s addr t} (h : inetPton s = some addr) (ht : ShortNumber t) (hn : decimal t ≤ 32) :
      IsCidr (s ++ '/' :: t) addr (decimal t)

/-- The route that stands for `n` bits of an address. -/
def routeOf (addr : BitVec 32) (n : Nat) : IpPrefix :=
  ⟨addr &&& prefixMask n, prefixMask n, n⟩

theorem cidrOf_eq_some {host : List Char} {n : Nat} {p : IpPrefix} :
    cidrOf host n = some p ↔ ∃ addr, inetPton host = some addr ∧ p = routeOf addr n := by
  rw [cidrOf, Option.map_eq_some_iff]
  constructor
  · rintro ⟨addr, haddr, rfl⟩
    exact ⟨addr, haddr, rfl⟩
  · rintro ⟨addr, haddr, rfl⟩
    exact ⟨addr, haddr, rfl⟩

theorem slash_not_mem {s : List Char} {addr : BitVec 32} (h : inetPton s = some addr) :
    '/' ∉ s :=
  inetPton_not_mem h (by decide) (by decide)

theorem atoi_of_short {t : List Char} (ht : ShortNumber t) : atoi t = decimal t :=
  atoi_of_digits ht.2 (by rcases ht.1 with h | h <;> omega)

/-- CIDR notation is parsed as what it says. -/
theorem IsCidr.parse {s : List Char} {addr : BitVec 32} {n : Nat} (h : IsCidr s addr n) :
    parseCidr s = some (routeOf addr n) := by
  cases h with
  | host h =>
      have hbuf : s.take 31 = s := List.take_of_length_le (by have := inetPton_length h; omega)
      rw [parseCidr]
      simp only [hbuf, splitFirst_eq_none.mpr (slash_not_mem h)]
      exact cidrOf_eq_some.mpr ⟨addr, h, rfl⟩
  | @net a _ t h ht hn =>
      have hlen : (a ++ '/' :: t).length ≤ 31 := by
        have := inetPton_length h
        rcases ht.1 with h1 | h1 <;> simp only [List.length_append, List.length_cons] <;> omega
      rw [parseCidr]
      simp only [List.take_of_length_le hlen, splitFirst_append t (slash_not_mem h),
        atoi_of_short ht]
      rw [if_neg (by omega)]
      exact cidrOf_eq_some.mpr ⟨addr, h, rfl⟩

/-- What is left in the buffer of a string with a slash after a short first part. -/
theorem take_slash {host : List Char} (tail : List Char) (h : host.length ≤ 30) :
    (host ++ '/' :: tail).take 31 = host ++ '/' :: tail.take (30 - host.length) := by
  have hcut : 31 - host.length = 30 - host.length + 1 := by omega
  rw [List.take_append, List.take_of_length_le (by omega), hcut, List.take_succ_cons]

/-- What `parse_cidr` makes of an address with a slash after it. -/
theorem parseCidr_slash {host tail : List Char} {addr : BitVec 32} (h : inetPton host = some addr)
    {n : Nat} (hn : n ≤ 32) (hatoi : atoi (tail.take (30 - host.length)) = n) :
    parseCidr (host ++ '/' :: tail) = some (routeOf addr n) := by
  have hlen := inetPton_length h
  rw [parseCidr]
  simp only [take_slash tail (show host.length ≤ 30 by omega),
    splitFirst_append _ (slash_not_mem h), hatoi]
  rw [if_neg (by omega)]
  exact cidrOf_eq_some.mpr ⟨addr, h, rfl⟩

/-- What `parse_cidr` makes of a string it accepts: the address in front of the first slash, and
as many bits as `atoi` reads from the part of the tail that is left in the buffer. -/
theorem parseCidr_eq_some {s : List Char} {p : IpPrefix} (h : parseCidr s = some p) :
    (∃ addr, inetPton s = some addr ∧ p = routeOf addr 32) ∨
    ∃ host tail addr, s = host ++ '/' :: tail ∧ inetPton host = some addr ∧
      ∃ n ≤ 32, atoi (tail.take (30 - host.length)) = (n : Nat) ∧ p = routeOf addr n := by
  rw [parseCidr] at h
  split at h
  · obtain ⟨addr, haddr, hp⟩ :=
      cidrOf_eq_some.mp (show cidrOf (s.take 31) (32 : Nat) = some p from h)
    -- an address is shorter than the buffer, so nothing was cut off
    have hlen := inetPton_length haddr
    have hs : s.take 31 = s := by
      rw [List.length_take] at hlen
      exact List.take_of_length_le (by omega)
    rw [hs] at haddr
    exact Or.inl ⟨addr, haddr, hp⟩
  · rename_i host tail hsplit
    split at h
    · cases h
    · rename_i hrange
      rw [not_or, not_lt, not_lt] at hrange
      obtain ⟨n, hn⟩ := Int.eq_ofNat_of_zero_le hrange.1
      rw [hn] at h
      obtain ⟨addr, haddr, hp⟩ := cidrOf_eq_some.mp h
      have hbuf := (splitFirst_eq_some.mp hsplit).1
      have hlen := inetPton_length haddr
      have hs : s = host ++ '/' :: (tail ++ s.drop 31) := by
        calc s = s.take 31 ++ s.drop 31 := (List.take_append_drop 31 s).symm
          _ = host ++ '/' :: (tail ++ s.drop 31) := by rw [hbuf]; simp
      have htail : (tail ++ s.drop 31).take (30 - host.length) = tail := by
        have h31 := take_slash (tail ++ s.drop 31) (show host.length ≤ 30 by omega)
        rw [← hs, hbuf] at h31
        exact (List.cons.inj (List.append_cancel_left h31)).2.symm
      refine Or.inr ⟨host, _, addr, hs, haddr, n, by omega, ?_, hp⟩
      rw [htail, hn]

/-- What follows the slash after an address is a short number, or, as far as it fits into the
buffer, `atoi` reads a number out of range. -/
def CleanTail (s : List Char) : Prop :=
  ∀ host tail, s = host ++ '/' :: tail → (inetPton host).isSome = true →
    ShortNumber tail ∨ atoi (tail.take (30 - host.length)) < 0 ∨
      32 < atoi (tail.take (30 - host.length))

/-- Only the first slash counts. -/
theorem cleanTail_of_split {s host tail : List Char} (hsplit : splitFirst '/' s = some (host, tail))
    (h : ShortNumber tail) : CleanTail s := by
  intro host' tail' hs hsome
  obtain ⟨addr, haddr⟩ := Option.isSome_iff_exists.mp hsome
  rw [hs, splitFirst_append tail' (slash_not_mem haddr), Option.some.injEq, Prod.mk.injEq] at hsplit
  obtain ⟨rfl, rfl⟩ := hsplit
  exact Or.inl h

/-- In CIDR notation a short number follows the first slash. -/
theorem IsCidr.short {s host tail : List Char} {addr : BitVec 32} {n : Nat} (h : IsCidr s addr n)
    (hsplit : splitFirst '/' s = some (host, tail)) : ShortNumber tail := by
  cases h with
  | host h =>
      rw [splitFirst_eq_none.mpr (slash_not_mem h)] at hsplit
      cases hsplit
  | @net a _ t h ht hn =>
      rw [splitFirst_append t (slash_not_mem h), Option.some.injEq, Prod.mk.injEq] at hsplit
      obtain ⟨rfl, rfl⟩ := hsplit
      exact ht

/-- A string with a clean tail is accepted only if it is CIDR notation. -/
theorem isCidr_of_parse {s : List Char} {p : IpPrefix} (hclean : CleanTail s)
    (h : parseCidr s = some p) : ∃ addr n, IsCidr s addr n ∧ p = routeOf addr n := by
  rcases parseCidr_eq_some h with
    ⟨addr, haddr, hp⟩ | ⟨host, tail, addr, rfl, haddr, n, hn, hatoi, hp⟩
  · exact ⟨addr, 32, .host haddr, hp⟩
  · rcases hclean host tail rfl (by rw [haddr]; rfl) with hshort | hneg | hbig
    · have hlen := inetPton_length haddr
      have htake : tail.take (30 - host.length) = tail :=
        List.take_of_length_le (by rcases hshort.1 with h | h <;> omega)
      rw [htake, atoi_of_short hshort, Nat.cast_inj] at hatoi
      subst hatoi
      exact ⟨addr, _, .net haddr hshort hn, hp⟩
    · omega
    · omega

theorem IsCidr.le {s : List Char} {addr : BitVec 32} {n : Nat} (h : IsCidr s addr n) : n ≤ 32 := by
  cases h with
  | host _ => exact le_refl _
  | net _ _ hn => exact hn

/-- The bits of a route say which route it is. -/
theorem eq_routeOf {p : IpPrefix} {addr : BitVec 32} {n : Nat} (hn : n ≤ 32) :
    p = routeOf addr n ↔ p.prefixLen = n ∧ (∀ k < 32, p.mask.getMsbD k = decide (k < n)) ∧
      p.network = addr &&& p.mask := by
  constructor
  · rintro rfl
    exact ⟨rfl, fun k hk => getMsbD_prefixMask hn hk, rfl⟩
  · rintro ⟨hlen, hmask, hnet⟩
    have hm := eq_prefixMask hn hmask
    obtain ⟨network, mask, prefixLen⟩ := p
    simp only at hlen hm hnet
    rw [hnet, hm, hlen]
    rfl

/-- If only CIDR notation is accepted, the tail is clean: with a number in range the string is
accepted, so it is CIDR notation and the number is short. -/
theorem cleanTail_of_isCidr {s : List Char}
    (h : ∀ p, parseCidr s = some p → ∃ addr n, IsCidr s addr n) : CleanTail s := by
  rintro host tail rfl hsome
  obtain ⟨addr, haddr⟩ := Option.isSome_iff_exists.mp hsome
  by_cases hneg : atoi (tail.take (30 - host.length)) < 0
  · exact .inr (.inl hneg)
  · by_cases hbig : 32 < atoi (tail.take (30 - host.length))
    · exact .inr (.inr hbig)
    · obtain ⟨n, hn⟩ := Int.eq_ofNat_of_zero_le (not_lt.mp hneg)
      obtain ⟨addr', n', hcidr⟩ := h _ (parseCidr_slash haddr (n := n) (by omega) hn)
      exact .inl (hcidr.short (splitFirst_append tail (slash_not_mem haddr)))

/-- **When `parse_cidr` accepts exactly CIDR notation.** The tail is clean if and only if the string
is accepted exactly if it is an address, optionally with a slash and one or two digits for a number
`n` up to 32, with the prefix length `n`, the mask that has exactly the `n` top bits set and the
masked address for network, and rejected otherwise. -/
theorem parse_cidr_exact (s : List Char) :
    CleanTail s ↔
    (∀ p, parseCidr s = some p ↔ ∃ addr n, IsCidr s addr n ∧ p.prefixLen = n ∧
      (∀ k < 32, p.mask.getMsbD k = decide (k < n)) ∧ p.network = addr &&& p.mask) ∧
    (parseCidr s = none ↔ ∀ addr n, ¬ IsCidr s addr n) := by
  constructor
  · intro hclean
    refine ⟨fun p => ⟨fun h => ?_, ?_⟩, fun h addr n hcidr => ?_, fun hnone => ?_⟩
    · obtain ⟨addr, n, hcidr, hp⟩ := isCidr_of_parse hclean h
      exact ⟨addr, n, hcidr, (eq_routeOf hcidr.le).mp hp⟩
    · rintro ⟨addr, n, hcidr, hp⟩
      rw [hcidr.parse, (eq_routeOf hcidr.le).mpr hp]
    · rw [hcidr.parse] at h
      cases h
    · cases hp : parseCidr s with
      | none => rfl
      | some p =>
          obtain ⟨addr, n, hcidr, -⟩ := isCidr_of_parse hclean hp
          exact absurd hcidr (hnone addr n)
  · rintro ⟨hsome, -⟩
    refine cleanTail_of_isCidr fun p hp => ?_
    obtain ⟨addr, n, hcidr, -⟩ := (hsome p).mp hp
    exact ⟨addr, n, hcidr⟩

theorem parse_cidr_exact_host_bits :
    parseCidr "10.9.0.5/24".toList = some ⟨0x0A090000, 0xFFFFFF00, 24⟩ :=
  (((parse_cidr_exact "10.9.0.5/24".toList).mp (@cleanTail_of_split _ "10.9.0.5".toList
      "24".toList (by decide +kernel) (by decide +kernel))).1 _).mpr
    ⟨0x0A090005, 24, .net (s := "10.9.0.5".toList) (t := "24".toList) (by decide +kernel)
      (by decide +kernel) (by decide +kernel), rfl, by decide +kernel, by decide +kernel⟩

/-- A slash with nothing after it, and a slash with no number after it, give the route that
contains every address. -/
theorem parse_cidr_accepts_malformed :
    parseCidr "10.9.0.5/".toList = some ⟨0, 0, 0⟩ ∧
    parseCidr "10.9.0.5/x24".toList = some ⟨0, 0, 0⟩ ∧
    parseCidr "10.9.0.5/8.8".toList = some ⟨0x0A000000, 0xFF000000, 8⟩ ∧
    ∀ addr n, ¬ IsCidr "10.9.0.5/".toList addr n ∧ ¬ IsCidr "10.9.0.5/x24".toList addr n ∧
      ¬ IsCidr "10.9.0.5/8.8".toList addr n := by
  have hnot : ∀ {s t : List Char}, splitFirst '/' s = some ("10.9.0.5".toList, t) →
      ¬ ShortNumber t → ∀ addr n, ¬ IsCidr s addr n :=
    fun hsplit hbad addr n h => hbad (h.short hsplit)
  refine ⟨by decide +kernel, by decide +kernel, by decide +kernel, fun addr n => ⟨?_, ?_, ?_⟩⟩
  · exact hnot (t := []) (by decide +kernel) (by decide) addr n
  · exact hnot (t := "x24".toList) (by decide +kernel) (by decide +kernel) addr n
  · exact hnot (t := "8.8".toList) (by decide +kernel) (by decide +kernel) addr n

end Lanecove
