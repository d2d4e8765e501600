import Lanecove.Basic.CString

set_option autoImplicit false

/-! # Hexadecimal keys

`bytes_to_hex` and `hex_to_bytes` of `src/common.c`. The decoder converts each pair with
`sscanf` at offset `2 * i` of the whole remaining string, and accepts the pair when the
conversion has consumed two characters. What the encoder writes is read back
(`hexToBytes_bytesToHex`). A sign and a digit are two characters too, and so are a blank and a
digit that no digit follows; `takesPair` says which pairs pass. The decoder accepts hexadecimal and
nothing else exactly at the strings of which such a pair does not make a key
(`hex_to_bytes_exact`).
-/

namespace Lanecove

open CString

/-- The two characters of `sprintf("%02x")` for a byte. -/
def byteHex (b : UInt8) : List Char := [hexDigit (b.toNat / 16), hexDigit (b.toNat % 16)]

/-- `bytes_to_hex`. -/
def bytesToHex (bytes : List UInt8) : List Char := bytes.flatMap byteHex

/-- The loop of `hex_to_bytes`, with `n` bytes to go at the string `hex + i * 2`. -/
def hexPairs (gnu : Bool) : Nat → List Char → Option (List UInt8)
  | 0, _ => some []
  | n + 1, s =>
      match scanHex gnu 2 s with
      | none => none
      | some (byte, consumed) =>
          if consumed = 2 then
            (hexPairs gnu n (s.drop 2)).map (UInt8.ofNat byte.toNat :: ·)
          else none

/-- `hex_to_bytes`: the bytes, or `none` for -1. The lengths are compared as 32-bit integers. -/
def hexToBytes (gnu : Bool) (hex : List Char) (expectedLen : Nat) : Option (List UInt8) :=
  if BitVec.ofNat 32 hex.length = BitVec.ofNat 32 (expectedLen * 2) then
    hexPairs gnu expectedLen hex
  else none

theorem hexPairs_length {gnu : Bool} {n : Nat} {s : List Char} {bytes : List UInt8}
    (h : hexPairs gnu n s = some bytes) : bytes.length = n := by
  induction n generalizing s bytes with
  | zero => cases h; rfl
  | succ n ih =>
      rw [hexPairs] at h
      split at h
      · cases h
      · split at h
        · obtain ⟨rest, hrest, rfl⟩ := Option.map_eq_some_iff.mp h
          rw [List.length_cons, ih hrest]
        · cases h

theorem hexToBytes_length {gnu : Bool} {n : Nat} {s : List Char} {bytes : List UInt8}
    (h : hexToBytes gnu s n = some bytes) : bytes.length = n := by
  unfold hexToBytes at h
  split at h
  · exact hexPairs_length h
  · cases h

/-! ## Pairs of digits -/

/-- A pair of digits, written back, is itself in lower case. -/
theorem byteHex_pair {c d : Char} {v w : Nat} (hc : hexVal c = some v) (hd : hexVal d = some w) :
    byteHex (UInt8.ofNat (BitVec.ofNat 32 (16 * v + w)).toNat) = [c.toLower, d.toLower] := by
  have hv := hexVal_lt hc
  have hw := hexVal_lt hd
  have hbyte : (UInt8.ofNat (BitVec.ofNat 32 (16 * v + w)).toNat).toNat = 16 * v + w := by
    rw [BitVec.toNat_ofNat, UInt8.toNat_ofNat']
    omega
  rw [byteHex, hbyte, show (16 * v + w) / 16 = v by omega, show (16 * v + w) % 16 = w by omega,
    hexDigit_of_hexVal hc, hexDigit_of_hexVal hd]

/-- The loop accepts digits, and gives bytes that are written as these digits. -/
theorem hexPairs_of_digits (gnu : Bool) {n : Nat} {s : List Char} (hlen : s.length = 2 * n)
    (hs : ∀ c ∈ s, isHex c = true) :
    ∃ bytes, hexPairs gnu n s = some bytes ∧ bytesToHex bytes = s.map Char.toLower := by
  induction n generalizing s with
  | zero =>
      obtain rfl : s = [] := List.length_eq_zero_iff.mp hlen
      exact ⟨[], rfl, rfl⟩
  | succ n ih =>
      match s, hlen with
      | c :: d :: s, hlen =>
          obtain ⟨v, -, hc⟩ := isHex_iff.mp (hs c (by simp))
          obtain ⟨w, -, hd⟩ := isHex_iff.mp (hs d (by simp))
          simp only [List.length_cons] at hlen
          obtain ⟨bytes, hrest, hback⟩ := ih (s := s) (by omega) (fun x hx => hs x (by simp [hx]))
          refine ⟨UInt8.ofNat (BitVec.ofNat 32 (16 * v + w)).toNat :: bytes, ?_, ?_⟩
          · simp [hexPairs, scanHex_two_digits gnu s hc hd, hrest]
          · rw [bytesToHex, List.flatMap_cons, byteHex_pair hc hd, ← bytesToHex, hback]
            rfl

/-! ## Round trip -/

theorem bytesToHex_cons (b : UInt8) (bytes : List UInt8) :
    bytesToHex (b :: bytes)
      = hexDigit (b.toNat / 16) :: hexDigit (b.toNat % 16) :: bytesToHex bytes := rfl

theorem length_bytesToHex (bytes : List UInt8) : (bytesToHex bytes).length = 2 * bytes.length := by
  induction bytes with
  | nil => rfl
  | cons b bytes ih =>
      simp only [bytesToHex_cons, List.length_cons, ih]
      omega

theorem hexDigit_mem : ∀ v < 16, hexDigit v ∈ "0123456789abcdef".toList := by decide

/-- The characters written are lower-case digits. -/
theorem mem_bytesToHex (bytes : List UInt8) :
    ∀ c ∈ bytesToHex bytes, c ∈ "0123456789abcdef".toList := by
  induction bytes with
  | nil => nofun
  | cons b bytes ih =>
      have hb := b.toNat_lt
      intro c hc
      rw [bytesToHex_cons, List.mem_cons, List.mem_cons] at hc
      rcases hc with rfl | rfl | hc
      · exact hexDigit_mem _ (by omega)
      · exact hexDigit_mem _ (by omega)
      · exact ih c hc

/-- A byte is read back from its two digits. -/
theorem ofNat_halves (b : UInt8) :
    UInt8.ofNat (BitVec.ofNat 32 (16 * (b.toNat / 16) + b.toNat % 16)).toNat = b := by
  have hb := b.toNat_lt
  rw [Nat.div_add_mod, BitVec.toNat_ofNat, Nat.mod_eq_of_lt (by omega), UInt8.ofNat_toNat]

/-- The loop reads the bytes back: at each offset the conversion stops after its two digits,
whatever bytes follow. -/
theorem hexPairs_bytesToHex (gnu : Bool) (bytes : List UInt8) :
    hexPairs gnu bytes.length (bytesToHex bytes) = some bytes := by
  induction bytes with
  | nil => rfl
  | cons b bytes ih =>
      have hb := b.toNat_lt
      have hhigh := hexVal_hexDigit (b.toNat / 16) (by omega)
      have hlow := hexVal_hexDigit (b.toNat % 16) (by omega)
      have hscan := scanHex_two_digits gnu (bytesToHex bytes) hhigh hlow
      have hdrop : (bytesToHex (b :: bytes)).drop 2 = bytesToHex bytes := rfl
      rw [List.length_cons, hexPairs, bytesToHex_cons, hscan]
      simp only [if_true]
      rw [← bytesToHex_cons, hdrop, ih, ofNat_halves]
      rfl

/-- Asked for as many bytes, the decoder gives back what was encoded. -/
theorem hexToBytes_bytesToHex (gnu : Bool) (bytes : List UInt8) :
    hexToBytes gnu (bytesToHex bytes) bytes.length = some bytes := by
  rw [hexToBytes, length_bytesToHex, Nat.mul_comm, if_pos rfl]
  exact hexPairs_bytesToHex gnu bytes

/-! ## What is accepted -/

/-- The conversion `%2x` takes exactly the characters `c` and `d`, of a string that goes on with
`rest`: two digits, or a sign and a digit, or a blank and a digit with which the number ends. A bare
`0x` passes where the library takes it for a zero. -/
def takesPair (gnu : Bool) (c d : Char) (rest : List Char) : Bool :=
  if isSpace c then isHex d && !hasBase (d :: rest.take 1) && !(rest.take 1).any isHex
  else if c = '-' ∨ c = '+' then isHex d
  else if hasBase [c, d] then gnu
  else isHex c && isHex d

/-- The first `n` pairs of the string pass. -/
def takesPairs (gnu : Bool) : Nat → List Char → Bool
  | 0, _ => true
  | n + 1, c :: d :: rest => takesPair gnu c d rest && takesPairs gnu n rest
  | _ + 1, _ => false

theorem hasBase_single (d : Char) : hasBase [d] = false := by
  simp [hasBase]

/-- A blank or a sign is no digit. -/
theorem isHex_eq_false {c : Char} (h : isSpace c = true ∨ c = '-' ∨ c = '+') : isHex c = false := by
  have hnone : hexVal c = none :=
    hexVal_eq_none (h.imp_right fun h => h.imp_right .inl)
  rw [isHex, hnone]
  rfl

/-- After a blank the conversion may take one character more. -/
theorem scanHex_one (gnu : Bool) (d : Char) (rest : List Char) :
    (scanHex gnu 2 (d :: rest)).map Prod.snd = some 1 ↔
      (isHex d && !hasBase (d :: rest.take 1) && !(rest.take 1).any isHex) = true := by
  by_cases hs : isSpace d = true
  · -- a second blank, and a digit after it
    rw [scanHex_blank gnu 2 rest hs, isHex_eq_false (.inl hs)]
    refine iff_of_false (fun h => ?_) (by simp)
    obtain ⟨p, hp, hone⟩ := Option.map_eq_some_iff.mp (Option.map_map .. ▸ h)
    have := scanHex_pos hp
    simp only [Function.comp_apply] at hone
    omega
  · by_cases hsign : d = '-' ∨ d = '+'
    · -- a sign, and at least one digit after it
      rw [scanHex_sign gnu 2 rest hsign, isHex_eq_false (.inr hsign)]
      refine iff_of_false (fun h => ?_) (by simp)
      obtain ⟨p, hp, hone⟩ := Option.map_eq_some_iff.mp h
      have := scanHexDigits_pos hp
      omega
    · rw [not_or] at hsign
      rw [scanHex_of_ne rest (by simpa using hs) hsign.1 hsign.2, Option.map_map]
      by_cases hbase : hasBase (d :: rest.take 1) = true
      · -- `0x` is two characters, with a digit after it or without
        refine iff_of_false (fun h => ?_) (by simp [hbase])
        obtain ⟨p, hp, hone⟩ := Option.map_eq_some_iff.mp h
        have := two_le_of_hasBase hp hbase
        simp only [Function.comp_apply] at hone
        omega
      · rw [Bool.not_eq_true] at hbase
        simp only [scanHexDigits, List.take_succ_cons]
        by_cases hd : isHex d = true
        · cases rest with
          | nil => simp [hasBase_single, hd]
          | cons e rest => by_cases he : isHex e = true <;> simp_all
        · simp [hbase, hd]

/-- The conversion takes two characters if and only if they are a pair that passes. -/
theorem scanHex_two (gnu : Bool) (c d : Char) (rest : List Char) :
    (scanHex gnu 2 (c :: d :: rest)).map Prod.snd = some 2 ↔ takesPair gnu c d rest = true := by
  unfold takesPair
  by_cases hs : isSpace c = true
  · rw [if_pos hs, ← scanHex_one, scanHex_blank gnu 2 (d :: rest) hs, Option.map_map]
    cases scanHex gnu 2 (d :: rest) <;> simp
  · rw [if_neg hs]
    by_cases hsign : c = '-' ∨ c = '+'
    · rw [if_pos hsign, scanHex_sign gnu 2 (d :: rest) hsign]
      by_cases hd : isHex d = true <;> simp [scanHexDigits, hasBase_single, hd]
    · rw [if_neg hsign]
      rw [not_or] at hsign
      rw [scanHex_of_ne (d :: rest) (by simpa using hs) hsign.1 hsign.2, Option.map_map]
      simp only [scanHexDigits, List.take_succ_cons, List.take_zero]
      by_cases hbase : hasBase [c, d] = true
      · cases gnu <;> simp [hbase]
      · rw [Bool.not_eq_true] at hbase
        by_cases hc : isHex c = true <;> by_cases hd : isHex d = true <;> simp [hbase, hc, hd]

/-- With less than two characters no pair passes. -/
theorem scanHex_short {gnu : Bool} {s : List Char} (h : s.length < 2) :
    (scanHex gnu 2 s).map Prod.snd ≠ some 2 := by
  match s, h with
  | [], _ => cases gnu <;> decide
  | [d], _ =>
      intro htwo
      by_cases hs : isSpace d = true
      · rw [scanHex_blank gnu 2 [] hs] at htwo
        cases gnu <;> revert htwo <;> decide
      · by_cases hsign : d = '-' ∨ d = '+'
        · rw [scanHex_sign gnu 2 [] hsign] at htwo
          cases gnu <;> revert htwo <;> decide
        · rw [not_or] at hsign
          rw [scanHex_of_ne [] (by simpa using hs) hsign.1 hsign.2, Option.map_map] at htwo
          by_cases hd : isHex d = true <;>
            simp [scanHexDigits, hasBase_single, hd] at htwo

/-- One round of the loop. -/
theorem hexPairs_succ_isSome (gnu : Bool) (n : Nat) (s : List Char) :
    (hexPairs gnu (n + 1) s).isSome = true ↔
      (scanHex gnu 2 s).map Prod.snd = some 2 ∧ (hexPairs gnu n (s.drop 2)).isSome = true := by
  rw [hexPairs]
  cases hscan : scanHex gnu 2 s with
  | none => simp
  | some p =>
      obtain ⟨byte, consumed⟩ := p
      by_cases htwo : consumed = 2
      · simp [htwo]
      · simp [htwo]

/-- The loop succeeds if and only if its pairs pass. -/
theorem hexPairs_isSome (gnu : Bool) (n : Nat) (s : List Char) :
    (hexPairs gnu n s).isSome = true ↔ takesPairs gnu n s = true := by
  induction n generalizing s with
  | zero => simp [hexPairs, takesPairs]
  | succ n ih =>
      rw [hexPairs_succ_isSome, ih]
      match s with
      | [] => exact iff_of_false (fun h => scanHex_short (by decide) h.1) Bool.false_ne_true
      | [c] => exact iff_of_false (fun h => scanHex_short (by simp) h.1) Bool.false_ne_true
      | c :: d :: rest =>
          rw [scanHex_two, takesPairs, Bool.and_eq_true]
          rfl

/-- The lengths agree as 32-bit integers, which is what `hex_to_bytes` checks. -/
def SameLength (h : List Char) (n : Nat) : Prop :=
  BitVec.ofNat 32 h.length = BitVec.ofNat 32 (n * 2)

theorem hexToBytes_isSome (gnu : Bool) (h : List Char) (n : Nat) :
    (hexToBytes gnu h n).isSome = true ↔ SameLength h n ∧ takesPairs gnu n h = true := by
  rw [← hexPairs_isSome]
  unfold hexToBytes SameLength
  split <;> simp [*]

/-- **What `hex_to_bytes` accepts, and when that is hexadecimal.** It succeeds if and only if the
lengths agree and every pair passes. So it does what it should, that is, it succeeds if and only if
the string is `n` pairs of hexadecimal digits, with bytes that are written back as the string in
lower case, exactly if such pairs are all of digits. -/
theorem hex_to_bytes_exact (gnu : Bool) (h : List Char) (n : Nat) :
    ((hexToBytes gnu h n).isSome = true ↔ SameLength h n ∧ takesPairs gnu n h = true) ∧
    ((SameLength h n → takesPairs gnu n h = true →
        h.length = 2 * n ∧ ∀ c ∈ h, isHex c = true) ↔
      ((hexToBytes gnu h n).isSome = true ↔ h.length = 2 * n ∧ ∀ c ∈ h, isHex c = true) ∧
      ∀ bytes, hexToBytes gnu h n = some bytes →
        bytes.length = n ∧ bytesToHex bytes = h.map Char.toLower) := by
  refine ⟨hexToBytes_isSome gnu h n, fun hcond => ?_, ?_⟩
  · have hdigits : ∀ (heq : h.length = 2 * n) (hall : ∀ c ∈ h, isHex c = true),
        ∃ bytes, hexToBytes gnu h n = some bytes ∧ bytesToHex bytes = h.map Char.toLower := by
      intro heq hall
      rw [hexToBytes, heq, Nat.mul_comm, if_pos rfl]
      exact hexPairs_of_digits gnu heq hall
    have haccepted : (hexToBytes gnu h n).isSome = true →
        h.length = 2 * n ∧ ∀ c ∈ h, isHex c = true := by
      rw [hexToBytes_isSome]
      exact fun hsome => hcond hsome.1 hsome.2
    refine ⟨⟨haccepted, ?_⟩, fun bytes hbytes => ⟨hexToBytes_length hbytes, ?_⟩⟩
    · rintro ⟨heq, hall⟩
      obtain ⟨bytes, hbytes, -⟩ := hdigits heq hall
      rw [hbytes]
      rfl
    · obtain ⟨heq, hall⟩ := haccepted (by rw [hbytes]; rfl)
      obtain ⟨bytes', hbytes', hback⟩ := hdigits heq hall
      rw [hbytes] at hbytes'
      obtain rfl := Option.some.inj hbytes'
      exact hback
  · -- what passes is accepted, and what is accepted is hexadecimal
    rintro ⟨hexact, -⟩ hlen hpairs
    exact hexact.mp ((hexToBytes_isSome gnu h n).mpr ⟨hlen, hpairs⟩)

/-- A pair of digits: the condition holds, and so does what follows from it. -/
theorem hex_to_bytes_exact_byte :
    hexToBytes true ['0', 'F'] 1 = some [15] ∧ bytesToHex [15] = ['0', 'f'] := by
  have hbytes : hexToBytes true ['0', 'F'] 1 = some [15] := by decide +kernel
  have hcond : ∀ c ∈ ['0', 'F'], isHex c = true := List.all_eq_true.mp (by decide)
  exact ⟨hbytes, (((hex_to_bytes_exact true ['0', 'F'] 1).2.mp fun _ _ => ⟨rfl, hcond⟩).2 [15]
    hbytes).2⟩

/-- A sign in front of a digit passes for a byte. -/
theorem hex_to_bytes_accepts_sign :
    (∀ gnu, hexToBytes gnu ['+', 'a'] 1 = some [10] ∧ hexToBytes gnu ['-', 'a'] 1 = some [246] ∧
      hexToBytes gnu [' ', 'a'] 1 = some [10]) ∧
    isHex '+' = false ∧ isHex '-' = false ∧ isHex ' ' = false := by
  decide +kernel

end Lanecove
