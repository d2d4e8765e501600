import Lanecove.Basic.Strings
import Lanecove.Config.Hex

set_option autoImplicit false

/-! # Hexadecimal in arrays

`bytes_to_hex` and `hex_to_bytes` with the arrays they work on. Each `sprintf` of the encoder
writes two digits and a terminator, which the next one overwrites; for the decoder the string at an
offset is what stands there before the next terminator. The offsets `i * 2` are `int`s. As long as
`2 * len` is one and the arrays have room, the code computes the functions of `Config/Hex.lean`
(`bytesToHex_runs`, `hexToBytes_runs`), so the round trip holds in memory as well
(`hex_round_trip`).
-/

namespace Lanecove

namespace HexCode

open CString
open Checked (BufferOf NUL Runs read string write)

variable {n m : Nat}

/-- An array of bytes and one of characters. -/
structure Memory (n m : Nat) where
  bytes : Buffer UInt8 n
  hex : Buffer Char m

abbrev Code (n m : Nat) (β : Type) : Type := Checked (Memory n m) β

def bytes : BufferOf (Memory n m) UInt8 n := ⟨Memory.bytes, fun mem x => { mem with bytes := x }⟩

def hex : BufferOf (Memory n m) Char m := ⟨Memory.hex, fun mem x => { mem with hex := x }⟩

/-- The `int` product `i * 2`. -/
def twice (i : Nat) : Int := Int.bmod (i * 2) (2 ^ 32)

theorem twice_eq {i : Nat} (h : 2 * i < 2 ^ 31) : twice i = (2 * i : Nat) := by
  unfold twice
  rw [Int.bmod_eq_of_le_mul_two (by omega) (by omega)]
  push_cast
  ring

/-! ## Encoding -/

/-- The loop of `bytes_to_hex`, with `rest` bytes to go at index `i`, for the offsets `offset i`. -/
def encodeLoop (offset : Nat → Int) : Nat → Nat → Code n m Unit
  | 0, _ => pure ()
  | rest + 1, i => do
      let byte ← read bytes i 1
      write hex (offset i) (byteHex (byte.headD 0) ++ [NUL])
      encodeLoop offset rest (i + 1)

/-- `bytes_to_hex`. -/
def bytesToHex (len : Nat) : Code n m Unit := do
  encodeLoop twice len 0
  write hex (twice len) [NUL]

/-- The pairs before index `i` are in place, and those from there on are put after them. -/
theorem encodeLoop_runs {offset : Nat → Int} (b : Buffer UInt8 n) (rest i : Nat)
    (h : Buffer Char m) (written : List Char) (hbytes : i + rest ≤ n) (hroom : 2 * (i + rest) < m)
    (hoffset : ∀ j < i + rest, offset j = (2 * j : Nat)) (hlen : written.length = 2 * i)
    (hwritten : h.Holds 0 written) :
    ∃ h', Runs (encodeLoop offset rest i) ⟨b, h⟩ () ⟨b, h'⟩ ∧
      h'.Holds 0 (written ++ Lanecove.bytesToHex ((b.toList.drop i).take rest)) := by
  induction rest generalizing i h written with
  | zero => exact ⟨h, Runs.pure (), by simpa [Lanecove.bytesToHex] using hwritten⟩
  | succ rest ih =>
      have hlt : i < b.toList.length := by
        rw [List.Vector.toList_length]
        omega
      have hdrop : b.toList.drop i = b.toList[i] :: b.toList.drop (i + 1) :=
        List.drop_eq_getElem_cons hlt
      have hread : b.load i 1 = some [b.toList[i]] := by
        rw [Buffer.load, if_pos (by omega), hdrop, List.take_succ_cons, List.take_zero]
      obtain ⟨h₁, hstore, hpair⟩ := hwritten.store_append (byteHex b.toList[i] ++ [NUL])
        (k := 2 * i) (by omega) (by simp [byteHex]; omega)
      -- the terminator is not part of what the next round starts from
      have hwritten₁ : h₁.Holds 0 (written ++ byteHex b.toList[i]) := by
        rw [← List.append_assoc] at hpair
        exact hpair.left
      obtain ⟨h', hloop, hall⟩ := ih (i + 1) h₁ _ (by omega) (by omega)
        (fun j hj => hoffset j (by omega)) (by simp [byteHex, hlen]; omega) hwritten₁
      refine ⟨h', ?_, ?_⟩
      · have hbyte : Runs (read bytes i 1) ⟨b, h⟩ [b.toList[i]] ⟨b, h⟩ := Runs.read rfl rfl hread
        have hwrite : Runs (write hex (offset i) (byteHex b.toList[i] ++ [NUL])) ⟨b, h⟩ ()
            ⟨b, h₁⟩ := Runs.write (hoffset i (by omega)) hstore
        exact hbyte.bind (hwrite.bind hloop)
      · rw [hdrop, List.take_succ_cons, bytesToHex_cons]
        simpa [byteHex] using hall

/-- **`bytes_to_hex` leaves the digits of the first `len` bytes**, with a terminator. -/
theorem bytesToHex_runs (b : Buffer UInt8 n) (h : Buffer Char m) (len : Nat) (hlen : len ≤ n)
    (hroom : 2 * len < m) (hint : 2 * len < 2 ^ 31) :
    ∃ h', Runs (bytesToHex len) ⟨b, h⟩ () ⟨b, h'⟩ ∧
      h'.Holds 0 (Lanecove.bytesToHex (b.toList.take len) ++ [NUL]) := by
  obtain ⟨h₁, hloop, hdigits⟩ := encodeLoop_runs b len 0 h [] (by omega) (by omega)
    (fun j hj => twice_eq (by omega)) rfl (Buffer.Holds.nil h)
  rw [List.nil_append, List.drop_zero] at hdigits
  have hcount : (Lanecove.bytesToHex (b.toList.take len)).length = 2 * len := by
    rw [length_bytesToHex, List.length_take, List.Vector.toList_length, Nat.min_eq_left hlen]
  obtain ⟨h', hstore, hstring⟩ := hdigits.store_append [NUL] (k := 2 * len) (by omega)
    (by simp; omega)
  exact ⟨h', Runs.bind hloop (Runs.write (twice_eq hint) hstore), hstring⟩

/-! ## Decoding -/

/-- The loop of `hex_to_bytes`, with `rest` bytes to go at index `i`; the result is the return
value. -/
def decodeLoop (gnu : Bool) (offset : Nat → Int) : Nat → Nat → Code n m Int
  | 0, _ => pure 0
  | rest + 1, i => do
      let s ← string hex (offset i)
      match scanHex gnu 2 s with
      | none => pure (-1)
      | some (byte, consumed) =>
          if consumed = 2 then do
            write bytes i [UInt8.ofNat byte.toNat]
            decodeLoop gnu offset rest (i + 1)
          else pure (-1)

/-- `hex_to_bytes`. -/
def hexToBytes (gnu : Bool) (expectedLen : Nat) : Code n m Int := do
  let s ← string hex 0
  if BitVec.ofNat 32 s.length = BitVec.ofNat 32 (expectedLen * 2) then
    decodeLoop gnu twice expectedLen 0
  else pure (-1)

/-- What is returned for a result. -/
def returned (r : Option (List UInt8)) : Int := if r.isSome then 0 else -1

section Decode

variable {h : Buffer Char m} {s : List Char}

/-- The loop computes `hexPairs` of what is left of the string: the bytes before index `i` are in
place, and those it reads are put after them. -/
theorem decodeLoop_runs (gnu : Bool) {offset : Nat → Int} (hs : h.Holds 0 (s ++ [NUL]))
    (hnul : NUL ∉ s) (rest i : Nat) (b : Buffer UInt8 n) (done : List UInt8) (hroom : i + rest ≤ n)
    (hchars : 2 * (i + rest) ≤ s.length) (hoffset : ∀ j < i + rest, offset j = (2 * j : Nat))
    (hlen : done.length = i) (hdone : b.Holds 0 done) :
    ∃ b', Runs (decodeLoop gnu offset rest i) ⟨b, h⟩
        (returned (hexPairs gnu rest (s.drop (2 * i)))) ⟨b', h⟩ ∧
      ∀ bs, hexPairs gnu rest (s.drop (2 * i)) = some bs → b'.Holds 0 (done ++ bs) := by
  induction rest generalizing i b done with
  | zero =>
      refine ⟨b, Runs.pure 0, fun bs hbs => ?_⟩
      cases hbs
      simpa using hdone
  | succ rest ih =>
      have hstring : Runs (string hex (offset i)) ⟨b, h⟩ (s.drop (2 * i)) ⟨b, h⟩ :=
        Runs.string_drop (k := 0) (by rw [Nat.zero_add]; exact hoffset i (by omega)) hs hnul
          (by omega)
      -- the loop stops at a pair that does not scan, or that takes one character only
      cases hscan : scanHex gnu 2 (s.drop (2 * i)) with
      | none =>
          have hpairs : hexPairs gnu (rest + 1) (s.drop (2 * i)) = none := by
            simp only [hexPairs, hscan]
          rw [hpairs]
          refine ⟨b, hstring.bind ?_, fun bs hbs => ?_⟩
          · simp only [hscan]
            exact Runs.pure (-1)
          · cases hbs
      | some p =>
          obtain ⟨byte, consumed⟩ := p
          by_cases htwo : consumed = 2
          · subst htwo
            have hnext : (s.drop (2 * i)).drop 2 = s.drop (2 * (i + 1)) := by
              rw [List.drop_drop, Nat.mul_succ]
            have hpairs : hexPairs gnu (rest + 1) (s.drop (2 * i))
                = (hexPairs gnu rest (s.drop (2 * (i + 1)))).map (UInt8.ofNat byte.toNat :: ·) := by
              simp only [hexPairs, hscan, hnext, if_true]
            obtain ⟨b₁, hstore, hdone₁⟩ := hdone.store_append [UInt8.ofNat byte.toNat] (k := i)
              (by omega) (by simp; omega)
            obtain ⟨b', hloop, hall⟩ := ih (i + 1) b₁ _ (by omega) (by omega)
              (fun j hj => hoffset j (by omega)) (by simp [hlen]) hdone₁
            have hwrite : Runs (write bytes i [UInt8.ofNat byte.toNat]) ⟨b, h⟩ () ⟨b₁, h⟩ :=
              Runs.write rfl hstore
            rw [hpairs]
            refine ⟨b', hstring.bind ?_, ?_⟩
            · simp only [hscan, if_true]
              rw [returned, Option.isSome_map]
              exact hwrite.bind hloop
            · intro bs hbs
              obtain ⟨bs', hbs', rfl⟩ := Option.map_eq_some_iff.mp hbs
              simpa using hall bs' hbs'
          · have hpairs : hexPairs gnu (rest + 1) (s.drop (2 * i)) = none := by
              simp only [hexPairs, hscan, if_neg htwo]
            rw [hpairs]
            refine ⟨b, hstring.bind ?_, fun bs hbs => ?_⟩
            · simp only [hscan, if_neg htwo]
              exact Runs.pure (-1)
            · cases hbs

/-- **`hex_to_bytes` on a string in memory** returns and stores what `hexToBytes` says. -/
theorem hexToBytes_runs (gnu : Bool) (hs : h.Holds 0 (s ++ [NUL])) (hnul : NUL ∉ s)
    (b : Buffer UInt8 n) (expectedLen : Nat) (hroom : expectedLen ≤ n)
    (hint : 2 * expectedLen < 2 ^ 31) :
    ∃ b', Runs (hexToBytes gnu expectedLen) ⟨b, h⟩
        (returned (Lanecove.hexToBytes gnu s expectedLen)) ⟨b', h⟩ ∧
      ∀ bs, Lanecove.hexToBytes gnu s expectedLen = some bs → b'.Holds 0 bs := by
  have hstring : Runs (string hex 0) ⟨b, h⟩ s ⟨b, h⟩ :=
    Runs.string rfl hs hnul
  by_cases hlen : BitVec.ofNat 32 s.length = BitVec.ofNat 32 (expectedLen * 2)
  · -- the string is long enough, since `2 * expectedLen` is an `int`
    have hchars : 2 * expectedLen ≤ s.length := by
      have hnat := congrArg BitVec.toNat hlen
      rw [BitVec.toNat_ofNat, BitVec.toNat_ofNat] at hnat
      omega
    obtain ⟨b', hloop, hall⟩ := decodeLoop_runs gnu hs hnul expectedLen 0 b [] (by omega) (by omega)
      (fun j hj => twice_eq (by omega)) rfl (Buffer.Holds.nil b)
    rw [Lanecove.hexToBytes, if_pos hlen]
    refine ⟨b', hstring.bind ?_, fun bs hbs => hall bs hbs⟩
    rw [if_pos hlen]
    exact hloop
  · rw [Lanecove.hexToBytes, if_neg hlen]
    refine ⟨b, hstring.bind ?_, fun bs hbs => ?_⟩
    · rw [if_neg hlen]
      exact Runs.pure (-1)
    · cases hbs

end Decode

/-- The digits of an array of bytes, decoded into another one, are the bytes again. -/
theorem hexToBytes_after_bytesToHex {k : Nat} (gnu : Bool) {bs : List UInt8} {b : Buffer UInt8 n}
    (hbs : b.Holds 0 bs) (h : Buffer Char m) (out : Buffer UInt8 k) (hroom : 2 * bs.length < m)
    (hout : bs.length ≤ k) (hint : 2 * bs.length < 2 ^ 31) :
    ∃ h' out', Runs (bytesToHex bs.length) ⟨b, h⟩ () ⟨b, h'⟩ ∧
      h'.Holds 0 (Lanecove.bytesToHex bs ++ [NUL]) ∧
      Runs (hexToBytes gnu bs.length) ⟨out, h'⟩ 0 ⟨out', h'⟩ ∧ out'.Holds 0 bs := by
  obtain ⟨hlen, htake⟩ := Buffer.holds_iff.mp hbs
  rw [List.drop_zero] at htake
  obtain ⟨h', hencode, hdigits⟩ := bytesToHex_runs b h bs.length (by omega) hroom hint
  rw [htake] at hdigits
  have hnul : NUL ∉ Lanecove.bytesToHex bs := by
    intro hmem
    have := mem_bytesToHex _ _ hmem
    revert this
    decide
  have hback := hexToBytes_bytesToHex gnu bs
  obtain ⟨out', hdecode, hbytes⟩ := hexToBytes_runs gnu hdigits hnul out bs.length hout hint
  rw [hback] at hdecode
  exact ⟨h', out', hencode, hdigits, hdecode, hbytes _ hback⟩

end HexCode

/-- **Round trip.** For every array of bytes, `bytes_to_hex` writes two lower-case digits a byte,
and `hex_to_bytes` of that string, asked for as many bytes, succeeds and gives the array back. In
memory the string ends with a terminator, and the code does the same with any arrays that have
room, as long as the number of digits is an `int`. -/
theorem hex_round_trip (gnu : Bool) (bytes : List UInt8) :
    (bytesToHex bytes).length = 2 * bytes.length ∧
    (∀ c ∈ bytesToHex bytes, c ∈ "0123456789abcdef".toList) ∧
    hexToBytes gnu (bytesToHex bytes) bytes.length = some bytes ∧
    ∀ {n m k : Nat} (b : Buffer UInt8 n) (h : Buffer Char m) (out : Buffer UInt8 k),
      b.Holds 0 bytes → 2 * bytes.length < m → bytes.length ≤ k → 2 * bytes.length < 2 ^ 31 →
      ∃ h' out', Checked.Runs (HexCode.bytesToHex bytes.length) ⟨b, h⟩ () ⟨b, h'⟩ ∧
        h'.Holds 0 (bytesToHex bytes ++ [Checked.NUL]) ∧
        Checked.Runs (HexCode.hexToBytes gnu bytes.length) ⟨out, h'⟩ 0 ⟨out', h'⟩ ∧
        out'.Holds 0 bytes :=
  ⟨length_bytesToHex bytes, mem_bytesToHex bytes, hexToBytes_bytesToHex gnu bytes,
    fun _ h out hb hroom hout hint =>
      HexCode.hexToBytes_after_bytesToHex gnu hb h out hroom hout hint⟩

end Lanecove
