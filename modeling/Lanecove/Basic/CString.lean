import Mathlib.Data.List.Basic
import Mathlib.Data.List.TakeWhile
import Mathlib.Tactic

set_option autoImplicit false

/-! # C strings

A C string is the list of the characters before its terminator. The functions here are what
the C library makes of such a string: `strchr` and `strrchr` as splits, `atoi`, a hexadecimal
`scanf` conversion with a field width, and `inet_pton` for IPv4. They are written the way the
library scans, with its leniency: blanks and signs before a number, and whatever follows it.
-/

namespace Lanecove

namespace CString

/-! ## Splitting at a character -/

/-- `strchr`: what stands before and after the first `c`. -/
def splitFirst (c : Char) : List Char → Option (List Char × List Char)
  | [] => none
  | x :: xs => if x = c then some ([], xs) else (splitFirst c xs).map fun p => (x :: p.1, p.2)

/-- `strrchr`: what stands before and after the last `c`. -/
def splitLast (c : Char) : List Char → Option (List Char × List Char)
  | [] => none
  | x :: xs =>
      match splitLast c xs with
      | some p => some (x :: p.1, p.2)
      | none => if x = c then some ([], xs) else none

theorem splitFirst_eq_none {c : Char} {s : List Char} : splitFirst c s = none ↔ c ∉ s := by
  induction s with
  | nil => simp [splitFirst]
  | cons x xs ih =>
      rw [splitFirst]
      by_cases hx : x = c
      · simp [hx]
      · rw [if_neg hx, Option.map_eq_none_iff, ih, List.mem_cons, not_or]
        exact ⟨fun h => ⟨fun he => hx he.symm, h⟩, fun h => h.2⟩

/-- The first occurrence is the one with no other before it. -/
theorem splitFirst_append {c : Char} {a : List Char} (b : List Char) (ha : c ∉ a) :
    splitFirst c (a ++ c :: b) = some (a, b) := by
  induction a with
  | nil => simp [splitFirst]
  | cons x xs ih =>
      have hx : ¬ x = c := fun he => ha (he ▸ List.mem_cons_self)
      rw [List.cons_append, splitFirst, if_neg hx, ih (fun h => ha (List.mem_cons_of_mem _ h))]
      rfl

theorem splitFirst_eq_some {c : Char} {s a b : List Char} :
    splitFirst c s = some (a, b) ↔ s = a ++ c :: b ∧ c ∉ a := by
  constructor
  · intro h
    induction s generalizing a with
    | nil => cases h
    | cons x xs ih =>
        rw [splitFirst] at h
        by_cases hx : x = c
        · rw [if_pos hx] at h
          obtain ⟨rfl, rfl⟩ := Prod.mk.inj (Option.some.inj h)
          exact ⟨by rw [hx]; rfl, nofun⟩
        · rw [if_neg hx, Option.map_eq_some_iff] at h
          obtain ⟨⟨a', b'⟩, hsplit, heq⟩ := h
          obtain ⟨rfl, rfl⟩ := Prod.mk.inj heq
          obtain ⟨hs, hc⟩ := ih hsplit
          refine ⟨by rw [hs]; rfl, ?_⟩
          intro hmem
          rcases List.mem_cons.mp hmem with he | hmem
          · exact hx he.symm
          · exact hc hmem
  · rintro ⟨rfl, ha⟩
    exact splitFirst_append b ha

theorem splitLast_eq_none {c : Char} {s : List Char} : splitLast c s = none ↔ c ∉ s := by
  induction s with
  | nil => simp [splitLast]
  | cons x xs ih =>
      rw [splitLast, List.mem_cons, not_or]
      cases hsplit : splitLast c xs with
      | none =>
          simp only [ite_eq_right_iff, reduceCtorEq, imp_false]
          exact ⟨fun h => ⟨fun he => h he.symm, ih.mp hsplit⟩, fun h he => h.1 he.symm⟩
      | some p =>
          simp only [reduceCtorEq, false_iff, not_and]
          intro _ hc
          rw [ih.mpr hc] at hsplit
          cases hsplit

/-- The last occurrence is the one with no other after it. -/
theorem splitLast_eq_some {c : Char} {s a b : List Char} :
    splitLast c s = some (a, b) ↔ s = a ++ c :: b ∧ c ∉ b := by
  constructor
  · intro h
    induction s generalizing a with
    | nil => cases h
    | cons x xs ih =>
        rw [splitLast] at h
        cases hsplit : splitLast c xs with
        | some p =>
            rw [hsplit] at h
            obtain ⟨rfl, rfl⟩ := Prod.mk.inj (Option.some.inj h)
            obtain ⟨hs, hc⟩ := ih hsplit
            exact ⟨by rw [hs]; rfl, hc⟩
        | none =>
            rw [hsplit] at h
            by_cases hx : x = c
            · rw [show (if x = c then some (([] : List Char), xs) else none) = some ([], xs)
                from if_pos hx] at h
              obtain ⟨rfl, rfl⟩ := Prod.mk.inj (Option.some.inj h)
              exact ⟨by rw [hx]; rfl, splitLast_eq_none.mp hsplit⟩
            · rw [show (if x = c then some (([] : List Char), xs) else none) = none
                from if_neg hx] at h
              cases h
  · rintro ⟨rfl, hb⟩
    induction a with
    | nil => simp [splitLast, splitLast_eq_none.mpr hb]
    | cons x xs ih => simp [splitLast, ih]

/-! ## Decimal numbers -/

/-- `isspace` in the C locale: blank, tab, newline, vertical tab, form feed, return. -/
def isSpace (c : Char) : Bool := decide (c = ' ') || decide (9 ≤ c.toNat ∧ c.toNat ≤ 13)

/-- The value of a row of decimal digits. -/
def decimal (ds : List Char) : Nat := ds.foldl (fun v d => 10 * v + (d.toNat - 48)) 0

/-- The sign at the head of a number, and what follows it. -/
def signed : List Char → Bool × List Char
  | '-' :: s => (true, s)
  | '+' :: s => (false, s)
  | s => (false, s)

/-- `strtol(s, NULL, 10)` with a 64-bit `long`: blanks, a sign, digits; 0 if there are none, and
the nearest `long` if the number is none. -/
def strtol (s : List Char) : Int :=
  let (negative, s) := signed (s.dropWhile isSpace)
  let v : Int := decimal (s.takeWhile Char.isDigit)
  if negative then max (-v) (-2 ^ 63) else min v (2 ^ 63 - 1)

/-- `atoi`: the `long` cut down to an `int`. -/
def atoi (s : List Char) : Int := (strtol s).bmod (2 ^ 32)

theorem isDigit_iff {c : Char} : c.isDigit = true ↔ 48 ≤ c.toNat ∧ c.toNat ≤ 57 := by
  simp only [Char.isDigit, Bool.and_eq_true, decide_eq_true_eq, ge_iff_le, UInt32.le_iff_toNat_le]
  exact Iff.rfl

theorem isSpace_eq_false_of_isDigit {c : Char} (h : c.isDigit = true) : isSpace c = false := by
  have hc := isDigit_iff.mp h
  have hne : c ≠ ' ' := by
    rintro rfl
    revert hc
    decide
  simp only [isSpace, hne, decide_false, Bool.false_or, decide_eq_false_iff_not]
  omega

theorem signed_of_ne {c : Char} (s : List Char) (hm : c ≠ '-') (hp : c ≠ '+') :
    signed (c :: s) = (false, c :: s) := by
  unfold signed
  split
  · rename_i heq
    exact absurd (List.cons.inj heq).1 hm
  · rename_i heq
    exact absurd (List.cons.inj heq).1 hp
  · rfl

theorem signed_of_isDigit {d : Char} (ds : List Char) (h : d.isDigit = true) :
    signed (d :: ds) = (false, d :: ds) := by
  apply signed_of_ne
  · rintro rfl
    revert h
    decide
  · rintro rfl
    revert h
    decide

theorem decimal_lt (ds : List Char) (h : ∀ d ∈ ds, d.isDigit = true) :
    decimal ds < 10 ^ ds.length := by
  have general : ∀ (ds : List Char) (v : Nat), (∀ d ∈ ds, d.isDigit = true) →
      ds.foldl (fun v d => 10 * v + (d.toNat - 48)) v < (v + 1) * 10 ^ ds.length := by
    intro ds
    induction ds with
    | nil => intro v _; simp
    | cons d ds ih =>
        intro v hds
        have hd := isDigit_iff.mp (hds d List.mem_cons_self)
        calc ds.foldl (fun v d => 10 * v + (d.toNat - 48)) (10 * v + (d.toNat - 48))
            < (10 * v + (d.toNat - 48) + 1) * 10 ^ ds.length :=
              ih _ (fun x hx => hds x (List.mem_cons_of_mem _ hx))
          _ ≤ ((v + 1) * 10) * 10 ^ ds.length := Nat.mul_le_mul_right _ (by omega)
          _ = (v + 1) * 10 ^ (d :: ds).length := by
              rw [List.length_cons, Nat.pow_succ']
              ring
  have := general ds 0 h
  simpa [decimal] using this

/-- `atoi` reads a short row of digits as what it says. -/
theorem atoi_of_digits {ds : List Char} (hd : ∀ d ∈ ds, d.isDigit = true) (hlen : ds.length ≤ 9) :
    atoi ds = decimal ds := by
  have hlt : decimal ds < 2 ^ 31 := by
    calc decimal ds < 10 ^ ds.length := decimal_lt ds hd
      _ ≤ 10 ^ 9 := Nat.pow_le_pow_right (by decide) hlen
      _ < 2 ^ 31 := by decide
  have hscan : strtol ds = decimal ds := by
    have hspace : ds.dropWhile isSpace = ds := by
      cases ds with
      | nil => rfl
      | cons d ds =>
          rw [List.dropWhile_cons, isSpace_eq_false_of_isDigit (hd d List.mem_cons_self)]
          simp
    have hsign : signed ds = (false, ds) := by
      cases ds with
      | nil => rfl
      | cons d ds => exact signed_of_isDigit ds (hd d List.mem_cons_self)
    have hall : ds.takeWhile Char.isDigit = ds := List.takeWhile_eq_self_iff.mpr hd
    simp only [strtol, hspace, hsign, hall, Bool.false_eq_true, if_false]
    omega
  rw [atoi, hscan, Int.bmod_eq_of_le_mul_two (by omega) (by omega)]

/-! ## Hexadecimal numbers -/

/-- The value of a hexadecimal digit of either case. -/
def hexVal (c : Char) : Option Nat :=
  if 48 ≤ c.toNat ∧ c.toNat ≤ 57 then some (c.toNat - 48)
  else if 97 ≤ c.toNat ∧ c.toNat ≤ 102 then some (c.toNat - 87)
  else if 65 ≤ c.toNat ∧ c.toNat ≤ 70 then some (c.toNat - 55)
  else none

/-- `isxdigit`. -/
def isHex (c : Char) : Bool := (hexVal c).isSome

/-- The value of a row of hexadecimal digits. -/
def hexadecimal (ds : List Char) : Nat := ds.foldl (fun v d => 16 * v + (hexVal d).getD 0) 0

/-- The digits of `printf("%x")`. -/
def hexDigit (n : Nat) : Char := Char.ofNat (if n < 10 then 48 + n else 87 + n)

/-- The number starts with `0x` or `0X`. -/
def hasBase (s : List Char) : Bool := decide (s.take 2 = ['0', 'x'] ∨ s.take 2 = ['0', 'X'])

/-- What `scanf` reads as the digits of a hexadecimal number, after blanks and sign: at most
`width` characters, with a leading `0x` skipped. The second component counts the characters.
For a bare `0x` the libraries differ: the GNU one takes it for a zero (`gnu`), the standard asks
for a digit after it. -/
def scanHexDigits (gnu : Bool) (width : Nat) (s : List Char) : Option (Nat × Nat) :=
  let t := s.take width
  if hasBase t then
    let ds := (t.drop 2).takeWhile isHex
    if ds = [] ∧ gnu = false then none else some (hexadecimal ds, 2 + ds.length)
  else
    let ds := t.takeWhile isHex
    if ds = [] then none else some (hexadecimal ds, ds.length)

/-- `sscanf(s, "%<width>x%n", &v, &n)`: `v` and `n`, or `none` if nothing is converted. Blanks are
skipped and do not count for the width, but they count for `n`; a sign counts for both. -/
def scanHex (gnu : Bool) (width : Nat) (s : List Char) : Option (BitVec 32 × Nat) :=
  let t := s.dropWhile isSpace
  let (negative, u) := signed t
  (scanHexDigits gnu (width - (t.length - u.length)) u).map fun (v, n) =>
    (if negative then -BitVec.ofNat 32 v else BitVec.ofNat 32 v, s.length - u.length + n)

theorem hexVal_lt {c : Char} {v : Nat} (h : hexVal c = some v) : v < 16 := by
  unfold hexVal at h
  split at h
  · cases h; omega
  · split at h
    · cases h; omega
    · split at h
      · cases h; omega
      · cases h

/-- Written back, a hexadecimal digit is itself in lower case. -/
theorem hexDigit_of_hexVal {c : Char} {v : Nat} (h : hexVal c = some v) :
    hexDigit v = c.toLower := by
  have table : ∀ n < 103,
      (hexVal (Char.ofNat n)).all (fun v => hexDigit v = (Char.ofNat n).toLower) = true := by
    decide
  have hlt : c.toNat < 103 := by
    by_contra hge
    unfold hexVal at h
    rw [if_neg (by omega), if_neg (by omega), if_neg (by omega)] at h
    cases h
  have hrow := table c.toNat hlt
  rw [Char.ofNat_toNat, h] at hrow
  simpa using hrow

/-- The sixteen digits are read as what they stand for. -/
theorem hexVal_hexDigit : ∀ v < 16, hexVal (hexDigit v) = some v := by decide

theorem isHex_iff {c : Char} : isHex c = true ↔ ∃ v < 16, hexVal c = some v := by
  rw [isHex, Option.isSome_iff_exists]
  exact ⟨fun ⟨v, hv⟩ => ⟨v, hexVal_lt hv, hv⟩, fun ⟨v, _, hv⟩ => ⟨v, hv⟩⟩

/-- A hexadecimal digit is neither a blank nor a sign nor the letter of `0x`. -/
theorem hexVal_eq_none {c : Char} (h : isSpace c = true ∨ c = '-' ∨ c = '+' ∨ c = 'x' ∨ c = 'X') :
    hexVal c = none := by
  rcases h with h | rfl | rfl | rfl | rfl
  · simp only [isSpace, Bool.or_eq_true, decide_eq_true_eq] at h
    rcases h with rfl | h
    · decide
    · unfold hexVal
      rw [if_neg (by omega), if_neg (by omega), if_neg (by omega)]
  all_goals decide

/-- A conversion that meets a character that is neither a blank nor a sign starts there. -/
theorem scanHex_of_ne {gnu : Bool} {width : Nat} {c : Char} (s : List Char)
    (hs : isSpace c = false) (hm : c ≠ '-') (hp : c ≠ '+') :
    scanHex gnu width (c :: s) = (scanHexDigits gnu width (c :: s)).map fun p =>
      (BitVec.ofNat 32 p.1, p.2) := by
  have hdrop : (c :: s).dropWhile isSpace = c :: s := by
    rw [List.dropWhile_cons, hs]
    simp
  simp only [scanHex, hdrop, signed_of_ne s hm hp, Nat.sub_self, Nat.sub_zero, Nat.zero_add,
    Bool.false_eq_true, if_false]

/-- Two digits are read as one number, whatever follows them. -/
theorem scanHex_two_digits (gnu : Bool) {c d : Char} {v w : Nat} (s : List Char)
    (hc : hexVal c = some v) (hd : hexVal d = some w) :
    scanHex gnu 2 (c :: d :: s) = some (BitVec.ofNat 32 (16 * v + w), 2) := by
  have hclean : ∀ h : isSpace c = true ∨ c = '-' ∨ c = '+' ∨ c = 'x' ∨ c = 'X', False := by
    intro h
    rw [hexVal_eq_none h] at hc
    cases hc
  have hbase : hasBase [c, d] = false := by
    simp only [hasBase, List.take_succ_cons, List.take_nil, List.cons.injEq, and_true,
      decide_eq_false_iff_not, not_or]
    refine ⟨?_, ?_⟩
    · rintro ⟨-, rfl⟩
      cases hd
    · rintro ⟨-, rfl⟩
      cases hd
  rw [scanHex_of_ne _ (by simpa using fun h => hclean (Or.inl h))
    (fun h => hclean (Or.inr (Or.inl h))) (fun h => hclean (Or.inr (Or.inr (Or.inl h))))]
  simp [scanHexDigits, hbase, isHex, hc, hd, hexadecimal]

/-! How many characters a conversion takes. -/

theorem signed_length_le (s : List Char) : (signed s).2.length ≤ s.length := by
  unfold signed
  split <;> simp

theorem scanHexDigits_pos {gnu : Bool} {width : Nat} {s : List Char} {p : Nat × Nat}
    (h : scanHexDigits gnu width s = some p) : 0 < p.2 := by
  simp only [scanHexDigits] at h
  split at h
  · split at h
    · cases h
    · cases h
      omega
  · split at h
    · cases h
    · rename_i hne
      cases h
      exact List.length_pos_of_ne_nil hne

theorem two_le_of_hasBase {gnu : Bool} {width : Nat} {s : List Char} {p : Nat × Nat}
    (h : scanHexDigits gnu width s = some p) (hbase : hasBase (s.take width) = true) :
    2 ≤ p.2 := by
  simp only [scanHexDigits, hbase, if_true] at h
  split at h
  · cases h
  · cases h
    omega

theorem scanHex_pos {gnu : Bool} {width : Nat} {s : List Char} {p : BitVec 32 × Nat}
    (h : scanHex gnu width s = some p) : 0 < p.2 := by
  obtain ⟨q, hq, rfl⟩ := Option.map_eq_some_iff.mp h
  exact Nat.lt_of_lt_of_le (scanHexDigits_pos hq) (Nat.le_add_left _ _)

/-- A blank is one more character. -/
theorem scanHex_blank (gnu : Bool) (width : Nat) {c : Char} (s : List Char)
    (hc : isSpace c = true) :
    scanHex gnu width (c :: s) = (scanHex gnu width s).map fun p => (p.1, p.2 + 1) := by
  have hdrop : (c :: s).dropWhile isSpace = s.dropWhile isSpace := by
    rw [List.dropWhile_cons, if_pos hc]
  have hle : (signed (s.dropWhile isSpace)).2.length ≤ s.length :=
    (signed_length_le _).trans (List.length_dropWhile_le _ _)
  simp only [scanHex, hdrop, Option.map_map, List.length_cons]
  congr 1
  funext p
  simp only [Function.comp_apply, Prod.mk.injEq, true_and]
  omega

/-- A sign is one more character, and one of the width. -/
theorem scanHex_sign (gnu : Bool) (width : Nat) {c : Char} (s : List Char)
    (hc : c = '-' ∨ c = '+') :
    (scanHex gnu width (c :: s)).map Prod.snd =
      (scanHexDigits gnu (width - 1) s).map fun p => p.2 + 1 := by
  have hspace : (c :: s).dropWhile isSpace = c :: s := by
    rcases hc with rfl | rfl <;> rfl
  have hsigned : (signed (c :: s)).2 = s := by
    rcases hc with rfl | rfl <;> rfl
  simp only [scanHex, hspace, hsigned, Option.map_map, List.length_cons, Nat.add_sub_cancel_left]
  congr 1
  funext p
  exact Nat.add_comm _ _

/-! ## IPv4 addresses -/

/-- The scan of `inet_pton` for `AF_INET`: `octets` numbers were begun, `digit` says whether the
last of them has a digit, `done` holds the finished ones and `cur` the last one. -/
def inetScan (octets : Nat) (digit : Bool) (done cur : Nat) : List Char → Option (BitVec 32)
  | [] => if octets < 4 then none else some (BitVec.ofNat 32 (256 * done + cur))
  | c :: cs =>
      if c.isDigit then
        let new := 10 * cur + (c.toNat - 48)
        -- no leading zero, no number above 255, no fifth number
        if digit && decide (cur = 0) then none
        else if 255 < new then none
        else if digit then inetScan octets true done new cs
        else if 4 < octets + 1 then none
        else inetScan (octets + 1) true done new cs
      else if c = '.' && digit then
        if octets = 4 then none else inetScan octets false (256 * done + cur) 0 cs
      else none

/-- `inet_pton(AF_INET, s, &addr)` followed by `ntohl`. -/
def inetPton (s : List Char) : Option (BitVec 32) := inetScan 0 false 0 0 s

/-- How many more digits a number may take. -/
def digitsLeft (cur : Nat) : Nat :=
  if cur = 0 then 0 else if cur < 10 then 2 else if cur < 26 then 1 else 0

/-- How many more characters the scan may take. -/
def inetRoom (octets : Nat) (digit : Bool) (cur : Nat) : Nat :=
  if digit then 4 * (4 - octets) + digitsLeft cur else 4 * (4 - octets) - 1

theorem digitsLeft_le (cur : Nat) : digitsLeft cur ≤ 2 := by
  unfold digitsLeft
  split
  · omega
  · split
    · omega
    · split <;> omega

/-- A further digit takes one of those left. -/
theorem digitsLeft_step {cur d : Nat} (hcur : cur ≠ 0) (hnew : 10 * cur + d ≤ 255) :
    digitsLeft (10 * cur + d) + 1 ≤ digitsLeft cur := by
  unfold digitsLeft
  rw [if_neg hcur, if_neg (by omega), if_neg (by omega : ¬ 10 * cur + d < 10)]
  by_cases h10 : cur < 10
  · rw [if_pos h10]
    split <;> omega
  · rw [if_neg h10, if_pos (by omega : cur < 26), if_neg (by omega : ¬ 10 * cur + d < 26)]

/-- What the scan accepts is short and has only digits and dots. -/
theorem inetScan_eq_some {octets : Nat} {digit : Bool} {done cur : Nat} {s : List Char}
    {a : BitVec 32} (hoct : octets ≤ 4) (h : inetScan octets digit done cur s = some a) :
    s.length ≤ inetRoom octets digit cur ∧ ∀ c ∈ s, c.isDigit = true ∨ c = '.' := by
  induction s generalizing octets digit done cur with
  | nil => exact ⟨Nat.zero_le _, nofun⟩
  | cons c cs ih =>
      rw [inetScan] at h
      by_cases hd : c.isDigit = true
      · rw [if_pos hd] at h
        simp only at h
        split at h
        · cases h
        · rename_i hzero
          split at h
          · cases h
          · rename_i hbig
            split at h
            · -- a further digit of the number
              rename_i hdigit
              subst hdigit
              obtain ⟨hlen, hchars⟩ := ih hoct h
              have hcur : cur ≠ 0 := by simpa using hzero
              have hstep := digitsLeft_step (d := c.toNat - 48) hcur (by omega)
              simp only [inetRoom, if_true, List.length_cons] at hlen ⊢
              exact ⟨by omega, by simpa [hd] using hchars⟩
            · rename_i hdigit
              split at h
              · cases h
              · -- the first digit of a number
                obtain ⟨hlen, hchars⟩ := ih (by omega) h
                have htwo := digitsLeft_le (10 * cur + (c.toNat - 48))
                simp only [inetRoom, if_true, if_neg hdigit, List.length_cons] at hlen ⊢
                exact ⟨by omega, by simpa [hd] using hchars⟩
      · rw [if_neg hd] at h
        split at h
        · rename_i hdot
          simp only [Bool.and_eq_true, decide_eq_true_eq] at hdot
          split at h
          · cases h
          · obtain ⟨hlen, hchars⟩ := ih hoct h
            simp only [inetRoom, hdot.2, if_true, Bool.false_eq_true, if_false,
              List.length_cons] at hlen ⊢
            exact ⟨by omega, by simpa [hdot.1] using hchars⟩
        · cases h

/-- An address has at most 15 characters. -/
theorem inetPton_length {s : List Char} {a : BitVec 32} (h : inetPton s = some a) :
    s.length ≤ 15 :=
  (inetScan_eq_some (by omega) h).1

/-- An address has no character but digits and dots. -/
theorem inetPton_not_mem {s : List Char} {a : BitVec 32} {c : Char} (h : inetPton s = some a)
    (hc : c.isDigit = false) (hdot : c ≠ '.') : c ∉ s := by
  intro hmem
  rcases (inetScan_eq_some (by omega) h).2 c hmem with hd | hd
  · rw [hc] at hd
    cases hd
  · exact hdot hd

end CString

end Lanecove
