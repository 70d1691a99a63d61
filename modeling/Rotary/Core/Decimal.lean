import Rotary.Arch.Uint64

namespace Rotary

open Lib

/-!
# Numbers and their numerals (`itoa` and `atoi` of `kernel/core/string.c`)

The kernel makes numerals in five ways: by remainders that are reversed (`int_to_str`,
`uint_to_str`), by remainders of its own 64-bit division (`uint64_to_str`), by descending powers of
ten (`itoa`) and by nibbles (`int_to_hex_str`).  `atoi` reads them back.

* `formatters_agree` — those that make the same kind of numeral write the same string;
* `int_round_trip` — `int_to_str` and `atoi` are inverse to one another, but for the least `int`,
  which neither of them gets through without an overflow.
-/

/-! ### The code -/

/-- The loop of `itoa`; the divisor ends at zero. -/
def itoaLoop : ℕ → ℕ → ℕ → ℕ → List UInt8 → Option (ℕ × List UInt8)
  | 0, _, _, _, _ => none
  | fuel + 1, divisor, num, i, decString =>
    if divisor > 0 then
      let digit := num / divisor
      if digit ≠ 0 ∨ i > 0 then do
        let decString ← put decString i (UInt8.ofNat (digit + 48))
        itoaLoop fuel (divisor / 10) (num % divisor) (i + 1) decString
      else itoaLoop fuel (divisor / 10) (num % divisor) i decString
    else some (i, decString)

/-- `itoa`. -/
def itoa (num : ℕ) (decString : List UInt8) : Option (List UInt8) := do
  if num = 0 then
    let decString ← put decString 0 '0'.toUInt8
    put decString 1 0
  else
    let (i, decString) ← itoaLoop 11 1000000000 num 0 decString
    put decString i 0

/-- The result of `int` arithmetic, which must not overflow. -/
def asInt (x : ℤ) : Option ℤ := if -2 ^ 31 ≤ x ∧ x < 2 ^ 31 then some x else none

/-- The loop of `atoi`, with `res`; `char` is signed. -/
def atoiLoop : List UInt8 → ℤ → Option ℤ
  | [], _ => none
  | c :: str, res =>
    if c = 0 then some res
    else do
      let tens ← asInt (res * 10)
      let res ← asInt (tens + (c.toBitVec.toInt - '0'.toNat))
      atoiLoop str res

/-- `atoi`. -/
def atoi (str : List UInt8) : Option ℤ := do
  let c ← str.head?
  let sign : ℤ := if c = '-'.toUInt8 then -1 else 1
  let digits := if c = '-'.toUInt8 ∨ c = '+'.toUInt8 then str.tail else str
  let res ← atoiLoop digits 0
  asInt (sign * res)

variable {a out s t : List UInt8} {c : UInt8} {k num v : ℕ} {n : ℤ}

/-! ### `itoa` -/

/-- The digits that `itoa` puts, by whether it has put one already. -/
def decChars (k num : ℕ) (out : List UInt8) : List UInt8 :=
  ((if out = [] then (places 10 k num).dropWhile (fun d => d = 0) else places 10 k num)).map
    digitChar

/-- The loop at the divisor of `k` places. -/
theorem itoaLoop_spec (fuel num : ℕ) (out : List UInt8) (hfuel : k < fuel)
    (hnum : num < 10 ^ k) (hroom : out.length + (decChars k num out).length ≤ a.length) :
    itoaLoop fuel (10 ^ k / 10) num out.length (filled a out) =
      some ((out ++ decChars k num out).length, filled a (out ++ decChars k num out)) := by
  induction k generalizing fuel num out with
  | zero =>
    obtain ⟨fuel, rfl⟩ := Nat.exists_eq_succ_of_ne_zero (Nat.ne_of_gt hfuel)
    have hnil : decChars 0 num out = [] := by
      unfold decChars places
      split <;> rfl
    rw [itoaLoop, if_neg (by decide), hnil, List.append_nil]
  | succ k ih =>
    obtain ⟨fuel, rfl⟩ := Nat.exists_eq_succ_of_ne_zero (by omega : fuel ≠ 0)
    have hpow : 10 ^ (k + 1) / 10 = 10 ^ k := by rw [Nat.pow_succ, Nat.mul_div_cancel _ (by decide)]
    have hpos : 0 < 10 ^ k := Nat.pow_pos (by decide)
    have hdigit : num / 10 ^ k < 10 := by
      rw [Nat.pow_succ] at hnum
      exact Nat.div_lt_of_lt_mul hnum
    have hplaces : places 10 (k + 1) num = num / 10 ^ k :: places 10 k (num % 10 ^ k) := by
      rw [places_mod (Nat.le_refl k), places, Nat.mod_eq_of_lt hdigit]
    have hmod : num % 10 ^ k < 10 ^ k := Nat.mod_lt _ hpos
    rw [hpow, itoaLoop, if_pos hpos]
    by_cases hskip : num / 10 ^ k = 0 ∧ out = []
    · -- a leading zero is dropped
      obtain ⟨hzero, rfl⟩ := hskip
      have hsame : decChars (k + 1) num [] = decChars k (num % 10 ^ k) [] := by
        simp [decChars, hplaces, hzero]
      rw [hsame] at hroom ⊢
      simp only [hzero]
      rw [if_neg (by simp)]
      exact ih fuel _ [] (by omega) hmod hroom
    · have hkeep : num / 10 ^ k ≠ 0 ∨ out.length > 0 := by
        rcases not_and_or.mp hskip with hdigit | hout
        · exact Or.inl hdigit
        · exact Or.inr (List.length_pos_iff.mpr hout)
      have hcons : decChars (k + 1) num out =
          digitChar (num / 10 ^ k) ::
            decChars k (num % 10 ^ k) (out ++ [digitChar (num / 10 ^ k)]) := by
        rcases not_and_or.mp hskip with hdigit | hout
        · by_cases hout : out = [] <;> simp [decChars, hplaces, hdigit, hout]
        · simp [decChars, hplaces, hout]
      rw [hcons, List.length_cons] at hroom
      have hput := put_filled a out (digitChar (num / 10 ^ k)) (by omega)
      have htail := ih fuel _ (out ++ [digitChar (num / 10 ^ k)]) (by omega) hmod
        (by rw [List.length_append, List.length_singleton]; omega)
      rw [List.length_append, List.length_singleton] at htail
      simp only
      rw [if_pos hkeep, ← digitChar_of_lt_ten hdigit, hput, hcons]
      simp only [Option.bind_eq_bind, Option.bind_some, htail, List.append_assoc,
        List.singleton_append]

/-- **`itoa`** writes the decimal numeral. -/
theorem itoa_spec (hnum : num < 2 ^ 32) (hroom : (numeral 10 num).length < a.length) :
    itoa num a = some (filled a (numeral 10 num ++ [0])) := by
  unfold itoa
  by_cases hzero : num = 0
  · subst hzero
    rw [if_pos rfl]
    exact put_zero hroom
  · have hlt : num < 10 ^ 10 := by omega
    have hdigits : decChars 10 num [] = numeral 10 num := by
      unfold decChars numeral digitChars
      rw [if_pos rfl, dropWhile_places (by decide) hlt, if_neg hzero, List.map_reverse]
    have hloop := itoaLoop_spec (a := a) 11 num [] (by decide) hlt
      (by rw [hdigits]; simpa using hroom.le)
    have hpow : 10 ^ 10 / 10 = 1000000000 := by norm_num
    rw [hdigits, hpow, List.length_nil, filled_nil, List.nil_append] at hloop
    rw [if_neg hzero, hloop]
    exact put_filled a _ 0 hroom

/-! ### The formatters agree -/

/-- A word as a 64-bit value. -/
theorem uint64ToStr_word (n : BitVec 32) {base : ℕ} (hb : 1 < base) (hb16 : base ≤ 16)
    (hroom : (numeral base n.toNat).length < a.length) :
    uint64ToStr (n.setWidth 64) a base = some (filled a (numeral base n.toNat ++ [0])) := by
  have hval : (n.setWidth 64).toNat = n.toNat := BitVec.toNat_setWidth_of_le (by decide)
  rw [uint64ToStr_spec hb hb16, hval, if_pos hroom]

/-- **The formatters agree**: there is one decimal and one hexadecimal string for every word, and
all the routines write it to any array with room for it and its terminator, and nothing else. -/
theorem formatters_agree (n : BitVec 32) :
    (∃ s : List UInt8, (∀ c ∈ s, c ≠ 0) ∧ ∀ dest : List UInt8, s.length < dest.length →
      itoa n.toNat dest = some (s ++ 0 :: dest.drop (s.length + 1)) ∧
      uintToStr n.toNat dest = some (s ++ 0 :: dest.drop (s.length + 1)) ∧
      uint64ToStr (n.setWidth 64) dest 10 = some (s ++ 0 :: dest.drop (s.length + 1))) ∧
    ∃ s : List UInt8, (∀ c ∈ s, c ≠ 0) ∧ ∀ dest : List UInt8, s.length < dest.length →
      intToHexStr n.toNat dest = some (s ++ 0 :: dest.drop (s.length + 1)) ∧
      uint64ToStr (n.setWidth 64) dest 16 = some (s ++ 0 :: dest.drop (s.length + 1)) := by
  constructor
  · refine ⟨numeral 10 n.toNat, fun _ hc => numeral_ne_zero (by decide) (by decide) hc, ?_⟩
    intro dest hroom
    rw [← filled_terminated]
    exact ⟨itoa_spec n.isLt hroom, uintToStr_spec hroom,
      uint64ToStr_word n (by decide) (by decide) hroom⟩
  · refine ⟨numeral 16 n.toNat, fun _ hc => numeral_ne_zero (by decide) (by decide) hc, ?_⟩
    intro dest hroom
    rw [← filled_terminated]
    exact ⟨intToHexStr_spec n.isLt hroom, uint64ToStr_word n (by decide) (by decide) hroom⟩

/-! ### `atoi` -/

theorem asInt_of_lt {x : ℤ} (hlow : -2 ^ 31 ≤ x) (hhigh : x < 2 ^ 31) : asInt x = some x := by
  unfold asInt
  rw [if_pos ⟨hlow, hhigh⟩]

/-- What `atoi` takes a decimal digit for. -/
theorem digitChar_value {d : ℕ} (hd : d < 10) :
    digitChar d ≠ 0 ∧ digitChar d ≠ '-'.toUInt8 ∧ digitChar d ≠ '+'.toUInt8 ∧
      (digitChar d).toBitVec.toInt - '0'.toNat = d ∧ charDigit (digitChar d) = d := by
  revert d
  decide

/-- Reading on does not make the value smaller. -/
theorem le_valueFrom (s : List UInt8) (v : ℕ) :
    v ≤ s.foldl (fun v c => v * 10 + charDigit c) v := by
  induction s generalizing v with
  | nil => exact Nat.le_refl v
  | cons c s ih =>
    have hstep : v ≤ v * 10 + charDigit c := by omega
    exact hstep.trans (ih _)

/-- The loop reads a value that is an `int`. -/
theorem atoiLoop_spec (hs : ∀ c ∈ s, ∃ d < 10, c = digitChar d)
    (hfit : s.foldl (fun v c => v * 10 + charDigit c) v < 2 ^ 31) :
    atoiLoop (s ++ 0 :: t) v = some ((s.foldl (fun v c => v * 10 + charDigit c) v : ℕ) : ℤ) := by
  induction s generalizing v with
  | nil => rfl
  | cons c s ih =>
    obtain ⟨d, hd, rfl⟩ := hs c List.mem_cons_self
    obtain ⟨hnull, -, -, hint, hdigit⟩ := digitChar_value hd
    have hle := le_valueFrom s (v * 10 + charDigit (digitChar d))
    rw [List.foldl_cons] at hfit ⊢
    rw [hdigit] at hfit hle ⊢
    have htail := ih (fun e he => hs e (List.mem_cons_of_mem _ he)) hfit
    have hsum : (v : ℤ) * 10 + d = (v * 10 + d : ℕ) := by omega
    rw [List.cons_append, atoiLoop, if_neg hnull, asInt_of_lt (by omega) (by omega)]
    simp only [Option.bind_eq_bind, Option.bind_some]
    rw [hint, asInt_of_lt (by omega) (by omega), Option.bind_some, hsum, htail]

/-- `s` is the decimal numeral of an integer as one writes it. -/
def CanonicalInt (n : ℤ) (s : List UInt8) : Prop :=
  if n < 0 then ∃ t, s = '-'.toUInt8 :: t ∧ Canonical 10 n.natAbs t else Canonical 10 n.natAbs s

theorem canonicalInt_signed (n : ℤ) : CanonicalInt n (signed n) := by
  have hnum := canonical_numeral (b := 10) (by decide) (by decide) n.natAbs
  unfold CanonicalInt signed
  by_cases hneg : n < 0
  · rw [if_pos hneg, if_pos hneg]
    exact ⟨_, rfl, hnum⟩
  · rw [if_neg hneg, if_neg hneg]
    exact hnum

theorem CanonicalInt.eq_signed (h : CanonicalInt n s) : s = signed n := by
  unfold CanonicalInt at h
  unfold signed
  by_cases hneg : n < 0
  · rw [if_pos hneg] at h ⊢
    obtain ⟨t, rfl, ht⟩ := h
    rw [ht.eq_numeral (by decide) (by decide)]
  · rw [if_neg hneg] at h ⊢
    exact h.eq_numeral (by decide) (by decide)

/-- **`atoi`** reads the numeral of an `int`. -/
theorem atoi_signed (hlow : -2 ^ 31 < n) (hhigh : n < 2 ^ 31) (t : List UInt8) :
    atoi (signed n ++ 0 :: t) = some n := by
  have hnum := canonical_numeral (b := 10) (by decide) (by decide) n.natAbs
  have hvalue := hnum.value
  have hloop : atoiLoop (numeral 10 n.natAbs ++ 0 :: t) 0 = some (n.natAbs : ℤ) := by
    unfold valueOf at hvalue
    have hread := atoiLoop_spec (t := t) hnum.digits (by rw [hvalue]; omega)
    rw [hvalue, Nat.cast_zero] at hread
    exact hread
  unfold signed atoi
  by_cases hneg : n < 0
  · have hback : -1 * (n.natAbs : ℤ) = n := by omega
    rw [if_pos hneg]
    simp only [List.cons_append, List.head?_cons, List.tail_cons, Option.bind_eq_bind,
      Option.bind_some, if_true, true_or, hloop, hback]
    exact asInt_of_lt hlow.le hhigh
  · -- the first character is a digit, and no sign
    have hback : 1 * (n.natAbs : ℤ) = n := by omega
    obtain ⟨c, rest, hcons⟩ := List.exists_cons_of_ne_nil hnum.ne_nil
    obtain ⟨d, hd, hc⟩ := hnum.digits c (by rw [hcons]; exact List.mem_cons_self)
    obtain ⟨-, hminus, hplus, -, -⟩ := digitChar_value hd
    rw [← hc] at hminus hplus
    rw [hcons] at hloop
    rw [if_neg hneg, hcons]
    rw [List.cons_append] at hloop ⊢
    simp only [List.head?_cons, Option.bind_eq_bind, Option.bind_some]
    rw [if_neg (not_or.mpr ⟨hminus, hplus⟩), if_neg hminus, hloop, Option.bind_some, hback]
    exact asInt_of_lt hlow.le hhigh

/-! ### The round trip -/

/-- `int_to_str` writes the canonical numeral of `n`, which `atoi` reads back; and a canonical
    numeral of `n` that `atoi` reads is written again by `int_to_str`. -/
structure RoundTrips (n : ℤ) : Prop where
  writes : ∃ s, CanonicalInt n s ∧
    (∀ dest : List UInt8, s.length < dest.length →
      intToStr n dest = some (s ++ 0 :: dest.drop (s.length + 1))) ∧
    ∀ junk, atoi (s ++ 0 :: junk) = some n
  reads : ∀ s, CanonicalInt n s → ∀ junk dest : List UInt8, s.length < dest.length →
    ∃ m, atoi (s ++ 0 :: junk) = some m ∧
      intToStr m dest = some (s ++ 0 :: dest.drop (s.length + 1))

theorem roundTrips_of_ne_min (hlow : -2 ^ 31 < n) (hhigh : n < 2 ^ 31) : RoundTrips n := by
  have hwrites : ∀ dest : List UInt8, (signed n).length < dest.length →
      intToStr n dest = some (signed n ++ 0 :: dest.drop ((signed n).length + 1)) := by
    intro dest hroom
    rw [intToStr_spec (Int.ne_of_gt hlow) hroom, filled_terminated]
  constructor
  · exact ⟨signed n, canonicalInt_signed n, hwrites, atoi_signed hlow hhigh⟩
  · intro s hs junk dest hroom
    obtain rfl := hs.eq_signed
    exact ⟨n, atoi_signed hlow hhigh junk, hwrites dest hroom⟩

/-- The sign of the least `int` cannot be turned. -/
theorem intToStr_min (dest : List UInt8) : intToStr (-2 ^ 31) dest = none := by
  unfold intToStr
  rw [if_neg (by decide), if_pos rfl]

theorem not_roundTrips_min : ¬ RoundTrips (-2 ^ 31) := by
  intro h
  obtain ⟨s, -, hwrites, -⟩ := h.writes
  have hsome := hwrites (List.replicate (s.length + 1) 0) (by simp)
  rw [intToStr_min] at hsome
  exact Option.some_ne_none _ hsome.symm

/-- **The decimal round trip** holds for every `int` but the least. -/
theorem int_round_trip (w : BitVec 32) : RoundTrips w.toInt ↔ w.toInt ≠ -2 ^ 31 := by
  have hlow : -2 ^ 31 ≤ w.toInt := by
    have h := BitVec.le_two_mul_toInt (x := w)
    omega
  have hhigh : w.toInt < 2 ^ 31 := by
    have h := BitVec.two_mul_toInt_lt (x := w)
    omega
  constructor
  · intro h hmin
    rw [hmin] at h
    exact not_roundTrips_min h
  · intro hne
    exact roundTrips_of_ne_min (by omega) hhigh

/-- The least `int`. -/
theorem int_round_trip_fails : ¬ ∀ w : BitVec 32, RoundTrips w.toInt := by
  intro h
  exact not_roundTrips_min (h (BitVec.intMin 32))

end Rotary
