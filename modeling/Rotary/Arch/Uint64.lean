import Mathlib.Data.BitVec
import Rotary.Core.String
import Rotary.Lib.Division

namespace Rotary

open Lib

/-!
# 64-bit numbers (`udivmod64` and `uint64_to_str` of `arch/x86/kernel/multiboot.c`)

The kernel is linked without the compiler's own 64-bit division.  `udivmod64` shifts the bits of
the dividend into a partial remainder of 64 bits, so that its top bit must be clear whenever it is
shifted; for a divisor above `2 ^ 63` it is the dividend and not the divisor that bounds it.

* `TopDivided` — after the bits from `i` on, the quotient and the remainder are those of the
  dividend's top bits;
* `udivmod64_exact` — the result, and that no shift loses a bit;
* `uint64ToStr_canonical` — the numeral to any base from 2 to 16, and the room that it takes.
-/

/-! ### The code -/

/-- `q` and `r`. -/
structure DivState where
  q : BitVec 64
  r : BitVec 64

/-- The body of the loop, for the bit `i`. -/
def divTurn (dividend divisor : BitVec 64) (i : ℕ) (s : DivState) : DivState :=
  let r := s.r <<< 1 ||| (dividend >>> i &&& 1)
  if r ≥ divisor then ⟨s.q ||| 1#64 <<< i, r - divisor⟩ else ⟨s.q, r⟩

/-- The first `n` turns of the loop; the next one is for the bit `63 - n`. -/
def divTurns (dividend divisor : BitVec 64) : ℕ → DivState
  | 0 => ⟨0, 0⟩
  | n + 1 => divTurn dividend divisor (63 - n) (divTurns dividend divisor n)

/-- `udivmod64`, with both results wanted. -/
def udivmod64 (dividend divisor : BitVec 64) : DivState := divTurns dividend divisor 64

/-- The loop that puts the digits of `value` from `*ptr` on, the last one first.  Every turn fills a
    place of the array. -/
def putRemainders (base : ℤ) : ℕ → BitVec 64 → ℕ → List UInt8 → Option (ℕ × List UInt8)
  | 0, _, _, _ => none
  | fuel + 1, value, ptr, str => do
    let s := udivmod64 value (BitVec.ofInt 64 base)
    let digit ← (hexDigits ++ [0])[s.r.toNat]?
    let str ← put str ptr digit
    if s.q = 0 then some (ptr + 1, str)
    else putRemainders base fuel s.q (ptr + 1) str

/-- The loop that reverses what lies between the two pointers. -/
def swapPtrs : ℕ → ℕ → ℕ → List UInt8 → Option (List UInt8)
  | 0, _, _, _ => none
  | fuel + 1, ptr1, ptr, str =>
    if ptr1 < ptr then do
      let tmp ← str[ptr]?
      let first ← str[ptr1]?
      let str ← put str ptr first
      let str ← put str ptr1 tmp
      swapPtrs fuel (ptr1 + 1) (ptr - 1) str
    else some str

/-- `uint64_to_str`. -/
def uint64ToStr (value : BitVec 64) (str : List UInt8) (base : ℤ) : Option (List UInt8) := do
  let (ptr, str) ← putRemainders base (str.length + 1) value 0 str
  let str ← put str ptr 0
  swapPtrs (ptr + 1) 0 (ptr - 1) str

variable {dividend divisor : BitVec 64} {s : DivState} {i n : ℕ}

/-! ### The invariant -/

/-- The bits of the dividend from `i` on have been divided; the quotient's lower bits are clear. -/
def TopDivided (dividend divisor : BitVec 64) (i : ℕ) (s : DivState) : Prop :=
  ∃ q : ℕ, s.q.toNat = 2 ^ i * q ∧ DivMod (dividend.toNat / 2 ^ i) divisor.toNat q s.r.toNat

/-- The partial remainder has room for one more bit. -/
theorem TopDivided.remainder_lt (h : TopDivided dividend divisor (i + 1) s) :
    s.r.toNat < 2 ^ 63 := by
  obtain ⟨q, -, hdiv⟩ := h
  have htop : dividend.toNat / 2 ^ (i + 1) ≤ dividend.toNat / 2 :=
    Nat.div_le_div_left (Nat.le_self_pow (Nat.succ_ne_zero i) 2) (by decide)
  have hle := hdiv.le
  have hlt := dividend.isLt
  omega

theorem shift_toNat {r : BitVec 64} (hr : r.toNat < 2 ^ 63) : (r <<< 1).toNat = 2 * r.toNat := by
  rw [BitVec.toNat_shiftLeft, Nat.shiftLeft_eq]
  omega

/-- The shifted remainder with the next bit. -/
theorem shift_or_toNat (dividend : BitVec 64) (i : ℕ) {r : BitVec 64} (hr : r.toNat < 2 ^ 63) :
    (r <<< 1 ||| (dividend >>> i &&& 1)).toNat = 2 * r.toNat + dividend.toNat / 2 ^ i % 2 := by
  have hbit : (dividend >>> i &&& 1).toNat = dividend.toNat / 2 ^ i % 2 := by
    rw [BitVec.toNat_and, BitVec.toNat_ushiftRight, Nat.shiftRight_eq_div_pow]
    exact Nat.and_one_is_mod _
  have hsmall : dividend.toNat / 2 ^ i % 2 < 2 ^ 1 := Nat.mod_lt _ (by decide)
  rw [BitVec.toNat_or, shift_toNat hr, hbit]
  exact (Nat.two_pow_add_eq_or_of_lt hsmall r.toNat).symm

/-- A bit of the quotient is set below those that are set already. -/
theorem set_bit_toNat {q : BitVec 64} {k : ℕ} (hi : i < 64) (hq : q.toNat = 2 ^ (i + 1) * k) :
    (q ||| 1#64 <<< i).toNat = 2 ^ i * (2 * k + 1) := by
  have hpow : 2 ^ i < 2 ^ (i + 1) := Nat.pow_lt_pow_right (by decide) (Nat.lt_succ_self i)
  have hfit : 2 ^ i < 2 ^ 64 := Nat.pow_lt_pow_right (by decide) hi
  have hone : (1#64 <<< i).toNat = 2 ^ i := by
    rw [BitVec.toNat_shiftLeft, Nat.shiftLeft_eq]
    show 1 * 2 ^ i % 2 ^ 64 = 2 ^ i
    rw [Nat.one_mul, Nat.mod_eq_of_lt hfit]
  rw [BitVec.toNat_or, hq, hone, ← Nat.two_pow_add_eq_or_of_lt hpow k, Nat.pow_succ]
  ring

/-- **One turn** divides one more bit of the dividend. -/
theorem TopDivided.turn (hi : i < 64) (h : TopDivided dividend divisor (i + 1) s) :
    TopDivided dividend divisor i (divTurn dividend divisor i s) := by
  have hsum := shift_or_toNat dividend i h.remainder_lt
  have hbit : dividend.toNat / 2 ^ i % 2 ≤ 1 := Nat.lt_succ_iff.mp (Nat.mod_lt _ (by decide))
  obtain ⟨q, hq, hdiv⟩ := h
  unfold divTurn TopDivided
  rw [top_bits_succ]
  by_cases hfits : s.r <<< 1 ||| (dividend >>> i &&& 1) ≥ divisor
  · -- the divisor is subtracted, and the bit of the quotient set
    have hle : divisor.toNat ≤ 2 * s.r.toNat + dividend.toNat / 2 ^ i % 2 := by
      rw [← hsum]
      exact BitVec.le_def.mp hfits
    rw [if_pos hfits]
    refine ⟨2 * q + 1, set_bit_toNat hi hq, ?_⟩
    rw [BitVec.toNat_sub_of_le hfits, hsum]
    exact hdiv.subtract hbit hle
  · have hlt : 2 * s.r.toNat + dividend.toNat / 2 ^ i % 2 < divisor.toNat := by
      rw [← hsum]
      exact BitVec.lt_def.mp (BitVec.not_le.mp hfits)
    rw [if_neg hfits]
    refine ⟨2 * q, ?_, ?_⟩
    · show s.q.toNat = 2 ^ i * (2 * q)
      rw [hq, Nat.pow_succ, Nat.mul_assoc]
    · rw [hsum]
      exact hdiv.keep hlt

/-- **Every number of turns.** -/
theorem divTurns_invariant (dividend : BitVec 64) (hd : divisor ≠ 0) (hn : n ≤ 64) :
    TopDivided dividend divisor (64 - n) (divTurns dividend divisor n) := by
  have hpos : 0 < divisor.toNat := Nat.pos_of_ne_zero fun h => hd (BitVec.eq_of_toNat_eq h)
  induction n with
  | zero =>
    have hnone : dividend.toNat / 2 ^ 64 = 0 := Nat.div_eq_of_lt dividend.isLt
    refine ⟨0, rfl, ?_⟩
    rw [Nat.sub_zero, hnone]
    exact DivMod.zero hpos
  | succ n ih =>
    have hnext : 64 - n = 63 - n + 1 := by omega
    have hlast : 64 - (n + 1) = 63 - n := by omega
    have hinv := ih (by omega)
    rw [hnext] at hinv
    rw [hlast]
    exact hinv.turn (by omega)

/-- The quotient and the remainder. -/
theorem udivmod64_spec (dividend : BitVec 64) (hd : divisor ≠ 0) :
    (udivmod64 dividend divisor).q.toNat = dividend.toNat / divisor.toNat ∧
      (udivmod64 dividend divisor).r.toNat = dividend.toNat % divisor.toNat := by
  obtain ⟨q, hq, hdiv⟩ := divTurns_invariant dividend hd (Nat.le_refl 64)
  rw [Nat.sub_self, Nat.pow_zero, Nat.div_one] at hdiv
  rw [Nat.sub_self, Nat.pow_zero, Nat.one_mul] at hq
  obtain ⟨hquot, hrem⟩ := hdiv.div_and_mod
  exact ⟨hq.trans hquot.symm, hrem.symm⟩

/-- **`udivmod64` is exact** for every dividend and every divisor but zero, and the shift of the
partial remainder loses no bit in any of the turns. -/
theorem udivmod64_exact (dividend divisor : BitVec 64) (hd : divisor ≠ 0) :
    dividend.toNat = (udivmod64 dividend divisor).q.toNat * divisor.toNat +
        (udivmod64 dividend divisor).r.toNat ∧
      (udivmod64 dividend divisor).r < divisor ∧
      ∀ n < 64, ((divTurns dividend divisor n).r <<< 1).toNat =
        2 * (divTurns dividend divisor n).r.toNat := by
  obtain ⟨hquot, hrem⟩ := udivmod64_spec dividend hd
  have hpos : 0 < divisor.toNat := Nat.pos_of_ne_zero fun h => hd (BitVec.eq_of_toNat_eq h)
  refine ⟨?_, ?_, ?_⟩
  · rw [hquot, hrem, Nat.mul_comm, Nat.div_add_mod]
  · rw [BitVec.lt_def, hrem]
    exact Nat.mod_lt _ hpos
  · intro n hn
    have hinv := divTurns_invariant dividend hd hn.le
    have hnext : 64 - n = 63 - n + 1 := by omega
    rw [hnext] at hinv
    exact shift_toNat hinv.remainder_lt

/-- A divisor above `2 ^ 63`. -/
theorem udivmod64_exact_large :
    (BitVec.allOnes 64).toNat = (udivmod64 (BitVec.allOnes 64) (1#64 <<< 63 + 1)).q.toNat *
        (1#64 <<< 63 + 1).toNat +
        (udivmod64 (BitVec.allOnes 64) (1#64 <<< 63 + 1)).r.toNat ∧
      (udivmod64 (BitVec.allOnes 64) (1#64 <<< 63 + 1)).r < 1#64 <<< 63 + 1 ∧
      ∀ n < 64, ((divTurns (BitVec.allOnes 64) (1#64 <<< 63 + 1) n).r <<< 1).toNat =
        2 * (divTurns (BitVec.allOnes 64) (1#64 <<< 63 + 1) n).r.toNat :=
  udivmod64_exact (BitVec.allOnes 64) (1#64 <<< 63 + 1) (by decide)

/-! ### Numerals -/

/-- It does not matter which end of a pair is written first. -/
theorem swapPtrs_eq (fuel ptr1 ptr : ℕ) (str : List UInt8) :
    swapPtrs fuel ptr1 ptr str = swapEnds fuel ptr1 ptr str := by
  induction fuel generalizing ptr1 ptr str with
  | zero => rfl
  | succ fuel ih =>
    unfold swapPtrs swapEnds
    by_cases hlt : ptr1 < ptr
    · rw [if_pos hlt, if_pos hlt]
      by_cases hin : ptr < str.length
      · have hfirst : ptr1 < str.length := hlt.trans hin
        have hswap : ∀ x y : UInt8, (str.set ptr x).set ptr1 y = (str.set ptr1 y).set ptr x :=
          fun x y => List.set_comm x y (Nat.ne_of_gt hlt)
        simp [put, hin, hfirst, ih, hswap]
      · simp [List.getElem?_eq_none (Nat.le_of_not_lt hin)]
    · rw [if_neg hlt, if_neg hlt]

/-- A base as the divisor. -/
theorem ofInt_base {base : ℕ} (hb : 1 < base) (hb16 : base ≤ 16) :
    BitVec.ofInt 64 base ≠ 0 ∧ (BitVec.ofInt 64 base).toNat = base := by
  have hval : (BitVec.ofInt 64 base).toNat = base := by
    rw [BitVec.toNat_ofInt]
    omega
  refine ⟨fun h => ?_, hval⟩
  rw [h] at hval
  have hzero : (0 : BitVec 64).toNat = 0 := rfl
  omega

/-- The digits are put as division yields them, while there is room. -/
theorem putRemainders_spec {base fuel : ℕ} (hb : 1 < base) (hb16 : base ≤ 16) (str : List UInt8)
    (value : BitVec 64) (out : List UInt8) (hout : out.length ≤ str.length)
    (hfuel : str.length - out.length < fuel) :
    putRemainders base fuel value out.length (filled str out) =
      if out.length + (numeral base value.toNat).length ≤ str.length then
        some ((out ++ (numeral base value.toNat).reverse).length,
          filled str (out ++ (numeral base value.toNat).reverse))
      else none := by
  obtain ⟨hne, hval⟩ := ofInt_base hb hb16
  induction fuel generalizing value out with
  | zero => omega
  | succ fuel ih =>
    obtain ⟨hquot, hrem⟩ := udivmod64_spec value hne
    have hdigit : value.toNat % base < 16 := (Nat.mod_lt _ (by omega)).trans_le hb16
    have hsize : hexDigits.length = 16 := rfl
    have hchar : (hexDigits ++ [0])[value.toNat % base]? =
        some (digitChar (value.toNat % base)) := by
      rw [List.getElem?_append_left (by omega), hexDigits_getElem? hdigit]
    have hlen := congrArg List.length (numeral_reverse hb value.toNat)
    rw [List.length_reverse, List.length_cons] at hlen
    rw [hval] at hquot hrem
    -- one digit is put, and the quotient is left
    rw [putRemainders]
    generalize udivmod64 value (BitVec.ofInt 64 base) = s at hquot hrem ⊢
    rw [hrem, hchar]
    simp only [Option.bind_eq_bind, Option.bind_some]
    by_cases hfull : out.length = str.length
    · -- no room for the digit
      rw [put_full str out _ hfull, Option.bind_none, if_neg (by omega)]
    · rw [put_filled str out _ (by omega), Option.bind_some]
      by_cases hlast : s.q = 0
      · -- the first digit of the numeral
        have hzero : value.toNat / base = 0 := by
          rw [← hquot, hlast]
          rfl
        rw [if_pos hzero, List.length_nil] at hlen
        rw [if_pos hlast, if_pos (by omega), numeral_reverse hb, if_pos hzero]
        simp
      · have hmore : value.toNat / base ≠ 0 := by
          rw [← hquot]
          exact fun h => hlast (BitVec.eq_of_toNat_eq h)
        have htail := ih s.q (out ++ [digitChar (value.toNat % base)])
          (by rw [List.length_append, List.length_singleton]; omega)
          (by rw [List.length_append, List.length_singleton]; omega)
        rw [if_neg hmore, List.length_reverse] at hlen
        rw [List.length_append, List.length_singleton, hquot, List.append_assoc,
          List.singleton_append] at htail
        rw [if_neg hlast, htail, numeral_reverse hb value.toNat, if_neg hmore, hlen]
        have hsum : out.length + 1 + (numeral base (value.toNat / base)).length =
            out.length + ((numeral base (value.toNat / base)).length + 1) := by omega
        rw [hsum]

/-- **`uint64_to_str`** writes the numeral and its terminator, and that takes all the room that it
needs. -/
theorem uint64ToStr_spec {base : ℕ} (hb : 1 < base) (hb16 : base ≤ 16) (value : BitVec 64)
    (str : List UInt8) :
    uint64ToStr value str base =
      if (numeral base value.toNat).length < str.length then
        some (filled str (numeral base value.toNat ++ [0]))
      else none := by
  have hdigits := putRemainders_spec hb hb16 str value [] (Nat.zero_le _)
    (Nat.lt_add_one str.length)
  rw [List.length_nil, filled_nil, List.nil_append, Nat.zero_add] at hdigits
  rw [uint64ToStr, hdigits]
  by_cases hroom : (numeral base value.toNat).length ≤ str.length
  · rw [if_pos hroom]
    simp only [Option.bind_eq_bind, Option.bind_some, swapPtrs_eq]
    by_cases hlast : (numeral base value.toNat).length < str.length
    · rw [if_pos hlast, finish_filled _ (by rw [List.length_reverse]; exact hlast),
        List.reverse_reverse]
    · rw [if_neg hlast, put_full str _ _ (by rw [List.length_reverse]; omega), Option.bind_none]
  · rw [if_neg hroom, if_neg (by omega)]
    rfl

/-- **`uint64_to_str` writes the canonical numeral**: for every value and every base there is one
string of digits of the base, and any array that has room for it and its terminator gets just
these; there is an access outside of a smaller array. -/
theorem uint64ToStr_canonical (value : BitVec 64) (base : ℕ) (hb : 2 ≤ base) (hb16 : base ≤ 16) :
    ∃ s : List UInt8, Canonical base value.toNat s ∧
      ∀ str : List UInt8, uint64ToStr value str base =
        if s.length + 1 ≤ str.length then some (s ++ 0 :: str.drop (s.length + 1)) else none := by
  refine ⟨numeral base value.toNat, canonical_numeral hb hb16 _, ?_⟩
  intro str
  rw [uint64ToStr_spec hb hb16, filled_terminated]
  rfl

/-- The largest value in hexadecimal. -/
theorem uint64ToStr_canonical_hex :
    ∃ s : List UInt8, Canonical 16 (BitVec.allOnes 64).toNat s ∧
      ∀ str : List UInt8, uint64ToStr (BitVec.allOnes 64) str (16 : ℕ) =
        if s.length + 1 ≤ str.length then some (s ++ 0 :: str.drop (s.length + 1)) else none :=
  uint64ToStr_canonical (BitVec.allOnes 64) 16 (by decide) (by decide)

end Rotary
