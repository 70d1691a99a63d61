import Mathlib.Data.Nat.Digits.Lemmas

namespace Rotary.Lib

/-!
# Numerals as byte strings

The positional numeral of a number, most significant digit first, in ASCII: digits from ten on are
lower case letters.

* `numeral` — no leading zero, and the single digit `0` for zero;
* `Canonical` — what a numeral is, said by its characters and its value; there is one numeral for
  every number (`Canonical.eq_numeral`);
* `places` — the lowest `k` digits with their leading zeros, as a loop over the places reads them;
  dropping the zeros leaves the numeral (`dropWhile_places`).
-/

/-- The character of a digit below 36. -/
def digitChar (d : ℕ) : UInt8 := UInt8.ofNat (if d < 10 then 48 + d else 87 + d)

/-- The digits of `n` as characters, the last one first; none for zero. -/
def digitChars (b n : ℕ) : List UInt8 := (Nat.digits b n).map digitChar

/-- The numeral of `n` to the base `b`. -/
def numeral (b n : ℕ) : List UInt8 := if n = 0 then [48] else (digitChars b n).reverse

/-- The lowest `k` digits, the highest of them first. -/
def places (b : ℕ) : ℕ → ℕ → List ℕ
  | 0, _ => []
  | k + 1, n => n / b ^ k % b :: places b k n

/-- The digit that a character stands for. -/
def charDigit (c : UInt8) : ℕ := if c.toNat < 58 then c.toNat - 48 else c.toNat - 87

/-- The value of a string of digits. -/
def valueOf (b : ℕ) (s : List UInt8) : ℕ := s.foldl (fun v c => v * b + charDigit c) 0

/-- `s` is the numeral of `n` as one writes it: digits of the base, at least one of them, and no
    zero in front of another. -/
structure Canonical (b n : ℕ) (s : List UInt8) : Prop where
  digits : ∀ c ∈ s, ∃ d < b, c = digitChar d
  ne_nil : s ≠ []
  no_leading_zero : s.head? = some 48 → s = [48]
  value : valueOf b s = n

variable {b n k d : ℕ} {c : UInt8}

theorem digitChar_ne_zero (hd : d < 16) : digitChar d ≠ 0 := by
  revert d
  decide

theorem digitChar_eq_zero_char (hd : d < 16) : digitChar d = 48 ↔ d = 0 := by
  revert d
  decide

theorem digitChar_of_lt_ten (hd : d < 10) : digitChar d = UInt8.ofNat (d + 48) := by
  unfold digitChar
  rw [if_pos hd, Nat.add_comm]

/-! ### Numerals -/

theorem digitChars_zero (b : ℕ) : digitChars b 0 = [] := by
  unfold digitChars
  rw [Nat.digits_zero, List.map_nil]

theorem digitChars_of_pos (hb : 1 < b) (hn : 0 < n) :
    digitChars b n = digitChar (n % b) :: digitChars b (n / b) := by
  unfold digitChars
  rw [Nat.digits_def' hb hn, List.map_cons]

/-- The digits of a numeral as division yields them: the last one, and those of the quotient. -/
theorem numeral_reverse (hb : 1 < b) (n : ℕ) :
    (numeral b n).reverse =
      digitChar (n % b) :: if n / b = 0 then [] else (numeral b (n / b)).reverse := by
  unfold numeral
  by_cases hzero : n = 0
  · subst hzero
    rw [Nat.zero_mod, Nat.zero_div, if_pos rfl, if_pos rfl]
    rfl
  · rw [if_neg hzero, List.reverse_reverse, digitChars_of_pos hb (Nat.pos_of_ne_zero hzero)]
    by_cases hlast : n / b = 0
    · rw [hlast, if_pos rfl, digitChars_zero]
    · rw [if_neg hlast, if_neg hlast, List.reverse_reverse]

theorem digitChars_length_le (hb : 1 < b) (hn : n < b ^ k) : (digitChars b n).length ≤ k := by
  unfold digitChars
  rw [List.length_map]
  exact (Nat.digits_length_le_iff hb n).mpr hn

theorem digitChars_ne_zero (hb : 1 < b) (hb16 : b ≤ 16) (hc : c ∈ digitChars b n) : c ≠ 0 := by
  obtain ⟨d, hd, rfl⟩ := List.mem_map.mp hc
  have hlt := Nat.digits_lt_base hb hd
  exact digitChar_ne_zero (by omega)

theorem numeral_length_le (hb : 1 < b) (hk : 0 < k) (hn : n < b ^ k) :
    (numeral b n).length ≤ k := by
  unfold numeral
  split
  · exact hk
  · rw [List.length_reverse]
    exact digitChars_length_le hb hn

/-- A numeral has no null byte. -/
theorem numeral_ne_zero (hb : 1 < b) (hb16 : b ≤ 16) (hc : c ∈ numeral b n) : c ≠ 0 := by
  unfold numeral at hc
  split at hc
  · obtain rfl := List.mem_singleton.mp hc
    decide
  · exact digitChars_ne_zero hb hb16 (List.mem_reverse.mp hc)

/-! ### Canonical numerals -/

theorem charDigit_digitChar (hd : d < 16) : charDigit (digitChar d) = d := by
  revert d
  decide

theorem valueOf_zero (b : ℕ) : valueOf b [48] = 0 := by
  show 0 * b + charDigit 48 = 0
  rw [Nat.zero_mul]
  rfl

/-- The value of digits that are given the last one first. -/
theorem valueOf_reverse {ds : List ℕ} (hds : ∀ d ∈ ds, d < 16) :
    valueOf b (ds.map digitChar).reverse = Nat.ofDigits b ds := by
  induction ds with
  | nil => rfl
  | cons d ds ih =>
    have htail := ih (fun e he => hds e (List.mem_cons_of_mem d he))
    unfold valueOf at htail ⊢
    rw [List.map_cons, List.reverse_cons, List.foldl_append, htail, Nat.ofDigits_cons]
    show Nat.ofDigits b ds * b + charDigit (digitChar d) = _
    rw [charDigit_digitChar (hds d List.mem_cons_self), Nat.mul_comm, Nat.add_comm]

/-- **A numeral is canonical.** -/
theorem canonical_numeral (hb : 1 < b) (hb16 : b ≤ 16) (n : ℕ) : Canonical b n (numeral b n) := by
  unfold numeral
  by_cases hzero : n = 0
  · subst hzero
    rw [if_pos rfl]
    refine ⟨?_, by simp, fun _ => rfl, valueOf_zero b⟩
    intro c hc
    exact ⟨0, by omega, List.mem_singleton.mp hc⟩
  · rw [if_neg hzero]
    have hlt : ∀ d ∈ Nat.digits b n, d < b := fun d hd => Nat.digits_lt_base hb hd
    have hne := Nat.digits_ne_nil_iff_ne_zero (b := b).mpr hzero
    constructor
    · intro c hc
      obtain ⟨d, hd, rfl⟩ := List.mem_map.mp (List.mem_reverse.mp hc)
      exact ⟨d, hlt d hd, rfl⟩
    · simpa [digitChars] using hne
    · -- the first character is the last of the digits, and that one is not zero
      intro hhead
      exfalso
      have hlast := Nat.getLast_digit_ne_zero b hzero
      have hmem := hlt _ (List.getLast_mem hne)
      unfold digitChars at hhead
      rw [List.head?_reverse, List.getLast?_map, List.getLast?_eq_some_getLast hne,
        Option.map_some, Option.some_inj] at hhead
      exact hlast ((digitChar_eq_zero_char (by omega)).mp hhead)
    · unfold digitChars
      rw [valueOf_reverse fun d hd => (hlt d hd).trans_le hb16, Nat.ofDigits_digits]

/-- **There is no other.** -/
theorem Canonical.eq_numeral (hb : 1 < b) (hb16 : b ≤ 16) {s : List UInt8}
    (h : Canonical b n s) : s = numeral b n := by
  obtain ⟨hdigits, hne, hlead, hvalue⟩ := h
  -- the digits that the characters stand for
  have hlt : ∀ d ∈ s.reverse.map charDigit, d < b := by
    intro d hd
    obtain ⟨c, hc, rfl⟩ := List.mem_map.mp hd
    obtain ⟨e, he, rfl⟩ := hdigits c (List.mem_reverse.mp hc)
    rw [charDigit_digitChar (by omega)]
    exact he
  have hback : (s.reverse.map charDigit).map digitChar = s.reverse := by
    rw [List.map_map]
    apply (List.map_congr_left _).trans (List.map_id _)
    intro c hc
    obtain ⟨e, he, rfl⟩ := hdigits c (List.mem_reverse.mp hc)
    show digitChar (charDigit (digitChar e)) = digitChar e
    rw [charDigit_digitChar (by omega)]
  have hsum : Nat.ofDigits b (s.reverse.map charDigit) = n := by
    rw [← valueOf_reverse fun d hd => (hlt d hd).trans_le hb16, hback, List.reverse_reverse, hvalue]
  by_cases hzero : s.head? = some 48
  · rw [hlead hzero, valueOf_zero] at hvalue
    rw [hlead hzero, ← hvalue]
    rfl
  · have hlast : ∀ h, (s.reverse.map charDigit).getLast h ≠ 0 := by
      intro hnil heq
      obtain ⟨c, rest, rfl⟩ := List.exists_cons_of_ne_nil hne
      obtain ⟨e, he, rfl⟩ := hdigits c List.mem_cons_self
      have hcons : (digitChar e :: rest).reverse.map charDigit =
          rest.reverse.map charDigit ++ [e] := by
        rw [List.reverse_cons, List.map_append, List.map_singleton, charDigit_digitChar (by omega)]
      have hzero' : e = 0 := by
        simpa only [hcons, List.getLast_concat] using heq
      exact hzero (by rw [hzero']; rfl)
    have hds := Nat.digits_ofDigits b hb _ hlt hlast
    rw [hsum] at hds
    have hn : n ≠ 0 := by
      rintro rfl
      rw [Nat.digits_zero] at hds
      simp [hne] at hds
    unfold numeral digitChars
    rw [if_neg hn, hds, hback, List.reverse_reverse]

/-! ### Places -/

/-- The last place taken off. -/
theorem places_succ (b k n : ℕ) : places b (k + 1) n = places b k (n / b) ++ [n % b] := by
  induction k with
  | zero =>
    show [n / b ^ 0 % b] = [n % b]
    rw [Nat.pow_zero, Nat.div_one]
  | succ k ih =>
    show n / b ^ (k + 1) % b :: places b (k + 1) n =
      (n / b / b ^ k % b :: places b k (n / b)) ++ [n % b]
    rw [ih, Nat.div_div_eq_div_mul, Nat.pow_succ, Nat.mul_comm b, List.cons_append]

/-- The lowest places depend on nothing above them. -/
theorem places_mod {m : ℕ} (hkm : k ≤ m) (n : ℕ) : places b k (n % b ^ m) = places b k n := by
  induction k with
  | zero => rfl
  | succ k ih =>
    have hsplit : b ^ m = b ^ k * b ^ (m - k) := by rw [← Nat.pow_add, Nat.add_sub_cancel' (by omega)]
    have hdvd : b ∣ b ^ (m - k) := dvd_pow_self b (by omega)
    show n % b ^ m / b ^ k % b :: places b k (n % b ^ m) = n / b ^ k % b :: places b k n
    rw [ih (by omega), hsplit, Nat.mod_mul_right_div_self, Nat.mod_mod_of_dvd _ hdvd]

/-- Without their leading zeros, the places are the digits. -/
theorem dropWhile_places (hb : 1 < b) (hn : n < b ^ k) :
    (places b k n).dropWhile (fun d => d = 0) = (Nat.digits b n).reverse := by
  induction k generalizing n with
  | zero =>
    obtain rfl : n = 0 := by
      rw [Nat.pow_zero] at hn
      omega
    rw [Nat.digits_zero]
    rfl
  | succ k ih =>
    have hdiv : n / b < b ^ k := by
      rw [Nat.pow_succ] at hn
      exact Nat.div_lt_of_lt_mul (by rwa [Nat.mul_comm])
    rw [places_succ, List.dropWhile_append, ih hdiv]
    by_cases hzero : n / b = 0
    · -- one digit at most
      have hlt : n < b := (Nat.div_eq_zero_iff.mp hzero).resolve_left (by omega)
      rw [hzero, Nat.digits_zero, Nat.mod_eq_of_lt hlt]
      by_cases hn0 : n = 0
      · subst hn0
        simp
      · simp [Nat.digits_of_lt b n hn0 hlt, hn0]
    · have hpos : 0 < n := Nat.pos_of_ne_zero fun h0 => hzero (by rw [h0, Nat.zero_div])
      have hne : (Nat.digits b (n / b)).reverse.isEmpty = false := by
        rw [List.isEmpty_reverse, List.isEmpty_eq_false_iff]
        exact Nat.digits_ne_nil_iff_ne_zero.mpr hzero
      rw [hne, Nat.digits_def' hb hpos, List.reverse_cons]
      rfl

end Rotary.Lib
