import Mathlib.Data.List.Basic
import Rotary.Lib.ByteMem
import Rotary.Lib.Numeral

namespace Rotary

open Lib

/-!
# Byte strings (`kernel/core/string.c`)

`memset` works on the flat memory; the pointer runs over addresses that do not wrap.

The functions that make and read strings are given char arrays.  Such an array is the list of its
bytes, and a pointer into one is what lies behind it; an access outside the array yields `none`,
so that a result says that there was none.  An index of an array is below its size, and so an
`int` or a `uint32_t` that counts through one does not overflow.

* `filled` — an array whose first bytes have been written; every loop that writes extends them;
* `intToStr_spec` / `uintToStr_spec` / `intToHexStr_spec` — the three conversions write the
  numeral and its terminator;
* `strlen_spec` — the length of a string of at most `MAX_STRING_LEN` characters.
-/

/-! ### `memset` -/

/-- `memset`: `while(n--) *ptr++ = (unsigned char)value;`. -/
def memset (m : ByteMem) (dest value : ℕ) : ℕ → ByteMem
  | 0 => m
  | n + 1 => memset (Function.update m dest (UInt8.ofNat value)) (dest + 1) value n

theorem memset_apply (m : ByteMem) (dest value n a : ℕ) :
    memset m dest value n a =
      if dest ≤ a ∧ a < dest + n then UInt8.ofNat value else m a := by
  induction n generalizing m dest with
  | zero =>
    have hnot : ¬ (dest ≤ a ∧ a < dest + 0) := by omega
    rw [if_neg hnot]
    rfl
  | succ n ih =>
    show memset (Function.update m dest _) (dest + 1) value n a = _
    rw [ih]
    by_cases ha : a = dest
    · subst ha
      rw [if_neg (by omega), if_pos (by omega), Function.update_self]
    · rw [Function.update_of_ne ha]
      by_cases hin : dest + 1 ≤ a ∧ a < dest + 1 + n
      · rw [if_pos hin, if_pos (by omega)]
      · rw [if_neg hin, if_neg (by omega)]

theorem memset_of_not_mem {m : ByteMem} {dest value n a : ℕ} (ha : a < dest ∨ dest + n ≤ a) :
    memset m dest value n a = m a := by
  rw [memset_apply, if_neg (by omega)]

/-- A word of a cleared range. -/
theorem load_memset_zero {m : ByteMem} {dest n a : ℕ} (h1 : dest ≤ a) (h2 : a + 4 ≤ dest + n) :
    load (memset m dest 0 n) a = 0 := by
  unfold load
  simp only [memset_apply]
  rw [if_pos (by omega), if_pos (by omega), if_pos (by omega), if_pos (by omega)]
  rfl

/-! ### Strings in char arrays -/

/-- `a[i] = c`. -/
def put (a : List UInt8) (i : ℕ) (c : UInt8) : Option (List UInt8) :=
  if i < a.length then some (a.set i c) else none

/-- `MAX_STRING_LEN`. -/
def maxStringLen : ℕ := 512

/-- The loop of `strlen`, for at most `n` more characters. -/
def strlenFrom : ℕ → List UInt8 → Option ℕ
  | 0, _ => some 0
  | _ + 1, [] => none
  | n + 1, c :: s => if c = 0 then some 0 else (strlenFrom n s).map (· + 1)

/-- `strlen`. -/
def strlen (s : List UInt8) : Option ℕ := strlenFrom maxStringLen s

/-- The loop of `strcpy`, from `dest[i]` on. -/
def strcpyFrom : List UInt8 → ℕ → List UInt8 → Option (List UInt8)
  | [], _, _ => none
  | c :: src, i, dest => do
    let dest ← put dest i c
    if c = 0 then return dest
    strcpyFrom src (i + 1) dest

/-- `strcpy`. -/
def strcpy (dest src : List UInt8) : Option (List UInt8) := strcpyFrom src 0 dest

/-! ### Numbers to strings -/

/-- The loop that puts the decimal digits of `num` from `dest[i]` on, the last one first; each
    turn makes `num` smaller. -/
def putDigits : ℕ → ℕ → ℕ → List UInt8 → Option (ℕ × List UInt8)
  | 0, _, _, _ => none
  | fuel + 1, num, i, dest =>
    if num = 0 then some (i, dest)
    else do
      let dest ← put dest i (UInt8.ofNat (num % 10 + 48))
      putDigits fuel (num / 10) (i + 1) dest

/-- The loop that swaps the characters from both ends; each turn brings the ends closer. -/
def swapEnds : ℕ → ℕ → ℕ → List UInt8 → Option (List UInt8)
  | 0, _, _, _ => none
  | fuel + 1, start, stop, dest =>
    if start < stop then do
      let temp ← dest[start]?
      let last ← dest[stop]?
      let dest ← put dest start last
      let dest ← put dest stop temp
      swapEnds fuel (start + 1) (stop - 1) dest
    else some dest

/-- `int_to_str`; `-num` overflows for the least `int`. -/
def intToStr (num : ℤ) (dest : List UInt8) : Option (List UInt8) := do
  if num = 0 then
    let dest ← put dest 0 '0'.toUInt8
    put dest 1 0
  else if num = -2 ^ 31 then none
  else
    let (i, dest) ← putDigits (num.natAbs + 1) num.natAbs 0 dest
    let (i, dest) ← if num < 0 then (put dest i '-'.toUInt8).map (i + 1, ·) else some (i, dest)
    let dest ← put dest i 0
    swapEnds (i + 1) 0 (i - 1) dest

/-- `uint_to_str`. -/
def uintToStr (num : ℕ) (dest : List UInt8) : Option (List UInt8) := do
  if num = 0 then
    let dest ← put dest 0 '0'.toUInt8
    put dest 1 0
  else
    let (i, dest) ← putDigits (num + 1) num 0 dest
    let dest ← put dest i 0
    swapEnds (i + 1) 0 (i - 1) dest

/-- `hex_digits`. -/
def hexDigits : List UInt8 := "0123456789abcdef".toList.map Char.toUInt8

/-- The loop of `int_to_hex_str` for the `j` lowest digits, the highest of them first. -/
def putHex (num : ℕ) : ℕ → Bool → ℕ → List UInt8 → Option (ℕ × List UInt8)
  | 0, _, i, temp => some (i, temp)
  | j + 1, leading, i, temp => do
    let digit ← hexDigits[(num >>> (j * 4)) &&& 0xF]?
    if digit ≠ '0'.toUInt8 ∨ ¬ leading then
      let temp ← put temp i digit
      putHex num j false (i + 1) temp
    else putHex num j leading i temp

/-- `int_to_hex_str`; nothing is read of `temp[9]` before it is written. -/
def intToHexStr (num : ℕ) (dest : List UInt8) : Option (List UInt8) := do
  if num = 0 then
    let dest ← put dest 0 '0'.toUInt8
    put dest 1 0
  else
    let (i, temp) ← putHex num 8 true 0 (List.replicate 9 0)
    let temp ← put temp i 0
    strcpy dest temp

variable {a out s t pre mid post : List UInt8} {c : UInt8} {i n j num : ℕ}

/-! ### Arrays that have been written from the front -/

/-- The array `a` after its first bytes have been overwritten with `out`. -/
def filled (a out : List UInt8) : List UInt8 := out ++ a.drop out.length

theorem filled_nil (a : List UInt8) : filled a [] = a := rfl

/-- A string that has been written with its terminator. -/
theorem filled_terminated (a s : List UInt8) :
    filled a (s ++ [0]) = s ++ 0 :: a.drop (s.length + 1) := by
  unfold filled
  rw [List.append_assoc, List.length_append, List.length_singleton, List.singleton_append]

/-- **One more byte.** -/
theorem put_filled (a out : List UInt8) (c : UInt8) (h : out.length < a.length) :
    put (filled a out) out.length c = some (filled a (out ++ [c])) := by
  unfold put filled
  have hlen : out.length < (out ++ a.drop out.length).length := by
    rw [List.length_append, List.length_drop]
    omega
  rw [if_pos hlen, List.set_append_right _ _ (Nat.le_refl _), Nat.sub_self,
    List.drop_eq_getElem_cons h, List.set_cons_zero, List.length_append, List.length_singleton,
    List.append_assoc]
  rfl

/-- A byte behind a part that stays. -/
theorem put_append (s t : List UInt8) (x c : UInt8) :
    put (s ++ x :: t) s.length c = some (s ++ c :: t) := by
  unfold put
  rw [if_pos (by simp), List.set_append_right _ _ (Nat.le_refl _), Nat.sub_self, List.set_cons_zero]

/-- An array that is full takes no more. -/
theorem put_full (a out : List UInt8) (c : UInt8) (h : out.length = a.length) :
    put (filled a out) out.length c = none := by
  unfold put filled
  rw [h, List.drop_length, List.append_nil, if_neg (by omega)]

/-! ### Reading -/

/-- The loop counts up to its bound. -/
theorem strlenFrom_spec (hs : ∀ c ∈ s, c ≠ 0) (n : ℕ) :
    strlenFrom n (s ++ 0 :: t) = some (min s.length n) := by
  induction s generalizing n with
  | nil => cases n <;> simp [strlenFrom]
  | cons c s ih =>
    cases n with
    | zero => rfl
    | succ n =>
      have hc : c ≠ 0 := hs c List.mem_cons_self
      have htail := ih (fun d hd => hs d (List.mem_cons_of_mem c hd)) n
      simp [strlenFrom, hc, htail]

/-- **`strlen`** of a terminated string that is not too long. -/
theorem strlen_spec (hs : ∀ c ∈ s, c ≠ 0) (hlen : s.length ≤ maxStringLen) :
    strlen (s ++ 0 :: t) = some s.length := by
  unfold strlen
  rw [strlenFrom_spec hs, Nat.min_eq_left hlen]

/-- **`strcpy`** copies the string and its terminator. -/
theorem strcpyFrom_spec (out : List UInt8) (hs : ∀ c ∈ s, c ≠ 0)
    (hroom : out.length + s.length < a.length) :
    strcpyFrom (s ++ 0 :: t) out.length (filled a out) = some (filled a (out ++ s ++ [0])) := by
  induction s generalizing out with
  | nil =>
    have hput := put_filled a out 0 (by simpa using hroom)
    simp [strcpyFrom, hput]
  | cons c s ih =>
    rw [List.length_cons] at hroom
    have hc : c ≠ 0 := hs c List.mem_cons_self
    have hput := put_filled a out c (by omega)
    have htail := ih (out ++ [c]) (fun d hd => hs d (List.mem_cons_of_mem c hd))
      (by rw [List.length_append, List.length_singleton]; omega)
    rw [List.length_append, List.length_singleton] at htail
    have hassoc : out ++ [c] ++ s = out ++ c :: s := by rw [List.append_assoc, List.singleton_append]
    rw [hassoc] at htail
    simp only [List.cons_append, strcpyFrom, hput, Option.bind_eq_bind, Option.bind_some, hc,
      if_false, htail]

/-! ### Decimal numerals -/

/-- The digits are put in the order in which division yields them. -/
theorem putDigits_spec {fuel : ℕ} (num : ℕ) (out : List UInt8) (hfuel : num < fuel)
    (hroom : out.length + (digitChars 10 num).length ≤ a.length) :
    putDigits fuel num out.length (filled a out) =
      some ((out ++ digitChars 10 num).length, filled a (out ++ digitChars 10 num)) := by
  induction fuel generalizing num out with
  | zero => omega
  | succ fuel ih =>
    unfold putDigits
    by_cases hzero : num = 0
    · subst hzero
      rw [if_pos rfl, digitChars_zero, List.append_nil]
    · have hcons := digitChars_of_pos (b := 10) (by decide) (Nat.pos_of_ne_zero hzero)
      rw [hcons, List.length_cons] at hroom
      have hput := put_filled a out (digitChar (num % 10)) (by omega)
      have htail := ih (num / 10) (out ++ [digitChar (num % 10)]) (by omega)
        (by rw [List.length_append, List.length_singleton]; omega)
      rw [List.length_append, List.length_singleton] at htail
      rw [if_neg hzero, ← digitChar_of_lt_ten (Nat.mod_lt _ (by decide)), hput, hcons]
      simp only [Option.bind_eq_bind, Option.bind_some, htail, List.append_assoc,
        List.singleton_append]

/-- One swap, around an inner part. -/
theorem put_ends {x y x' y' : UInt8} :
    (put (pre ++ x :: (mid ++ y :: post)) pre.length x').bind
        (fun a => put a (pre.length + mid.length + 1) y') =
      some (pre ++ x' :: (mid ++ y' :: post)) := by
  have hfirst : put (pre ++ x :: (mid ++ y :: post)) pre.length x' =
      some (pre ++ x' :: (mid ++ y :: post)) := put_append pre _ x x'
  have hlast : put (pre ++ x' :: (mid ++ y :: post)) (pre.length + mid.length + 1) y' =
      some (pre ++ x' :: (mid ++ y' :: post)) := by
    unfold put
    have hsub : pre.length + mid.length + 1 - pre.length = mid.length + 1 := by omega
    rw [if_pos (by simp; omega), List.set_append_right _ _ (by omega), hsub, List.set_cons_succ,
      List.set_append_right _ _ (Nat.le_refl _), Nat.sub_self, List.set_cons_zero]
  rw [hfirst, Option.bind_some, hlast]

/-- **The swaps reverse** what lies between the two ends. -/
theorem swapEnds_spec {fuel : ℕ} (pre mid post : List UInt8) (hfuel : mid.length < fuel) :
    swapEnds fuel pre.length (pre.length + mid.length - 1) (pre ++ mid ++ post) =
      some (pre ++ mid.reverse ++ post) := by
  induction fuel generalizing pre mid post with
  | zero => omega
  | succ fuel ih =>
    unfold swapEnds
    cases mid with
    | nil =>
      rw [if_neg (by simp)]
      rfl
    | cons x rest =>
      rcases List.eq_nil_or_concat rest with rfl | ⟨inner, y, hrest⟩
      · rw [if_neg (by simp)]
        rfl
      · rw [List.concat_eq_append] at hrest
        subst hrest
        -- both ends are swapped, and the inner part remains
        have harray : pre ++ x :: (inner ++ [y]) ++ post = pre ++ x :: (inner ++ y :: post) := by
          simp
        have hstop : pre.length + (x :: (inner ++ [y])).length - 1 =
            pre.length + inner.length + 1 := by
          simp
          omega
        have hx : (pre ++ x :: (inner ++ y :: post))[pre.length]? = some x := by simp
        have hy : (pre ++ x :: (inner ++ y :: post))[pre.length + inner.length + 1]? = some y := by
          have hsub : pre.length + inner.length + 1 - pre.length = inner.length + 1 := by omega
          rw [List.getElem?_append_right (by omega), hsub, List.getElem?_cons_succ]
          simp
        have hinner := ih (pre ++ [y]) inner (x :: post) (by simp at hfuel; omega)
        have hstart : (pre ++ [y]).length = pre.length + 1 := by simp
        have hend : pre.length + 1 + inner.length - 1 = pre.length + inner.length + 1 - 1 := by
          omega
        rw [hstart, hend] at hinner
        rw [harray, hstop, if_pos (by omega), hx, hy]
        simp only [Option.bind_eq_bind, Option.bind_some]
        rw [← Option.bind_assoc, put_ends, Option.bind_some]
        simpa using hinner

/-! ### The conversions -/

/-- Once the ends have been swapped, the digits stand in the order in which one reads them. -/
theorem swap_filled (a out : List UInt8) :
    swapEnds (out.length + 1) 0 (out.length - 1) (filled a (out ++ [0])) =
      some (filled a (out.reverse ++ [0])) := by
  have hswap := swapEnds_spec [] out (0 :: a.drop (out.length + 1)) (Nat.lt_succ_self _)
  simpa [filled] using hswap

/-- The decimal numeral of an integer. -/
def signed (num : ℤ) : List UInt8 :=
  if num < 0 then '-'.toUInt8 :: numeral 10 num.natAbs else numeral 10 num.natAbs

/-- Zero is written by itself. -/
theorem put_zero (hroom : 1 < a.length) :
    (put a 0 '0'.toUInt8).bind (fun dest => put dest 1 0) =
      some (filled a (numeral 10 0 ++ [0])) := by
  have hdigit := put_filled a [] 48 (by simp; omega)
  have hnull := put_filled a [48] 0 (by simpa using hroom)
  show (put (filled a []) ([] : List UInt8).length 48).bind _ = _
  rw [hdigit, Option.bind_some]
  exact hnull

/-- The terminator and the swaps. -/
theorem finish_filled (out : List UInt8) (hroom : out.length < a.length) :
    (put (filled a out) out.length 0).bind
        (fun dest => swapEnds (out.length + 1) 0 (out.length - 1) dest) =
      some (filled a (out.reverse ++ [0])) := by
  rw [put_filled a out 0 hroom, Option.bind_some, swap_filled]

/-- **`uint_to_str`** writes the decimal numeral. -/
theorem uintToStr_spec (hroom : (numeral 10 num).length < a.length) :
    uintToStr num a = some (filled a (numeral 10 num ++ [0])) := by
  unfold uintToStr
  by_cases hzero : num = 0
  · subst hzero
    rw [if_pos rfl]
    exact put_zero hroom
  · unfold numeral at hroom ⊢
    rw [if_neg hzero, List.length_reverse] at hroom
    have hdigits := putDigits_spec (a := a) num [] (Nat.lt_succ_self num) (by simpa using hroom.le)
    rw [List.length_nil, filled_nil, List.nil_append] at hdigits
    rw [if_neg hzero, if_neg hzero, hdigits]
    exact finish_filled _ hroom

/-- **`int_to_str`** writes the decimal numeral with its sign. -/
theorem intToStr_spec {num : ℤ} (hmin : num ≠ -2 ^ 31)
    (hroom : (signed num).length < a.length) :
    intToStr num a = some (filled a (signed num ++ [0])) := by
  unfold intToStr
  by_cases hzero : num = 0
  · subst hzero
    rw [if_pos rfl]
    exact put_zero hroom
  · have habs : num.natAbs ≠ 0 := Int.natAbs_ne_zero.mpr hzero
    unfold signed numeral at hroom ⊢
    rw [if_neg habs] at hroom ⊢
    have hlen : (digitChars 10 num.natAbs).length < a.length := by
      by_cases hneg : num < 0
      · rw [if_pos hneg, List.length_cons, List.length_reverse] at hroom
        omega
      · rw [if_neg hneg, List.length_reverse] at hroom
        exact hroom
    have hdigits := putDigits_spec (a := a) num.natAbs [] (Nat.lt_succ_self num.natAbs)
      (by simpa using hlen.le)
    rw [List.length_nil, filled_nil, List.nil_append] at hdigits
    rw [if_neg hzero, if_neg hmin, hdigits]
    by_cases hneg : num < 0
    · -- the sign is put last, and the swaps bring it to the front
      rw [if_pos hneg, List.length_cons, List.length_reverse] at hroom
      have hsign := put_filled a _ '-'.toUInt8 hlen
      have hdone := finish_filled (a := a) (digitChars 10 num.natAbs ++ ['-'.toUInt8])
        (by simpa using hroom)
      rw [List.reverse_append, List.length_append, List.length_singleton] at hdone
      simp only [Option.bind_eq_bind, Option.bind_some, if_pos hneg, hsign, Option.map_some]
      exact hdone
    · simp only [Option.bind_eq_bind, Option.bind_some, if_neg hneg]
      exact finish_filled _ hlen

/-! ### Hexadecimal numerals -/

theorem hexDigits_getElem? {d : ℕ} (hd : d < 16) : hexDigits[d]? = some (digitChar d) := by
  revert d
  decide

/-- The digit that a shift and a mask take out. -/
theorem hex_place (num j : ℕ) : (num >>> (j * 4)) &&& 0xF = num / 16 ^ j % 16 := by
  have hmask : (0xF : ℕ) = 2 ^ 4 - 1 := rfl
  rw [hmask, Nat.and_two_pow_sub_one_eq_mod, Nat.shiftRight_eq_div_pow, Nat.mul_comm j 4,
    Nat.pow_mul]

/-- The digits that `int_to_hex_str` puts, by whether it still skips zeros. -/
def hexChars (num j : ℕ) (leading : Bool) : List UInt8 :=
  ((if leading then (places 16 j num).dropWhile (fun d => d = 0) else places 16 j num)).map digitChar

theorem putHex_spec (num j : ℕ) (leading : Bool) (out : List UInt8)
    (hroom : out.length + (hexChars num j leading).length ≤ a.length) :
    putHex num j leading out.length (filled a out) =
      some ((out ++ hexChars num j leading).length, filled a (out ++ hexChars num j leading)) := by
  induction j generalizing out leading with
  | zero =>
    have hnil : hexChars num 0 leading = [] := by cases leading <;> rfl
    rw [hnil, List.append_nil]
    rfl
  | succ j ih =>
    have hlt : num / 16 ^ j % 16 < 16 := Nat.mod_lt _ (by decide)
    unfold putHex
    rw [hex_place, hexDigits_getElem? hlt]
    simp only [Option.bind_eq_bind, Option.bind_some]
    by_cases hskip : num / 16 ^ j % 16 = 0 ∧ leading = true
    · -- a leading zero is dropped
      obtain ⟨hdigit, rfl⟩ := hskip
      have hsame : hexChars num (j + 1) true = hexChars num j true := by
        simp [hexChars, places, hdigit]
      rw [hsame] at hroom ⊢
      rw [hdigit, if_neg (by decide)]
      exact ih true out hroom
    · have hkeep : digitChar (num / 16 ^ j % 16) ≠ '0'.toUInt8 ∨ ¬ leading = true := by
        rcases not_and_or.mp hskip with hdigit | hlead
        · exact Or.inl fun h => hdigit ((digitChar_eq_zero_char hlt).mp h)
        · exact Or.inr hlead
      have hcons : hexChars num (j + 1) leading =
          digitChar (num / 16 ^ j % 16) :: hexChars num j false := by
        rcases not_and_or.mp hskip with hdigit | hlead
        · cases leading <;> simp [hexChars, places, hdigit]
        · simp [hexChars, places, hlead]
      rw [hcons, List.length_cons] at hroom
      have hput := put_filled a out (digitChar (num / 16 ^ j % 16)) (by omega)
      have htail := ih false (out ++ [digitChar (num / 16 ^ j % 16)])
        (by rw [List.length_append, List.length_singleton]; omega)
      rw [List.length_append, List.length_singleton] at htail
      rw [if_pos hkeep, hput, hcons]
      simp only [Option.bind_some, htail, List.append_assoc, List.singleton_append]

/-- **`int_to_hex_str`** writes the hexadecimal numeral. -/
theorem intToHexStr_spec (hnum : num < 2 ^ 32) (hroom : (numeral 16 num).length < a.length) :
    intToHexStr num a = some (filled a (numeral 16 num ++ [0])) := by
  unfold intToHexStr
  by_cases hzero : num = 0
  · subst hzero
    rw [if_pos rfl]
    exact put_zero hroom
  · have hpow : (2 : ℕ) ^ 32 = 16 ^ 8 := by norm_num
    have hdigits : hexChars num 8 true = numeral 16 num := by
      unfold hexChars numeral digitChars
      rw [if_pos rfl, dropWhile_places (by decide) (hpow ▸ hnum), if_neg hzero, List.map_reverse]
    have hlen : (numeral 16 num).length ≤ 8 :=
      numeral_length_le (by decide) (by decide) (hpow ▸ hnum)
    have hput := putHex_spec (a := List.replicate 9 0) num 8 true [] (by rw [hdigits]; simp; omega)
    rw [hdigits, List.length_nil, filled_nil, List.nil_append] at hput
    have hnull := put_filled (List.replicate 9 0) (numeral 16 num) 0 (by simp; omega)
    have hcopy := strcpyFrom_spec (a := a) (s := numeral 16 num)
      (t := (List.replicate 9 0).drop ((numeral 16 num).length + 1)) []
      (fun _ hc => numeral_ne_zero (by decide) (by decide) hc) (by simpa using hroom)
    rw [if_neg hzero, hput]
    simp only [Option.bind_eq_bind, Option.bind_some, hnull]
    simpa [filled, strcpy] using hcopy

end Rotary
