import Mathlib.Data.Nat.Log
import Rotary.Core.Sprintf
import Rotary.Core.Strings

namespace Rotary

open Lib

/-!
# Sizes for people (`format_size` of `kernel/core/string.c`)

`format_size` divides by 1024 until the size is below 1024 and then takes the fraction out of the
value that is left.  The remainders of the divisions are gone by then: what is left is a whole
number, and its fraction is always zero.

* `sizeText` — the text that one decimal of the size asks for;
* `formatSize_writes` — the text that is written, which never has a decimal;
* `formatSize_exact` — so it is right for the sizes whose decimal is zero, and for no others.
-/

/-! ### The code -/

/-- `suffixes`. -/
def suffixes : List (List UInt8) := ["B", "KB", "MB", "GB", "TB"].map ascii

/-- The loop that divides `bytes` and counts in `suffix_index`, which does not get beyond four. -/
def scaleDown : ℕ → BitVec 32 → ℕ → BitVec 32 × ℕ
  | 0, bytes, suffixIndex => (bytes, suffixIndex)
  | fuel + 1, bytes, suffixIndex =>
    if bytes ≥ 1024 ∧ suffixIndex < 4 then scaleDown fuel (bytes / 1024) (suffixIndex + 1)
    else (bytes, suffixIndex)

/-- `format_size`. -/
def formatSize (bytes : BitVec 32) (dest : List UInt8) : Option (List UInt8) := do
  let (bytes, suffixIndex) := scaleDown 4 bytes 0
  let wholePart := bytes
  let fractionPart := bytes * 1024 % 1024 * 10 / 1024
  let dest ← intToStr wholePart.toInt dest
  let len ← strlen dest
  let (len, dest) ←
    if fractionPart > 0 then do
      let dest ← put dest len '.'.toUInt8
      let dest ← put dest (len + 1) ('0'.toUInt8 + UInt8.ofNat fractionPart.toNat)
      some (len + 2, dest)
    else some (len, dest)
  let dest ← put dest len 0
  let suffix ← suffixes[suffixIndex]?
  strcat dest (suffix ++ [0])

/-! ### One truncated decimal -/

/-- How often a size must be divided by 1024 to bring it below 1024. -/
def divisions (bytes : ℕ) : ℕ := Nat.log 1024 bytes

/-- `W`, the whole units. -/
def wholeUnits (bytes : ℕ) : ℕ := bytes / 1024 ^ divisions bytes

/-- `F`, the first decimal. -/
def decimal (bytes : ℕ) : ℕ := 10 * bytes / 1024 ^ divisions bytes % 10

/-- The suffix of the unit. -/
def unitSuffix (bytes : ℕ) : List UInt8 := suffixes.getD (divisions bytes) []

/-- `W`, then `.F` unless `F` is zero, then the suffix. -/
def sizeText (bytes : ℕ) : List UInt8 :=
  numeral 10 (wholeUnits bytes) ++
    (if decimal bytes = 0 then [] else '.'.toUInt8 :: numeral 10 (decimal bytes)) ++
    unitSuffix bytes

variable {bytes : BitVec 32} {k n : ℕ}

theorem divisions_le (bytes : BitVec 32) : divisions bytes.toNat ≤ 3 := by
  have hlt := bytes.isLt
  have hlog : Nat.log 1024 bytes.toNat < 4 := Nat.log_lt_of_lt_pow' (by decide) (by omega)
  exact Nat.lt_succ_iff.mp hlog

theorem wholeUnits_lt (n : ℕ) : wholeUnits n < 1024 := by
  have hlt : n < 1024 ^ (divisions n + 1) := Nat.lt_pow_succ_log_self (by decide) n
  rw [Nat.pow_succ] at hlt
  exact Nat.div_lt_of_lt_mul hlt

/-- The loop counts the divisions. -/
theorem scaleDown_spec (fuel : ℕ) (bytes : BitVec 32) (i : ℕ)
    (hfuel : divisions bytes.toNat ≤ fuel) (hi : i + divisions bytes.toNat ≤ 4) :
    scaleDown fuel bytes i =
      (BitVec.ofNat 32 (wholeUnits bytes.toNat), i + divisions bytes.toNat) := by
  induction fuel generalizing bytes i with
  | zero =>
    have hzero : divisions bytes.toNat = 0 := Nat.le_zero.mp hfuel
    unfold wholeUnits
    rw [hzero, Nat.pow_zero, Nat.div_one, BitVec.ofNat_toNat, BitVec.setWidth_eq]
    rfl
  | succ fuel ih =>
    unfold scaleDown
    by_cases hbig : bytes ≥ 1024
    · have hge : 1024 ≤ bytes.toNat := BitVec.le_def.mp hbig
      have hdiv : (bytes / 1024).toNat = bytes.toNat / 1024 := BitVec.toNat_udiv
      have hlog : divisions bytes.toNat = divisions (bytes / 1024).toNat + 1 := by
        unfold divisions
        rw [hdiv, Nat.log_of_one_lt_of_le (by decide) hge]
      have hwhole : wholeUnits bytes.toNat = wholeUnits (bytes / 1024).toNat := by
        unfold wholeUnits
        rw [hlog, hdiv, Nat.pow_succ, Nat.mul_comm, Nat.div_div_eq_div_mul]
      rw [if_pos ⟨hbig, by omega⟩, ih _ (i + 1) (by omega) (by omega), hwhole, hlog,
        Nat.add_assoc, Nat.add_comm 1]
    · have hlt : bytes.toNat < 1024 := BitVec.lt_def.mp (BitVec.not_le.mp hbig)
      have hzero : divisions bytes.toNat = 0 := Nat.log_of_lt hlt
      unfold wholeUnits
      rw [if_neg fun h => hbig h.1, hzero, Nat.pow_zero, Nat.div_one, BitVec.ofNat_toNat,
        BitVec.setWidth_eq]
      rfl

/-- **The fraction of a whole number** is zero. -/
theorem fraction_zero (bytes : BitVec 32) : bytes * 1024 % 1024 * 10 / 1024 = 0 := by
  have hmod : bytes * 1024 % 1024 = 0 := by
    apply BitVec.eq_of_toNat_eq
    rw [BitVec.toNat_umod, BitVec.toNat_mul]
    show bytes.toNat * 1024 % 2 ^ 32 % 1024 = 0
    omega
  rw [hmod]
  rfl

/-! ### What is written -/

/-- The suffixes are short strings. -/
theorem unitSuffix_spec (hk : k ≤ 3) :
    ∃ c rest, suffixes[k]? = some (c :: rest) ∧ suffixes.getD k [] = c :: rest ∧
      c ≠ '.'.toUInt8 ∧ (c :: rest).all (fun d => decide (d ≠ 0)) = true := by
  have hcases : k = 0 ∨ k = 1 ∨ k = 2 ∨ k = 3 := by omega
  rcases hcases with rfl | rfl | rfl | rfl
  · exact ⟨'B'.toUInt8, [], rfl, rfl, by decide, by decide⟩
  · exact ⟨'K'.toUInt8, ascii "B", rfl, rfl, by decide, by decide⟩
  · exact ⟨'M'.toUInt8, ascii "B", rfl, rfl, by decide, by decide⟩
  · exact ⟨'G'.toUInt8, ascii "B", rfl, rfl, by decide, by decide⟩

/-- **What `format_size` writes**: the whole units and the suffix. -/
theorem formatSize_writes (bytes : BitVec 32) (dest : List UInt8)
    (hroom : (numeral 10 (wholeUnits bytes.toNat) ++ unitSuffix bytes.toNat).length <
      dest.length) :
    formatSize bytes dest =
      some (filled dest (numeral 10 (wholeUnits bytes.toNat) ++ unitSuffix bytes.toNat ++ [0])) := by
  have hle := divisions_le bytes
  have hwhole := wholeUnits_lt bytes.toNat
  obtain ⟨c, rest, hget, hsuffix, -, hall⟩ := unitSuffix_spec hle
  have hnull : ∀ d ∈ c :: rest, d ≠ 0 := ne_zero_of_all hall
  have hnum : ∀ d ∈ numeral 10 (wholeUnits bytes.toNat), d ≠ 0 := fun _ hd =>
    numeral_ne_zero (by decide) (by decide) hd
  have hlen : (numeral 10 (wholeUnits bytes.toNat)).length ≤ 4 :=
    numeral_length_le (by decide) (by decide) (by omega)
  have hint : (BitVec.ofNat 32 (wholeUnits bytes.toNat)).toInt = (wholeUnits bytes.toNat : ℤ) :=
    toInt_ofNat_of_lt (by omega)
  have hsigned : signed (wholeUnits bytes.toNat : ℤ) = numeral 10 (wholeUnits bytes.toNat) := by
    unfold signed
    rw [if_neg (by omega), Int.natAbs_natCast]
  have hscale := scaleDown_spec 4 bytes 0 (by omega) (by omega)
  unfold unitSuffix at hroom ⊢
  rw [hsuffix] at hroom ⊢
  rw [Nat.zero_add] at hscale
  generalize wholeUnits bytes.toNat = whole at *
  rw [List.length_append] at hroom
  have hshort : (numeral 10 whole).length ≤ maxStringLen := by
    unfold maxStringLen
    omega
  -- the number and its terminator are written, the terminator once more, and the suffix behind it
  have hmin : (whole : ℤ) ≠ -2 ^ 31 := by omega
  have hwrite := intToStr_spec (a := dest) hmin (by rw [hsigned]; omega)
  have hstrlen := strlen_spec (t := dest.drop ((numeral 10 whole).length + 1)) hnum hshort
  have hput := put_append (numeral 10 whole) (dest.drop ((numeral 10 whole).length + 1)) 0 0
  have hcat := strcat_spec (dest.drop ((numeral 10 whole).length + 1)) [] hnum hshort hnull
    (by rw [List.length_drop]; omega)
  have hdrop : (dest.drop ((numeral 10 whole).length + 1)).drop (c :: rest).length =
      dest.drop ((numeral 10 whole ++ c :: rest).length + 1) := by
    rw [List.drop_drop, List.length_append, Nat.add_right_comm]
  rw [hdrop] at hcat
  rw [hsigned, filled_terminated] at hwrite
  unfold formatSize
  rw [hscale]
  simp only [fraction_zero, hint, Option.bind_eq_bind, hwrite, Option.bind_some, hstrlen]
  rw [if_neg (by decide), hput, Option.bind_some, hget, Option.bind_some, hcat,
    filled_terminated]

/-- `format_size` writes the text that the size asks for to any array with room for it. -/
def ShowsSize (bytes : BitVec 32) : Prop :=
  ∀ dest : List UInt8, (sizeText bytes.toNat).length < dest.length →
    formatSize bytes dest =
      some (sizeText bytes.toNat ++ 0 :: dest.drop ((sizeText bytes.toNat).length + 1))

/-- With a decimal, the code writes the suffix where the point should stand. -/
theorem ShowsSize.decimal_eq_zero (h : ShowsSize bytes) : decimal bytes.toNat = 0 := by
  by_contra hne
  obtain ⟨c, rest, -, hsuffix, hpoint, -⟩ := unitSuffix_spec (divisions_le bytes)
  have htext : sizeText bytes.toNat = numeral 10 (wholeUnits bytes.toNat) ++
      ('.'.toUInt8 :: (numeral 10 (decimal bytes.toNat) ++ unitSuffix bytes.toNat)) := by
    unfold sizeText
    rw [if_neg hne, List.append_assoc, List.cons_append]
  have hroom : (sizeText bytes.toNat).length <
      (List.replicate ((sizeText bytes.toNat).length + 1) (0 : UInt8)).length := by
    rw [List.length_replicate]
    exact Nat.lt_succ_self _
  have hwrites := formatSize_writes bytes
    (List.replicate ((sizeText bytes.toNat).length + 1) 0) (by
      rw [htext] at hroom ⊢
      simp only [List.length_append, List.length_cons] at hroom ⊢
      omega)
  rw [h _ hroom, filled_terminated, htext, Option.some_inj, List.append_assoc, List.append_assoc]
    at hwrites
  have htail := List.append_cancel_left hwrites
  unfold unitSuffix at htail
  rw [hsuffix] at htail
  exact hpoint (List.cons.inj htail).1.symm

/-- **`format_size` shows the size** to one truncated decimal when that decimal is zero, and only
then. -/
theorem formatSize_exact (bytes : BitVec 32) : ShowsSize bytes ↔ decimal bytes.toNat = 0 := by
  constructor
  · exact ShowsSize.decimal_eq_zero
  · intro hzero dest hroom
    have htext : sizeText bytes.toNat =
        numeral 10 (wholeUnits bytes.toNat) ++ unitSuffix bytes.toNat := by
      unfold sizeText
      rw [if_pos hzero, List.append_nil]
    rw [htext] at hroom ⊢
    rw [formatSize_writes bytes dest hroom, filled_terminated]

/-- One and a half kilobytes are shown as one. -/
theorem formatSize_drops_decimal : ¬ ∀ bytes : BitVec 32, ShowsSize bytes := by
  intro h
  have hzero : decimal 1536 = 0 := (h 1536).decimal_eq_zero
  have hlog : divisions 1536 = 1 := Nat.log_eq_of_pow_le_of_lt_pow (by decide) (by decide)
  unfold decimal at hzero
  rw [hlog] at hzero
  exact absurd hzero (by decide)

end Rotary
