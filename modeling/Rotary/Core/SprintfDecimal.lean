import Rotary.Core.Decimal
import Rotary.Core.Sprintf

namespace Rotary

open Lib

/-!
# Padded decimals (`%<width>d` of `sprintf`)

`int_to_str` puts the sign in front of the digits, and `sprintf` puts the zeros of the padding in
front of both.  A negative number that is padded thus has its sign in the middle, and the text is
no numeral any more; and the least `int` has no numeral at all, as its sign cannot be turned.

* `DenotesInt` — a text that is a decimal with an optional sign;
* `signed_denotes` — what `int_to_str` writes is one, and zeros in front of it keep it one unless
  it begins with a sign;
* `paddedDecimal_exact` — the text of the directive is one exactly for the numbers that are not
  both negative and padded, nor the least.
-/

/-- `text` is an optional `-` and decimal digits, and `num` the value that it denotes. -/
def DenotesInt (text : List UInt8) (num : ℤ) : Prop :=
  ∃ ds : List UInt8, ds ≠ [] ∧ (∀ c ∈ ds, isDigit c = true) ∧
    (text = ds ∧ num = valueOf 10 ds ∨ text = '-'.toUInt8 :: ds ∧ num = -(valueOf 10 ds : ℤ))

/-- What the directive should do with a word: the text is as wide as asked, and denotes it. -/
def PadsDecimal (d : Directive) (w : BitVec 32) : Prop :=
  ∀ dest junk : List UInt8, max (d.width.foldl nextPadding 0) 11 < dest.length →
    ∃ (ret : ℤ) (text : List UInt8),
      sprintf dest (d.source ++ 0 :: junk) [.word w] =
        some (ret, text ++ 0 :: dest.drop (text.length + 1)) ∧
      d.width.foldl nextPadding 0 ≤ text.length ∧ DenotesInt text w.toInt

variable {s t s' t' text : List UInt8} {c : UInt8} {num : ℤ} {w : BitVec 32}

/-! ### Numerals and zeros -/

/-- The string of an array ends at the first null character. -/
theorem terminated_inj (hs : ∀ c ∈ s, c ≠ 0) (hs' : ∀ c ∈ s', c ≠ 0)
    (h : s ++ 0 :: t = s' ++ 0 :: t') : s = s' := by
  induction s generalizing s' with
  | nil =>
    cases s' with
    | nil => rfl
    | cons c' s' => exact absurd (List.cons.inj h).1.symm (hs' c' List.mem_cons_self)
  | cons c s ih =>
    cases s' with
    | nil => exact absurd (List.cons.inj h).1 (hs c List.mem_cons_self)
    | cons c' s' =>
      obtain ⟨rfl, htail⟩ := List.cons.inj h
      rw [ih (fun d hd => hs d (List.mem_cons_of_mem c hd))
        (fun d hd => hs' d (List.mem_cons_of_mem c hd)) htail]

theorem isDigit_digitChar {d : ℕ} (hd : d < 10) : isDigit (digitChar d) = true := by
  revert d
  decide

theorem isDigit_ne (hc : isDigit c = true) : c ≠ 0 ∧ c ≠ '-'.toUInt8 := by
  constructor <;> rintro rfl <;> exact absurd hc (by decide)

theorem DenotesInt.ne_zero (h : DenotesInt text num) : ∀ c ∈ text, c ≠ 0 := by
  obtain ⟨ds, -, hds, ⟨rfl, -⟩ | ⟨rfl, -⟩⟩ := h
  · exact fun c hc => (isDigit_ne (hds c hc)).1
  · intro c hc
    rcases List.mem_cons.mp hc with rfl | hc
    · decide
    · exact (isDigit_ne (hds c hc)).1

/-- Zeros in front do not change a value. -/
theorem valueOf_zeros (n : ℕ) (s : List UInt8) :
    valueOf 10 (List.replicate n '0'.toUInt8 ++ s) = valueOf 10 s := by
  induction n with
  | zero => rfl
  | succ n ih =>
    rw [List.replicate_succ, List.cons_append]
    exact ih

theorem numeral_digits (n : ℕ) : ∀ c ∈ numeral 10 n, isDigit c = true := by
  intro c hc
  obtain ⟨d, hd, rfl⟩ := (canonical_numeral (b := 10) (by decide) (by decide) n).digits c hc
  exact isDigit_digitChar hd

/-- **The numeral of an integer** denotes it. -/
theorem signed_denotes (num : ℤ) : DenotesInt (signed num) num := by
  have hnum := canonical_numeral (b := 10) (by decide) (by decide) num.natAbs
  refine ⟨numeral 10 num.natAbs, hnum.ne_nil, numeral_digits _, ?_⟩
  unfold signed
  rw [hnum.value]
  by_cases hneg : num < 0
  · rw [if_pos hneg]
    exact Or.inr ⟨rfl, by omega⟩
  · rw [if_neg hneg]
    exact Or.inl ⟨rfl, by omega⟩

/-- Zeros in front of a numeral without a sign. -/
theorem leftpad_denotes (hpos : 0 ≤ num) (width : ℕ) :
    DenotesInt ((signed num).leftpad width '0'.toUInt8) num := by
  have hnum := canonical_numeral (b := 10) (by decide) (by decide) num.natAbs
  unfold signed List.leftpad
  rw [if_neg (by omega)]
  refine ⟨_, ?_, ?_, Or.inl ⟨rfl, ?_⟩⟩
  · exact List.append_ne_nil_of_right_ne_nil _ hnum.ne_nil
  · intro c hc
    rcases List.mem_append.mp hc with hc | hc
    · rw [List.eq_of_mem_replicate hc]
      decide
    · exact numeral_digits _ c hc
  · rw [valueOf_zeros, hnum.value]
    omega

/-- A sign behind a zero. -/
theorem not_denotes_padded {n : ℕ} (hn : 0 < n) (hneg : num < 0) :
    ¬ DenotesInt (List.replicate n '0'.toUInt8 ++ signed num) num := by
  obtain ⟨n, rfl⟩ := Nat.exists_eq_succ_of_ne_zero (Nat.ne_of_gt hn)
  rintro ⟨ds, -, hds, ⟨htext, -⟩ | ⟨htext, -⟩⟩
  · -- the sign is no digit
    have hmem : '-'.toUInt8 ∈ ds := by
      rw [← htext]
      unfold signed
      rw [if_pos hneg]
      exact List.mem_append_right _ List.mem_cons_self
    exact (isDigit_ne (hds _ hmem)).2 rfl
  · rw [List.replicate_succ, List.cons_append] at htext
    exact absurd (List.cons.inj htext).1 (by decide)

/-! ### The directive -/

theorem renders_decimal (d : Directive) (hconv : d.conv = 'd'.toUInt8) (hmin : w.toInt ≠ -2 ^ 31) :
    Renders [.dir d] [.word w]
      ((signed w.toInt).leftpad (d.width.foldl nextPadding 0) '0'.toUInt8) := by
  have hshows : Shows d.conv (.word w) (signed w.toInt) := by
    rw [hconv]
    exact Shows.int w hmin
  have hr := Renders.shown d (.word w) _ hshows (Renders.done [])
  rw [List.append_nil] at hr
  exact hr

/-- The text of the directive. -/
theorem sprintf_decimal (d : Directive) (hconv : d.conv = 'd'.toUInt8)
    (hmin : w.toInt ≠ -2 ^ 31) (dest junk : List UInt8)
    (hroom : max (d.width.foldl nextPadding 0) 11 < dest.length) :
    ∃ ret : ℤ, sprintf dest (d.source ++ 0 :: junk) [.word w] =
      some (ret, (signed w.toInt).leftpad (d.width.foldl nextPadding 0) '0'.toUInt8 ++
        0 :: dest.drop (((signed w.toInt).leftpad (d.width.foldl nextPadding 0)
          '0'.toUInt8).length + 1)) := by
  have hlen := signed_length_le w
  have hsprintf := sprintf_of_emits dest junk (renders_decimal d hconv hmin).emits
  have hsource : [Piece.dir d].flatMap Piece.source = d.source := List.flatMap_singleton _ _
  unfold textIn at hsprintf
  rw [hsource, if_pos (by rw [List.length_leftpad]; omega)] at hsprintf
  exact ⟨_, hsprintf⟩

/-- The least `int` cannot be converted. -/
theorem sprintf_decimal_min (d : Directive) (hconv : d.conv = 'd'.toUInt8)
    (hmin : w.toInt = -2 ^ 31) (dest junk : List UInt8) :
    sprintf dest (d.source ++ 0 :: junk) [.word w] = none := by
  have hdir : ∀ dst, directive d.conv (d.width.foldl nextPadding 0) [.word w] dst = none := by
    intro dst
    unfold directive
    rw [hconv, if_neg (by decide), if_pos rfl, nextWord]
    simp only [Option.bind_eq_bind, Option.bind_some, hmin, intToStr_min]
    rfl
  obtain ⟨fuel, hfuel⟩ : ∃ fuel, (d.source ++ 0 :: junk).length = fuel + 1 :=
    Nat.exists_eq_succ_of_ne_zero (by simp)
  have hfmt : d.source ++ 0 :: junk = [] ++ [] ++ (d.source ++ 0 :: junk) := rfl
  have hstart : sprintfLoop (d.source ++ 0 :: junk) (fuel + 1) 0 0 [.word w] ⟨dest, 0⟩ = _ :=
    sprintfLoop_dir d ⟨dest, 0⟩ hfmt
  rw [sprintf_eq, hfuel, hstart]
  simp only [hdir, Option.bind_none, Option.bind_fun_none]

/-- Otherwise a zero stands in front of the sign. -/
theorem PadsDecimal.unpadded {d : Directive} (h : PadsDecimal d w) (hconv : d.conv = 'd'.toUInt8) :
    w.toInt ≠ -2 ^ 31 ∧
      (0 ≤ w.toInt ∨ d.width.foldl nextPadding 0 ≤ (signed w.toInt).length) := by
  obtain ⟨ret, text, hrun, -, htext⟩ :=
    h (List.replicate (max (d.width.foldl nextPadding 0) 11 + 1) 0) [] (by simp)
  have hmin : w.toInt ≠ -2 ^ 31 := by
    intro hmin
    rw [sprintf_decimal_min d hconv hmin] at hrun
    exact Option.some_ne_none _ hrun.symm
  refine ⟨hmin, ?_⟩
  by_contra hnot
  obtain ⟨hneg, hshort⟩ := not_or.mp hnot
  obtain ⟨ret', hrun'⟩ := sprintf_decimal d hconv hmin
    (List.replicate (max (d.width.foldl nextPadding 0) 11 + 1) 0) [] (by simp)
  rw [hrun] at hrun'
  -- the two strings in the array are the same
  have hpad : (signed w.toInt).leftpad (d.width.foldl nextPadding 0) '0'.toUInt8 =
      List.replicate (d.width.foldl nextPadding 0 - (signed w.toInt).length) '0'.toUInt8 ++
        signed w.toInt := rfl
  have hnull : ∀ c ∈ (signed w.toInt).leftpad (d.width.foldl nextPadding 0) '0'.toUInt8,
      c ≠ 0 := by
    intro c hc
    rw [hpad] at hc
    rcases List.mem_append.mp hc with hc | hc
    · rw [List.eq_of_mem_replicate hc]
      decide
    · exact signed_ne_zero hc
  have hsame := terminated_inj htext.ne_zero hnull (Prod.mk.inj (Option.some.inj hrun')).2
  rw [hsame, hpad] at htext
  exact not_denotes_padded (by omega) (by omega) htext

/-- **Padded decimals denote their value** exactly if the number is not the least `int`, and not
negative and shorter than the width. -/
theorem paddedDecimal_exact (d : Directive) (hconv : d.conv = 'd'.toUInt8) (w : BitVec 32) :
    PadsDecimal d w ↔
      w.toInt ≠ -2 ^ 31 ∧
        (0 ≤ w.toInt ∨ d.width.foldl nextPadding 0 ≤ (signed w.toInt).length) := by
  constructor
  · exact fun h => h.unpadded hconv
  · rintro ⟨hmin, hcase⟩ dest junk hroom
    obtain ⟨ret, hrun⟩ := sprintf_decimal d hconv hmin dest junk hroom
    refine ⟨ret, _, hrun, ?_, ?_⟩
    · rw [List.length_leftpad]
      exact Nat.le_max_left _ _
    · rcases hcase with hpos | hlong
      · exact leftpad_denotes hpos _
      · have hnone : (signed w.toInt).leftpad (d.width.foldl nextPadding 0) '0'.toUInt8 =
            signed w.toInt := by
          unfold List.leftpad
          rw [Nat.sub_eq_zero_of_le hlong, List.replicate_zero, List.nil_append]
        rw [hnone]
        exact signed_denotes _

/-- `%5d`. -/
def fiveDecimal : Directive where
  width := ['5'.toUInt8]
  conv := 'd'.toUInt8
  width_digits := List.forall_mem_singleton.mpr rfl
  width_fits := by decide
  conv_ne_zero := by decide
  conv_not_digit := by decide

/-- 42 in five places. -/
theorem paddedDecimal_exact_five :
    PadsDecimal fiveDecimal 42 ↔
      (42 : BitVec 32).toInt ≠ -2 ^ 31 ∧
        (0 ≤ (42 : BitVec 32).toInt ∨
          fiveDecimal.width.foldl nextPadding 0 ≤ (signed (42 : BitVec 32).toInt).length) :=
  paddedDecimal_exact fiveDecimal rfl 42

/-- `sprintf(buffer, "%5d", -5)` writes `000-5`. -/
theorem paddedDecimal_fails :
    ¬ ∀ d : Directive, d.conv = 'd'.toUInt8 → ∀ w : BitVec 32, PadsDecimal d w := by
  intro h
  obtain ⟨-, hpos | hlong⟩ := (h fiveDecimal rfl (-5)).unpadded rfl
  · exact absurd hpos (by decide)
  · exact absurd hlong (by decide)

end Rotary
