import Mathlib.Data.Nat.Bitwise
import Mathlib.Data.Set.Lattice
import Mathlib.Order.CompletePartialOrder
import Mathlib.Order.Interval.Set.Basic

namespace Rotary.Lib

/-!
# Dyadic blocks of natural numbers

The arithmetic every buddy system rests on, over plain natural numbers:

* `block p k` — the `2 ^ k` numbers from `p` on; it is *aligned* when `2 ^ k ∣ p`;
* `buddy p k` — flip bit `k` of `p`;
* `pairBase p k` — clear the low `k + 1` bits of `p`, the base of the pair made of a
  block and its buddy.

An aligned block is an equivalence class of `· / 2 ^ k` (`mem_block_iff_div`), so two
aligned blocks are nested or disjoint and a block together with its buddy is exactly the
next larger aligned block.
-/

variable {p q h i j k m : ℕ}

/-- The `2 ^ k` numbers from `p` on. -/
def block (p k : ℕ) : Set ℕ := Set.Ico p (p + 2 ^ k)

/-- `p` with bit `k` flipped. -/
def buddy (p k : ℕ) : ℕ := p ^^^ 2 ^ k

/-- The base of the aligned pair of blocks of size `2 ^ k` that `p` lies in. -/
def pairBase (p k : ℕ) : ℕ := p / 2 ^ (k + 1) * 2 ^ (k + 1)

@[simp] theorem mem_block : i ∈ block p k ↔ p ≤ i ∧ i < p + 2 ^ k := Iff.rfl

theorem self_mem_block (p k : ℕ) : p ∈ block p k := by
  have hpos := Nat.two_pow_pos k
  exact mem_block.mpr ⟨le_rfl, by omega⟩

theorem block_zero (p : ℕ) : block p 0 = {p} := by
  ext i
  show p ≤ i ∧ i < p + 1 ↔ i = p
  omega

/-- An aligned block is the set of numbers with the same quotient by its size. -/
theorem mem_block_iff_div (hp : 2 ^ k ∣ p) : i ∈ block p k ↔ i / 2 ^ k = p / 2 ^ k := by
  obtain ⟨c, rfl⟩ := hp
  have hpos := Nat.two_pow_pos k
  rw [mem_block, Nat.mul_div_cancel_left _ hpos, Nat.div_eq_iff hpos]
  have hc : 2 ^ k * c = c * 2 ^ k := Nat.mul_comm _ _
  omega

theorem div_two_pow_le (hjk : j ≤ k) (i : ℕ) : i / 2 ^ k = i / 2 ^ j / 2 ^ (k - j) := by
  rw [Nat.div_div_eq_div_mul, ← pow_add, Nat.add_sub_cancel' hjk]

/-! ### Buddies -/

theorem buddy_div (p k : ℕ) : buddy p k / 2 ^ k = p / 2 ^ k ^^^ 1 := by
  rw [buddy, Nat.xor_div_two_pow, Nat.div_self (Nat.two_pow_pos k)]

theorem buddy_dvd (hp : 2 ^ k ∣ p) : 2 ^ k ∣ buddy p k := by
  rw [Nat.dvd_iff_mod_eq_zero, buddy, Nat.xor_mod_two_pow, Nat.mod_self,
    Nat.mod_eq_zero_of_dvd hp, Nat.xor_self]

@[simp] theorem buddy_buddy (p k : ℕ) : buddy (buddy p k) k = p := by
  simp [buddy]

theorem buddy_ne (p k : ℕ) : buddy p k ≠ p := by
  intro heq
  have h1 := congrArg (fun x => x ^^^ p) heq
  simp only [buddy, Nat.xor_self, Nat.xor_comm p, Nat.xor_assoc, Nat.xor_zero] at h1
  exact absurd h1 (Nat.two_pow_pos k).ne'

theorem xor_one_div_two (m : ℕ) : (m ^^^ 1) / 2 = m / 2 := by
  simp [Nat.xor_div_two]

/-- Halves of the same number are equal or differ by flipping the low bit. -/
theorem eq_or_eq_xor_one (hq : p / 2 = q / 2) : q = p ∨ q = p ^^^ 1 := by
  rcases Nat.even_or_odd p with hp | hp
  · rw [Nat.xor_one_of_even hp]
    obtain ⟨c, rfl⟩ := hp
    omega
  · rw [Nat.xor_one_of_odd hp]
    obtain ⟨c, rfl⟩ := hp
    omega

/-- A buddy lies in every aligned group that is larger than the block itself. -/
theorem buddy_div_of_lt (hkm : k < m) (p : ℕ) : buddy p k / 2 ^ m = p / 2 ^ m := by
  rw [div_two_pow_le (Nat.le_of_lt hkm), div_two_pow_le (Nat.le_of_lt hkm) p, buddy_div]
  obtain ⟨c, hc⟩ := Nat.exists_eq_succ_of_ne_zero (Nat.sub_ne_zero_of_lt hkm)
  rw [hc, pow_succ', ← Nat.div_div_eq_div_mul, xor_one_div_two, Nat.div_div_eq_div_mul]

theorem disjoint_block_buddy (hp : 2 ^ k ∣ p) : Disjoint (block p k) (block (buddy p k) k) := by
  rw [Set.disjoint_left]
  intro i hi hb
  rw [mem_block_iff_div hp] at hi
  rw [mem_block_iff_div (buddy_dvd hp)] at hb
  have heq : buddy p k = p := by
    rw [← Nat.div_mul_cancel (buddy_dvd hp), ← hb, hi, Nat.div_mul_cancel hp]
  exact buddy_ne p k heq

/-! ### Pairs -/

theorem pairBase_dvd (p k : ℕ) : 2 ^ (k + 1) ∣ pairBase p k := Dvd.intro_left _ rfl

theorem mem_block_pairBase : i ∈ block (pairBase p k) (k + 1) ↔ i / 2 ^ (k + 1) = p / 2 ^ (k + 1) := by
  rw [mem_block_iff_div (pairBase_dvd p k), pairBase,
    Nat.mul_div_cancel _ (Nat.two_pow_pos (k + 1))]

/-- A block and its buddy make up the next larger aligned block. -/
theorem block_pairBase (hp : 2 ^ k ∣ p) :
    block (pairBase p k) (k + 1) = block p k ∪ block (buddy p k) k := by
  have hhalf : ∀ x, x / 2 ^ (k + 1) = x / 2 ^ k / 2 := fun x => by
    rw [pow_succ, Nat.div_div_eq_div_mul]
  ext i
  rw [mem_block_pairBase, Set.mem_union, mem_block_iff_div hp,
    mem_block_iff_div (buddy_dvd hp), buddy_div, hhalf, hhalf]
  constructor
  · intro hi
    exact eq_or_eq_xor_one hi.symm
  · rintro (hi | hi)
    · rw [hi]
    · rw [hi, xor_one_div_two]

/-- The base of a pair is one of its two blocks. -/
theorem pairBase_eq_or (hp : 2 ^ k ∣ p) : pairBase p k = p ∨ pairBase p k = buddy p k := by
  have hmem := self_mem_block (pairBase p k) (k + 1)
  have hdvd : 2 ^ k ∣ pairBase p k := (pow_dvd_pow 2 (Nat.le_succ k)).trans (pairBase_dvd p k)
  rw [block_pairBase hp, Set.mem_union, mem_block_iff_div hp,
    mem_block_iff_div (buddy_dvd hp)] at hmem
  rcases hmem with hm | hm
  · left; rw [← Nat.div_mul_cancel hdvd, hm, Nat.div_mul_cancel hp]
  · right; rw [← Nat.div_mul_cancel hdvd, hm, Nat.div_mul_cancel (buddy_dvd hp)]

/-! ### Nesting -/

/-- A smaller aligned block lies inside a larger one as soon as one point does. -/
theorem block_subset_of_mem (hjk : j ≤ k) (hp : 2 ^ j ∣ p) (hq : 2 ^ k ∣ q)
    (hip : i ∈ block p j) (hiq : i ∈ block q k) : block p j ⊆ block q k := by
  intro x hx
  rw [mem_block_iff_div hp] at hx hip
  rw [mem_block_iff_div hq] at hiq ⊢
  rw [← hiq, div_two_pow_le hjk, div_two_pow_le hjk i, hx, hip]

/-- An aligned point of an aligned block that is not its base belongs to a smaller block
    size, and the block then holds that point's whole pair. -/
theorem pair_subset_of_mem_ne (hp : 2 ^ k ∣ p) (hh : 2 ^ j ∣ h) (hmem : p ∈ block h j)
    (hne : p ≠ h) : k < j ∧ block (pairBase p k) (k + 1) ⊆ block h j := by
  have hkj : k < j := by
    by_contra hle
    have hpj : 2 ^ j ∣ p := (pow_dvd_pow 2 (Nat.le_of_not_lt hle)).trans hp
    rw [mem_block_iff_div hh] at hmem
    exact hne (by rw [← Nat.div_mul_cancel hpj, hmem, Nat.div_mul_cancel hh])
  have hpb : p ∈ block (pairBase p k) (k + 1) := mem_block_pairBase.mpr rfl
  exact ⟨hkj, block_subset_of_mem hkj (pairBase_dvd p k) hh hpb hmem⟩

end Rotary.Lib
