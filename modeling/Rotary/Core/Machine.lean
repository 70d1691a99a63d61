import Mathlib.Data.Nat.Bitwise
import Mathlib.Tactic.Ring

namespace Rotary

/-!
# 32-bit addresses, page frames and the alignment macros

The constants and macros of `core.h`, `arch/paging.h`, `arch/ptable.h` and `mm/palloc.h`
that the memory-management code shares.  An address is a natural number below `2 ^ 32`;
every macro that can carry out of a word says so with `u32`.

* `align` / `alignDown` — `ALIGN`, `ALIGN_DOWN` and their page-sized instances;
* `phyToVir` / `virToPhy` — the fixed offset between a physical address and the kernel
  virtual address that names it;
* `pfnToPa` / `paToPfn` — page frame numbers;
* `testFlag` / `setFlag` / `clearFlag` — the bit macros on `flags` words.
-/

/-- The value a 32-bit register keeps of `n`. -/
def u32 (n : ℕ) : ℕ := n % 2 ^ 32

/-- Bitwise complement of a 32-bit word. -/
def not32 (m : ℕ) : ℕ := 2 ^ 32 - (m + 1)

/-- `x++` on a `uint32_t`. -/
def inc32 (n : ℕ) : ℕ := u32 (n + 1)

/-- `x--` on a `uint32_t`. -/
def dec32 (n : ℕ) : ℕ := u32 (n + (2 ^ 32 - 1))

/-- `E_SUCCESS` and `E_ERROR`. -/
inductive Status
  | success
  | error
  deriving DecidableEq, Repr

/-! ### Constants -/

def pageSize : ℕ := 4096
def kernelStartVirt : ℕ := 0xC0000000
def kmapStartVirt : ℕ := 0xF0000000
def lowmemPlimit : ℕ := 0x40000000

/-- `KERNEL_PHYS_START` and `KERNEL_PHYS_END`, the linker's bounds of the kernel image. -/
structure KernelImage where
  physStart : ℕ
  physEnd : ℕ
  ordered : physStart ≤ physEnd := by decide
  fits : physEnd ≤ 0xFFFFF000 := by decide
  deriving DecidableEq, Repr

/-! ### Alignment -/

/-- `ALIGN(addr, alignment)`: round up, in 32 bits. -/
def align (addr alignment : ℕ) : ℕ := u32 (addr + dec32 alignment) &&& not32 (dec32 alignment)

/-- `ALIGN_DOWN(addr, alignment)`. -/
def alignDown (addr alignment : ℕ) : ℕ := addr &&& not32 (dec32 alignment)

/-- `PAGE_ALIGN(addr)`. -/
def pageAlign (addr : ℕ) : ℕ := align addr pageSize

/-- `PAGE_ALIGN_DOWN(addr)`. -/
def pageAlignDown (addr : ℕ) : ℕ := alignDown addr pageSize

/-! ### Address conversions -/

/-- `PHY_TO_VIR(addr)`. -/
def phyToVir (addr : ℕ) : ℕ := u32 (addr + kernelStartVirt)

/-- `VIR_TO_PHY(addr)`. -/
def virToPhy (addr : ℕ) : ℕ := u32 (addr + (2 ^ 32 - kernelStartVirt))

/-- `PFN_TO_PA(pfn)`. -/
def pfnToPa (pfn : ℕ) : ℕ := u32 (pfn * pageSize)

/-- `PA_TO_PFN(pa)`. -/
def paToPfn (pa : ℕ) : ℕ := pa >>> 12

/-! ### Flag words -/

/-- `TEST_BIT(flags, bit)`. -/
def testFlag (flags bit : BitVec 32) : Bool := flags &&& bit != 0

/-- `SET_BIT(flags, bit)`. -/
def setFlag (flags bit : BitVec 32) : BitVec 32 := flags ||| bit

/-- `CLEAR_BIT(flags, bit)`. -/
def clearFlag (flags bit : BitVec 32) : BitVec 32 := flags &&& ~~~bit

/-! ### Word arithmetic -/

theorem u32_lt (n : ℕ) : u32 n < 2 ^ 32 := Nat.mod_lt _ (by norm_num)

theorem u32_of_lt {n : ℕ} (h : n < 2 ^ 32) : u32 n = n := Nat.mod_eq_of_lt h

theorem inc32_of_lt {n : ℕ} (h : n + 1 < 2 ^ 32) : inc32 n = n + 1 := u32_of_lt h

theorem dec32_of_pos {n : ℕ} (h0 : 0 < n) (h : n < 2 ^ 32) : dec32 n = n - 1 := by
  unfold dec32 u32
  omega

/-- Masking off the low `k` bits rounds down to a multiple of `2 ^ k`. -/
theorem and_not32_two_pow {x k : ℕ} (hk : k ≤ 32) (hx : x < 2 ^ 32) :
    x &&& not32 (2 ^ k - 1) = x / 2 ^ k * 2 ^ k := by
  have hlt : 2 ^ k - 1 < 2 ^ 32 :=
    Nat.lt_of_lt_of_le (Nat.sub_one_lt (Nat.two_pow_pos k).ne') (Nat.pow_le_pow_right (by norm_num) hk)
  apply Nat.eq_of_testBit_eq
  intro i
  unfold not32
  rw [Nat.testBit_and, Nat.testBit_two_pow_sub_succ hlt, Nat.testBit_two_pow_sub_one,
    Nat.testBit_mul_two_pow, Nat.testBit_div_two_pow]
  by_cases hik : i < k
  · simp [hik, Nat.not_le_of_lt hik]
  · have hle : k ≤ i := Nat.le_of_not_lt hik
    by_cases hi : i < 32
    · simp [hik, hi, hle]
    · have hxi : x.testBit i = false :=
        Nat.testBit_lt_two_pow (Nat.lt_of_lt_of_le hx
          (Nat.pow_le_pow_right (by norm_num) (Nat.le_of_not_lt hi)))
      simp [hi, hle, hxi]

theorem pageAlignDown_eq {a : ℕ} (ha : a < 2 ^ 32) : pageAlignDown a = a / 4096 * 4096 :=
  and_not32_two_pow (k := 12) (by decide) ha

/-- Rounding up to the page, when the carry stays inside the word. -/
theorem pageAlign_eq {a : ℕ} (ha : a + 4095 < 2 ^ 32) :
    pageAlign a = (a + 4095) / 4096 * 4096 := by
  show u32 (a + 4095) &&& not32 4095 = _
  rw [u32_of_lt ha]
  exact and_not32_two_pow (k := 12) (by decide) ha

theorem paToPfn_eq (a : ℕ) : paToPfn a = a / 4096 := by
  rw [paToPfn, Nat.shiftRight_eq_div_pow]

theorem virToPhy_phyToVir {a : ℕ} (ha : a < 2 ^ 32) : virToPhy (phyToVir a) = a := by
  unfold virToPhy phyToVir u32 kernelStartVirt
  omega

/-! ### Flag words -/

@[simp] theorem testFlag_clearFlag_self (f b : BitVec 32) : testFlag (clearFlag f b) b = false := by
  simp [testFlag, clearFlag, BitVec.and_assoc]

/-- Setting one flag is not seen by the test of another. -/
theorem testFlag_setFlag_of_disjoint {f b c : BitVec 32} (h : b &&& c = 0) :
    testFlag (setFlag f b) c = testFlag f c := by
  have hor : (f ||| b) &&& c = f &&& c := by
    rw [BitVec.and_comm, BitVec.and_or_distrib_left, BitVec.and_comm c b, h, BitVec.and_comm c f]
    simp
  simp [testFlag, setFlag, hor]

end Rotary
