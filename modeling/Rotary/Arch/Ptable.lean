import Rotary.Core.Machine

namespace Rotary

/-!
# x86 page directories and tables (`arch/ptable.h`)

Physical memory, as far as paging is concerned, is a map from frame numbers to tables of 32-bit
entries.  A directory and a table have the same shape, and an entry is one word: the frame
address in the upper twenty bits, the flags in the lower twelve.

* `makeEntry` — `MAKE_PDE` and `MAKE_PTE`;
* `walk` — what the processor finds for a virtual address, 4 MB pages included;
* `walk_congr` — the two words a walk depends on.
-/

/-- Physical memory, by frame number and index of the 32-bit word in the frame. -/
abbrev PhysMem := ℕ → ℕ → BitVec 32

def pageDirSize : ℕ := 1024
def pageTableSize : ℕ := 1024

def pdePresent : BitVec 32 := 0x01
def pdeWritable : BitVec 32 := 0x02
def pdeUser : BitVec 32 := 0x04
def pdePageSize4M : BitVec 32 := 0x80
def pdeGlobal : BitVec 32 := 0x100

def ptePresent : BitVec 32 := 0x01
def pteWritable : BitVec 32 := 0x02
def pteUser : BitVec 32 := 0x04
def pteGlobal : BitVec 32 := 0x100

/-- `PAGE_DIRECTORY_INDEX(addr)`. -/
def pageDirectoryIndex (addr : ℕ) : ℕ := (addr >>> 22) &&& 0x3FF

/-- `PAGE_TABLE_INDEX(addr)`. -/
def pageTableIndex (addr : ℕ) : ℕ := (addr >>> 12) &&& 0x3FF

/-- `PDE_IDX_TO_ADDR(idx)` and `PTE_IDX_TO_ADDR(idx)`. -/
def pdeIdxToAddr (idx : ℕ) : ℕ := idx <<< 22
def pteIdxToAddr (idx : ℕ) : ℕ := idx <<< 12

/-- `MAKE_PDE(addr, flags)` and `MAKE_PTE(addr, flags)`. -/
def makeEntry (addr : ℕ) (flags : BitVec 32) : BitVec 32 :=
  (BitVec.ofNat 32 addr &&& 0xFFFFF000#32) ||| (flags &&& 0xFFF#32)

/-- `PAGE_FRAME(entry)`: the physical address in an entry. -/
def pageFrame (entry : BitVec 32) : ℕ := (entry &&& 0xFFFFF000#32).toNat

/-- The frame an entry points to. -/
def frameOf (entry : BitVec 32) : ℕ := paToPfn (pageFrame entry)

/-- `PDE_EXISTS` and `PTE_EXISTS`. -/
def entryExists (entry : BitVec 32) : Bool := testFlag entry pdePresent

/-- `PDE_IS_HUGE(pde)`. -/
def pdeIsHuge (pde : BitVec 32) : Bool := testFlag pde pdePageSize4M

/-- Entry `j` of the directory points to a page table. -/
def IsTable (mem : PhysMem) (pgd j : ℕ) : Prop :=
  entryExists (mem pgd j) = true ∧ pdeIsHuge (mem pgd j) = false

/-- Store one word. -/
def setWord (mem : PhysMem) (frame idx : ℕ) (v : BitVec 32) : PhysMem :=
  Function.update mem frame (Function.update (mem frame) idx v)

/-- What a walk finds for a page: the address of the frame, and the permission bits of the entry
    and of the directory entry above it. -/
structure Mapping where
  frame : ℕ
  user : Bool
  writable : Bool
  tableUser : Bool
  tableWritable : Bool
  deriving DecidableEq, Repr

/-- The mapping a 4 MB directory entry gives to an address. -/
def hugeMapping (pde : BitVec 32) (va : ℕ) : Mapping where
  frame := (pageFrame pde / 2 ^ 22) * 2 ^ 22 + pageTableIndex va * 4096
  user := testFlag pde pdeUser
  writable := testFlag pde pdeWritable
  tableUser := testFlag pde pdeUser
  tableWritable := testFlag pde pdeWritable

/-- The mapping of a page-table entry below the directory entry `pde`. -/
def leafMapping (pde pte : BitVec 32) : Mapping where
  frame := pageFrame pte
  user := testFlag pte pteUser
  writable := testFlag pte pteWritable
  tableUser := testFlag pde pdeUser
  tableWritable := testFlag pde pdeWritable

/-- The two-level walk of `va` from the directory in frame `pgd`. -/
def walk (mem : PhysMem) (pgd va : ℕ) : Option Mapping :=
  let pde := mem pgd (pageDirectoryIndex va)
  if !entryExists pde then none
  else if pdeIsHuge pde then some (hugeMapping pde va)
  else
    let pte := mem (frameOf pde) (pageTableIndex va)
    if entryExists pte then some (leafMapping pde pte) else none

/-- The physical address behind `va`. -/
def translate (mem : PhysMem) (pgd va : ℕ) : Option ℕ :=
  (walk mem pgd va).map fun m => m.frame + va % 4096

/-! ### Indices -/

theorem pageDirectoryIndex_eq (va : ℕ) : pageDirectoryIndex va = va / 2 ^ 22 % 1024 := by
  unfold pageDirectoryIndex
  rw [Nat.shiftRight_eq_div_pow]
  exact Nat.and_two_pow_sub_one_eq_mod _ 10

theorem pageTableIndex_eq (va : ℕ) : pageTableIndex va = va / 4096 % 1024 := by
  unfold pageTableIndex
  rw [Nat.shiftRight_eq_div_pow]
  exact Nat.and_two_pow_sub_one_eq_mod _ 10

theorem pageTableIndex_lt (va : ℕ) : pageTableIndex va < 1024 := by
  rw [pageTableIndex_eq]
  omega

/-- The two indices determine the page of a 32-bit address. -/
theorem page_eq_of_index_eq {va va' : ℕ} (hv : va < 2 ^ 32) (hv' : va' < 2 ^ 32)
    (hd : pageDirectoryIndex va = pageDirectoryIndex va')
    (ht : pageTableIndex va = pageTableIndex va') : va / 4096 = va' / 4096 := by
  rw [pageDirectoryIndex_eq, pageDirectoryIndex_eq] at hd
  rw [pageTableIndex_eq, pageTableIndex_eq] at ht
  omega

/-! ### Entries -/

/-- The flags below bit 12 are read back from an entry. -/
theorem testFlag_makeEntry {b : BitVec 32} (addr : ℕ) (flags : BitVec 32)
    (hb : b &&& 0xFFF#32 = b) : testFlag (makeEntry addr flags) b = testFlag flags b := by
  have hhigh : 0xFFFFF000#32 &&& b = 0 := by
    rw [← hb, BitVec.and_comm b, ← BitVec.and_assoc]
    simp
  have hlow : 0xFFF#32 &&& b = b := by rw [BitVec.and_comm, hb]
  have hand : makeEntry addr flags &&& b = flags &&& b := by
    unfold makeEntry
    rw [BitVec.and_comm, BitVec.and_or_distrib_left, BitVec.and_comm b, BitVec.and_comm b,
      BitVec.and_assoc, BitVec.and_assoc, hhigh, hlow]
    simp
  unfold testFlag
  rw [hand]

theorem pageFrame_eq (e : BitVec 32) : pageFrame e = e.toNat / 4096 * 4096 := by
  unfold pageFrame
  rw [BitVec.toNat_and]
  exact and_not32_two_pow (k := 12) (by decide) e.isLt

/-- The frame address is read back from an entry. -/
theorem pageFrame_makeEntry (addr : ℕ) (flags : BitVec 32) :
    pageFrame (makeEntry addr flags) = u32 addr / 4096 * 4096 := by
  have hand : makeEntry addr flags &&& 0xFFFFF000#32 = BitVec.ofNat 32 addr &&& 0xFFFFF000#32 := by
    unfold makeEntry
    rw [BitVec.and_comm, BitVec.and_or_distrib_left, BitVec.and_comm (0xFFFFF000#32),
      BitVec.and_comm (0xFFFFF000#32), BitVec.and_assoc, BitVec.and_assoc]
    simp
  unfold pageFrame
  rw [hand]
  show pageFrame (BitVec.ofNat 32 addr) = _
  rw [pageFrame_eq, BitVec.toNat_ofNat]
  rfl

theorem frameOf_makeEntry (addr : ℕ) (flags : BitVec 32) :
    frameOf (makeEntry addr flags) = u32 addr / 4096 := by
  unfold frameOf
  rw [paToPfn_eq, pageFrame_makeEntry, Nat.mul_div_cancel _ (by decide)]

/-- Setting a low flag of an entry. -/
theorem setFlag_makeEntry {b : BitVec 32} (addr : ℕ) (flags : BitVec 32)
    (hb : b &&& 0xFFF#32 = b) : setFlag (makeEntry addr flags) b = makeEntry addr (flags ||| b) := by
  unfold setFlag makeEntry
  rw [BitVec.or_assoc, BitVec.and_comm (flags ||| b), BitVec.and_or_distrib_left,
    BitVec.and_comm _ flags, BitVec.and_comm _ b, hb]

/-! ### Memory -/

@[simp] theorem setWord_self (mem : PhysMem) (f i : ℕ) (v : BitVec 32) :
    setWord mem f i v f i = v := by
  simp [setWord]

theorem setWord_apply (mem : PhysMem) (f i : ℕ) (v : BitVec 32) (g j : ℕ) :
    setWord mem f i v g j = if g = f ∧ j = i then v else mem g j := by
  by_cases hg : g = f
  · subst hg
    by_cases hj : j = i <;> simp [setWord, hj]
  · simp [setWord, hg]

theorem setWord_of_ne (mem : PhysMem) {f i g j : ℕ} (v : BitVec 32) (h : ¬ (g = f ∧ j = i)) :
    setWord mem f i v g j = mem g j := by
  rw [setWord_apply, if_neg h]

/-- A walk depends on two words only. -/
theorem walk_congr {mem mem' : PhysMem} {pgd va : ℕ}
    (hpde : mem' pgd (pageDirectoryIndex va) = mem pgd (pageDirectoryIndex va))
    (hpte : entryExists (mem pgd (pageDirectoryIndex va)) = true →
      pdeIsHuge (mem pgd (pageDirectoryIndex va)) = false →
      mem' (frameOf (mem pgd (pageDirectoryIndex va))) (pageTableIndex va)
        = mem (frameOf (mem pgd (pageDirectoryIndex va))) (pageTableIndex va)) :
    walk mem' pgd va = walk mem pgd va := by
  unfold walk
  rw [hpde]
  dsimp only
  split
  · rfl
  · rename_i hex
    split
    · rfl
    · rename_i hhuge
      rw [hpte (by simpa using hex) (by simpa using hhuge)]

/-- The walk through a directory entry that points to a table. -/
theorem walk_table {mem : PhysMem} {pgd va : ℕ} {pde : BitVec 32}
    (hpde : mem pgd (pageDirectoryIndex va) = pde) (hex : entryExists pde = true)
    (hhuge : pdeIsHuge pde = false) :
    walk mem pgd va = if entryExists (mem (frameOf pde) (pageTableIndex va))
      then some (leafMapping pde (mem (frameOf pde) (pageTableIndex va))) else none := by
  unfold walk
  rw [hpde]
  simp [hex, hhuge]

end Rotary
