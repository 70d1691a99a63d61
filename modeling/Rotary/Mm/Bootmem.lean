import Rotary.Core.Machine

namespace Rotary

/-!
# The boot memory allocator (`kernel/mm/bootmem.c`)

`mem_regions` is an array of sixteen slots; a slot is free when its `start_addr` is zero.
`bootmem_add_mem_region` records a region minus the kernel image, `bootmem_alloc` advances
the `start_addr` of the first available region that fits.  `bootmem_mark_free`, which hands
the rest to the page allocator, is in `Rotary.Mm.MarkFree`.
-/

/-- `struct mem_region`. -/
structure MemRegion where
  startAddr : ℕ
  endAddr : ℕ
  origStartAddr : ℕ
  type : ℕ
  deriving DecidableEq, Repr

/-- The globals of `bootmem.c`. -/
structure Bootmem where
  memRegions : List MemRegion
  highestPfn : ℕ
  regionCount : ℕ
  deriving DecidableEq, Repr

def maxMemRegions : ℕ := 16
def memRegionReserved : ℕ := 0
def memRegionAvailable : ℕ := 1
def bmNoAlign : ℕ := 1

/-- A slot of `mem_regions` after `memset`. -/
def MemRegion.zero : MemRegion := ⟨0, 0, 0, 0⟩

/-- `bootmem_reset`; also the state the globals have when the kernel is loaded. -/
def bootmemReset : Bootmem := ⟨List.replicate maxMemRegions MemRegion.zero, 0, 0⟩

/-! ### Registering regions -/

/-- Store a region into the first slot whose `start_addr` is zero; `none` if there is none. -/
def fillSlot (r : MemRegion) : List MemRegion → Option (List MemRegion)
  | [] => none
  | m :: ms => if m.startAddr = 0 then some (r :: ms) else (fillSlot r ms).map (m :: ·)

/-- The end of `bootmem_add_mem_region`: record `[startAddr, endAddr)`. -/
def recordRegion (bm : Bootmem) (startAddr endAddr type : ℕ) : Status × Bootmem :=
  -- highest_pfn is raised before the search for a slot
  let bm := { bm with highestPfn := max bm.highestPfn (paToPfn endAddr) }
  match fillSlot ⟨startAddr, endAddr, startAddr, type⟩ bm.memRegions with
  | some rs => (.success, { bm with memRegions := rs, regionCount := bm.regionCount + 1 })
  | none => (.error, bm)

/-- `bootmem_add_mem_region`.  `depth` bounds the recursion of the case that splits a region
    around the kernel image; its two calls do not split again when the image is not empty. -/
def addMemRegion (img : KernelImage) : ℕ → Bootmem → ℕ → ℕ → ℕ → Status × Bootmem
  | 0, bm, _, _, _ => (.error, bm)
  | depth + 1, bm, startAddr, endAddr, type =>
    let startAddr := pageAlign startAddr
    let endAddr := pageAlignDown endAddr
    let kernelStart := pageAlign img.physStart
    let kernelEnd := pageAlign img.physEnd
    if bm.regionCount = maxMemRegions then (.error, bm)
    else if kernelStart ≤ startAddr ∧ endAddr < kernelEnd then (.error, bm)
    else if type ≠ memRegionReserved ∧ type ≠ memRegionAvailable then (.error, bm)
    else if endAddr < startAddr then (.error, bm)
    else if startAddr = endAddr ∨ endAddr - startAddr < pageSize then (.error, bm)
    else if startAddr < kernelStart ∧ kernelEnd < endAddr then
      let bm := (addMemRegion img depth bm startAddr kernelStart type).2
      let bm := (addMemRegion img depth bm kernelEnd endAddr type).2
      (.success, bm)
    else if startAddr < kernelStart ∧ kernelStart < endAddr then
      recordRegion bm startAddr kernelStart type
    else if startAddr < kernelEnd ∧ kernelEnd < endAddr then
      recordRegion bm kernelEnd endAddr type
    else recordRegion bm startAddr endAddr type

/-- `bootmem_add_mem_region` as its callers see it. -/
def bootmemAddMemRegion (img : KernelImage) (bm : Bootmem) (startAddr endAddr type : ℕ) :
    Status × Bootmem :=
  addMemRegion img 2 bm startAddr endAddr type

/-- `bootmem_highest_pfn`. -/
def bootmemHighestPfn (bm : Bootmem) : ℕ := bm.highestPfn

/-! ### Allocating -/

/-- Whether `bootmem_alloc` serves a request from this region. -/
def MemRegion.fits (r : MemRegion) (size alignment : ℕ) : Prop :=
  r.type = memRegionAvailable ∧ align r.startAddr alignment < r.endAddr ∧
    size ≤ r.endAddr - align r.startAddr alignment

instance (r : MemRegion) (size alignment : ℕ) : Decidable (r.fits size alignment) :=
  inferInstanceAs (Decidable (_ ∧ _ ∧ _))

/-- The region loop of `bootmem_alloc`: the physical start of the extent and the regions
    afterwards. -/
def allocFrom (size alignment : ℕ) : List MemRegion → Option (ℕ × List MemRegion)
  | [] => none
  | r :: rs =>
    if r.fits size alignment then
      let alignedStart := align r.startAddr alignment
      some (alignedStart, { r with startAddr := u32 (alignedStart + size) } :: rs)
    else (allocFrom size alignment rs).map fun (a, rs') => (a, r :: rs')

/-- `bootmem_alloc`: the virtual address of the extent, zero being `NULL`. -/
def bootmemAlloc (bm : Bootmem) (size alignment : ℕ) : ℕ × Bootmem :=
  match allocFrom size alignment bm.memRegions with
  | some (a, rs) => (phyToVir a, { bm with memRegions := rs })
  | none => (0, bm)

end Rotary
