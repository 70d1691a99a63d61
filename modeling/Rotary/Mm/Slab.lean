import Rotary.Core.Machine
import Rotary.Lib.ByteMem

namespace Rotary

open Lib

/-!
# The slab allocator (`kernel/mm/slab.c`)

A slab is a block of pages with its `slab_header_t` in the first bytes and its objects behind
it; the free objects are threaded through their own first words.  Headers and objects are
therefore words of one flat memory, and every field access is a load or a store at an address.
A `slab_cache_t` is static kernel data and is kept as a record beside that memory.

What `page_alloc` returns is an argument of `slabAddCacheFrame`.  A loop that walks pointers
runs for at most `2 ^ 32` turns: a walk that goes on for longer than there are addresses never
ends, and `none` stands for it.

Left out: `name`, `max_objects` and `lock` of a cache, which no function reads or writes, the
unused `slab_node` of a header, and the log messages.
-/

def slabDefaultOrder : ℕ := 4

/-- `sizeof(slab_header_t)`. -/
def sizeofSlabHeader : ℕ := 40

/-- The turns after which a walk over pointers has met some address twice. -/
def walkLimit : ℕ := 2 ^ 32

/-- `PAGE_VA(page)`. -/
def pageVa (page : ℕ) : ℕ := phyToVir (pfnToPa page)

/-! ### The fields of the `slab_header_t` at `h` -/

namespace SlabHeader

def nextSlab (h : ℕ) : ℕ := h
def startAddr (h : ℕ) : ℕ := h + 4
def endAddr (h : ℕ) : ℕ := h + 8
def objectCount (h : ℕ) : ℕ := h + 12
def objectSize (h : ℕ) : ℕ := h + 16
def freeCount (h : ℕ) : ℕ := h + 20
def pageOrder (h : ℕ) : ℕ := h + 24
def freeList (h : ℕ) : ℕ := h + 36

end SlabHeader

/-- `slab_cache_t`. -/
structure SlabCache where
  objectSize : ℕ
  totalSize : ℕ
  allocCount : ℕ
  firstSlab : ℕ
  deriving DecidableEq, Repr

/-- `INIT_SLAB_CACHE`. -/
def initSlabCache (objSize : ℕ) : SlabCache := ⟨objSize, 0, 0, 0⟩

/-! ### Allocation -/

/-- `slab_alloc_from_slab`; the null pointer is `0`. -/
def slabAllocFromSlab (m : ByteMem) (header : ℕ) : ℕ × ByteMem :=
  if load m (SlabHeader.freeCount header) = 0 then (0, m)
  else if load m (SlabHeader.freeList header) = 0 then (0, m)
  else
    let newObj := load m (SlabHeader.freeList header)
    let m := store m (SlabHeader.freeList header) (load m newObj)
    let m := store m (SlabHeader.freeCount header) (dec32 (load m (SlabHeader.freeCount header)))
    (newObj, m)

/-- `(*curr_slab)->free_count > 0`. -/
def hasFree (m : ByteMem) (h : ℕ) : Bool := decide (0 < load m (SlabHeader.freeCount h))

/-- `slab_alloc_from_cache`. -/
def slabAllocFromCache (m : ByteMem) (cache : SlabCache) : Option (ℕ × ByteMem) :=
  (firstSuch m (hasFree m) walkLimit cache.firstSlab).map fun h =>
    if h = 0 then (0, m) else slabAllocFromSlab m h

/-! ### Growing a cache -/

/-- The bytes of a slab. -/
def slabBytes : ℕ := 2 ^ slabDefaultOrder * pageSize

/-- `usable_size / slab_cache->object_size`. -/
def slotCount (objSize : ℕ) : ℕ := (slabBytes - sizeofSlabHeader) / objSize

/-- The stores of `slab_add_cache_frame` into the new header, `free_list` apart. -/
def initHeader (m : ByteMem) (header objSize : ℕ) : ByteMem :=
  let m := store m (SlabHeader.pageOrder header) slabDefaultOrder
  let m := store m (SlabHeader.startAddr header) (u32 (header + sizeofSlabHeader))
  let m := store m (SlabHeader.endAddr header) (u32 (header + slabBytes))
  let m := store m (SlabHeader.objectCount header) (slotCount objSize)
  let m := store m (SlabHeader.objectSize header) objSize
  let m := store m (SlabHeader.freeCount header) (slotCount objSize)
  store m (SlabHeader.nextSlab header) 0

/-- `*curr_slab = header` at the end of the cache's list: `curr_slab` is `&first_slab`, or the
    address of the first null `next_slab`. -/
def appendSlab (m : ByteMem) (cache : SlabCache) (header : ℕ) : Option (ByteMem × SlabCache) :=
  if cache.firstSlab = 0 then some (m, { cache with firstSlab := header })
  else
    (firstSuch m (fun h => decide (load m (SlabHeader.nextSlab h) = 0)) walkLimit
      cache.firstSlab).map fun last => (store m (SlabHeader.nextSlab last) header, cache)

/-- The loop that threads the free list, for `count` objects from `current`: the last object
    and the memory.  `link` is `&header->free_list`, written while `prev` is null. -/
def carve (link objSize : ℕ) : ℕ → ℕ → ℕ → ByteMem → ℕ × ByteMem
  | 0, prev, _, m => (prev, m)
  | count + 1, prev, current, m =>
    let m := if prev ≠ 0 then store m prev current else store m link current
    carve link objSize count current (u32 (current + objSize)) m

/-- The free list of a new slab: `carve`, then `prev_object->next = NULL`. -/
def initFreeList (m : ByteMem) (header objSize : ℕ) : ByteMem :=
  let (prev, m) := carve (SlabHeader.freeList header) objSize
    (load m (SlabHeader.objectCount header)) 0 (load m (SlabHeader.startAddr header)) m
  if prev ≠ 0 then store m prev 0 else m

/-- `slab_add_cache_frame`; `newPage` is what `page_alloc` returns. -/
def slabAddCacheFrame (m : ByteMem) (cache : SlabCache) (newPage : Option ℕ) :
    Option (ByteMem × SlabCache) :=
  match newPage with
  | none => some (m, cache)
  | some page =>
    let header := pageVa page
    let m := initHeader m header cache.objectSize
    let cache := { cache with
      totalSize := u32 (cache.totalSize + slabBytes)
      allocCount := u32 (cache.allocCount + 2 ^ slabDefaultOrder) }
    (appendSlab m cache header).map fun (m, cache) =>
      (initFreeList m header cache.objectSize, cache)

/-- `slab_malloc`. -/
def slabMalloc (m : ByteMem) (cache : SlabCache) (newPage : Option ℕ) :
    Option (ℕ × ByteMem × SlabCache) := do
  let (newObject, m) ← slabAllocFromCache m cache
  if newObject ≠ 0 then return (newObject, m, cache)
  let (m, cache) ← slabAddCacheFrame m cache newPage
  let (newObject, m) ← slabAllocFromCache m cache
  return (newObject, m, cache)

/-! ### Freeing -/

/-- The range test of `slab_free`. -/
def inSlab (m : ByteMem) (object h : ℕ) : Bool :=
  let startAddr := load m (SlabHeader.startAddr h)
  let endAddr := u32 (startAddr + pageSize <<< load m (SlabHeader.pageOrder h))
  decide (startAddr ≤ object ∧ object < endAddr)

/-- The inner loop of `slab_free`: the word `curr_obj` points at when it is left, which holds
    null or the first free object above `object`. -/
def insertCell (m : ByteMem) (object : ℕ) : ℕ → ℕ → Option ℕ
  | 0, _ => none
  | fuel + 1, currObj =>
    if load m currObj = 0 then some currObj
    else if object < load m currObj then some currObj
    else insertCell m object fuel (load m currObj)

/-- The stores of `slab_free` once `curr_obj` is found.  Behind the last free object `*curr_obj`
    is null, so that both ways out of the inner loop store `*curr_obj` into the object. -/
def linkObject (m : ByteMem) (h object currObj : ℕ) : ByteMem :=
  let m := store m object (load m currObj)
  let m := store m currObj object
  store m (SlabHeader.freeCount h) (inc32 (load m (SlabHeader.freeCount h)))

/-- `slab_free`. -/
def slabFree (m : ByteMem) (cache : SlabCache) (object : ℕ) : Option (Status × ByteMem) := do
  let h ← firstSuch m (inSlab m object) walkLimit cache.firstSlab
  if h = 0 then return (.error, m)
  let currObj ← insertCell m object walkLimit (SlabHeader.freeList h)
  return (.success, linkObject m h object currObj)

/-- The range test of `slab_cache_has_addr`. -/
def holdsAddr (m : ByteMem) (addr h : ℕ) : Bool :=
  decide (load m (SlabHeader.startAddr h) ≤ addr ∧ addr < load m (SlabHeader.endAddr h))

/-- `slab_cache_has_addr`. -/
def slabCacheHasAddr (m : ByteMem) (cache : SlabCache) (addr : ℕ) : Option Bool :=
  (firstSuch m (holdsAddr m addr) walkLimit cache.firstSlab).map fun h => decide (h ≠ 0)

/-! ### What the memory says -/

/-- The headers of a cache's slabs, in list order. -/
def slabList (m : ByteMem) (cache : SlabCache) : List ℕ := chainList m walkLimit cache.firstSlab

/-- The free objects of the slab at `h`, in list order. -/
def slabFreeList (m : ByteMem) (h : ℕ) : List ℕ :=
  chainList m walkLimit (load m (SlabHeader.freeList h))

end Rotary
