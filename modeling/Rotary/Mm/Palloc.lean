import Rotary.Core.List
import Rotary.Mm.Bootmem

namespace Rotary

open Lib

/-!
# The buddy page allocator (`kernel/mm/palloc.c`)

A `struct page *` is the index of the page in `page_area`.  The `list_node_t` members — the
`buddy_node` of every page and the `free_pages` head of every order — live together in one
node heap, so that the pointer surgery of `list.h` applies to them as it stands.

Memory past the end of `page_area` is not under the allocator's control: `buddyInit` takes
what it holds as a parameter, and `indexed` records every pfn `buddy_get` passes to
`page_from_pfn`, in or out of range.

`buddy_allocator.lock` is taken and released inside each function and is not part of this
sequential model.
-/

def orderUsed : ℤ := -1
def orderMax : ℕ := 6

def pfInvalid : BitVec 32 := 0x01
def pfZoneLowmem : BitVec 32 := 0x02
def pfZoneHighmem : BitVec 32 := 0x04
def pfKernel : BitVec 32 := 0x08

/-- `sizeof(struct page)`. -/
def sizeofPage : ℕ := 24

/-- `struct page`, less its list node. -/
structure Page where
  pfn : ℕ
  useCount : ℕ
  flags : BitVec 32
  order : ℤ
  deriving DecidableEq, Repr

/-- The list nodes of the allocator: `blocks[order].free_pages` and `page->buddy_node`. -/
inductive BuddyNode
  | freePages (order : ℕ)
  | buddyNode (pfn : ℕ)
  deriving DecidableEq, Repr

/-- `struct buddy_allocator` with the arrays it points to. -/
structure BuddyAllocator where
  pageArea : ℕ
  pageCount : ℕ
  pages : ℕ → Page
  freeCount : ℕ → ℕ
  nodes : NodeHeap BuddyNode
  indexed : List ℕ

namespace BuddyAllocator

/-- `page->order = order`. -/
def setOrder (s : BuddyAllocator) (page : ℕ) (order : ℤ) : BuddyAllocator :=
  { s with pages := Function.update s.pages page { s.pages page with order := order } }

/-- `page->use_count = n`. -/
def setUseCount (s : BuddyAllocator) (page n : ℕ) : BuddyAllocator :=
  { s with pages := Function.update s.pages page { s.pages page with useCount := n } }

/-- `page->flags = flags`. -/
def setFlags (s : BuddyAllocator) (page : ℕ) (flags : BitVec 32) : BuddyAllocator :=
  { s with pages := Function.update s.pages page { s.pages page with flags := flags } }

/-- `blocks[order].free_count = n`. -/
def setFreeCount (s : BuddyAllocator) (order n : ℕ) : BuddyAllocator :=
  { s with freeCount := Function.update s.freeCount order n }

end BuddyAllocator

/-- The pfn of a page's list node. -/
def BuddyNode.pfn? : BuddyNode → Option ℕ
  | .freePages _ => none
  | .buddyNode p => some p

/-- The pages on `blocks[order].free_pages`, read off the `next` words. -/
def freeList (s : BuddyAllocator) (order : ℕ) : List ℕ :=
  (Ring.walk s.nodes (.freePages order) s.pageCount (s.nodes (.freePages order)).next).filterMap
    BuddyNode.pfn?

/-! ### Lookups -/

/-- `page_from_pfn`: the index is not checked against `page_count`. -/
def pageFromPfn (pfn : ℕ) : ℕ := pfn

/-- `buddy_get`, recording the pfn it asks for. -/
def buddyGet (s : BuddyAllocator) (page order : ℕ) : ℕ × BuddyAllocator :=
  let buddyPfn := (s.pages page).pfn ^^^ 2 ^ order
  (pageFromPfn buddyPfn, { s with indexed := buddyPfn :: s.indexed })

/-- `page_get_last`.  On an empty list `head->prev` is the head itself, and the source returns
    `container_of` of a list head; no page stands for that pointer. -/
def pageGetLast (s : BuddyAllocator) (order : ℕ) : Option ℕ :=
  match (s.nodes (.freePages order)).prev with
  | some (.buddyNode p) => some p
  | some (.freePages _) => none
  | none => none

/-- `page_is_critical`: `error` for a page of the kernel image. -/
def pageIsCritical (img : KernelImage) (s : BuddyAllocator) (page : ℕ) : Status :=
  let pagePhysAddr := pfnToPa (s.pages page).pfn
  if img.physStart ≤ pagePhysAddr ∧ pagePhysAddr < img.physEnd then .error else .success

/-! ### Block lists -/

/-- `buddy_remove_block`. -/
def buddyRemoveBlock (s : BuddyAllocator) (page : ℕ) : BuddyAllocator :=
  let s := { s with nodes := clistDeleteNode s.nodes (.buddyNode page) }
  let order := (s.pages page).order.toNat
  let s := s.setFreeCount order (dec32 (s.freeCount order))
  s.setOrder page orderUsed

/-- `buddy_add_block`. -/
def buddyAddBlock (s : BuddyAllocator) (page order : ℕ) : BuddyAllocator :=
  let s := s.setOrder page order
  let s := { s with nodes := clistAdd s.nodes (.freePages order) (.buddyNode page) }
  s.setFreeCount order (inc32 (s.freeCount order))

/-- `buddy_split_block(order)` with `order = ORDER_MAX + 1 - d`: for `d = 0` the order is too
    large and the call is refused. -/
def splitFrom : ℕ → BuddyAllocator → Status × BuddyAllocator
  | 0, s => (.error, s)
  | d + 1, s =>
    let order := orderMax - d
    let s := if s.freeCount order = 0 then (splitFrom d s).2 else s
    if s.freeCount order = 0 then (.error, s)
    else
      match pageGetLast s order with
      | none => (.error, s)
      | some target =>
        let s := buddyRemoveBlock s target
        let (buddy, s) := buddyGet s target (order - 1)
        let s := buddyAddBlock s target (order - 1)
        (.success, buddyAddBlock s buddy (order - 1))

/-- `buddy_split_block`. -/
def buddySplitBlock (s : BuddyAllocator) (order : ℕ) : Status × BuddyAllocator :=
  splitFrom (orderMax + 1 - order) s

/-- The loop body of `buddy_merge_block` once `buddy` has passed both tests: the block page and
    the state for the next turn. -/
def mergeBody (s : BuddyAllocator) (page order buddy : ℕ) : ℕ × BuddyAllocator :=
  let s := { s with nodes := clistDeleteNode s.nodes (.buddyNode buddy) }
  let s := s.setFreeCount order (dec32 (s.freeCount order))
  -- work with the lowest page of the pair, and stamp its higher buddy
  let page := pageFromPfn ((s.pages page).pfn &&& not32 (2 ^ order))
  let (p, s) := buddyGet s page order
  (page, s.setOrder p order)

/-- The loop of `buddy_merge_block`, `d` being the number of orders left below `ORDER_MAX`:
    the block and the order at which it stops. -/
def mergeLoop : ℕ → ℕ → ℕ → BuddyAllocator → ℕ × ℕ × BuddyAllocator
  | 0, page, order, s => (page, order, s)
  | d + 1, page, order, s =>
    let (buddy, s) := buddyGet s page order
    if (s.pages buddy).order ≠ order then (page, order, s)
    else if testFlag (s.pages buddy).flags pfInvalid then (page, order, s)
    else
      let (page, s) := mergeBody s page order buddy
      mergeLoop d page (order + 1) s

/-- `buddy_merge_block`. -/
def buddyMergeBlock (s : BuddyAllocator) (page order : ℕ) : BuddyAllocator :=
  let (page, order, s) := mergeLoop (orderMax - order) page order s
  buddyAddBlock s page order

/-! ### The interface -/

/-- `PAGE_INC_USES`. -/
def pageIncUses (s : BuddyAllocator) (page : ℕ) : BuddyAllocator :=
  s.setUseCount page (inc32 (s.pages page).useCount)

/-- `PAGE_DEC_USES`. -/
def pageDecUses (s : BuddyAllocator) (page : ℕ) : BuddyAllocator :=
  s.setUseCount page (dec32 (s.pages page).useCount)

/-- `page_alloc`. -/
def pageAlloc (s : BuddyAllocator) (order : ℕ) : Option ℕ × BuddyAllocator :=
  if orderMax < order then (none, s)
  else
    let s := if s.freeCount order = 0 then (buddySplitBlock s (order + 1)).2 else s
    if s.freeCount order = 0 then (none, s)
    else
      match pageGetLast s order with
      | some lastPage => (some lastPage, pageIncUses (buddyRemoveBlock s lastPage) lastPage)
      | none => (none, s)

/-- `page_free`; `none` is the null page pointer. -/
def pageFree (img : KernelImage) (s : BuddyAllocator) (page : Option ℕ) (order : ℕ) :
    Status × BuddyAllocator :=
  match page with
  | none => (.error, s)
  | some page =>
    if pageIsCritical img s page = .error then (.error, s)
    else if 1 < (s.pages page).useCount then (.success, pageDecUses s page)
    else (.success, pageDecUses (buddyMergeBlock (s.setOrder page order) page order) page)

/-- `page_initial_free`. -/
def pageInitialFree (s : BuddyAllocator) (page : ℕ) : BuddyAllocator :=
  buddyMergeBlock s page 0

/-- How a page first reaches the allocator (the loop body of `bootmem_mark_free`): clear its
    `PF_INVALID` flag, then `page_initial_free`. -/
def releasePage (s : BuddyAllocator) (page : ℕ) : BuddyAllocator :=
  pageInitialFree (s.setFlags page (clearFlag (s.pages page).flags pfInvalid)) page

/-! ### Initialisation -/

/-- What the memory behind `page_area` holds, read as page structs. -/
structure PastEnd where
  page : ℕ → Page
  node : ℕ → ListNode BuddyNode

/-- The page struct `buddy_init` writes at index `i`. -/
def initialPage (img : KernelImage) (pageAreaEnd i : ℕ) : Page :=
  let flags := setFlag 0 pfInvalid
  let flags := if pfnToPa i < lowmemPlimit then setFlag flags pfZoneLowmem
    else setFlag flags pfZoneHighmem
  -- the upper bound is the virtual end of the page array
  let flags := if img.physStart ≤ pfnToPa i ∧ pfnToPa i < pageAreaEnd then setFlag flags pfKernel
    else flags
  ⟨i, 0, flags, 0⟩

/-- The allocator after `buddy_init` has placed `page_count` structs at `pageArea`. -/
def initialAllocator (img : KernelImage) (past : PastEnd) (pageArea pageCount : ℕ) :
    BuddyAllocator where
  pageArea := pageArea
  pageCount := pageCount
  pages i := if i < pageCount then initialPage img (u32 (pageArea + sizeofPage * pageCount)) i
    else past.page i
  freeCount _ := 0
  nodes
    | .freePages k => ⟨some (.freePages k), some (.freePages k)⟩
    | .buddyNode i => if i < pageCount then ⟨some (.buddyNode i), some (.buddyNode i)⟩
      else past.node i
  indexed := []

/-- `buddy_init`: `none` when `bootmem_alloc` has no room for the page structs and the kernel
    panics. -/
def buddyInit (img : KernelImage) (past : PastEnd) (bm : Bootmem) (highestPfn : ℕ) :
    Option (BuddyAllocator × Bootmem) :=
  let pageCount := highestPfn
  let bytesReq := u32 (pageCount * sizeofPage)
  let (pageArea, bm) := bootmemAlloc bm bytesReq bmNoAlign
  if pageArea = 0 then none
  else some (initialAllocator img past pageArea pageCount, bm)

end Rotary
