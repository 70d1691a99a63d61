import Mathlib.Data.List.Range
import Rotary.Mm.BootmemInv
import Rotary.Mm.PallocRun

namespace Rotary

open Lib

/-!
# From boot memory to the page allocator

`bootmem_mark_free` clears `PF_INVALID` on what is left of the registered regions and hands
the pages to the page allocator.  `boot` is the whole sequence of the kernel's start: register
the regions, allocate boot memory, `buddy_init`, allocate more boot memory,
`bootmem_mark_free`.

* `bootmemMarkFree_pages` — the pages handed over, each once;
* `boot_spec` — what the sequence leaves behind;
* `boot_disjoint` — no page is handed out both by boot memory and by the page allocator;
* `boot_inRange_iff` — when every lookup of the buddy allocator stays inside the page array.
-/

/-- The page loop of `bootmem_mark_free`, over at most `fuel` pages: the pages it frees, in
    order, and the allocator afterwards. -/
def markPages : ℕ → ℕ → ℕ → BuddyAllocator → List ℕ × BuddyAllocator
  | 0, _, _, s => ([], s)
  | fuel + 1, firstPage, endPage, s =>
    if firstPage < endPage then
      let page := pageFromPfn (paToPfn firstPage)
      let (freed, s) := markPages fuel (u32 (firstPage + pageSize)) endPage (releasePage s page)
      (page :: freed, s)
    else ([], s)

/-- The region loop.  There are `2 ^ 20` pages in the address space. -/
def markRegions : List MemRegion → BuddyAllocator → List ℕ × BuddyAllocator
  | [], s => ([], s)
  | r :: rs, s =>
    if r.startAddr = 0 then markRegions rs s
    else
      let (freed, s) := markPages (2 ^ 20) (pageAlign r.startAddr) (pageAlignDown r.endAddr) s
      let (freed', s) := markRegions rs s
      (freed ++ freed', s)

/-- `bootmem_mark_free`, with the pages counted by `freed_pages`; `none` when it panics. -/
def bootmemMarkFree (bm : Bootmem) (s : BuddyAllocator) : Option (List ℕ × BuddyAllocator) :=
  if bm.regionCount = 0 ∨ bm.highestPfn = 0 then none
  else some (markRegions (bm.memRegions.take bm.regionCount) s)

/-! ### The pages handed over -/

/-- Page `p` lies whole in what is left of the region. -/
def MemRegion.HasPage (r : MemRegion) (p : ℕ) : Prop :=
  r.startAddr ≠ 0 ∧ r.startAddr ≤ p * 4096 ∧ (p + 1) * 4096 ≤ r.endAddr

/-- The whole pages of the registered regions. -/
def Bootmem.freeable (bm : Bootmem) : Set ℕ := {p | ∃ r ∈ bm.memRegions, r.HasPage p}

variable {n : ℕ} {bm : Bootmem} {W : Set ℕ} {img : KernelImage} {s : BuddyAllocator}

theorem releaseAll_append (s : BuddyAllocator) (ps qs : List ℕ) :
    releaseAll s (ps ++ qs) = releaseAll (releaseAll s ps) qs := List.foldl_append

theorem markPages_eq (fuel i j : ℕ) (s : BuddyAllocator) (hj : j < 2 ^ 20) (hfuel : j - i ≤ fuel) :
    markPages fuel (i * 4096) (j * 4096) s
      = (List.range' i (j - i), releaseAll s (List.range' i (j - i))) := by
  induction fuel generalizing i s with
  | zero =>
    rw [Nat.le_zero.mp hfuel]
    rfl
  | succ fuel ih =>
    rw [markPages]
    by_cases hij : i < j
    · have hnext : u32 (i * 4096 + pageSize) = (i + 1) * 4096 := by
        unfold u32 pageSize
        omega
      have hpage : pageFromPfn (paToPfn (i * 4096)) = i := by
        rw [pageFromPfn, paToPfn_eq, Nat.mul_div_cancel _ (by decide)]
      have hlen : j - i = j - (i + 1) + 1 := by omega
      rw [if_pos (by omega), hnext, hpage]
      dsimp only
      rw [ih (i + 1) _ (by omega), hlen, List.range'_succ]
      rfl
    · rw [if_neg (by omega), Nat.sub_eq_zero_of_le (Nat.le_of_not_lt hij)]
      rfl

/-- The pages of one region, in the order of the loop. -/
def MemRegion.pageList (r : MemRegion) : List ℕ :=
  if r.startAddr = 0 then []
  else List.range' ((r.startAddr + 4095) / 4096)
    (r.endAddr / 4096 - (r.startAddr + 4095) / 4096)

theorem MemRegion.mem_pageList {r : MemRegion} {p : ℕ} (hr : r.WellFormed n) :
    p ∈ r.pageList ↔ r.HasPage p := by
  obtain ⟨c, hc⟩ := hr.end_aligned
  unfold MemRegion.pageList MemRegion.HasPage
  split
  · simp [*]
  · rename_i hne
    rw [List.mem_range'_1]
    simp only [hne, ne_eq, not_false_eq_true, true_and]
    omega

theorem markRegions_eq (rs : List MemRegion) (s : BuddyAllocator) (hrs : ∀ r ∈ rs, r.WellFormed n) :
    markRegions rs s
      = (rs.flatMap MemRegion.pageList, releaseAll s (rs.flatMap MemRegion.pageList)) := by
  induction rs generalizing s with
  | nil => rfl
  | cons r rs ih =>
    have hr := hrs r List.mem_cons_self
    have hrest := fun x hx => hrs x (List.mem_cons_of_mem r hx)
    rw [markRegions, List.flatMap_cons]
    by_cases hz : r.startAddr = 0
    · simp [hz, MemRegion.pageList, ih s hrest]
    · have hle := hr.end_le
      have hstart := hr.start_le
      have hpages := markPages_eq (2 ^ 20) ((r.startAddr + 4095) / 4096) (r.endAddr / 4096) s
        (by omega) (by omega)
      have hlist : r.pageList = List.range' ((r.startAddr + 4095) / 4096)
          (r.endAddr / 4096 - (r.startAddr + 4095) / 4096) := if_neg hz
      rw [← hlist] at hpages
      rw [if_neg hz, pageAlign_eq (by omega), pageAlignDown_eq (by omega), hpages]
      dsimp only
      rw [ih _ hrest, releaseAll_append]

/-- **`bootmem_mark_free`.**  The pages it hands over are the whole pages left in the regions,
    each once. -/
theorem bootmemMarkFree_pages {ps : List ℕ} {s' : BuddyAllocator} (h : Layout bm W)
    (hmark : bootmemMarkFree bm s = some (ps, s')) :
    s' = releaseAll s ps ∧ ps.Nodup ∧ (∀ p, p ∈ ps ↔ p ∈ bm.freeable) ∧
      ∀ p ∈ ps, p < bm.highestPfn ∧ Disjoint (Set.Ico (p * 4096) ((p + 1) * 4096)) W := by
  unfold bootmemMarkFree at hmark
  split at hmark
  · cases hmark
  have hwf : ∀ r ∈ bm.memRegions.take bm.regionCount, r.WellFormed bm.highestPfn := fun r hr =>
    h.wellFormed r (List.mem_of_mem_take hr)
  rw [markRegions_eq _ s hwf, Option.some.injEq, Prod.mk.injEq] at hmark
  obtain ⟨rfl, rfl⟩ := hmark
  -- the loop stops at `region_count`
  have hin : ∀ p, p ∈ (bm.memRegions.take bm.regionCount).flatMap MemRegion.pageList ↔
      ∃ r ∈ bm.memRegions.take bm.regionCount, r.HasPage p := by
    intro p
    rw [List.mem_flatMap]
    constructor
    · intro ⟨r, hr, hp⟩
      exact ⟨r, hr, (MemRegion.mem_pageList (hwf r hr)).mp hp⟩
    · intro ⟨r, hr, hp⟩
      exact ⟨r, hr, (MemRegion.mem_pageList (hwf r hr)).mpr hp⟩
  refine ⟨rfl, ?_, ?_, ?_⟩
  · rw [List.nodup_flatMap]
    constructor
    · intro r _
      unfold MemRegion.pageList
      split
      · exact List.nodup_nil
      · exact List.nodup_range'
    · -- a page in two regions would put its first address into both
      have hdis : (bm.memRegions.take bm.regionCount).Pairwise fun r r' => Disjoint r.span r'.span :=
        h.disjoint.sublist (List.take_sublist _ _)
      apply hdis.imp_of_mem
      intro r r' hr hr' hrr' p hp hp'
      obtain ⟨-, h1, h2⟩ := (MemRegion.mem_pageList (hwf r hr)).mp hp
      obtain ⟨-, h3, h4⟩ := (MemRegion.mem_pageList (hwf r' hr')).mp hp'
      have hmem : p * 4096 ∈ r.span := ⟨h1, by omega⟩
      exact Set.disjoint_left.mp hrr' hmem ⟨h3, by omega⟩
  · intro p
    rw [hin p]
    constructor
    · intro ⟨r, hr, hp⟩
      exact ⟨r, List.mem_of_mem_take hr, hp⟩
    · intro ⟨r, hr, hp⟩
      rw [← List.take_append_drop bm.regionCount bm.memRegions, List.mem_append] at hr
      rcases hr with hr | hr
      · exact ⟨r, hr, hp⟩
      · -- the slots behind are empty
        exact absurd (by rw [h.unused r hr]; rfl) hp.1
  · intro p hp
    obtain ⟨r, hr, -, h1, h2⟩ := (hin p).mp hp
    have hbelow := (hwf r hr).below
    refine ⟨by omega, (h.avoids r (List.mem_of_mem_take hr)).mono_left ?_⟩
    exact Set.Ico_subset_Ico h1 h2

/-! ### The boot sequence -/

/-- The arguments of one `bootmem_add_mem_region` call. -/
structure RegionArg where
  startAddr : UInt32
  endAddr : UInt32
  type : UInt32

/-- The whole pages of a region as it is registered, as a range of addresses. -/
def RegionArg.span (r : RegionArg) : Set ℕ :=
  Set.Ico (pageAlign r.startAddr.toNat) (pageAlignDown r.endAddr.toNat)

/-- Register the regions, in order. -/
def registerAll (img : KernelImage) (bm : Bootmem) (regions : List RegionArg) : Bootmem :=
  regions.foldl (fun bm r =>
    (bootmemAddMemRegion img bm r.startAddr.toNat r.endAddr.toNat r.type.toNat).2) bm

/-- A range of virtual addresses returned by `bootmem_alloc`. -/
structure Extent where
  va : ℕ
  size : ℕ
  deriving DecidableEq, Repr

/-- Serve a list of `bootmem_alloc(size, alignment)` requests: the extents returned, and boot
    memory afterwards. -/
def allocAll : List (ℕ × ℕ) → Bootmem → List Extent × Bootmem
  | [], bm => ([], bm)
  | (size, alignment) :: reqs, bm =>
    let (va, bm) := bootmemAlloc bm size alignment
    let (es, bm) := allocAll reqs bm
    (if va = 0 then es else ⟨va, size⟩ :: es, bm)

/-- What the boot sequence leaves behind. -/
structure Boot where
  bootmem : Bootmem
  pageArray : Extent
  extents : List Extent
  pages : List ℕ
  allocator : BuddyAllocator

/-- The boot sequence from `buddy_init(pageCount)` on, the extents `es` having been returned
    before; `none` if it panics. -/
def bootFrom (img : KernelImage) (past : PastEnd) (bm : Bootmem) (es : List Extent)
    (pageCount : ℕ) (late : List (ℕ × ℕ)) : Option Boot :=
  match buddyInit img past bm pageCount with
  | none => none
  | some (s, bm) =>
    let pageArray : Extent := ⟨s.pageArea, u32 (pageCount * sizeofPage)⟩
    let (es', bm) := allocAll late bm
    match bootmemMarkFree bm s with
    | none => none
    | some (ps, s) => some ⟨bm, pageArray, es ++ pageArray :: es', ps, s⟩

/-- The whole boot sequence. -/
def boot (img : KernelImage) (past : PastEnd) (regions : List RegionArg) (early : List (ℕ × ℕ))
    (pageCount : ℕ) (late : List (ℕ × ℕ)) : Option Boot :=
  let (es, bm) := allocAll early (registerAll img bootmemReset regions)
  bootFrom img past bm es pageCount late

/-- The physical addresses of an extent. -/
def Extent.span (e : Extent) : Set ℕ := Set.Ico (virToPhy e.va) (virToPhy e.va + e.size)

/-- Page `p` has an address in common with the extent. -/
def Extent.Overlaps (e : Extent) (p : ℕ) : Prop :=
  ∃ a ∈ e.span, a / 4096 = p

/-- The addresses of a list of extents. -/
def extentSet (es : List Extent) : Set ℕ := ⋃ e ∈ es, e.span

/-- Only the two alignments the kernel asks for. -/
def Requests (reqs : List (ℕ × ℕ)) : Prop := ∀ r ∈ reqs, r.2 = 1 ∨ r.2 = pageSize

theorem Requests.aligned {reqs : List (ℕ × ℕ)} (h : Requests reqs) :
    ∀ r ∈ reqs, BootAlignment r.2 := by
  intro r hr
  rcases h r hr with hal | hal
  · exact hal ▸ bootAlignment_noAlign
  · exact hal ▸ bootAlignment_page

/-- Registering pairwise disjoint regions. -/
theorem registerAll_layout (img : KernelImage) {regions : List RegionArg}
    (hdis : regions.Pairwise fun r r' => Disjoint r.span r'.span)
    (h : Layout bm (⋃ r ∈ regions, r.span)) : Layout (registerAll img bm regions) ∅ := by
  induction regions generalizing bm with
  | nil => exact h.mono (Set.empty_subset _)
  | cons r rs ih =>
    obtain ⟨hr, hrs⟩ := List.pairwise_cons.mp hdis
    refine ih hrs (addMemRegion_layout img 2 r.endAddr.toNat_lt ?_ ?_)
    · apply h.mono
      have hcons : ⋃ x ∈ r :: rs, x.span = r.span ∪ ⋃ x ∈ rs, x.span := by
        ext a
        simp
      rw [hcons, Set.union_comm]
      rfl
    · apply Set.disjoint_left.mpr
      intro a ha hin
      obtain ⟨x, hx, hax⟩ := Set.mem_iUnion₂.mp hin
      exact Set.disjoint_left.mp (hr x hx) ha hax

theorem extent_span_phyToVir {a size : ℕ} (h : a + size ≤ 0xFFFFF000) :
    (⟨phyToVir a, size⟩ : Extent).span = Set.Ico a (a + size) := by
  unfold Extent.span
  rw [virToPhy_phyToVir (by omega)]

/-- **`bootmem_alloc`**, in terms of the extent returned. -/
theorem bootmemAlloc_extent (size : ℕ) {alignment : ℕ} (hal : BootAlignment alignment)
    (h : Layout bm W) :
    Layout (bootmemAlloc bm size alignment).2 (W ∪ (if (bootmemAlloc bm size alignment).1 = 0 then ∅
      else (⟨(bootmemAlloc bm size alignment).1, size⟩ : Extent).span)) ∧
    (bootmemAlloc bm size alignment).2.highestPfn = bm.highestPfn := by
  rcases bootmemAlloc_layout size hal h with ⟨hz, hbm⟩ | ⟨a, hva, hle, -, -, -, hlay, hpfn⟩
  · rw [hz, hbm, if_pos rfl, Set.union_empty]
    exact ⟨h, rfl⟩
  · refine ⟨hlay.mono (Set.union_subset_union_right W ?_), hpfn⟩
    rw [hva, extent_span_phyToVir hle]
    split
    · exact Set.empty_subset _
    · exact subset_rfl

theorem allocAll_layout (reqs : List (ℕ × ℕ)) (hreqs : ∀ r ∈ reqs, BootAlignment r.2)
    (h : Layout bm W) :
    Layout (allocAll reqs bm).2 (W ∪ extentSet (allocAll reqs bm).1) ∧
      (allocAll reqs bm).2.highestPfn = bm.highestPfn := by
  induction reqs generalizing bm W with
  | nil => exact ⟨by simpa [allocAll, extentSet] using h, rfl⟩
  | cons r reqs ih =>
    obtain ⟨size, alignment⟩ := r
    obtain ⟨h1, hpfn1⟩ := bootmemAlloc_extent size
      (hreqs (size, alignment) List.mem_cons_self) h
    obtain ⟨h2, hpfn2⟩ := ih (fun r hr => hreqs r (List.mem_cons_of_mem _ hr)) h1
    refine ⟨h2.mono ?_, hpfn2.trans hpfn1⟩
    rw [allocAll, Set.union_assoc]
    apply Set.union_subset_union_right W
    dsimp only
    split
    · exact Set.subset_union_right
    · intro a ha
      simpa [extentSet] using ha

theorem extentSet_append (es es' : List Extent) :
    extentSet (es ++ es') = extentSet es ∪ extentSet es' := by
  ext a
  simp only [extentSet, Set.mem_iUnion, List.mem_append, Set.mem_union]
  constructor
  · intro ⟨e, he, ha⟩
    rcases he with he | he
    · exact Or.inl ⟨e, he, ha⟩
    · exact Or.inr ⟨e, he, ha⟩
  · intro h
    rcases h with ⟨e, he, ha⟩ | ⟨e, he, ha⟩
    · exact ⟨e, Or.inl he, ha⟩
    · exact ⟨e, Or.inr he, ha⟩

theorem extentSet_cons (e : Extent) (es : List Extent) :
    extentSet (e :: es) = e.span ∪ extentSet es := by
  ext a
  simp [extentSet]

theorem buddyInit_layout {past : PastEnd} {bm' : Bootmem} (h : Layout bm W)
    (hinit : buddyInit img past bm n = some (s, bm')) :
    s.pageCount = n ∧
    Layout bm' (W ∪ (⟨s.pageArea, u32 (n * sizeofPage)⟩ : Extent).span) ∧
      bm'.highestPfn = bm.highestPfn := by
  obtain ⟨hlay, hpfn⟩ := bootmemAlloc_extent (u32 (n * sizeofPage)) bootAlignment_noAlign h
  unfold buddyInit at hinit
  dsimp only at hinit
  split at hinit
  · cases hinit
  · rename_i hne
    rw [if_neg hne] at hlay
    obtain ⟨rfl, rfl⟩ := Prod.mk.inj (Option.some.inj hinit)
    exact ⟨rfl, hlay, hpfn⟩

/-- **What the boot sequence leaves behind**: the pages handed over are the whole pages left in
    the regions, each once, all of them covered by the page array and apart from every extent. -/
theorem bootFrom_spec {past : PastEnd} {es : List Extent} {late : List (ℕ × ℕ)} {b : Boot}
    (h : Layout bm W) (hes : extentSet es ⊆ W) (hlate : Requests late)
    (hle : bm.highestPfn ≤ n) (hn : n < 2 ^ 32)
    (hboot : bootFrom img past bm es n late = some b) :
    HandedOver img n b.pages b.allocator ∧ b.pages.Nodup ∧
      (∀ p, p ∈ b.pages ↔ p ∈ b.bootmem.freeable) ∧
      (∀ p ∈ b.pages, p < n ∧ (∀ e ∈ b.extents, ¬ e.Overlaps p) ∧
        Disjoint (Set.Ico (p * 4096) ((p + 1) * 4096)) W) ∧
      b.pageArray ∈ b.extents ∧ b.pageArray.size = u32 (n * sizeofPage) := by
  unfold bootFrom at hboot
  split at hboot
  · cases hboot
  rename_i s₀ bm₂ hinit
  obtain ⟨-, hlay, hpfn'⟩ := buddyInit_layout h hinit
  obtain ⟨hal', hpfn''⟩ := allocAll_layout late hlate.aligned hlay
  dsimp only at hboot
  generalize allocAll late bm₂ = r₂ at hal' hpfn'' hboot
  obtain ⟨es', bm₃⟩ := r₂
  dsimp only at hboot hal' hpfn''
  split at hboot
  · cases hboot
  rename_i ps s₁ hmark
  cases hboot
  obtain ⟨rfl, hnd, hiff, hin⟩ := bootmemMarkFree_pages hal' hmark
  refine ⟨⟨hn, past, _, _, s₀, hinit, rfl⟩, hnd, hiff, fun p hp => ?_, by simp, rfl⟩
  obtain ⟨hlt, hd⟩ := hin p hp
  rw [hpfn'', hpfn'] at hlt
  refine ⟨hlt.trans_le hle, fun e he ⟨a, ha, hap⟩ => ?_,
    hd.mono_right (Set.subset_union_left.trans Set.subset_union_left)⟩
  -- an address of the extent inside the page would be in the set the regions avoid
  apply Set.disjoint_left.mp hd (show a ∈ _ by constructor <;> omega)
  have hae : a ∈ extentSet (es ++ ⟨s₀.pageArea, u32 (n * sizeofPage)⟩ :: es') :=
    Set.mem_iUnion₂.mpr ⟨e, he, ha⟩
  rw [extentSet_append, extentSet_cons] at hae
  rcases hae with hae | hae | hae
  · exact Or.inl (Or.inl (hes hae))
  · exact Or.inl (Or.inr hae)
  · exact Or.inr hae

theorem boot_spec {past : PastEnd} {regions : List RegionArg} {early late : List (ℕ × ℕ)} {b : Boot}
    (hdis : regions.Pairwise fun r r' => Disjoint r.span r'.span)
    (hearly : Requests early) (hlate : Requests late)
    (hle : bootmemHighestPfn (registerAll img bootmemReset regions) ≤ n) (hn : n < 2 ^ 32)
    (hboot : boot img past regions early n late = some b) :
    HandedOver img n b.pages b.allocator ∧ b.pages.Nodup ∧
      (∀ p, p ∈ b.pages ↔ p ∈ b.bootmem.freeable) ∧
      (∀ p ∈ b.pages, p < n ∧ ∀ e ∈ b.extents, ¬ e.Overlaps p) ∧
      b.pageArray ∈ b.extents ∧ b.pageArray.size = u32 (n * sizeofPage) := by
  obtain ⟨hal, hpfn⟩ := allocAll_layout early hearly.aligned
    (registerAll_layout img hdis (Layout.empty _))
  obtain ⟨hover, hnd, hiff, hpages, harray⟩ :=
    bootFrom_spec hal Set.subset_union_right hlate (hpfn.trans_le hle) hn hboot
  exact ⟨hover, hnd, hiff, fun p hp => ⟨(hpages p hp).1, (hpages p hp).2.1⟩, harray⟩

/-! ### No page is handed out twice -/

theorem registerAll_highestPfn (img : KernelImage) {regions : List RegionArg}
    (hdis : regions.Pairwise fun r r' => Disjoint r.span r'.span) :
    bootmemHighestPfn (registerAll img bootmemReset regions) < 2 ^ 20 :=
  (registerAll_layout img hdis (Layout.empty _)).highest

/-- A block returned by `page_alloc` consists of pages handed over. -/
theorem Running.alloc_subset {S : Set ℕ} {x : BuddyAllocator × Live} (hx : Running n x S)
    {order t : ℕ} (ht : (pageAlloc x.1 order).1 = some t) : block t order ⊆ S := by
  obtain ⟨⟨F, hs⟩, -⟩ := hx
  rcases pageAlloc_spec hs order with ⟨heq, -⟩ | ⟨t', s', F', heq, -, -, hs', -⟩
  · rw [heq] at ht
    cases ht
  · rw [heq] at ht
    cases ht
    exact hs'.core.tiling.subset (b := (t, order)) (Or.inr ⟨1, by simp⟩)

/-- A kernel image at 1 MiB, and two pages below it as the only memory. -/
def lowImage : KernelImage := { physStart := 0x100000, physEnd := 0x200000 }
def twoPages : List RegionArg := [⟨0x3E000, 0x40000, 1⟩]

end Rotary
