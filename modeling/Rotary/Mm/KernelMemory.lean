import Rotary.Mm.Kmalloc
import Rotary.Mm.Vm

namespace Rotary

open Lib

/-!
# The heap and the page allocator together

`kmalloc` takes its slabs from `page_alloc`, so that the two allocators share the pages: a page is
free, or in a slab, or in a block that was handed to somebody else.

* `kmallocMem` / `kfreeMem` / `pageFreeVaMem` — the calls on both allocators at once;
* `liveObjects`, `slabFrames`, `allocatedPages` — what memory and the free lists say is in use;
* `KernelMemory.Inv` — the slabs lie in blocks of their own, and the objects `O` and the blocks
  `B` are what clients hold;
* one lemma for each call: what it does to `O` and `B`;
* `MemRun.inv` — the invariant holds in every run of kernel code on the two allocators.

A page is used through `PAGE_VA`, so that a fresh block outside the direct map faults at the first
store; `none` stands for the fault.
-/

/-- The heap, the frames that page tables are in, and the page allocator. -/
structure KernelMemory where
  heap : KernelHeap
  frames : PhysMem
  buddy : BuddyAllocator

/-- The pages of the direct map: `(KMAP_START_VIRT - KERNEL_START_VIRT) / PAGE_SIZE`. -/
def directMapPages : ℕ := (kmapStartVirt - kernelStartVirt) / pageSize

/-- A store through `PAGE_VA` to any page of the block finds its page. -/
def addressable (t order : ℕ) : Bool := decide (t + 2 ^ order ≤ directMapPages)

/-! ### The calls -/

/-- `slab_malloc` goes to `page_alloc` when no slab of the cache has a free object. -/
def KernelHeap.asks (k : KernelHeap) (size : ℕ) : Bool :=
  match k.acceptable size with
  | none => false
  | some i =>
    match slabAllocFromCache k.mem (k.slabCaches i) with
    | some (object, _) => decide (object = 0)
    | none => false

/-- `kmalloc`, with the block it takes from the page allocator. -/
def kmallocMem (M : KernelMemory) (size : ℕ) : Option (ℕ × KernelMemory) :=
  if M.heap.asks size then
    match pageAlloc M.buddy slabDefaultOrder with
    | (none, b) => (kmalloc M.heap size none).map fun (x, k) => (x, { M with heap := k, buddy := b })
    | (some t, b) =>
      -- the header of the new slab is stored through `PAGE_VA`
      if addressable t slabDefaultOrder then
        (kmalloc M.heap size (some t)).map fun (x, k) => (x, { M with heap := k, buddy := b })
      else none
  else (kmalloc M.heap size none).map fun (x, k) => (x, { M with heap := k })

/-- `kfree`. -/
def kfreeMem (M : KernelMemory) (p : ℕ) : Option KernelMemory :=
  (kfree M.heap p).map fun (_, k) => { M with heap := k }

/-- `page_free_va`. -/
def pageFreeVaMem (img : KernelImage) (M : KernelMemory) (va order : ℕ) : KernelMemory :=
  { M with buddy := (pageFree img M.buddy (some (pageFromPfn (paToPfn (virToPhy va)))) order).2 }

/-! ### What is in use -/

/-- The objects of the heap that are not on a free list. -/
def liveObjects (k : KernelHeap) : Set ℕ :=
  {x | ∃ i, ∃ h ∈ slabList k.mem (k.slabCaches i),
    IsSlot (k.slabCaches i).objectSize h x ∧ x ∉ slabFreeList k.mem h}

/-- The first page of the block of each slab. -/
def slabBlocks (k : KernelHeap) : List ℕ := k.slabs.map fun h => paToPfn (virToPhy h)

/-- The pages of the slabs. -/
def slabFrames (k : KernelHeap) : Set ℕ := {p | ∃ t ∈ slabBlocks k, p ∈ block t slabDefaultOrder}

/-- The pages `ps`, less the free ones and those of slabs. -/
def allocatedPages (ps : Set ℕ) (M : KernelMemory) : Set ℕ :=
  (ps \ freePages M.buddy) \ slabFrames M.heap

/-! ### The invariant -/

/-- The blocks handed out: those of the slabs, and the blocks `B` of everybody else. -/
def Live.withSlabs (B : Live) (ts : List ℕ) : Live := fun p =>
  if p ∈ ts then some ⟨slabDefaultOrder, 1⟩ else B p

/-- The memory as its clients see it: the objects `O` and the blocks `B` are theirs. -/
structure KernelMemory.Inv (n : ℕ) (S : Set ℕ) (M : KernelMemory) (O : Set ℕ) (B : Live) : Prop where
  heap : ∃ slabs, M.heap.Inv slabs
  objects : O = liveObjects M.heap
  running : Running n (M.buddy, B.withSlabs (slabBlocks M.heap)) S
  placed : ∀ h ∈ M.heap.slabs, ∃ t, h = pageVa t ∧ t + 2 ^ slabDefaultOrder ≤ directMapPages
  apart : ∀ t ∈ slabBlocks M.heap, B t = none

variable {n size x p t order : ℕ} {S O O' : Set ℕ} {M M' : KernelMemory} {B : Live}
  {k k' : KernelHeap} {slabs slabs' : Fin 13 → List Slab} {img : KernelImage} {i : Fin 13}
  {ts : List ℕ}

/-! ### Addresses of blocks -/

theorem directMapPages_eq : directMapPages = 0x30000 := by decide

theorem pfnToPa_of_lt (h : t < directMapPages) : pfnToPa t = t * 4096 := by
  rw [directMapPages_eq] at h
  exact u32_of_lt (by unfold pageSize; omega)

theorem pageVa_eq (h : t < directMapPages) : pageVa t = t * 4096 + kernelStartVirt := by
  have hpa := pfnToPa_of_lt h
  rw [directMapPages_eq] at h
  unfold pageVa phyToVir kernelStartVirt
  rw [hpa, u32_of_lt (by omega)]

/-- The page behind an address of the direct map. -/
theorem paToPfn_pageVa (h : t < directMapPages) : paToPfn (virToPhy (pageVa t)) = t := by
  have hpa := pfnToPa_of_lt h
  rw [directMapPages_eq] at h
  unfold pageVa
  rw [virToPhy_phyToVir (by omega), hpa, paToPfn_eq, Nat.mul_div_cancel _ (by decide)]

theorem KernelMemory.Inv.slab_mem (h : M.Inv n S O B) {b : ℕ} (hb : b ∈ M.heap.slabs) :
    ∃ t ∈ slabBlocks M.heap, b = pageVa t ∧ t + 2 ^ slabDefaultOrder ≤ directMapPages := by
  obtain ⟨t, hbt, ht⟩ := h.placed b hb
  have hlt : t < directMapPages := Nat.lt_of_lt_of_le (Nat.lt_add_of_pos_right (by decide)) ht
  have hpage : paToPfn (virToPhy b) = t := by rw [hbt, paToPfn_pageVa hlt]
  exact ⟨t, List.mem_map.mpr ⟨b, hb, hpage⟩, hbt, ht⟩

/-! ### The objects in use -/

theorem KernelHeap.Inv.liveObjects_eq (h : k.Inv slabs) :
    liveObjects k = {x | ∃ i, x ∈ liveSlots (slabCacheSizes i) (slabs i)} := by
  ext x
  constructor
  · rintro ⟨i, b, hb, hslot, hnot⟩
    rw [(h.cacheAt i).slabList_eq] at hb
    obtain ⟨s, hs, rfl⟩ := List.mem_map.mp hb
    rw [((h.cacheAt i).slab s hs).slabFreeList_eq] at hnot
    rw [h.size i] at hslot
    exact ⟨i, s, hs, hslot, hnot⟩
  · rintro ⟨i, s, hs, hslot, hnot⟩
    refine ⟨i, s.base, ?_, ?_, ?_⟩
    · rw [(h.cacheAt i).slabList_eq]
      exact List.mem_map_of_mem hs
    · rw [h.size i]
      exact hslot
    · rw [((h.cacheAt i).slab s hs).slabFreeList_eq]
      exact hnot

/-- The objects after the slabs of one cache have changed. -/
theorem liveObjects_update {ss : List Slab} (h' : k'.Inv (Function.update slabs i ss))
    {A : Set ℕ} (hA : liveSlots (slabCacheSizes i) ss = A) :
    liveObjects k' = A ∪ {x | ∃ j, j ≠ i ∧ x ∈ liveSlots (slabCacheSizes j) (slabs j)} := by
  rw [h'.liveObjects_eq]
  ext x
  constructor
  · rintro ⟨j, hj⟩
    by_cases hji : j = i
    · subst hji
      rw [Function.update_self, hA] at hj
      exact Or.inl hj
    · rw [Function.update_of_ne hji] at hj
      exact Or.inr ⟨j, hji, hj⟩
  · rintro (hx | ⟨j, hji, hj⟩)
    · refine ⟨i, ?_⟩
      rw [Function.update_self, hA]
      exact hx
    · refine ⟨j, ?_⟩
      rw [Function.update_of_ne hji]
      exact hj

/-- `kmalloc` puts at most one block into the caches: the one it was given. -/
theorem Served.bases {z : ℕ} {ss ss' : List Slab} {newPage : Option ℕ}
    (h : Served z ss newPage ss' x) (hfull : ∀ p ∈ newPage, ∀ s ∈ ss, s.free = []) (b : ℕ) :
    (∃ s ∈ ss', s.base = b) ↔ (∃ s ∈ ss, s.base = b) ∨ ∃ p ∈ newPage, b = pageVa p := by
  cases h with
  | reused pre post base x rest newPage =>
    have hnone : newPage = none := by
      cases newPage with
      | none => rfl
      | some p =>
        have hempty := hfull p rfl ⟨base, x :: rest⟩ (by simp)
        cases hempty
    subst hnone
    simp only [List.mem_append, List.mem_cons, or_and_right, exists_or, exists_eq_left,
      reduceCtorEq, Option.mem_def, false_and, exists_false, or_false]
  | grown _ hfull' page x rest hslots =>
    simp only [List.mem_append, List.mem_singleton, or_and_right, exists_or, exists_eq_left,
      Option.mem_def, Option.some.injEq, exists_eq_left', eq_comm]
  | refused _ hfull' => simp

/-- When `kmalloc` goes to `page_alloc`, every slab of its cache is full. -/
theorem KernelHeap.Inv.asks_full (h : k.Inv slabs) (hask : k.asks size = true) :
    ∃ i, cacheFor size = some i ∧ ∀ s ∈ slabs i, s.free = [] := by
  unfold KernelHeap.asks at hask
  rw [h.acceptable_eq] at hask
  cases hi : cacheFor size with
  | none => simp [hi] at hask
  | some i =>
    refine ⟨i, rfl, ?_⟩
    rcases slabAllocFromCache_spec (h.cacheAt i) (h.size_ge i) with
      ⟨hfull, -⟩ | ⟨pre, base, y, rest, post, m', heq, hcall, -, -⟩
    · exact hfull
    · -- a free object is not at address 0
      have hc := h.cacheAt i
      rw [heq] at hc
      simp [hi, hcall, hc.head_ne_zero] at hask

theorem KernelHeap.Inv.liveObjects_split (h : k.Inv slabs) (i : Fin 13) :
    liveObjects k = liveSlots (slabCacheSizes i) (slabs i) ∪
      {x | ∃ j, j ≠ i ∧ x ∈ liveSlots (slabCacheSizes j) (slabs j)} := by
  have h' : k.Inv (Function.update slabs i (slabs i)) := by
    rw [Function.update_eq_self]
    exact h
  exact liveObjects_update h' rfl

/-- **`kmalloc` over the whole heap.**  It returns null and no object becomes live, or it makes
    one more object live; the slabs are those from before, and the block it was given. -/
theorem KernelHeap.Inv.kmalloc_cases {newPage : Option ℕ} (h : k.Inv slabs)
    (hfresh : ∀ p ∈ newPage, FreshBlock k.slabs p) (hfull : ∀ p ∈ newPage, k.asks size = true)
    (hcall : kmalloc k size newPage = some (x, k')) :
    (∃ slabs', k'.Inv slabs') ∧
      (∀ b, b ∈ k'.slabs ↔ b ∈ k.slabs ∨ ∃ p ∈ newPage, b = pageVa p) ∧
      (x = 0 ∧ liveObjects k' = liveObjects k ∨
        x ≠ 0 ∧ x ∉ liveObjects k ∧ liveObjects k' = insert x (liveObjects k)) := by
  rcases kmalloc_spec h hfresh size with
    ⟨hnone, heq⟩ | ⟨i, y, m', cache', ss', hi, heq, hserved, hinv, -⟩
  · rw [hcall] at heq
    obtain ⟨rfl, rfl⟩ : x = 0 ∧ k' = k := by simpa using heq
    -- a size that no cache has asks for no block
    have hpage : newPage = none := by
      cases newPage with
      | none => rfl
      | some p =>
        obtain ⟨j, hj, -⟩ := h.asks_full (hfull p rfl)
        rw [hnone] at hj
        cases hj
    subst hpage
    exact ⟨⟨slabs, h⟩, by simp, Or.inl ⟨rfl, rfl⟩⟩
  · rw [hcall] at heq
    obtain ⟨rfl, rfl⟩ : x = y ∧ k' = _ := by simpa using heq
    -- a block is asked for only when no slab of the cache has a free object
    have hallfull : ∀ p ∈ newPage, ∀ s ∈ slabs i, s.free = [] := by
      intro p hp
      obtain ⟨j, hj, hempty⟩ := h.asks_full (hfull p hp)
      obtain rfl : j = i := Option.some.inj (hj.symm.trans hi)
      exact hempty
    have hbases := hserved.bases hallfull
    have hslots := hserved.liveSlots_eq (h.cacheAt i) (h.size i) (slabCacheSizes_ge i)
    have hbefore := h.liveObjects_split i
    refine ⟨⟨_, hinv⟩, fun b => ?_, ?_⟩
    · rw [hinv.mem_slabs, h.mem_slabs]
      constructor
      · rintro ⟨j, s, hs, hb⟩
        by_cases hj : j = i
        · subst hj
          rw [Function.update_self] at hs
          exact ((hbases b).mp ⟨s, hs, hb⟩).imp_left fun hold => ⟨j, hold⟩
        · rw [Function.update_of_ne hj] at hs
          exact Or.inl ⟨j, s, hs, hb⟩
      · rintro (⟨j, s, hs, hb⟩ | hnew)
        · by_cases hj : j = i
          · subst hj
            refine ⟨j, ?_⟩
            rw [Function.update_self]
            exact (hbases b).mpr (Or.inl ⟨s, hs, hb⟩)
          · refine ⟨j, s, ?_, hb⟩
            rwa [Function.update_of_ne hj]
        · refine ⟨i, ?_⟩
          rw [Function.update_self]
          exact (hbases b).mpr (Or.inr hnew)
    · have hafter := liveObjects_update hinv hslots
      by_cases hx : x = 0
      · rw [if_pos hx] at hafter
        exact Or.inl ⟨hx, hafter.trans hbefore.symm⟩
      · rw [if_neg hx] at hslots hafter
        refine Or.inr ⟨hx, ?_, ?_⟩
        · rw [hbefore]
          rintro (hlive | ⟨j, hj, hlive⟩)
          · exact hserved.not_live (h.cacheAt i) (h.size i) (fun p hp => h.fresh_apart hfresh p hp i)
              hlive
          · -- the object is now in a slab of cache `i`, and in one cache only
            have hnew : x ∈ liveSlots (slabCacheSizes i) (Function.update slabs i ss' i) := by
              rw [Function.update_self, hslots]
              exact Set.mem_insert x _
            have hold : x ∈ liveSlots (slabCacheSizes j) (Function.update slabs i ss' j) := by
              rwa [Function.update_of_ne hj]
            exact hj (hinv.slot_unique hold hnew)
        · rw [hafter, hbefore, Set.insert_union]

/-- **`kfree` over the whole heap**, of a live object: it succeeds, and exactly that object is no
    longer live. -/
theorem KernelHeap.Inv.kfree_cases (h : k.Inv slabs) (hx : x ∈ liveObjects k) :
    ∃ k', kfree k x = some (.success, k') ∧ (∃ slabs', k'.Inv slabs') ∧
      (∀ b, b ∈ k'.slabs ↔ b ∈ k.slabs) ∧ liveObjects k' = liveObjects k \ {x} := by
  rw [h.liveObjects_eq] at hx
  obtain ⟨i, hlive⟩ := hx
  have hbefore := h.liveObjects_split i
  obtain ⟨s, hs, hslot, hnot⟩ := hlive
  obtain ⟨m', pre, post, f', hsplit, hcall, hinv, hmem⟩ := kfree_spec h hs hslot hnot
  have hslots : liveSlots (slabCacheSizes i) (pre ++ ⟨s.base, f'⟩ :: post) =
      liveSlots (slabCacheSizes i) (slabs i) \ {x} := by
    have hc := h.cacheAt i
    rw [hsplit] at hc ⊢
    rw [← h.size i] at hslot ⊢
    exact liveSlots_free hc hslot hmem
  refine ⟨_, hcall, ⟨_, hinv⟩, fun b => ?_, ?_⟩
  · have hbases : ∀ j, (∃ t ∈ Function.update slabs i (pre ++ ⟨s.base, f'⟩ :: post) j, t.base = b) ↔
        ∃ t ∈ slabs j, t.base = b := by
      intro j
      by_cases hj : j = i
      · subst hj
        rw [Function.update_self, hsplit]
        simp only [List.mem_append, List.mem_cons, or_and_right, exists_or, exists_eq_left]
      · rw [Function.update_of_ne hj]
    rw [hinv.mem_slabs, h.mem_slabs]
    exact exists_congr hbases
  · rw [liveObjects_update hinv hslots, hbefore, Set.union_sdiff_distrib]
    congr 1
    -- no other cache has the object
    refine (Set.sdiff_singleton_eq_self ?_).symm
    rintro ⟨j, hj, hlive⟩
    exact hj (h.slot_unique hlive ⟨s, hs, hslot, hnot⟩)

/-! ### The blocks handed out -/

theorem Live.withSlabs_congr {ts' : List ℕ} (h : ∀ t, t ∈ ts ↔ t ∈ ts') :
    B.withSlabs ts = B.withSlabs ts' := by
  funext p
  simp only [Live.withSlabs, h p]

theorem Live.withSlabs_of_mem (B : Live) (h : t ∈ ts) :
    B.withSlabs ts t = some ⟨slabDefaultOrder, 1⟩ := if_pos h

theorem Live.withSlabs_of_not_mem (B : Live) (h : t ∉ ts) : B.withSlabs ts t = B t := if_neg h

theorem Live.withSlabs_none (h : B.withSlabs ts t = none) : t ∉ ts ∧ B t = none := by
  unfold Live.withSlabs at h
  split at h
  · cases h
  · exact ⟨‹_›, h⟩

/-- One more slab. -/
theorem Live.withSlabs_cons (B : Live) (t : ℕ) (ts : List ℕ) :
    B.withSlabs (t :: ts) = Function.update (B.withSlabs ts) t (some ⟨slabDefaultOrder, 1⟩) := by
  funext p
  by_cases hp : p = t
  · simp [Live.withSlabs, hp]
  · simp [Live.withSlabs, hp]

/-- A block of somebody else is entered or taken out beside the slabs. -/
theorem Live.withSlabs_update (B : Live) (h : t ∉ ts) (o : Option LiveBlock) :
    Live.withSlabs (Function.update B t o) ts = Function.update (B.withSlabs ts) t o := by
  funext p
  by_cases hp : p = t
  · subst hp
    simp [Live.withSlabs, h]
  · simp [Live.withSlabs, hp]

/-- The blocks of a slab and of a fresh block do not overlap. -/
theorem apart_of_disjoint {t' : ℕ} (ht : t + 2 ^ slabDefaultOrder ≤ directMapPages)
    (ht' : t' + 2 ^ slabDefaultOrder ≤ directMapPages)
    (hd : Disjoint (block t slabDefaultOrder) (block t' slabDefaultOrder)) :
    Apart (pageVa t) (pageVa t') := by
  have horder : 2 ^ slabDefaultOrder = 16 := rfl
  have hbytes : slabBytes = 65536 := rfl
  rw [pageVa_eq (by omega), pageVa_eq (by omega)]
  unfold Apart
  by_contra hover
  have hcommon : max t t' ∈ block t slabDefaultOrder ∧ max t t' ∈ block t' slabDefaultOrder := by
    simp only [block, Set.mem_Ico, horder]
    omega
  exact Set.disjoint_left.mp hd hcommon.1 hcommon.2

/-- A block that `page_alloc` has just taken off the free lists is fresh for the slab caches. -/
theorem KernelMemory.Inv.freshBlock (h : M.Inv n S O B)
    (hfree : block t slabDefaultOrder ⊆ freePages M.buddy)
    (ht : t + 2 ^ slabDefaultOrder ≤ directMapPages) : FreshBlock M.heap.slabs t := by
  have hva : pageVa t = t * 4096 + kernelStartVirt := pageVa_eq (by
    have horder : 2 ^ slabDefaultOrder = 16 := rfl
    omega)
  have hbound : t + 16 ≤ 0x30000 := by
    rw [directMapPages_eq] at ht
    exact ht
  refine ⟨?_, ?_, ?_⟩
  · rw [hva]
    unfold kernelStartVirt
    omega
  · have hbytes : slabBytes = 65536 := rfl
    rw [hva, hbytes]
    unfold kernelStartVirt
    omega
  · intro b hb
    obtain ⟨t', hmem, hbt, ht'⟩ := h.slab_mem hb
    rw [hbt]
    refine apart_of_disjoint ht' ht (Set.disjoint_left.mpr fun p hp hp' => ?_)
    -- the pages of a slab are not free
    have hnot := hfree hp'
    rw [h.running.freePages_eq] at hnot
    refine hnot.2 (Set.mem_iUnion₂.mpr ⟨(t', slabDefaultOrder), ⟨1, ?_⟩, hp⟩)
    exact Live.withSlabs_of_mem B hmem

theorem mem_slabBlocks_congr (h : ∀ b, b ∈ k'.slabs ↔ b ∈ k.slabs) (t : ℕ) :
    t ∈ slabBlocks k' ↔ t ∈ slabBlocks k := by
  simp only [slabBlocks, List.mem_map, h]

/-- The heap has changed, but not its slabs. -/
theorem KernelMemory.Inv.sameSlabs (h : M.Inv n S O B) (hheap : ∃ slabs, k'.Inv slabs)
    (hslabs : ∀ b, b ∈ k'.slabs ↔ b ∈ M.heap.slabs) :
    ({ M with heap := k' } : KernelMemory).Inv n S (liveObjects k') B := by
  have hblocks := mem_slabBlocks_congr hslabs
  refine ⟨hheap, rfl, ?_, fun b hb => h.placed b ((hslabs b).mp hb), fun t ht => ?_⟩
  · rw [Live.withSlabs_congr hblocks]
    exact h.running
  · exact h.apart t ((hblocks t).mp ht)

/-- The heap has got one more slab, in a block just allocated. -/
theorem KernelMemory.Inv.moreSlabs {b' : BuddyAllocator} (h : M.Inv n S O B)
    (hheap : ∃ slabs, k'.Inv slabs) (hslabs : ∀ b, b ∈ k'.slabs ↔ b ∈ M.heap.slabs ∨ b = pageVa t)
    (ht : t + 2 ^ slabDefaultOrder ≤ directMapPages)
    (hnone : B.withSlabs (slabBlocks M.heap) t = none)
    (hrun : Running n (b', Function.update (B.withSlabs (slabBlocks M.heap)) t
      (some ⟨slabDefaultOrder, 1⟩)) S) :
    ({ M with heap := k', buddy := b' } : KernelMemory).Inv n S (liveObjects k') B := by
  have hlt : t < directMapPages := Nat.lt_of_lt_of_le (Nat.lt_add_of_pos_right (by decide)) ht
  have hpage := paToPfn_pageVa hlt
  obtain ⟨-, hB⟩ := Live.withSlabs_none hnone
  -- the blocks of the heap, as the page allocator numbers them
  have hblocks : ∀ u, u ∈ slabBlocks k' ↔ u ∈ t :: slabBlocks M.heap := by
    intro u
    simp only [slabBlocks, List.mem_map, List.mem_cons]
    constructor
    · rintro ⟨b, hb, hu⟩
      rcases (hslabs b).mp hb with hold | hnew
      · exact Or.inr ⟨b, hold, hu⟩
      · rw [hnew, hpage] at hu
        exact Or.inl hu.symm
    · rintro (hu | ⟨b, hb, hu⟩)
      · exact ⟨pageVa t, (hslabs _).mpr (Or.inr rfl), hpage.trans hu.symm⟩
      · exact ⟨b, (hslabs b).mpr (Or.inl hb), hu⟩
  refine ⟨hheap, rfl, ?_, fun b hb => ?_, fun u hu => ?_⟩
  · rw [Live.withSlabs_congr hblocks, Live.withSlabs_cons]
    exact hrun
  · rcases (hslabs b).mp hb with hold | hnew
    · exact h.placed b hold
    · exact ⟨t, hnew, ht⟩
  · rcases List.mem_cons.mp ((hblocks u).mp hu) with hut | hold
    · rw [hut]
      exact hB
    · exact h.apart u hold

/-! ### The calls keep the invariant -/

/-- **`kmalloc`** returns null, or an object that was not in use. -/
theorem KernelMemory.Inv.kmallocMem (h : M.Inv n S O B)
    (hcall : Rotary.kmallocMem M size = some (x, M')) :
    M'.frames = M.frames ∧ (x = 0 ∧ M'.Inv n S O B ∨
      x ≠ 0 ∧ x ∉ O ∧ M'.Inv n S (insert x O) B) := by
  obtain ⟨slabs, hheap⟩ := h.heap
  have hO := h.objects
  -- whatever block is given, the objects follow from the heap alone
  have hobjects : ∀ {k' : KernelHeap}, (x = 0 ∧ liveObjects k' = liveObjects M.heap ∨ x ≠ 0 ∧
      x ∉ liveObjects M.heap ∧ liveObjects k' = insert x (liveObjects M.heap)) →
      ∀ {M' : KernelMemory}, M'.Inv n S (liveObjects k') B →
      (x = 0 ∧ M'.Inv n S O B ∨ x ≠ 0 ∧ x ∉ O ∧ M'.Inv n S (insert x O) B) := by
    intro k' hcases M' hinv
    rcases hcases with ⟨hx, heq⟩ | ⟨hx, hnot, heq⟩
    · rw [heq, ← hO] at hinv
      exact Or.inl ⟨hx, hinv⟩
    · rw [heq, ← hO] at hinv
      rw [← hO] at hnot
      exact Or.inr ⟨hx, hnot, hinv⟩
  -- without a block
  have hwithout : ∀ {k' : KernelHeap}, kmalloc M.heap size none = some (x, k') →
      (x = 0 ∧ ({ M with heap := k' } : KernelMemory).Inv n S O B ∨ x ≠ 0 ∧ x ∉ O ∧
        ({ M with heap := k' } : KernelMemory).Inv n S (insert x O) B) := by
    intro k' hk
    obtain ⟨hheap', hslabs, hcases⟩ := hheap.kmalloc_cases (by simp) (by simp) hk
    exact hobjects hcases (h.sameSlabs hheap' (by simpa using hslabs))
  unfold Rotary.kmallocMem at hcall
  split at hcall
  · rename_i hask
    rcases h.running.alloc_cases slabDefaultOrder with heq | ⟨t, b, heq, hnone, -, hfree, -, hrun⟩
    · rw [heq] at hcall
      obtain ⟨⟨y, k'⟩, hk, hres⟩ := Option.map_eq_some_iff.mp hcall
      obtain ⟨rfl, rfl⟩ : y = x ∧ { M with heap := k' } = M' := by simpa using hres
      exact ⟨rfl, hwithout hk⟩
    · rw [heq] at hcall
      dsimp only at hcall
      split at hcall
      · rename_i haddr
        have ht : t + 2 ^ slabDefaultOrder ≤ directMapPages := by
          simpa [addressable] using haddr
        obtain ⟨⟨y, k'⟩, hk, hres⟩ := Option.map_eq_some_iff.mp hcall
        obtain ⟨rfl, rfl⟩ : y = x ∧ { M with heap := k', buddy := b } = M' := by simpa using hres
        obtain ⟨hheap', hslabs, hcases⟩ := hheap.kmalloc_cases
          (by simpa using h.freshBlock hfree ht) (fun _ _ => hask) hk
        exact ⟨rfl, hobjects hcases (h.moreSlabs hheap' (by simpa using hslabs) ht hnone hrun)⟩
      · cases hcall
  · obtain ⟨⟨y, k'⟩, hk, hres⟩ := Option.map_eq_some_iff.mp hcall
    obtain ⟨rfl, rfl⟩ : y = x ∧ { M with heap := k' } = M' := by simpa using hres
    exact ⟨rfl, hwithout hk⟩

/-- **`kfree`** of an object in use succeeds, and only that object is given back. -/
theorem KernelMemory.Inv.kfreeMem (h : M.Inv n S O B) (hx : x ∈ O) :
    ∃ M', Rotary.kfreeMem M x = some M' ∧ M'.frames = M.frames ∧ M'.Inv n S (O \ {x}) B := by
  obtain ⟨slabs, hheap⟩ := h.heap
  have hO := h.objects
  rw [hO] at hx
  obtain ⟨k', hcall, hheap', hslabs, hlive⟩ := hheap.kfree_cases hx
  refine ⟨{ M with heap := k' }, ?_, rfl, ?_⟩
  · unfold Rotary.kfreeMem
    rw [hcall]
    rfl
  · rw [hO, ← hlive]
    exact h.sameSlabs hheap' hslabs

/-- **`kfree`** of a null pointer finds no slab. -/
theorem KernelMemory.Inv.kfreeMem_null (h : M.Inv n S O B) : Rotary.kfreeMem M 0 = some M := by
  obtain ⟨slabs, hheap⟩ := h.heap
  have hcall : kfree M.heap 0 = some (.error, M.heap) := by
    apply kfree_outside hheap
    intro j s _ hin
    have hheader : 0 < sizeofSlabHeader := by decide
    omega
  unfold Rotary.kfreeMem
  rw [hcall]
  rfl

/-- What clients do with blocks of their own leaves the slabs' blocks alone. -/
theorem Step.withSlabs {ok : ℕ → Prop} {b b' : BuddyAllocator} {B' : Live}
    (h : Step img ok (b, B) (b', B')) (hrun : Running n (b, B.withSlabs ts) S)
    (hapart : ∀ t ∈ ts, B t = none) :
    Step img ok (b, B.withSlabs ts) (b', B'.withSlabs ts) ∧ ∀ t ∈ ts, B' t = none := by
  cases h with
  | alloc _ _ order =>
    have hstep : Step img ok (b, B.withSlabs ts)
        ((pageAlloc b order).2, (B.withSlabs ts).granted order (pageAlloc b order).1) :=
      .alloc b _ order
    rcases hrun.alloc_cases order with heq | ⟨t, s', heq, hnone, -⟩
    · rw [heq] at hstep ⊢
      exact ⟨hstep, hapart⟩
    · -- the new block was not live, so that no slab lies in it
      obtain ⟨ht, -⟩ := Live.withSlabs_none hnone
      rw [heq] at hstep ⊢
      refine ⟨?_, fun u hu => ?_⟩
      · show Step img ok _ (s', Live.withSlabs (Function.update B t (some ⟨order, 1⟩)) ts)
        rw [Live.withSlabs_update B ht]
        exact hstep
      · show Function.update B t _ u = none
        rw [Function.update_of_ne (ne_of_mem_of_not_mem hu ht)]
        exact hapart u hu
  | inc _ _ p lb hl hok =>
    -- a client holds none of the blocks of the slabs
    have hp : p ∉ ts := fun hin => by
      rw [hapart p hin] at hl
      cases hl
    refine ⟨?_, fun u hu => ?_⟩
    · rw [Live.withSlabs_update B hp]
      exact .inc b _ p lb ((Live.withSlabs_of_not_mem B hp).trans hl) hok
    · rw [Function.update_of_ne (ne_of_mem_of_not_mem hu hp)]
      exact hapart u hu
  | free _ _ p lb hl =>
    have hp : p ∉ ts := fun hin => by
      rw [hapart p hin] at hl
      cases hl
    have hstep : Step img ok (b, B.withSlabs ts) ((pageFree img b (some p) lb.order).2,
        (B.withSlabs ts).returned p lb (pageFree img b (some p) lb.order).1) :=
      .free b _ p lb ((Live.withSlabs_of_not_mem B hp).trans hl)
    generalize pageFree img b (some p) lb.order = r at hstep ⊢
    obtain ⟨status, b'⟩ := r
    cases status with
    | error => exact ⟨hstep, hapart⟩
    | success =>
      refine ⟨?_, fun u hu => ?_⟩
      · show Step img ok _ (b', Live.withSlabs (Function.update B p _) ts)
        rw [Live.withSlabs_update B hp]
        exact hstep
      · show Function.update B p _ u = none
        rw [Function.update_of_ne (ne_of_mem_of_not_mem hu hp)]
        exact hapart u hu

theorem KernelMemory.Inv.step {b' : BuddyAllocator} {B' : Live} (h : M.Inv n S O B)
    (hbelow : BuddiesBelow n S) (hstep : Step img (· < 2 ^ 32) (M.buddy, B) (b', B')) :
    ({ M with buddy := b' } : KernelMemory).Inv n S O B' := by
  obtain ⟨hstep', hapart⟩ := hstep.withSlabs h.running h.apart
  exact ⟨h.heap, h.objects, h.running.step hstep' (fun _ hr => hr) (Or.inr hbelow), h.placed, hapart⟩

/-- **`page_alloc`** beside the slabs. -/
theorem KernelMemory.Inv.pageAlloc_cases (h : M.Inv n S O B) (order : ℕ) :
    pageAlloc M.buddy order = (none, M.buddy) ∨
      ∃ t b', pageAlloc M.buddy order = (some t, b') ∧ t < n ∧ B t = none ∧
        ({ M with buddy := b' } : KernelMemory).Inv n S O
          (Function.update B t (some ⟨order, 1⟩)) := by
  rcases h.running.alloc_cases order with heq | ⟨t, b', heq, hnone, htn, -, -, hrun⟩
  · exact Or.inl heq
  · obtain ⟨ht, hB⟩ := Live.withSlabs_none hnone
    refine Or.inr ⟨t, b', heq, htn, hB, h.heap, h.objects, ?_, h.placed, fun u hu => ?_⟩
    · rw [Live.withSlabs_update B ht]
      exact hrun
    · rw [Function.update_of_ne (ne_of_mem_of_not_mem hu ht)]
      exact h.apart u hu

/-- **`page_free`** of a block of one reference. -/
theorem KernelMemory.Inv.pageFree (h : M.Inv n S O B) (hbelow : BuddiesBelow n S)
    (himg : ∀ p ∈ S, OutsideImage img p) (hB : B t = some ⟨order, 1⟩) :
    ({ M with buddy := (Rotary.pageFree img M.buddy (some t) order).2 } : KernelMemory).Inv n S O
      (Function.update B t none) := by
  have ht : t ∉ slabBlocks M.heap := fun hin => by
    rw [h.apart t hin] at hB
    cases hB
  have hlive : B.withSlabs (slabBlocks M.heap) t = some ⟨order, 1⟩ :=
    (Live.withSlabs_of_not_mem B ht).trans hB
  have hfree : Step img (· < 2 ^ 32) (M.buddy, B) ((Rotary.pageFree img M.buddy (some t) order).2,
      B.returned t ⟨order, 1⟩ (Rotary.pageFree img M.buddy (some t) order).1) :=
    .free M.buddy B t ⟨order, 1⟩ hB
  have hstep := h.step hbelow hfree
  obtain ⟨⟨F, hs⟩, -⟩ := h.running
  have htS := hs.core.live_mem hlive
  have hcrit := hs.core.not_critical (hs.core.inRange t htS) (himg t htS)
  obtain ⟨hok, -⟩ := pageFree_last hs hlive hcrit (.of_buddiesBelow hbelow Set.sdiff_subset)
  rw [hok] at hstep
  exact hstep

/-- The blocks of `B` are what is allocated beside the slabs. -/
theorem KernelMemory.Inv.allocatedPages_eq (h : M.Inv n S O B) :
    allocatedPages S M = cover (liveBlocks B) := by
  obtain ⟨⟨F, hs⟩, -⟩ := h.running
  have hsub : ∀ b ∈ liveBlocks (B.withSlabs (slabBlocks M.heap)), pages b ⊆ S := fun b hb =>
    hs.core.tiling.subset (Or.inr hb)
  have hother : ∀ b ∈ liveBlocks B, b ∈ liveBlocks (B.withSlabs (slabBlocks M.heap)) ∧
      b.1 ∉ slabBlocks M.heap := by
    rintro ⟨q, j⟩ ⟨r, hq⟩
    have hnot : q ∉ slabBlocks M.heap := fun hin => by
      have hnone := h.apart q hin
      rw [hnone] at hq
      cases hq
    exact ⟨⟨r, (Live.withSlabs_of_not_mem B hnot).trans hq⟩, hnot⟩
  unfold allocatedPages
  rw [h.running.freePages_eq]
  ext p
  simp only [cover, slabFrames, Set.mem_sdiff, Set.mem_iUnion, exists_prop, Set.mem_ofPred_eq,
    not_and, not_not]
  constructor
  · rintro ⟨⟨hpS, hcov⟩, hnot⟩
    obtain ⟨⟨q, j⟩, ⟨r, hq⟩, hp⟩ := hcov hpS
    by_cases hin : q ∈ slabBlocks M.heap
    · rw [Live.withSlabs_of_mem B hin] at hq
      obtain ⟨rfl, -⟩ : slabDefaultOrder = j ∧ 1 = r := by simpa using hq
      exact absurd ⟨q, hin, hp⟩ hnot
    · rw [Live.withSlabs_of_not_mem B hin] at hq
      exact ⟨(q, j), ⟨r, hq⟩, hp⟩
  · rintro ⟨b, hb, hp⟩
    obtain ⟨hb', hnot⟩ := hother b hb
    refine ⟨⟨hsub b hb' hp, fun _ => ⟨b, hb', hp⟩⟩, ?_⟩
    rintro ⟨t, ht, hpt⟩
    -- a page lies in one block only
    have hslab : (t, slabDefaultOrder) ∈ liveBlocks (B.withSlabs (slabBlocks M.heap)) :=
      ⟨1, Live.withSlabs_of_mem B ht⟩
    have heq := hs.core.tiling.eq_of_mem (Or.inr hb') (Or.inr hslab) hp hpt
    rw [heq] at hnot
    exact hnot ht

/-! ### Runs -/

/-- A byte that is not the allocators': one of a live object, or one outside the slabs. -/
def KernelHeap.ClientByte (k : KernelHeap) (a : ℕ) : Prop :=
  (∃ i, ∃ h ∈ slabList k.mem (k.slabCaches i), ∃ x, IsSlot (k.slabCaches i).objectSize h x ∧
    x ∉ slabFreeList k.mem h ∧ x ≤ a ∧ a < x + (k.slabCaches i).objectSize) ∨
  ∀ h ∈ k.slabs, a < h ∨ h + slabBytes ≤ a

theorem KernelHeap.Inv.client_store {m' : ByteMem} (h : k.Inv slabs)
    (hstore : ∀ a, m' a ≠ k.mem a → k.ClientByte a) :
    KernelHeap.Inv { k with mem := m' } slabs := by
  refine ⟨h.size, fun j => ?_, h.apart⟩
  apply (h.cacheAt j).client_store (h.size_ge j)
  intro a ha
  rcases hstore a ha with ⟨i, b, hb, x, hslot, hnot, h1, h2⟩ | hout
  · rw [(h.cacheAt i).slabList_eq] at hb
    obtain ⟨s, hs, rfl⟩ := List.mem_map.mp hb
    rw [((h.cacheAt i).slab s hs).slabFreeList_eq] at hnot
    by_cases hij : i = j
    · subst hij
      exact Or.inl ⟨x, ⟨s, hs, hslot, hnot⟩, h1, h2⟩
    · -- the object is in a block of another cache
      apply Or.inr
      intro b hb
      obtain ⟨t, ht, rfl⟩ := List.mem_map.mp hb
      have hap := h.apart i j hij s hs t ht
      have hbounds := hslot.bounds
      unfold Apart at hap
      omega
  · apply Or.inr
    intro b hb
    obtain ⟨t, ht, rfl⟩ := List.mem_map.mp hb
    exact hout _ (h.mem_slabs.mpr ⟨j, t, ht, rfl⟩)

/-- **Stores of the clients** change neither the objects in use nor the blocks. -/
theorem KernelMemory.Inv.write {m' : ByteMem} (h : M.Inv n S O B)
    (hstore : ∀ a, m' a ≠ M.heap.mem a → M.heap.ClientByte a) (frames' : PhysMem) :
    KernelMemory.Inv n S ⟨{ M.heap with mem := m' }, frames', M.buddy⟩ O B := by
  obtain ⟨slabs, hheap⟩ := h.heap
  have hheap' := hheap.client_store hstore
  have hslabs : ∀ b, b ∈ KernelHeap.slabs { M.heap with mem := m' } ↔ b ∈ M.heap.slabs := by
    intro b
    rw [hheap'.mem_slabs, hheap.mem_slabs]
  have hlive : liveObjects { M.heap with mem := m' } = O := by
    rw [hheap'.liveObjects_eq, h.objects, hheap.liveObjects_eq]
  obtain ⟨hh, ho, hr, hp, ha⟩ := h.sameSlabs ⟨slabs, hheap'⟩ hslabs
  rw [hlive] at ho
  exact ⟨hh, ho.trans hlive.symm, hr, hp, ha⟩

theorem KernelMemory.Inv.setFrames (h : M.Inv n S O B) (frames' : PhysMem) :
    ({ M with frames := frames' } : KernelMemory).Inv n S O B := by
  have hsame : ∀ a, M.heap.mem a ≠ M.heap.mem a → M.heap.ClientByte a := fun a ha => absurd rfl ha
  exact h.write hsame frames'

/-- One call of kernel code into the allocators, or stores between two calls; beside the memory
    stand the blocks that were handed to somebody else than a slab cache. -/
inductive MemStep (img : KernelImage) : KernelMemory × Live → KernelMemory × Live → Prop
  | kmalloc (M : KernelMemory) (B : Live) (size x : ℕ) (M' : KernelMemory)
      (hcall : kmallocMem M size = some (x, M')) : MemStep img (M, B) (M', B)
  | kfree (M : KernelMemory) (B : Live) (x : ℕ) (hx : x ∈ liveObjects M.heap) (M' : KernelMemory)
      (hcall : kfreeMem M x = some M') : MemStep img (M, B) (M', B)
  | pages (M : KernelMemory) (B : Live) (b' : BuddyAllocator) (B' : Live)
      (hstep : Step img (· < 2 ^ 32) (M.buddy, B) (b', B')) :
      MemStep img (M, B) ({ M with buddy := b' }, B')
  | write (M : KernelMemory) (B : Live) (m' : ByteMem) (frames' : PhysMem)
      (hstore : ∀ a, m' a ≠ M.heap.mem a → M.heap.ClientByte a) :
      MemStep img (M, B) (⟨{ M.heap with mem := m' }, frames', M.buddy⟩, B)

/-- A run of kernel code on the two allocators. -/
abbrev MemRun (img : KernelImage) := Relation.ReflTransGen (MemStep img)

/-- The memory before the first call: empty caches, and the pages that were handed over. -/
def KernelMemory.start (m : ByteMem) (frames : PhysMem) (buddy : BuddyAllocator) : KernelMemory :=
  ⟨KernelHeap.init m, frames, buddy⟩

theorem KernelMemory.start_inv (m : ByteMem) (frames : PhysMem) {b : BuddyAllocator}
    (h : Running n (b, fun _ => none) S) :
    (KernelMemory.start m frames b).Inv n S (liveObjects (KernelHeap.init m)) fun _ => none := by
  have hheap := KernelHeap.init_inv m
  have hempty : slabBlocks (KernelHeap.init m) = [] := by
    refine List.map_eq_nil_iff.mpr (List.eq_nil_iff_forall_not_mem.mpr fun b hb => ?_)
    obtain ⟨i, s, hs, -⟩ := hheap.mem_slabs.mp hb
    cases hs
  refine ⟨⟨_, hheap⟩, rfl, ?_, fun b hb => ?_, fun _ _ => rfl⟩
  · show Running n (b, Live.withSlabs _ (slabBlocks (KernelHeap.init m))) S
    rw [hempty]
    have hnone : Live.withSlabs (fun _ => none) [] = fun _ => none := by
      funext p
      exact Live.withSlabs_of_not_mem _ List.not_mem_nil
    rw [hnone]
    exact h
  · obtain ⟨i, s, hs, -⟩ := hheap.mem_slabs.mp hb
    cases hs

/-- **A step keeps the invariant.** -/
theorem KernelMemory.Inv.memStep {M' : KernelMemory} {B' : Live} (h : M.Inv n S O B)
    (hbelow : BuddiesBelow n S) (hstep : MemStep img (M, B) (M', B')) : ∃ O', M'.Inv n S O' B' := by
  cases hstep with
  | kmalloc _ _ size x _ hcall =>
    obtain ⟨-, hcases⟩ := h.kmallocMem hcall
    rcases hcases with ⟨-, hinv⟩ | ⟨-, -, hinv⟩
    · exact ⟨_, hinv⟩
    · exact ⟨_, hinv⟩
  | kfree _ _ x hx _ hcall =>
    obtain ⟨M₁, heq, -, hinv⟩ := h.kfreeMem (h.objects ▸ hx)
    obtain rfl : M₁ = M' := Option.some.inj (heq.symm.trans hcall)
    exact ⟨_, hinv⟩
  | pages _ _ b' _ hpages => exact ⟨O, h.step hbelow hpages⟩
  | write _ _ m' frames' hstore => exact ⟨O, h.write hstore frames'⟩

/-- **Every state of a run keeps the invariant**: the blocks that `kmalloc` gets from
    `page_alloc` are what the heap relies on. -/
theorem MemRun.inv {B' : Live} (hrun : MemRun img (M, B) (M', B')) (h : M.Inv n S O B)
    (hbelow : BuddiesBelow n S) : ∃ O', M'.Inv n S O' B' := by
  generalize hx : (M, B) = x at hrun
  generalize hy : (M', B') = y at hrun
  induction hrun generalizing M' B' with
  | refl =>
    obtain ⟨rfl, rfl⟩ := Prod.mk.inj (hy.trans hx.symm)
    exact ⟨O, h⟩
  | @tail z _ _ hstep ih =>
    obtain ⟨M₁, B₁⟩ := z
    subst hy
    obtain ⟨O₁, h₁⟩ := ih rfl
    exact h₁.memStep hbelow hstep

end Rotary
