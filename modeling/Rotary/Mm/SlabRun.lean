import Mathlib.Logic.Relation
import Rotary.Mm.SlabSpec

namespace Rotary

open Lib

/-!
# Runs of one slab cache

A run starts from an empty cache and mixes `slab_malloc`, `slab_free` of live objects and
stores of the objects' owners.  A run carries the set of live objects beside the memory;
`page_alloc` may fail at any call, and when it succeeds it returns a block that is not in use.

The invariant ties the three together: the memory holds slabs whose slots are free or live,
never both (`SlabState.Inv`).  It is proved of each step and hence of every run.
-/

variable {m m' : ByteMem} {z base page x y : ℕ} {s : Slab} {cache : SlabCache}
  {slabs slabs' pre post : List Slab} {f f' rest : List ℕ} {newPage : Option ℕ}

/-! ### Live slots -/

/-- The slots that are not free. -/
def liveSlots (z : ℕ) (slabs : List Slab) : Set ℕ :=
  {x | ∃ s ∈ slabs, IsSlot z s.base x ∧ x ∉ s.free}

theorem liveSlots_append (z : ℕ) (pre post : List Slab) :
    liveSlots z (pre ++ post) = liveSlots z pre ∪ liveSlots z post := by
  ext x
  simp only [liveSlots, List.mem_append, Set.mem_union, Set.mem_ofPred_eq]
  constructor
  · rintro ⟨s, hs | hs, h⟩
    · exact Or.inl ⟨s, hs, h⟩
    · exact Or.inr ⟨s, hs, h⟩
  · rintro (⟨s, hs, h⟩ | ⟨s, hs, h⟩)
    · exact ⟨s, Or.inl hs, h⟩
    · exact ⟨s, Or.inr hs, h⟩

theorem liveSlots_cons (z : ℕ) (s : Slab) (slabs : List Slab) :
    liveSlots z (s :: slabs) = liveSlots z [s] ∪ liveSlots z slabs :=
  liveSlots_append z [s] slabs

theorem mem_liveSlots_singleton : x ∈ liveSlots z [s] ↔ IsSlot z s.base x ∧ x ∉ s.free := by
  simp [liveSlots]

/-- Taking a slot off the free list of its slab makes it live. -/
theorem liveSlots_take (hx : IsSlot z base x) (hnot : x ∉ rest) :
    liveSlots z [⟨base, rest⟩] = insert x (liveSlots z [⟨base, x :: rest⟩]) := by
  ext y
  simp only [Set.mem_insert_iff, mem_liveSlots_singleton, List.mem_cons, not_or]
  constructor
  · intro ⟨hy, hf⟩
    by_cases hyx : y = x
    · exact Or.inl hyx
    · exact Or.inr ⟨hy, hyx, hf⟩
  · rintro (rfl | ⟨hy, -, hf⟩)
    · exact ⟨hx, hnot⟩
    · exact ⟨hy, hf⟩

/-- A slab with every slot free has no live one. -/
theorem liveSlots_allSlots (z base : ℕ) : liveSlots z [⟨base, allSlots z base⟩] = ∅ := by
  ext y
  simp only [mem_liveSlots_singleton, mem_allSlots, Set.mem_empty_iff_false, iff_false]
  exact fun h => h.2 h.1

theorem not_mem_of_sorted (h : (x :: rest).Pairwise (· < ·)) : x ∉ rest := fun hmem =>
  Nat.lt_irrefl x ((List.pairwise_cons.mp h).1 x hmem)

/-- `slab_malloc` makes exactly the returned object live. -/
theorem Served.liveSlots_eq (h : Served z slabs newPage slabs' x) (hc : CacheAt m cache slabs)
    (hsize : cache.objectSize = z) (hz : 4 ≤ z) :
    liveSlots z slabs' = if x = 0 then liveSlots z slabs else insert x (liveSlots z slabs) := by
  subst hsize
  cases h with
  | reused pre post base x rest newPage =>
    have hs := hc.slab ⟨base, x :: rest⟩ (by simp)
    rw [if_neg hc.head_ne_zero, liveSlots_append, liveSlots_append, liveSlots_cons,
      liveSlots_cons _ _ post,
      liveSlots_take (hs.slot x List.mem_cons_self) (not_mem_of_sorted hs.sorted),
      Set.insert_union, Set.union_insert]
  | grown _ hfull page x rest hslots =>
    have hsorted := allSlots_sorted hz (pageVa page)
    have hslot : IsSlot cache.objectSize (pageVa page) x :=
      mem_allSlots.mp (hslots ▸ List.mem_cons_self)
    have hne : x ≠ 0 := by
      have := hslot.header_le
      omega
    have hempty := liveSlots_allSlots cache.objectSize (pageVa page)
    rw [hslots] at hsorted hempty
    rw [if_neg hne, liveSlots_append, liveSlots_take hslot (not_mem_of_sorted hsorted), hempty,
      Set.union_insert, Set.union_empty]
  | refused hfull => rfl

/-- Only the refusal returns null. -/
theorem Served.null (h : Served cache.objectSize slabs newPage slabs' 0)
    (hc : CacheAt m cache slabs) : (∀ s ∈ slabs, s.free = []) ∧ newPage = none := by
  cases h with
  | reused pre post base _ rest newPage => exact absurd rfl hc.head_ne_zero
  | grown _ hfull page _ rest hslots =>
    have hslot : IsSlot cache.objectSize (pageVa page) 0 :=
      mem_allSlots.mp (hslots ▸ List.mem_cons_self)
    have := hslot.header_le
    omega
  | refused _ hfull => exact ⟨hfull, rfl⟩

/-- Blocks that do not overlap have no slot in common. -/
theorem IsSlot.not_of_apart {b z' : ℕ} (h : IsSlot z base x) (hap : Apart base b) :
    ¬ IsSlot z' b x := by
  intro h'
  have h1 := h.bounds.2
  have h2 := h'.bounds.2
  have h3 := h.header_le
  have h4 := h'.header_le
  unfold Apart at hap
  omega

/-- The object that is returned was free or not yet there. -/
theorem Served.not_live (h : Served z slabs newPage slabs' x) (hc : CacheAt m cache slabs)
    (hsize : cache.objectSize = z)
    (hfresh : ∀ p ∈ newPage, ∀ s ∈ slabs, Apart s.base (pageVa p)) : x ∉ liveSlots z slabs := by
  subst hsize
  rintro ⟨t, ht, hslot, hnot⟩
  cases h with
  | reused pre post base x rest newPage =>
    have hs : (⟨base, x :: rest⟩ : Slab) ∈ pre ++ ⟨base, x :: rest⟩ :: post := by simp
    by_cases heq : t.base = base
    · obtain rfl : t = ⟨base, x :: rest⟩ := hc.eq_of_base_eq ht hs heq
      exact hnot List.mem_cons_self
    · exact hslot.not_of_apart (hc.apart_of_ne ht hs heq)
        ((hc.slab _ hs).slot x List.mem_cons_self)
  | grown _ hfull page x rest hslots =>
    exact hslot.not_of_apart (hfresh page rfl t ht)
      (mem_allSlots.mp (hslots ▸ List.mem_cons_self))
  | refused _ hfull =>
    have := hslot.header_le
    omega

/-- `slab_free` makes exactly the given object free. -/
theorem liveSlots_free (hc : CacheAt m cache (pre ++ ⟨base, f⟩ :: post))
    (hx : IsSlot cache.objectSize base x) (hmem : ∀ y, y ∈ f' ↔ y = x ∨ y ∈ f) :
    liveSlots cache.objectSize (pre ++ ⟨base, f'⟩ :: post) =
      liveSlots cache.objectSize (pre ++ ⟨base, f⟩ :: post) \ {x} := by
  -- no other block has a slot at `x`
  have hother : ∀ t ∈ pre ++ post, ¬ IsSlot cache.objectSize t.base x := by
    intro t ht hslot
    exact hx.not_of_apart (hc.apart_of_mem ht).2 hslot
  have hrest : ∀ y, y ∈ liveSlots cache.objectSize pre ∪ liveSlots cache.objectSize post →
      y ≠ x := by
    rintro y hy rfl
    rw [← liveSlots_append] at hy
    obtain ⟨t, ht, hslot, -⟩ := hy
    exact hother t ht hslot
  ext y
  have hy := hrest y
  simp only [liveSlots_append, liveSlots_cons _ _ post, Set.mem_union, Set.mem_sdiff,
    Set.mem_singleton_iff, mem_liveSlots_singleton, hmem] at hy ⊢
  tauto

/-! ### Runs -/

/-- A cache in memory, and the objects its clients hold. -/
structure SlabState where
  mem : ByteMem
  cache : SlabCache
  live : Set ℕ

/-- What `page_alloc` promises of a block of `SLAB_DEFAULT_ORDER`: it can be addressed, and
    overlaps none of the blocks `taken`. -/
structure FreshBlock (taken : List ℕ) (page : ℕ) : Prop where
  pos : 0 < pageVa page
  fits : pageVa page + slabBytes < 2 ^ 32
  apart : ∀ h ∈ taken, Apart h (pageVa page)

/-- One call, or the stores of the clients between two calls. -/
inductive SlabStep : SlabState → SlabState → Prop
  | malloc (st : SlabState) (newPage : Option ℕ)
      (hfresh : ∀ p ∈ newPage, FreshBlock (slabList st.mem st.cache) p)
      (x : ℕ) (m' : ByteMem) (cache' : SlabCache)
      (hcall : slabMalloc st.mem st.cache newPage = some (x, m', cache')) :
      SlabStep st ⟨m', cache', if x = 0 then st.live else insert x st.live⟩
  | free (st : SlabState) (x : ℕ) (hlive : x ∈ st.live) (r : Status) (m' : ByteMem)
      (hcall : slabFree st.mem st.cache x = some (r, m')) :
      SlabStep st ⟨m', st.cache, st.live \ {x}⟩
  /-- Clients store into their objects, and others into memory outside the slabs. -/
  | write (st : SlabState) (m' : ByteMem)
      (hstore : ∀ a, m' a ≠ st.mem a →
        (∃ x ∈ st.live, x ≤ a ∧ a < x + st.cache.objectSize) ∨
          ∀ h ∈ slabList st.mem st.cache, a < h ∨ h + slabBytes ≤ a) :
      SlabStep st ⟨m', st.cache, st.live⟩

/-- The invariant of a run over a cache of objects of `z` bytes. -/
structure SlabState.Inv (z : ℕ) (st : SlabState) (slabs : List Slab) : Prop where
  size : st.cache.objectSize = z
  cacheAt : CacheAt st.mem st.cache slabs
  live : st.live = liveSlots z slabs

theorem pageVa_aligned (page : ℕ) : pageSize ∣ pageVa page := by
  unfold pageVa phyToVir pfnToPa u32 kernelStartVirt pageSize
  omega

theorem FreshBlock.placed {taken : List ℕ} (h : FreshBlock taken page) : Placed (pageVa page) :=
  ⟨h.pos, pageVa_aligned page, h.fits⟩

theorem CacheAt.slabList_eq (h : CacheAt m cache slabs) :
    slabList m cache = slabs.map Slab.base :=
  h.chain.chainList_eq (Nat.le_of_lt (h.chain.length_lt h.firstSlab_lt))

theorem SlabAt.slabFreeList_eq (h : SlabAt m z s) : slabFreeList m s.base = s.free :=
  h.chain.chainList_eq (Nat.le_of_lt (h.chain.length_lt (load_lt m _)))

theorem CacheAt.fresh_apart (h : CacheAt m cache slabs)
    (hfresh : ∀ p ∈ newPage, FreshBlock (slabList m cache) p) :
    ∀ p ∈ newPage, ∀ s ∈ slabs, Apart s.base (pageVa p) := by
  intro p hp s hs
  apply (hfresh p hp).apart
  rw [h.slabList_eq]
  exact List.mem_map_of_mem hs

/-- Neither a live object nor memory outside the slabs holds a byte the allocator reads. -/
theorem CacheAt.client_store (h : CacheAt m cache slabs) (hz : 4 ≤ cache.objectSize)
    (hstore : ∀ a, m' a ≠ m a →
      (∃ x ∈ liveSlots cache.objectSize slabs, x ≤ a ∧ a < x + cache.objectSize) ∨
        ∀ b ∈ slabs.map Slab.base, a < b ∨ b + slabBytes ≤ a) :
    CacheAt m' cache slabs := by
  apply h.congr
  intro s hs a ha
  by_contra hne
  have hin := (h.slab s hs).bytes_bounds hz ha
  rcases hstore a hne with ⟨x, ⟨t, ht, hx, hfree⟩, h1, h2⟩ | hout
  · have hb := hx.bounds
    have hb' := hx.header_le
    by_cases heq : t.base = s.base
    · obtain rfl : t = s := h.eq_of_base_eq ht hs heq
      rcases ha with hhead | ⟨y, hy, h3, h4⟩
      · have hlt : a < t.base + 40 := hhead.2
        omega
      · -- a free object is another slot of the same slab
        have hap := hx.apart ((h.slab t ht).slot y hy) fun hxy => hfree (hxy ▸ hy)
        omega
    · have hap := h.apart_of_ne ht hs heq
      unfold Apart at hap
      omega
  · have hb := hout s.base (List.mem_map_of_mem hs)
    omega

/-- **A step keeps the invariant.** -/
theorem SlabState.Inv.step {st st' : SlabState} (h : st.Inv z slabs) (hz : 4 ≤ z)
    (hmax : z ≤ slabBytes - sizeofSlabHeader) (hstep : SlabStep st st') :
    ∃ slabs', st'.Inv z slabs' := by
  obtain ⟨rfl, hc, hlive⟩ := h
  cases hstep with
  | malloc newPage hfresh x m' cache' hcall =>
    obtain ⟨y, m₁, cache₁, slabs', heq, hserved, hc', hsize, -, -⟩ := slabMalloc_spec hc hz hmax
      newPage (fun p hp => (hfresh p hp).placed) (hc.fresh_apart hfresh)
    rw [hcall] at heq
    obtain ⟨rfl, rfl, rfl⟩ : x = y ∧ m' = m₁ ∧ cache' = cache₁ := by simpa using heq
    refine ⟨slabs', hsize, hc', ?_⟩
    rw [hserved.liveSlots_eq hc rfl hz, hlive]
  | free x hx r m' hcall =>
    rw [hlive] at hx
    obtain ⟨⟨base, f⟩, hs, hslot, hnot⟩ := hx
    obtain ⟨m₁, pre, post, f', rfl, heq, hc', hmem, -⟩ := slabFree_spec hc hz hs hslot hnot
    rw [hcall] at heq
    obtain ⟨-, rfl⟩ : r = .success ∧ m' = m₁ := by simpa using heq
    refine ⟨_, rfl, hc', ?_⟩
    rw [liveSlots_free hc hslot hmem, ← hlive]
  | write m' hstore =>
    rw [hc.slabList_eq, hlive] at hstore
    exact ⟨slabs, rfl, hc.client_store hz hstore, hlive⟩

/-- A run of calls. -/
abbrev SlabRun := Relation.ReflTransGen SlabStep

/-- A new cache for objects of `z` bytes. -/
def SlabState.start (z : ℕ) (m : ByteMem) : SlabState := ⟨m, initSlabCache z, ∅⟩

theorem SlabState.start_inv (z : ℕ) (m : ByteMem) : (SlabState.start z m).Inv z [] := by
  refine ⟨rfl, ⟨chain_nil.mpr rfl, by simp, List.Pairwise.nil⟩, ?_⟩
  simp [SlabState.start, liveSlots]

/-- **Every state of a run keeps the invariant.** -/
theorem SlabRun.inv {st : SlabState} (hz : 4 ≤ z) (hmax : z ≤ slabBytes - sizeofSlabHeader)
    (hrun : SlabRun (SlabState.start z m) st) : ∃ slabs, st.Inv z slabs := by
  induction hrun with
  | refl => exact ⟨[], SlabState.start_inv z m⟩
  | tail _ hstep ih =>
    obtain ⟨slabs, h⟩ := ih
    exact h.step hz hmax hstep

/-! ### The guarantees -/

/-- The address of the `i`-th object, from the header at `h`. -/
def slotOf (m : ByteMem) (z h i : ℕ) : ℕ := load m (SlabHeader.startAddr h) + i * z

/-- What a state looks like from outside, in the words of the memory. -/
structure SlabState.WellFormed (z : ℕ) (st : SlabState) : Prop where
  slabs : Chain st.mem st.cache.firstSlab (slabList st.mem st.cache)
  chain : ∀ h ∈ slabList st.mem st.cache,
    Chain st.mem (load st.mem (SlabHeader.freeList h)) (slabFreeList st.mem h)
  increasing : ∀ h ∈ slabList st.mem st.cache, (slabFreeList st.mem h).Pairwise (· < ·)
  count : ∀ h ∈ slabList st.mem st.cache,
    (slabFreeList st.mem h).length = load st.mem (SlabHeader.freeCount h)
  slots : ∀ h ∈ slabList st.mem st.cache, ∀ x ∈ slabFreeList st.mem h,
    ∃ i < load st.mem (SlabHeader.objectCount h), x = slotOf st.mem z h i
  live : ∀ x, x ∈ st.live ↔ ∃ h ∈ slabList st.mem st.cache,
    (∃ i < load st.mem (SlabHeader.objectCount h), x = slotOf st.mem z h i) ∧
      x ∉ slabFreeList st.mem h
  inside : ∀ h ∈ slabList st.mem st.cache, ∀ i < load st.mem (SlabHeader.objectCount h),
    load st.mem (SlabHeader.startAddr h) ≤ slotOf st.mem z h i ∧
      slotOf st.mem z h i + z ≤ load st.mem (SlabHeader.endAddr h)
  header : ∀ h ∈ slabList st.mem st.cache, ∀ i < load st.mem (SlabHeader.objectCount h),
    ∀ h' ∈ slabList st.mem st.cache,
      slotOf st.mem z h i + z ≤ h' ∨ h' + sizeofSlabHeader ≤ slotOf st.mem z h i
  apart : ∀ h ∈ slabList st.mem st.cache, ∀ i < load st.mem (SlabHeader.objectCount h),
    ∀ h' ∈ slabList st.mem st.cache, ∀ j < load st.mem (SlabHeader.objectCount h'),
      (h, i) ≠ (h', j) → slotOf st.mem z h i + z ≤ slotOf st.mem z h' j ∨
        slotOf st.mem z h' j + z ≤ slotOf st.mem z h i

/-- `slab_malloc` returns an object that nobody holds, or null; null only when every slab is
    full and `page_alloc` has failed, and then it has changed nothing. -/
def SlabState.RefusesOnlyWhenFull (st : SlabState) : Prop :=
  ∀ newPage, (∀ p ∈ newPage, FreshBlock (slabList st.mem st.cache) p) →
    ∃ x m' cache', slabMalloc st.mem st.cache newPage = some (x, m', cache') ∧ x ∉ st.live ∧
      (x = 0 → (∀ h ∈ slabList st.mem st.cache, load st.mem (SlabHeader.freeCount h) = 0) ∧
        newPage = none ∧ m' = st.mem ∧ cache' = st.cache)

/-- `slab_free` of a live object returns and succeeds. -/
def SlabState.FreesLive (st : SlabState) : Prop :=
  ∀ x ∈ st.live, ∃ m', slabFree st.mem st.cache x = some (.success, m')

theorem SlabAt.slotOf_eq (h : SlabAt m z s) (i : ℕ) : slotOf m z s.base i = slotAddr z s.base i := by
  unfold slotOf slotAddr
  rw [h.start]

theorem SlabAt.isSlot_iff (h : SlabAt m z s) :
    (∃ i < load m (SlabHeader.objectCount s.base), x = slotOf m z s.base i) ↔
      IsSlot z s.base x := by
  simp only [h.count, h.slotOf_eq]
  rfl

theorem SlabState.Inv.refusesOnlyWhenFull {st : SlabState} (h : st.Inv z slabs) (hz : 4 ≤ z)
    (hmax : z ≤ slabBytes - sizeofSlabHeader) : st.RefusesOnlyWhenFull := by
  obtain ⟨rfl, hc, hlive⟩ := h
  intro newPage hfresh
  have hapart := hc.fresh_apart hfresh
  obtain ⟨x, m', cache', slabs', heq, hserved, -, -, hsame, -⟩ := slabMalloc_spec hc hz hmax
    newPage (fun p hp => (hfresh p hp).placed) hapart
  refine ⟨x, m', cache', heq, hlive ▸ hserved.not_live hc rfl hapart, fun hx => ?_⟩
  obtain ⟨hm, hcache⟩ := hsame hx
  subst hx
  obtain ⟨hfull, hnone⟩ := hserved.null hc
  refine ⟨fun b hb => ?_, hnone, hm, hcache⟩
  rw [hc.slabList_eq] at hb
  obtain ⟨s, hs, rfl⟩ := List.mem_map.mp hb
  rw [(hc.slab s hs).freeCount, hfull s hs]
  rfl

theorem SlabState.Inv.freesLive {st : SlabState} (h : st.Inv z slabs) (hz : 4 ≤ z) :
    st.FreesLive := by
  obtain ⟨rfl, hc, hlive⟩ := h
  intro x hx
  rw [hlive] at hx
  obtain ⟨s, hs, hslot, hnot⟩ := hx
  obtain ⟨m', -, -, -, -, heq, -⟩ := slabFree_spec hc hz hs hslot hnot
  exact ⟨m', heq⟩

theorem SlabState.Inv.wellFormed {st : SlabState} (h : st.Inv z slabs) (hz : 4 ≤ z) :
    st.WellFormed z := by
  obtain ⟨rfl, hc, hlive⟩ := h
  have hlist := hc.slabList_eq
  -- every header of the list is that of an abstract slab
  have hof : ∀ b ∈ slabList st.mem st.cache, ∃ s ∈ slabs, s.base = b := by
    intro b hb
    rw [hlist] at hb
    exact List.mem_map.mp hb
  refine ⟨hlist ▸ hc.chain, ?_, ?_, ?_, ?_, ?_, ?_, ?_, ?_⟩
  · intro b hb
    obtain ⟨s, hs, rfl⟩ := hof b hb
    rw [(hc.slab s hs).slabFreeList_eq]
    exact (hc.slab s hs).chain
  · intro b hb
    obtain ⟨s, hs, rfl⟩ := hof b hb
    rw [(hc.slab s hs).slabFreeList_eq]
    exact (hc.slab s hs).sorted
  · intro b hb
    obtain ⟨s, hs, rfl⟩ := hof b hb
    rw [(hc.slab s hs).slabFreeList_eq]
    exact (hc.slab s hs).freeCount.symm
  · intro b hb x hx
    obtain ⟨s, hs, rfl⟩ := hof b hb
    rw [(hc.slab s hs).slabFreeList_eq] at hx
    exact (hc.slab s hs).isSlot_iff.mpr ((hc.slab s hs).slot x hx)
  · intro x
    rw [hlive, hlist]
    constructor
    · intro ⟨s, hs, hslot, hnot⟩
      refine ⟨s.base, List.mem_map_of_mem hs, (hc.slab s hs).isSlot_iff.mpr hslot, ?_⟩
      rw [(hc.slab s hs).slabFreeList_eq]
      exact hnot
    · intro ⟨b, hb, hslot, hnot⟩
      obtain ⟨s, hs, rfl⟩ := List.mem_map.mp hb
      rw [(hc.slab s hs).slabFreeList_eq] at hnot
      exact ⟨s, hs, (hc.slab s hs).isSlot_iff.mp hslot, hnot⟩
  · intro b hb i hi
    obtain ⟨s, hs, rfl⟩ := hof b hb
    have hslot := (hc.slab s hs).isSlot_iff.mp ⟨i, hi, rfl⟩
    rw [(hc.slab s hs).start, (hc.slab s hs).stop]
    exact hslot.bounds
  · intro b hb i hi b' hb'
    obtain ⟨s, hs, rfl⟩ := hof b hb
    obtain ⟨t, ht, rfl⟩ := hof b' hb'
    have hslot := (hc.slab s hs).isSlot_iff.mp ⟨i, hi, rfl⟩
    have hbounds := hslot.bounds
    by_cases heq : s.base = t.base
    · rw [← heq]
      exact Or.inr hbounds.1
    · have hap := hc.apart_of_ne hs ht heq
      have hle : sizeofSlabHeader ≤ slabBytes := by decide
      unfold Apart at hap
      omega
  · intro b hb i hi b' hb' j hj hne
    obtain ⟨s, hs, rfl⟩ := hof b hb
    obtain ⟨t, ht, rfl⟩ := hof b' hb'
    have hx := (hc.slab s hs).isSlot_iff.mp ⟨i, hi, rfl⟩
    have hy := (hc.slab t ht).isSlot_iff.mp ⟨j, hj, rfl⟩
    by_cases heq : s.base = t.base
    · obtain rfl : s = t := hc.eq_of_base_eq hs ht heq
      refine hx.apart hy fun hsame => hne ?_
      have hmul : i * st.cache.objectSize = j * st.cache.objectSize := Nat.add_left_cancel hsame
      rw [Nat.eq_of_mul_eq_mul_right (by omega) hmul]
    · have hap := hc.apart_of_ne hs ht heq
      have hb1 := hx.bounds
      have hb2 := hy.bounds
      unfold Apart at hap
      omega

/-- **The slab cache over whole runs.**  In every state a run of calls reaches, each free list
    is in order, exact and made of slots, the other slots are the live objects, no two slots
    and no slot and header overlap, and only a full cache refuses an object. -/
theorem slabRun_wellFormed {st : SlabState} (hz : 4 ≤ z)
    (hmax : z ≤ 16 * pageSize - sizeofSlabHeader) (hrun : SlabRun (SlabState.start z m) st) :
    st.WellFormed z ∧ st.RefusesOnlyWhenFull ∧ st.FreesLive := by
  obtain ⟨slabs, h⟩ := SlabRun.inv hz hmax hrun
  exact ⟨h.wellFormed hz, h.refusesOnlyWhenFull hz hmax, h.freesLive hz⟩

/-- One object of 32768 bytes in a new slab. -/
theorem slabRun_wellFormed_oneObject :
    ∃ st, SlabRun (SlabState.start 32768 fun _ => 0) st ∧ st.live = {pageVa 16 + 40} ∧
      st.WellFormed 32768 ∧ st.RefusesOnlyWhenFull ∧ st.FreesLive := by
  have hempty : slabList (fun _ => 0) (initSlabCache 32768) = [] :=
    (SlabState.start_inv 32768 fun _ => 0).cacheAt.slabList_eq
  have hfresh : ∀ p ∈ some 16, FreshBlock (slabList (fun _ => 0) (initSlabCache 32768)) p := by
    intro p hp
    obtain rfl : 16 = p := Option.some.inj hp
    rw [hempty]
    exact ⟨by decide, by decide, by simp⟩
  have hcalled : (slabMalloc (fun _ => 0) (initSlabCache 32768) (some 16)).map Prod.fst =
      some (pageVa 16 + 40) := by decide +kernel
  obtain ⟨⟨x, m', cache'⟩, hcall, hx⟩ := Option.map_eq_some_iff.mp hcalled
  obtain rfl : x = pageVa 16 + 40 := hx
  have hrun : SlabRun (SlabState.start 32768 fun _ => 0) _ :=
    .single (.malloc _ (some 16) hfresh _ m' cache' hcall)
  refine ⟨_, hrun, ?_, slabRun_wellFormed (by decide) (by decide) hrun⟩
  simp [SlabState.start]

end Rotary
