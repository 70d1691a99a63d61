import Rotary.Mm.Kmalloc

namespace Rotary

open Lib

/-!
# What the heap calls leave alone

The specifications of `kmalloc` and `kfree` say what becomes of the slabs.  Whoever keeps data in
heap objects also needs the bytes themselves: neither call stores into an object that somebody
else holds, nor into memory outside the slabs.

* `slabMalloc_frame` / `slabFree_frame` — the stores go to slab headers, to a fresh block, to the
  first words of free objects and to the object that is freed;
* `HeapState.ClientByte` — the bytes that are not the allocator's, and the two calls on them;
* `freeSlots` — what a cache can still hand out: one object more after `kfree`, and enough for
  `kmalloc` without a new block.
-/

variable {m m' : ByteMem} {z base x y a p q size : ℕ} {s : Slab} {cache cache' : SlabCache}
  {slabs pre post : List Slab} {f : List ℕ} {newPage : Option ℕ} {r : Status}
  {k k' : KernelHeap} {S S' : Fin 13 → List Slab} {i j : Fin 13} {st : HeapState}

/-! ### One cache -/

/-- The word that `slab_free` finds belongs to the header or to a free object. -/
theorem insertCell_mem {c cell fuel : ℕ} (h : Chain m (load m c) f)
    (heq : insertCell m x fuel c = some cell) : cell ∈ c :: f := by
  induction f generalizing c fuel with
  | nil =>
    cases fuel with
    | zero => cases heq
    | succ fuel =>
      have hnull : load m c = 0 := h
      simp only [insertCell, hnull, if_true, Option.some.injEq] at heq
      simp [heq]
  | cons y f ih =>
    obtain ⟨hy, hne, htail⟩ := chain_cons.mp h
    cases fuel with
    | zero => cases heq
    | succ fuel =>
      rw [insertCell, hy, if_neg hne] at heq
      by_cases hlt : x < y
      · rw [if_pos hlt, Option.some.injEq] at heq
        simp [heq]
      · rw [if_neg hlt] at heq
        exact List.mem_cons_of_mem c (ih htail heq)

theorem linkObject_frame {h cell : ℕ} (hx : a < x ∨ x + 4 ≤ a) (hc : a < cell ∨ cell + 4 ≤ a)
    (hh : a < h + 20 ∨ h + 24 ≤ a) : linkObject m h x cell a = m a := by
  show store (store (store m x _) cell _) (h + 20) _ a = m a
  rw [store_of_not_mem hh, store_of_not_mem hc, store_of_not_mem hx]

/-- **`slab_free`** stores into the object and into bytes that are the allocator's already. -/
theorem slabFree_frame (h : CacheAt m cache slabs) (heq : slabFree m cache x = some (r, m'))
    (ha : ∀ s ∈ slabs, ¬ s.Bytes a) (hx : a < x ∨ x + 4 ≤ a) : m' a = m a := by
  unfold slabFree at heq
  rcases h.firstSuch_cases (inSlab m x) with ⟨-, hmiss⟩ | ⟨pre, s, post, rfl, -, -, hhit⟩
  · obtain ⟨-, rfl⟩ : Status.error = r ∧ m = m' := by simpa [hmiss] using heq
    rfl
  · have hs := h.slab s (by simp)
    have hne : s.base ≠ 0 := Nat.ne_of_gt hs.placed.pos
    have hbytes := ha s (by simp)
    cases hcell : insertCell m x walkLimit (SlabHeader.freeList s.base) with
    | none => simp [hhit, hne, hcell] at heq
    | some cell =>
      obtain ⟨-, rfl⟩ : Status.success = r ∧ linkObject m s.base x cell = m' := by
        simpa [hhit, hne, hcell] using heq
      unfold Slab.Bytes sizeofSlabHeader at hbytes
      refine linkObject_frame hx ?_ (by omega)
      by_contra hin
      rcases List.mem_cons.mp (insertCell_mem hs.chain hcell) with rfl | hmem
      · unfold SlabHeader.freeList at hin
        exact hbytes (Or.inl (by omega))
      · exact hbytes (Or.inr ⟨cell, hmem, by omega⟩)

/-- **`slab_malloc`** stores into headers and into the block it was given. -/
theorem slabMalloc_frame (h : CacheAt m cache slabs) (hz : 4 ≤ cache.objectSize)
    (hmax : cache.objectSize ≤ slabBytes - sizeofSlabHeader)
    (hp : ∀ p ∈ newPage, Placed (pageVa p))
    (hfresh : ∀ p ∈ newPage, ∀ s ∈ slabs, Apart s.base (pageVa p))
    (heq : slabMalloc m cache newPage = some (x, m', cache'))
    (ha : ∀ s ∈ slabs, a < s.base ∨ s.base + sizeofSlabHeader ≤ a)
    (hnew : ∀ p ∈ newPage, a < pageVa p ∨ pageVa p + slabBytes ≤ a) : m' a = m a := by
  have hhead : 4 ≤ sizeofSlabHeader ∧ sizeofSlabHeader ≤ slabBytes := by decide
  unfold slabMalloc at heq
  rcases slabAllocFromCache_spec h hz with
    ⟨-, hfull⟩ | ⟨pre, base, y, rest, post, m₁, rfl, hfound, -, hframe⟩
  · cases newPage with
    | none =>
      simp only [hfull, slabAddCacheFrame, Option.bind_eq_bind, Option.bind_some, ne_eq,
        not_true_eq_false, if_false, Option.pure_def, Option.some.injEq, Prod.mk.injEq] at heq
      rw [heq.2.1]
    | some page =>
      obtain ⟨m₁, cache₁, hadd, hosize, hcache₁, hframe₁⟩ :=
        slabAddCacheFrame_spec h hz hmax (hp page rfl) (hfresh page rfl)
      have hblock := hnew page rfl
      have hstep : m₁ a = m a := by
        apply hframe₁ a hblock
        intro s hs hin
        have := ha s hs
        omega
      rcases slabAllocFromCache_spec hcache₁ (hosize ▸ hz) with
        ⟨-, hnone⟩ | ⟨pre, base, y, ys, post, m₂, hsplit, hfound, -, hframe₂⟩
      · simp only [hfull, hadd, hnone, Option.bind_eq_bind, Option.bind_some, ne_eq,
          not_true_eq_false, if_false, Option.pure_def, Option.some.injEq, Prod.mk.injEq] at heq
        rw [← heq.2.1]
        exact hstep
      · simp only [hfull, hadd, hfound, Option.bind_eq_bind, Option.bind_some, ne_eq,
          not_true_eq_false, if_false, Option.pure_def, Option.some.injEq, Prod.mk.injEq] at heq
        rw [← heq.2.1, hframe₂ a ?_, hstep]
        -- the object was taken from an old slab or from the new block
        have hmem : (⟨base, y :: ys⟩ : Slab) ∈
            slabs ++ [⟨pageVa page, allSlots cache.objectSize (pageVa page)⟩] := by
          rw [hsplit]
          simp
        rcases List.mem_append.mp hmem with hold | hlast
        · have := ha _ hold
          dsimp only at this
          omega
        · have hnewslab := List.mem_singleton.mp hlast
          rw [Slab.mk.injEq] at hnewslab
          rw [hnewslab.1]
          exact hblock.imp (Nat.lt_add_right 4) (Nat.add_le_add_left hhead.2 _).trans
  · have hne : y ≠ 0 := h.head_ne_zero
    simp only [hfound, Option.bind_eq_bind, Option.bind_some, ne_eq, hne, not_false_eq_true,
      if_true, Option.pure_def, Option.some.injEq, Prod.mk.injEq] at heq
    rw [← heq.2.1]
    apply hframe a
    have := ha ⟨base, y :: rest⟩ (by simp)
    dsimp only at this
    omega

/-! ### All caches -/

theorem kfreeFrom_frame (h : k.Inv S) (is : List (Fin 13))
    (heq : kfreeFrom k p is = some (r, k')) (ha : ∀ i, ∀ s ∈ S i, ¬ s.Bytes a)
    (hp : a < p ∨ p + 4 ≤ a) : k'.mem a = k.mem a := by
  induction is with
  | nil =>
    obtain ⟨-, rfl⟩ : Status.error = r ∧ k = k' := by simpa [kfreeFrom] using heq
    rfl
  | cons i is ih =>
    obtain ⟨b, hb, -⟩ := slabCacheHasAddr_spec (h.cacheAt i) p
    cases b with
    | false =>
      apply ih
      simpa [kfreeFrom, hb] using heq
    | true =>
      cases hfree : slabFree k.mem (k.slabCaches i) p with
      | none => simp [kfreeFrom, hb, hfree] at heq
      | some res =>
        obtain ⟨r', m'⟩ := res
        obtain ⟨-, rfl⟩ : Status.success = r ∧ { k with mem := m' } = k' := by
          simpa [kfreeFrom, hb, hfree] using heq
        exact slabFree_frame (h.cacheAt i) hfree (ha i) hp

theorem kfree_frame (h : k.Inv S) (heq : kfree k p = some (r, k'))
    (ha : ∀ i, ∀ s ∈ S i, ¬ s.Bytes a) (hp : a < p ∨ p + 4 ≤ a) : k'.mem a = k.mem a :=
  kfreeFrom_frame h (List.finRange 13) heq ha hp

theorem kmalloc_frame (h : k.Inv S) (hfresh : ∀ p ∈ newPage, FreshBlock k.slabs p)
    (heq : kmalloc k size newPage = some (x, k'))
    (ha : ∀ i, ∀ s ∈ S i, a < s.base ∨ s.base + sizeofSlabHeader ≤ a)
    (hnew : ∀ p ∈ newPage, a < pageVa p ∨ pageVa p + slabBytes ≤ a) : k'.mem a = k.mem a := by
  unfold kmalloc at heq
  cases hi : k.acceptable size with
  | none =>
    obtain ⟨-, rfl⟩ : 0 = x ∧ k = k' := by simpa [hi] using heq
    rfl
  | some i =>
    simp only [hi] at heq
    obtain ⟨⟨y, m', cache'⟩, hcall, hres⟩ := Option.map_eq_some_iff.mp heq
    obtain ⟨-, rfl⟩ := Prod.mk.inj hres
    exact slabMalloc_frame (h.cacheAt i) (h.size_ge i) (h.size_le i)
      (fun p hp => (hfresh p hp).placed) (fun p hp => h.fresh_apart hfresh p hp i) hcall (ha i) hnew

/-- The slabs after `kmalloc` are those from before, and at most the given block. -/
theorem kmalloc_slabs (h : k.Inv S) (hfresh : ∀ p ∈ newPage, FreshBlock k.slabs p)
    (heq : kmalloc k size newPage = some (x, k')) :
    ∀ b ∈ k'.slabs, b ∈ k.slabs ∨ ∃ p ∈ newPage, b = pageVa p := by
  intro b hb
  rcases kmalloc_spec h hfresh size with
    ⟨-, hcall⟩ | ⟨i, y, m', cache', slabs', -, hcall, hserved, hinv, -⟩
  · obtain ⟨-, rfl⟩ : x = 0 ∧ k' = k := by simpa [hcall] using heq.symm
    exact Or.inl hb
  · obtain ⟨-, rfl⟩ : x = y ∧ k' = _ := by simpa [hcall] using heq.symm
    obtain ⟨j, s, hs, rfl⟩ := hinv.mem_slabs.mp hb
    by_cases hj : j = i
    · subst hj
      rw [Function.update_self] at hs
      rcases hserved.mem_base hs with ⟨t, ht, hbase⟩ | hnew
      · exact Or.inl (h.mem_slabs.mpr ⟨j, t, ht, hbase⟩)
      · exact Or.inr hnew
    · rw [Function.update_of_ne hj] at hs
      exact Or.inl (h.mem_slabs.mpr ⟨j, s, hs, rfl⟩)

/-! ### What a cache can hand out -/

/-- The slots that are free. -/
def freeSlots (slabs : List Slab) : Set ℕ := {x | ∃ s ∈ slabs, x ∈ s.free}

/-- The objects on the free lists of a heap. -/
def freeObjects (k : KernelHeap) : Set ℕ := {x | ∃ h ∈ k.slabs, x ∈ slabFreeList k.mem h}

theorem KernelHeap.Inv.freeObjects_eq (h : k.Inv S) :
    freeObjects k = {x | ∃ i, x ∈ freeSlots (S i)} := by
  ext x
  constructor
  · rintro ⟨b, hb, hx⟩
    obtain ⟨i, s, hs, rfl⟩ := h.mem_slabs.mp hb
    rw [((h.cacheAt i).slab s hs).slabFreeList_eq] at hx
    exact ⟨i, s, hs, hx⟩
  · rintro ⟨i, s, hs, hx⟩
    refine ⟨s.base, h.mem_slabs.mpr ⟨i, s, hs, rfl⟩, ?_⟩
    rw [((h.cacheAt i).slab s hs).slabFreeList_eq]
    exact hx

/-- A free list holds the free objects of its block. -/
theorem KernelHeap.Inv.mem_free_iff (h : k.Inv S) (hs : s ∈ S i) :
    q ∈ s.free ↔ q ∈ freeObjects k ∧ s.base ≤ q ∧ q < s.base + slabBytes := by
  rw [h.freeObjects_eq]
  constructor
  · intro hq
    have hb := (((h.cacheAt i).slab s hs).slot q hq).bounds
    have hge := h.size_ge i
    exact ⟨⟨i, s, hs, hq⟩, by omega, by omega⟩
  · rintro ⟨⟨j, t, ht, hq⟩, h1, h2⟩
    have hb := (((h.cacheAt j).slab t ht).slot q hq).bounds
    have hge := h.size_ge j
    obtain ⟨-, rfl⟩ := h.slab_unique hs ht (by unfold Apart; omega)
    exact hq

/-- The live slots are the slots that are not free. -/
theorem CacheAt.mem_liveSlots (h : CacheAt m cache slabs) (hz : cache.objectSize = z) (hz4 : 4 ≤ z) :
    x ∈ liveSlots z slabs ↔ (∃ b ∈ slabs.map Slab.base, IsSlot z b x) ∧ x ∉ freeSlots slabs := by
  subst hz
  constructor
  · rintro ⟨s, hs, hslot, hnot⟩
    refine ⟨⟨s.base, List.mem_map_of_mem hs, hslot⟩, ?_⟩
    rintro ⟨t, ht, hx⟩
    by_cases heq : s.base = t.base
    · obtain rfl := h.eq_of_base_eq hs ht heq
      exact hnot hx
    · exact hslot.not_of_apart (h.apart_of_ne hs ht heq) ((h.slab t ht).slot x hx)
  · rintro ⟨⟨b, hb, hslot⟩, hnot⟩
    obtain ⟨s, hs, rfl⟩ := List.mem_map.mp hb
    exact ⟨s, hs, hslot, fun hx => hnot ⟨s, hs, hx⟩⟩

/-- A request is served without a new block while its cache has a free object. -/
theorem KernelHeap.Inv.kmalloc_of_free (h : k.Inv S) (hi : cacheFor size = some i)
    (hfree : x ∈ freeSlots (S i)) : ∃ y k', kmalloc k size none = some (y, k') ∧ y ≠ 0 := by
  rcases kmalloc_spec h (fun p (hp : p ∈ none) => nomatch hp) size with
    ⟨hnone, -⟩ | ⟨j, y, m', cache', slabs', hj, hcall, hserved, -, -⟩
  · rw [hi] at hnone
    cases hnone
  · obtain rfl : i = j := Option.some.inj (hi.symm.trans hj)
    refine ⟨y, _, hcall, ?_⟩
    rintro rfl
    rw [← h.size i] at hserved
    obtain ⟨hfull, -⟩ := hserved.null (h.cacheAt i)
    obtain ⟨s, hs, hx⟩ := hfree
    rw [hfull s hs] at hx
    cases hx

/-- Without a new block, `kmalloc` takes the object it returns off the free ones of its cache. -/
theorem KernelHeap.Inv.kmalloc_takes (h : k.Inv S) (hi : cacheFor size = some i)
    (hcall : kmalloc k size none = some (x, k')) (hx : x ≠ 0) :
    ∃ S', k'.Inv S' ∧ ∀ j q, q ∈ freeSlots (S' j) ↔ q ∈ freeSlots (S j) ∧ ¬ (j = i ∧ q = x) := by
  rcases kmalloc_spec h (fun p (hp : p ∈ none) => nomatch hp) size with
    ⟨-, heq⟩ | ⟨j, y, m', cache', slabs', hj, heq, hserved, hinv, -⟩
  · obtain ⟨rfl, -⟩ : x = 0 ∧ k' = k := by simpa [hcall] using heq
    exact absurd rfl hx
  · obtain ⟨rfl, rfl⟩ : x = y ∧ k' = _ := by simpa [hcall] using heq
    obtain rfl : i = j := Option.some.inj (hi.symm.trans hj)
    refine ⟨_, hinv, fun j q => ?_⟩
    by_cases hji : j = i
    · subst hji
      -- the object is live now, and so it is not free
      have hnot : x ∉ freeSlots slabs' := by
        have hc := hinv.cacheAt j
        simp only [Function.update_self] at hc
        have hslots := hserved.liveSlots_eq (h.cacheAt j) (h.size j) (slabCacheSizes_ge j)
        rw [if_neg hx] at hslots
        have hlive : x ∈ liveSlots (slabCacheSizes j) slabs' := by
          rw [hslots]
          exact Set.mem_insert x _
        have hsize : cache'.objectSize = slabCacheSizes j := by
          simpa using hinv.size j
        exact ((hc.mem_liveSlots hsize (slabCacheSizes_ge j)).mp hlive).2
      rw [Function.update_self]
      by_cases hq : q = x
      · subst hq
        simp [hnot]
      · generalize hS : S j = slabs at hserved
        cases hserved with
        | refused _ _ => exact absurd rfl hx
        | reused pre post base x rest _ =>
          simp only [freeSlots, Set.mem_ofPred_eq, List.mem_append, List.mem_cons, or_and_right,
            exists_or, exists_eq_left, hq, false_or, and_false, not_false_eq_true, and_true]
    · rw [Function.update_of_ne hji]
      simp [hji]

/-- The requests, one after the other, are served without a new block. -/
def KernelHeap.Serves (k : KernelHeap) : List ℕ → Prop
  | [] => True
  | size :: sizes => ∃ x k', kmalloc k size none = some (x, k') ∧ x ≠ 0 ∧ k'.Serves sizes

/-- Requests are served as long as no cache gets more of them than it has free objects. -/
theorem KernelHeap.Inv.serves {sizes : List ℕ} (h : k.Inv S) (F : Fin 13 → Finset ℕ)
    (hF : ∀ i, ∀ q ∈ F i, q ∈ freeSlots (S i)) (hsizes : ∀ size ∈ sizes, ∃ i, cacheFor size = some i)
    (hcount : ∀ i, sizes.countP (fun size => cacheFor size = some i) ≤ (F i).card) :
    k.Serves sizes := by
  induction sizes generalizing k S F with
  | nil => trivial
  | cons size sizes ih =>
    obtain ⟨i, hi⟩ := hsizes size List.mem_cons_self
    have hpos : 0 < (F i).card := by
      have hle := hcount i
      rw [List.countP_cons_of_pos (by simp [hi])] at hle
      omega
    obtain ⟨q, hq⟩ := Finset.card_pos.mp hpos
    obtain ⟨x, k', hcall, hx⟩ := h.kmalloc_of_free hi (hF i q hq)
    obtain ⟨S', hinv, hfree⟩ := h.kmalloc_takes hi hcall hx
    refine ⟨x, k', hcall, hx, ?_⟩
    -- one object less in the cache of this request
    refine ih hinv (Function.update F i ((F i).erase x)) (fun j y hy => ?_)
      (fun sz hsz => hsizes sz (List.mem_cons_of_mem _ hsz)) fun j => ?_
    · rw [hfree]
      by_cases hj : j = i
      · subst hj
        rw [Function.update_self, Finset.mem_erase] at hy
        exact ⟨hF j y hy.2, fun hyx => hy.1 hyx.2⟩
      · rw [Function.update_of_ne hj] at hy
        exact ⟨hF j y hy, fun hyx => hj hyx.1⟩
    · have hle := hcount j
      by_cases hj : j = i
      · subst hj
        rw [List.countP_cons_of_pos (by simp [hi])] at hle
        have hcard := Finset.pred_card_le_card_erase (s := F j) (a := x)
        rw [Function.update_self]
        omega
      · have hne : ¬ cacheFor size = some j := fun heq =>
          hj (Option.some.inj (heq.symm.trans hi))
        rw [List.countP_cons_of_neg (by simp [hne])] at hle
        rwa [Function.update_of_ne hj]

/-- A block of its own serves any request that a cache can take. -/
theorem KernelHeap.Inv.kmalloc_of_page (h : k.Inv S) (hfresh : FreshBlock k.slabs p)
    (hsize : size ≤ 32768) : ∃ y k', kmalloc k size (some p) = some (y, k') ∧ y ≠ 0 := by
  have hpages : ∀ q ∈ some p, FreshBlock k.slabs q := fun q hq => Option.some.inj hq ▸ hfresh
  rcases kmalloc_spec h hpages size with
    ⟨hnone, -⟩ | ⟨j, y, m', cache', slabs', -, hcall, hserved, -, -⟩
  · -- the last cache takes it
    have hlast := List.find?_eq_none.mp hnone 12 (List.mem_finRange 12)
    rw [decide_eq_true_eq] at hlast
    exact absurd hsize hlast
  · refine ⟨y, _, hcall, ?_⟩
    rintro rfl
    rw [← h.size j] at hserved
    obtain ⟨-, hnone⟩ := hserved.null (h.cacheAt j)
    cases hnone

/-- What `kmalloc` returns lies in a slab, and ends below the end of the address space. -/
theorem kmalloc_bounds (h : k.Inv S) (hfresh : ∀ p ∈ newPage, FreshBlock k.slabs p)
    (hcall : kmalloc k size newPage = some (x, k')) (hx : x ≠ 0) :
    ∃ b ∈ k'.slabs, b + sizeofSlabHeader ≤ x ∧ x + size ≤ b + slabBytes ∧
      b + slabBytes < 2 ^ 32 := by
  rcases kmalloc_spec h hfresh size with
    ⟨-, heq⟩ | ⟨i, y, m', cache', slabs', hi, heq, hserved, hinv, -⟩
  · obtain ⟨rfl, -⟩ : x = 0 ∧ k' = k := by simpa [hcall] using heq
    exact absurd rfl hx
  · obtain ⟨rfl, rfl⟩ : x = y ∧ k' = _ := by simpa [hcall] using heq
    have hslots := hserved.liveSlots_eq (h.cacheAt i) (h.size i) (slabCacheSizes_ge i)
    rw [if_neg hx] at hslots
    obtain ⟨s, hs, hslot, -⟩ : x ∈ liveSlots (slabCacheSizes i) slabs' := by
      rw [hslots]
      exact Set.mem_insert x _
    have hs' : s ∈ Function.update S i slabs' i := by rwa [Function.update_self]
    have hb := hslot.bounds
    have hle := cacheFor_le hi
    exact ⟨s.base, hinv.mem_slabs.mpr ⟨i, s, hs', rfl⟩, hb.1, by omega,
      ((hinv.cacheAt i).slab s hs').placed.fits⟩

/-! ### What clients hold -/

/-- A byte that is not the allocator's: one of a live result, or one outside the slabs. -/
def HeapState.ClientByte (st : HeapState) (a : ℕ) : Prop :=
  (∃ p size, st.live p = some size ∧ p ≤ a ∧ a < p + size) ∨
    ∀ h ∈ st.heap.slabs, a < h ∨ h + slabBytes ≤ a

/-- A live result and a free object do not overlap. -/
theorem HeapState.Inv.live_apart_free (h : st.Inv S) (hp : st.live p = some size) (hs : s ∈ S i)
    (hq : q ∈ s.free) : p + size ≤ q ∨ q + slabCacheSizes i ≤ p := by
  obtain ⟨j, hj, t, ht, hslot, hnot⟩ := h.exists_slab hp
  have hle := cacheFor_le hj
  have hqslot := ((h.heap.cacheAt i).slab s hs).slot q hq
  rw [h.heap.size i] at hqslot
  have hb := hslot.bounds
  have hb' := hqslot.bounds
  by_cases hap : Apart t.base s.base
  · unfold Apart at hap
    omega
  · obtain ⟨rfl, rfl⟩ := h.heap.slab_unique ht hs hap
    have hap' := hslot.apart hqslot fun heq => hnot (heq ▸ hq)
    omega

theorem HeapState.Inv.not_bytes (h : st.Inv S) (ha : st.ClientByte a) (i : Fin 13) (s : Slab)
    (hs : s ∈ S i) : ¬ s.Bytes a := by
  intro hbytes
  have hslab := (h.heap.cacheAt i).slab s hs
  rcases ha with ⟨p, size, hp, h1, h2⟩ | hout
  · obtain ⟨j, hj, t, ht, hslot, hnot⟩ := h.exists_slab hp
    have hle := cacheFor_le hj
    have hb := hslot.bounds
    have hin := hslab.bytes_bounds (h.heap.size_ge i) hbytes
    obtain ⟨rfl, rfl⟩ := h.heap.slab_unique hs ht (by unfold Apart; omega)
    rcases hbytes with hhead | ⟨x, hx, h3, h4⟩
    · omega
    · -- a free object is another slot of the same slab
      have hxslot := hslab.slot x hx
      rw [h.heap.size i] at hxslot
      have hap := hxslot.apart hslot fun heq => hnot (heq ▸ hx)
      have hge := slabCacheSizes_ge i
      omega
  · have hb := hslab.bytes_bounds (h.heap.size_ge i) hbytes
    have := hout s.base (h.heap.mem_slabs.mpr ⟨i, s, hs, rfl⟩)
    omega

/-- **`kmalloc` leaves what clients hold**, and whatever lies outside the slabs. -/
theorem HeapState.Inv.kmalloc_frame (h : st.Inv S)
    (hfresh : ∀ p ∈ newPage, FreshBlock st.heap.slabs p)
    (hcall : kmalloc st.heap size newPage = some (x, k')) (ha : st.ClientByte a)
    (hnew : (∃ p size, st.live p = some size ∧ p ≤ a ∧ a < p + size) ∨
      ∀ p ∈ newPage, a < pageVa p ∨ pageVa p + slabBytes ≤ a) : k'.mem a = st.heap.mem a := by
  refine Rotary.kmalloc_frame h.heap hfresh hcall (fun i s hs => ?_) fun b hb => ?_
  · by_contra hin
    exact h.not_bytes ha i s hs (Or.inl (by omega))
  · rcases hnew with ⟨p, sz, hp, h1, h2⟩ | hout
    · -- the object is in an old slab
      obtain ⟨i, hi, s, hs, hslot, -⟩ := h.exists_slab hp
      have hle := cacheFor_le hi
      have hbounds := hslot.bounds
      have hap := h.heap.fresh_apart hfresh b hb i s hs
      unfold Apart at hap
      omega
    · exact hout b hb

/-- **`kfree` leaves what clients hold**, the object itself apart. -/
theorem HeapState.Inv.kfree_frame (h : st.Inv S) (hcall : kfree st.heap p = some (r, k'))
    (ha : st.ClientByte a) (hp : a < p ∨ p + 4 ≤ a) : k'.mem a = st.heap.mem a :=
  Rotary.kfree_frame h.heap hcall (h.not_bytes ha) hp

/-- **`kfree` of a live result**: the slabs stay where they are, and exactly this object joins the
    free ones of the cache for its size. -/
theorem HeapState.Inv.kfree_slabs (h : st.Inv S) (hlive : st.live p = some size) :
    ∃ k' S' i, kfree st.heap p = some (.success, k') ∧ cacheFor size = some i ∧
      HeapState.Inv ⟨k', Function.update st.live p none⟩ S' ∧
      (∀ j, (S' j).map Slab.base = (S j).map Slab.base) ∧
      ∀ j q, q ∈ freeSlots (S' j) ↔ q ∈ freeSlots (S j) ∨ j = i ∧ q = p := by
  obtain ⟨i, hi, s, hs, hslot, hnot⟩ := h.exists_slab hlive
  obtain ⟨m', pre, post, f', hsplit, hcall, hinv, hmem⟩ := kfree_spec h.heap hs hslot hnot
  set S' := Function.update S i (pre ++ ⟨s.base, f'⟩ :: post) with hS'
  have hbases : ∀ j, (S' j).map Slab.base = (S j).map Slab.base := by
    intro j
    by_cases hj : j = i
    · subst hj
      rw [hS', Function.update_self, hsplit]
      simp
    · rw [hS', Function.update_of_ne hj]
  have hfree : ∀ j q, q ∈ freeSlots (S' j) ↔ q ∈ freeSlots (S j) ∨ j = i ∧ q = p := by
    intro j q
    by_cases hj : j = i
    · subst hj
      rw [hS', Function.update_self, hsplit]
      simp only [freeSlots, Set.mem_ofPred_eq, List.mem_append, List.mem_cons, or_and_right, exists_or,
        exists_eq_left, hmem, true_and]
      by_cases hqp : q = p
      · simp [hqp]
      · simp [hqp]
    · rw [hS', Function.update_of_ne hj]
      simp [hj]
  -- what is live follows from where the slabs are and what is free
  have hslots : ∀ j q, q ∈ liveSlots (slabCacheSizes j) (S' j) ↔
      q ∈ liveSlots (slabCacheSizes j) (S j) ∧ ¬ (j = i ∧ q = p) := by
    intro j q
    rw [(hinv.cacheAt j).mem_liveSlots (hinv.size j) (slabCacheSizes_ge j),
      (h.heap.cacheAt j).mem_liveSlots (h.heap.size j) (slabCacheSizes_ge j), hbases, hfree]
    tauto
  have hother : ∀ j, j ≠ i → p ∉ liveSlots (slabCacheSizes j) (S j) := fun j hj hin =>
    hj (h.heap.slot_unique hin ⟨s, hs, hslot, hnot⟩)
  refine ⟨_, S', i, hcall, hi, ⟨hinv, fun q sz hq => ?_, fun j q => ?_⟩, hbases, hfree⟩
  · by_cases hqp : q = p
    · simp [hqp] at hq
    · exact h.sized q sz (by simpa [hqp] using hq)
  · rw [hslots]
    by_cases hq : q = p
    · subst hq
      simp only [Function.update_self, reduceCtorEq, false_and, exists_false, iff_false, not_and,
        and_true, not_not]
      intro hin
      by_contra hne
      exact hother j hne hin
    · simp only [Function.update_of_ne hq, hq, and_false, not_false_eq_true, and_true]
      exact h.live j q

end Rotary
