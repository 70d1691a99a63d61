import Rotary.Mm.PallocRun

namespace Rotary

open Lib

/-!
# `page_alloc` and `page_free`, call by call

What one call into the page allocator does, over the bare representation invariant: no more is
asked of the state than that the free lists are proper lists of the blocks that tile the pages.
In particular the use counts may be anything.

* `BuddyRep` — the representation invariant with its witnesses forgotten;
* `pageAlloc_exact` — when `page_alloc` fails, and what it does if it does not;
* `pageAlloc_pageIncUses` — the use counts have no part in that;
* `pageFree_idle_iff` — `page_free` of a page that is not in use is refused only for a page of
  the kernel image.
-/

variable {n p q k order : ℕ} {img : KernelImage} {s s' : BuddyAllocator} {F : ℕ → List ℕ} {L : Live}
  {S : Set ℕ}

/-- The representation invariant of the buddy allocator. -/
def BuddyRep (s : BuddyAllocator) : Prop := ∃ n F L S, Core n s F L S S

theorem Running.buddyRep {L : Live} (h : Running n (s, L) S) : BuddyRep s := by
  obtain ⟨F, hs⟩ := h.sound
  exact ⟨n, F, L, S, hs.core⟩

/-! ### Allocating -/

/-- The block that `page_alloc` hands out. -/
structure Taken (s s' : BuddyAllocator) (t order : ℕ) : Prop where
  aligned : 2 ^ order ∣ t
  wasFree : block t order ⊆ freePages s
  used : (s'.pages t).order = orderUsed
  counted : (s'.pages t).useCount = inc32 (s.pages t).useCount
  others : ∀ i, i ≠ t → (s'.pages i).useCount = (s.pages i).useCount
  free : freePages s' = freePages s \ block t order

/-- **One call of `page_alloc`**: the state is the one before, or one block is taken. -/
theorem Core.pageAlloc_taken (hc : Core n s F L S S) (order : ℕ) :
    (pageAlloc s order = (none, s) ∧
      (orderMax < order ∨ ∀ j, order ≤ j → j ≤ orderMax → F j = [])) ∨
    ∃ t s' F' L', pageAlloc s order = (some t, s') ∧ order ≤ orderMax ∧
      (∃ j, order ≤ j ∧ j ≤ orderMax ∧ F j ≠ []) ∧ Taken s s' t order ∧ t < n ∧
      Core n s' F' L' S S := by
  rcases hc.pageAlloc_cases order with
    hfail | ⟨s₁, F₁, l, t, heq, hk, hsome, hc₁, hF₁, -, huses, -⟩
  · exact Or.inl hfail
  have htF : t ∈ F₁ order := by simp [hF₁]
  obtain ⟨hnone, hc'⟩ := hc₁.take hk htF
  obtain ⟨hsub, hfree⟩ := hc.freePages_grant hnone hc'
  have hcount : ∀ i, ((pageIncUses (buddyRemoveBlock s₁ t) t).pages i).useCount =
      if i = t then inc32 (s.pages t).useCount else (s.pages i).useCount := by
    intro i
    unfold pageIncUses
    rw [BuddyAllocator.setUseCount_useCount, buddyRemoveBlock_useCount, buddyRemoveBlock_useCount,
      huses, huses]
  refine Or.inr ⟨t, _, _, _, heq, hk, hsome, ⟨?_, hsub, ?_, ?_, ?_, hfree⟩, ?_, hc'⟩
  · exact (hc₁.inHand_of_free hk htF).aligned
  · unfold pageIncUses
    rw [BuddyAllocator.setUseCount_order]
    simp [buddyRemoveBlock]
  · rw [hcount, if_pos rfl]
  · intro i hi
    rw [hcount, if_neg hi]
  · exact hc.inRange t (hc₁.free_mem hk htF)

/-- **`page_alloc`.**  In every state with well-formed lists and for every order, it returns null
    exactly if the order is above `ORDER_MAX` or all lists from that order on are empty, and then
    nothing has changed; otherwise it returns the head of an aligned block of free pages, marked
    as used and with one more reference, and exactly the pages of the block are no longer free. -/
theorem pageAlloc_exact (h : BuddyRep s) (order : ℕ) :
    ((pageAlloc s order).1 = none ↔
      orderMax < order ∨ ∀ j, order ≤ j → j ≤ orderMax → freeList s j = []) ∧
    ((pageAlloc s order).1 = none → (pageAlloc s order).2 = s) ∧
    ∀ t, (pageAlloc s order).1 = some t →
      2 ^ order ∣ t ∧ block t order ⊆ freePages s ∧
      ((pageAlloc s order).2.pages t).order = orderUsed ∧
      ((pageAlloc s order).2.pages t).useCount = inc32 (s.pages t).useCount ∧
      freePages (pageAlloc s order).2 = freePages s \ block t order ∧
      BuddyRep (pageAlloc s order).2 := by
  obtain ⟨n, F, L, S, hc⟩ := h
  -- the lists as they are read from memory are the lists of the invariant
  have hlists : (∀ j, order ≤ j → j ≤ orderMax → freeList s j = []) ↔
      ∀ j, order ≤ j → j ≤ orderMax → F j = [] := by
    constructor
    · intro hempty j h1 h2
      rw [← hc.freeList_eq h2]
      exact hempty j h1 h2
    · intro hempty j h1 h2
      rw [hc.freeList_eq h2]
      exact hempty j h1 h2
  rw [hlists]
  rcases hc.pageAlloc_taken order with
    ⟨heq, hwhy⟩ | ⟨t, s', F', L', heq, hk, ⟨j, h1, h2, hne⟩, htaken, -, hc'⟩
  · rw [heq]
    exact ⟨iff_of_true rfl hwhy, fun _ => rfl, fun t ht => by cases ht⟩
  · rw [heq]
    refine ⟨iff_of_false (Option.some_ne_none t) ?_, (fun hnone => by cases hnone), ?_⟩
    · rintro (hlt | hempty)
      · exact absurd hk (Nat.not_le_of_lt hlt)
      · exact hne (hempty j h1 h2)
    · intro t' ht
      obtain rfl := Option.some.inj ht
      exact ⟨htaken.aligned, htaken.wasFree, htaken.used, htaken.counted, htaken.free,
        n, F', L', S, hc'⟩

/-- One free page: the first call takes it. -/
theorem pageAlloc_exact_onePage :
    BuddyRep (releaseAll (initialAllocator emptyImage zeroPast 0xC0010000 64) [0]) ∧
    (pageAlloc (releaseAll (initialAllocator emptyImage zeroPast 0xC0010000 64) [0]) 0).1 = some 0 ∧
    freePages onePage.1 =
      freePages (releaseAll (initialAllocator emptyImage zeroPast 0xC0010000 64) [0]) \ block 0 0 := by
  have hrep : BuddyRep (releaseAll (initialAllocator emptyImage zeroPast 0xC0010000 64) [0]) :=
    (handedOver_zero.running (by decide) (by decide)
      (Or.inr (buddiesBelow_of_groups group_zero))).buddyRep
  have hfirst : (pageAlloc (releaseAll (initialAllocator emptyImage zeroPast 0xC0010000 64) [0]) 0).1 =
      some 0 := by decide
  obtain ⟨-, -, hsome⟩ := pageAlloc_exact hrep 0
  exact ⟨hrep, hfirst, (hsome 0 hfirst).2.2.2.2.1⟩

/-! ### Use counts -/

@[simp] theorem pageIncUses_freeCount (s : BuddyAllocator) (p : ℕ) :
    (pageIncUses s p).freeCount = s.freeCount := rfl

@[simp] theorem pageGetLast_pageIncUses (s : BuddyAllocator) (p k : ℕ) :
    pageGetLast (pageIncUses s p) k = pageGetLast s k := rfl

theorem pageIncUses_comm (s : BuddyAllocator) (p q : ℕ) :
    pageIncUses (pageIncUses s p) q = pageIncUses (pageIncUses s q) p := by
  unfold pageIncUses BuddyAllocator.setUseCount
  dsimp only
  congr 1
  by_cases hpq : p = q
  · rw [hpq]
  · rw [Function.update_of_ne (Ne.symm hpq), Function.update_of_ne hpq, Function.update_comm hpq]

theorem setOrder_pageIncUses (s : BuddyAllocator) (p q : ℕ) (o : ℤ) :
    (pageIncUses s p).setOrder q o = pageIncUses (s.setOrder q o) p := by
  unfold pageIncUses BuddyAllocator.setUseCount BuddyAllocator.setOrder
  dsimp only
  congr 1
  by_cases hpq : p = q
  · subst hpq
    simp only [Function.update_self, Function.update_idem]
  · rw [Function.update_of_ne (Ne.symm hpq), Function.update_of_ne hpq, Function.update_comm hpq]

theorem buddyRemoveBlock_pageIncUses (s : BuddyAllocator) (p q : ℕ) :
    buddyRemoveBlock (pageIncUses s p) q = pageIncUses (buddyRemoveBlock s q) p := by
  have horder : ((pageIncUses s p).pages q).order = (s.pages q).order :=
    BuddyAllocator.setUseCount_order s p _ q
  unfold buddyRemoveBlock
  dsimp only
  rw [horder]
  exact setOrder_pageIncUses ({ s with nodes := clistDeleteNode s.nodes (.buddyNode q) }.setFreeCount
    (s.pages q).order.toNat (dec32 (s.freeCount (s.pages q).order.toNat))) p q orderUsed

theorem buddyAddBlock_pageIncUses (s : BuddyAllocator) (p q k : ℕ) :
    buddyAddBlock (pageIncUses s p) q k = pageIncUses (buddyAddBlock s q k) p := by
  unfold buddyAddBlock
  rw [setOrder_pageIncUses]
  rfl

theorem buddyGet_pageIncUses (s : BuddyAllocator) (p q k : ℕ) :
    buddyGet (pageIncUses s p) q k = ((buddyGet s q k).1, pageIncUses (buddyGet s q k).2 p) := by
  have hpfn : ((pageIncUses s p).pages q).pfn = (s.pages q).pfn :=
    BuddyAllocator.setUseCount_pfn s p _ q
  unfold buddyGet
  dsimp only
  rw [hpfn]
  rfl

theorem splitFrom_pageIncUses (d : ℕ) (s : BuddyAllocator) (p : ℕ) :
    splitFrom d (pageIncUses s p) = ((splitFrom d s).1, pageIncUses (splitFrom d s).2 p) := by
  induction d generalizing s with
  | zero => rfl
  | succ d ih =>
    unfold splitFrom
    dsimp only
    rw [ih, pageIncUses_freeCount, ← apply_ite (fun s => pageIncUses s p)]
    generalize (if s.freeCount (orderMax - d) = 0 then (splitFrom d s).2 else s) = s₁
    rw [pageIncUses_freeCount, pageGetLast_pageIncUses]
    split
    · rfl
    · cases pageGetLast s₁ (orderMax - d) with
      | none => rfl
      | some target =>
        dsimp only
        rw [buddyRemoveBlock_pageIncUses, buddyGet_pageIncUses, buddyAddBlock_pageIncUses,
          buddyAddBlock_pageIncUses]

/-- **`page_alloc` does not look at the use counts**, so one more use of some page before the call
    is one more use of it after. -/
theorem pageAlloc_pageIncUses (s : BuddyAllocator) (p order : ℕ) :
    pageAlloc (pageIncUses s p) order =
      ((pageAlloc s order).1, pageIncUses (pageAlloc s order).2 p) := by
  unfold pageAlloc buddySplitBlock
  split
  · rfl
  · dsimp only
    rw [splitFrom_pageIncUses, pageIncUses_freeCount, ← apply_ite (fun s => pageIncUses s p)]
    generalize (if s.freeCount order = 0 then (splitFrom _ s).2 else s) = s₁
    rw [pageIncUses_freeCount, pageGetLast_pageIncUses]
    split
    · rfl
    · cases pageGetLast s₁ order with
      | none => rfl
      | some target =>
        dsimp only
        rw [buddyRemoveBlock_pageIncUses, pageIncUses_comm]

/-- `page_alloc` counts one use of the page it returns, and none of the others. -/
theorem pageAlloc_useCount {t : ℕ} (heq : pageAlloc s order = (some t, s')) (i : ℕ) :
    (s'.pages i).useCount = if i = t then inc32 (s.pages i).useCount else (s.pages i).useCount := by
  have hsplit : ∀ c, ((if c = 0 then (buddySplitBlock s (order + 1)).2 else s).pages i).useCount =
      (s.pages i).useCount := by
    intro c
    split
    · exact splitFrom_useCount _ s i
    · rfl
  unfold pageAlloc at heq
  split at heq
  · cases heq
  dsimp only at heq
  have hi := hsplit (s.freeCount order)
  revert heq hi
  generalize (if s.freeCount order = 0 then (buddySplitBlock s (order + 1)).2 else s) = s₁
  intro heq hi
  split at heq
  · cases heq
  split at heq
  · cases heq
    unfold pageIncUses
    rw [BuddyAllocator.setUseCount_useCount, buddyRemoveBlock_useCount, buddyRemoveBlock_useCount]
    split
    · rename_i hit
      rw [← hit, hi]
    · exact hi
  · cases heq

/-- One more use for every occurrence in a list of pages. -/
theorem foldl_pageIncUses_useCount (ps : List ℕ) (s : BuddyAllocator) (i : ℕ) :
    ((ps.foldl pageIncUses s).pages i).useCount = inc32^[ps.count i] (s.pages i).useCount := by
  induction ps generalizing s with
  | nil => rfl
  | cons p ps ih =>
    rw [List.foldl_cons, ih, List.count_cons]
    unfold pageIncUses
    rw [BuddyAllocator.setUseCount_useCount]
    by_cases hpi : i = p
    · rw [if_pos hpi, hpi, if_pos (beq_self_eq_true p), Function.iterate_succ_apply]
    · rw [if_neg hpi, if_neg (by simpa using Ne.symm hpi), Nat.add_zero]

/-! ### Freeing a page that is not in use -/

/-- `page_free` reports failure, and the lists, their counts and the page structs keep their
    values. -/
def Rejects (img : KernelImage) (s : BuddyAllocator) (page order : ℕ) : Prop :=
  (pageFree img s (some page) order).1 = .error ∧
    (∀ k ≤ orderMax, freeList (pageFree img s (some page) order).2 k = freeList s k ∧
      (pageFree img s (some page) order).2.freeCount k = s.freeCount k) ∧
    ∀ i, ((pageFree img s (some page) order).2.pages i).order = (s.pages i).order ∧
      ((pageFree img s (some page) order).2.pages i).useCount = (s.pages i).useCount

/-- **A page that is not in use.**  There is no test of the use count: whatever the order, the
    call is refused exactly for a page of the kernel image. -/
theorem pageFree_idle_iff (hidle : (s.pages p).useCount = 0) (order : ℕ) :
    Rejects img s p order ↔
      img.physStart ≤ pfnToPa (s.pages p).pfn ∧ pfnToPa (s.pages p).pfn < img.physEnd := by
  have hcrit : (img.physStart ≤ pfnToPa (s.pages p).pfn ∧ pfnToPa (s.pages p).pfn < img.physEnd) ↔
      pageIsCritical img s p = .error := by
    unfold pageIsCritical
    dsimp only
    split
    · rename_i himg
      exact iff_of_true himg rfl
    · rename_i himg
      exact iff_of_false himg (by decide)
  rw [hcrit]
  constructor
  · intro hrej
    by_contra hnot
    -- the page is freed as if it had one reference
    have hgoes : (pageFree img s (some p) order).1 = .success := by
      simp [pageFree, hnot, hidle]
    rw [hrej.1] at hgoes
    cases hgoes
  · intro himg
    unfold Rejects
    rw [pageFree_critical himg order]
    exact ⟨rfl, fun _ _ => ⟨rfl, rfl⟩, fun _ => ⟨rfl, rfl⟩⟩

/-- The image of one page, at address 0. -/
def onePageImage : KernelImage := { physStart := 0, physEnd := 0x1000 }

theorem pageFree_idle_iff_image :
    Rejects onePageImage (initialAllocator onePageImage zeroPast 0xC0010000 64) 0 3 :=
  (pageFree_idle_iff (by decide) 3).mpr (by decide)

/-- **A free page is freed again.**  Page 0 is on the list of order 0 with use count 0, and
    `page_free` puts it there once more. -/
theorem idle_page_freed :
    ¬ ∀ (img : KernelImage) (n : ℕ) (ps : List ℕ) (s₀ s : BuddyAllocator) (L : Live) (p order : ℕ),
      HandedOver img n ps s₀ → ps.Nodup → (∀ p ∈ ps, OutsideImage img p) →
      BuddiesBelow n {p | p ∈ ps} → Run img (· < 2 ^ 32) (s₀, fun _ => none) (s, L) → p < n →
      (s.pages p).useCount = 0 → Rejects img s p order := by
  intro h
  have hrej := h emptyImage 64 [0] _ _ _ 0 0 handedOver_zero (by decide)
    (fun p _ => outsideImage_empty p) (buddiesBelow_of_groups group_zero) Relation.ReflTransGen.refl
    (by decide) (by decide)
  have hgoes : (pageFree emptyImage
      (releaseAll (initialAllocator emptyImage zeroPast 0xC0010000 64) [0]) (some 0) 0).1 =
      .success := by decide
  rw [hrej.1] at hgoes
  cases hgoes

end Rotary
