import Rotary.Mm.PallocInv

namespace Rotary

open Lib

/-!
# What the buddy operations do

One specification per function of `palloc.c`, over the representation invariant `Core`:

* `buddyMergeBlock_spec` — the block in hand joins the free blocks, and the free blocks stay
  coalesced;
* `splitFrom_spec` — either nothing changed and there is no block to split, or the list one
  order below holds exactly the two halves of one block;
* `pageAlloc_spec`, `pageFree_shared`, `pageFree_last`, `releasePage_spec` — the interface.

Merging consults the page struct of a buddy that may lie past the end of the array.  The
specifications therefore take a `Guard`: either every pfn recorded in `indexed` is in range,
or the free pages are such that no buddy out of range is ever reached (`BuddiesBelow`).
-/

variable {n k p b d : ℕ} {s : BuddyAllocator} {F : ℕ → List ℕ} {L : Live} {S U T : Set ℕ}

/-- Every block of fewer than `2 ^ ORDER_MAX` pages inside `T` has its buddy below `n`. -/
def BuddiesBelow (n : ℕ) (T : Set ℕ) : Prop :=
  ∀ p k, k < orderMax → 2 ^ k ∣ p → block p k ⊆ T → buddy p k < n

theorem BuddiesBelow.mono {T' : Set ℕ} (h : BuddiesBelow n T) (hsub : T' ⊆ T) : BuddiesBelow n T' :=
  fun p k hk hp hb => h p k hk hp (hb.trans hsub)

/-- The pfns in the log are in range, or the free pages `T` keep every lookup in range. -/
def Guard (n : ℕ) (log : List ℕ) (T : Set ℕ) : Prop :=
  (∀ i ∈ log, i < n) ∨ BuddiesBelow n T

/-- `pfn & ~(1 << order)` is the base of the pair, for an aligned pfn. -/
theorem and_not32_eq_pairBase (hk : k < 32) (hp : 2 ^ k ∣ p) (hlt : p < 2 ^ 32) :
    p &&& not32 (2 ^ k) = pairBase p k := by
  have hk32 : 2 ^ k < 2 ^ 32 := Nat.pow_lt_pow_right (by decide) hk
  apply Nat.eq_of_testBit_eq
  intro i
  unfold not32 pairBase
  rw [Nat.testBit_and, Nat.testBit_two_pow_sub_succ hk32, Nat.testBit_mul_two_pow,
    Nat.testBit_div_two_pow, Nat.testBit_two_pow]
  have hlow : i < k → p.testBit i = false := by
    intro hik
    obtain ⟨c, rfl⟩ := hp
    simp [Nat.testBit_two_pow_mul, hik]
  have hhigh : ¬ i < 32 → p.testBit i = false := fun hi =>
    Nat.testBit_lt_two_pow (Nat.lt_of_lt_of_le hlt (Nat.pow_le_pow_right (by decide) (by omega)))
  rcases Nat.lt_trichotomy i k with hik | rfl | hik
  · simp [hlow hik, Nat.not_le_of_lt (Nat.lt_succ_of_lt hik)]
  · simp
  · by_cases hi : i < 32
    · have hki : k + 1 ≤ i := hik
      simp [hi, hik.ne, hki]
    · simp [hi, hhigh hi, Nat.sub_add_cancel (Nat.succ_le_of_lt hik)]

/-! ### Merging -/

/-- **The merge test is exact.**  With the block `(b, k)` in hand, the two fields the loop
    reads on the buddy page say precisely whether the buddy block is on list `k`: a page that
    is not the head of a block is never looked at. -/
theorem Core.merge_test (hc : Core n s F L S U) (hk : k ≤ orderMax) (hal : 2 ^ k ∣ b)
    (hS : S = U ∪ block b k) (hd : Disjoint (block b k) U) (hq : buddy b k < n) :
    ((s.pages (buddy b k)).order = k ∧
      testFlag (s.pages (buddy b k)).flags pfInvalid = false) ↔ buddy b k ∈ F k := by
  constructor
  · rintro ⟨horder, hflag⟩
    have hqS : buddy b k ∈ S := (hc.valid _ hq).mp hflag
    have hqU : buddy b k ∈ U := by
      rw [hS] at hqS
      apply hqS.resolve_right
      intro hin
      exact Set.disjoint_left.mp (disjoint_block_buddy hal) hin (self_mem_block _ _)
    -- the buddy's own buddy is the block in hand, which is not tiled
    have hout : ¬ block (buddy (buddy b k) k) k ⊆ U := by
      rw [buddy_buddy]
      exact fun hin => Set.disjoint_left.mp hd (self_mem_block b k) (hin (self_mem_block b k))
    obtain ⟨j, -, hj | ⟨r, hl⟩⟩ := hc.tiling.eq_head_of_buddy_outside (buddy_dvd hal) hqU hout
    · have hjk : (j : ℤ) = k := (hc.order j hj.1 _ hj.2).symm.trans horder
      obtain rfl : j = k := by exact_mod_cast hjk
      exact hj.2
    · rw [(hc.liveOrder _ _ hl).2] at horder
      simp only [orderUsed] at horder
      omega
  · intro hin
    have hqU := hc.free_mem hk hin
    exact ⟨hc.order k hk _ hin, (hc.valid _ hq).mpr (hc.sub hqU)⟩

/-- A turn of the loop stops, or runs the body and goes on. -/
theorem mergeLoop_succ (d page order : ℕ) (s : BuddyAllocator) :
    mergeLoop (d + 1) page order s = (page, order, (buddyGet s page order).2) ∨
      mergeLoop (d + 1) page order s =
        mergeLoop d (mergeBody (buddyGet s page order).2 page order (buddyGet s page order).1).1
          (order + 1) (mergeBody (buddyGet s page order).2 page order (buddyGet s page order).1).2 := by
  rw [mergeLoop]
  rcases buddyGet s page order with ⟨q, s'⟩
  dsimp only
  split_ifs
  · exact Or.inl rfl
  · exact Or.inl rfl
  · exact Or.inr rfl

theorem mergeLoop_indexed (d page order : ℕ) (s : BuddyAllocator) :
    ∀ i ∈ s.indexed, i ∈ (mergeLoop d page order s).2.2.indexed := by
  induction d generalizing page order s with
  | zero => exact fun i hi => hi
  | succ d ih =>
    intro i hi
    rcases mergeLoop_succ d page order s with heq | heq <;> rw [heq]
    · exact List.mem_cons_of_mem _ hi
    · exact ih _ _ _ i (List.mem_cons_of_mem _ (List.mem_cons_of_mem _ hi))

/-- The first index a turn consults is in the log of the whole loop. -/
theorem buddyGet_mem_mergeLoop_indexed (d page order : ℕ) (s : BuddyAllocator) :
    (buddyGet s page order).1 ∈ (mergeLoop (d + 1) page order s).2.2.indexed := by
  rcases mergeLoop_succ d page order s with heq | heq <;> rw [heq]
  · exact List.mem_cons_self
  · exact mergeLoop_indexed _ _ _ _ _ (List.mem_cons_of_mem _ List.mem_cons_self)

theorem mergeLoop_useCount (d page order : ℕ) (s : BuddyAllocator) (i : ℕ) :
    ((mergeLoop d page order s).2.2.pages i).useCount = (s.pages i).useCount := by
  induction d generalizing page order s with
  | zero => rfl
  | succ d ih =>
    rcases mergeLoop_succ d page order s with heq | heq <;> rw [heq]
    · rfl
    · rw [ih]
      exact BuddyAllocator.setOrder_useCount _ _ _ i

theorem mergeLoop_flags (d page order : ℕ) (s : BuddyAllocator) (i : ℕ) :
    ((mergeLoop d page order s).2.2.pages i).flags = (s.pages i).flags := by
  induction d generalizing page order s with
  | zero => rfl
  | succ d ih =>
    rcases mergeLoop_succ d page order s with heq | heq <;> rw [heq]
    · rfl
    · rw [ih]
      exact BuddyAllocator.setOrder_flags _ _ _ i

theorem coalesced_mono {B C : Set (ℕ × ℕ)} {m : ℕ} (h : Coalesced B m) (hsub : C ⊆ B) :
    Coalesced C m :=
  fun p k hk hp hb => h p k hk (hsub hp) (hsub hb)

/-- A block in hand: aligned, and exactly what the tiling of `S` is missing. -/
structure InHand (b k : ℕ) (S U : Set ℕ) : Prop where
  le : k ≤ orderMax
  aligned : 2 ^ k ∣ b
  rest : S = U ∪ block b k
  disjoint : Disjoint (block b k) U

namespace InHand

theorem head_mem (hb : InHand b k S U) : b ∈ S := by
  rw [hb.rest]
  exact Or.inr (self_mem_block b k)

theorem head_notMem (hb : InHand b k S U) : b ∉ U :=
  Set.disjoint_left.mp hb.disjoint (self_mem_block b k)

theorem subset (hb : InHand b k S U) : block b k ⊆ S := by
  rw [hb.rest]
  exact Set.subset_union_right

/-- Joining the block in hand with its buddy, taken from the tiled set. -/
theorem merge (hb : InHand b k S U) (hk : k < orderMax) (hq : block (buddy b k) k ⊆ U) :
    InHand (pairBase b k) (k + 1) S (U \ block (buddy b k) k) where
  le := hk
  aligned := pairBase_dvd b k
  rest := by
    rw [block_pairBase hb.aligned, hb.rest]
    ext i
    simp only [Set.mem_union, Set.mem_sdiff]
    have := @hq i
    tauto
  disjoint := by
    rw [block_pairBase hb.aligned, Set.disjoint_union_left]
    exact ⟨hb.disjoint.mono_right Set.sdiff_subset, Set.disjoint_sdiff_right⟩

/-- The block in hand holds no page of an allocated block. -/
theorem subset_free (hb : InHand b k S U) (hc : Core n s F L S U) :
    block b k ⊆ S \ cover (liveBlocks L) := by
  intro i hi
  refine ⟨hb.subset hi, fun hl => ?_⟩
  have hiU : i ∈ U := by
    rw [← hc.tiling.cover]
    exact Set.biUnion_subset_biUnion_left Set.subset_union_right hl
  exact Set.disjoint_left.mp hb.disjoint hi hiU

end InHand

/-- **A turn that merges.**  The buddy leaves list `k`, and the block in hand is now the pair. -/
theorem Core.merge_step (hc : Core n s F L S U) (hb : InHand b k S U) (hin : buddy b k ∈ F k) :
    (mergeBody s b k (buddy b k)).1 = pairBase b k ∧
      Core n (mergeBody s b k (buddy b k)).2 (Function.update F k ((F k).erase (buddy b k))) L S
        (U \ block (buddy b k) k) ∧
      (mergeBody s b k (buddy b k)).2.indexed = buddy (pairBase b k) k :: s.indexed := by
  have hbn : b < n := hc.inRange b hb.head_mem
  have hmask : (s.pages b).pfn &&& not32 (2 ^ k) = pairBase b k := by
    rw [hc.pfn b hbn]
    exact and_not32_eq_pairBase (Nat.lt_of_le_of_lt hb.le (by decide)) hb.aligned
      (hbn.trans hc.count_lt)
  have hsub : pairBase b k ∈ S := by
    rcases pairBase_eq_or hb.aligned with heq | heq <;> rw [heq]
    · exact hb.head_mem
    · exact hc.sub (hc.free_mem hb.le hin)
  have hbase : (s.pages (pairBase b k)).pfn = pairBase b k := hc.pfn _ (hc.inRange _ hsub)
  simp only [mergeBody, buddyGet, pageFromPfn, BuddyAllocator.setFreeCount_pages, hmask, hbase,
    BuddyAllocator.setFreeCount_indexed]
  refine ⟨trivial, Core.setOrder ((hc.unlink hb.le hin).index _) ?_ _, rfl⟩
  -- the higher page of the pair is the block in hand or the buddy just unlinked
  rcases pairBase_eq_or hb.aligned with heq | heq <;> rw [heq]
  · exact fun hmem => hmem.2 (self_mem_block _ _)
  · show buddy (buddy b k) k ∉ _
    rw [buddy_buddy]
    exact fun hmem => hb.head_notMem hmem.1

/-- **The merge loop.**  It ends with a (larger) block in hand whose buddy is not free, having
    consulted only pages in range. -/
theorem mergeLoop_spec (hkd : k + d = orderMax) (hc : Core n s F L S U) (hb : InHand b k S U)
    (hco : Coalesced (freeBlocks F) orderMax)
    (hg : Guard n (mergeLoop d b k s).2.2.indexed (S \ cover (liveBlocks L))) :
    ∃ F' U', Core n (mergeLoop d b k s).2.2 F' L S U' ∧
      InHand (mergeLoop d b k s).1 (mergeLoop d b k s).2.1 S U' ∧
      Coalesced (freeBlocks F') orderMax ∧
      ((mergeLoop d b k s).2.1 < orderMax →
        buddy (mergeLoop d b k s).1 (mergeLoop d b k s).2.1 ∉ F' (mergeLoop d b k s).2.1 ∧
          buddy (mergeLoop d b k s).1 (mergeLoop d b k s).2.1 ∈ (mergeLoop d b k s).2.2.indexed) ∧
      (∀ i ∈ (mergeLoop d b k s).2.2.indexed, i ∈ s.indexed ∨ i < n) ∧
      (∀ j, ∀ q ∈ F' j, q ∈ F j) := by
  induction d generalizing k b s F U with
  | zero =>
    refine ⟨F, U, hc, hb, hco, fun hlt => ?_, fun i hi => Or.inl hi, fun j q hq => hq⟩
    simp only [mergeLoop] at hlt
    omega
  | succ d ih =>
    have hk : k < orderMax := by omega
    have hbn : b < n := hc.inRange b hb.head_mem
    have hget : (buddyGet s b k).1 = buddy b k := by
      show (s.pages b).pfn ^^^ 2 ^ k = buddy b k
      rw [hc.pfn b hbn]
      rfl
    -- the consulted index is in range: it is in the final log, or the free pages forbid it
    have hq : buddy b k < n := by
      rcases hg with hlog | hbelow
      · exact hget ▸ hlog _ (buddyGet_mem_mergeLoop_indexed d b k s)
      · exact hbelow b k hk hb.aligned (hb.subset_free hc)
    have hc1 : Core n (buddyGet s b k).2 F L S U := hc.index _
    have hlog1 : ∀ i ∈ (buddyGet s b k).2.indexed, i ∈ s.indexed ∨ i < n := by
      intro i hi
      rcases List.mem_cons.mp hi with rfl | hi
      · exact Or.inr (lt_of_eq_of_lt hget hq)
      · exact Or.inl hi
    have htest := hc1.merge_test hb.le hb.aligned hb.rest hb.disjoint hq
    by_cases hin : buddy b k ∈ F k
    · -- the buddy is free: unlink it and go on with the pair
      obtain ⟨hpage, hc', hlog'⟩ := hc1.merge_step hb hin
      have hloop : mergeLoop (d + 1) b k s = mergeLoop d (pairBase b k) (k + 1)
          (mergeBody (buddyGet s b k).2 b k (buddy b k)).2 := by
        obtain ⟨horder, hflag⟩ := htest.mpr hin
        rw [← hpage, mergeLoop]
        simp only [hget, horder, ne_eq, not_true_eq_false, if_false, hflag, Bool.false_eq_true]
      have hb' := hb.merge hk (hc.tiling.subset (b := (buddy b k, k)) (Or.inl ⟨hb.le, hin⟩))
      have hco' : Coalesced (freeBlocks (Function.update F k ((F k).erase (buddy b k)))) orderMax := by
        apply coalesced_mono hco
        rw [Core.freeBlocks_update_erase hb.le (hc.list_nodup hb.le)]
        exact Set.sdiff_subset
      rw [hloop] at hg ⊢
      obtain ⟨F', U', h1, h2, h3, h4, h5, h6⟩ := ih (by omega) hc' hb' hco' hg
      refine ⟨F', U', h1, h2, h3, h4, fun i hi => ?_, fun j q hq => ?_⟩
      · rcases h5 i hi with hi | hi
        · rw [hlog', List.mem_cons] at hi
          rcases hi with rfl | hi
          · rcases pairBase_eq_or hb.aligned with heq | heq <;> rw [heq]
            · exact Or.inr hq
            · rw [buddy_buddy]
              exact Or.inr hbn
          · exact hlog1 i hi
        · exact Or.inr hi
      · have hq' := h6 j q hq
        by_cases hj : j = k
        · subst hj
          rw [Function.update_self] at hq'
          exact List.mem_of_mem_erase hq'
        · rwa [Function.update_of_ne hj] at hq'
    · -- the buddy is not free: the loop stops here
      have hloop : mergeLoop (d + 1) b k s = (b, k, (buddyGet s b k).2) := by
        have hnot := fun h => hin (htest.mp h)
        rw [mergeLoop]
        simp only [hget]
        by_cases horder : ((buddyGet s b k).2.pages (buddy b k)).order = k
        · have hflag : testFlag ((buddyGet s b k).2.pages (buddy b k)).flags pfInvalid = true := by
            by_contra hne
            exact hnot ⟨horder, by simpa using hne⟩
          simp [horder, hflag]
        · simp [horder]
      rw [hloop]
      refine ⟨F, U, hc1, hb, hco, fun _ => ⟨hin, ?_⟩, hlog1, fun j q hq => hq⟩
      rw [← hget]
      exact List.mem_cons_self

theorem buddyAddBlock_useCount (s : BuddyAllocator) (p k i : ℕ) :
    ((buddyAddBlock s p k).pages i).useCount = (s.pages i).useCount :=
  BuddyAllocator.setOrder_useCount s p k i

theorem buddyMergeBlock_useCount (s : BuddyAllocator) (p k i : ℕ) :
    ((buddyMergeBlock s p k).pages i).useCount = (s.pages i).useCount := by
  rw [buddyMergeBlock, buddyAddBlock_useCount, mergeLoop_useCount]

theorem buddyMergeBlock_flags (s : BuddyAllocator) (p k i : ℕ) :
    ((buddyMergeBlock s p k).pages i).flags = (s.pages i).flags := by
  rw [buddyMergeBlock]
  exact (BuddyAllocator.setOrder_flags _ _ _ i).trans (mergeLoop_flags _ _ _ s i)

theorem buddyMergeBlock_indexed (s : BuddyAllocator) (p k : ℕ) :
    ∀ i ∈ s.indexed, i ∈ (buddyMergeBlock s p k).indexed :=
  mergeLoop_indexed _ _ _ _

/-- Adding a block whose buddy is not free keeps the free blocks coalesced. -/
theorem coalesced_insert {B : Set (ℕ × ℕ)} {m : ℕ} (hco : Coalesced B m)
    (hb : k < m → (buddy b k, k) ∉ B) : Coalesced (insert (b, k) B) m := by
  intro p j hj hp hq
  rcases hp with hp | hp
  · obtain ⟨rfl, rfl⟩ := Prod.mk.inj hp
    rcases hq with hq | hq
    · exact buddy_ne _ _ (Prod.mk.inj hq).1
    · exact hb hj hq
  · rcases hq with hq | hq
    · obtain ⟨hqb, rfl⟩ := Prod.mk.inj hq
      apply hb hj
      rw [← hqb, buddy_buddy]
      exact hp
    · exact hco p j hj hp hq

/-- The buddy of every free block below the top order has been asked for. -/
def Asked (F : ℕ → List ℕ) (log : List ℕ) : Prop :=
  ∀ p k, k < orderMax → p ∈ F k → buddy p k ∈ log

/-- **`buddy_merge_block`.**  The block in hand joins the free blocks, which stay coalesced. -/
theorem buddyMergeBlock_spec (hc : Core n s F L S U) (hb : InHand b k S U)
    (hco : Coalesced (freeBlocks F) orderMax)
    (hg : Guard n (buddyMergeBlock s b k).indexed (S \ cover (liveBlocks L))) :
    ∃ F', Core n (buddyMergeBlock s b k) F' L S S ∧ Coalesced (freeBlocks F') orderMax ∧
      (∀ i ∈ (buddyMergeBlock s b k).indexed, i ∈ s.indexed ∨ i < n) ∧
      (Asked F s.indexed → Asked F' (buddyMergeBlock s b k).indexed) := by
  have hkd : k + (orderMax - k) = orderMax := Nat.add_sub_of_le hb.le
  obtain ⟨F', U', hc', hb', hco', hstop, hlog, hsub⟩ := mergeLoop_spec hkd hc hb hco hg
  have hadd := hc'.add hb'.le hb'.aligned hb'.subset hb'.disjoint
  rw [← hb'.rest] at hadd
  refine ⟨_, hadd, ?_, hlog, fun hasked q j hj hq => ?_⟩
  · rw [Core.freeBlocks_update_cons hb'.le]
    exact coalesced_insert hco' fun hlt hin => (hstop hlt).1 hin.2
  · have hold : q ∈ F' j → buddy q j ∈ (buddyMergeBlock s b k).indexed := fun hin =>
      buddyMergeBlock_indexed s b k _ (hasked q j hj (hsub j q hin))
    by_cases hjk : j = (mergeLoop (orderMax - k) b k s).2.1
    · rw [hjk, Function.update_self, List.mem_cons] at hq
      rcases hq with rfl | hq
      · rw [hjk] at hj ⊢
        exact (hstop hj).2
      · exact hold (hjk ▸ hq)
    · rw [Function.update_of_ne hjk] at hq
      exact hold hq

/-! ### Splitting -/

/-- The last page of a list, as `page_get_last` finds it behind the head. -/
theorem Core.pageGetLast_eq (hc : Core n s F L S U) (hk : k ≤ orderMax) {l : List ℕ} {t : ℕ}
    (hF : F k = l ++ [t]) : pageGetLast s k = some t := by
  have hprev := (hc.ring k hk).prev_head
  rw [hF, List.map_append, List.map_singleton, List.getLastD_concat] at hprev
  unfold pageGetLast
  rw [hprev]

/-- A free block without its neighbours in hand. -/
theorem Core.inHand_of_free (hc : Core n s F L S S) (hk : k ≤ orderMax) (hp : p ∈ F k) :
    InHand p k S (S \ block p k) where
  le := hk
  aligned := hc.tiling.aligned (p, k) (Or.inl ⟨hk, hp⟩)
  rest := (Set.sdiff_union_of_subset (hc.tiling.subset (b := (p, k)) (Or.inl ⟨hk, hp⟩))).symm
  disjoint := Set.disjoint_sdiff_right

/-- The part of `buddy_split_block` behind the search: take the last block of order `m + 1`
    apart and put its two halves on list `m`. -/
theorem Core.split_last (hc : Core n s F L S S) {m t : ℕ} {l : List ℕ} (hm : m + 1 ≤ orderMax)
    (hF : F (m + 1) = l ++ [t]) (hempty : F m = []) :
    ∃ F', Core n (buddyAddBlock (buddyAddBlock (buddyGet (buddyRemoveBlock s t) t m).2 t m)
        (buddyGet (buddyRemoveBlock s t) t m).1 m) F' L S S ∧
      F' m = [buddy t m, t] ∧
      (Coalesced (freeBlocks F \ {(t, m + 1)}) orderMax →
        Coalesced (freeBlocks F' \ {(t, m)}) orderMax) ∧
      (∀ j < m, F' j = F j) ∧ (buddyGet (buddyRemoveBlock s t) t m).1 < n := by
  have htF : t ∈ F (m + 1) := by simp [hF]
  have hb := hc.inHand_of_free hm htF
  have hmle : m ≤ orderMax := Nat.le_of_succ_le hm
  have halm : 2 ^ m ∣ t := (pow_dvd_pow 2 (Nat.le_succ m)).trans hb.aligned
  have hbase : pairBase t m = t := Nat.div_mul_cancel hb.aligned
  have hpair : block t (m + 1) = block t m ∪ block (buddy t m) m := by
    have hpb := block_pairBase halm
    rwa [hbase] at hpb
  have hremove := hc.remove hm htF
  have hget : (buddyGet (buddyRemoveBlock s t) t m).1 = buddy t m := by
    show ((buddyRemoveBlock s t).pages t).pfn ^^^ 2 ^ m = buddy t m
    rw [hremove.pfn t (hc.inRange t hb.head_mem)]
    rfl
  -- the two halves are disjoint from the rest and from each other
  have hd1 : Disjoint (block t m) (S \ block t (m + 1)) :=
    hb.disjoint.mono_left (by rw [hpair]; exact Set.subset_union_left)
  have hd2 : Disjoint (block (buddy t m) m) (S \ block t (m + 1)) :=
    hb.disjoint.mono_left (by rw [hpair]; exact Set.subset_union_right)
  have hsub := hb.subset
  rw [hpair, Set.union_subset_iff] at hsub
  have hadd1 := (hremove.index (buddy t m)).add hmle halm hsub.1 hd1
  have hadd2 := hadd1.add hmle (buddy_dvd halm) hsub.2
    (Set.disjoint_union_right.mpr ⟨hd2, (disjoint_block_buddy halm).symm⟩)
  rw [Set.union_assoc, ← hpair, ← hb.rest] at hadd2
  have hstate : (buddyGet (buddyRemoveBlock s t) t m).2
      = { buddyRemoveBlock s t with indexed := buddy t m :: (buddyRemoveBlock s t).indexed } := by
    rw [← hget]
    rfl
  rw [hget, hstate]
  refine ⟨_, hadd2, ?_, ?_, ?_, hc.inRange _ (hsub.2 (self_mem_block _ _))⟩
  · simp [hempty]
  · intro hco
    rw [Core.freeBlocks_update_cons hmle, Core.freeBlocks_update_cons hmle,
      Core.freeBlocks_update_erase hm (hc.list_nodup hm)]
    have htm : (t, m) ∉ freeBlocks F := by simp [hempty]
    have hrest : insert (buddy t m, m) (insert (t, m) (freeBlocks F \ {(t, m + 1)})) \ {(t, m)}
        = insert (buddy t m, m) (freeBlocks F \ {(t, m + 1)}) := by
      ext ⟨q, j⟩
      have hbt := buddy_ne t m
      simp only [Set.mem_sdiff, Set.mem_insert_iff, Set.mem_singleton_iff, Prod.mk.injEq]
      constructor
      · tauto
      · rintro (⟨rfl, rfl⟩ | ⟨hq, hne⟩)
        · exact ⟨Or.inl ⟨rfl, rfl⟩, fun h => hbt h.1⟩
        · refine ⟨Or.inr (Or.inr ⟨hq, hne⟩), ?_⟩
          rintro ⟨rfl, rfl⟩
          exact htm hq
    rw [hrest]
    apply coalesced_insert hco
    intro _ hin
    rw [buddy_buddy] at hin
    exact htm hin.1
  · intro j hj
    have h1 : j ≠ m := hj.ne
    have h2 : j ≠ m + 1 := (Nat.lt_succ_of_lt hj).ne
    simp [h1, h2]

theorem splitFrom_useCount (d : ℕ) (s : BuddyAllocator) (i : ℕ) :
    ((splitFrom d s).2.pages i).useCount = (s.pages i).useCount := by
  induction d generalizing s with
  | zero => rfl
  | succ d ih =>
    have hfirst : (((if s.freeCount (orderMax - d) = 0 then (splitFrom d s).2 else s).pages i).useCount)
        = (s.pages i).useCount := by
      split
      · exact ih s
      · rfl
    rw [splitFrom]
    dsimp only
    generalize (if s.freeCount (orderMax - d) = 0 then (splitFrom d s).2 else s) = s₁ at hfirst ⊢
    split
    · exact hfirst
    · split
      · exact hfirst
      · rw [buddyAddBlock_useCount, buddyAddBlock_useCount]
        exact (BuddyAllocator.setOrder_useCount _ _ orderUsed i).trans hfirst

theorem splitFrom_indexed (d : ℕ) (s : BuddyAllocator) :
    ∀ i ∈ s.indexed, i ∈ (splitFrom d s).2.indexed := by
  induction d generalizing s with
  | zero => exact fun i hi => hi
  | succ d ih =>
    intro i hi
    have hfirst : i ∈ (if s.freeCount (orderMax - d) = 0 then (splitFrom d s).2 else s).indexed := by
      split
      · exact ih s i hi
      · exact hi
    rw [splitFrom]
    dsimp only
    generalize (if s.freeCount (orderMax - d) = 0 then (splitFrom d s).2 else s) = s₁ at hfirst ⊢
    split
    · exact hfirst
    · split
      · exact hfirst
      · exact List.mem_cons_of_mem _ hfirst

/-- **`buddy_split_block`.**  Called for an order one above an empty list, it changes nothing if
    no larger block is free; otherwise that list ends up holding the two halves of one block. -/
theorem splitFrom_spec (hd : d ≤ orderMax) (hc : Core n s F L S S)
    (hempty : F (orderMax - d) = []) :
    ((splitFrom d s).2 = s ∧ ∀ j, orderMax - d ≤ j → j ≤ orderMax → F j = []) ∨
      ∃ F' t, Core n (splitFrom d s).2 F' L S S ∧
        F' (orderMax - d) = [buddy t (orderMax - d), t] ∧
        (Coalesced (freeBlocks F) orderMax →
          Coalesced (freeBlocks F' \ {(t, orderMax - d)}) orderMax) ∧
        (∃ j, orderMax - d ≤ j ∧ j ≤ orderMax ∧ F j ≠ []) ∧
        (∀ j < orderMax - d, F' j = F j) ∧
        (∀ i ∈ (splitFrom d s).2.indexed, i ∈ s.indexed ∨ i < n) := by
  induction d generalizing s F with
  | zero =>
    refine Or.inl ⟨rfl, fun j h1 h2 => ?_⟩
    obtain rfl : j = orderMax - 0 := by omega
    exact hempty
  | succ d ih =>
    have hm : orderMax - (d + 1) + 1 = orderMax - d := by omega
    have hkle : orderMax - d ≤ orderMax := Nat.sub_le _ _
    have hsub1 : orderMax - d - 1 = orderMax - (d + 1) := by omega
    -- the state from which the last block of order `orderMax - d` is taken
    have htail : ∀ s₁ F₁ t l, Core n s₁ F₁ L S S → F₁ (orderMax - d) = l ++ [t] →
        F₁ (orderMax - (d + 1)) = [] →
        (Coalesced (freeBlocks F) orderMax →
          Coalesced (freeBlocks F₁ \ {(t, orderMax - d)}) orderMax) →
        (∃ j, orderMax - (d + 1) ≤ j ∧ j ≤ orderMax ∧ F j ≠ []) →
        (∀ j < orderMax - d, F₁ j = F j) → (∀ i ∈ s₁.indexed, i ∈ s.indexed ∨ i < n) →
        s₁ = (if s.freeCount (orderMax - d) = 0 then (splitFrom d s).2 else s) →
        ∃ F' t, Core n (splitFrom (d + 1) s).2 F' L S S ∧
          F' (orderMax - (d + 1)) = [buddy t (orderMax - (d + 1)), t] ∧
          (Coalesced (freeBlocks F) orderMax →
            Coalesced (freeBlocks F' \ {(t, orderMax - (d + 1))}) orderMax) ∧
          (∃ j, orderMax - (d + 1) ≤ j ∧ j ≤ orderMax ∧ F j ≠ []) ∧
          (∀ j < orderMax - (d + 1), F' j = F j) ∧
          (∀ i ∈ (splitFrom (d + 1) s).2.indexed, i ∈ s.indexed ∨ i < n) := by
      intro s₁ F₁ t l hc₁ hF₁ he₁ hco₁ hsome hlow hlog hs₁
      have hcount : s₁.freeCount (orderMax - d) ≠ 0 := by
        rw [hc₁.freeCount _ hkle, hF₁]
        simp
      have hsplit : (splitFrom (d + 1) s).2 = buddyAddBlock (buddyAddBlock
          (buddyGet (buddyRemoveBlock s₁ t) t (orderMax - (d + 1))).2 t (orderMax - (d + 1)))
          (buddyGet (buddyRemoveBlock s₁ t) t (orderMax - (d + 1))).1 (orderMax - (d + 1)) := by
        rw [splitFrom]
        simp only [← hs₁, hcount, if_false, hc₁.pageGetLast_eq hkle hF₁, hsub1]
      rw [← hm] at hF₁ hco₁
      obtain ⟨F', h1, h2, h3, h4, h5⟩ := hc₁.split_last (by omega) hF₁ he₁
      rw [hsplit]
      refine ⟨F', t, h1, h2, fun hco => h3 (hco₁ hco), hsome,
        fun j hj => (h4 j hj).trans (hlow j (by omega)), fun i hi => ?_⟩
      rcases List.mem_cons.mp hi with rfl | hi
      · exact Or.inr h5
      · exact hlog i hi
    by_cases hF : F (orderMax - d) = []
    · -- nothing at this order: split higher first
      have hcount : s.freeCount (orderMax - d) = 0 := by rw [hc.freeCount _ hkle, hF]; rfl
      rcases ih (by omega) hc hF with
        ⟨hsame, hnone⟩ | ⟨F₁, t, hc₁, hF₁, hco₁, ⟨j, hj, hjle, hFj⟩, hlow, hlog⟩
      · left
        constructor
        · rw [splitFrom]
          simp only [hcount, if_true, hsame]
        · intro j h1 h2
          rcases Nat.eq_or_lt_of_le h1 with rfl | hlt
          · exact hempty
          · exact hnone j (by omega) h2
      · right
        refine htail _ F₁ t [buddy t (orderMax - d)] hc₁ hF₁ ?_ hco₁ ⟨j, by omega, hjle, hFj⟩
          hlow hlog ?_
        · rw [hlow _ (by omega), hempty]
        · rw [if_pos hcount]
    · right
      obtain ⟨l, t, hlt⟩ := (List.eq_nil_or_concat (F (orderMax - d))).resolve_left hF
      rw [List.concat_eq_append] at hlt
      refine htail s F t l hc hlt hempty (fun hco => coalesced_mono hco Set.sdiff_subset)
        ⟨orderMax - d, by omega, hkle, hF⟩ (fun _ _ => rfl) (fun i hi => Or.inl hi) ?_
      rw [if_neg]
      rw [hc.freeCount _ hkle, hlt]
      simp

/-! ### The interface -/

/-- The state between two calls. -/
structure Sound (n : ℕ) (s : BuddyAllocator) (F : ℕ → List ℕ) (L : Live) (S : Set ℕ) : Prop where
  core : Core n s F L S S
  uses : Uses n s L
  coalesced : Coalesced (freeBlocks F) orderMax

theorem buddyRemoveBlock_useCount (s : BuddyAllocator) (p i : ℕ) :
    ((buddyRemoveBlock s p).pages i).useCount = (s.pages i).useCount :=
  BuddyAllocator.setOrder_useCount _ p orderUsed i

/-- Taking a free block for the caller of `page_alloc`. -/
theorem Core.take (hc : Core n s F L S S) {t : ℕ} (hk : k ≤ orderMax) (ht : t ∈ F k) :
    L t = none ∧ Core n (pageIncUses (buddyRemoveBlock s t) t)
      (Function.update F k ((F k).erase t)) (Function.update L t (some ⟨k, 1⟩)) S S := by
  have hb := hc.inHand_of_free hk ht
  have hremove := hc.remove hk ht
  have hused : ((buddyRemoveBlock s t).pages t).order = orderUsed := by
    simp [buddyRemoveBlock]
  have hgrant := hremove.grant hk hb.aligned hb.subset hb.disjoint hused 1
  rw [← hb.rest] at hgrant
  exact ⟨hremove.live_none_of_notMem hb.head_notMem, hgrant.setUseCount t _⟩

/-- Taking the last block of a list for the caller of `page_alloc`. -/
theorem Sound.take_last (hc : Core n s F L S S) (hu : Uses n s L) {t : ℕ} {l : List ℕ}
    (hk : k ≤ orderMax) (hF : F k = l ++ [t])
    (hco : Coalesced (freeBlocks F \ {(t, k)}) orderMax) :
    ∃ F', Sound n (pageIncUses (buddyRemoveBlock s t) t) F'
      (Function.update L t (some ⟨k, 1⟩)) S ∧ L t = none := by
  have htF : t ∈ F k := by simp [hF]
  have hb := hc.inHand_of_free hk htF
  obtain ⟨hnone, hcore⟩ := hc.take hk htF
  have hcount := buddyRemoveBlock_useCount s t
  refine ⟨_, ⟨hcore, ⟨?_, ?_⟩, ?_⟩, hnone⟩
  · intro q lb hq
    by_cases hqt : q = t
    · subst hqt
      rw [Function.update_self, Option.some.injEq] at hq
      subst hq
      have hzero := hu.idle q (hc.inRange q hb.head_mem) hnone
      simp [pageIncUses, hcount, hzero, inc32, u32]
    · rw [Function.update_of_ne hqt] at hq
      simpa [pageIncUses, hcount, hqt] using hu.live q lb hq
  · intro i hi hl
    by_cases hit : i = t
    · subst hit
      simp at hl
    · rw [Function.update_of_ne hit] at hl
      simpa [pageIncUses, hcount, hit] using hu.idle i hi hl
  · rwa [Core.freeBlocks_update_erase hk (hc.list_nodup hk)]

/-- **`page_alloc` over the bare invariant.**  It fails, changing nothing, exactly when the order
    is too large or no list from it on has a block; otherwise it takes the last block of its list,
    in a state `s₁` that differs from `s` by splits only. -/
theorem Core.pageAlloc_cases (hc : Core n s F L S S) (order : ℕ) :
    (pageAlloc s order = (none, s) ∧
      (orderMax < order ∨ ∀ j, order ≤ j → j ≤ orderMax → F j = [])) ∨
    ∃ s₁ F₁ l t, pageAlloc s order = (some t, pageIncUses (buddyRemoveBlock s₁ t) t) ∧
      order ≤ orderMax ∧ (∃ j, order ≤ j ∧ j ≤ orderMax ∧ F j ≠ []) ∧ Core n s₁ F₁ L S S ∧
      F₁ order = l ++ [t] ∧
      (Coalesced (freeBlocks F) orderMax → Coalesced (freeBlocks F₁ \ {(t, order)}) orderMax) ∧
      (∀ i, (s₁.pages i).useCount = (s.pages i).useCount) ∧
      ∀ i ∈ s₁.indexed, i ∈ s.indexed ∨ i < n := by
  by_cases hlt : orderMax < order
  · exact Or.inl ⟨by simp [pageAlloc, hlt], Or.inl hlt⟩
  have hk : order ≤ orderMax := Nat.le_of_not_lt hlt
  by_cases hF : F order = []
  · -- the list is empty: split a larger block
    have hcount : s.freeCount order = 0 := by rw [hc.freeCount _ hk, hF]; rfl
    have hd : orderMax - (orderMax - order) = order := Nat.sub_sub_self hk
    have hsplit : buddySplitBlock s (order + 1) = splitFrom (orderMax - order) s := by
      rw [buddySplitBlock, Nat.add_sub_add_right]
    have hspec := splitFrom_spec (Nat.sub_le _ _) hc (by rw [hd]; exact hF)
    rw [hd] at hspec
    rcases hspec with ⟨hsame, hnone⟩ | ⟨F', t, hc', hF', hco', hsome, -, hlog⟩
    · left
      refine ⟨?_, Or.inr hnone⟩
      simp only [pageAlloc, if_neg hlt, hcount, if_true, hsplit, hsame]
    · right
      -- the list holds the halves of the last split, and the last of them is taken
      have hF'' : F' order = [buddy t order] ++ [t] := hF'
      have hcount' : (splitFrom (orderMax - order) s).2.freeCount order ≠ 0 := by
        rw [hc'.freeCount _ hk, hF']
        simp
      refine ⟨_, F', _, t, ?_, hk, hsome, hc', hF'', hco', splitFrom_useCount _ s, hlog⟩
      simp only [pageAlloc, if_neg hlt, hcount, if_true, hsplit, hcount', if_false,
        hc'.pageGetLast_eq hk hF'']
  · right
    obtain ⟨l, t, hlt'⟩ := (List.eq_nil_or_concat (F order)).resolve_left hF
    rw [List.concat_eq_append] at hlt'
    have hcount : s.freeCount order ≠ 0 := by
      rw [hc.freeCount _ hk, hlt']
      simp
    refine ⟨s, F, l, t, ?_, hk, ⟨order, le_rfl, hk, hF⟩, hc, hlt',
      fun hco => coalesced_mono hco Set.sdiff_subset, fun _ => rfl, fun i hi => Or.inl hi⟩
    simp only [pageAlloc, if_neg hlt, hcount, if_false, hc.pageGetLast_eq hk hlt']

/-- **`page_alloc`** between two calls: it fails, changing nothing, exactly when the order is too
    large or no list from it on has a block; otherwise the block it returns was free and is now
    live with one reference. -/
theorem pageAlloc_spec (hs : Sound n s F L S) (order : ℕ) :
    (pageAlloc s order = (none, s) ∧
      (orderMax < order ∨ ∀ j, order ≤ j → j ≤ orderMax → F j = [])) ∨
    ∃ t s' F', pageAlloc s order = (some t, s') ∧ order ≤ orderMax ∧ L t = none ∧
      Sound n s' F' (Function.update L t (some ⟨order, 1⟩)) S ∧
      ∀ i ∈ s'.indexed, i ∈ s.indexed ∨ i < n := by
  obtain ⟨hc, hu, hco⟩ := hs
  rcases hc.pageAlloc_cases order with
    hfail | ⟨s₁, F₁, l, t, heq, hk, -, hc₁, hF₁, hco₁, huses, hlog⟩
  · exact Or.inl hfail
  · have hu₁ : Uses n s₁ L :=
      ⟨fun q lb hq => by rw [huses]; exact hu.live q lb hq,
        fun i hi hl => by rw [huses]; exact hu.idle i hi hl⟩
    obtain ⟨F', hsound, hnone⟩ := Sound.take_last hc₁ hu₁ hk hF₁ (hco₁ hco)
    exact Or.inr ⟨t, _, F', heq, hk, hnone, hsound, hlog⟩

/-- `page_free` of a page of the kernel image is refused. -/
theorem pageFree_critical {img : KernelImage} (hcrit : pageIsCritical img s p = .error) (k : ℕ) :
    pageFree img s (some p) k = (.error, s) := by
  simp [pageFree, hcrit]

/-- **`page_free`** with references left only counts down. -/
theorem pageFree_shared {img : KernelImage} (hs : Sound n s F L S) {r : ℕ}
    (hl : L p = some ⟨k, r⟩) (hr : 1 < r) (hcrit : pageIsCritical img s p ≠ .error) :
    pageFree img s (some p) k = (.success, pageDecUses s p) ∧
      Sound n (pageDecUses s p) F (Function.update L p (some ⟨k, r - 1⟩)) S := by
  obtain ⟨hc, hu, hco⟩ := hs
  obtain ⟨hcount, -, hlt⟩ := hu.live p _ hl
  simp only at hcount hlt
  refine ⟨by simp [pageFree, hcrit, hcount, hr], ⟨(hc.recount hl (r - 1)).setUseCount p _, ?_, hco⟩⟩
  constructor
  · intro q lb hq
    by_cases hqp : q = p
    · subst hqp
      rw [Function.update_self, Option.some.injEq] at hq
      subst hq
      simp only [pageDecUses, BuddyAllocator.setUseCount_useCount, if_true, hcount,
        dec32_of_pos (by omega) hlt, true_and]
      omega
    · rw [Function.update_of_ne hqp] at hq
      simpa [pageDecUses, hqp] using hu.live q lb hq
  · intro i hi hli
    by_cases hip : i = p
    · subst hip
      simp at hli
    · rw [Function.update_of_ne hip] at hli
      simpa [pageDecUses, hip] using hu.idle i hi hli

/-- **`page_free`** of the last reference gives the block back. -/
theorem pageFree_last {img : KernelImage} (hs : Sound n s F L S) (hl : L p = some ⟨k, 1⟩)
    (hcrit : pageIsCritical img s p ≠ .error)
    (hg : Guard n (pageFree img s (some p) k).2.indexed (S \ cover (liveBlocks (Function.update L p none)))) :
    (pageFree img s (some p) k).1 = .success ∧
      (∃ F', Sound n (pageFree img s (some p) k).2 F' (Function.update L p none) S) ∧
      ∀ i ∈ (pageFree img s (some p) k).2.indexed, i ∈ s.indexed ∨ i < n := by
  obtain ⟨hc, hu, hco⟩ := hs
  obtain ⟨hcount, -, -⟩ := hu.live p _ hl
  simp only at hcount
  have hmem : (p, k) ∈ freeBlocks F ∪ liveBlocks L := Or.inr ⟨1, hl⟩
  -- the block is in nobody's hand but the caller's
  have hb : InHand p k S (S \ block p k) :=
    ⟨(hc.liveOrder p _ hl).1, hc.tiling.aligned _ hmem,
      (Set.sdiff_union_of_subset (hc.tiling.subset hmem)).symm, Set.disjoint_sdiff_right⟩
  have hfree : pageFree img s (some p) k
      = (.success, pageDecUses (buddyMergeBlock (s.setOrder p k) p k) p) := by
    simp [pageFree, hcrit, hcount]
  rw [hfree] at hg ⊢
  have hc' := (hc.revoke hl).setOrder hb.head_notMem (k : ℤ)
  obtain ⟨F', hcore, hco', hlog, -⟩ := buddyMergeBlock_spec hc' hb hco hg
  refine ⟨rfl, ⟨F', hcore.setUseCount p _, ⟨?_, ?_⟩, hco'⟩, hlog⟩
  · intro q lb hq
    have hqp : q ≠ p := by rintro rfl; simp at hq
    rw [Function.update_of_ne hqp] at hq
    simpa [pageDecUses, hqp, buddyMergeBlock_useCount] using hu.live q lb hq
  · intro i hi hli
    by_cases hip : i = p
    · subst hip
      -- merging leaves the counts, so that the decrement comes to zero
      simp [pageDecUses, buddyMergeBlock_useCount, hcount, dec32, u32]
    · rw [Function.update_of_ne hip] at hli
      simpa [pageDecUses, hip, buddyMergeBlock_useCount] using hu.idle i hi hli

/-- **Handing a page over**: a page that was still marked invalid becomes a free page. -/
theorem releasePage_spec (hs : Sound n s F L S) (hp : p < n) (hpS : p ∉ S)
    (hg : Guard n (releasePage s p).indexed (insert p S \ cover (liveBlocks L))) :
    ∃ F', Sound n (releasePage s p) F' L (insert p S) ∧
      (∀ i ∈ (releasePage s p).indexed, i ∈ s.indexed ∨ i < n) ∧
      (Asked F s.indexed → Asked F' (releasePage s p).indexed) := by
  obtain ⟨hc, hu, hco⟩ := hs
  have hb : InHand p 0 (insert p S) S := by
    refine ⟨Nat.zero_le _, by simp, ?_, ?_⟩
    · rw [block_zero, Set.union_comm]
      rfl
    · rw [block_zero]
      exact Set.disjoint_singleton_left.mpr hpS
  obtain ⟨F', hcore, hco', hlog, hasked⟩ := buddyMergeBlock_spec (hc.clearInvalid hp) hb hco hg
  have huses : ∀ i, ((releasePage s p).pages i).useCount = (s.pages i).useCount := by
    intro i
    rw [releasePage, pageInitialFree, buddyMergeBlock_useCount, BuddyAllocator.setFlags_useCount]
  refine ⟨F', ⟨hcore, ⟨?_, ?_⟩, hco'⟩, hlog, hasked⟩
  · intro q lb hq
    rw [huses]
    exact hu.live q lb hq
  · intro i hi hl
    rw [huses]
    exact hu.idle i hi hl

end Rotary
