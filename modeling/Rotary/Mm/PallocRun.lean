import Mathlib.Logic.Relation
import Rotary.Mm.PallocSpec

namespace Rotary

open Lib

/-!
# Runs of the page allocator

The allocator is started by `buddy_init`, is handed its pages one by one, and then serves
`page_alloc`, `PAGE_INC_USES` and `page_free`.  A run carries the map of the blocks handed out
beside the allocator's own state: `page_alloc` grants a block with one reference,
`PAGE_INC_USES` takes one more, `page_free` gives one back.

`Step img ok` admits every call a well-behaved client can make; `ok` limits the number of
references a client may hold on one block, since `use_count` is a 32-bit word.  The invariant
`Running` is proved of `buddy_init`, of the hand-over and of each step, and hence of every
state a run reaches (`Running.run`).
-/

variable {n p k : ℕ} {img : KernelImage} {ok : ℕ → Prop} {s : BuddyAllocator} {F : ℕ → List ℕ}
  {L : Live} {S : Set ℕ} {x y : BuddyAllocator × Live}

/-- The blocks handed out after `page_alloc(order)` returned `res`. -/
def Live.granted (L : Live) (order : ℕ) (res : Option ℕ) : Live :=
  match res with
  | none => L
  | some t => Function.update L t (some ⟨order, 1⟩)

/-- The blocks handed out after `page_free` of one reference to the block `b` at `p`. -/
def Live.returned (L : Live) (p : ℕ) (b : LiveBlock) (res : Status) : Live :=
  match res with
  | .error => L
  | .success => Function.update L p (if b.refs = 1 then none else some ⟨b.order, b.refs - 1⟩)

/-- One call into the allocator by its clients. -/
inductive Step (img : KernelImage) (ok : ℕ → Prop) :
    BuddyAllocator × Live → BuddyAllocator × Live → Prop
  | alloc (s : BuddyAllocator) (L : Live) (order : ℕ) :
      Step img ok (s, L) ((pageAlloc s order).2, L.granted order (pageAlloc s order).1)
  | inc (s : BuddyAllocator) (L : Live) (p : ℕ) (b : LiveBlock) (hl : L p = some b)
      (hok : ok (b.refs + 1)) :
      Step img ok (s, L) (pageIncUses s p, Function.update L p (some ⟨b.order, b.refs + 1⟩))
  | free (s : BuddyAllocator) (L : Live) (p : ℕ) (b : LiveBlock) (hl : L p = some b) :
      Step img ok (s, L) ((pageFree img s (some p) b.order).2,
        L.returned p b (pageFree img s (some p) b.order).1)

/-- A run of calls. -/
abbrev Run (img : KernelImage) (ok : ℕ → Prop) := Relation.ReflTransGen (Step img ok)

/-- The pages on the free lists. -/
def freePages (s : BuddyAllocator) : Set ℕ := cover (freeBlocks (freeList s))

/-- Hand the pages of a list over, in order. -/
def releaseAll (s : BuddyAllocator) (ps : List ℕ) : BuddyAllocator := ps.foldl releasePage s

/-- The invariant of a run: the representation invariant, and no lookup out of range so far. -/
structure Running (n : ℕ) (x : BuddyAllocator × Live) (S : Set ℕ) : Prop where
  sound : ∃ F, Sound n x.1 F x.2 S
  inRange : ∀ i ∈ x.1.indexed, i < n

theorem Guard.of_buddiesBelow {T : Set ℕ} {log : List ℕ} (h : BuddiesBelow n T) (hsub : S ⊆ T) :
    Guard n log S := Or.inr (h.mono hsub)

theorem Guard.weaken {T : Set ℕ} {log log' : List ℕ} (h : Guard n log T) (hsub : S ⊆ T)
    (hlog : ∀ i ∈ log', i ∈ log) : Guard n log' S := by
  rcases h with h | h
  · exact Or.inl fun i hi => h i (hlog i hi)
  · exact Or.inr (h.mono hsub)

/-! ### The log only grows -/

theorem pageAlloc_indexed (s : BuddyAllocator) (order : ℕ) :
    ∀ i ∈ s.indexed, i ∈ (pageAlloc s order).2.indexed := by
  intro i hi
  have hfirst : i ∈ (if s.freeCount order = 0 then (buddySplitBlock s (order + 1)).2
      else s).indexed := by
    split
    · exact splitFrom_indexed _ s i hi
    · exact hi
  unfold pageAlloc
  split
  · exact hi
  · dsimp only
    generalize (if s.freeCount order = 0 then (buddySplitBlock s (order + 1)).2 else s) = s₁
      at hfirst ⊢
    split
    · exact hfirst
    · split <;> exact hfirst

theorem pageFree_indexed (img : KernelImage) (s : BuddyAllocator) (p order : ℕ) :
    ∀ i ∈ s.indexed, i ∈ (pageFree img s (some p) order).2.indexed := by
  intro i hi
  simp only [pageFree]
  split
  · exact hi
  · split
    · exact hi
    · exact buddyMergeBlock_indexed (s.setOrder p order) p order i hi

theorem Step.indexed (h : Step img ok x y) : ∀ i ∈ x.1.indexed, i ∈ y.1.indexed := by
  cases h with
  | alloc s L order => exact pageAlloc_indexed s order
  | inc s L p b hl hok => exact fun i hi => hi
  | free s L p b hl => exact pageFree_indexed img s p b.order

theorem Run.indexed (h : Run img ok x y) : ∀ i ∈ x.1.indexed, i ∈ y.1.indexed := by
  induction h with
  | refl => exact fun i hi => hi
  | tail _ hstep ih => exact fun i hi => hstep.indexed i (ih i hi)

theorem releasePage_indexed (s : BuddyAllocator) (p : ℕ) :
    ∀ i ∈ s.indexed, i ∈ (releasePage s p).indexed :=
  buddyMergeBlock_indexed (s.setFlags p (clearFlag (s.pages p).flags pfInvalid)) p 0

theorem releaseAll_indexed (ps : List ℕ) (s : BuddyAllocator) :
    ∀ i ∈ s.indexed, i ∈ (releaseAll s ps).indexed := by
  induction ps generalizing s with
  | nil => exact fun i hi => hi
  | cons p ps ih => exact fun i hi => ih _ i (releasePage_indexed s p i hi)

/-! ### The initial state and the hand-over -/

theorem initialPage_flags_invalid (img : KernelImage) (e i : ℕ) :
    testFlag (initialPage img e i).flags pfInvalid = true := by
  have h0 : testFlag (setFlag 0 pfInvalid) pfInvalid = true := by decide
  have hlow : pfZoneLowmem &&& pfInvalid = 0 := by decide
  have hhigh : pfZoneHighmem &&& pfInvalid = 0 := by decide
  have hkern : pfKernel &&& pfInvalid = 0 := by decide
  unfold initialPage
  dsimp only
  split_ifs <;> simp only [testFlag_setFlag_of_disjoint, hlow, hhigh, hkern, h0]

/-- **`buddy_init`** establishes the invariant, with no page handed over. -/
theorem initialAllocator_sound (img : KernelImage) (past : PastEnd) (a : ℕ) (hn : n < 2 ^ 32) :
    Sound n (initialAllocator img past a n) (fun _ => []) (fun _ => none) ∅ := by
  have hempty : freeBlocks (fun _ => []) ∪ liveBlocks (fun _ => none) = ∅ := by
    ext ⟨q, j⟩
    simp
  refine ⟨?_, ⟨by simp, ?_⟩, fun q j _ hq => absurd hq (by simp)⟩
  · refine ⟨rfl, hn, ?_, ?_, fun _ _ => rfl, by simp, by simp, ?_, subset_rfl, ?_, by simp⟩
    · intro i hi
      simp [initialAllocator, hi, initialPage]
    · intro j _
      exact Ring.empty rfl rfl
    · intro i hi
      have hflag := initialPage_flags_invalid img (u32 (a + sizeofPage * n)) i
      simp [initialAllocator, hi, hflag]
    · rw [hempty]
      exact Tiling.empty
  · intro i hi _
    simp [initialAllocator, hi, initialPage]

/-- **The hand-over.**  Distinct pages in range, handed over one by one, become the free pages. -/
theorem releaseAll_spec (ps : List ℕ) (hs : Sound n s F L S) (hlog : ∀ i ∈ s.indexed, i < n)
    (hnd : ps.Nodup) (hps : ∀ p ∈ ps, p < n ∧ p ∉ S)
    (hg : Guard n (releaseAll s ps).indexed (S ∪ {p | p ∈ ps})) :
    ∃ F', Sound n (releaseAll s ps) F' L (S ∪ {p | p ∈ ps}) ∧
      (∀ i ∈ (releaseAll s ps).indexed, i < n) ∧
      (Asked F s.indexed → Asked F' (releaseAll s ps).indexed) := by
  induction ps generalizing s F S with
  | nil =>
    have hset : S ∪ {p | p ∈ ([] : List ℕ)} = S := by simp
    rw [hset]
    exact ⟨F, hs, hlog, fun h => h⟩
  | cons p ps ih =>
    obtain ⟨hp, hnd'⟩ := List.nodup_cons.mp hnd
    obtain ⟨hpn, hpS⟩ := hps p List.mem_cons_self
    have hset : S ∪ {q | q ∈ p :: ps} = insert p S ∪ {q | q ∈ ps} := by
      ext i
      simp only [Set.mem_union, Set.mem_ofPred_eq, List.mem_cons, Set.mem_insert_iff]
      tauto
    rw [hset] at hg ⊢
    have hsub : insert p S \ cover (liveBlocks L) ⊆ insert p S ∪ {q | q ∈ ps} :=
      Set.sdiff_subset.trans Set.subset_union_left
    obtain ⟨F', hs', hlog', hasked⟩ := releasePage_spec hs hpn hpS
      (hg.weaken hsub (releaseAll_indexed ps (releasePage s p)))
    have hlog'' : ∀ i ∈ (releasePage s p).indexed, i < n := fun i hi =>
      (hlog' i hi).elim (hlog i) id
    -- the pages to come are different from this one, so they are still outside
    have hrest : ∀ q ∈ ps, q < n ∧ q ∉ insert p S := by
      intro q hq
      obtain ⟨hqn, hqS⟩ := hps q (List.mem_cons_of_mem p hq)
      refine ⟨hqn, fun hin => ?_⟩
      rcases hin with rfl | hin
      · exact hp hq
      · exact hqS hin
    obtain ⟨F'', hs'', hlog3, hasked'⟩ := ih hs' hlog'' hnd' hrest hg
    exact ⟨F'', hs'', hlog3, fun h => hasked' (hasked h)⟩

/-! ### Steps and runs -/

theorem pageIncUses_sound (hs : Sound n s F L S) {b : LiveBlock} (hl : L p = some b)
    (hlt : b.refs + 1 < 2 ^ 32) :
    Sound n (pageIncUses s p) F (Function.update L p (some ⟨b.order, b.refs + 1⟩)) S := by
  obtain ⟨hc, hu, hco⟩ := hs
  refine ⟨(hc.recount hl (b.refs + 1)).setUseCount p _, ⟨?_, ?_⟩, hco⟩
  · intro q lb hq
    by_cases hqp : q = p
    · subst hqp
      rw [Function.update_self, Option.some.injEq] at hq
      subst hq
      obtain ⟨hcount, -, -⟩ := hu.live q b hl
      have hinc : inc32 b.refs = b.refs + 1 := inc32_of_lt hlt
      exact ⟨by simp [pageIncUses, hcount, hinc], Nat.succ_pos _, hlt⟩
    · rw [Function.update_of_ne hqp] at hq
      simpa [pageIncUses, hqp] using hu.live q lb hq
  · intro i hi hli
    by_cases hip : i = p
    · subst hip
      simp at hli
    · rw [Function.update_of_ne hip] at hli
      simpa [pageIncUses, hip] using hu.idle i hi hli

/-- **A step keeps the invariant**, if the lookups it makes are guarded. -/
theorem Running.step (h : Step img ok x y) (hok : ∀ r, ok r → r < 2 ^ 32) (hx : Running n x S)
    (hg : Guard n y.1.indexed S) : Running n y S := by
  obtain ⟨⟨F, hs⟩, hlog⟩ := hx
  cases h with
  | alloc s L order =>
    rcases pageAlloc_spec hs order with ⟨heq, -⟩ | ⟨t, s', F', heq, -, -, hs', hlog'⟩
    · rw [heq]
      exact ⟨⟨F, hs⟩, hlog⟩
    · rw [heq]
      exact ⟨⟨F', hs'⟩, fun i hi => (hlog' i hi).elim (hlog i) id⟩
  | inc s L p b hl hr => exact ⟨⟨F, pageIncUses_sound hs hl (hok _ hr)⟩, hlog⟩
  | free s L p b hl =>
    obtain ⟨order, refs⟩ := b
    by_cases hcrit : pageIsCritical img s p = .error
    · -- a page of the kernel image is refused
      simp only [pageFree_critical hcrit]
      exact ⟨⟨F, hs⟩, hlog⟩
    · have hpos : 0 < refs := (hs.uses.live p _ hl).2.1
      by_cases hr : 1 < refs
      · obtain ⟨heq, hs'⟩ := pageFree_shared hs hl hr hcrit
        have hne : ¬ refs = 1 := by omega
        simp only [heq, Live.returned, hne, if_false]
        exact ⟨⟨F, hs'⟩, hlog⟩
      · obtain rfl : refs = 1 := by omega
        obtain ⟨hstatus, ⟨F', hs'⟩, hlog'⟩ := pageFree_last hs hl hcrit
          (hg.weaken Set.sdiff_subset fun i hi => hi)
        simp only [hstatus, Live.returned, if_true]
        exact ⟨⟨F', hs'⟩, fun i hi => (hlog' i hi).elim (hlog i) id⟩

/-- **Every state of a run keeps the invariant.** -/
theorem Running.run (h : Run img ok x y) (hok : ∀ r, ok r → r < 2 ^ 32) (hx : Running n x S)
    (hg : Guard n y.1.indexed S) : Running n y S := by
  -- a guard on the last log is one on every earlier log, which is a part of it
  induction h with
  | refl => exact hx
  | tail _ hstep ih =>
    exact (ih (hg.weaken subset_rfl hstep.indexed)).step hstep hok hg

/-! ### The guarantees -/

/-- What a state of a run looks like from outside: the lists are proper circular lists with
    exact counts, their pages are marked as the merge test expects, and the free and the
    allocated blocks partition `S`. -/
structure Partitioned (x : BuddyAllocator × Live) (S : Set ℕ) : Prop where
  ring : ∀ k ≤ orderMax, Ring x.1.nodes (.freePages k) ((freeList x.1 k).map .buddyNode)
  count : ∀ k ≤ orderMax, x.1.freeCount k = (freeList x.1 k).length
  nodup : ∀ k ≤ orderMax, (freeList x.1 k).Nodup
  marked : ∀ k ≤ orderMax, ∀ p ∈ freeList x.1 k, (x.1.pages p).order = k ∧
    testFlag (x.1.pages p).flags pfInvalid = false ∧ (x.1.pages p).pfn = p ∧ 2 ^ k ∣ p
  apart : (freeBlocks (freeList x.1) ∪ liveBlocks x.2).PairwiseDisjoint pages
  distinct : Disjoint (freeBlocks (freeList x.1)) (liveBlocks x.2)
  union : cover (freeBlocks (freeList x.1)) ∪ cover (liveBlocks x.2) = S

/-- What `page_free` does with one reference to a live block: nothing moves while others are
    left, and the last one makes the pages of the block free. -/
def ReturnedByLast (img : KernelImage) (x : BuddyAllocator × Live) : Prop :=
  ∀ p b, x.2 p = some b →
    (pageFree img x.1 (some p) b.order).1 = .success ∧
    (1 < b.refs →
      ∀ k ≤ orderMax, freeList (pageFree img x.1 (some p) b.order).2 k = freeList x.1 k) ∧
    (b.refs = 1 →
      freePages (pageFree img x.1 (some p) b.order).2 = freePages x.1 ∪ block p b.order)

theorem Sound.partitioned (hs : Sound n s F L S) : Partitioned (s, L) S := by
  have hc := hs.core
  have hF : ∀ k ≤ orderMax, freeList s k = F k := fun k hk => hc.freeList_eq hk
  have hfree := hc.freeBlocks_freeList
  refine ⟨?_, ?_, ?_, ?_, ?_, ?_, ?_⟩
  · intro k hk
    rw [hF k hk]
    exact hc.ring k hk
  · intro k hk
    rw [hF k hk]
    exact hc.freeCount k hk
  · intro k hk
    rw [hF k hk]
    exact hc.list_nodup hk
  · intro k hk p hp
    rw [hF k hk] at hp
    have hpS : p ∈ S := hc.free_mem hk hp
    have hpn : p < n := hc.inRange p hpS
    exact ⟨hc.order k hk p hp, (hc.valid p hpn).mpr hpS, hc.pfn p hpn,
      hc.tiling.aligned (p, k) (Or.inl ⟨hk, hp⟩)⟩
  · rw [hfree]
    exact hc.tiling.disjoint
  · rw [hfree]
    exact hc.disjoint_free_live
  · rw [hfree, ← hc.tiling.cover]
    exact (Set.biUnion_union _ _ _).symm

theorem Core.freePages_eq (hc : Core n s F L S S) : freePages s = S \ cover (liveBlocks L) := by
  rw [freePages, hc.freeBlocks_freeList, hc.cover_free]

theorem Sound.freePages_eq (hs : Sound n s F L S) : freePages s = S \ cover (liveBlocks L) :=
  hs.core.freePages_eq

/-- Giving the last reference back frees exactly the pages of the block. -/
theorem Core.cover_live_erase (hc : Core n s F L S S) {r : ℕ} (hl : L p = some ⟨k, r⟩) :
    S \ cover (liveBlocks (Function.update L p none)) = S \ cover (liveBlocks L) ∪ block p k := by
  have hmem : (p, k) ∈ freeBlocks F ∪ liveBlocks L := Or.inr ⟨r, hl⟩
  have hsub := hc.tiling.subset hmem
  have hiff : ∀ i, i ∈ cover (liveBlocks (Function.update L p none)) ↔
      i ∈ cover (liveBlocks L) ∧ i ∉ block p k := by
    intro i
    simp only [cover, Set.mem_iUnion, exists_prop]
    constructor
    · intro ⟨⟨q, j⟩, ⟨r', hq⟩, hi⟩
      have hqp : q ≠ p := by
        intro h
        simp [h] at hq
      have hq' : L q = some ⟨j, r'⟩ := by simpa [hqp] using hq
      refine ⟨⟨(q, j), ⟨r', hq'⟩, hi⟩, fun hip => hqp ?_⟩
      exact (Prod.mk.inj (hc.tiling.eq_of_mem (Or.inr ⟨r', hq'⟩) hmem hi hip)).1
    · intro ⟨⟨⟨q, j⟩, ⟨r', hq⟩, hi⟩, hip⟩
      have hqp : q ≠ p := by
        intro h
        subst h
        rw [hl, Option.some.injEq, LiveBlock.mk.injEq] at hq
        exact hip (hq.1 ▸ hi)
      exact ⟨(q, j), ⟨r', by simpa [hqp] using hq⟩, hi⟩
  ext i
  simp only [Set.mem_sdiff, Set.mem_union, hiff]
  have := @hsub i
  simp only [pages] at this
  tauto

/-- The free pages before and after a block has been handed out. -/
theorem Core.freePages_grant {s' : BuddyAllocator} {F' : ℕ → List ℕ} {t : ℕ} (hc : Core n s F L S S)
    (hnone : L t = none) (hc' : Core n s' F' (Function.update L t (some ⟨k, 1⟩)) S S) :
    block t k ⊆ freePages s ∧ freePages s' = freePages s \ block t k := by
  have hlive : Function.update L t (some (LiveBlock.mk k 1)) t = some ⟨k, 1⟩ :=
    Function.update_self _ _ _
  have hback : Function.update (Function.update L t (some ⟨k, 1⟩)) t none = L := by
    rw [Function.update_idem, ← hnone, Function.update_eq_self]
  -- giving the block back would make its pages free again
  have hfree : freePages s = freePages s' ∪ block t k := by
    rw [hc.freePages_eq, hc'.freePages_eq, ← hc'.cover_live_erase hlive, hback]
  have hdisj : Disjoint (freePages s') (block t k) := by
    rw [hc'.freePages_eq]
    refine Set.disjoint_left.mpr fun i hi hb => hi.2 ?_
    exact Set.mem_biUnion (x := (t, k)) ⟨1, hlive⟩ hb
  constructor
  · rw [hfree]
    exact Set.subset_union_right
  · rw [hfree, Set.union_sdiff_right, hdisj.sdiff_eq_left]

/-- **`page_alloc` between two calls** fails and changes nothing, or takes the pages of one block
    out of the free ones. -/
theorem Running.alloc_cases (h : Running n (s, L) S) (k : ℕ) :
    pageAlloc s k = (none, s) ∨ ∃ t s', pageAlloc s k = (some t, s') ∧ L t = none ∧ t < n ∧
      block t k ⊆ freePages s ∧ freePages s' = freePages s \ block t k ∧
      Running n (s', Function.update L t (some ⟨k, 1⟩)) S := by
  obtain ⟨⟨F, hs⟩, hlog⟩ := h
  rcases pageAlloc_spec hs k with ⟨heq, -⟩ | ⟨t, s', F', heq, -, hnone, hs', hlog'⟩
  · exact Or.inl heq
  · have ht : t < n := hs.core.inRange t (hs'.core.live_mem (Function.update_self _ _ _))
    obtain ⟨hsub, hfree⟩ := hs.core.freePages_grant hnone hs'.core
    exact Or.inr ⟨t, s', heq, hnone, ht, hsub, hfree, ⟨F', hs'⟩,
      fun i hi => (hlog' i hi).elim (hlog i) id⟩

theorem Sound.returnedByLast (hs : Sound n s F L S) (hcrit : ∀ p ∈ S, pageIsCritical img s p ≠ .error)
    (hbelow : BuddiesBelow n S) : ReturnedByLast img (s, L) := by
  intro p b hl
  obtain ⟨order, refs⟩ := b
  have hp := hcrit p (hs.core.live_mem hl)
  have hpos : 0 < refs := (hs.uses.live p _ hl).2.1
  by_cases hr : 1 < refs
  · obtain ⟨heq, hs'⟩ := pageFree_shared hs hl hr hp
    simp only [heq]
    refine ⟨trivial, fun _ k hk => ?_, fun h => absurd h (by omega)⟩
    rw [hs'.core.freeList_eq hk, hs.core.freeList_eq hk]
  · obtain rfl : refs = 1 := by omega
    obtain ⟨hstatus, ⟨F', hs'⟩, -⟩ := pageFree_last hs hl hp (Guard.of_buddiesBelow hbelow Set.sdiff_subset)
    refine ⟨hstatus, fun h => absurd h (by simp), fun _ => ?_⟩
    rw [hs'.freePages_eq, hs.freePages_eq, hs.core.cover_live_erase hl]

/-! ### From `buddy_init` on -/

/-- `buddy_init(n)` succeeded, and the pages `ps` were handed over in that order. -/
def HandedOver (img : KernelImage) (n : ℕ) (ps : List ℕ) (s : BuddyAllocator) : Prop :=
  n < 2 ^ 32 ∧ ∃ past bm bm' s₀, buddyInit img past bm n = some (s₀, bm') ∧ s = releaseAll s₀ ps

theorem buddyInit_eq {past : PastEnd} {bm bm' : Bootmem}
    (h : buddyInit img past bm n = some (s, bm')) :
    ∃ a, s = initialAllocator img past a n := by
  unfold buddyInit at h
  dsimp only at h
  split at h
  · cases h
  · exact ⟨_, (Prod.mk.inj (Option.some.inj h)).1.symm⟩

/-- The state in which the clients take over. -/
theorem HandedOver.sound {ps : List ℕ} (h : HandedOver img n ps s) (hnd : ps.Nodup)
    (hps : ∀ p ∈ ps, p < n) (hg : Guard n s.indexed {p | p ∈ ps}) :
    ∃ F, Sound n s F (fun _ => none) {p | p ∈ ps} ∧ (∀ i ∈ s.indexed, i < n) ∧
      Asked F s.indexed := by
  obtain ⟨hn, past, bm, bm', s₀, hinit, rfl⟩ := h
  obtain ⟨a, rfl⟩ := buddyInit_eq hinit
  have h0 := initialAllocator_sound img past a hn
  have hlog : ∀ i ∈ (initialAllocator img past a n).indexed, i < n := fun i hi =>
    absurd hi List.not_mem_nil
  obtain ⟨F, hs, hlog', hasked⟩ := releaseAll_spec ps h0 hlog hnd
    (fun p hp => ⟨hps p hp, Set.notMem_empty p⟩) (by rwa [Set.empty_union])
  rw [Set.empty_union] at hs
  exact ⟨F, hs, hlog', hasked fun p k _ hp => absurd hp List.not_mem_nil⟩

theorem HandedOver.running {ps : List ℕ} (h : HandedOver img n ps s) (hnd : ps.Nodup)
    (hps : ∀ p ∈ ps, p < n) (hg : Guard n s.indexed {p | p ∈ ps}) :
    Running n (s, fun _ => none) {p | p ∈ ps} := by
  obtain ⟨F, hs, hlog, -⟩ := h.sound hnd hps hg
  exact ⟨⟨F, hs⟩, hlog⟩

/-- Groups of 64 pages that lie in the array keep every lookup in it. -/
theorem buddiesBelow_of_groups {ps : List ℕ}
    (hgroup : ∀ p ∈ ps, ∀ i, i / 2 ^ orderMax = p / 2 ^ orderMax → i < n) :
    BuddiesBelow n {p | p ∈ ps} :=
  fun p k hk _ hb => hgroup p (hb (self_mem_block p k)) _ (buddy_div_of_lt hk p)

/-- So does an array of whole groups. -/
theorem buddiesBelow_of_dvd {T : Set ℕ} (hn : 2 ^ orderMax ∣ n) (hT : ∀ p ∈ T, p < n) :
    BuddiesBelow n T := by
  intro p k hk _ hb
  have hlt := hT p (hb (self_mem_block p k))
  have hdiv := buddy_div_of_lt hk p
  obtain ⟨c, rfl⟩ := hn
  have hp : p / 2 ^ orderMax < c := Nat.div_lt_of_lt_mul hlt
  rw [← hdiv] at hp
  exact (Nat.div_lt_iff_lt_mul (Nat.two_pow_pos _)).mp hp |>.trans_eq (Nat.mul_comm _ _)

/-- The page with this number does not start in the kernel image. -/
def OutsideImage (img : KernelImage) (p : ℕ) : Prop :=
  ¬ (img.physStart ≤ pfnToPa p ∧ pfnToPa p < img.physEnd)

theorem Core.not_critical {U : Set ℕ} (hc : Core n s F L S U) (hp : p < n)
    (hout : OutsideImage img p) : pageIsCritical img s p ≠ .error := by
  unfold pageIsCritical
  rw [hc.pfn p hp, if_neg hout]
  decide

/-- A block whose buddy lies out of range cannot be handed over without asking for that buddy. -/
theorem HandedOver.buddiesBelow {ps : List ℕ} (h : HandedOver img n ps s) (hnd : ps.Nodup)
    (hps : ∀ p ∈ ps, p < n) (hlog : ∀ i ∈ s.indexed, i < n) : BuddiesBelow n {p | p ∈ ps} := by
  obtain ⟨F, hs, -, hasked⟩ := h.sound hnd hps (Or.inl hlog)
  intro p k hk hal hsub
  by_contra hge
  have hout : ¬ block (buddy p k) k ⊆ {p | p ∈ ps} := fun hin =>
    hge (hps _ (hin (self_mem_block _ _)))
  -- nothing is allocated yet, so the free blocks tile the pages handed over
  have hempty : liveBlocks (fun _ => none) = ∅ := by
    ext ⟨q, j⟩
    simp
  have ht := hs.core.tiling
  rw [hempty, Set.union_empty] at ht
  have hfree := (ht.mem_iff hs.coalesced (fun b hb => hb.1)).mpr ⟨hk.le, hal, hsub, Or.inr hout⟩
  exact hge (hlog _ (hasked p k hk hfree.2))

/-- **The representation invariant over whole runs.**  In every state a run reaches, as long as
    no block has `2 ^ 32` references at once, the free lists are well formed, the free and the
    allocated blocks partition the pages handed over, and a block is returned to the free lists
    by the last of its references. -/
theorem run_partitioned {ps : List ℕ} (hboot : HandedOver img n ps s) (hnd : ps.Nodup)
    (hout : ∀ p ∈ ps, OutsideImage img p)
    (hgroup : ∀ p ∈ ps, ∀ i, i / 2 ^ orderMax = p / 2 ^ orderMax → i < n)
    (hrun : Run img (· < 2 ^ 32) (s, fun _ => none) x) :
    Partitioned x {p | p ∈ ps} ∧ ReturnedByLast img x := by
  have hbelow := buddiesBelow_of_groups hgroup
  have hps : ∀ p ∈ ps, p < n := fun p hp => hgroup p hp p rfl
  have hstart := hboot.running hnd hps (Or.inr hbelow)
  obtain ⟨⟨F, hs⟩, -⟩ := hstart.run hrun (fun _ h => h) (Or.inr hbelow)
  exact ⟨hs.partitioned,
    hs.returnedByLast (fun p hp => hs.core.not_critical (hps p hp) (hout p hp)) hbelow⟩

/-- An image that holds no page, memory behind the page array that holds zeroes, and one region
    of memory from which the page array can be taken. -/
def emptyImage : KernelImage := { physStart := 0, physEnd := 0 }
def zeroPast : PastEnd := ⟨fun _ => ⟨0, 0, 0, 0⟩, fun _ => ⟨none, none⟩⟩
def smallBootmem : Bootmem := ⟨[⟨0x10000, 0x40000, 0x10000, memRegionAvailable⟩], 64, 1⟩

theorem handedOver_zero : HandedOver emptyImage 64 [0]
    (releaseAll (initialAllocator emptyImage zeroPast 0xC0010000 64) [0]) :=
  ⟨by decide, zeroPast, smallBootmem, _, _, rfl, rfl⟩

theorem outsideImage_empty (p : ℕ) : OutsideImage emptyImage p := by
  simp [OutsideImage, emptyImage]

theorem group_zero : ∀ p ∈ [0], ∀ i, i / 2 ^ orderMax = p / 2 ^ orderMax → i < 64 := by
  intro p hp i hi
  simp only [List.mem_singleton] at hp
  subst hp
  simp only [orderMax] at hi
  omega

/-- The state after `page_alloc(0)` has returned the only page. -/
def onePage : BuddyAllocator × Live :=
  ((pageAlloc (releaseAll (initialAllocator emptyImage zeroPast 0xC0010000 64) [0]) 0).2,
    Live.granted (fun _ => none) 0 (some 0))

theorem run_onePage (ok : ℕ → Prop) : Run emptyImage ok
    (releaseAll (initialAllocator emptyImage zeroPast 0xC0010000 64) [0], fun _ => none) onePage :=
  Relation.ReflTransGen.single (Step.alloc _ _ 0)

theorem run_partitioned_onePage :
    Partitioned onePage {p | p ∈ [0]} ∧ ReturnedByLast emptyImage onePage :=
  run_partitioned handedOver_zero (by decide) (fun p _ => outsideImage_empty p) group_zero
    (run_onePage _)

/-- Repeated `PAGE_INC_USES` counts modulo `2 ^ 32`. -/
theorem iterate_pageIncUses (m : ℕ) (hlt : (s.pages p).useCount < 2 ^ 32) :
    (fun s => pageIncUses s p)^[m] s = s.setUseCount p (u32 ((s.pages p).useCount + m)) := by
  induction m with
  | zero =>
    rw [Nat.add_zero, u32_of_lt hlt]
    simp [BuddyAllocator.setUseCount]
  | succ m ih =>
    rw [Function.iterate_succ_apply', ih]
    have hinc : inc32 (u32 ((s.pages p).useCount + m)) = u32 ((s.pages p).useCount + (m + 1)) := by
      unfold inc32 u32
      omega
    simp only [pageIncUses, BuddyAllocator.setUseCount_useCount, if_true, hinc]
    simp [BuddyAllocator.setUseCount]

theorem run_inc (hl : L p = some ⟨k, r⟩) (m : ℕ) :
    Run img (fun _ => True) (s, L)
      ((fun s => pageIncUses s p)^[m] s, Function.update L p (some ⟨k, r + m⟩)) := by
  induction m with
  | zero =>
    have hsame : Function.update L p (some ⟨k, r + 0⟩) = L := by
      rw [Nat.add_zero, ← hl, Function.update_eq_self]
    rw [hsame]
    exact Relation.ReflTransGen.refl
  | succ m ih =>
    have hstep := @Step.inc img (fun _ => True) ((fun s => pageIncUses s p)^[m] s) _ p ⟨k, r + m⟩
      (Function.update_self p (some ⟨k, r + m⟩) L) trivial
    rw [Function.update_idem] at hstep
    rw [Function.iterate_succ_apply']
    exact ih.tail hstep

/-- **`use_count` wraps.**  After `2 ^ 32 - 1` further references to the only page its count
    is zero, and the first `page_free` puts it on the free list. -/
theorem returnedByLast_fails_at_wrap :
    ¬ ∀ (img : KernelImage) (n : ℕ) (ps : List ℕ) (s : BuddyAllocator) (x : BuddyAllocator × Live),
      HandedOver img n ps s → ps.Nodup → (∀ p ∈ ps, OutsideImage img p) →
      (∀ p ∈ ps, ∀ i, i / 2 ^ orderMax = p / 2 ^ orderMax → i < n) →
      Run img (fun _ => True) (s, fun _ => none) x →
      Partitioned x {p | p ∈ ps} ∧ ReturnedByLast img x := by
  intro h
  have hlive : onePage.2 0 = some ⟨0, 1⟩ := rfl
  have hcount : (onePage.1.pages 0).useCount = 1 := by decide
  have hinc : Run emptyImage (fun _ => True) onePage
      ((fun s => pageIncUses s 0)^[2 ^ 32 - 1] onePage.1,
        Function.update onePage.2 0 (some ⟨0, 1 + (2 ^ 32 - 1)⟩)) := run_inc hlive _
  have hstate := iterate_pageIncUses (s := onePage.1) (p := 0) (2 ^ 32 - 1) (by rw [hcount]; decide)
  rw [hcount] at hstate
  have hzero : u32 (1 + (2 ^ 32 - 1)) = 0 := by decide
  rw [hstate, hzero] at hinc
  obtain ⟨-, hlast⟩ := h emptyImage 64 [0] _ _ handedOver_zero (by decide)
    (fun p _ => outsideImage_empty p) group_zero ((run_onePage _).trans hinc)
  obtain ⟨-, hkeep, -⟩ := hlast 0 ⟨0, 1 + (2 ^ 32 - 1)⟩ (by simp)
  have hsame := hkeep (by decide) 0 (by decide)
  have hbefore : freeList (onePage.1.setUseCount 0 0) 0 = [] := by decide
  have hafter : freeList (pageFree emptyImage (onePage.1.setUseCount 0 0) (some 0) 0).2 0 = [0] := by
    decide
  rw [hbefore, hafter] at hsame
  exact absurd hsame (by decide)

/-! ### Canonical form -/

/-- A state of a run in which `ps` was handed over and every lookup was in range. -/
def Reached (S : Set ℕ) (x : BuddyAllocator × Live) : Prop :=
  ∃ img n ps s, HandedOver img n ps s ∧ ps.Nodup ∧ (∀ p ∈ ps, p < n) ∧ S = {p | p ∈ ps} ∧
    Run img (· < 2 ^ 32) (s, fun _ => none) x ∧ ∀ i ∈ x.1.indexed, i < n

theorem Reached.sound (h : Reached S x) : ∃ n F, Sound n x.1 F x.2 S := by
  obtain ⟨img, n, ps, s, hboot, hnd, hps, rfl, hrun, hlog⟩ := h
  have hstart := hboot.running hnd hps (Or.inl fun i hi => hlog i (Run.indexed hrun i hi))
  obtain ⟨F, hs⟩ := (hstart.run hrun (fun _ h => h) (Or.inl hlog)).sound
  exact ⟨n, F, hs⟩

/-- The free lists of a reachable state are a coalesced tiling of the pages handed over that
    are in no allocated block. -/
theorem Reached.tiling (h : Reached S x) :
    Tiling (freeBlocks (freeList x.1)) (S \ cover (liveBlocks x.2)) ∧
      Coalesced (freeBlocks (freeList x.1)) orderMax := by
  obtain ⟨n, F, hs⟩ := h.sound
  rw [hs.core.freeBlocks_freeList, ← hs.core.cover_free]
  exact ⟨hs.core.tiling_free, hs.coalesced⟩

/-- **Full coalescing and canonical form.**  In every reachable state no buddies are both on the
    list of their order; the blocks on the lists are the maximal aligned blocks of free pages;
    and two reachable states with the same free pages have the same blocks on every list. -/
theorem reached_canonical (h : Reached S x) :
    (∀ p k, k < orderMax → p ∈ freeList x.1 k → p ^^^ 2 ^ k ∉ freeList x.1 k) ∧
    (∀ p k, k ≤ orderMax → (p ∈ freeList x.1 k ↔ 2 ^ k ∣ p ∧
      block p k ⊆ S \ cover (liveBlocks x.2) ∧
      (k = orderMax ∨ ¬ block (p ^^^ 2 ^ k) k ⊆ S \ cover (liveBlocks x.2)))) ∧
    ∀ S' x', Reached S' x' → S \ cover (liveBlocks x.2) = S' \ cover (liveBlocks x'.2) →
      ∀ p k, k ≤ orderMax → (p ∈ freeList x.1 k ↔ p ∈ freeList x'.1 k) := by
  obtain ⟨ht, hco⟩ := h.tiling
  have hle : ∀ (y : BuddyAllocator), ∀ b ∈ freeBlocks (freeList y), b.2 ≤ orderMax :=
    fun _ b hb => hb.1
  refine ⟨?_, ?_, ?_⟩
  · intro p k hk hp hq
    exact hco p k hk ⟨hk.le, hp⟩ ⟨hk.le, hq⟩
  · intro p k hk
    have hiff := ht.mem_iff hco (hle x.1) (p := p) (k := k)
    rw [mem_freeBlocks, and_iff_right hk, and_iff_right hk] at hiff
    exact hiff
  · intro S' x' h' hsame p k hk
    obtain ⟨ht', hco'⟩ := h'.tiling
    rw [← hsame] at ht'
    have heq := ht.eq_of_cover_eq ht' hco hco' (hle x.1) (hle x'.1)
    have hiff : (p, k) ∈ freeBlocks (freeList x.1) ↔ (p, k) ∈ freeBlocks (freeList x'.1) := by
      rw [heq]
    rwa [mem_freeBlocks, mem_freeBlocks, and_iff_right hk, and_iff_right hk] at hiff

theorem reached_canonical_onePage : Reached {0} onePage ∧ 0 ∉ freeList onePage.1 0 := by
  have hreach : Reached {0} onePage := by
    refine ⟨emptyImage, 64, [0], _, handedOver_zero, by decide, by decide, by ext i; simp,
      run_onePage _, by decide⟩
  refine ⟨hreach, fun hin => ?_⟩
  obtain ⟨-, hsub, -⟩ := ((reached_canonical hreach).2.1 0 0 (by decide)).mp hin
  apply (hsub (self_mem_block 0 0)).2
  simp only [cover, Set.mem_iUnion, exists_prop]
  exact ⟨(0, 0), ⟨1, rfl⟩, self_mem_block 0 0⟩

end Rotary
