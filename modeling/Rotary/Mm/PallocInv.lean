import Mathlib.Data.List.Nodup
import Mathlib.Data.List.Perm.Subperm
import Rotary.Lib.Tiling
import Rotary.Mm.Palloc

namespace Rotary

open Lib

/-!
# The representation invariant of the buddy allocator

`Core n s F L S U` ties the pointer-level state `s` to an abstract one:

* `F k` is the list of pfns threaded through `blocks[k].free_pages`;
* `L` maps the head of every allocated block to its order and its outstanding references;
* `S` is the set of pages whose `PF_INVALID` flag is clear;
* `U` is the part of `S` that the free and the allocated blocks tile.  Between two calls
  `U = S`; inside a call the block in hand is missing from `U`.

The invariant says nothing about the `order` field of a page that is not the head of a block:
the stale values left behind there are never consulted (`Core.merge_test`).  The lemmas below
say what each primitive does to the abstract state; `Rotary.Mm.PallocSpec` puts them together.
-/

/-- An allocated block: its order and how many references to it are outstanding. -/
structure LiveBlock where
  order : ℕ
  refs : ℕ
  deriving DecidableEq, Repr

/-- The allocated blocks, by head page. -/
abbrev Live := ℕ → Option LiveBlock

/-- The free blocks of the lists `F`, as (head, order) pairs. -/
def freeBlocks (F : ℕ → List ℕ) : Set (ℕ × ℕ) := {b | b.2 ≤ orderMax ∧ b.1 ∈ F b.2}

/-- The allocated blocks, as (head, order) pairs. -/
def liveBlocks (L : Live) : Set (ℕ × ℕ) := {b | ∃ r, L b.1 = some ⟨b.2, r⟩}

/-- The pages of a set of blocks. -/
def cover (B : Set (ℕ × ℕ)) : Set ℕ := ⋃ b ∈ B, pages b

/-- The representation invariant; see the module header. -/
structure Core (n : ℕ) (s : BuddyAllocator) (F : ℕ → List ℕ) (L : Live) (S U : Set ℕ) : Prop where
  pageCount : s.pageCount = n
  count_lt : n < 2 ^ 32
  pfn : ∀ i < n, (s.pages i).pfn = i
  ring : ∀ k ≤ orderMax, Ring s.nodes (.freePages k) ((F k).map .buddyNode)
  freeCount : ∀ k ≤ orderMax, s.freeCount k = (F k).length
  order : ∀ k ≤ orderMax, ∀ p ∈ F k, (s.pages p).order = k
  inRange : ∀ i ∈ S, i < n
  valid : ∀ i < n, testFlag (s.pages i).flags pfInvalid = false ↔ i ∈ S
  sub : U ⊆ S
  tiling : Tiling (freeBlocks F ∪ liveBlocks L) U
  liveOrder : ∀ p b, L p = some b → b.order ≤ orderMax ∧ (s.pages p).order = orderUsed

/-- The use counts: a block's outstanding references on its head, zero on every other page. -/
structure Uses (n : ℕ) (s : BuddyAllocator) (L : Live) : Prop where
  live : ∀ p b, L p = some b → (s.pages p).useCount = b.refs ∧ 0 < b.refs ∧ b.refs < 2 ^ 32
  idle : ∀ i < n, L i = none → (s.pages i).useCount = 0

variable {n k p b : ℕ} {s : BuddyAllocator} {F : ℕ → List ℕ} {L : Live} {S U : Set ℕ}

/-! ### Field lemmas of the state updates -/

namespace BuddyAllocator

@[simp] theorem setOrder_nodes (s : BuddyAllocator) (p : ℕ) (o : ℤ) :
    (s.setOrder p o).nodes = s.nodes := rfl
@[simp] theorem setOrder_freeCount (s : BuddyAllocator) (p : ℕ) (o : ℤ) :
    (s.setOrder p o).freeCount = s.freeCount := rfl
@[simp] theorem setOrder_pageCount (s : BuddyAllocator) (p : ℕ) (o : ℤ) :
    (s.setOrder p o).pageCount = s.pageCount := rfl
@[simp] theorem setOrder_indexed (s : BuddyAllocator) (p : ℕ) (o : ℤ) :
    (s.setOrder p o).indexed = s.indexed := rfl

@[simp] theorem setOrder_order (s : BuddyAllocator) (p : ℕ) (o : ℤ) (i : ℕ) :
    ((s.setOrder p o).pages i).order = if i = p then o else (s.pages i).order := by
  by_cases h : i = p <;> simp [setOrder, h]

@[simp] theorem setOrder_pfn (s : BuddyAllocator) (p : ℕ) (o : ℤ) (i : ℕ) :
    ((s.setOrder p o).pages i).pfn = (s.pages i).pfn := by
  by_cases h : i = p <;> simp [setOrder, h]

@[simp] theorem setOrder_flags (s : BuddyAllocator) (p : ℕ) (o : ℤ) (i : ℕ) :
    ((s.setOrder p o).pages i).flags = (s.pages i).flags := by
  by_cases h : i = p <;> simp [setOrder, h]

@[simp] theorem setOrder_useCount (s : BuddyAllocator) (p : ℕ) (o : ℤ) (i : ℕ) :
    ((s.setOrder p o).pages i).useCount = (s.pages i).useCount := by
  by_cases h : i = p <;> simp [setOrder, h]

@[simp] theorem setUseCount_nodes (s : BuddyAllocator) (p c : ℕ) :
    (s.setUseCount p c).nodes = s.nodes := rfl
@[simp] theorem setUseCount_freeCount (s : BuddyAllocator) (p c : ℕ) :
    (s.setUseCount p c).freeCount = s.freeCount := rfl
@[simp] theorem setUseCount_pageCount (s : BuddyAllocator) (p c : ℕ) :
    (s.setUseCount p c).pageCount = s.pageCount := rfl
@[simp] theorem setUseCount_indexed (s : BuddyAllocator) (p c : ℕ) :
    (s.setUseCount p c).indexed = s.indexed := rfl

@[simp] theorem setUseCount_useCount (s : BuddyAllocator) (p c i : ℕ) :
    ((s.setUseCount p c).pages i).useCount = if i = p then c else (s.pages i).useCount := by
  by_cases h : i = p <;> simp [setUseCount, h]

@[simp] theorem setUseCount_pfn (s : BuddyAllocator) (p c i : ℕ) :
    ((s.setUseCount p c).pages i).pfn = (s.pages i).pfn := by
  by_cases h : i = p <;> simp [setUseCount, h]

@[simp] theorem setUseCount_flags (s : BuddyAllocator) (p c i : ℕ) :
    ((s.setUseCount p c).pages i).flags = (s.pages i).flags := by
  by_cases h : i = p <;> simp [setUseCount, h]

@[simp] theorem setUseCount_order (s : BuddyAllocator) (p c i : ℕ) :
    ((s.setUseCount p c).pages i).order = (s.pages i).order := by
  by_cases h : i = p <;> simp [setUseCount, h]

theorem setFlags_flags (s : BuddyAllocator) (p : ℕ) (f : BitVec 32) (i : ℕ) :
    ((s.setFlags p f).pages i).flags = if i = p then f else (s.pages i).flags := by
  by_cases h : i = p <;> simp [setFlags, h]

theorem setFlags_pfn (s : BuddyAllocator) (p : ℕ) (f : BitVec 32) (i : ℕ) :
    ((s.setFlags p f).pages i).pfn = (s.pages i).pfn := by
  by_cases h : i = p <;> simp [setFlags, h]

theorem setFlags_order (s : BuddyAllocator) (p : ℕ) (f : BitVec 32) (i : ℕ) :
    ((s.setFlags p f).pages i).order = (s.pages i).order := by
  by_cases h : i = p <;> simp [setFlags, h]

theorem setFlags_useCount (s : BuddyAllocator) (p : ℕ) (f : BitVec 32) (i : ℕ) :
    ((s.setFlags p f).pages i).useCount = (s.pages i).useCount := by
  by_cases h : i = p <;> simp [setFlags, h]

@[simp] theorem setFreeCount_nodes (s : BuddyAllocator) (k c : ℕ) :
    (s.setFreeCount k c).nodes = s.nodes := rfl
@[simp] theorem setFreeCount_pages (s : BuddyAllocator) (k c : ℕ) :
    (s.setFreeCount k c).pages = s.pages := rfl
@[simp] theorem setFreeCount_pageCount (s : BuddyAllocator) (k c : ℕ) :
    (s.setFreeCount k c).pageCount = s.pageCount := rfl
@[simp] theorem setFreeCount_indexed (s : BuddyAllocator) (k c : ℕ) :
    (s.setFreeCount k c).indexed = s.indexed := rfl

@[simp] theorem setFreeCount_freeCount (s : BuddyAllocator) (k c j : ℕ) :
    (s.setFreeCount k c).freeCount j = if j = k then c else s.freeCount j := by
  simp [setFreeCount, Function.update_apply]

end BuddyAllocator

/-! ### Consequences of the invariant -/

@[simp] theorem mem_freeBlocks : (p, k) ∈ freeBlocks F ↔ k ≤ orderMax ∧ p ∈ F k := Iff.rfl

@[simp] theorem mem_liveBlocks : (p, k) ∈ liveBlocks L ↔ ∃ r, L p = some ⟨k, r⟩ := Iff.rfl

namespace Core

theorem free_mem (hc : Core n s F L S U) (hk : k ≤ orderMax) (hp : p ∈ F k) : p ∈ U :=
  hc.tiling.head_mem (b := (p, k)) (Or.inl ⟨hk, hp⟩)

theorem live_mem (hc : Core n s F L S U) {lb : LiveBlock} (hp : L p = some lb) : p ∈ U :=
  hc.tiling.head_mem (b := (p, lb.order)) (Or.inr ⟨lb.refs, hp⟩)

theorem live_none_of_notMem (hc : Core n s F L S U) (hp : p ∉ U) : L p = none := by
  cases hl : L p with
  | none => rfl
  | some lb => exact absurd (hc.live_mem hl) hp

/-- The lists of two orders share no page, since a page has one `order` field. -/
theorem order_eq_of_mem (hc : Core n s F L S U) {j : ℕ} (hk : k ≤ orderMax) (hj : j ≤ orderMax)
    (hp : p ∈ F k) (hp' : p ∈ F j) : k = j := by
  have h1 := hc.order k hk p hp
  rw [hc.order j hj p hp'] at h1
  exact_mod_cast h1.symm

theorem list_nodup (hc : Core n s F L S U) (hk : k ≤ orderMax) : (F k).Nodup :=
  List.Nodup.of_map _ (hc.ring k hk).nodup_tail

/-- Distinct pages of `S` never outnumber the page structs. -/
theorem length_le (hc : Core n s F L S U) {l : List ℕ} (hnd : l.Nodup) (hl : ∀ i ∈ l, i ∈ S) :
    l.length ≤ n := by
  have hsub : l ⊆ List.range n := fun i hi => List.mem_range.mpr (hc.inRange i (hl i hi))
  simpa using (hnd.subperm hsub).length_le

/-- The lists `F` are what a walk of the node heap finds. -/
theorem freeList_eq (hc : Core n s F L S U) (hk : k ≤ orderMax) : freeList s k = F k := by
  have hlen : ((F k).map BuddyNode.buddyNode).length ≤ s.pageCount := by
    rw [List.length_map, hc.pageCount]
    exact hc.length_le (hc.list_nodup hk) fun i hi => hc.sub (hc.free_mem hk hi)
  unfold freeList
  rw [(hc.ring k hk).walk_eq hlen, List.filterMap_map]
  exact List.filterMap_some

theorem freeBlocks_freeList (hc : Core n s F L S U) : freeBlocks (freeList s) = freeBlocks F := by
  ext ⟨p, k⟩
  constructor
  · rintro ⟨hk, hp⟩
    exact ⟨hk, hc.freeList_eq hk ▸ hp⟩
  · rintro ⟨hk, hp⟩
    exact ⟨hk, (hc.freeList_eq hk).symm ▸ hp⟩

/-- No block is both free and allocated: the `order` field of its head tells them apart. -/
theorem disjoint_free_live (hc : Core n s F L S U) : Disjoint (freeBlocks F) (liveBlocks L) := by
  rw [Set.disjoint_left]
  rintro ⟨p, k⟩ ⟨hk, hp⟩ ⟨r, hl⟩
  have h1 := hc.order k hk p hp
  rw [(hc.liveOrder p _ hl).2] at h1
  simp only [orderUsed] at h1
  omega

/-- The free pages are the tiled pages outside the allocated blocks. -/
theorem cover_free (hc : Core n s F L S U) : cover (freeBlocks F) = U \ cover (liveBlocks L) :=
  hc.tiling.cover_sdiff hc.disjoint_free_live

theorem tiling_free (hc : Core n s F L S U) : Tiling (freeBlocks F) (cover (freeBlocks F)) :=
  hc.tiling.restrict Set.subset_union_left

/-! ### What each primitive does -/

/-- Only the abstract state and the words the invariant mentions matter. -/
theorem setOrder (hc : Core n s F L S U) (hp : p ∉ U) (o : ℤ) :
    Core n (s.setOrder p o) F L S U where
  pageCount := hc.pageCount
  count_lt := hc.count_lt
  pfn i hi := by rw [BuddyAllocator.setOrder_pfn, hc.pfn i hi]
  ring := hc.ring
  freeCount := hc.freeCount
  order k hk q hq := by
    have hne : q ≠ p := by rintro rfl; exact hp (hc.free_mem hk hq)
    rw [BuddyAllocator.setOrder_order, if_neg hne, hc.order k hk q hq]
  inRange := hc.inRange
  valid i hi := by rw [BuddyAllocator.setOrder_flags, hc.valid i hi]
  sub := hc.sub
  tiling := hc.tiling
  liveOrder q lb hl := by
    have hne : q ≠ p := by rintro rfl; exact hp (hc.live_mem hl)
    rw [BuddyAllocator.setOrder_order, if_neg hne]
    exact hc.liveOrder q lb hl

theorem setUseCount (hc : Core n s F L S U) (p c : ℕ) : Core n (s.setUseCount p c) F L S U where
  pageCount := hc.pageCount
  count_lt := hc.count_lt
  pfn i hi := by rw [BuddyAllocator.setUseCount_pfn, hc.pfn i hi]
  ring := hc.ring
  freeCount := hc.freeCount
  order k hk q hq := by rw [BuddyAllocator.setUseCount_order, hc.order k hk q hq]
  inRange := hc.inRange
  valid i hi := by rw [BuddyAllocator.setUseCount_flags, hc.valid i hi]
  sub := hc.sub
  tiling := hc.tiling
  liveOrder q lb hl := by
    rw [BuddyAllocator.setUseCount_order]
    exact hc.liveOrder q lb hl

theorem index (hc : Core n s F L S U) (i : ℕ) :
    Core n { s with indexed := i :: s.indexed } F L S U :=
  ⟨hc.pageCount, hc.count_lt, hc.pfn, hc.ring, hc.freeCount, hc.order, hc.inRange, hc.valid,
    hc.sub, hc.tiling, hc.liveOrder⟩

theorem freeBlocks_update_erase (hk : k ≤ orderMax) (hnd : (F k).Nodup) :
    freeBlocks (Function.update F k ((F k).erase p)) = freeBlocks F \ {(p, k)} := by
  ext ⟨q, j⟩
  by_cases hj : j = k
  · subst hj
    simp only [freeBlocks, Function.update_self, Set.mem_ofPred_eq, hnd.mem_erase_iff,
      Set.mem_sdiff, Set.mem_singleton_iff, Prod.mk.injEq]
    tauto
  · simp [freeBlocks, hj]

theorem freeBlocks_update_cons (hk : k ≤ orderMax) :
    freeBlocks (Function.update F k (p :: F k)) = insert (p, k) (freeBlocks F) := by
  ext ⟨q, j⟩
  by_cases hj : j = k
  · subst hj
    simp [freeBlocks, hk]
  · simp [freeBlocks, hj]

/-- **Unlinking a free block**: its page leaves list `k`, its pages leave the tiled set. -/
theorem unlink (hc : Core n s F L S U) (hk : k ≤ orderMax) (hp : p ∈ F k) :
    Core n (BuddyAllocator.setFreeCount
        { s with nodes := clistDeleteNode s.nodes (.buddyNode p) } k (dec32 (s.freeCount k)))
      (Function.update F k ((F k).erase p)) L S (U \ block p k) := by
  obtain ⟨pre, post, hsplit⟩ := List.append_of_mem hp
  have hnd := hc.list_nodup hk
  have hpre : p ∉ pre := by
    rw [hsplit, List.nodup_append] at hnd
    intro hin
    exact hnd.2.2 p hin p (by simp) rfl
  have herase : (F k).erase p = pre ++ post := by
    rw [hsplit, List.erase_append_right _ hpre, List.erase_cons_head]
  have hring : Ring s.nodes (.freePages k)
      (pre.map BuddyNode.buddyNode ++ BuddyNode.buddyNode p :: post.map BuddyNode.buddyNode) := by
    simpa [hsplit] using hc.ring k hk
  refine ⟨hc.pageCount, hc.count_lt, hc.pfn, ?_, ?_, ?_, hc.inRange, hc.valid, ?_, ?_, hc.liveOrder⟩
  · intro j hj
    by_cases hjk : j = k
    · subst hjk
      simpa [herase] using clistDeleteNode_ring hring
    · -- the nodes of another order are not on this ring
      rw [Function.update_of_ne hjk]
      refine (hc.ring j hj).frame fun c hcm => clistDeleteNode_frame hring ?_
      rw [show pre.map BuddyNode.buddyNode ++ BuddyNode.buddyNode p :: post.map BuddyNode.buddyNode
        = (F k).map BuddyNode.buddyNode by simp [hsplit]]
      rcases List.mem_cons.mp hcm with rfl | hcm
      · simp [hjk]
      · obtain ⟨q, hq, rfl⟩ := List.mem_map.mp hcm
        have hqk : q ∉ F k := fun hin => hjk (hc.order_eq_of_mem hj hk hq hin)
        simp [hqk]
  · intro j hj
    by_cases hjk : j = k
    · subst hjk
      -- the count does not wrap: the list has a block, and fewer than there are pages
      have hpos : 0 < (F j).length := List.length_pos_of_mem hp
      have hlt : (F j).length < 2 ^ 32 :=
        (hc.length_le (hc.list_nodup hj) fun i hi => hc.sub (hc.free_mem hj hi)).trans_lt hc.count_lt
      rw [BuddyAllocator.setFreeCount_freeCount, if_pos rfl, hc.freeCount j hj,
        dec32_of_pos hpos hlt, Function.update_self, List.length_erase_of_mem hp]
    · rw [BuddyAllocator.setFreeCount_freeCount, if_neg hjk, Function.update_of_ne hjk]
      exact hc.freeCount j hj
  · intro j hj q hq
    by_cases hjk : j = k
    · subst hjk
      rw [Function.update_self] at hq
      exact hc.order j hj q (List.mem_of_mem_erase hq)
    · rw [Function.update_of_ne hjk] at hq
      exact hc.order j hj q hq
  · exact Set.sdiff_subset.trans hc.sub
  · -- the block leaves the free ones; it was not among the live ones
    have herased := hc.tiling.erase (b := (p, k)) (Or.inl ⟨hk, hp⟩)
    have hblocks : (freeBlocks F ∪ liveBlocks L) \ {(p, k)}
        = freeBlocks (Function.update F k ((F k).erase p)) ∪ liveBlocks L := by
      rw [freeBlocks_update_erase hk hnd, Set.union_sdiff_distrib]
      congr 1
      apply Set.sdiff_singleton_eq_self
      exact Set.disjoint_left.mp hc.disjoint_free_live ⟨hk, hp⟩
    rwa [hblocks] at herased

/-- **`buddy_add_block`** of a block outside the tiled set. -/
theorem add (hc : Core n s F L S U) (hk : k ≤ orderMax) (hal : 2 ^ k ∣ p) (hS : block p k ⊆ S)
    (hd : Disjoint (block p k) U) :
    Core n (buddyAddBlock s p k) (Function.update F k (p :: F k)) L S (U ∪ block p k) := by
  have hpU : p ∉ U := Set.disjoint_left.mp hd (self_mem_block p k)
  have hpF : ∀ j ≤ orderMax, p ∉ F j := fun j hj hin => hpU (hc.free_mem hj hin)
  have hc' := hc.setOrder hpU (k : ℤ)
  have hnew : BuddyNode.buddyNode p ∉ BuddyNode.freePages k :: (F k).map BuddyNode.buddyNode := by
    simp [hpF k hk]
  have hnodup : (p :: F k).Nodup := List.nodup_cons.mpr ⟨hpF k hk, hc.list_nodup hk⟩
  refine ⟨hc'.pageCount, hc'.count_lt, hc'.pfn, ?_, ?_, ?_, hc'.inRange, hc'.valid, ?_, ?_,
    hc'.liveOrder⟩
  · intro j hj
    by_cases hjk : j = k
    · subst hjk
      rw [Function.update_self]
      exact clistAdd_ring (hc.ring j hj) hnew
    · rw [Function.update_of_ne hjk]
      refine (hc.ring j hj).frame fun c hcm => clistAdd_frame (hc.ring k hk) hnew ?_ ?_
      · rcases List.mem_cons.mp hcm with rfl | hcm
        · simp [hjk]
        · obtain ⟨q, hq, rfl⟩ := List.mem_map.mp hcm
          have hqk : q ∉ F k := fun hin => hjk (hc.order_eq_of_mem hj hk hq hin)
          simp [hqk]
      · rintro rfl
        simp [hpF j hj] at hcm
  · intro j hj
    by_cases hjk : j = k
    · subst hjk
      -- the list with the new page still has at most `n` members
      have hlt : (F j).length + 1 < 2 ^ 32 := by
        refine (hc.length_le hnodup fun i hi => ?_).trans_lt hc.count_lt
        rcases List.mem_cons.mp hi with rfl | hi
        · exact hS (self_mem_block i j)
        · exact hc.sub (hc.free_mem hj hi)
      show (BuddyAllocator.setFreeCount _ j _).freeCount j = _
      rw [BuddyAllocator.setFreeCount_freeCount, if_pos rfl, Function.update_self,
        List.length_cons]
      show inc32 (s.freeCount j) = _
      rw [hc.freeCount j hj, inc32_of_lt hlt]
    · show (BuddyAllocator.setFreeCount _ k _).freeCount j = _
      rw [BuddyAllocator.setFreeCount_freeCount, if_neg hjk, Function.update_of_ne hjk]
      exact hc.freeCount j hj
  · intro j hj q hq
    show ((s.setOrder p k).pages q).order = j
    by_cases hjk : j = k
    · subst hjk
      rw [Function.update_self, List.mem_cons] at hq
      rcases hq with rfl | hq
      · simp
      · exact hc'.order j hj q hq
    · rw [Function.update_of_ne hjk] at hq
      exact hc'.order j hj q hq
  · exact Set.union_subset hc.sub hS
  · rw [freeBlocks_update_cons hk, Set.insert_union]
    exact hc.tiling.insert hal hd

/-- **`buddy_remove_block`** of a free block. -/
theorem remove (hc : Core n s F L S U) (hk : k ≤ orderMax) (hp : p ∈ F k) :
    Core n (buddyRemoveBlock s p) (Function.update F k ((F k).erase p)) L S (U \ block p k) := by
  have horder : ((s.pages p).order).toNat = k := by rw [hc.order k hk p hp]; rfl
  have hunlink := hc.unlink hk hp
  unfold buddyRemoveBlock
  simp only [horder]
  exact hunlink.setOrder (fun hin => hin.2 (self_mem_block p k)) _

/-- A block in hand becomes an allocated block. -/
theorem grant (hc : Core n s F L S U) (hk : k ≤ orderMax) (hal : 2 ^ k ∣ p) (hS : block p k ⊆ S)
    (hd : Disjoint (block p k) U) (hused : (s.pages p).order = orderUsed) (r : ℕ) :
    Core n s F (Function.update L p (some ⟨k, r⟩)) S (U ∪ block p k) := by
  have hpU : p ∉ U := Set.disjoint_left.mp hd (self_mem_block p k)
  have hnone := hc.live_none_of_notMem hpU
  have hlive : liveBlocks (Function.update L p (some ⟨k, r⟩)) = insert (p, k) (liveBlocks L) := by
    ext ⟨q, j⟩
    by_cases hq : q = p
    · subst hq
      simp [liveBlocks, hnone, eq_comm]
    · simp [liveBlocks, hq]
  refine ⟨hc.pageCount, hc.count_lt, hc.pfn, hc.ring, hc.freeCount, hc.order, hc.inRange, hc.valid,
    Set.union_subset hc.sub hS, ?_, ?_⟩
  · rw [hlive, Set.union_insert]
    exact hc.tiling.insert hal hd
  · intro q lb hl
    by_cases hq : q = p
    · subst hq
      rw [Function.update_self, Option.some.injEq] at hl
      subst hl
      exact ⟨hk, hused⟩
    · rw [Function.update_of_ne hq] at hl
      exact hc.liveOrder q lb hl

/-- An allocated block is taken in hand. -/
theorem revoke (hc : Core n s F L S U) {r : ℕ} (hl : L p = some ⟨k, r⟩) :
    Core n s F (Function.update L p none) S (U \ block p k) := by
  have hmem : (p, k) ∈ liveBlocks L := ⟨r, hl⟩
  have hlive : liveBlocks (Function.update L p none) = liveBlocks L \ {(p, k)} := by
    ext ⟨q, j⟩
    by_cases hq : q = p
    · subst hq
      simp [liveBlocks, hl, eq_comm]
    · simp [liveBlocks, hq]
  refine ⟨hc.pageCount, hc.count_lt, hc.pfn, hc.ring, hc.freeCount, hc.order, hc.inRange, hc.valid,
    Set.sdiff_subset.trans hc.sub, ?_, ?_⟩
  · have herased := hc.tiling.erase (b := (p, k)) (Or.inr hmem)
    have hblocks : (freeBlocks F ∪ liveBlocks L) \ {(p, k)}
        = freeBlocks F ∪ liveBlocks (Function.update L p none) := by
      rw [hlive, Set.union_sdiff_distrib]
      congr 1
      exact Set.sdiff_singleton_eq_self (Set.disjoint_right.mp hc.disjoint_free_live hmem)
    rwa [hblocks] at herased
  · intro q lb hq
    by_cases hqp : q = p
    · subst hqp
      simp at hq
    · rw [Function.update_of_ne hqp] at hq
      exact hc.liveOrder q lb hq

/-- Counting references does not move a block. -/
theorem recount (hc : Core n s F L S U) {r : ℕ} (hl : L p = some ⟨k, r⟩) (r' : ℕ) :
    Core n s F (Function.update L p (some ⟨k, r'⟩)) S U := by
  have hlive : liveBlocks (Function.update L p (some ⟨k, r'⟩)) = liveBlocks L := by
    ext ⟨q, j⟩
    by_cases hq : q = p
    · subst hq
      simp [liveBlocks, hl]
    · simp [liveBlocks, hq]
  refine ⟨hc.pageCount, hc.count_lt, hc.pfn, hc.ring, hc.freeCount, hc.order, hc.inRange, hc.valid,
    hc.sub, by rw [hlive]; exact hc.tiling, fun q lb hq => ?_⟩
  by_cases hqp : q = p
  · subst hqp
    rw [Function.update_self, Option.some.injEq] at hq
    subst hq
    have hold := hc.liveOrder q _ hl
    exact ⟨hold.1, hold.2⟩
  · rw [Function.update_of_ne hqp] at hq
    exact hc.liveOrder q lb hq

/-- Clearing `PF_INVALID` puts the page into `S`, but not into a block yet. -/
theorem clearInvalid (hc : Core n s F L S U) (hp : p < n) :
    Core n (s.setFlags p (clearFlag (s.pages p).flags pfInvalid)) F L (insert p S) U where
  pageCount := hc.pageCount
  count_lt := hc.count_lt
  pfn i hi := by rw [BuddyAllocator.setFlags_pfn, hc.pfn i hi]
  ring := hc.ring
  freeCount := hc.freeCount
  order k hk q hq := by rw [BuddyAllocator.setFlags_order, hc.order k hk q hq]
  inRange i hi := by
    rcases hi with rfl | hi
    · exact hp
    · exact hc.inRange i hi
  valid i hi := by
    rw [BuddyAllocator.setFlags_flags]
    by_cases hip : i = p
    · subst hip
      simp
    · rw [if_neg hip, hc.valid i hi, Set.mem_insert_iff, or_iff_right hip]
  sub := hc.sub.trans (Set.subset_insert p S)
  tiling := hc.tiling
  liveOrder q lb hl := by
    rw [BuddyAllocator.setFlags_order]
    exact hc.liveOrder q lb hl

end Core

end Rotary
