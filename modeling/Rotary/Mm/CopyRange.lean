import Rotary.Mm.PageCalls
import Rotary.Mm.Vm

namespace Rotary

open Lib

/-!
# Copying ranges of mappings (`ptable_copy_range` in `kernel/mm/ptable.c`)

The function goes through the directory entries of a range and, below each that the source has,
through a part of the table entries: from the index of the start address in the first table, to
that of the end address in the last, and all of them in between.  Which part that is depends on
whether the entry is the first one, and only if not, on whether it is the last one.

The page functions are parameters again: `alloc s` is `page_alloc(0, ..)` and `incUses s p` is
`PAGE_INC_USES` of page `p`.  `none` stands for the access to a null page when `page_alloc` fails.

* `ptableCopyRange` — the function, for any flags;
* `Hands`, `Took` — the pages that `page_alloc` is going to hand out, and has handed out;
* `Offers` — that these are pages outside a set, each of them once.
-/

def ptcShare : BitVec 32 := 0x01
def ptcCopy : BitVec 32 := 0x02

section Model

variable {σ : Type} (alloc : σ → Option ℕ × σ) (incUses : σ → ℕ → σ)

/-- `memcpy(copied_page, orig_page, PAGE_SIZE)`, from frame to frame. -/
def copyFrame (mem : PhysMem) (copied orig : ℕ) : PhysMem := Function.update mem copied (mem orig)

/-- The entry for a copied page. -/
def copiedEntry (page : ℕ) : BitVec 32 :=
  makeEntry (virToPhy (pageVa page)) (ptePresent ||| pteUser)

/-- The body of the inner loop, for entry `i` of the tables in `pgtNew` and `pgtOld`. -/
def copyPte (flags : BitVec 32) (pgtNew pgtOld : ℕ) (x : PhysMem × σ) (i : ℕ) :
    Option (PhysMem × σ) :=
  let pteOld := x.1 pgtOld i
  if !entryExists pteOld then some x
  else if testFlag flags ptcShare then
    some (setWord x.1 pgtNew i pteOld, incUses x.2 (frameOf pteOld))
  else if testFlag flags ptcCopy then
    match alloc x.2 with
    | (none, _) => none
    | (some page, s) => some (setWord (copyFrame x.1 page (frameOf pteOld)) pgtNew i (copiedEntry page), s)
  -- `PTC_COW` is a branch without statements
  else some x

/-- The destination's table at entry `cur`, if it has none: a page as `page_alloc` returns it. -/
def copyTable (dst : ℕ) (x : PhysMem × σ) (cur : ℕ) : Option (PhysMem × σ) :=
  if entryExists (x.1 dst cur) then some x
  else
    match alloc x.2 with
    | (none, _) => none
    | (some page, s) => some (setWord x.1 dst cur (newPde page), s)

/-- `curr_start_pte` of the directory entry `cur`. -/
def currStartPte (startAddr cur : ℕ) : ℕ :=
  if cur = pageDirectoryIndex startAddr then pageTableIndex startAddr else 0

/-- `curr_end_pte` of the directory entry `cur`. -/
def currEndPte (startAddr endAddr cur : ℕ) : ℕ :=
  if cur = pageDirectoryIndex startAddr then pageTableSize
  else if cur = pageDirectoryIndex endAddr then pageTableIndex endAddr
  else pageTableSize

/-- The indices of the inner loop. -/
def copiedPart (startAddr endAddr cur : ℕ) : List ℕ :=
  List.range' (currStartPte startAddr cur) (currEndPte startAddr endAddr cur - currStartPte startAddr cur)

/-- The body of the outer loop. -/
def copyPde (flags : BitVec 32) (src dst startAddr endAddr : ℕ) (x : PhysMem × σ) (cur : ℕ) :
    Option (PhysMem × σ) :=
  if !entryExists (x.1 src cur) then some x
  else
    match copyTable alloc dst x cur with
    | none => none
    | some y => (copiedPart startAddr endAddr cur).foldlM
        (copyPte alloc incUses flags (frameOf (y.1 dst cur)) (frameOf (y.1 src cur))) y

/-- The indices of the outer loop. -/
def copiedPdes (startAddr endAddr : ℕ) : List ℕ :=
  List.range' (pageDirectoryIndex startAddr)
    (pageDirectoryIndex endAddr + 1 - pageDirectoryIndex startAddr)

/-- `ptable_copy_range`. -/
def ptableCopyRange (flags : BitVec 32) (mem : PhysMem) (s : σ) (src dst startAddr endAddr : ℕ) :
    Option (PhysMem × σ) :=
  (copiedPdes startAddr endAddr).foldlM (copyPde alloc incUses flags src dst startAddr endAddr) (mem, s)

end Model

/-! ### The pages handed out -/

section Hands

variable {σ : Type} {alloc : σ → Option ℕ × σ} {incUses : σ → ℕ → σ} {s s' : σ} {p : ℕ}
  {ps : List ℕ} {U U' : Set ℕ}

/-- Where the source has no table, a turn of the outer loop does nothing. -/
theorem copyPde_absent {flags : BitVec 32} {mem : PhysMem} {src d : ℕ}
    (hsrc : ¬ entryExists (mem src d) = true) (dst startAddr endAddr : ℕ) (s : σ) :
    copyPde alloc incUses flags src dst startAddr endAddr (mem, s) d = some (mem, s) := by
  unfold copyPde
  simp [hsrc]

/-- The next calls of `page_alloc` return the pages `ps`, in this order. -/
def Hands (alloc : σ → Option ℕ × σ) : σ → List ℕ → Prop
  | _, [] => True
  | s, p :: ps => ∃ s', alloc s = (some p, s') ∧ Hands alloc s' ps

/-- Calls of `page_alloc` have returned the pages `ps`, in this order. -/
def Took (alloc : σ → Option ℕ × σ) : σ → List ℕ → σ → Prop
  | s, [], s' => s' = s
  | s, p :: ps, s' => ∃ s₁, alloc s = (some p, s₁) ∧ Took alloc s₁ ps s'

theorem Took.append {s₁ : σ} {qs : List ℕ} (h : Took alloc s ps s₁) (h' : Took alloc s₁ qs s') :
    Took alloc s (ps ++ qs) s' := by
  induction ps generalizing s with
  | nil =>
    obtain rfl := h
    exact h'
  | cons p ps ih =>
    obtain ⟨s₂, heq, hrest⟩ := h
    exact ⟨s₂, heq, ih hrest⟩

theorem Took.hands (h : Took alloc s ps s') : Hands alloc s ps := by
  induction ps generalizing s with
  | nil => trivial
  | cons p ps ih =>
    obtain ⟨s₁, heq, hrest⟩ := h
    exact ⟨s₁, heq, ih hrest⟩

/-- What is going to be handed out, after some pages have been. -/
theorem Took.hands_iff (h : Took alloc s ps s') (qs : List ℕ) :
    Hands alloc s (ps ++ qs) ↔ Hands alloc s' qs := by
  induction ps generalizing s with
  | nil =>
    obtain rfl := h
    exact Iff.rfl
  | cons p ps ih =>
    obtain ⟨s₁, heq, hrest⟩ := h
    rw [← ih hrest]
    constructor
    · rintro ⟨s₂, heq', hands⟩
      rw [heq] at heq'
      obtain ⟨-, rfl⟩ := Prod.mk.inj heq'
      exact hands
    · intro hands
      exact ⟨s₁, heq, hands⟩

/-- `page_alloc` takes no notice of the use counts. -/
def CountsIgnored (alloc : σ → Option ℕ × σ) (incUses : σ → ℕ → σ) : Prop :=
  ∀ s p, alloc (incUses s p) = ((alloc s).1, incUses (alloc s).2 p)

theorem Hands.counted_iff (hign : CountsIgnored alloc incUses) (p : ℕ) :
    Hands alloc (incUses s p) ps ↔ Hands alloc s ps := by
  induction ps generalizing s with
  | nil => exact Iff.rfl
  | cons q ps ih =>
    constructor
    · rintro ⟨s', heq, hrest⟩
      rw [hign] at heq
      obtain ⟨hq, rfl⟩ := Prod.mk.inj heq
      exact ⟨(alloc s).2, Prod.ext hq rfl, ih.mp hrest⟩
    · rintro ⟨s', heq, hrest⟩
      refine ⟨incUses s' p, ?_, ih.mpr hrest⟩
      rw [hign, heq]

/-- However often it is called, `page_alloc` returns pages of the machine outside `U`, and none of
    them twice. -/
def Offers (alloc : σ → Option ℕ × σ) (s : σ) (U : Set ℕ) : Prop :=
  ∀ ps, Hands alloc s ps → ps.Nodup ∧ ∀ p ∈ ps, p < 2 ^ 20 ∧ p ∉ U

theorem Offers.mono (h : Offers alloc s U) (hU : U' ⊆ U) : Offers alloc s U' := by
  intro ps hps
  obtain ⟨hnd, hpages⟩ := h ps hps
  exact ⟨hnd, fun p hp => ⟨(hpages p hp).1, fun hmem => (hpages p hp).2 (hU hmem)⟩⟩

/-- A page handed out later is not in use. -/
theorem Offers.not_mem (h : Offers alloc s U) (hands : Hands alloc s ps) (hp : p ∈ ps) : p ∉ U :=
  ((h ps hands).2 p hp).2

theorem Offers.counted (hign : CountsIgnored alloc incUses) (h : Offers alloc s U) (p : ℕ) :
    Offers alloc (incUses s p) U :=
  fun ps hps => h ps ((Hands.counted_iff hign p).mp hps)

/-- The page of one call is new, and the later ones are not that page again. -/
theorem Offers.take (h : Offers alloc s U) (heq : alloc s = (some p, s')) :
    p < 2 ^ 20 ∧ p ∉ U ∧ Offers alloc s' (insert p U) := by
  have hone := (h [p] ⟨s', heq, trivial⟩).2 p List.mem_cons_self
  refine ⟨hone.1, hone.2, ?_⟩
  intro ps hps
  obtain ⟨hnd, hpages⟩ := h (p :: ps) ⟨s', heq, hps⟩
  obtain ⟨hnot, hnd'⟩ := List.nodup_cons.mp hnd
  refine ⟨hnd', fun q hq => ?_⟩
  obtain ⟨hlt, hout⟩ := hpages q (List.mem_cons_of_mem p hq)
  refine ⟨hlt, ?_⟩
  rintro (rfl | hmem)
  · exact hnot hq
  · exact hout hmem

theorem Offers.took (h : Offers alloc s U) (htook : Took alloc s ps s') :
    ps.Nodup ∧ (∀ p ∈ ps, p < 2 ^ 20 ∧ p ∉ U) ∧ Offers alloc s' (U ∪ {p | p ∈ ps}) := by
  obtain ⟨hnd, hpages⟩ := h ps htook.hands
  refine ⟨hnd, hpages, fun qs hqs => ?_⟩
  obtain ⟨hnd', hpages'⟩ := h (ps ++ qs) ((htook.hands_iff qs).mpr hqs)
  obtain ⟨-, hqs, hdisjoint⟩ := List.nodup_append.mp hnd'
  refine ⟨hqs, fun q hq => ?_⟩
  obtain ⟨hlt, hout⟩ := hpages' q (List.mem_append_right ps hq)
  refine ⟨hlt, ?_⟩
  rintro (hU | hps)
  · exact hout hU
  · exact hdisjoint q hps q hq rfl

end Hands

/-! ### The buddy allocator -/

theorem countsIgnored_pageAlloc : CountsIgnored allocPage pageIncUses :=
  fun s p => pageAlloc_pageIncUses s p 0

/-- **One page from the buddy allocator**: there is none, or it is a free one, and only this page is
    not free any more. -/
theorem Core.allocPage_cases {n : ℕ} {s : BuddyAllocator} {F : ℕ → List ℕ} {L : Live} {S : Set ℕ}
    (hc : Core n s F L S S) : (allocPage s = (none, s) ∧ freePages s = ∅) ∨
      ∃ t s' F' L', allocPage s = (some t, s') ∧ t < n ∧ t ∈ freePages s ∧
        freePages s' = freePages s \ {t} ∧ Core n s' F' L' S S := by
  rcases hc.pageAlloc_taken 0 with ⟨hnone, hempty⟩ | ⟨t, s', F', L', hsome, -, -, htaken, hlt, hc'⟩
  · refine Or.inl ⟨hnone, ?_⟩
    rcases hempty with horder | hlists
    · exact absurd horder (by decide)
    · rw [freePages, hc.freeBlocks_freeList, Set.eq_empty_iff_forall_notMem]
      intro p hp
      obtain ⟨⟨b, k⟩, ⟨hk, hb⟩, -⟩ := Set.mem_iUnion₂.mp hp
      rw [hlists k (Nat.zero_le k) hk] at hb
      cases hb
  · refine Or.inr ⟨t, s', F', L', hsome, hlt, htaken.wasFree (self_mem_block t 0), ?_, hc'⟩
    rw [htaken.free, block_zero]

/-- Pages taken from the buddy allocator were free before and are not free any more. -/
theorem Core.took {n : ℕ} {s s' : BuddyAllocator} {F : ℕ → List ℕ} {L : Live} {S : Set ℕ}
    {ps : List ℕ} (hc : Core n s F L S S) (h : Took allocPage s ps s') :
    ps.Nodup ∧ (∀ p ∈ ps, p < n ∧ p ∈ freePages s) ∧ freePages s' = freePages s \ {p | p ∈ ps} := by
  induction ps generalizing s F L with
  | nil =>
    obtain rfl := h
    refine ⟨List.nodup_nil, fun p hp => by simp at hp, ?_⟩
    simp
  | cons p ps ih =>
    obtain ⟨s₁, heq, hrest⟩ := h
    rcases hc.allocPage_cases with ⟨hnone, -⟩ | ⟨t, s₂, F', L', hsome, hlt, hwas, hgone, hc'⟩
    · rw [hnone] at heq
      cases heq
    rw [hsome] at heq
    obtain ⟨hp, rfl⟩ := Prod.mk.inj heq
    obtain rfl := Option.some.inj hp
    obtain ⟨hnd, hpages, hfree⟩ := ih hc' hrest
    rw [hgone] at hpages hfree
    refine ⟨List.nodup_cons.mpr ⟨fun hmem => (hpages t hmem).2.2 rfl, hnd⟩, ?_, ?_⟩
    · intro q hq
      rcases List.mem_cons.mp hq with rfl | hq
      · exact ⟨hlt, hwas⟩
      · exact ⟨(hpages q hq).1, (hpages q hq).2.1⟩
    · have hset : {t} ∪ {p | p ∈ ps} = {p | p ∈ t :: ps} := by
        ext q
        simp
      rw [hfree, Set.sdiff_sdiff, hset]

theorem Hands.took {s : BuddyAllocator} {ps : List ℕ} (h : Hands allocPage s ps) :
    ∃ s', Took allocPage s ps s' := by
  induction ps generalizing s with
  | nil => exact ⟨s, rfl⟩
  | cons p ps ih =>
    obtain ⟨s₁, heq, hrest⟩ := h
    obtain ⟨s', htook⟩ := ih hrest
    exact ⟨s', s₁, heq, htook⟩

theorem Core.offers {n : ℕ} {s : BuddyAllocator} {F : ℕ → List ℕ} {L : Live} {S U : Set ℕ}
    (hc : Core n s F L S S) (hn : n ≤ 2 ^ 20) (hU : ∀ p ∈ freePages s, p ∉ U) :
    Offers allocPage s U := by
  intro ps hps
  obtain ⟨s', htook⟩ := hps.took
  obtain ⟨hnd, hpages, -⟩ := hc.took htook
  exact ⟨hnd, fun p hp => ⟨(hpages p hp).1.trans_le hn, hU p (hpages p hp).2⟩⟩

/-- Taking pages counts a use of each, and none of the others. -/
theorem Took.useCount {s s' : BuddyAllocator} {ps : List ℕ} {f : ℕ} (h : Took allocPage s ps s')
    (hf : f ∉ ps) : (s'.pages f).useCount = (s.pages f).useCount := by
  induction ps generalizing s with
  | nil =>
    obtain rfl := h
    rfl
  | cons p ps ih =>
    obtain ⟨s₁, heq, hrest⟩ := h
    have hne : f ≠ p := fun h => hf (h ▸ List.mem_cons_self)
    rw [ih hrest fun hmem => hf (List.mem_cons_of_mem p hmem), pageAlloc_useCount heq, if_neg hne]

end Rotary
