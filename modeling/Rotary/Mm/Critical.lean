import Rotary.Mm.Regions

namespace Rotary

/-!
# Critical pages

Two tests decide which pages belong to the kernel.  `buddy_init` sets `PF_KERNEL` from
`KERNEL_PHYS_START` up to the end of the page array, comparing a physical address with a virtual
one; `page_is_critical`, by which `page_free` refuses a page, looks at the kernel image only.

* `critical_iff` — for which pages the two agree with each other, and with the pages that the image
  and the page array really lie in;
* `critical_disagree_boot` — with the page array outside the image, they disagree on its first page.
-/

/-- The page array of an allocator with `n` page structs. -/
def BuddyAllocator.pageArray (s : BuddyAllocator) (n : ℕ) : Extent := ⟨s.pageArea, sizeofPage * n⟩

/-- The page holds part of the kernel image or of the page array. -/
def HoldsKernel (img : KernelImage) (s : BuddyAllocator) (n p : ℕ) : Prop :=
  img.Overlaps p ∨ (s.pageArray n).Overlaps p

/-- `page_free` reports failure and changes nothing, in every state in which the page structs have
    the page numbers that `buddy_init` gave them. -/
def RefusesToFree (img : KernelImage) (s : BuddyAllocator) (p : ℕ) : Prop :=
  ∀ s' : BuddyAllocator, (∀ i, (s'.pages i).pfn = (s.pages i).pfn) →
    ∀ order, pageFree img s' (some p) order = (.error, s')

/-- The flag of the page, and whether `page_free` refuses it, say that it holds part of the
    kernel. -/
structure CriticalAgrees (img : KernelImage) (s : BuddyAllocator) (n p : ℕ) : Prop where
  flag : testFlag (s.pages p).flags pfKernel = true ↔ HoldsKernel img s n p
  refused : RefusesToFree img s p ↔ HoldsKernel img s n p

/-- The first address of the page lies in the kernel image. -/
def KernelImage.Begins (img : KernelImage) (p : ℕ) : Prop :=
  img.physStart ≤ pfnToPa p ∧ pfnToPa p < img.physEnd

/-- The first address of the page lies between the start of the image and the virtual address at
    which the page array ends. -/
def BeginsBelowArrayEnd (img : KernelImage) (s : BuddyAllocator) (n p : ℕ) : Prop :=
  img.physStart ≤ pfnToPa p ∧ pfnToPa p < u32 (s.pageArea + sizeofPage * n)

variable {img : KernelImage} {past : PastEnd} {bm bm' : Bootmem} {s : BuddyAllocator} {n p : ℕ}

/-- `buddy_init`: which pages get `PF_KERNEL`. -/
theorem buddyInit_flag (hinit : buddyInit img past bm n = some (s, bm')) (hp : p < n) :
    testFlag (s.pages p).flags pfKernel = true ↔ BeginsBelowArrayEnd img s n p := by
  obtain ⟨_, rfl⟩ := buddyInit_eq hinit
  unfold BeginsBelowArrayEnd initialAllocator
  simp only [if_pos hp, initialPage]
  split_ifs with hkernel hzone hzone
  · exact iff_of_true (by decide) hkernel
  · exact iff_of_true (by decide) hkernel
  · exact iff_of_false (by decide) hkernel
  · exact iff_of_false (by decide) hkernel

theorem pageIsCritical_iff : pageIsCritical img s p = .error ↔ img.Begins (s.pages p).pfn := by
  unfold pageIsCritical KernelImage.Begins
  dsimp only
  split <;> simp_all

/-- `page_free` refuses the pages that begin in the image, and no others. -/
theorem refusesToFree_iff (hpfn : (s.pages p).pfn = p) :
    RefusesToFree img s p ↔ img.Begins p := by
  constructor
  · intro hrefuses
    have hfree := congrArg Prod.fst (hrefuses s (fun _ => rfl) 0)
    by_contra hnot
    have hcrit : pageIsCritical img s p ≠ .error := by
      rw [Ne, pageIsCritical_iff, hpfn]
      exact hnot
    unfold pageFree at hfree
    simp only [if_neg hcrit] at hfree
    split at hfree <;> cases hfree
  · intro hbegins s' hsame order
    have hcrit : pageIsCritical img s' p = .error := by
      rw [pageIsCritical_iff, hsame, hpfn]
      exact hbegins
    unfold pageFree
    simp only [if_pos hcrit]

/-- **When the two tests agree.**  The flag of a page and the answer of `page_free` are right if and
    only if a page that begins in the image also begins below the virtual end of the page array and
    holds part of the kernel, and any other page begins neither between the start of the image and
    that end nor holds part of the kernel. -/
theorem critical_iff (hinit : buddyInit img past bm n = some (s, bm')) (hp : p < n) :
    CriticalAgrees img s n p ↔
      (img.Begins p → BeginsBelowArrayEnd img s n p ∧ HoldsKernel img s n p) ∧
      (¬ img.Begins p → ¬ BeginsBelowArrayEnd img s n p ∧ ¬ HoldsKernel img s n p) := by
  have hpfn : (s.pages p).pfn = p := by
    obtain ⟨_, rfl⟩ := buddyInit_eq hinit
    simp [initialAllocator, hp, initialPage]
  have hflag := buddyInit_flag hinit hp
  have hrefused : RefusesToFree img s p ↔ img.Begins p := refusesToFree_iff hpfn
  constructor
  · rintro ⟨hf, hr⟩
    rw [hflag] at hf
    rw [hrefused] at hr
    refine ⟨fun hbegins => ⟨hf.mpr (hr.mp hbegins), hr.mp hbegins⟩, fun hnot => ?_⟩
    have hkernel : ¬ HoldsKernel img s n p := fun hholds => hnot (hr.mpr hholds)
    exact ⟨fun hbelow => hkernel (hf.mp hbelow), hkernel⟩
  · rintro ⟨hin, hout⟩
    by_cases hbegins : img.Begins p
    · obtain ⟨hbelow, hholds⟩ := hin hbegins
      exact ⟨hflag.trans (iff_of_true hbelow hholds), hrefused.trans (iff_of_true hbegins hholds)⟩
    · obtain ⟨hbelow, hholds⟩ := hout hbegins
      exact ⟨hflag.trans (iff_of_false hbelow hholds), hrefused.trans (iff_of_false hbegins hholds)⟩

/-- Page 5 lies below the image and the page array. -/
theorem critical_iff_lowPage : ∃ s bm', buddyInit lowImage zeroPast
    (registerAll lowImage bootmemReset twoPages) 64 = some (s, bm') ∧
      CriticalAgrees lowImage s 64 5 := by
  obtain ⟨⟨s, bm'⟩, hinit, harea⟩ := Option.map_eq_some_iff.mp (show
    (buddyInit lowImage zeroPast (registerAll lowImage bootmemReset twoPages) 64).map
      (fun r => r.1.pageArea) = some 0xC003E000 by decide +kernel)
  refine ⟨s, bm', hinit, (critical_iff hinit (by decide)).mpr ⟨?_, fun _ => ⟨?_, ?_⟩⟩⟩
  · intro hbegins
    exact absurd hbegins.1 (by decide)
  · intro hbelow
    exact absurd hbelow.1 (by decide)
  · rintro (⟨a, ⟨hlo, -⟩, ha⟩ | ⟨a, ⟨hlo, -⟩, ha⟩)
    · have hlo' : 0x100000 ≤ a := hlo
      omega
    · have hva : (s.pageArray 64).va = 0xC003E000 := harea
      rw [hva] at hlo
      have hlo' : 0x3E000 ≤ a := hlo
      omega

/-- **The page array is not refused.**  After a boot with the array at 2 MiB, behind the image, its
    first page has `PF_KERNEL`, and `page_free` gives it back. -/
theorem pageArray_freed :
    ¬ ∀ (img : KernelImage) (past : PastEnd) (bm bm' : Bootmem) (s : BuddyAllocator) (n : ℕ),
      buddyInit img past bm n = some (s, bm') → ∀ p < n, CriticalAgrees img s n p := by
  intro h
  obtain ⟨⟨s, bm'⟩, hinit, harea⟩ := Option.map_eq_some_iff.mp (show
    (buddyInit lowImage zeroPast
      (registerAll lowImage bootmemReset [⟨0x200000, 0x500000, 1⟩]) 0x500).map
        (fun r => (r.1.pageArea, (r.1.pages 0x200).pfn)) = some (0xC0200000, 0x200) by
          decide +kernel)
  obtain ⟨hva, hpfn⟩ := Prod.mk.inj harea
  have hagrees := h lowImage zeroPast _ bm' s 0x500 hinit 0x200 (by decide)
  have hholds : HoldsKernel lowImage s 0x500 0x200 := by
    refine Or.inr ⟨0x200000, ?_, by decide⟩
    unfold Extent.span BuddyAllocator.pageArray
    rw [hva]
    exact ⟨by decide, by decide⟩
  have hbegins := (refusesToFree_iff hpfn).mp (hagrees.refused.mpr hholds)
  exact absurd hbegins.2 (by decide)

variable {W : Set ℕ}

/-- **No boot gets it right.**  Where the regions keep clear of the image, the page array does so,
    too, and its first page holds part of the kernel, but `page_free` does not refuse it. -/
theorem critical_disagree_boot (h : Layout bm img.span) (haligned : 4096 ∣ img.physStart)
    (hinit : buddyInit img past bm n = some (s, bm')) (hpos : 0 < n) (hle : bm.highestPfn ≤ n)
    (hn : n ≤ 2 ^ 20) : ∃ p < n, ¬ CriticalAgrees img s n p := by
  have hsize : u32 (n * sizeofPage) = n * 24 := u32_of_lt (by unfold sizeofPage; omega)
  have hbound : img.physEnd ≤ 0xFFFFF000 := img.fits
  unfold buddyInit at hinit
  dsimp only at hinit
  split at hinit
  · cases hinit
  · rename_i hne
    obtain ⟨rfl, -⟩ := Prod.mk.inj (Option.some.inj hinit)
    rcases bootmemAlloc_layout (u32 (n * sizeofPage)) bootAlignment_noAlign h with
      ⟨hnull, -⟩ | ⟨a, hva, hfits, hbelow, -, hclear, -, -⟩
    · exact absurd hnull hne
    rw [hsize] at hfits hbelow hclear
    have hp : a / 4096 < n := by omega
    refine ⟨a / 4096, hp, fun hagrees => ?_⟩
    have hholds : HoldsKernel img (initialAllocator img past
        (bootmemAlloc bm (u32 (n * sizeofPage)) bmNoAlign).1 n) n (a / 4096) := by
      refine Or.inr ⟨a, ?_, rfl⟩
      unfold Extent.span BuddyAllocator.pageArray initialAllocator
      dsimp only
      rw [hva, virToPhy_phyToVir (by omega)]
      exact ⟨le_rfl, by unfold sizeofPage; omega⟩
    have hpfn : ((initialAllocator img past
        (bootmemAlloc bm (u32 (n * sizeofPage)) bmNoAlign).1 n).pages (a / 4096)).pfn =
          a / 4096 := by
      simp [initialAllocator, hp, initialPage]
    obtain ⟨hlo, hhi⟩ := (refusesToFree_iff hpfn).mp (hagrees.refused.mpr hholds)
    -- a page that begins in the image lies in it up to the next page boundary
    have hpa : pfnToPa (a / 4096) = a / 4096 * 4096 := u32_of_lt (by unfold pageSize; omega)
    rw [hpa] at hlo hhi
    refine Set.disjoint_left.mp hclear (show a ∈ Set.Ico a (a + n * 24) from ⟨le_rfl, by omega⟩) ?_
    unfold KernelImage.span
    rw [pageAlign_eq (by have := img.ordered; omega), pageAlign_eq (by omega)]
    exact ⟨by omega, by omega⟩

end Rotary
