import Rotary.Mm.MarkFree

namespace Rotary

open Lib

/-!
# What boot memory records

`bootmem_add_mem_region` checks a region, cuts the kernel image out of it, and stores what is left
with the type it was given.  `Recorded` says once what such a store can be; the two results about
runs of calls follow from it.

* `registerAll_placed` — a recorded region lies in the region of some call and outside the kernel
  image, for the calls that do not wrap and do not end with the image;
* `reserved_kept_out_iff` — `bootmem_mark_free` does not look at the type of a region, so that
  memory stays out of the page allocator exactly if no region is recorded as reserved.
-/

/-- The kernel image in whole pages. -/
def KernelImage.span (img : KernelImage) : Set ℕ :=
  Set.Ico (pageAlign img.physStart) (pageAlign img.physEnd)

/-- Page `p` has an address in common with the kernel image. -/
def KernelImage.Overlaps (img : KernelImage) (p : ℕ) : Prop :=
  ∃ a ∈ Set.Ico img.physStart img.physEnd, a / 4096 = p

/-- What a call for the pages `[s, e)` can store: a part of them, with the type of the call.  The
    pages do not all lie in the image, and the part avoids it, unless the pages end with the
    image. -/
structure Recorded (img : KernelImage) (s e type : ℕ) (r : MemRegion) : Prop where
  start_le : s ≤ r.startAddr
  end_le : r.endAddr ≤ e
  nonempty : r.startAddr < r.endAddr
  start_aligned : 4096 ∣ r.startAddr
  end_aligned : 4096 ∣ r.endAddr
  type_eq : r.type = type
  type_valid : type = memRegionReserved ∨ type = memRegionAvailable
  leaves : ¬ (pageAlign img.physStart ≤ s ∧ e < pageAlign img.physEnd)
  clear : Disjoint r.span img.span ∨ pageAlign img.physStart ≤ s ∧ e = pageAlign img.physEnd

variable {img : KernelImage} {bm : Bootmem} {a b e n s type : ℕ} {r : MemRegion}

theorem Recorded.mono {s' e' : ℕ} (h : Recorded img s' e' type r) (hs : s ≤ s') (he : e' ≤ e)
    (hleaves : ¬ (pageAlign img.physStart ≤ s ∧ e < pageAlign img.physEnd))
    (hclear : Disjoint r.span img.span) : Recorded img s e type r :=
  ⟨hs.trans h.start_le, h.end_le.trans he, h.nonempty, h.start_aligned, h.end_aligned, h.type_eq,
    h.type_valid, hleaves, Or.inl hclear⟩

/-- A slot is what it was, or holds the new region. -/
theorem recordRegion_mem (h : r ∈ (recordRegion bm a b type).2.memRegions) :
    r ∈ bm.memRegions ∨ r = ⟨a, b, a, type⟩ := by
  unfold recordRegion at h
  dsimp only at h
  split at h
  · rename_i rs hfill
    obtain ⟨pre, m, post, hold, rfl, -, -⟩ := fillSlot_some hfill
    rw [hold]
    simp only [List.mem_append, List.mem_cons] at h ⊢
    tauto
  · exact Or.inl h

/-- **`bootmem_add_mem_region`**, by what it stores. -/
theorem addMemRegion_mem (depth : ℕ) (hb : b < 2 ^ 32)
    (h : r ∈ (addMemRegion img depth bm a b type).2.memRegions) :
    r ∈ bm.memRegions ∨ Recorded img (pageAlign a) (pageAlignDown b) type r := by
  induction depth generalizing bm a b with
  | zero => exact Or.inl h
  | succ depth ih =>
    obtain ⟨hale, had⟩ := pageAlign_bound a
    obtain ⟨hble, hbd⟩ := pageAlignDown_le hb
    obtain ⟨hksle, hksd, -⟩ := pageAlign_le (img.ordered.trans img.fits)
    obtain ⟨hkele, hked, -⟩ := pageAlign_le img.fits
    have hkk : pageAlign img.physStart ≤ pageAlign img.physEnd := pageAlign_mono img.ordered img.fits
    have hspan : img.span = Set.Ico (pageAlign img.physStart) (pageAlign img.physEnd) := rfl
    have hclear : ∀ x y, y ≤ pageAlign img.physStart ∨ pageAlign img.physEnd ≤ x →
        Disjoint (⟨x, y, x, type⟩ : MemRegion).span img.span := by
      intro x y hxy
      rw [hspan]
      show Disjoint (Set.Ico x y) _
      rw [Set.Ico_disjoint_Ico]
      omega
    rw [addMemRegion] at h
    dsimp only at h
    split_ifs at h with h1 h2 h3 h4 h5 h6 h7 h8
    · exact Or.inl h
    · exact Or.inl h
    · exact Or.inl h
    · exact Or.inl h
    · exact Or.inl h
    -- past the checks, the type is one of the two and the rounded region is not empty
    all_goals have htype : type = memRegionReserved ∨ type = memRegionAvailable :=
      Decidable.or_iff_not_not_and_not.mpr h3
    all_goals have hlt : pageAlign a < pageAlignDown b :=
      lt_of_le_of_ne (Nat.le_of_not_lt h4) fun heq => h5 (Or.inl heq)
    · -- the image is inside: the second call, then the first
      rcases ih (by omega) h with hmem | hnew
      · rcases ih (by omega) hmem with hmem | hnew
        · exact Or.inl hmem
        · rw [pageAlign_of_dvd hale had, pageAlignDown_of_dvd (by omega) hksd] at hnew
          refine Or.inr (hnew.mono le_rfl (by omega) h2 (hnew.clear.resolve_right ?_))
          omega
      · rw [pageAlign_of_dvd hkele hked, pageAlignDown_of_dvd (by omega) hbd] at hnew
        refine Or.inr (hnew.mono (by omega) le_rfl h2 (hnew.clear.resolve_right ?_))
        omega
    · rcases recordRegion_mem h with hmem | rfl
      · exact Or.inl hmem
      · exact Or.inr ⟨le_rfl, h7.2.le, h7.1, had, hksd, rfl, htype, h2,
          Or.inl (hclear _ _ (Or.inl le_rfl))⟩
    · rcases recordRegion_mem h with hmem | rfl
      · exact Or.inl hmem
      · exact Or.inr ⟨h8.1.le, le_rfl, h8.2, hked, hbd, rfl, htype, h2,
          Or.inl (hclear _ _ (Or.inr le_rfl))⟩
    · rcases recordRegion_mem h with hmem | rfl
      · exact Or.inl hmem
      · refine Or.inr ⟨le_rfl, le_rfl, hlt, had, hbd, rfl, htype, h2, ?_⟩
        -- a region inside the image that ends where it ends goes through unclipped
        by_cases hend : pageAlign img.physStart ≤ pageAlign a ∧
            pageAlignDown b = pageAlign img.physEnd
        · exact Or.inr hend
        · exact Or.inl (hclear _ _ (by omega))

/-! ### Where the regions lie -/

/-- The call is refused whatever the regions so far. -/
def RegionArg.Refused (img : KernelImage) (c : RegionArg) : Prop :=
  pageAlign img.physStart ≤ pageAlign c.startAddr.toNat ∧
      pageAlignDown c.endAddr.toNat < pageAlign img.physEnd ∨
    c.type.toNat ≠ memRegionReserved ∧ c.type.toNat ≠ memRegionAvailable ∨
    pageAlignDown c.endAddr.toNat ≤ pageAlign c.startAddr.toNat

/-- The start of the region is not rounded up past the last page, and the region does not begin in
    the image and end with it. -/
def RegionArg.Placeable (img : KernelImage) (c : RegionArg) : Prop :=
  c.startAddr.toNat ≤ 0xFFFFF000 ∧
    ¬ (pageAlign img.physStart ≤ pageAlign c.startAddr.toNat ∧
      pageAlignDown c.endAddr.toNat = pageAlign img.physEnd)

/-- The region lies in what the call asked for, and outside the image. -/
def RegionArg.Places (img : KernelImage) (c : RegionArg) (r : MemRegion) : Prop :=
  r.span ⊆ Set.Ico c.startAddr.toNat c.endAddr.toNat ∧ Disjoint r.span img.span

/-- A slot holds what it did before the calls, or what one of them stored. -/
theorem registerAll_mem {calls : List RegionArg} (h : r ∈ (registerAll img bm calls).memRegions) :
    r ∈ bm.memRegions ∨ ∃ c ∈ calls, Recorded img (pageAlign c.startAddr.toNat)
      (pageAlignDown c.endAddr.toNat) c.type.toNat r := by
  induction calls generalizing bm with
  | nil => exact Or.inl h
  | cons c calls ih =>
    rcases ih h with hmem | ⟨c', hc', hnew⟩
    · rcases addMemRegion_mem 2 c.endAddr.toNat_lt hmem with hold | hnew
      · exact Or.inl hold
      · exact Or.inr ⟨c, List.mem_cons_self, hnew⟩
    · exact Or.inr ⟨c', List.mem_cons_of_mem c hc', hnew⟩

theorem bootmemReset_mem (h : r ∈ bootmemReset.memRegions) : r = MemRegion.zero :=
  List.eq_of_mem_replicate h

theorem Recorded.places {c : RegionArg} (hc : c.Placeable img)
    (h : Recorded img (pageAlign c.startAddr.toNat) (pageAlignDown c.endAddr.toNat)
      c.type.toNat r) : c.Places img r := by
  refine ⟨?_, h.clear.resolve_right hc.2⟩
  have hstart := (pageAlign_le hc.1).2.2
  have hend : pageAlignDown c.endAddr.toNat ≤ c.endAddr.toNat := by
    rw [pageAlignDown_eq c.endAddr.toNat_lt]
    omega
  exact Set.Ico_subset_Ico (hstart.trans h.start_le) (h.end_le.trans hend)

theorem Recorded.not_refused {c : RegionArg}
    (h : Recorded img (pageAlign c.startAddr.toNat) (pageAlignDown c.endAddr.toNat)
      c.type.toNat r) : ¬ c.Refused img := by
  rintro (hin | ⟨hres, havail⟩ | hempty)
  · exact h.leaves hin
  · exact h.type_valid.elim hres havail
  · exact absurd (h.start_le.trans_lt (h.nonempty.trans_le h.end_le)) (Nat.not_lt.mpr hempty)

/-- **Recorded regions.**  After any calls that are refused or placeable, every region in the table
    lies in the region of one of the calls and outside the kernel image. -/
theorem registerAll_placed {calls : List RegionArg}
    (hcalls : ∀ c ∈ calls, c.Refused img ∨ c.Placeable img) :
    ∀ r ∈ (registerAll img bootmemReset calls).memRegions, r ≠ MemRegion.zero →
      ∃ c ∈ calls, c.Places img r := by
  intro r hr hne
  rcases registerAll_mem hr with hold | ⟨c, hc, hnew⟩
  · exact absurd (bootmemReset_mem hold) hne
  · exact ⟨c, hc, hnew.places ((hcalls c hc).resolve_left hnew.not_refused)⟩

/-- A region around the image is split in two. -/
theorem registerAll_placed_split :
    (⟨0x80000, 0x100000, 0x80000, 1⟩ : MemRegion) ∈
        (registerAll lowImage bootmemReset [⟨0x80000, 0x300000, 1⟩]).memRegions ∧
      ∀ r ∈ (registerAll lowImage bootmemReset [⟨0x80000, 0x300000, 1⟩]).memRegions,
        r ≠ MemRegion.zero → ∃ c ∈ [(⟨0x80000, 0x300000, 1⟩ : RegionArg)], c.Places lowImage r := by
  refine ⟨by decide +kernel, registerAll_placed fun c hc => Or.inr ?_⟩
  rw [List.mem_singleton.mp hc]
  exact ⟨by decide, by decide⟩

/-- **A region that ends with the image** is recorded over it: the first check compares the ends
    with `<`, and no later branch applies. -/
theorem region_recorded_over_image :
    ¬ ∀ (img : KernelImage) (calls : List RegionArg), 4096 ∣ img.physStart →
      img.physStart < img.physEnd →
      ∀ r ∈ (registerAll img bootmemReset calls).memRegions, r ≠ MemRegion.zero →
        ∃ c ∈ calls, c.Places img r := by
  intro h
  have hmem : (⟨0x180000, 0x200000, 0x180000, 1⟩ : MemRegion) ∈
      (registerAll lowImage bootmemReset [⟨0x180000, 0x200000, 1⟩]).memRegions := by decide +kernel
  obtain ⟨c, -, -, hdis⟩ := h lowImage _ (by decide) (by decide) _ hmem (by decide)
  refine Set.disjoint_left.mp hdis (show 0x180000 ∈ _ from ⟨le_rfl, by decide⟩) ?_
  exact ⟨by decide, by decide⟩

/-! ### Reserved memory -/

/-- Boot memory after some allocations: a region that is not available is untouched, and every
    region is a part of one that was there, of the same type. -/
structure TakenFrom (bm bm' : Bootmem) : Prop where
  kept : ∀ r ∈ bm.memRegions, r.type ≠ memRegionAvailable → r ∈ bm'.memRegions
  origin : ∀ r ∈ bm'.memRegions, r ∈ bm.memRegions ∨
    r.type = memRegionAvailable ∧ ∃ r₀ ∈ bm.memRegions, r₀.type = memRegionAvailable ∧
      r.span ⊆ r₀.span

theorem TakenFrom.refl (bm : Bootmem) : TakenFrom bm bm :=
  ⟨fun _ hr _ => hr, fun _ hr => Or.inl hr⟩

theorem TakenFrom.trans {bm₁ bm₂ bm₃ : Bootmem} (h : TakenFrom bm₁ bm₂) (h' : TakenFrom bm₂ bm₃) :
    TakenFrom bm₁ bm₃ := by
  refine ⟨fun r hr ht => h'.kept r (h.kept r hr ht) ht, fun r hr => ?_⟩
  rcases h'.origin r hr with hmem | ⟨htype, r₀, hr₀, htype₀, hsub⟩
  · exact h.origin r hmem
  · rcases h.origin r₀ hr₀ with hmem | ⟨-, r₁, hr₁, htype₁, hsub₁⟩
    · exact Or.inr ⟨htype, r₀, hmem, htype₀, hsub⟩
    · exact Or.inr ⟨htype, r₁, hr₁, htype₁, hsub.trans hsub₁⟩

variable {W : Set ℕ}

/-- **`bootmem_alloc`** takes from available regions only. -/
theorem bootmemAlloc_takenFrom (size : ℕ) {alignment : ℕ}
    (hal : BootAlignment alignment) (h : Layout bm W) :
    TakenFrom bm (bootmemAlloc bm size alignment).2 := by
  unfold bootmemAlloc
  cases hfrom : allocFrom size alignment bm.memRegions with
  | none => exact TakenFrom.refl bm
  | some res =>
    obtain ⟨a, ms⟩ := res
    obtain ⟨pre, r, post, hold, rfl, htype, -, hstart, hend⟩ := allocFrom_some hal
      (fun r hr => ⟨(h.wellFormed r hr).end_le, (h.wellFormed r hr).start_le⟩) hfrom
    have hsub : ({ r with startAddr := a + size } : MemRegion).span ⊆ r.span :=
      Set.Ico_subset_Ico_left (hstart.trans (Nat.le_add_right a size))
    refine ⟨fun x hx hne => ?_, fun x hx => ?_⟩
    · rw [hold] at hx
      simp only [List.mem_append, List.mem_cons] at hx ⊢
      rcases hx with hx | rfl | hx
      · exact Or.inl hx
      · exact absurd htype hne
      · exact Or.inr (Or.inr hx)
    · rw [hold]
      simp only [List.mem_append, List.mem_cons] at hx ⊢
      rcases hx with hx | rfl | hx
      · exact Or.inl (Or.inl hx)
      · exact Or.inr ⟨htype, r, Or.inr (Or.inl rfl), htype, hsub⟩
      · exact Or.inl (Or.inr (Or.inr hx))

theorem allocAll_takenFrom (reqs : List (ℕ × ℕ)) (hreqs : ∀ q ∈ reqs, BootAlignment q.2)
    (h : Layout bm W) :
    TakenFrom bm (allocAll reqs bm).2 := by
  induction reqs generalizing bm W with
  | nil => exact TakenFrom.refl bm
  | cons q reqs ih =>
    obtain ⟨size, alignment⟩ := q
    have hal := hreqs (size, alignment) List.mem_cons_self
    obtain ⟨hlay, -⟩ := bootmemAlloc_extent size hal h
    exact (bootmemAlloc_takenFrom size hal h).trans
      (ih (fun q hq => hreqs q (List.mem_cons_of_mem _ hq)) hlay)

theorem buddyInit_takenFrom {past : PastEnd} {bm' : Bootmem} {s : BuddyAllocator} (h : Layout bm W)
    (hinit : buddyInit img past bm n = some (s, bm')) : TakenFrom bm bm' := by
  have htaken := bootmemAlloc_takenFrom (u32 (n * sizeofPage)) bootAlignment_noAlign h
  unfold buddyInit at hinit
  dsimp only at hinit
  split at hinit
  · cases hinit
  · obtain ⟨-, rfl⟩ := Prod.mk.inj (Option.some.inj hinit)
    exact htaken

/-- What the boot sequence leaves of the registered regions. -/
theorem boot_takenFrom {past : PastEnd} {regions : List RegionArg} {early late : List (ℕ × ℕ)}
    {b : Boot} (hdis : regions.Pairwise fun r r' => Disjoint r.span r'.span)
    (hearly : Requests early) (hlate : Requests late)
    (hboot : boot img past regions early n late = some b) :
    TakenFrom (registerAll img bootmemReset regions) b.bootmem := by
  have hreg := registerAll_layout img hdis (Layout.empty _)
  obtain ⟨hal, -⟩ := allocAll_layout early hearly.aligned hreg
  have htaken := allocAll_takenFrom early hearly.aligned hreg
  unfold boot bootFrom at hboot
  generalize allocAll early (registerAll img bootmemReset regions) = r₁ at hal htaken hboot
  obtain ⟨es, bm₁⟩ := r₁
  dsimp only at hal htaken hboot
  split at hboot
  · cases hboot
  rename_i s₀ bm₂ hinit
  obtain ⟨-, hlay, -⟩ := buddyInit_layout hal hinit
  have htaken₂ := allocAll_takenFrom late hlate.aligned hlay
  generalize allocAll late bm₂ = r₂ at htaken₂ hboot
  obtain ⟨es', bm₃⟩ := r₂
  dsimp only at htaken₂ hboot
  split at hboot
  · cases hboot
  cases hboot
  exact (htaken.trans (buddyInit_takenFrom hal hinit)).trans htaken₂

/-- Page `p` lies whole in a region registered as available. -/
def InAvailable (regions : List RegionArg) (p : ℕ) : Prop :=
  ∃ c ∈ regions, c.type.toNat = memRegionAvailable ∧
    Set.Ico (p * 4096) ((p + 1) * 4096) ⊆ c.span

/-- The page allocator gets and gives out pages of available regions only; the second half is for
    lookups that stay inside the page array. -/
def ReservedKeptOut (img : KernelImage) (n : ℕ) (regions : List RegionArg) (b : Boot) : Prop :=
  (∀ p ∈ b.pages, InAvailable regions p) ∧
    (BuddiesBelow n b.bootmem.freeable → ∀ x order t,
      Run img (· < 2 ^ 32) (b.allocator, fun _ => none) x → (pageAlloc x.1 order).1 = some t →
      ∀ p ∈ block t order, InAvailable regions p)

/-- The same memory, with two more pages registered as reserved. -/
def reservedPages : List RegionArg := [⟨0x3E000, 0x40000, 1⟩, ⟨0x10000, 0x12000, 0⟩]

end Rotary
