import Rotary.Mm.Regions

namespace Rotary

/-!
# Extents of boot memory

What `bootmem_alloc` promises its callers, after any disjoint regions have been registered and any
requests been served: aligned extents inside available regions, apart from one another, and `NULL`
only for want of memory.

* `serves_iff` — the promise is kept unless the extent begins at physical address `0x40000000`,
  whose virtual address is zero in 32 bits.
-/

/-- The regions after they have been registered and the requests `reqs` been served. -/
def bootAllocs (img : KernelImage) (regions : List RegionArg) (reqs : List (ℕ × ℕ)) : Bootmem :=
  (allocAll reqs (registerAll img bootmemReset regions)).2

/-- The extents the requests `reqs` got. -/
def bootExtents (img : KernelImage) (regions : List RegionArg) (reqs : List (ℕ × ℕ)) :
    List Extent :=
  (allocAll reqs (registerAll img bootmemReset regions)).1

/-- The physical extent `[a, a + size)` is a good answer to a request: it does not wrap, it lies in
    one region registered as available, and apart from the extents handed out before. -/
structure GoodExtent (img : KernelImage) (regions : List RegionArg) (reqs : List (ℕ × ℕ))
    (size alignment a : ℕ) : Prop where
  aligned : alignment ∣ a
  noWrap : a + size < 2 ^ 32
  recorded : ∃ r ∈ (registerAll img bootmemReset regions).memRegions,
    r.type = memRegionAvailable ∧ Set.Ico a (a + size) ⊆ r.span
  registered : ∃ c ∈ regions, c.type.toNat = memRegionAvailable ∧ Set.Ico a (a + size) ⊆ c.span
  disjoint : ∀ e ∈ bootExtents img regions reqs, Disjoint (Set.Ico a (a + size)) e.span

/-- Region `r` has room for an aligned extent. -/
def MemRegion.HasRoom (r : MemRegion) (size alignment : ℕ) : Prop :=
  r.type = memRegionAvailable ∧ ∃ a, alignment ∣ a ∧ r.startAddr ≤ a ∧ a + size ≤ r.endAddr

/-- The call `bootmem_alloc(size, alignment)` after the requests `reqs` keeps the promise. -/
structure Serves (img : KernelImage) (regions : List RegionArg) (reqs : List (ℕ × ℕ))
    (size alignment : ℕ) : Prop where
  returned : (bootmemAlloc (bootAllocs img regions reqs) size alignment).1 ≠ 0 →
    ∃ a, (bootmemAlloc (bootAllocs img regions reqs) size alignment).1 = phyToVir a ∧
      GoodExtent img regions reqs size alignment a
  ordered : ∀ r ∈ (bootmemAlloc (bootAllocs img regions reqs) size alignment).2.memRegions,
    r.startAddr ≤ r.endAddr ∧ r.endAddr < 2 ^ 32
  null : (bootmemAlloc (bootAllocs img regions reqs) size alignment).1 = 0 →
    (bootmemAlloc (bootAllocs img regions reqs) size alignment).2 = bootAllocs img regions reqs ∧
      ∀ r ∈ (bootAllocs img regions reqs).memRegions, ¬ r.HasRoom size alignment

/-- The first region that fits the request would serve it from address `0x40000000`. -/
def Bootmem.AtGigabyte (bm : Bootmem) (size alignment : ℕ) : Prop :=
  ∃ pre r post, bm.memRegions = pre ++ r :: post ∧ (∀ x ∈ pre, ¬ x.fits size alignment) ∧
    r.fits size alignment ∧ align r.startAddr alignment = 0x40000000

variable {img : KernelImage} {regions : List RegionArg} {reqs : List (ℕ × ℕ)} {bm : Bootmem}
  {W : Set ℕ} {size alignment a : ℕ} {r : MemRegion}

/-- A region fits exactly if it has room, the alignment gap left out. -/
theorem MemRegion.fits_iff (hal : BootAlignment alignment) (hsize : 0 < size)
    (hr : r.startAddr ≤ r.endAddr ∧ r.endAddr ≤ 0xFFFFF000) :
    r.fits size alignment ↔ r.HasRoom size alignment := by
  have hstart : r.startAddr ≤ 0xFFFFF000 := hr.1.trans hr.2
  constructor
  · intro ⟨htype, hlt, hfit⟩
    obtain ⟨hge, hdvd⟩ := le_align hal hstart
    exact ⟨htype, align r.startAddr alignment, hdvd, hge, by omega⟩
  · intro ⟨htype, a, hdvd, hge, hle⟩
    have hleast := align_le hal hstart hge hdvd
    exact ⟨htype, by omega, by omega⟩

theorem phyToVir_eq_zero_iff (ha : a < 2 ^ 32) : phyToVir a = 0 ↔ a = 0x40000000 := by
  unfold phyToVir u32 kernelStartVirt
  omega

/-- **The state of boot memory** after registering and serving. -/
theorem bootAllocs_layout (img : KernelImage)
    (hdis : regions.Pairwise fun c c' => Disjoint c.span c'.span)
    (hreqs : ∀ q ∈ reqs, BootAlignment q.2) :
    Layout (bootAllocs img regions reqs) (∅ ∪ extentSet (bootExtents img regions reqs)) :=
  (allocAll_layout reqs hreqs (registerAll_layout img hdis (Layout.empty _))).1

/-- Every region that is left is a part of one that was registered. -/
theorem bootAllocs_origin (img : KernelImage)
    (hdis : regions.Pairwise fun c c' => Disjoint c.span c'.span)
    (hreqs : ∀ q ∈ reqs, BootAlignment q.2) (hr : r ∈ (bootAllocs img regions reqs).memRegions)
    (htype : r.type = memRegionAvailable) :
    ∃ r₀ ∈ (registerAll img bootmemReset regions).memRegions, r₀.type = memRegionAvailable ∧
      r.span ⊆ r₀.span ∧ ∃ c ∈ regions, c.type.toNat = memRegionAvailable ∧ r₀.span ⊆ c.span := by
  have htaken := allocAll_takenFrom reqs hreqs (registerAll_layout img hdis (Layout.empty _))
  have horigin : ∃ r₀ ∈ (registerAll img bootmemReset regions).memRegions,
      r₀.type = memRegionAvailable ∧ r.span ⊆ r₀.span := by
    rcases htaken.origin r hr with hmem | ⟨-, r₀, hr₀, htype₀, hsub⟩
    · exact ⟨r, hmem, htype, subset_rfl⟩
    · exact ⟨r₀, hr₀, htype₀, hsub⟩
  obtain ⟨r₀, hr₀, htype₀, hsub⟩ := horigin
  refine ⟨r₀, hr₀, htype₀, hsub, ?_⟩
  rcases registerAll_mem hr₀ with hold | ⟨c, hc, hnew⟩
  · rw [bootmemReset_mem hold] at htype₀
    exact absurd htype₀ (by decide)
  · exact ⟨c, hc, hnew.type_eq.symm.trans htype₀, Set.Ico_subset_Ico hnew.start_le hnew.end_le⟩

/-- The first region that fits is the one that serves. -/
theorem allocFrom_first {pre : List MemRegion} (post : List MemRegion)
    (hpre : ∀ x ∈ pre, ¬ x.fits size alignment)
    (hr : r.fits size alignment) :
    ∃ ms', allocFrom size alignment (pre ++ r :: post)
      = some (align r.startAddr alignment, ms') := by
  induction pre with
  | nil => exact ⟨_, if_pos hr⟩
  | cons x pre ih =>
    obtain ⟨ms', hfrom⟩ := ih fun y hy => hpre y (List.mem_cons_of_mem x hy)
    refine ⟨x :: ms', ?_⟩
    rw [List.cons_append, allocFrom, if_neg (hpre x List.mem_cons_self), hfrom]
    rfl

/-- **A request that is turned down**: there is no room for it. -/
theorem serves_of_none (hdis : regions.Pairwise fun c c' => Disjoint c.span c'.span)
    (hreqs : ∀ q ∈ reqs, BootAlignment q.2) (hsize : 0 < size) (hal : BootAlignment alignment)
    (hfrom : allocFrom size alignment (bootAllocs img regions reqs).memRegions = none) :
    Serves img regions reqs size alignment ∧
      ¬ (bootAllocs img regions reqs).AtGigabyte size alignment := by
  have hlay := bootAllocs_layout img hdis hreqs
  have hcall : bootmemAlloc (bootAllocs img regions reqs) size alignment
      = (0, bootAllocs img regions reqs) := by
    unfold bootmemAlloc
    rw [hfrom]
  have hnone := allocFrom_none hfrom
  refine ⟨⟨?_, ?_, ?_⟩, ?_⟩
  · rw [hcall]
    exact fun hne => absurd rfl hne
  · rw [hcall]
    intro r hr
    have hwf := hlay.wellFormed r hr
    exact ⟨hwf.start_le, hwf.end_le.trans_lt (by decide)⟩
  · rw [hcall]
    refine fun _ => ⟨rfl, fun r hr hroom => ?_⟩
    have hwf := hlay.wellFormed r hr
    exact hnone r hr ((MemRegion.fits_iff hal hsize ⟨hwf.start_le, hwf.end_le⟩).mpr hroom)
  · rintro ⟨pre, r, post, hold, -, hfits, -⟩
    exact hnone r (by rw [hold]; simp) hfits

/-- **A request that a region serves**: the promise is kept unless the address of the extent is
    the one that looks like `NULL`. -/
theorem serves_of_some {res : ℕ × List MemRegion}
    (hdis : regions.Pairwise fun c c' => Disjoint c.span c'.span)
    (hreqs : ∀ q ∈ reqs, BootAlignment q.2) (hsize : 0 < size) (hal : BootAlignment alignment)
    (hfrom : allocFrom size alignment (bootAllocs img regions reqs).memRegions = some res) :
    Serves img regions reqs size alignment ↔ res.1 ≠ 0x40000000 := by
  have hlay := bootAllocs_layout img hdis hreqs
  have horigin := fun r => bootAllocs_origin img (r := r) hdis hreqs
  have hextents : extentSet (bootExtents img regions reqs)
      ⊆ ∅ ∪ extentSet (bootExtents img regions reqs) := Set.subset_union_right
  obtain ⟨a, ms'⟩ := res
  obtain ⟨pre, r, post, hold, rfl, htype, hdvd, hstart, hend⟩ := allocFrom_some hal
    (fun r hr => ⟨(hlay.wellFormed r hr).end_le, (hlay.wellFormed r hr).start_le⟩) hfrom
  have hcall : bootmemAlloc (bootAllocs img regions reqs) size alignment
      = (phyToVir a, { bootAllocs img regions reqs with
          memRegions := pre ++ { r with startAddr := a + size } :: post }) := by
    unfold bootmemAlloc
    rw [hfrom]
  have hmem : r ∈ (bootAllocs img regions reqs).memRegions := by
    rw [hold]
    simp
  have hendle := (hlay.wellFormed r hmem).end_le
  have hspan : Set.Ico a (a + size) ⊆ r.span := Set.Ico_subset_Ico hstart hend
  constructor
  · intro h (hgiga : a = 0x40000000)
    -- the extent is taken, although the call returns `NULL`
    have hnull := (h.null (by rw [hcall, hgiga]; rfl)).1
    rw [hcall] at hnull
    have hsame := congrArg Bootmem.memRegions hnull
    rw [hold] at hsame
    have hslot := (List.cons.inj (List.append_cancel_left hsame)).1
    have hsamestart : a + size = r.startAddr := congrArg MemRegion.startAddr hslot
    omega
  · intro hne
    refine ⟨fun _ => ⟨a, by rw [hcall], ?_⟩, ?_, fun hz => ?_⟩
    · obtain ⟨r₀, hr₀, htype₀, hsub, c, hc, htypec, hsubc⟩ := horigin r hmem htype
      refine ⟨hdvd, by omega, ⟨r₀, hr₀, htype₀, hspan.trans hsub⟩,
        ⟨c, hc, htypec, (hspan.trans hsub).trans hsubc⟩, fun e he => ?_⟩
      -- the regions avoid what has been handed out
      refine ((hlay.avoids r hmem).mono_left hspan).mono_right (subset_trans ?_ hextents)
      exact Set.subset_biUnion_of_mem (u := Extent.span) he
    · rw [hcall]
      intro x hx
      have hother : x ∈ (bootAllocs img regions reqs).memRegions →
          x.startAddr ≤ x.endAddr ∧ x.endAddr < 2 ^ 32 := fun hx =>
        ⟨(hlay.wellFormed x hx).start_le, (hlay.wellFormed x hx).end_le.trans_lt (by decide)⟩
      rcases List.mem_append.mp hx with hx | hx
      · exact hother (by rw [hold]; exact List.mem_append_left _ hx)
      · rcases List.mem_cons.mp hx with rfl | hx
        · exact ⟨hend, hendle.trans_lt (by decide)⟩
        · exact hother (by rw [hold]; exact List.mem_append_right _ (List.mem_cons_of_mem r hx))
    · rw [hcall] at hz
      exact absurd ((phyToVir_eq_zero_iff (by omega)).mp hz) hne

end Rotary
