import Mathlib.Data.Set.Lattice
import Mathlib.Order.CompletePartialOrder
import Mathlib.Order.Interval.Set.Disjoint
import Rotary.Mm.Bootmem

namespace Rotary

/-!
# The regions of boot memory

`Layout bm W` is the invariant of `mem_regions`: the regions are well formed and pairwise
disjoint, none of them meets the addresses `W`, and the slots behind `region_count` have never
been used.  `W` is what is yet to be registered while regions are being added, and what
`bootmem_alloc` has handed out afterwards.

* `addMemRegion_layout` — registering a region that avoids the others;
* `bootmemAlloc_layout` — an allocation moves its extent from the regions into `W`.
-/

/-- The addresses a region still holds. -/
def MemRegion.span (r : MemRegion) : Set ℕ := Set.Ico r.startAddr r.endAddr

/-- A region ends at a page boundary that `highest_pfn` has been raised to. -/
structure MemRegion.WellFormed (r : MemRegion) (highestPfn : ℕ) : Prop where
  start_le : r.startAddr ≤ r.endAddr
  end_aligned : 4096 ∣ r.endAddr
  end_le : r.endAddr ≤ 0xFFFFF000
  below : r.endAddr / 4096 ≤ highestPfn

/-- The invariant of `mem_regions`; see the module header. -/
structure Layout (bm : Bootmem) (W : Set ℕ) : Prop where
  wellFormed : ∀ r ∈ bm.memRegions, r.WellFormed bm.highestPfn
  disjoint : bm.memRegions.Pairwise fun r r' => Disjoint r.span r'.span
  avoids : ∀ r ∈ bm.memRegions, Disjoint r.span W
  unused : ∀ r ∈ bm.memRegions.drop bm.regionCount, r = MemRegion.zero
  highest : bm.highestPfn < 2 ^ 20

variable {bm : Bootmem} {W : Set ℕ} {img : KernelImage} {a b size alignment : ℕ}

/-! ### Rounding to pages -/

theorem pageAlign_le {a : ℕ} (ha : a ≤ 0xFFFFF000) :
    pageAlign a ≤ 0xFFFFF000 ∧ 4096 ∣ pageAlign a ∧ a ≤ pageAlign a := by
  rw [pageAlign_eq (by omega)]
  omega

theorem pageAlignDown_le {a : ℕ} (ha : a < 2 ^ 32) :
    pageAlignDown a ≤ 0xFFFFF000 ∧ 4096 ∣ pageAlignDown a := by
  rw [pageAlignDown_eq ha]
  omega

theorem pageAlign_of_dvd {a : ℕ} (ha : a ≤ 0xFFFFF000) (hd : 4096 ∣ a) : pageAlign a = a := by
  rw [pageAlign_eq (by omega)]
  omega

theorem pageAlignDown_of_dvd {a : ℕ} (ha : a < 2 ^ 32) (hd : 4096 ∣ a) : pageAlignDown a = a := by
  rw [pageAlignDown_eq ha]
  omega

theorem pageAlign_mono {a b : ℕ} (hab : a ≤ b) (hb : b ≤ 0xFFFFF000) : pageAlign a ≤ pageAlign b := by
  rw [pageAlign_eq (by omega), pageAlign_eq (by omega)]
  omega

/-- The address `PAGE_ALIGN` yields lies below the last page boundary, wrapping or not. -/
theorem pageAlign_bound (a : ℕ) : pageAlign a ≤ 0xFFFFF000 ∧ 4096 ∣ pageAlign a := by
  have h : pageAlign a = u32 (a + 4095) / 4096 * 4096 :=
    and_not32_two_pow (k := 12) (by decide) (u32_lt _)
  have hlt := u32_lt (a + 4095)
  rw [h]
  omega

/-! ### Registering -/

theorem Layout.empty (W : Set ℕ) : Layout bootmemReset W := by
  have hzero : ∀ r ∈ bootmemReset.memRegions, r = MemRegion.zero := fun r hr =>
    List.eq_of_mem_replicate hr
  have hspan : MemRegion.zero.span = ∅ := Set.Ico_self 0
  refine ⟨?_, ?_, ?_, fun r hr => hzero r (List.mem_of_mem_drop hr), by decide⟩
  · intro r hr
    rw [hzero r hr]
    exact ⟨le_rfl, by decide, by decide, by decide⟩
  · apply List.pairwise_of_forall_mem_list
    intro r hr r' _
    rw [hzero r hr, hspan]
    exact Set.empty_disjoint _
  · intro r hr
    rw [hzero r hr, hspan]
    exact Set.empty_disjoint _

theorem Layout.mono {W' : Set ℕ} (h : Layout bm W) (hsub : W' ⊆ W) : Layout bm W' :=
  ⟨h.wellFormed, h.disjoint, fun r hr => (h.avoids r hr).mono_right hsub, h.unused, h.highest⟩

/-- A region goes into the first slot whose `start_addr` is zero. -/
theorem fillSlot_some {r : MemRegion} {ms ms' : List MemRegion} (h : fillSlot r ms = some ms') :
    ∃ pre m post, ms = pre ++ m :: post ∧ ms' = pre ++ r :: post ∧ m.startAddr = 0 ∧
      ∀ x ∈ pre, x.startAddr ≠ 0 := by
  induction ms generalizing ms' with
  | nil => cases h
  | cons m ms ih =>
    rw [fillSlot] at h
    split at h
    · rename_i hz
      cases h
      exact ⟨[], m, ms, rfl, rfl, hz, by simp⟩
    · rename_i hne
      obtain ⟨ms₁, hfill, rfl⟩ := Option.map_eq_some_iff.mp h
      obtain ⟨pre, m', post, rfl, rfl, hz, hpre⟩ := ih hfill
      refine ⟨m :: pre, m', post, rfl, rfl, hz, fun x hx => ?_⟩
      rcases List.mem_cons.mp hx with rfl | hx
      · exact hne
      · exact hpre x hx

/-- The slot that is filled lies at or before `region_count`. -/
theorem length_le_of_unused {pre post : List MemRegion} {c : ℕ}
    (hpre : ∀ x ∈ pre, x.startAddr ≠ 0)
    (hunused : ∀ x ∈ (pre ++ post).drop c, x = MemRegion.zero) : pre.length ≤ c := by
  by_contra hlt
  have hc : c < pre.length := Nat.lt_of_not_le hlt
  have hmem : pre[c] ∈ (pre ++ post).drop c := by
    rw [List.drop_append_of_le_length hc.le]
    exact List.mem_append_left _ (List.mem_drop_iff_getElem.mpr ⟨0, by simpa using hc, by simp⟩)
  exact hpre _ (List.getElem_mem hc) (by rw [hunused _ hmem]; rfl)

/-- The slots behind position `c` do not depend on one before it. -/
theorem drop_slot {pre : List MemRegion} {c : ℕ} (r m : MemRegion) (post : List MemRegion)
    (hlen : pre.length < c) : (pre ++ r :: post).drop c = (pre ++ m :: post).drop c := by
  have hc : c - pre.length = c - pre.length - 1 + 1 := by omega
  rw [List.drop_append, List.drop_append, hc, List.drop_succ_cons, List.drop_succ_cons]

/-- A region to allocate from lies in a used slot. -/
theorem slot_lt_of_available {pre post : List MemRegion} {r : MemRegion} {c : ℕ}
    (htype : r.type = memRegionAvailable)
    (hunused : ∀ x ∈ (pre ++ r :: post).drop c, x = MemRegion.zero) : pre.length < c := by
  by_contra hge
  have hmem : r ∈ (pre ++ r :: post).drop c := by
    rw [List.drop_append_of_le_length (Nat.le_of_not_lt hge)]
    simp
  rw [hunused r hmem] at htype
  exact absurd htype (by decide)

/-- **Recording a region** that the others and `W` avoid. -/
theorem recordRegion_layout {type : ℕ} (h : Layout bm (W ∪ Set.Ico a b)) (hab : a ≤ b)
    (hb : b ≤ 0xFFFFF000) (hal : 4096 ∣ b) (hW : Disjoint (Set.Ico a b) W) :
    Layout (recordRegion bm a b type).2 W := by
  have hpfn : paToPfn b = b / 4096 := paToPfn_eq b
  have hhighest : max bm.highestPfn (paToPfn b) < 2 ^ 20 :=
    max_lt h.highest (by rw [hpfn]; omega)
  have hmono : ∀ r ∈ bm.memRegions, r.WellFormed (max bm.highestPfn (paToPfn b)) := fun r hr =>
    ⟨(h.wellFormed r hr).start_le, (h.wellFormed r hr).end_aligned, (h.wellFormed r hr).end_le,
      (h.wellFormed r hr).below.trans (le_max_left _ _)⟩
  have havoid : ∀ r ∈ bm.memRegions, Disjoint r.span W ∧ Disjoint r.span (Set.Ico a b) :=
    fun r hr => Set.disjoint_union_right.mp (h.avoids r hr)
  unfold recordRegion
  dsimp only
  split
  · rename_i rs hfill
    obtain ⟨pre, m, post, hold, rfl, -, hpre⟩ := fillSlot_some hfill
    rw [hold] at hmono havoid
    have hdis := h.disjoint
    have hunused := h.unused
    rw [hold] at hdis hunused
    have hlen := length_le_of_unused hpre hunused
    -- every region after the call is the new one or an old one
    have hmem : ∀ r ∈ pre ++ (⟨a, b, a, type⟩ : MemRegion) :: post,
        r = ⟨a, b, a, type⟩ ∨ r ∈ pre ++ m :: post := by
      intro r hr
      simp only [List.mem_append, List.mem_cons] at hr ⊢
      tauto
    refine ⟨?_, ?_, ?_, ?_, hhighest⟩
    · intro r hr
      rcases hmem r hr with rfl | hr
      · exact ⟨hab, hal, hb, hpfn ▸ le_max_right _ _⟩
      · exact hmono r hr
    · rw [List.pairwise_append, List.pairwise_cons] at hdis ⊢
      obtain ⟨hpp, ⟨-, hpost⟩, hcross⟩ := hdis
      refine ⟨hpp, ⟨fun r hr => ?_, hpost⟩, fun r hr r' hr' => ?_⟩
      · exact (havoid r (by simp [hr])).2.symm
      · rcases List.mem_cons.mp hr' with rfl | hr'
        · exact (havoid r (by simp [hr])).2
        · exact hcross r hr r' (List.mem_cons_of_mem m hr')
    · intro r hr
      rcases hmem r hr with rfl | hr
      · exact hW
      · exact (havoid r hr).1
    · intro r hr
      -- the new region is in front of the slots that stay unused
      rw [drop_slot _ m post (Nat.lt_add_one_of_le hlen), ← List.drop_drop] at hr
      exact hunused r (List.mem_of_mem_drop hr)
  · exact ⟨hmono, h.disjoint, fun r hr => (havoid r hr).1, h.unused, hhighest⟩

/-- **`bootmem_add_mem_region`**: what it records lies inside the region it is given, rounded to
    whole pages. -/
theorem addMemRegion_layout (img : KernelImage) (depth : ℕ) {type : ℕ} (hb : b < 2 ^ 32)
    (h : Layout bm (W ∪ Set.Ico (pageAlign a) (pageAlignDown b)))
    (hW : Disjoint (Set.Ico (pageAlign a) (pageAlignDown b)) W) :
    Layout (addMemRegion img depth bm a b type).2 W := by
  induction depth generalizing bm W a b with
  | zero => exact h.mono Set.subset_union_left
  | succ depth ih =>
    have hbase : Layout bm W := h.mono Set.subset_union_left
    obtain ⟨hale, had⟩ := pageAlign_bound a
    obtain ⟨hble, hbd⟩ := pageAlignDown_le hb
    obtain ⟨hksle, hksd, -⟩ := pageAlign_le (img.ordered.trans img.fits)
    obtain ⟨hkele, hked, -⟩ := pageAlign_le img.fits
    have hkk : pageAlign img.physStart ≤ pageAlign img.physEnd := pageAlign_mono img.ordered img.fits
    rw [addMemRegion]
    -- only the rounded bounds matter from here on
    generalize pageAlign a = s at *
    generalize pageAlignDown b = e at *
    generalize pageAlign img.physStart = ks at *
    generalize pageAlign img.physEnd = ke at *
    dsimp only
    split_ifs with h1 h2 h3 h4 h5 h6 h7 h8
    · exact hbase
    · exact hbase
    · exact hbase
    · exact hbase
    · exact hbase
    · -- the image is inside the region: the part before it, then the part behind it
      have hfst : Set.Ico (pageAlign s) (pageAlignDown ks) = Set.Ico s ks := by
        rw [pageAlign_of_dvd (by omega) had, pageAlignDown_of_dvd (by omega) hksd]
      have hsnd : Set.Ico (pageAlign ke) (pageAlignDown e) = Set.Ico ke e := by
        rw [pageAlign_of_dvd hkele hked, pageAlignDown_of_dvd (by omega) hbd]
      have hfsub : Set.Ico s ks ⊆ Set.Ico s e := Set.Ico_subset_Ico_right (by omega)
      have hssub : Set.Ico ke e ⊆ Set.Ico s e := Set.Ico_subset_Ico_left (by omega)
      have hapart : Disjoint (Set.Ico s ks) (Set.Ico ke e) := by
        rw [Set.Ico_disjoint_Ico]
        omega
      refine ih (by omega) ?_ (hsnd ▸ hW.mono_left hssub)
      rw [hsnd]
      refine ih (by omega) ?_ ?_
      · rw [hfst]
        exact h.mono (Set.union_subset (Set.union_subset_union_right W hssub)
          (hfsub.trans Set.subset_union_right))
      · rw [hfst]
        exact Set.disjoint_union_right.mpr ⟨hW.mono_left hfsub, hapart⟩
    · have hsub : Set.Ico s ks ⊆ Set.Ico s e := Set.Ico_subset_Ico_right (by omega)
      exact recordRegion_layout (h.mono (Set.union_subset_union_right W hsub)) (by omega) hksle hksd
        (hW.mono_left hsub)
    · have hsub : Set.Ico ke e ⊆ Set.Ico s e := Set.Ico_subset_Ico_left (by omega)
      exact recordRegion_layout (h.mono (Set.union_subset_union_right W hsub)) (by omega) hble hbd
        (hW.mono_left hsub)
    · exact recordRegion_layout h (by omega) hble hbd hW

/-! ### Allocating -/

/-- The alignments boot memory serves: powers of two up to the page size. -/
def BootAlignment (alignment : ℕ) : Prop := ∃ k ≤ 12, alignment = 2 ^ k

theorem bootAlignment_noAlign : BootAlignment bmNoAlign := ⟨0, by decide, rfl⟩

theorem bootAlignment_page : BootAlignment pageSize := ⟨12, by decide, rfl⟩

/-- `ALIGN`, when the carry stays inside the word. -/
theorem align_eq (hal : BootAlignment alignment) {a : ℕ} (ha : a ≤ 0xFFFFF000) :
    align a alignment = (a + (alignment - 1)) / alignment * alignment ∧ 0 < alignment := by
  obtain ⟨k, hk, rfl⟩ := hal
  have hle : 2 ^ k ≤ 2 ^ 12 := Nat.pow_le_pow_right (by decide) hk
  have hpos : 0 < 2 ^ k := Nat.two_pow_pos k
  refine ⟨?_, hpos⟩
  rw [align, dec32_of_pos hpos (by omega), u32_of_lt (by omega)]
  exact and_not32_two_pow (by omega) (by omega)

theorem le_align (hal : BootAlignment alignment) {a : ℕ} (ha : a ≤ 0xFFFFF000) :
    a ≤ align a alignment ∧ alignment ∣ align a alignment := by
  obtain ⟨heq, hpos⟩ := align_eq hal ha
  rw [heq]
  refine ⟨?_, Nat.dvd_mul_left _ _⟩
  have hdiv := Nat.div_add_mod (a + (alignment - 1)) alignment
  have hmod := Nat.mod_lt (a + (alignment - 1)) hpos
  rw [Nat.mul_comm] at hdiv
  omega

/-- `ALIGN` yields the least aligned address. -/
theorem align_le (hal : BootAlignment alignment) {a b : ℕ} (ha : a ≤ 0xFFFFF000) (hab : a ≤ b)
    (hb : alignment ∣ b) : align a alignment ≤ b := by
  obtain ⟨heq, hpos⟩ := align_eq hal ha
  obtain ⟨c, rfl⟩ := hb
  rw [heq, Nat.mul_comm]
  apply Nat.mul_le_mul_left alignment
  rw [Nat.div_le_iff_le_mul_add_pred hpos]
  exact Nat.add_le_add_right hab _

/-- The first region that fits serves the request. -/
theorem allocFrom_slot {ms ms' : List MemRegion} (h : allocFrom size alignment ms = some (a, ms')) :
    ∃ pre r post, ms = pre ++ r :: post ∧
      ms' = pre ++ { r with startAddr := u32 (a + size) } :: post ∧
      (∀ x ∈ pre, ¬ x.fits size alignment) ∧ r.fits size alignment ∧
      a = align r.startAddr alignment := by
  induction ms generalizing ms' with
  | nil => cases h
  | cons r ms ih =>
    rw [allocFrom] at h
    split at h
    · rename_i hfits
      obtain ⟨rfl, rfl⟩ := Prod.mk.inj (Option.some.inj h)
      exact ⟨[], r, ms, rfl, rfl, by simp, hfits, rfl⟩
    · rename_i hnot
      obtain ⟨⟨a', ms₁⟩, hfrom, heq⟩ := Option.map_eq_some_iff.mp h
      obtain ⟨rfl, rfl⟩ := Prod.mk.inj heq
      obtain ⟨pre, r', post, rfl, rfl, hpre, hrest⟩ := ih hfrom
      refine ⟨r :: pre, r', post, rfl, rfl, fun x hx => ?_, hrest⟩
      rcases List.mem_cons.mp hx with rfl | hx
      · exact hnot
      · exact hpre x hx

/-- A request is turned down if no region fits. -/
theorem allocFrom_none {ms : List MemRegion} (h : allocFrom size alignment ms = none) :
    ∀ r ∈ ms, ¬ r.fits size alignment := by
  induction ms with
  | nil => simp
  | cons r ms ih =>
    rw [allocFrom] at h
    split at h
    · cases h
    · rename_i hnot
      intro x hx
      rcases List.mem_cons.mp hx with rfl | hx
      · exact hnot
      · exact ih (Option.map_eq_none_iff.mp h) x hx

/-- The extent is cut off the front of one region. -/
theorem allocFrom_some {ms ms' : List MemRegion} (hal : BootAlignment alignment)
    (hms : ∀ r ∈ ms, r.endAddr ≤ 0xFFFFF000 ∧ r.startAddr ≤ r.endAddr)
    (h : allocFrom size alignment ms = some (a, ms')) :
    ∃ pre r post, ms = pre ++ r :: post ∧
      ms' = pre ++ { r with startAddr := a + size } :: post ∧
      r.type = memRegionAvailable ∧ alignment ∣ a ∧ r.startAddr ≤ a ∧ a + size ≤ r.endAddr := by
  obtain ⟨pre, r, post, rfl, rfl, -, ⟨htype, hlt, hsize⟩, rfl⟩ := allocFrom_slot h
  obtain ⟨hend, hle⟩ := hms r (by simp)
  obtain ⟨hge, hdvd⟩ := le_align hal (hle.trans hend)
  refine ⟨pre, r, post, rfl, ?_, htype, hdvd, hge, by omega⟩
  rw [u32_of_lt (by omega)]

/-- **`bootmem_alloc`.**  It returns `NULL` and changes nothing, or the extent it returns lies
    in a region and in none afterwards. -/
theorem bootmemAlloc_layout (size : ℕ) (hal : BootAlignment alignment)
    (h : Layout bm W) :
    ((bootmemAlloc bm size alignment).1 = 0 ∧ (bootmemAlloc bm size alignment).2 = bm) ∨
    ∃ a, (bootmemAlloc bm size alignment).1 = phyToVir a ∧ a + size ≤ 0xFFFFF000 ∧
      a + size ≤ 4096 * bm.highestPfn ∧ alignment ∣ a ∧ Disjoint (Set.Ico a (a + size)) W ∧
      Layout (bootmemAlloc bm size alignment).2 (W ∪ Set.Ico a (a + size)) ∧
      (bootmemAlloc bm size alignment).2.highestPfn = bm.highestPfn := by
  cases hfrom : allocFrom size alignment bm.memRegions with
  | none =>
    left
    simp [bootmemAlloc, hfrom]
  | some res =>
    right
    obtain ⟨a, ms'⟩ := res
    have heq : bootmemAlloc bm size alignment = (phyToVir a, { bm with memRegions := ms' }) := by
      simp [bootmemAlloc, hfrom]
    -- the region that serves the call; it is left with what lies behind the extent
    obtain ⟨pre, r, post, hold, rfl, htype, hdvd, hstart, hend⟩ := allocFrom_some hal
      (fun r hr => ⟨(h.wellFormed r hr).end_le, (h.wellFormed r hr).start_le⟩) hfrom
    obtain ⟨hwf, hdis, havoid, hunused, hhighest⟩ := h
    rw [hold] at hwf hdis havoid hunused
    have hr := hwf r (by simp)
    have hbelow : a + size ≤ 4096 * bm.highestPfn := by
      have h1 := hr.below
      obtain ⟨c, hc⟩ := hr.end_aligned
      omega
    have hsub : ({ r with startAddr := a + size } : MemRegion).span ⊆ r.span :=
      Set.Ico_subset_Ico_left (hstart.trans (Nat.le_add_right a size))
    have hext : Set.Ico a (a + size) ⊆ r.span := Set.Ico_subset_Ico hstart hend
    rw [heq]
    refine ⟨a, rfl, hend.trans hr.end_le, hbelow, hdvd, (havoid r (by simp)).mono_left hext,
      ⟨?_, ?_, ?_, ?_, hhighest⟩, rfl⟩
    · intro x hx
      simp only [List.mem_append, List.mem_cons] at hx
      rcases hx with hx | rfl | hx
      · exact hwf x (by simp [hx])
      · exact ⟨hend, hr.end_aligned, hr.end_le, hr.below⟩
      · exact hwf x (by simp [hx])
    · rw [List.pairwise_append, List.pairwise_cons] at hdis ⊢
      obtain ⟨hpp, ⟨hrp, hpost⟩, hcross⟩ := hdis
      refine ⟨hpp, ⟨fun x hx => (hrp x hx).mono_left hsub, hpost⟩, fun x hx y hy => ?_⟩
      rcases List.mem_cons.mp hy with rfl | hy
      · exact (hcross x hx r List.mem_cons_self).mono_right hsub
      · exact hcross x hx y (List.mem_cons_of_mem r hy)
    · rw [List.pairwise_append, List.pairwise_cons] at hdis
      obtain ⟨-, ⟨hrp, -⟩, hcross⟩ := hdis
      intro x hx
      rw [Set.disjoint_union_right]
      simp only [List.mem_append, List.mem_cons] at hx
      rcases hx with hx | rfl | hx
      · exact ⟨havoid x (by simp [hx]), (hcross x hx r List.mem_cons_self).mono_right hext⟩
      · refine ⟨(havoid r (by simp)).mono_left hsub, ?_⟩
        -- what lies before the extent is lost for alignment
        show Disjoint (Set.Ico (a + size) r.endAddr) (Set.Ico a (a + size))
        rw [Set.Ico_disjoint_Ico]
        omega
      · exact ⟨havoid x (by simp [hx]), (hrp x hx).symm.mono_right hext⟩
    · -- an unused slot holds nothing to allocate from, so the region stands before them
      have hlen := slot_lt_of_available htype hunused
      intro x hx
      rw [drop_slot _ r post hlen] at hx
      exact hunused x hx

end Rotary
