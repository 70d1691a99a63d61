import Rotary.Lib.ByteMem
import Rotary.Mm.RegionTable

namespace Rotary

open Lib

/-!
# The Multiboot memory map (`arch/x86/kernel/multiboot.c`)

`multiboot_parse` walks the memory map the boot loader left, and registers the available entries
that contain `KERNEL_PHYS_END` as boot memory.  The entries carry 64-bit addresses, which are
compared as they are and then narrowed to the 32-bit arguments of `bootmem_add_mem_region`.

* `multibootParse_eq` — the walk ends, and has registered the selected entries in order;
* `translated_iff` — for which maps the registered regions cover exactly the pages they should.

The loops that only print (boot modules, the text of the addresses) are left out.
-/

/-- `struct multiboot_mmap_entry`. -/
structure MmapEntry where
  size : ℕ
  addr : ℕ
  len : ℕ
  type : ℕ
  deriving DecidableEq, Repr

def multibootBootloaderMagic : ℕ := 0x2BADB002
def multibootInfoMemMap : ℕ := 0x40
def multibootMemoryAvailable : ℕ := 1

/-- The packed entry at address `a`. -/
def mmapEntry (m : ByteMem) (a : ℕ) : MmapEntry :=
  ⟨load m a, load m (a + 4) + 2 ^ 32 * load m (a + 8), load m (a + 12) + 2 ^ 32 * load m (a + 16),
    load m (a + 20)⟩

/-- `mmap->addr + mmap->len`, in 64 bits. -/
def MmapEntry.endAddr (e : MmapEntry) : ℕ := (e.addr + e.len) % 2 ^ 64

/-- The test for an entry that `multiboot_parse` registers. -/
def MmapEntry.Selected (img : KernelImage) (e : MmapEntry) : Prop :=
  e.addr ≤ img.physEnd ∧ img.physEnd ≤ e.endAddr ∧ e.type = multibootMemoryAvailable

instance (img : KernelImage) (e : MmapEntry) : Decidable (e.Selected img) :=
  inferInstanceAs (Decidable (_ ∧ _ ∧ _))

def MmapEntry.regionType (e : MmapEntry) : ℕ :=
  if e.type = multibootMemoryAvailable then memRegionAvailable else memRegionReserved

/-- The body of the map loop. -/
def registerEntry (img : KernelImage) (bm : Bootmem) (e : MmapEntry) : Bootmem :=
  if e.Selected img then
    (bootmemAddMemRegion img bm (u32 e.addr) (u32 e.endAddr) e.regionType).2
  else bm

/-- The map loop, up to address `stop`; `none` if it takes more than `fuel` turns. -/
def mmapWalk (img : KernelImage) (m : ByteMem) (stop : ℕ) : ℕ → ℕ → Bootmem → Option Bootmem
  | 0, _, _ => none
  | fuel + 1, mmap, bm =>
    if mmap < stop then
      -- the entry says how far the next one is
      mmapWalk img m stop fuel (u32 (mmap + (mmapEntry m mmap).size + 4))
        (registerEntry img bm (mmapEntry m mmap))
    else some bm

/-- `multiboot_parse`: its result and boot memory afterwards. -/
def multibootParse (img : KernelImage) (m : ByteMem) (fuel magic info : ℕ) (bm : Bootmem) :
    Option (ℕ × Bootmem) :=
  if magic ≠ multibootBootloaderMagic then some (0, bm)
  else if load m info &&& multibootInfoMemMap = 0 then some (1, bm)
  else
    let mmapLength := load m (info + 44)
    let mmapAddr := load m (info + 48)
    (mmapWalk img m (u32 (mmapAddr + mmapLength)) fuel mmapAddr bm).map fun bm => (1, bm)

/-! ### The walk -/

/-- The entries `es` lie at address `a`, each with size field 20. -/
def MapAt (m : ByteMem) : ℕ → List MmapEntry → Prop
  | _, [] => True
  | a, e :: es => mmapEntry m a = e ∧ e.size = 20 ∧ MapAt m (a + 24) es

/-- The boot loader's information at `info` has the memory map `es`, which ends inside the address
    space. -/
structure HasMap (m : ByteMem) (info : ℕ) (es : List MmapEntry) : Prop where
  flag : load m info &&& multibootInfoMemMap ≠ 0
  length : load m (info + 44) = 24 * es.length
  entries : MapAt m (load m (info + 48)) es
  fits : load m (info + 48) + 24 * es.length < 2 ^ 32

/-- Boot memory after the entries of a map. -/
def mapRegions (img : KernelImage) (es : List MmapEntry) : Bootmem :=
  es.foldl (registerEntry img) bootmemReset

variable {img : KernelImage} {m : ByteMem} {info fuel a p : ℕ} {bm : Bootmem} {e : MmapEntry}
  {es pre post : List MmapEntry}

theorem mmapWalk_eq (hmap : MapAt m a es) (hfits : a + 24 * es.length < 2 ^ 32)
    (hfuel : es.length < fuel) :
    mmapWalk img m (a + 24 * es.length) fuel a bm = some (es.foldl (registerEntry img) bm) := by
  induction es generalizing a fuel bm with
  | nil =>
    obtain ⟨fuel, rfl⟩ := Nat.exists_eq_succ_of_ne_zero (Nat.ne_of_gt hfuel)
    exact if_neg (lt_irrefl a)
  | cons e es ih =>
    obtain ⟨he, hsize, hrest⟩ := hmap
    rw [List.length_cons] at hfits hfuel ⊢
    obtain ⟨fuel, rfl⟩ := Nat.exists_eq_succ_of_ne_zero (Nat.ne_zero_of_lt hfuel)
    have hstop : a + 24 * (es.length + 1) = a + 24 + 24 * es.length := by omega
    rw [mmapWalk, if_pos (by omega), he, hsize, u32_of_lt (by omega), hstop]
    exact ih hrest (by omega) (by omega)

/-- **`multiboot_parse`** returns 1 and has registered the entries of the map in order. -/
theorem multibootParse_eq (hmap : HasMap m info es) (hfuel : es.length < fuel) :
    multibootParse img m fuel multibootBootloaderMagic info bootmemReset
      = some (1, mapRegions img es) := by
  obtain ⟨hflag, hlength, hentries, hfits⟩ := hmap
  unfold multibootParse
  rw [if_neg (by simp), if_neg hflag, hlength]
  dsimp only
  rw [u32_of_lt hfits, mmapWalk_eq hentries hfits hfuel]
  rfl

/-! ### The registered pages -/

/-- The image begins where the linker script puts it. -/
def KernelImage.Linked (img : KernelImage) : Prop := img.physStart = 0x100000

/-- Page `p` is covered by a region on record. -/
def Bootmem.Covers (bm : Bootmem) (p : ℕ) : Prop :=
  ∃ r ∈ bm.recorded, PageWithin r.startAddr r.endAddr p

/-- Page `p` lies below 4 GiB, outside the image, and whole in an available entry that contains
    `KERNEL_PHYS_END`. -/
def Wanted (img : KernelImage) (es : List MmapEntry) (p : ℕ) : Prop :=
  p < 2 ^ 20 ∧ ¬ img.Overlaps p ∧ ∃ e ∈ es, e.type = multibootMemoryAvailable ∧
    e.addr ≤ img.physEnd ∧ img.physEnd ≤ e.addr + e.len ∧ PageWithin e.addr (e.addr + e.len) p

/-- The registered regions cover exactly the pages they should. -/
def Translated (img : KernelImage) (es : List MmapEntry) (bm : Bootmem) : Prop :=
  ∀ p, bm.Covers p ↔ Wanted img es p

/-- The call that registers the entry. -/
def MmapEntry.region (e : MmapEntry) : RegionArg :=
  ⟨UInt32.ofNat e.addr, UInt32.ofNat e.endAddr, 1⟩

/-- What is needed for an entry to be registered faithfully.  Of the parts its region is stored in,
    as many are stored as there are free slots. -/
structure MmapEntry.Registrable (img : KernelImage) (bm : Bootmem) (e : MmapEntry) : Prop where
  start_pos : e.addr ≠ 0
  below : e.addr + e.len < 2 ^ 32
  clear : ¬ e.region.Refused img →
    ∀ part ∈ (e.region.parts img).take (maxMemRegions - bm.regionCount),
      part.2 ≤ pageAlign img.physStart ∨ pageAlign img.physEnd ≤ part.1
  room : ¬ e.region.Refused img →
    ∀ part ∈ (e.region.parts img).drop (maxMemRegions - bm.regionCount),
      ∀ p, PageWithin part.1 part.2 p → ¬ img.Overlaps p → bm.Covers p

theorem region_start (hsel : e.Selected img) : e.region.startAddr.toNat = e.addr := by
  have hle := hsel.1.trans img.fits
  show (UInt32.ofNat e.addr).toNat = e.addr
  rw [UInt32.toNat_ofNat']
  exact Nat.mod_eq_of_lt (by omega)

theorem region_end : e.region.endAddr.toNat = u32 e.endAddr := UInt32.toNat_ofNat'

/-- A selected entry is registered by one call. -/
theorem registerEntry_call (hsel : e.Selected img) :
    registerEntry img bm e = (e.region.call img bm).2 := by
  have hle := hsel.1.trans img.fits
  rw [registerEntry, if_pos hsel, RegionArg.call, region_start hsel, region_end,
    u32_of_lt (by omega), MmapEntry.regionType, if_pos hsel.2.2]
  rfl

theorem mapRegions_concat (pre : List MmapEntry) (e : MmapEntry) :
    mapRegions img (pre ++ [e]) = registerEntry img (mapRegions img pre) e :=
  List.foldl_concat _ _ _ _

/-- The entries of a map, as calls. -/
theorem mapRegions_eq (img : KernelImage) (es : List MmapEntry) :
    mapRegions img es
      = registerAll img bootmemReset ((es.filter (·.Selected img)).map MmapEntry.region) := by
  induction es using List.reverseRecOn with
  | nil => rfl
  | append_singleton es e ih =>
    rw [mapRegions_concat, ih, List.filter_append, List.map_append]
    by_cases hsel : e.Selected img
    · rw [registerEntry_call hsel, List.filter_cons_of_pos (by simpa using hsel)]
      exact (registerAll_concat _ _).symm
    · rw [registerEntry, if_neg hsel, List.filter_cons_of_neg (by simpa using hsel)]
      simp

theorem Slots.registerEntry (h : Slots bm) (e : MmapEntry) : Slots (registerEntry img bm e) := by
  by_cases hsel : e.Selected img
  · rw [registerEntry_call hsel]
    exact h.addMemRegion e.region
  · rwa [Rotary.registerEntry, if_neg hsel]

theorem Slots.registerEntries (h : Slots bm) (es : List MmapEntry) :
    Slots (es.foldl (Rotary.registerEntry img) bm) := by
  induction es generalizing bm with
  | nil => exact h
  | cons e es ih => exact ih (h.registerEntry e)

theorem Slots.mapRegions (img : KernelImage) (es : List MmapEntry) : Slots (mapRegions img es) :=
  Slots.reset.registerEntries es

/-- What is on record stays there for the rest of the map. -/
theorem Slots.kept_entries (h : Slots bm) (es : List MmapEntry) {r : MemRegion}
    (hr : r ∈ bm.recorded) : r ∈ (es.foldl (Rotary.registerEntry img) bm).recorded := by
  induction es generalizing bm with
  | nil => exact hr
  | cons e es ih =>
    apply ih (h.registerEntry e)
    by_cases hsel : e.Selected img
    · rw [registerEntry_call hsel]
      exact h.kept_call e.region hr
    · rwa [Rotary.registerEntry, if_neg hsel]

/-- A full table stays as it is. -/
theorem registerEntries_full (hfull : bm.regionCount = maxMemRegions) (es : List MmapEntry) :
    es.foldl (registerEntry img) bm = bm := by
  induction es with
  | nil => rfl
  | cons e es ih =>
    have hsame : registerEntry img bm e = bm := by
      by_cases hsel : e.Selected img
      · rw [registerEntry_call hsel, bootmemAddMemRegion_refused (Or.inl hfull)]
      · rw [registerEntry, if_neg hsel]
    rw [List.foldl_cons, hsame, ih]

/-- Every region ends at or before the last page boundary below 4 GiB. -/
theorem mapRegions_end_le {r : MemRegion} (hr : r ∈ (mapRegions img es).memRegions) :
    r.endAddr ≤ 0xFFFFF000 := by
  rw [mapRegions_eq] at hr
  rcases registerAll_mem hr with hold | ⟨c, -, hnew⟩
  · rw [bootmemReset_mem hold]
    decide
  · exact hnew.end_le.trans (pageAlignDown_le c.endAddr.toNat_lt).1

/-! ### One entry -/

/-- The page at address zero, and the last one below 4 GiB, are never covered. -/
theorem not_covers_zero (bm : Bootmem) : ¬ bm.Covers 0 := by
  intro ⟨r, hr, hpage⟩
  have hne := (List.mem_filter.mp hr).2
  have hz : r.startAddr = 0 := Nat.le_zero.mp (by simpa using hpage.1)
  simp [hz] at hne

theorem not_covers_last : ¬ (mapRegions img es).Covers 0xFFFFF := by
  intro ⟨r, hr, hpage⟩
  have hle := mapRegions_end_le (List.mem_filter.mp hr).1
  have hge : (0xFFFFF + 1) * 4096 ≤ r.endAddr := hpage.2
  omega

/-- Where a linked image lies. -/
theorem KernelImage.Linked.start (h : img.Linked) :
    pageAlign img.physStart = 0x100000 ∧ img.physStart = 0x100000 := by
  refine ⟨?_, h⟩
  rw [h]
  decide

theorem KernelImage.Linked.overlaps_iff (h : img.Linked) :
    img.Overlaps p ↔ 0x100000 ≤ p * 4096 ∧ p * 4096 < pageAlign img.physEnd := by
  have hfits := img.fits
  have hordered := img.ordered
  have hstart : img.physStart = 0x100000 := h
  have hend := pageAlign_eq (a := img.physEnd) (by omega)
  constructor
  · intro ⟨a, ha, hp⟩
    have hlo := ha.1
    have hhi := ha.2
    omega
  · intro ⟨hlo, hhi⟩
    exact ⟨p * 4096, ⟨by omega, by omega⟩, by omega⟩

/-- The bounds of a selected entry that ends below 4 GiB are not narrowed. -/
theorem region_bounds (hsel : e.Selected img) (hbelow : e.addr + e.len < 2 ^ 32) :
    e.region.startAddr.toNat = e.addr ∧ e.region.endAddr.toNat = e.addr + e.len := by
  refine ⟨region_start hsel, ?_⟩
  rw [region_end, MmapEntry.endAddr, Nat.mod_eq_of_lt (by omega), u32_of_lt hbelow]

/-- A refused entry has no pages outside the image. -/
theorem overlaps_of_refused (hlink : img.Linked) (hsel : e.Selected img)
    (hbelow : e.addr + e.len < 2 ^ 32) (hrefused : e.region.Refused img)
    (hp : PageWithin e.addr (e.addr + e.len) p) : img.Overlaps p := by
  obtain ⟨hs, he⟩ := region_bounds hsel hbelow
  obtain ⟨hlo, hhi⟩ := hp
  have hstart := pageAlign_eq (a := e.addr) (by omega)
  have hend := pageAlignDown_eq hbelow
  rw [hlink.overlaps_iff]
  rcases hrefused with ⟨hin, hlt⟩ | htype | hempty
  · rw [hs, hlink.start.1] at hin
    rw [he] at hlt
    omega
  · exact absurd rfl htype.2
  · rw [hs, he] at hempty
    omega

/-- **One entry** that can be registered adds its pages outside the image to those covered. -/
theorem registerEntry_covers (hlink : img.Linked) (h : Slots bm) (hsel : e.Selected img)
    (hreg : e.Registrable img bm) (p : ℕ) :
    (registerEntry img bm e).Covers p ↔
      bm.Covers p ∨ ¬ img.Overlaps p ∧ PageWithin e.addr (e.addr + e.len) p := by
  have hbelow := hreg.below
  obtain ⟨hs, he⟩ := region_bounds hsel hbelow
  have hle := hsel.1.trans img.fits
  have hstart := (pageAlign_le hle).2.2
  have hend : pageAlignDown (e.addr + e.len) ≤ e.addr + e.len := by
    rw [pageAlignDown_eq hbelow]
    omega
  have hpos := hreg.start_pos
  -- what the call adds, if it passes its checks
  have hparts : ∀ part ∈ e.region.parts img, e.addr ≤ part.1 ∧ part.2 ≤ e.addr + e.len := by
    intro part hpart
    obtain ⟨hlo, hhi⟩ := RegionArg.parts_within hpart
    rw [hs] at hlo
    rw [he] at hhi
    exact ⟨hstart.trans hlo, hhi.trans hend⟩
  rw [registerEntry_call hsel]
  by_cases hrefused : e.region.Refused img
  · rw [bootmemAddMemRegion_refused (Or.inr hrefused)]
    constructor
    · exact Or.inl
    · rintro (hcov | ⟨himg, hp⟩)
      · exact hcov
      · exact absurd (overlaps_of_refused hlink hsel hbelow hrefused hp) himg
  · have hmem : ∀ r, r ∈ (e.region.call img bm).2.recorded ↔ r ∈ bm.recorded ∨
        ∃ part ∈ (e.region.parts img).take (maxMemRegions - bm.regionCount),
          r = ⟨part.1, part.2, part.1, e.region.type.toNat⟩ := by
      intro r
      by_cases hfull : bm.regionCount = maxMemRegions
      · rw [bootmemAddMemRegion_refused (Or.inl hfull), hfull]
        simp
      · rw [bootmemAddMemRegion_accepted h hfull hrefused]
        refine h.recorded_parts _ (fun part hpart => ?_) r
        have hlo := (hparts part hpart).1
        omega
    constructor
    · intro ⟨r, hr, hpage⟩
      rcases (hmem r).mp hr with hold | ⟨part, hpart, rfl⟩
      · exact Or.inl ⟨r, hold, hpage⟩
      · obtain ⟨hlo, hhi⟩ := hparts part (List.mem_of_mem_take hpart)
        have hclear := hreg.clear hrefused part hpart
        rw [hlink.start.1] at hclear
        rw [hlink.overlaps_iff]
        have hfirst : part.1 ≤ p * 4096 := hpage.1
        have hlast : (p + 1) * 4096 ≤ part.2 := hpage.2
        exact Or.inr ⟨by omega, by omega, by omega⟩
    · rintro (⟨r, hr, hpage⟩ | ⟨himg, hp⟩)
      · exact ⟨r, (hmem r).mpr (Or.inl hr), hpage⟩
      · have hpage : PageWithin e.region.startAddr.toNat e.region.endAddr.toNat p := by
          rw [hs, he]
          exact hp
        obtain ⟨part, hpart, hin⟩ := RegionArg.parts_cover hpage himg
        rw [← List.take_append_drop (maxMemRegions - bm.regionCount) (e.region.parts img),
          List.mem_append] at hpart
        rcases hpart with htake | hdrop
        · exact ⟨_, (hmem _).mpr (Or.inr ⟨part, htake, rfl⟩), hin⟩
        · -- there is no slot for this part, but its pages are covered already
          obtain ⟨r, hr, hold⟩ := hreg.room hrefused part hdrop p hin himg
          exact ⟨r, (hmem r).mpr (Or.inl hr), hold⟩

/-- The pages of a selected entry outside the image should be covered. -/
theorem wanted_of_selected {es : List MmapEntry} (he : e ∈ es) (hsel : e.Selected img)
    (hsum : e.addr + e.len < 2 ^ 64) (hp : p < 2 ^ 20) (himg : ¬ img.Overlaps p)
    (hpage : PageWithin e.addr (e.addr + e.len) p) : Wanted img es p := by
  have hend : e.endAddr = e.addr + e.len := Nat.mod_eq_of_lt hsum
  exact ⟨hp, himg, e, he, hsel.2.2, hsel.1, hend ▸ hsel.2.1, hpage⟩

/-- Page 0 and the last page of the address space are never covered, so that a faithful translation
    has no entry over them. -/
theorem bounds_of_translated {es : List MmapEntry} (hlink : img.Linked) (he : e ∈ es)
    (hsel : e.Selected img) (hsum : e.addr + e.len < 2 ^ 64)
    (h : Translated img es (mapRegions img es)) : e.addr ≠ 0 ∧ e.addr + e.len < 2 ^ 32 := by
  have hend : e.endAddr = e.addr + e.len := Nat.mod_eq_of_lt hsum
  have hcontains : img.physEnd ≤ e.addr + e.len := hend ▸ hsel.2.1
  have hle := hsel.1
  have hfits := img.fits
  have hordered := img.ordered
  have hphys := hlink.start.2
  have hlast := (pageAlign_le img.fits).1
  constructor
  · intro hz
    have himg : ¬ img.Overlaps 0 := by
      rw [hlink.overlaps_iff]
      omega
    have hpage : PageWithin e.addr (e.addr + e.len) 0 := by
      unfold PageWithin
      omega
    exact not_covers_zero _ ((h 0).mpr (wanted_of_selected he hsel hsum (by decide) himg hpage))
  · by_contra hge
    have himg : ¬ img.Overlaps 0xFFFFF := by
      rw [hlink.overlaps_iff]
      omega
    have hpage : PageWithin e.addr (e.addr + e.len) 0xFFFFF := by
      unfold PageWithin
      omega
    exact not_covers_last ((h 0xFFFFF).mpr
      (wanted_of_selected he hsel hsum (by decide) himg hpage))

/-- The parts of a region that does not start at 0 do not start there either. -/
theorem parts_nonzero (hsel : e.Selected img) (hpos : e.addr ≠ 0)
    (hbelow : e.addr + e.len < 2 ^ 32) : ∀ part ∈ e.region.parts img, part.1 ≠ 0 := by
  intro part hpart
  have hstart := (pageAlign_le (hsel.1.trans img.fits)).2.2
  have hlo := (RegionArg.parts_within hpart).1
  rw [(region_bounds hsel hbelow).1] at hlo
  omega

/-- The map, from one selected entry on. -/
theorem mapRegions_split (hsel : e.Selected img) (pre post : List MmapEntry) :
    mapRegions img (pre ++ e :: post) =
      post.foldl (registerEntry img) (e.region.call img (mapRegions img pre)).2 := by
  rw [← registerEntry_call hsel]
  show List.foldl _ _ _ = _
  rw [List.foldl_append]
  rfl

/-- A stored part that reached over the image would cover its own first page, to the end of the
    map. -/
theorem clear_of_translated (hlink : img.Linked) (hsel : e.Selected img) (hpos : e.addr ≠ 0)
    (hbelow : e.addr + e.len < 2 ^ 32)
    (h : Translated img (pre ++ e :: post) (mapRegions img (pre ++ e :: post)))
    (hrefused : ¬ e.region.Refused img) {part : ℕ × ℕ}
    (hpart : part ∈ (e.region.parts img).take (maxMemRegions - (mapRegions img pre).regionCount)) :
    part.2 ≤ pageAlign img.physStart ∨ pageAlign img.physEnd ≤ part.1 := by
  have hslots := Slots.mapRegions img pre
  have hfull : (mapRegions img pre).regionCount ≠ maxMemRegions := by
    intro hfull
    rw [hfull] at hpart
    simp at hpart
  obtain ⟨haligned, hlt, hclear⟩ := RegionArg.parts_clear hrefused (List.mem_of_mem_take hpart)
  by_contra hover
  rw [not_or] at hover
  obtain ⟨hin, heq⟩ := (hclear.resolve_left hover.1).resolve_left hover.2
  have hrecorded : (⟨part.1, part.2, part.1, e.region.type.toNat⟩ : MemRegion) ∈
      (mapRegions img (pre ++ e :: post)).recorded := by
    rw [mapRegions_split hsel]
    apply (hslots.addMemRegion e.region).kept_entries post
    rw [bootmemAddMemRegion_accepted hslots hfull hrefused]
    exact (hslots.recorded_parts _ (parts_nonzero hsel hpos hbelow) _).mpr
      (Or.inr ⟨part, hpart, rfl⟩)
  have hpage : PageWithin part.1 part.2 (part.1 / 4096) := by
    obtain ⟨-, hked, -⟩ := pageAlign_le img.fits
    unfold PageWithin
    omega
  obtain ⟨-, hnot, -⟩ := (h (part.1 / 4096)).mp ⟨_, hrecorded, hpage⟩
  rw [hlink.overlaps_iff] at hnot
  rw [hlink.start.1] at hin
  omega

/-- The page of a part for which there is no slot is covered at the end of the map, and the table is
    full from this entry on. -/
theorem room_of_translated (hsel : e.Selected img) (hsum : e.addr + e.len < 2 ^ 64)
    (hpos : e.addr ≠ 0) (hbelow : e.addr + e.len < 2 ^ 32)
    (h : Translated img (pre ++ e :: post) (mapRegions img (pre ++ e :: post)))
    (hrefused : ¬ e.region.Refused img) {part : ℕ × ℕ}
    (hpart : part ∈ (e.region.parts img).drop (maxMemRegions - (mapRegions img pre).regionCount))
    (hp : PageWithin part.1 part.2 p) (himg : ¬ img.Overlaps p) : (mapRegions img pre).Covers p := by
  have hslots := Slots.mapRegions img pre
  have hnonzero := parts_nonzero hsel hpos hbelow
  obtain ⟨hs, he⟩ := region_bounds hsel hbelow
  obtain ⟨hlo, hhi⟩ := RegionArg.parts_within (List.mem_of_mem_drop hpart)
  have hstart := (pageAlign_le (hsel.1.trans img.fits)).2.2
  have hendle : pageAlignDown (e.addr + e.len) ≤ e.addr + e.len := by
    rw [pageAlignDown_eq hbelow]
    omega
  rw [hs] at hlo
  rw [he] at hhi
  have hfirst : part.1 ≤ p * 4096 := hp.1
  have hlast : (p + 1) * 4096 ≤ part.2 := hp.2
  obtain ⟨r, hr, hpage⟩ := (h p).mpr
    (wanted_of_selected (by simp) hsel hsum (by omega) himg ⟨by omega, by omega⟩)
  have hdrop : (e.region.parts img).drop (maxMemRegions - (mapRegions img pre).regionCount) ≠ [] :=
    List.ne_nil_of_mem hpart
  rw [mapRegions_split hsel] at hr
  by_cases hfull : (mapRegions img pre).regionCount = maxMemRegions
  · rw [bootmemAddMemRegion_refused (Or.inl hfull), registerEntries_full hfull] at hr
    exact ⟨r, hr, hpage⟩
  · rw [bootmemAddMemRegion_accepted hslots hfull hrefused] at hr
    dsimp only at hr
    rw [registerEntries_full, hslots.recorded_parts _ hnonzero] at hr
    · rcases hr with hold | ⟨part', hpart', rfl⟩
      · exact ⟨r, hold, hpage⟩
      · -- the parts that were stored lie before the one that was not
        have hpairs := e.region.parts_pairwise img
        rw [← List.take_append_drop (maxMemRegions - (mapRegions img pre).regionCount)
          (e.region.parts img), List.pairwise_append] at hpairs
        have hbefore := hpairs.2.2 part' hpart' part hpart
        have hstored : (p + 1) * 4096 ≤ part'.2 := hpage.2
        omega
    · rw [hslots.regionCount_parts]
      rw [ne_eq, List.drop_eq_nil_iff] at hdrop
      omega

/-- **Conversely**, an entry of a map that is translated faithfully could be registered. -/
theorem registrable_of_translated (hlink : img.Linked) (hes : es = pre ++ e :: post)
    (hsel : e.Selected img) (hsum : e.addr + e.len < 2 ^ 64)
    (h : Translated img es (mapRegions img es)) : e.Registrable img (mapRegions img pre) := by
  subst hes
  obtain ⟨hpos, hbelow⟩ := bounds_of_translated hlink (by simp) hsel hsum h
  exact ⟨hpos, hbelow,
    fun hrefused part hpart => clear_of_translated hlink hsel hpos hbelow h hrefused hpart,
    fun hrefused part hpart p hp himg =>
      room_of_translated hsel hsum hpos hbelow h hrefused hpart hp himg⟩

/-- One more entry adds its own pages, if it is selected. -/
theorem wanted_concat (hsum : e.addr + e.len < 2 ^ 64) :
    Wanted img (pre ++ [e]) p ↔ Wanted img pre p ∨ p < 2 ^ 20 ∧ ¬ img.Overlaps p ∧
      e.Selected img ∧ PageWithin e.addr (e.addr + e.len) p := by
  have hend : e.endAddr = e.addr + e.len := Nat.mod_eq_of_lt hsum
  unfold MmapEntry.Selected
  rw [hend]
  constructor
  · intro ⟨hp, himg, x, hx, htype, hlo, hhi, hpage⟩
    rcases List.mem_append.mp hx with hx | hx
    · exact Or.inl ⟨hp, himg, x, hx, htype, hlo, hhi, hpage⟩
    · rw [List.mem_singleton] at hx
      subst hx
      exact Or.inr ⟨hp, himg, ⟨hlo, hhi, htype⟩, hpage⟩
  · rintro (⟨hp, himg, x, hx, hrest⟩ | ⟨hp, himg, ⟨hlo, hhi, htype⟩, hpage⟩)
    · exact ⟨hp, himg, x, List.mem_append_left _ hx, hrest⟩
    · exact ⟨hp, himg, e, by simp, htype, hlo, hhi, hpage⟩

/-- **The memory map.**  The registered regions cover exactly the pages below 4 GiB and outside the
    image of the available entries that contain `KERNEL_PHYS_END`, exactly if every such entry can
    be registered faithfully when its turn comes. -/
theorem translated_iff (hlink : img.Linked) (hsum : ∀ e ∈ es, e.addr + e.len < 2 ^ 64) :
    Translated img es (mapRegions img es) ↔
      ∀ pre e post, es = pre ++ e :: post → e.Selected img →
        e.Registrable img (mapRegions img pre) := by
  constructor
  · intro h pre e post hes hsel
    exact registrable_of_translated hlink hes hsel (hsum e (by rw [hes]; simp)) h
  · intro h
    -- along the map: the pages covered so far are those of the entries so far
    suffices hprefix : ∀ pre post, es = pre ++ post → Translated img pre (mapRegions img pre) from
      hprefix es [] (List.append_nil es).symm
    intro pre
    induction pre using List.reverseRecOn with
    | nil =>
      intro _ _ p
      refine iff_of_false ?_ ?_
      · rintro ⟨r, hr, -⟩
        have hnone : bootmemReset.recorded = [] := by decide
        rw [show mapRegions img [] = bootmemReset from rfl, hnone] at hr
        cases hr
      · rintro ⟨-, -, e, he, -⟩
        cases he
    | append_singleton pre e ih =>
      intro post hes p
      rw [List.append_assoc] at hes
      have hpre := ih _ hes p
      rw [mapRegions_concat, wanted_concat (hsum e (by rw [hes]; simp))]
      by_cases hsel : e.Selected img
      · have hreg := h pre e post hes hsel
        rw [registerEntry_covers hlink (Slots.mapRegions img pre) hsel hreg, hpre]
        have hbelow := hreg.below
        have hlow : PageWithin e.addr (e.addr + e.len) p → p < 2 ^ 20 := by
          intro hp
          have hlast : (p + 1) * 4096 ≤ e.addr + e.len := hp.2
          omega
        tauto
      · rw [registerEntry, if_neg hsel, hpre]
        tauto

/-- **`multiboot_parse`** on a map in memory: it ends, and translates the map faithfully exactly if
    every available entry that contains `KERNEL_PHYS_END` can be registered when its turn comes. -/
theorem multibootParse_translated_iff (hlink : img.Linked) (hmap : HasMap m info es)
    (hsum : ∀ e ∈ es, e.addr + e.len < 2 ^ 64) (hfuel : es.length < fuel) :
    ∃ bm, multibootParse img m fuel multibootBootloaderMagic info bootmemReset = some (1, bm) ∧
      (Translated img es bm ↔ ∀ pre e post, es = pre ++ e :: post → e.Selected img →
        e.Registrable img (mapRegions img pre)) :=
  ⟨mapRegions img es, multibootParse_eq hmap hfuel, translated_iff hlink hsum⟩

/-- Information at address zero, with a map of one available entry `[addr, addr + len)` behind
    it. -/
def oneEntryInfo (addr len : ℕ) : ByteMem :=
  [(0, 0x40), (44, 24), (48, 0x100), (0x100, 20), (0x104, addr), (0x108, 0), (0x10C, len),
    (0x110, 0), (0x114, 1)].foldl (fun m w => store m w.1 w.2) fun _ => 0

theorem multibootParse_translated_iff_around : ∃ bm,
    multibootParse lowImage (oneEntryInfo 0x80000 0x380000) 2 multibootBootloaderMagic 0
      bootmemReset = some (1, bm) ∧ Translated lowImage [⟨20, 0x80000, 0x380000, 1⟩] bm := by
  have hmap : HasMap (oneEntryInfo 0x80000 0x380000) 0 [⟨20, 0x80000, 0x380000, 1⟩] :=
    ⟨by decide +kernel, by decide +kernel, ⟨by decide +kernel, rfl, trivial⟩, by decide +kernel⟩
  have hfuel : [(⟨20, 0x80000, 0x380000, 1⟩ : MmapEntry)].length < 2 := by decide
  obtain ⟨bm, hparse, hiff⟩ := multibootParse_translated_iff (rfl : lowImage.Linked) hmap
    (by decide) hfuel
  refine ⟨bm, hparse, hiff.mpr ?_⟩
  intro pre e post hes _
  rcases pre with _ | ⟨x, pre⟩
  · obtain ⟨rfl, -⟩ := List.cons.inj hes
    have hroom : ((⟨20, 0x80000, 0x380000, 1⟩ : MmapEntry).region.parts lowImage).drop
        (maxMemRegions - (mapRegions lowImage []).regionCount) = [] := by decide +kernel
    refine ⟨by decide, by decide, fun _ => by decide +kernel, fun _ part hpart => ?_⟩
    rw [hroom] at hpart
    cases hpart
  · simp at hes

/-- **A region up to 4 GiB**: its end address is narrowed to zero, and it is not registered. -/
theorem multiboot_map_narrowed :
    ¬ ∀ (img : KernelImage) (m : ByteMem) (info fuel : ℕ) (es : List MmapEntry) (bm : Bootmem),
      img.Linked → HasMap m info es → (∀ e ∈ es, e.addr + e.len < 2 ^ 64) →
      multibootParse img m fuel multibootBootloaderMagic info bootmemReset = some (1, bm) →
      Translated img es bm := by
  intro h
  have hmap : HasMap (oneEntryInfo 0x100000 0xFFF00000) 0 [⟨20, 0x100000, 0xFFF00000, 1⟩] :=
    ⟨by decide +kernel, by decide +kernel, ⟨by decide +kernel, rfl, trivial⟩, by decide +kernel⟩
  have hlink : lowImage.Linked := rfl
  have htrans := h lowImage _ 0 2 _ _ hlink hmap (by decide) (multibootParse_eq hmap (by decide))
  refine not_covers_last ((htrans 0xFFFFF).mpr ⟨by decide, ?_, ⟨20, 0x100000, 0xFFF00000, 1⟩,
    List.mem_singleton_self _, rfl, by decide, by decide, by decide, by decide⟩)
  rw [hlink.overlaps_iff]
  decide

end Rotary
