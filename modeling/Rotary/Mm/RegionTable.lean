import Mathlib.Data.List.Perm.Basic
import Rotary.Mm.Regions

namespace Rotary

/-!
# The region table

What one `bootmem_add_mem_region` call does to `mem_regions`, `region_count` and `highest_pfn`, in
every state that calls can reach.  `Slots` is the invariant: the slots from `region_count` on have
never been used, so a call that finds `region_count` below sixteen finds a slot as well.

* `bootmemAddMemRegion_accepted` — a call that passes its checks stores the parts of its region
  outside the image, each while the table has room;
* `addMemRegion_error_unchanged` — a call that fails changes nothing, after any calls;
* `losesNothing_iff` — for which sequences of calls no memory is lost.
-/

/-- The invariant of `region_count`; see the module header. -/
structure Slots (bm : Bootmem) : Prop where
  length : bm.memRegions.length = maxMemRegions
  count_le : bm.regionCount ≤ maxMemRegions
  unused : ∀ r ∈ bm.memRegions.drop bm.regionCount, r = MemRegion.zero

/-- The parts of `[s, e)` that a call stores, in order. -/
def KernelImage.parts (img : KernelImage) (s e : ℕ) : List (ℕ × ℕ) :=
  let kernelStart := pageAlign img.physStart
  let kernelEnd := pageAlign img.physEnd
  if s < kernelStart ∧ kernelEnd < e then [(s, kernelStart), (kernelEnd, e)]
  else if s < kernelStart ∧ kernelStart < e then [(s, kernelStart)]
  else if s < kernelEnd ∧ kernelEnd < e then [(kernelEnd, e)]
  else [(s, e)]

/-- The parts a call stores of its region. -/
def RegionArg.parts (img : KernelImage) (c : RegionArg) : List (ℕ × ℕ) :=
  img.parts (pageAlign c.startAddr.toNat) (pageAlignDown c.endAddr.toNat)

/-- The call with these arguments. -/
def RegionArg.call (img : KernelImage) (bm : Bootmem) (c : RegionArg) : Status × Bootmem :=
  bootmemAddMemRegion img bm c.startAddr.toNat c.endAddr.toNat c.type.toNat

/-- Store one part, if the table is not full. -/
def recordPart (type : ℕ) (bm : Bootmem) (part : ℕ × ℕ) : Bootmem :=
  if bm.regionCount = maxMemRegions then bm else (recordRegion bm part.1 part.2 type).2

variable {img : KernelImage} {bm : Bootmem} {a b e s size alignment type : ℕ} {r : MemRegion}
  {c : RegionArg} {calls : List RegionArg}

/-! ### Storing a part -/

theorem fillSlot_isSome {ms : List MemRegion} (h : ∃ m ∈ ms, m.startAddr = 0) :
    ∃ ms', fillSlot r ms = some ms' := by
  induction ms with
  | nil => simp at h
  | cons m ms ih =>
    rw [fillSlot]
    split
    · exact ⟨_, rfl⟩
    · rename_i hne
      obtain ⟨x, hx, hz⟩ := h
      rcases List.mem_cons.mp hx with rfl | hx
      · exact absurd hz hne
      · obtain ⟨ms', hfill⟩ := ih ⟨x, hx, hz⟩
        exact ⟨m :: ms', by rw [hfill]; rfl⟩

/-- **Recording into a table with room** takes one free slot, at or before `region_count`. -/
theorem Slots.recordRegion (h : Slots bm) (hcount : bm.regionCount ≠ maxMemRegions)
    (a b type : ℕ) :
    ∃ pre m post, bm.memRegions = pre ++ m :: post ∧ m.startAddr = 0 ∧
      pre.length ≤ bm.regionCount ∧ Rotary.recordRegion bm a b type =
        (.success, ⟨pre ++ ⟨a, b, a, type⟩ :: post, max bm.highestPfn (paToPfn b),
          bm.regionCount + 1⟩) := by
  have hlt : bm.regionCount < bm.memRegions.length := by
    rw [h.length]
    exact lt_of_le_of_ne h.count_le hcount
  -- the slot at `region_count` is free
  have hfree : ∃ m ∈ bm.memRegions, m.startAddr = 0 := by
    have hmem : bm.memRegions[bm.regionCount] ∈ bm.memRegions.drop bm.regionCount :=
      List.mem_drop_iff_getElem.mpr ⟨0, by simpa using hlt, by simp⟩
    exact ⟨_, List.getElem_mem hlt, by rw [h.unused _ hmem]; rfl⟩
  obtain ⟨ms, hfill⟩ := fillSlot_isSome (r := ⟨a, b, a, type⟩) hfree
  obtain ⟨pre, m, post, hold, hnew, hz, hpre⟩ := fillSlot_some hfill
  have hunused := h.unused
  rw [hold] at hunused
  refine ⟨pre, m, post, hold, hz, length_le_of_unused hpre hunused, ?_⟩
  unfold Rotary.recordRegion
  dsimp only
  rw [hfill, hnew]

theorem Slots.recordRegion_slots (h : Slots bm) (hcount : bm.regionCount ≠ maxMemRegions) :
    Slots (Rotary.recordRegion bm a b type).2 := by
  obtain ⟨pre, m, post, hold, -, hle, heq⟩ := h.recordRegion hcount a b type
  obtain ⟨hlen, hcount_le, hunused⟩ := h
  rw [heq]
  rw [hold] at hlen hunused
  refine ⟨by simpa using hlen, Nat.succ_le_of_lt (lt_of_le_of_ne hcount_le hcount), fun r hr => ?_⟩
  rw [drop_slot _ m post (Nat.lt_add_one_of_le hle), ← List.drop_drop] at hr
  exact hunused r (List.mem_of_mem_drop hr)

theorem Slots.recordPart (h : Slots bm) (type : ℕ) (part : ℕ × ℕ) : Slots (recordPart type bm part) := by
  unfold Rotary.recordPart
  split
  · exact h
  · rename_i hcount
    exact h.recordRegion_slots hcount

theorem Slots.recordParts (h : Slots bm) (parts : List (ℕ × ℕ)) :
    Slots (parts.foldl (Rotary.recordPart type) bm) := by
  induction parts generalizing bm with
  | nil => exact h
  | cons part parts ih => exact ih (h.recordPart _ part)

theorem Slots.reset : Slots bootmemReset :=
  ⟨by decide, by decide, fun _ hr => List.eq_of_mem_replicate (List.mem_of_mem_drop hr)⟩

/-! ### One call -/

/-- A call is refused for want of a slot or for its arguments, with nothing changed. -/
theorem bootmemAddMemRegion_refused (h : bm.regionCount = maxMemRegions ∨ c.Refused img) :
    c.call img bm = (.error, bm) := by
  unfold RegionArg.call bootmemAddMemRegion
  rw [addMemRegion]
  dsimp only
  split_ifs with h1 h2 h3 h4 h5
  · rfl
  · rfl
  · rfl
  · rfl
  · rfl
  all_goals
    exfalso
    rcases h.resolve_left h1 with hin | htype | hempty
    · exact h2 hin
    · exact h3 htype
    · omega

/-- A call for whole pages that do not meet the image stores them as they are. -/
theorem addMemRegion_clear (depth : ℕ) (hs : 4096 ∣ s) (he : 4096 ∣ e) (hle : e ≤ 0xFFFFF000)
    (hlt : s < e) (hclear : e ≤ pageAlign img.physStart ∨ pageAlign img.physEnd ≤ s)
    (htype : type = memRegionReserved ∨ type = memRegionAvailable) :
    (addMemRegion img (depth + 1) bm s e type).2 = recordPart type bm (s, e) := by
  have hkk : pageAlign img.physStart ≤ pageAlign img.physEnd := pageAlign_mono img.ordered img.fits
  have hpage : ¬ e - s < pageSize := by
    show ¬ e - s < 4096
    omega
  rw [addMemRegion, pageAlign_of_dvd (by omega) hs, pageAlignDown_of_dvd (by omega) he, recordPart]
  dsimp only
  split_ifs with h1 h2 h3 h4 h5 h6 h7 h8
  · rfl
  all_goals first | rfl | (exfalso; omega)

/-- **A call that passes its checks** stores the parts of its region. -/
theorem bootmemAddMemRegion_accepted (h : Slots bm) (hcount : bm.regionCount ≠ maxMemRegions)
    (hc : ¬ c.Refused img) :
    c.call img bm = (.success, (c.parts img).foldl (recordPart c.type.toNat) bm) := by
  obtain ⟨hsle, hsd⟩ := pageAlign_bound c.startAddr.toNat
  obtain ⟨hele, hed⟩ := pageAlignDown_le c.endAddr.toNat_lt
  obtain ⟨hksle, hksd, -⟩ := pageAlign_le (img.ordered.trans img.fits)
  obtain ⟨hkele, hked, -⟩ := pageAlign_le img.fits
  have hrecord : ∀ x y, Rotary.recordRegion bm x y c.type.toNat =
      (.success, recordPart c.type.toNat bm (x, y)) := by
    intro x y
    obtain ⟨pre, m, post, -, -, -, heq⟩ := h.recordRegion hcount x y c.type.toNat
    rw [recordPart, if_neg hcount, heq]
  unfold RegionArg.Refused at hc
  rw [not_or, not_or] at hc
  obtain ⟨hin, hvalid, hlt⟩ := hc
  have htype := Decidable.or_iff_not_not_and_not.mpr hvalid
  unfold RegionArg.call bootmemAddMemRegion RegionArg.parts KernelImage.parts
  rw [addMemRegion]
  generalize pageAlign c.startAddr.toNat = s at *
  generalize pageAlignDown c.endAddr.toNat = e at *
  dsimp only
  have hsize : ¬ (s = e ∨ e - s < pageSize) := by
    show ¬ (s = e ∨ e - s < 4096)
    omega
  rw [if_neg hcount, if_neg hin, if_neg hvalid, if_neg (by omega), if_neg hsize]
  split_ifs with h6 h7 h8
  · -- the image is inside: the part before it, then the part behind it
    rw [addMemRegion_clear 0 hsd hksd hksle h6.1 (Or.inl le_rfl) htype,
      addMemRegion_clear 0 hked hed hele h6.2 (Or.inr le_rfl) htype]
    rfl
  · exact hrecord s (pageAlign img.physStart)
  · exact hrecord (pageAlign img.physEnd) e
  · exact hrecord s e

theorem Slots.addMemRegion (h : Slots bm) (c : RegionArg) :
    Slots (c.call img bm).2 := by
  by_cases hrefused : bm.regionCount = maxMemRegions ∨ c.Refused img
  · rw [bootmemAddMemRegion_refused hrefused]
    exact h
  · rw [not_or] at hrefused
    rw [bootmemAddMemRegion_accepted h hrefused.1 hrefused.2]
    exact h.recordParts _

/-- `bootmem_alloc` takes from a region of type `MEM_REGION_AVAILABLE`, so from a used slot. -/
theorem Slots.alloc (h : Slots bm) (size alignment : ℕ) :
    Slots (bootmemAlloc bm size alignment).2 := by
  unfold bootmemAlloc
  cases hfrom : allocFrom size alignment bm.memRegions with
  | none => exact h
  | some res =>
    obtain ⟨pre, r, post, hold, hnew, -, ⟨htype, -⟩, -⟩ := allocFrom_slot hfrom
    obtain ⟨hlen, hcount, hunused⟩ := h
    rw [hold] at hlen hunused
    have hlt := slot_lt_of_available htype hunused
    show Slots ⟨res.2, _, _⟩
    rw [hnew]
    refine ⟨by simpa using hlen, hcount, fun x hx => hunused x ?_⟩
    rwa [drop_slot _ r post hlt] at hx

/-! ### A call that fails -/

/-- A call of the boot memory allocator that changes the table. -/
inductive BootCall
  | add (region : RegionArg)
  | alloc (size alignment : UInt32)

/-- Boot memory after one call. -/
def BootCall.run (img : KernelImage) (bm : Bootmem) : BootCall → Bootmem
  | .add c => (c.call img bm).2
  | .alloc size alignment => (bootmemAlloc bm size.toNat alignment.toNat).2

/-- Boot memory after some calls, from `bootmem_reset` on. -/
def bootCalls (img : KernelImage) (calls : List BootCall) : Bootmem :=
  calls.foldl (BootCall.run img) bootmemReset

theorem Slots.run (h : Slots bm) (call : BootCall) : Slots (call.run img bm) := by
  cases call with
  | add c => exact h.addMemRegion c
  | alloc size alignment => exact h.alloc size.toNat alignment.toNat

theorem Slots.bootCalls (img : KernelImage) (calls : List BootCall) :
    Slots (bootCalls img calls) := by
  unfold Rotary.bootCalls
  induction calls using List.reverseRecOn with
  | nil => exact Slots.reset
  | append_singleton calls call ih =>
    rw [List.foldl_concat]
    exact ih.run call

/-- **A rejected registration changes nothing**, after any calls and for any arguments. -/
theorem addMemRegion_error_unchanged (img : KernelImage) (calls : List BootCall) (c : RegionArg)
    (h : (c.call img (bootCalls img calls)).1 = .error) :
    (c.call img (bootCalls img calls)).2 = bootCalls img calls := by
  by_cases hrefused : (bootCalls img calls).regionCount = maxMemRegions ∨ c.Refused img
  · rw [bootmemAddMemRegion_refused hrefused]
  · -- with room in the table, a call that passes its checks succeeds
    rw [not_or] at hrefused
    rw [bootmemAddMemRegion_accepted (Slots.bootCalls img calls) hrefused.1 hrefused.2] at h
    cases h

/-- An invalid type is refused after a region has been recorded. -/
theorem addMemRegion_error_unchanged_type :
    ((⟨0x30000, 0x31000, 2⟩ : RegionArg).call lowImage
        (bootCalls lowImage [.add ⟨0x10000, 0x11000, 1⟩])).2 =
      bootCalls lowImage [.add ⟨0x10000, 0x11000, 1⟩] :=
  addMemRegion_error_unchanged lowImage [.add ⟨0x10000, 0x11000, 1⟩] ⟨0x30000, 0x31000, 2⟩
    (by decide +kernel)

/-! ### What a call that succeeds keeps -/

/-- The regions on record: a slot whose `start_addr` is zero counts as free. -/
def Bootmem.recorded (bm : Bootmem) : List MemRegion :=
  bm.memRegions.filter fun r => r.startAddr ≠ 0

/-- The page lies whole between the two addresses. -/
def PageWithin (a b p : ℕ) : Prop := a ≤ p * 4096 ∧ (p + 1) * 4096 ≤ b

/-- A successful call `c`, from `bm` to `bm'`, lost no memory. -/
structure LosesNothing (img : KernelImage) (bm bm' : Bootmem) (c : RegionArg) : Prop where
  covered : ∀ p, PageWithin c.startAddr.toNat c.endAddr.toNat p → ¬ img.Overlaps p →
    ∃ r ∈ bm'.recorded, r.type = c.type.toNat ∧ PageWithin r.startAddr r.endAddr p
  kept : ∀ r ∈ bm.recorded, r ∈ bm'.recorded
  count : bm'.regionCount = bm'.recorded.length
  highest : bm'.highestPfn = (bm'.recorded.map fun r => r.endAddr / pageSize).foldr max 0

/-- The parts of the region fit into the free slots, and none of them begins at address zero. -/
def RegionArg.Storable (img : KernelImage) (bm : Bootmem) (c : RegionArg) : Prop :=
  bm.regionCount + (c.parts img).length ≤ maxMemRegions ∧ ∀ part ∈ c.parts img, part.1 ≠ 0

/-- `region_count` and `highest_pfn` agree with the regions on record. -/
structure Tallied (bm : Bootmem) : Prop extends Slots bm where
  count : bm.regionCount = bm.recorded.length
  highest : bm.highestPfn = (bm.recorded.map fun r => r.endAddr / pageSize).foldr max 0

theorem Tallied.reset : Tallied bootmemReset := ⟨Slots.reset, by decide, by decide⟩

/-- Storing a region adds it to those on record, if it does not begin at zero. -/
theorem recorded_slot {pre post : List MemRegion} {m : MemRegion} (hz : m.startAddr = 0)
    (hr : r.startAddr ≠ 0) :
    List.Perm ((pre ++ r :: post).filter fun r => r.startAddr ≠ 0)
      (r :: (pre ++ m :: post).filter fun r => r.startAddr ≠ 0) := by
  rw [List.filter_append, List.filter_append, List.filter_cons_of_pos (by simpa using hr),
    List.filter_cons_of_neg (by simpa using hz)]
  exact List.perm_middle

/-- … and changes nothing about them otherwise. -/
theorem recorded_slot_zero {pre post : List MemRegion} {m : MemRegion} (hz : m.startAddr = 0)
    (hr : r.startAddr = 0) :
    ((pre ++ r :: post).filter fun r => r.startAddr ≠ 0)
      = (pre ++ m :: post).filter fun r => r.startAddr ≠ 0 := by
  rw [List.filter_append, List.filter_append, List.filter_cons_of_neg (by simpa using hr),
    List.filter_cons_of_neg (by simpa using hz)]

/-- **Storing a part** that does not begin at zero. -/
theorem Slots.recorded_part (h : Slots bm) (hcount : bm.regionCount ≠ maxMemRegions) (type : ℕ)
    (part : ℕ × ℕ) (hz : part.1 ≠ 0) :
    List.Perm (Rotary.recordPart type bm part).recorded
      (⟨part.1, part.2, part.1, type⟩ :: bm.recorded) := by
  obtain ⟨pre, m, post, hold, hmz, -, heq⟩ :=
    h.recordRegion hcount part.1 part.2 type
  rw [Rotary.recordPart, if_neg hcount, heq]
  unfold Bootmem.recorded
  rw [hold]
  exact recorded_slot hmz hz

/-- A part that begins at zero leaves no trace but in the counters. -/
theorem Slots.recorded_part_zero (h : Slots bm) {part : ℕ × ℕ} (hz : part.1 = 0) :
    (Rotary.recordPart type bm part).recorded = bm.recorded := by
  unfold Rotary.recordPart
  split
  · rfl
  · rename_i hcount
    obtain ⟨pre, m, post, hold, hmz, -, heq⟩ :=
      h.recordRegion hcount part.1 part.2 type
    rw [heq]
    unfold Bootmem.recorded
    rw [hold]
    exact recorded_slot_zero hmz hz

/-- A region on record stays on record. -/
theorem Slots.kept_part (h : Slots bm) (type : ℕ) (part : ℕ × ℕ) (hr : r ∈ bm.recorded) :
    r ∈ (Rotary.recordPart type bm part).recorded := by
  by_cases hz : part.1 = 0
  · rwa [h.recorded_part_zero hz]
  · by_cases hcount : bm.regionCount = maxMemRegions
    · rwa [Rotary.recordPart, if_pos hcount]
    · exact (h.recorded_part hcount type part hz).mem_iff.mpr (List.mem_cons_of_mem _ hr)

theorem Slots.kept_parts (h : Slots bm) (type : ℕ) (parts : List (ℕ × ℕ)) (hr : r ∈ bm.recorded) :
    r ∈ (parts.foldl (Rotary.recordPart type) bm).recorded := by
  induction parts generalizing bm with
  | nil => exact hr
  | cons part parts ih => exact ih (h.recordPart type part) (h.kept_part type part hr)

theorem Slots.regionCount_part (h : Slots bm) (hcount : bm.regionCount ≠ maxMemRegions)
    (type : ℕ) (part : ℕ × ℕ) : (Rotary.recordPart type bm part).regionCount = bm.regionCount + 1 := by
  obtain ⟨pre, m, post, -, -, -, heq⟩ :=
    h.recordRegion hcount part.1 part.2 type
  rw [Rotary.recordPart, if_neg hcount, heq]

theorem Slots.highestPfn_part (h : Slots bm) (hcount : bm.regionCount ≠ maxMemRegions)
    (type : ℕ) (part : ℕ × ℕ) :
    (Rotary.recordPart type bm part).highestPfn = max bm.highestPfn (paToPfn part.2) := by
  obtain ⟨pre, m, post, -, -, -, heq⟩ :=
    h.recordRegion hcount part.1 part.2 type
  rw [Rotary.recordPart, if_neg hcount, heq]

/-- **One part**: the counters still agree with the regions on record. -/
theorem Tallied.recordPart (h : Tallied bm) (hcount : bm.regionCount ≠ maxMemRegions)
    {part : ℕ × ℕ} (hz : part.1 ≠ 0) : Tallied (Rotary.recordPart type bm part) := by
  have hperm := h.toSlots.recorded_part hcount type part hz
  refine ⟨h.toSlots.recordPart type part, ?_, ?_⟩
  · rw [h.toSlots.regionCount_part hcount, hperm.length_eq, h.count, List.length_cons]
  · rw [h.toSlots.highestPfn_part hcount, (hperm.map _).foldr_eq 0, List.map_cons, List.foldr_cons,
      ← h.highest, paToPfn_eq]
    exact max_comm _ _

/-- **The parts of a region**, stored while the table has room. -/
theorem Slots.recorded_parts (h : Slots bm) (type : ℕ) {parts : List (ℕ × ℕ)}
    (hz : ∀ part ∈ parts, part.1 ≠ 0) (r : MemRegion) :
    r ∈ (parts.foldl (Rotary.recordPart type) bm).recorded ↔ r ∈ bm.recorded ∨
      ∃ part ∈ parts.take (maxMemRegions - bm.regionCount), r = ⟨part.1, part.2, part.1, type⟩ := by
  induction parts generalizing bm with
  | nil => simp
  | cons part parts ih =>
    have hrest : ∀ x ∈ parts, x.1 ≠ 0 := fun x hx => hz x (List.mem_cons_of_mem part hx)
    rw [List.foldl_cons, ih (h.recordPart type part) hrest]
    by_cases hcount : bm.regionCount = maxMemRegions
    · rw [Rotary.recordPart, if_pos hcount, hcount, Nat.sub_self, List.take_zero, List.take_zero]
    · have hle := h.count_le
      have hroom : maxMemRegions - bm.regionCount
          = maxMemRegions - (bm.regionCount + 1) + 1 := by omega
      rw [(h.recorded_part hcount type part (hz part List.mem_cons_self)).mem_iff, List.mem_cons,
        h.regionCount_part hcount, hroom, List.take_succ_cons, List.exists_mem_cons_iff]
      tauto

theorem Slots.regionCount_parts (h : Slots bm) (type : ℕ) (parts : List (ℕ × ℕ)) :
    (parts.foldl (Rotary.recordPart type) bm).regionCount
      = min maxMemRegions (bm.regionCount + parts.length) := by
  have hle := h.count_le
  induction parts generalizing bm with
  | nil => exact (min_eq_right hle).symm
  | cons part parts ih =>
    have hpart := h.recordPart type part
    rw [List.foldl_cons, ih hpart hpart.count_le, List.length_cons]
    by_cases hcount : bm.regionCount = maxMemRegions
    · rw [Rotary.recordPart, if_pos hcount]
      omega
    · rw [h.regionCount_part hcount]
      omega

/-- **All parts of a region**, if they fit. -/
theorem Tallied.recordParts (h : Tallied bm) (type : ℕ) {parts : List (ℕ × ℕ)}
    (hroom : bm.regionCount + parts.length ≤ maxMemRegions) (hz : ∀ part ∈ parts, part.1 ≠ 0) :
    Tallied (parts.foldl (Rotary.recordPart type) bm) := by
  induction parts generalizing bm with
  | nil => exact h
  | cons part parts ih =>
    rw [List.length_cons] at hroom
    have hcount : bm.regionCount ≠ maxMemRegions := by omega
    refine ih (h.recordPart hcount (hz part List.mem_cons_self)) ?_
      fun x hx => hz x (List.mem_cons_of_mem part hx)
    rw [h.toSlots.regionCount_part hcount]
    omega

theorem Slots.kept_call (h : Slots bm) (c : RegionArg) (hr : r ∈ bm.recorded) :
    r ∈ (c.call img bm).2.recorded := by
  by_cases hrefused : bm.regionCount = maxMemRegions ∨ c.Refused img
  · rwa [bootmemAddMemRegion_refused hrefused]
  · rw [not_or] at hrefused
    rw [bootmemAddMemRegion_accepted h hrefused.1 hrefused.2]
    exact h.kept_parts _ _ hr

/-! ### When no memory is lost -/

theorem KernelImage.not_overlaps {p : ℕ} (h : ¬ img.Overlaps p) :
    img.physStart = img.physEnd ∨ (p + 1) * 4096 ≤ img.physStart ∨ img.physEnd ≤ p * 4096 := by
  have hle := img.ordered
  by_contra hne
  rw [not_or, not_or] at hne
  exact h ⟨max img.physStart (p * 4096), ⟨le_max_left _ _, by omega⟩, by omega⟩

/-- The page behind the image does not meet it. -/
theorem KernelImage.not_overlaps_end : ¬ img.Overlaps (pageAlign img.physEnd / 4096) := by
  intro ⟨a, ha, hp⟩
  obtain ⟨-, hd, hle⟩ := pageAlign_le img.fits
  have hlt := ha.2
  omega

theorem le_pageAlign_of_ne (hlt : a < 2 ^ 32) (h : pageAlign a ≠ 0) : a ≤ pageAlign a := by
  by_cases hle : a ≤ 0xFFFFF000
  · exact (pageAlign_le hle).2.2
  · -- past the last page boundary, rounding up wraps to zero
    refine absurd ?_ h
    show u32 (a + 4095) &&& not32 (2 ^ 12 - 1) = 0
    rw [and_not32_two_pow (by decide) (u32_lt _)]
    unfold u32
    omega

theorem RegionArg.parts_cases (c : RegionArg) (img : KernelImage) :
    (∃ x, c.parts img = [x]) ∨
    pageAlign c.startAddr.toNat < pageAlign img.physStart ∧
      pageAlign img.physEnd < pageAlignDown c.endAddr.toNat ∧
      c.parts img = [(pageAlign c.startAddr.toNat, pageAlign img.physStart),
        (pageAlign img.physEnd, pageAlignDown c.endAddr.toNat)] := by
  unfold RegionArg.parts KernelImage.parts
  dsimp only
  split_ifs with h1 h2 h3
  · exact Or.inr ⟨h1.1, h1.2, rfl⟩
  · exact Or.inl ⟨_, rfl⟩
  · exact Or.inl ⟨_, rfl⟩
  · exact Or.inl ⟨_, rfl⟩

/-- The parts lie in the region. -/
theorem RegionArg.parts_within {part : ℕ × ℕ} (hpart : part ∈ c.parts img) :
    pageAlign c.startAddr.toNat ≤ part.1 ∧ part.2 ≤ pageAlignDown c.endAddr.toNat := by
  have hkk : pageAlign img.physStart ≤ pageAlign img.physEnd := pageAlign_mono img.ordered img.fits
  unfold RegionArg.parts KernelImage.parts at hpart
  dsimp only at hpart
  split_ifs at hpart with h1 h2 h3
  · rcases List.mem_pair.mp hpart with rfl | rfl
    · exact ⟨le_rfl, hkk.trans h1.2.le⟩
    · exact ⟨h1.1.le.trans hkk, le_rfl⟩
  · rw [List.mem_singleton.mp hpart]
    exact ⟨le_rfl, h2.2.le⟩
  · rw [List.mem_singleton.mp hpart]
    exact ⟨h3.1.le, le_rfl⟩
  · rw [List.mem_singleton.mp hpart]
    exact ⟨le_rfl, le_rfl⟩

/-- The parts are in order. -/
theorem RegionArg.parts_pairwise (c : RegionArg) (img : KernelImage) :
    (c.parts img).Pairwise fun x y => x.2 ≤ y.1 := by
  rcases c.parts_cases img with ⟨x, hx⟩ | ⟨-, -, hx⟩
  · rw [hx]
    exact List.pairwise_singleton _ _
  · rw [hx, List.pairwise_pair]
    exact pageAlign_mono img.ordered img.fits

/-- A part does not meet the image, unless it begins inside it and ends with it. -/
theorem RegionArg.parts_clear {part : ℕ × ℕ} (hc : ¬ c.Refused img) (hpart : part ∈ c.parts img) :
    4096 ∣ part.1 ∧ part.1 < part.2 ∧ (part.2 ≤ pageAlign img.physStart ∨
      pageAlign img.physEnd ≤ part.1 ∨
      pageAlign img.physStart ≤ part.1 ∧ part.2 = pageAlign img.physEnd) := by
  obtain ⟨-, hsd⟩ := pageAlign_bound c.startAddr.toNat
  obtain ⟨-, hked, -⟩ := pageAlign_le img.fits
  unfold RegionArg.Refused at hc
  rw [not_or, not_or] at hc
  obtain ⟨hin, -, hlt⟩ := hc
  unfold RegionArg.parts KernelImage.parts at hpart
  dsimp only at hpart
  split_ifs at hpart with h1 h2 h3
  · rcases List.mem_pair.mp hpart with rfl | rfl
    · exact ⟨hsd, h1.1, Or.inl le_rfl⟩
    · exact ⟨hked, h1.2, Or.inr (Or.inl le_rfl)⟩
  · rw [List.mem_singleton.mp hpart]
    exact ⟨hsd, h2.1, Or.inl le_rfl⟩
  · rw [List.mem_singleton.mp hpart]
    exact ⟨hked, h3.2, Or.inr (Or.inl le_rfl)⟩
  · rw [List.mem_singleton.mp hpart]
    refine ⟨hsd, Nat.lt_of_not_le hlt, ?_⟩
    dsimp only
    omega

/-- A page of the region that does not meet the image lies in one of the parts. -/
theorem RegionArg.parts_cover {p : ℕ} (hp : PageWithin c.startAddr.toNat c.endAddr.toNat p)
    (himg : ¬ img.Overlaps p) : ∃ part ∈ c.parts img, PageWithin part.1 part.2 p := by
  obtain ⟨hlo, hhi⟩ := hp
  have hend := c.endAddr.toNat_lt
  have hcarry : c.startAddr.toNat + 4095 < 2 ^ 32 := by omega
  have hround := pageAlign_eq hcarry
  have hs : pageAlign c.startAddr.toNat ≤ p * 4096 := by omega
  have he : (p + 1) * 4096 ≤ pageAlignDown c.endAddr.toNat := by
    rw [pageAlignDown_eq hend]
    omega
  have hfits := img.fits
  have hordered := img.ordered
  have hks := pageAlign_eq (a := img.physStart) (by omega)
  have hke := pageAlign_eq (a := img.physEnd) (by omega)
  -- before the image, behind it, or anywhere if it is empty
  have hcases : pageAlign img.physStart = pageAlign img.physEnd ∨
      (p + 1) * 4096 ≤ pageAlign img.physStart ∨ pageAlign img.physEnd ≤ p * 4096 := by
    rcases KernelImage.not_overlaps himg with h | h | h
    · exact Or.inl (by rw [h])
    · exact Or.inr (Or.inl (by omega))
    · exact Or.inr (Or.inr (by omega))
  clear hks hke
  obtain ⟨-, hksd, -⟩ := pageAlign_le (img.ordered.trans img.fits)
  unfold RegionArg.parts KernelImage.parts PageWithin
  generalize pageAlign c.startAddr.toNat = s at *
  generalize pageAlignDown c.endAddr.toNat = e at *
  generalize pageAlign img.physStart = ks at *
  generalize pageAlign img.physEnd = ke at *
  dsimp only
  split_ifs with h1 h2 h3
  · by_cases hbefore : (p + 1) * 4096 ≤ ks
    · exact ⟨(s, ks), by simp, hs, hbefore⟩
    · exact ⟨(ke, e), by simp, by show ke ≤ p * 4096; omega, he⟩
  · exact ⟨(s, ks), by simp, hs, by show (p + 1) * 4096 ≤ ks; omega⟩
  · exact ⟨(ke, e), by simp, by show ke ≤ p * 4096; omega, he⟩
  · exact ⟨(s, e), by simp, hs, he⟩

/-- **A region whose parts can all be stored** is not lost, and neither are the others. -/
theorem Tallied.losesNothing (h : Tallied bm) (hc : ¬ c.Refused img) (hstore : c.Storable img bm) :
    LosesNothing img bm (c.call img bm).2 c ∧ Tallied (c.call img bm).2 := by
  have hcount : bm.regionCount ≠ maxMemRegions := by
    have hpos : 0 < (c.parts img).length := by
      rcases c.parts_cases img with ⟨x, hx⟩ | ⟨-, -, hx⟩
      · rw [hx]
        exact Nat.zero_lt_one
      · rw [hx]
        exact Nat.zero_lt_two
    have hroom := hstore.1
    omega
  have htally := h.recordParts c.type.toNat hstore.1 hstore.2
  have hmem := h.toSlots.recorded_parts c.type.toNat hstore.2
  have hroom : (c.parts img).length ≤ maxMemRegions - bm.regionCount := by
    have hfits := hstore.1
    omega
  rw [List.take_of_length_le hroom] at hmem
  rw [bootmemAddMemRegion_accepted h.toSlots hcount hc]
  refine ⟨⟨fun p hp himg => ?_, fun r hr => (hmem r).mpr (Or.inl hr), htally.count,
    htally.highest⟩, htally⟩
  obtain ⟨part, hpart, hin⟩ := RegionArg.parts_cover hp himg
  exact ⟨⟨part.1, part.2, part.1, c.type.toNat⟩, (hmem _).mpr (Or.inr ⟨part, hpart, rfl⟩), rfl, hin⟩

/-- A part that begins at zero is counted, but not on record. -/
theorem Tallied.not_count_of_zero (h : Tallied bm) (hcount : bm.regionCount ≠ maxMemRegions)
    (type : ℕ) (part : ℕ × ℕ) (hz : part.1 = 0) :
    (Rotary.recordPart type bm part).regionCount
      = (Rotary.recordPart type bm part).recorded.length + 1 := by
  rw [h.toSlots.regionCount_part hcount, h.toSlots.recorded_part_zero hz, h.count]

/-- If nothing is lost by storing one part, the part does not begin at zero. -/
theorem Tallied.part_ne_zero (h : Tallied bm) (hcount : bm.regionCount ≠ maxMemRegions)
    {part : ℕ × ℕ} (hloses : LosesNothing img bm (Rotary.recordPart type bm part) c) :
    part.1 ≠ 0 := by
  intro hz
  have hextra := h.not_count_of_zero hcount type part hz
  have hcounted := hloses.count
  omega

/-- If there is no slot for the part behind the image, it is lost. -/
theorem Tallied.loses_second (h : Tallied bm) (type : ℕ)
    (hcount : bm.regionCount ≠ maxMemRegions)
    (happart : ∀ r ∈ bm.recorded, Disjoint r.span c.span)
    (hs : pageAlign c.startAddr.toNat < pageAlign img.physStart)
    (he : pageAlign img.physEnd < pageAlignDown c.endAddr.toNat) :
    ¬ LosesNothing img bm
      (Rotary.recordPart type bm (pageAlign c.startAddr.toNat, pageAlign img.physStart)) c := by
  intro hloses
  have hkk : pageAlign img.physStart ≤ pageAlign img.physEnd := pageAlign_mono img.ordered img.fits
  have hz : pageAlign c.startAddr.toNat ≠ 0 := h.part_ne_zero hcount hloses
  obtain ⟨-, hked, -⟩ := pageAlign_le img.fits
  obtain ⟨-, hed⟩ := pageAlignDown_le c.endAddr.toNat_lt
  have hstart := le_pageAlign_of_ne c.startAddr.toNat_lt hz
  have hend : pageAlignDown c.endAddr.toNat ≤ c.endAddr.toNat := by
    rw [pageAlignDown_eq c.endAddr.toNat_lt]
    omega
  have hpage : PageWithin c.startAddr.toNat c.endAddr.toNat (pageAlign img.physEnd / 4096) := by
    unfold PageWithin
    omega
  obtain ⟨r, hr, -, hlo, hhi⟩ := hloses.covered _ hpage img.not_overlaps_end
  rw [(h.toSlots.recorded_part hcount type
    (pageAlign c.startAddr.toNat, pageAlign img.physStart) hz).mem_iff, List.mem_cons] at hr
  rcases hr with rfl | hr
  · have hbefore : (pageAlign img.physEnd / 4096 + 1) * 4096 ≤ pageAlign img.physStart := hhi
    omega
  · -- the first page behind the image, in a region on record and in the one of the call
    have hold : pageAlign img.physEnd ∈ r.span := ⟨by omega, by omega⟩
    have hnew : pageAlign img.physEnd ∈ c.span := ⟨by omega, he⟩
    exact Set.disjoint_left.mp (happart r hr) hold hnew

/-- **Conversely**, a call that loses nothing has stored all parts of its region, the regions on
    record lying apart from it. -/
theorem Tallied.storable (h : Tallied bm) (hcount : bm.regionCount ≠ maxMemRegions)
    (hc : ¬ c.Refused img) (happart : ∀ r ∈ bm.recorded, Disjoint r.span c.span)
    (hloses : LosesNothing img bm (c.call img bm).2 c) : c.Storable img bm := by
  have hle := h.count_le
  rw [bootmemAddMemRegion_accepted h.toSlots hcount hc] at hloses
  dsimp only at hloses
  unfold RegionArg.Storable
  rcases c.parts_cases img with ⟨x, hx⟩ | ⟨hs, he, hx⟩
  · rw [hx] at hloses ⊢
    refine ⟨Nat.succ_le_of_lt (lt_of_le_of_ne hle hcount), fun part hpart => ?_⟩
    rw [List.mem_singleton.mp hpart]
    exact h.part_ne_zero hcount hloses
  · rw [hx] at hloses ⊢
    have hlost := h.loses_second c.type.toNat hcount happart hs he
    rw [List.foldl_cons, List.foldl_cons, List.foldl_nil] at hloses
    have hslots := h.toSlots.recordPart c.type.toNat
      (pageAlign c.startAddr.toNat, pageAlign img.physStart)
    have hcount₁ := h.toSlots.regionCount_part hcount c.type.toNat
      (pageAlign c.startAddr.toNat, pageAlign img.physStart)
    have hke : pageAlign img.physEnd ≠ 0 := by
      have hkk := pageAlign_mono img.ordered img.fits
      omega
    by_cases hfull : bm.regionCount + 1 = maxMemRegions
    · -- no slot is left for the part behind the image
      have hsecond : Rotary.recordPart c.type.toNat
          (Rotary.recordPart c.type.toNat bm
            (pageAlign c.startAddr.toNat, pageAlign img.physStart))
          (pageAlign img.physEnd, pageAlignDown c.endAddr.toNat)
          = Rotary.recordPart c.type.toNat bm
            (pageAlign c.startAddr.toNat, pageAlign img.physStart) :=
        if_pos (hcount₁.trans hfull)
      rw [hsecond] at hloses
      exact absurd hloses hlost
    · generalize pageAlign c.startAddr.toNat = s at *
      have hroom : (Rotary.recordPart c.type.toNat bm (s, pageAlign img.physStart)).regionCount
          ≠ maxMemRegions := by omega
      have hsecond := hslots.recorded_part hroom c.type.toNat
        (pageAlign img.physEnd, pageAlignDown c.endAddr.toNat) hke
      have hcount₂ := hslots.regionCount_part hroom c.type.toNat
        (pageAlign img.physEnd, pageAlignDown c.endAddr.toNat)
      have hs0 : s ≠ 0 := by
        intro hz
        have hextra := h.not_count_of_zero hcount c.type.toNat
          (s, pageAlign img.physStart) hz
        have hcounted := hloses.count
        rw [hcount₂, hsecond.length_eq, List.length_cons] at hcounted
        omega
      refine ⟨?_, fun part hpart => ?_⟩
      · show bm.regionCount + 2 ≤ maxMemRegions
        omega
      · rcases List.mem_pair.mp hpart with rfl | rfl
        · exact hs0
        · exact hke

/-! ### Whole sequences of calls -/

/-- No call of the sequence that succeeds loses memory. -/
def NoneLost (img : KernelImage) (calls : List RegionArg) : Prop :=
  ∀ pre c post, calls = pre ++ c :: post →
    (c.call img (registerAll img bootmemReset pre)).1 = .success →
    LosesNothing img (registerAll img bootmemReset pre)
      (registerAll img bootmemReset (pre ++ [c])) c

/-- Every call that is not refused finds room for the parts of its region, none of which begins
    at address zero. -/
def AllStorable (img : KernelImage) (calls : List RegionArg) : Prop :=
  ∀ pre c post, calls = pre ++ c :: post → ¬ c.Refused img →
    (registerAll img bootmemReset pre).regionCount ≠ maxMemRegions →
    c.Storable img (registerAll img bootmemReset pre)

theorem registerAll_concat (pre : List RegionArg) (c : RegionArg) :
    registerAll img bm (pre ++ [c]) = (c.call img (registerAll img bm pre)).2 :=
  List.foldl_concat _ _ _ _

/-- The table stays tallied if every call that is not refused keeps it so. -/
theorem registerAll_tallied (hstep : ∀ pre c post, calls = pre ++ c :: post →
      (registerAll img bootmemReset pre).regionCount ≠ maxMemRegions → ¬ c.Refused img →
      Tallied (registerAll img bootmemReset pre) →
      Tallied (c.call img (registerAll img bootmemReset pre)).2)
    (pre post : List RegionArg) (hcalls : calls = pre ++ post) :
    Tallied (registerAll img bootmemReset pre) := by
  induction pre using List.reverseRecOn generalizing post with
  | nil => exact Tallied.reset
  | append_singleton pre c ih =>
    rw [List.append_assoc] at hcalls
    have hpre := ih _ hcalls
    rw [registerAll_concat]
    by_cases hrefused : (registerAll img bootmemReset pre).regionCount = maxMemRegions ∨
        c.Refused img
    · rw [bootmemAddMemRegion_refused hrefused]
      exact hpre
    · rw [not_or] at hrefused
      exact hstep pre c post hcalls hrefused.1 hrefused.2 hpre

theorem AllStorable.tallied (h : AllStorable img calls) (pre post : List RegionArg)
    (hcalls : calls = pre ++ post) : Tallied (registerAll img bootmemReset pre) :=
  registerAll_tallied (fun pre c post hcalls hcount hc hpre =>
    (hpre.losesNothing hc (h pre c post hcalls hc hcount)).2) pre post hcalls

theorem NoneLost.tallied (h : NoneLost img calls) (pre post : List RegionArg)
    (hcalls : calls = pre ++ post) : Tallied (registerAll img bootmemReset pre) := by
  refine registerAll_tallied (fun pre c post hcalls hcount hc hpre => ?_) pre post hcalls
  have hcall := bootmemAddMemRegion_accepted hpre.toSlots hcount hc
  have hloses := h pre c post hcalls (by rw [hcall])
  rw [registerAll_concat] at hloses
  exact ⟨hpre.toSlots.addMemRegion c, hloses.count, hloses.highest⟩

/-- What is on record came from the calls so far. -/
theorem registerAll_apart {pre post : List RegionArg}
    (hdis : (pre ++ c :: post).Pairwise fun c c' => Disjoint c.span c'.span) :
    ∀ r ∈ (registerAll img bootmemReset pre).recorded, Disjoint r.span c.span := by
  intro r hr
  obtain ⟨hmem, hne⟩ := List.mem_filter.mp hr
  rcases registerAll_mem hmem with hold | ⟨c', hc', hnew⟩
  · rw [bootmemReset_mem hold] at hne
    exact absurd hne (by decide)
  · have hcross := (List.pairwise_append.mp hdis).2.2 c' hc' c List.mem_cons_self
    exact hcross.mono_left (Set.Ico_subset_Ico hnew.start_le hnew.end_le)

/-- **When registering loses no memory.**  For disjoint regions, every successful call covers the
    pages of its region, keeps the regions on record and counts them rightly, exactly if every
    region that is not refused fits into the table and no part of one begins at address zero. -/
theorem noneLost_iff (img : KernelImage) {calls : List RegionArg}
    (hdis : calls.Pairwise fun c c' => Disjoint c.span c'.span) :
    NoneLost img calls ↔ AllStorable img calls := by
  constructor
  · intro h pre c post hcalls hc hcount
    have hpre := h.tallied pre (c :: post) hcalls
    have hloses := h pre c post hcalls
      (by rw [bootmemAddMemRegion_accepted hpre.toSlots hcount hc])
    rw [registerAll_concat] at hloses
    rw [hcalls] at hdis
    exact hpre.storable hcount hc (registerAll_apart hdis) hloses
  · intro h pre c post hcalls hsuccess
    have hpre := h.tallied pre (c :: post) hcalls
    rw [registerAll_concat]
    by_cases hrefused : (registerAll img bootmemReset pre).regionCount = maxMemRegions ∨
        c.Refused img
    · rw [bootmemAddMemRegion_refused hrefused] at hsuccess
      cases hsuccess
    · rw [not_or] at hrefused
      exact (hpre.losesNothing hrefused.2 (h pre c post hcalls hrefused.2 hrefused.1)).1

/-- A region around the image, in two parts. -/
theorem noneLost_iff_split : NoneLost lowImage [⟨0x80000, 0x300000, 1⟩] := by
  refine (noneLost_iff lowImage (List.pairwise_singleton _ _)).mpr ?_
  intro pre c post hcalls _ _
  rcases pre with _ | ⟨x, pre⟩
  · obtain ⟨rfl, -⟩ := List.cons.inj hcalls
    unfold RegionArg.Storable
    decide +kernel
  · simp at hcalls

/-- A map whose first region begins at address zero. -/
def fromZero : List RegionArg := [⟨0, 0x9F000, 1⟩, ⟨0x200000, 0x300000, 1⟩]

/-- **A region at address zero is overwritten** by the next one: its slot still looks free. -/
theorem region_lost :
    ¬ ∀ (img : KernelImage) (calls : List RegionArg),
      (∀ c ∈ calls, 4096 ∣ c.startAddr.toNat ∧ 4096 ∣ c.endAddr.toNat ∧
        (c.type.toNat = memRegionReserved ∨ c.type.toNat = memRegionAvailable)) →
      (calls.Pairwise fun c c' => Disjoint c.span c'.span) → NoneLost img calls := by
  intro h
  have hdis : fromZero.Pairwise fun c c' => Disjoint c.span c'.span := by
    rw [fromZero, List.pairwise_pair]
    unfold RegionArg.span
    rw [Set.Ico_disjoint_Ico]
    decide
  have hloses := h lowImage fromZero (by decide) hdis [⟨0, 0x9F000, 1⟩] ⟨0x200000, 0x300000, 1⟩ []
    rfl (by decide +kernel)
  exact absurd hloses.count (by decide +kernel)

end Rotary
