import Rotary.Mm.PallocRun
import Rotary.Mm.Ptable
import Rotary.Mm.Slab

namespace Rotary

open Lib

/-!
# Virtual address spaces (`kernel/mm/vm.c`)

An address space owns the page of its directory, the pages of its user tables and the pages
handed to it on faults; the page table itself is the only record of them.

`kmalloc` and `kfree` of the `struct vm_space` appear by their results.  `kmalloc` asks
`page_alloc` for at most one block, when every slab of its cache is full, and `kfree` gives no
page back.

* `pgdPages` — the pages `ptable_pgd_free` frees, in its order;
* `VmState.Inv` — these pages are distinct, and they are what was allocated since
  `vm_space_new`;
* `Inv.pageFault` — a fault on a page that is not mapped yet keeps the invariant;
* `Inv.destroy` — `vm_space_destroy` gives every one of them back.

No function here reads the flags of a mapping.  Left out: `users` of a space, and `space` of a
mapping.
-/

/-- `struct vm_map`: the range of addresses, and what may be done there. -/
structure VmMap where
  startAddr : ℕ
  endAddr : ℕ
  flags : BitVec 32
  deriving DecidableEq, Repr

/-- `struct vm_space`: `pgd` is a physical address. -/
structure VmSpace where
  pgd : ℕ
  mappings : List VmMap
  deriving DecidableEq, Repr

/-- The frame of the directory. -/
def VmSpace.pgdFrame (space : VmSpace) : ℕ := paToPfn space.pgd

/-- What the calls on one address space work on. -/
structure VmState where
  mem : PhysMem
  buddy : BuddyAllocator
  space : VmSpace

/-- `page_alloc(0, PR_KERNEL)`. -/
def allocPage (s : BuddyAllocator) : Option ℕ × BuddyAllocator := pageAlloc s 0

/-- `page_free(page_from_pfn(pfn), 0)`. -/
def freePage (img : KernelImage) (s : BuddyAllocator) (pfn : ℕ) : BuddyAllocator :=
  (pageFree img s (some (pageFromPfn pfn)) 0).2

/-- What `kmalloc` leaves of the page allocator; `slab` tells whether it has asked for a slab. -/
def kmallocPages (s : BuddyAllocator) (slab : Bool) : BuddyAllocator :=
  if slab then (pageAlloc s slabDefaultOrder).2 else s

/-- `vm_space_new`, for `kmalloc` returning `vms`; a null result leaves no space. -/
def vmSpaceNew (mem : PhysMem) (s : BuddyAllocator) (kernelPgd : ℕ) (slab : Bool) (vms : ℕ) :
    Option (PhysMem × BuddyAllocator × Option VmSpace) :=
  let s := kmallocPages s slab
  if vms = 0 then some (mem, s, none)
  else
    (ptablePgdNew allocPage mem s kernelPgd).map fun (pgd, mem, s) =>
      (mem, s, some ⟨virToPhy (pageVa pgd), []⟩)

/-- `vm_space_add_map`: `llist_add` puts the mapping in front. -/
def vmSpaceAddMap (space : VmSpace) (map : VmMap) : VmSpace :=
  { space with mappings := map :: space.mappings }

/-- `vm_space_map_page`; `none` when `ptable_map` dereferences a null page. -/
def vmSpaceMapPage (st : VmState) (addr : ℕ) : Option (Status × VmState) :=
  match allocPage st.buddy with
  | (none, s) => some (.error, { st with buddy := s })
  | (some newPage, s) =>
    (ptableMap allocPage st.mem s st.space.pgdFrame addr (pfnToPa newPage) 0x00).map
      fun (mem, s) => (.success, { st with mem := mem, buddy := s })

/-- `fault_addr >= map->start_addr && fault_addr < map->end_addr`. -/
def VmMap.contains (map : VmMap) (addr : ℕ) : Bool :=
  decide (map.startAddr ≤ addr ∧ addr < map.endAddr)

/-- `vm_space_page_fault`. -/
def vmSpacePageFault (st : VmState) (faultAddr : ℕ) : Option (Status × VmState) :=
  match st.space.mappings.find? fun map => map.contains faultAddr with
  | some _ => vmSpaceMapPage st faultAddr
  | none => some (.error, st)

/-- `vm_space_destroy`: what is left of the page allocator. -/
def vmSpaceDestroy (img : KernelImage) (st : VmState) : BuddyAllocator :=
  ptablePgdFree (freePage img) st.mem st.buddy st.space.pgdFrame

/-! ### The pages of a directory -/

/-- The page behind an entry of a table, if it is there. -/
def ptePages (pte : BitVec 32) : List ℕ := if entryExists pte then [frameOf pte] else []

/-- The pages of the table in `frame`. -/
def pgtPages (mem : PhysMem) (frame : ℕ) : List ℕ :=
  (List.range pageTableSize).flatMap fun i => ptePages (mem frame i)

/-- The pages below an entry of a directory. -/
def pdePages (mem : PhysMem) (pde : BitVec 32) : List ℕ :=
  if entryExists pde then (if pdeIsHuge pde then [] else pgtPages mem (frameOf pde)) ++ [frameOf pde]
  else []

/-- The pages `ptable_pgd_free` frees, in its order. -/
def pgdPages (mem : PhysMem) (pgd : ℕ) : List ℕ :=
  ((List.range kernelPdeStart).flatMap fun i => pdePages mem (mem pgd i)) ++ [pgd]

variable {n pgd p q page va addr : ℕ} {mem mem' : PhysMem} {s s' : BuddyAllocator}
  {img : KernelImage} {L L₀ : Live} {S : Set ℕ} {ps ps' : List ℕ} {st st' : VmState}

theorem pageFreeVa_entry {σ : Type} (free : σ → ℕ → σ) (s : σ) (e : BitVec 32) :
    pageFreeVa free s (phyToVir (pageFrame e)) = free s (frameOf e) := by
  unfold pageFreeVa
  rw [virToPhy_phyToVir]
  · rfl
  · rw [pageFrame_eq]
    have := e.isLt
    omega

theorem ptablePgtFree_eq {σ : Type} (free : σ → ℕ → σ) (mem : PhysMem) (s : σ) (frame : ℕ) :
    ptablePgtFree free mem s frame = (pgtPages mem frame).foldl free s := by
  unfold ptablePgtFree pgtPages
  rw [List.foldl_flatMap]
  congr 1
  funext s i
  unfold ptePages
  dsimp only
  cases entryExists (mem frame i) with
  | false => rfl
  | true => exact pageFreeVa_entry free s _

/-- **`ptable_pgd_free`** frees the pages of the directory, one after the other. -/
theorem ptablePgdFree_eq {σ : Type} (free : σ → ℕ → σ) (mem : PhysMem) (s : σ)
    (hp : pgd < 2 ^ 20) : ptablePgdFree free mem s pgd = (pgdPages mem pgd).foldl free s := by
  unfold ptablePgdFree pgdPages
  have hpa : pfnToPa pgd = pgd * 4096 := u32_of_lt (by unfold pageSize; omega)
  have hlast : ∀ s, pageFreeVa free s (phyToVir (pfnToPa pgd)) = free s pgd := by
    intro s
    unfold pageFreeVa
    rw [virToPhy_phyToVir (by omega), hpa, paToPfn_eq, Nat.mul_div_cancel _ (by decide)]
  have hbody : (fun (s : σ) i => if (!entryExists (mem pgd i)) = true then s else
      pageFreeVa free (if pdeIsHuge (mem pgd i) = true then s else
        ptablePgtFree free mem s (frameOf (mem pgd i))) (phyToVir (pageFrame (mem pgd i)))) =
      fun s i => (pdePages mem (mem pgd i)).foldl free s := by
    funext s i
    unfold pdePages
    cases hex : entryExists (mem pgd i) with
    | false => rfl
    | true =>
      cases hhuge : pdeIsHuge (mem pgd i) with
      | true => exact pageFreeVa_entry free s _
      | false =>
        simp only [Bool.not_true, Bool.false_eq_true, if_false, if_true, List.foldl_append,
          List.foldl_cons, List.foldl_nil, ptablePgtFree_eq, pageFreeVa_entry]
  rw [List.foldl_append, List.foldl_flatMap]
  dsimp only
  rw [hlast, hbody]
  rfl

/-! ### Changing one entry -/

/-- The pages of a list of entries after one of them has got `extra` more. -/
theorem flatMap_perm_of_change {l extra : List ℕ} {g g' : ℕ → List ℕ} {d : ℕ} (hnd : l.Nodup)
    (hd : d ∈ l) (hother : ∀ i ∈ l, i ≠ d → g' i = g i) (hat : (g' d).Perm (extra ++ g d)) :
    (l.flatMap g').Perm (extra ++ l.flatMap g) := by
  induction l with
  | nil => simp at hd
  | cons i l ih =>
    obtain ⟨hi, hnd'⟩ := List.nodup_cons.mp hnd
    simp only [List.flatMap_cons]
    by_cases hid : i = d
    · subst hid
      have htail : l.flatMap g' = l.flatMap g := by
        apply List.flatMap_congr
        intro j hj
        exact hother j (List.mem_cons_of_mem i hj) fun heq => hi (heq ▸ hj)
      rw [htail, ← List.append_assoc]
      exact hat.append_right _
    · have htail := ih hnd' ((List.mem_cons.mp hd).resolve_left fun heq => hid heq.symm)
        fun j hj => hother j (List.mem_cons_of_mem i hj)
      rw [hother i List.mem_cons_self hid]
      apply (htail.append_left (g i)).trans
      rw [← List.append_assoc, ← List.append_assoc]
      exact List.perm_append_comm.append_right _

theorem frameOf_mem_pdePages {pde : BitVec 32} (hex : entryExists pde = true) :
    frameOf pde ∈ pdePages mem pde := by
  unfold pdePages
  simp [hex]

theorem pdePages_subset {i : ℕ} (hi : i < kernelPdeStart) :
    pdePages mem (mem pgd i) ⊆ pgdPages mem pgd := by
  intro p hp
  refine List.mem_append_left _ (List.mem_flatMap.mpr ⟨i, List.mem_range.mpr hi, hp⟩)

/-- The tables of distinct pages lie in frames of their own. -/
theorem tables_apart (hnd : (pgdPages mem pgd).Nodup) {i : ℕ} (hi : i < kernelPdeStart)
    (hex : entryExists (mem pgd i) = true) :
    frameOf (mem pgd i) ≠ pgd ∧ ∀ j < kernelPdeStart, j ≠ i →
      entryExists (mem pgd j) = true → frameOf (mem pgd j) ≠ frameOf (mem pgd i) := by
  obtain ⟨hbelow, -, hdir⟩ := List.nodup_append.mp hnd
  obtain ⟨-, hpairs⟩ := List.nodup_flatMap.mp hbelow
  have hsymm : Std.Symm (Function.onFun List.Disjoint fun i => pdePages mem (mem pgd i)) :=
    ⟨fun _ _ h => h.symm⟩
  refine ⟨?_, ?_⟩
  · exact hdir _ (List.mem_flatMap.mpr ⟨i, List.mem_range.mpr hi, frameOf_mem_pdePages hex⟩) pgd
      List.mem_cons_self
  · intro j hj hji hexj heq
    have hdisj : List.Disjoint (pdePages mem (mem pgd j)) (pdePages mem (mem pgd i)) :=
      hpairs.forall (List.mem_range.mpr hj) (List.mem_range.mpr hi) hji
    exact hdisj (frameOf_mem_pdePages hexj) (heq ▸ frameOf_mem_pdePages hex)

theorem pgtPages_congr {f : ℕ} (heq : mem' f = mem f) : pgtPages mem' f = pgtPages mem f := by
  unfold pgtPages
  rw [heq]

theorem pdePages_congr {pde : BitVec 32}
    (heq : entryExists pde = true → mem' (frameOf pde) = mem (frameOf pde)) :
    pdePages mem' pde = pdePages mem pde := by
  unfold pdePages
  by_cases hex : entryExists pde = true
  · rw [pgtPages_congr (heq hex)]
  · rw [if_neg hex, if_neg hex]

/-- More pages below one entry are more pages of the directory. -/
theorem pgdPages_perm {d : ℕ} {extra : List ℕ} (hd : d < kernelPdeStart)
    (hother : ∀ i < kernelPdeStart, i ≠ d →
      pdePages mem' (mem' pgd i) = pdePages mem (mem pgd i))
    (hat : (pdePages mem' (mem' pgd d)).Perm (extra ++ pdePages mem (mem pgd d))) :
    (pgdPages mem' pgd).Perm (extra ++ pgdPages mem pgd) := by
  unfold pgdPages
  rw [← List.append_assoc]
  apply List.Perm.append_right [pgd]
  exact flatMap_perm_of_change List.nodup_range (List.mem_range.mpr hd)
    (fun i hi => hother i (List.mem_range.mp hi)) hat

/-- **A page in an empty place of a table** is one more page of the directory. -/
theorem pgdPages_store {d t : ℕ} {v : BitVec 32} (hnd : (pgdPages mem pgd).Nodup)
    (hd : d < kernelPdeStart) (hex : entryExists (mem pgd d) = true)
    (hsmall : pdeIsHuge (mem pgd d) = false) (ht : t < pageTableSize)
    (habsent : entryExists (mem (frameOf (mem pgd d)) t) = false) (hv : entryExists v = true) :
    (pgdPages (setWord mem (frameOf (mem pgd d)) t v) pgd).Perm
      (frameOf v :: pgdPages mem pgd) := by
  obtain ⟨hdir, hapart⟩ := tables_apart hnd hd hex
  have hkeep : ∀ f, f ≠ frameOf (mem pgd d) → setWord mem (frameOf (mem pgd d)) t v f = mem f :=
    fun f hf => Function.update_of_ne hf _ _
  have htable : (pgtPages (setWord mem (frameOf (mem pgd d)) t v) (frameOf (mem pgd d))).Perm
      ([frameOf v] ++ pgtPages mem (frameOf (mem pgd d))) := by
    refine flatMap_perm_of_change List.nodup_range (List.mem_range.mpr ht) ?_ ?_
    · intro i _ hit
      rw [setWord_of_ne mem v fun heq => hit heq.2]
    · rw [setWord_self, ptePages, ptePages, hv, habsent]
      exact List.Perm.refl _
  rw [← List.singleton_append]
  refine pgdPages_perm (d := d) hd ?_ ?_
  · intro i hi hid
    rw [hkeep pgd hdir.symm]
    exact pdePages_congr fun hexi => hkeep _ (hapart i hi hid hexi)
  · rw [hkeep pgd hdir.symm]
    unfold pdePages
    simp only [hex, hsmall, if_true, Bool.false_eq_true, if_false]
    rw [← List.append_assoc]
    exact htable.append_right _

/-- **A new table** is one more page of the directory. -/
theorem pgdPages_add_table {d : ℕ} (hnd : (pgdPages mem pgd).Nodup) (hd : d < kernelPdeStart)
    (habsent : entryExists (mem pgd d) = false) (hq : q < 2 ^ 20) (hnew : q ∉ pgdPages mem pgd) :
    (pgdPages (setWord (clearFrame mem q) pgd d (newPde q)) pgd).Perm
      (q :: pgdPages mem pgd) := by
  obtain ⟨hex, hsmall, hframe, -, -⟩ := newPde_spec hq
  have hqp : q ≠ pgd := fun heq => hnew (heq ▸ List.mem_append_right _ List.mem_cons_self)
  have hdirq : clearFrame mem q pgd = mem pgd := Function.update_of_ne hqp.symm _ _
  have hword : ∀ i, i ≠ d → setWord (clearFrame mem q) pgd d (newPde q) pgd i = mem pgd i := by
    intro i hi
    rw [setWord_of_ne _ _ fun heq => hi heq.2, hdirq]
  rw [← List.singleton_append]
  refine pgdPages_perm (d := d) hd ?_ ?_
  · intro i hi hid
    rw [hword i hid]
    apply pdePages_congr
    intro hexi
    obtain ⟨hdir, -⟩ := tables_apart hnd hi hexi
    -- the page was not in use, so that clearing it changes no table
    have hneq : frameOf (mem pgd i) ≠ q := fun heq =>
      hnew (heq ▸ pdePages_subset hi (frameOf_mem_pdePages hexi))
    show Function.update (clearFrame mem q) pgd _ _ = _
    rw [Function.update_of_ne hdir]
    exact Function.update_of_ne hneq _ _
  · have hempty : pgtPages (setWord (clearFrame mem q) pgd d (newPde q)) q = [] := by
      apply List.flatMap_eq_nil_iff.mpr
      intro i _
      rw [setWord_of_ne _ _ fun heq => hqp heq.1]
      simp [clearFrame, ptePages, entryExists, testFlag]
    rw [setWord_self]
    unfold pdePages
    simp only [hex, hsmall, habsent, hframe, hempty, if_true, Bool.false_eq_true, if_false,
      List.nil_append, List.append_nil]
    exact List.Perm.refl _

/-! ### Ownership -/

/-- The blocks handed out, when the pages `ps` are single pages of one reference and all else is
    as in `L₀`. -/
def Live.withPages (L₀ : Live) (ps : List ℕ) : Live := fun p =>
  if p ∈ ps then some ⟨0, 1⟩ else L₀ p

theorem Live.withPages_nil (L₀ : Live) : L₀.withPages [] = L₀ := by
  funext p
  simp [Live.withPages]

theorem Live.withPages_perm (h : ps.Perm ps') : L₀.withPages ps = L₀.withPages ps' := by
  funext p
  simp only [Live.withPages, h.mem_iff]

theorem Live.withPages_cons (L₀ : Live) (p : ℕ) (ps : List ℕ) :
    L₀.withPages (p :: ps) = Function.update (L₀.withPages ps) p (some ⟨0, 1⟩) := by
  funext q
  by_cases hq : q = p
  · simp [Live.withPages, hq]
  · simp [Live.withPages, hq]

theorem Live.withPages_of_mem (L₀ : Live) (h : p ∈ ps) : L₀.withPages ps p = some ⟨0, 1⟩ := by
  unfold Live.withPages
  rw [if_pos h]

theorem Live.withPages_of_not_mem (L₀ : Live) (h : p ∉ ps) : L₀.withPages ps p = L₀ p := by
  unfold Live.withPages
  rw [if_neg h]

theorem Live.withPages_none (h : L₀.withPages ps p = none) : p ∉ ps ∧ L₀ p = none := by
  unfold Live.withPages at h
  split at h
  · cases h
  · exact ⟨‹_›, h⟩

/-- Giving a page back that nothing else holds. -/
theorem Live.withPages_erase (hp : p ∉ ps) (h₀ : L₀ p = none) :
    Function.update (L₀.withPages (p :: ps)) p none = L₀.withPages ps := by
  funext q
  by_cases hq : q = p
  · subst hq
    simp [Live.withPages, hp, h₀]
  · simp [Live.withPages, hq]

/-- Giving back, one by one, distinct pages that nothing else holds. -/
theorem freeAll_spec (hbelow : BuddiesBelow n S) (himg : ∀ p ∈ S, OutsideImage img p)
    (h : Running n (s, L₀.withPages ps) S) (hnd : ps.Nodup) (h₀ : ∀ p ∈ ps, L₀ p = none) :
    Running n (ps.foldl (freePage img) s, L₀) S := by
  induction ps generalizing s with
  | nil => rwa [Live.withPages_nil] at h
  | cons p ps ih =>
    obtain ⟨hp, hnd'⟩ := List.nodup_cons.mp hnd
    obtain ⟨⟨F, hs⟩, hlog⟩ := h
    have hlive := Live.withPages_of_mem L₀ (List.mem_cons_self (a := p) (l := ps))
    have hpS : p ∈ S := hs.core.live_mem hlive
    have hcrit := hs.core.not_critical (hs.core.inRange p hpS) (himg p hpS)
    obtain ⟨-, ⟨F', hs'⟩, hlog'⟩ := pageFree_last hs hlive hcrit
      (.of_buddiesBelow hbelow Set.sdiff_subset)
    rw [Live.withPages_erase hp (h₀ p List.mem_cons_self)] at hs'
    exact ih ⟨⟨F', hs'⟩, fun i hi => (hlog' i hi).elim (hlog i) id⟩ hnd'
      fun q hq => h₀ q (List.mem_cons_of_mem p hq)

/-- Single pages held beside `L₀` lie in no block of `L₀`. -/
theorem Running.owned (h : Running n (s, L₀.withPages ps) S) (h₀ : ∀ p ∈ ps, L₀ p = none)
    (hp : p ∈ ps) : p < n ∧ p ∈ S \ cover (liveBlocks L₀) := by
  obtain ⟨⟨F, hs⟩, -⟩ := h
  have hlive := Live.withPages_of_mem L₀ hp
  have hpS := hs.core.live_mem hlive
  refine ⟨hs.core.inRange p hpS, hpS, fun hcov => ?_⟩
  obtain ⟨⟨b, k⟩, ⟨r, hb⟩, hpb⟩ := Set.mem_iUnion₂.mp hcov
  have hbp : b ∉ ps := fun hmem => by
    have hnone := h₀ b hmem
    simp [hnone] at hb
  have hother := (Live.withPages_of_not_mem L₀ hbp).trans hb
  have heq := hs.core.tiling.eq_of_mem (b := (b, k)) (c := (p, 0)) (Or.inr ⟨r, hother⟩)
    (Or.inr ⟨1, hlive⟩) hpb (self_mem_block p 0)
  exact hbp ((Prod.mk.inj heq).1 ▸ hp)

/-- What holds of an address space between two calls: the pages of its directory are distinct,
    they are allocated, and without them the allocator stands as in `L₀`. -/
structure VmState.Inv (n : ℕ) (S : Set ℕ) (L₀ : Live) (st : VmState) : Prop where
  running : Running n (st.buddy, L₀.withPages (pgdPages st.mem st.space.pgdFrame)) S
  nodup : (pgdPages st.mem st.space.pgdFrame).Nodup
  fresh : ∀ p ∈ pgdPages st.mem st.space.pgdFrame, L₀ p = none
  small : ∀ i < kernelPdeStart, entryExists (st.mem st.space.pgdFrame i) = true →
    pdeIsHuge (st.mem st.space.pgdFrame i) = false
  below : ∀ map ∈ st.space.mappings, map.endAddr ≤ kernelStartVirt

/-- A page that has just been allocated is new to the directory. -/
theorem alloc_withPages (hn : n ≤ 2 ^ 20) (h : Running n (s, L₀.withPages ps) S) :
    allocPage s = (none, s) ∨ ∃ t s', allocPage s = (some t, s') ∧ t ∉ ps ∧ L₀ t = none ∧
      t < 2 ^ 20 ∧ Running n (s', L₀.withPages (t :: ps)) S := by
  rcases h.alloc_cases 0 with heq | ⟨t, s', heq, hnone, htn, -, -, h'⟩
  · exact Or.inl heq
  · obtain ⟨hps, h₀⟩ := Live.withPages_none hnone
    rw [← Live.withPages_cons] at h'
    exact Or.inr ⟨t, s', heq, hps, h₀, Nat.lt_of_lt_of_le htn hn, h'⟩

/-- The entry for a page just allocated. -/
theorem frameOf_mapEntry (hp : page < 2 ^ 20) (flags : BitVec 32) :
    frameOf (mapEntry (pfnToPa page) flags) = page := by
  have hpa : pfnToPa page = page * 4096 := u32_of_lt (by unfold pageSize; omega)
  rw [mapEntry_eq, frameOf_makeEntry, hpa, u32_of_lt (by omega)]
  omega

/-! ### Faults -/

/-- No page is mapped at the address: `ptable_get_pte` finds no entry, or one that is not
    present. -/
def NotMapped (mem : PhysMem) (pgd va : ℕ) : Prop :=
  ∀ f i, ptableGetPte mem pgd va = some (f, i) → entryExists (mem f i) = false

theorem pageTableIndex_lt_size (va : ℕ) : pageTableIndex va < pageTableSize := pageTableIndex_lt va

theorem VmState.Inv.of_perm {space : VmSpace} (hps : ps.Nodup) (h₀ : ∀ p ∈ ps, L₀ p = none)
    (hperm : (pgdPages mem space.pgdFrame).Perm ps) (hrun : Running n (s, L₀.withPages ps) S)
    (hsmall : ∀ i < kernelPdeStart, entryExists (mem space.pgdFrame i) = true →
      pdeIsHuge (mem space.pgdFrame i) = false)
    (hbelow : ∀ map ∈ space.mappings, map.endAddr ≤ kernelStartVirt) :
    VmState.Inv n S L₀ ⟨mem, s, space⟩ :=
  ⟨by rwa [Live.withPages_perm hperm], hperm.nodup_iff.mpr hps,
    fun p hp => h₀ p (hperm.mem_iff.mp hp), hsmall, hbelow⟩

/-- A store into a table leaves the directory alone. -/
theorem setWord_table_directory {d t i : ℕ} {v : BitVec 32} (hnd : (pgdPages mem pgd).Nodup)
    (hd : d < kernelPdeStart) (hex : entryExists (mem pgd d) = true) :
    setWord mem (frameOf (mem pgd d)) t v pgd i = mem pgd i :=
  setWord_of_ne mem v fun heq => (tables_apart hnd hd hex).1 heq.1.symm

theorem ptableGetPte_of_exists (hex : entryExists (mem pgd (pageDirectoryIndex va)) = true) :
    ptableGetPte mem pgd va =
      some (frameOf (mem pgd (pageDirectoryIndex va)), pageTableIndex va) := by
  unfold ptableGetPte
  simp only [hex, Bool.not_true, Bool.false_eq_true, if_false]

/-- **`ptable_map` of a fresh page** to an address that is not mapped makes the page, and the
    table if one is added, pages of the directory. -/
theorem VmState.Inv.ptableMap (h : st.Inv n S L₀) (hn : n ≤ 2 ^ 20) (hva : va < kernelStartVirt)
    (habsent : NotMapped st.mem st.space.pgdFrame va)
    (hpage : page ∉ pgdPages st.mem st.space.pgdFrame) (h₀ : L₀ page = none)
    (hlt : page < 2 ^ 20)
    (hrun : Running n (s, L₀.withPages (page :: pgdPages st.mem st.space.pgdFrame)) S)
    (hcall : ptableMap allocPage st.mem s st.space.pgdFrame va (pfnToPa page) 0x00 =
      some (mem', s')) :
    VmState.Inv n S L₀ ⟨mem', s', st.space⟩ := by
  have hd := pageDirectoryIndex_user hva
  have ht := pageTableIndex_lt_size va
  have hentry := mapEntry_exists (pfnToPa page) 0x00
  have hframe := frameOf_mapEntry hlt 0x00
  unfold Rotary.ptableMap at hcall
  by_cases hex : entryExists (st.mem st.space.pgdFrame (pageDirectoryIndex va)) = true
  · -- the table is there
    rw [if_pos hex] at hcall
    obtain ⟨rfl, rfl⟩ : _ = mem' ∧ s = s' := by simpa using hcall
    have hpte := habsent _ _ (ptableGetPte_of_exists hex)
    have hperm := pgdPages_store h.nodup hd hex (h.small _ hd hex) ht hpte hentry
    rw [hframe] at hperm
    refine VmState.Inv.of_perm (List.nodup_cons.mpr ⟨hpage, h.nodup⟩) ?_ hperm hrun ?_ h.below
    · intro p hp
      rcases List.mem_cons.mp hp with rfl | hp
      · exact h₀
      · exact h.fresh p hp
    · intro i hi
      rw [setWord_table_directory h.nodup hd hex]
      exact h.small i hi
  · rw [if_neg hex] at hcall
    rw [Bool.not_eq_true] at hex
    rcases alloc_withPages hn hrun with heq | ⟨q, s₁, heq, hq, hq₀, hq20, hrun₁⟩
    · rw [heq] at hcall
      cases hcall
    · rw [heq] at hcall
      obtain ⟨hqpage, hqps⟩ : q ≠ page ∧ q ∉ pgdPages st.mem st.space.pgdFrame := by
        simpa using hq
      have hqdir : q ≠ st.space.pgdFrame := fun heq =>
        hqps (heq ▸ List.mem_append_right _ List.mem_cons_self)
      obtain ⟨hnew, hnsmall, hnframe, -, -⟩ := newPde_spec hq20
      -- the new table, then the entry in it
      have hperm₁ := pgdPages_add_table h.nodup hd hex hq20 hqps
      set mem₁ := setWord (clearFrame st.mem q) st.space.pgdFrame (pageDirectoryIndex va)
        (newPde q) with hmem₁
      have hself : mem₁ st.space.pgdFrame (pageDirectoryIndex va) = newPde q := setWord_self _ _ _ _
      have hnd₁ : (pgdPages mem₁ st.space.pgdFrame).Nodup :=
        hperm₁.nodup_iff.mpr (List.nodup_cons.mpr ⟨hqps, h.nodup⟩)
      have hzero : entryExists (mem₁ q (pageTableIndex va)) = false := by
        rw [hmem₁, setWord_of_ne _ _ fun heq => hqdir heq.1]
        simp [clearFrame, entryExists, testFlag]
      have hperm₂ := pgdPages_store hnd₁ hd (hself ▸ hnew) (hself ▸ hnsmall) ht
        (by rw [hself, hnframe]; exact hzero) hentry
      rw [hframe] at hperm₂
      obtain ⟨rfl, rfl⟩ := Prod.mk.inj (Option.some.inj hcall)
      have hperm := (hperm₂.trans (hperm₁.cons page)).trans (List.Perm.swap q page _)
      refine VmState.Inv.of_perm
        (List.nodup_cons.mpr ⟨hq, List.nodup_cons.mpr ⟨hpage, h.nodup⟩⟩) ?_ hperm hrun₁ ?_ h.below
      · intro p hp
        rcases List.mem_cons.mp hp with rfl | hp
        · exact hq₀
        · rcases List.mem_cons.mp hp with rfl | hp
          · exact h₀
          · exact h.fresh p hp
      · intro i hi
        rw [setWord_table_directory hnd₁ hd (hself ▸ hnew)]
        by_cases hid : i = pageDirectoryIndex va
        · rw [hid, hself]
          exact fun _ => hnsmall
        · have hkeep : mem₁ st.space.pgdFrame i = st.mem st.space.pgdFrame i := by
            rw [hmem₁, setWord_of_ne _ _ fun heq => hid heq.2]
            exact congrFun (Function.update_of_ne hqdir.symm _ _) i
          rw [hkeep]
          exact h.small i hi

/-- **`vm_space_page_fault`** on an address that is not mapped, or in no mapping of the space. -/
theorem VmState.Inv.pageFault {r : Status} (h : st.Inv n S L₀) (hn : n ≤ 2 ^ 20)
    (habsent : (∃ map ∈ st.space.mappings, map.contains addr = true) →
      NotMapped st.mem st.space.pgdFrame addr)
    (hcall : vmSpacePageFault st addr = some (r, st')) : st'.Inv n S L₀ := by
  unfold vmSpacePageFault at hcall
  cases hfind : st.space.mappings.find? fun map => map.contains addr with
  | none =>
    rw [hfind] at hcall
    obtain ⟨-, rfl⟩ : _ ∧ st = st' := by simpa using hcall
    exact h
  | some map =>
    rw [hfind] at hcall
    have hmem := List.mem_of_find?_eq_some hfind
    have hin : map.contains addr = true := by simpa using List.find?_some hfind
    have hend : addr < map.endAddr := by
      unfold VmMap.contains at hin
      exact (of_decide_eq_true hin).2
    have hva : addr < kernelStartVirt := Nat.lt_of_lt_of_le hend (h.below map hmem)
    dsimp only at hcall
    unfold vmSpaceMapPage at hcall
    rcases alloc_withPages hn h.running with heq | ⟨t, s', heq, ht, ht₀, ht20, hrun⟩
    · rw [heq] at hcall
      obtain ⟨-, rfl⟩ : _ ∧ st = st' := by simpa using hcall
      exact h
    · rw [heq] at hcall
      obtain ⟨⟨mem', s''⟩, hmap, hres⟩ := Option.map_eq_some_iff.mp hcall
      obtain ⟨-, rfl⟩ : _ ∧ _ = st' := by simpa using hres
      exact h.ptableMap hn hva (habsent ⟨map, hmem, hin⟩) ht ht₀ ht20 hrun hmap

/-! ### Runs -/

/-- One call on an address space, or stores by others.  `ok` limits the faults. -/
inductive VmStep (ok : VmState → ℕ → Prop) : VmState → VmState → Prop
  | addMap (st : VmState) (map : VmMap) (hbelow : map.endAddr ≤ kernelStartVirt) :
      VmStep ok st { st with space := vmSpaceAddMap st.space map }
  | fault (st : VmState) (addr : ℕ) (hok : ok st addr) (r : Status) (st' : VmState)
      (hcall : vmSpacePageFault st addr = some (r, st')) : VmStep ok st st'
  /-- The task stores into its pages, and others into memory that is no table of this space. -/
  | write (st : VmState) (mem' : PhysMem)
      (hdir : mem' st.space.pgdFrame = st.mem st.space.pgdFrame)
      (htables : ∀ i < kernelPdeStart, entryExists (st.mem st.space.pgdFrame i) = true →
        mem' (frameOf (st.mem st.space.pgdFrame i)) = st.mem (frameOf (st.mem st.space.pgdFrame i))) :
      VmStep ok st { st with mem := mem' }

/-- A run of calls. -/
abbrev VmRun (ok : VmState → ℕ → Prop) := Relation.ReflTransGen (VmStep ok)

/-- The fault is on an address where no page is mapped, if it is in a mapping at all. -/
def FirstFault (st : VmState) (addr : ℕ) : Prop :=
  (∃ map ∈ st.space.mappings, map.contains addr = true) → NotMapped st.mem st.space.pgdFrame addr

theorem pgdPages_congr (hdir : mem' pgd = mem pgd) (htables : ∀ i < kernelPdeStart,
    entryExists (mem pgd i) = true → mem' (frameOf (mem pgd i)) = mem (frameOf (mem pgd i))) :
    pgdPages mem' pgd = pgdPages mem pgd := by
  have hbelow : (List.range kernelPdeStart).flatMap (fun i => pdePages mem' (mem' pgd i)) =
      (List.range kernelPdeStart).flatMap fun i => pdePages mem (mem pgd i) := by
    apply List.flatMap_congr
    intro i hi
    rw [hdir]
    exact pdePages_congr (htables i (List.mem_range.mp hi))
  unfold pgdPages
  rw [hbelow]

/-- **A step keeps the invariant**, if it does not fault on a mapped page. -/
theorem VmState.Inv.step (h : st.Inv n S L₀) (hn : n ≤ 2 ^ 20) (hstep : VmStep FirstFault st st') :
    st'.Inv n S L₀ := by
  cases hstep with
  | addMap map hbelow =>
    refine ⟨h.running, h.nodup, h.fresh, h.small, fun m hm => ?_⟩
    rcases List.mem_cons.mp hm with rfl | hm
    · exact hbelow
    · exact h.below m hm
  | fault addr hok r _ hcall => exact h.pageFault hn hok hcall
  | write mem' hdir htables =>
    have hpages := pgdPages_congr hdir htables
    refine VmState.Inv.of_perm h.nodup h.fresh (by rw [hpages]) h.running ?_ h.below
    rw [hdir]
    exact h.small

theorem VmState.Inv.run (h : st.Inv n S L₀) (hn : n ≤ 2 ^ 20) (hrun : VmRun FirstFault st st') :
    st'.Inv n S L₀ := by
  induction hrun with
  | refl => exact h
  | tail _ hstep ih => exact ih.step hn hstep

/-! ### From `vm_space_new` to `vm_space_destroy` -/

/-- The pages `kmalloc` has added to a slab cache. -/
def slabPages (s : BuddyAllocator) (slab : Bool) : Set ℕ :=
  if slab then {p | ∃ t ∈ (pageAlloc s slabDefaultOrder).1, p ∈ block t slabDefaultOrder} else ∅

theorem kmallocPages_spec (h : Running n (s, L) S) (slab : Bool) :
    ∃ L₀, Running n (kmallocPages s slab, L₀) S ∧
      freePages (kmallocPages s slab) = freePages s \ slabPages s slab := by
  unfold kmallocPages slabPages
  cases slab with
  | false => exact ⟨L, h, by simp⟩
  | true =>
    rcases h.alloc_cases slabDefaultOrder with heq | ⟨t, s', heq, -, -, -, hfree, h'⟩
    · exact ⟨L, by simpa [heq] using h, by simp [heq]⟩
    · refine ⟨_, by simpa [heq] using h', ?_⟩
      have hpages : {p | ∃ t' ∈ some t, p ∈ block t' slabDefaultOrder} =
          block t slabDefaultOrder := by
        ext p
        constructor
        · rintro ⟨t', ht', hp⟩
          rwa [Option.mem_some_iff.mp ht']
        · exact fun hp => ⟨t, rfl, hp⟩
      simp only [if_true, heq, hfree]
      rw [hpages]

/-- The user half of a new directory is as empty as the kernel's, also where the copy is made
    in the kernel's own frame. -/
theorem newDirectory_empty {kernelPgd : ℕ}
    (hkernel : ∀ i < kernelPdeStart, entryExists (mem kernelPgd i) = false) (q : ℕ) :
    ∀ i < kernelPdeStart,
      entryExists (Function.update (clearFrame mem q) q (clearFrame mem q kernelPgd) q i) = false := by
  intro i hi
  rw [Function.update_self]
  by_cases hk : kernelPgd = q
  · subst hk
    simp [clearFrame, entryExists, testFlag]
  · rw [clearFrame, Function.update_of_ne hk]
    exact hkernel i hi

/-- A directory with an empty user half has no page but its own. -/
theorem pgdPages_of_empty (h : ∀ i < kernelPdeStart, entryExists (mem pgd i) = false) :
    pgdPages mem pgd = [pgd] := by
  have hnil : (List.range kernelPdeStart).flatMap (fun i => pdePages mem (mem pgd i)) = [] := by
    apply List.flatMap_eq_nil_iff.mpr
    intro i hi
    unfold pdePages
    rw [h i (List.mem_range.mp hi)]
    rfl
  unfold pgdPages
  rw [hnil, List.nil_append]

/-- The physical address behind `PAGE_VA`. -/
theorem virToPhy_pageVa {page : ℕ} (hp : page < 2 ^ 20) : virToPhy (pageVa page) = page * 4096 := by
  have hpa : pfnToPa page = page * 4096 := u32_of_lt (by unfold pageSize; omega)
  unfold pageVa
  rw [virToPhy_phyToVir (by omega), hpa]

/-- The directory of a new space is the page it was made from. -/
theorem pgdFrame_new {q : ℕ} (hq : q < 2 ^ 20) :
    (VmSpace.mk (virToPhy (pageVa q)) []).pgdFrame = q := by
  unfold VmSpace.pgdFrame
  rw [virToPhy_pageVa hq, paToPfn_eq, Nat.mul_div_cancel _ (by decide)]

/-- A space that `vm_space_new` returns: `page_alloc` has given its directory, which holds a copy
    of the kernel's. -/
theorem vmSpaceNew_eq_some {mem₁ : PhysMem} {s₁ : BuddyAllocator} {space : VmSpace} {slab : Bool}
    {kernelPgd vms : ℕ} (hnew : vmSpaceNew mem s kernelPgd slab vms = some (mem₁, s₁, some space)) :
    ∃ q, allocPage (kmallocPages s slab) = (some q, s₁) ∧
      mem₁ = Function.update (clearFrame mem q) q (clearFrame mem q kernelPgd) ∧
      space = ⟨virToPhy (pageVa q), []⟩ := by
  unfold vmSpaceNew at hnew
  dsimp only at hnew
  split at hnew
  · simp at hnew
  · obtain ⟨⟨q, mem', s'⟩, hpgd, hres⟩ := Option.map_eq_some_iff.mp hnew
    obtain ⟨rfl, rfl, rfl⟩ : mem' = mem₁ ∧ s' = s₁ ∧
        VmSpace.mk (virToPhy (pageVa q)) [] = space := by simpa using hres
    unfold ptablePgdNew at hpgd
    split at hpgd
    · cases hpgd
    · rename_i p s₂ halloc
      obtain ⟨rfl, hmem, rfl⟩ : p = q ∧ Function.update (clearFrame mem p) p
          (clearFrame mem p kernelPgd) = mem' ∧ s₂ = s' := by simpa using hpgd
      exact ⟨p, halloc, hmem.symm, rfl⟩

/-- **`vm_space_new`** makes a space that owns the page of its directory. -/
theorem vmSpaceNew_spec {mem₁ : PhysMem} {s₁ : BuddyAllocator} {space : VmSpace} {slab : Bool}
    {kernelPgd vms : ℕ} (h : Running n (kmallocPages s slab, L₀) S) (hn : n ≤ 2 ^ 20)
    (hkernel : ∀ i < kernelPdeStart, entryExists (mem kernelPgd i) = false)
    (hnew : vmSpaceNew mem s kernelPgd slab vms = some (mem₁, s₁, some space)) :
    VmState.Inv n S L₀ ⟨mem₁, s₁, space⟩ := by
  obtain ⟨q, halloc, rfl, rfl⟩ := vmSpaceNew_eq_some hnew
  have h' : Running n (kmallocPages s slab, L₀.withPages []) S := by
    rwa [Live.withPages_nil]
  rcases alloc_withPages hn h' with heq | ⟨p, s₂, heq, -, hp₀, hp20, hrun⟩
  · rw [heq] at halloc
    cases halloc
  · obtain ⟨hpq, rfl⟩ := Prod.mk.inj (heq.symm.trans halloc)
    obtain rfl := Option.some.inj hpq
    -- the user half of the directory is empty, so that its own page is all it has
    have hframe := pgdFrame_new hp20
    have hempty := newDirectory_empty hkernel p
    have hpages := pgdPages_of_empty hempty
    refine VmState.Inv.of_perm (List.nodup_singleton p) ?_ (by rw [hframe, hpages]) hrun ?_ ?_
    · intro q hq
      obtain rfl := List.mem_singleton.mp hq
      exact hp₀
    · intro i hi hex
      rw [hframe, hempty i hi] at hex
      cases hex
    · simp

theorem VmState.Inv.pgdFrame_lt (h : st.Inv n S L₀) (hn : n ≤ 2 ^ 20) :
    st.space.pgdFrame < 2 ^ 20 := by
  have hmem : st.space.pgdFrame ∈ pgdPages st.mem st.space.pgdFrame :=
    List.mem_append_right _ List.mem_cons_self
  exact Nat.lt_of_lt_of_le (h.running.owned h.fresh hmem).1 hn

/-- **`vm_space_destroy`** leaves the allocator as it was without the space. -/
theorem VmState.Inv.destroy (h : st.Inv n S L₀) (hn : n ≤ 2 ^ 20) (hbelow : BuddiesBelow n S)
    (himg : ∀ p ∈ S, OutsideImage img p) :
    vmSpaceDestroy img st =
        (pgdPages st.mem st.space.pgdFrame).foldl (freePage img) st.buddy ∧
      Running n (vmSpaceDestroy img st, L₀) S := by
  have heq : vmSpaceDestroy img st =
      (pgdPages st.mem st.space.pgdFrame).foldl (freePage img) st.buddy :=
    ptablePgdFree_eq _ _ _ (h.pgdFrame_lt hn)
  refine ⟨heq, ?_⟩
  rw [heq]
  exact freeAll_spec hbelow himg h.running h.nodup h.fresh

theorem Running.freePages_eq (h : Running n (s, L) S) :
    freePages s = S \ cover (liveBlocks L) := by
  obtain ⟨⟨F, hs⟩, -⟩ := h
  exact hs.freePages_eq

/-- **Teardown returns every page.**  In any state of a run of the page allocator, from
    `vm_space_new` through mappings and faults, none of them on a page that is mapped already, to
    `vm_space_destroy`: the pages freed are distinct, were all free before `vm_space_new`, and
    the free pages are those from before, less what `kmalloc` has put into a slab. -/
theorem vmRun_teardown {ps : List ℕ} {s₀ s₁ : BuddyAllocator} {mem₁ : PhysMem} {space : VmSpace}
    {slab : Bool} {kernelPgd vms : ℕ} (hboot : HandedOver img n ps s₀) (hnd : ps.Nodup)
    (hps : ∀ p ∈ ps, p < n) (himg : ∀ p ∈ ps, OutsideImage img p)
    (hbelow : BuddiesBelow n {p | p ∈ ps}) (hn : n ≤ 2 ^ 20)
    (hreach : Run img (· < 2 ^ 32) (s₀, fun _ => none) (s, L))
    (hkernel : ∀ i < kernelPdeStart, entryExists (mem kernelPgd i) = false)
    (hnew : vmSpaceNew mem s kernelPgd slab vms = some (mem₁, s₁, some space))
    (hrun : VmRun FirstFault ⟨mem₁, s₁, space⟩ st) :
    freePages (vmSpaceDestroy img st) = freePages s \ slabPages s slab ∧
      vmSpaceDestroy img st =
        (pgdPages st.mem st.space.pgdFrame).foldl (freePage img) st.buddy ∧
      (pgdPages st.mem st.space.pgdFrame).Nodup ∧
      ∀ p ∈ pgdPages st.mem st.space.pgdFrame, p ∈ freePages s \ slabPages s slab := by
  have hbuddy := (hboot.running hnd hps (Or.inr hbelow)).run hreach (fun _ h => h) (Or.inr hbelow)
  obtain ⟨L₀, hslab, hfree⟩ := kmallocPages_spec hbuddy slab
  have hinv := (vmSpaceNew_spec hslab hn hkernel hnew).run hn hrun
  obtain ⟨heq, hdone⟩ := hinv.destroy hn hbelow himg
  rw [← hfree, hslab.freePages_eq]
  exact ⟨hdone.freePages_eq, heq, hinv.nodup, fun p hp =>
    (hinv.running.owned hinv.fresh hp).2⟩

/-- Four pages of memory, and a space with one page mapped in it. -/
def fourPages : BuddyAllocator :=
  releaseAll (initialAllocator emptyImage zeroPast 0xC0010000 64) [4, 5, 6, 7]

def mappedSpace : Option VmState :=
  (vmSpaceNew (fun _ _ => 0) fourPages 0 false 1).bind fun (mem, s, space) =>
    space.map fun space => ⟨mem, s, vmSpaceAddMap space ⟨0x1000, 0x2000, vmMapRead⟩⟩

/-- After `k` faults on that page. -/
def faultAgain : ℕ → Option VmState
  | 0 => mappedSpace
  | k + 1 => (faultAgain k).bind fun st => (vmSpacePageFault st 0x1000).map Prod.snd

theorem handedOver_four : HandedOver emptyImage 64 [4, 5, 6, 7] fourPages :=
  ⟨by decide, zeroPast, smallBootmem, _, _, rfl, rfl⟩

theorem buddiesBelow_four : BuddiesBelow 64 {p | p ∈ [4, 5, 6, 7]} :=
  buddiesBelow_of_dvd (by decide) (show ∀ p ∈ [4, 5, 6, 7], p < 64 by decide)

theorem fourPages_core : ∃ F L S, Core 64 fourPages F L S S := by
  obtain ⟨⟨F, hs⟩, -⟩ := handedOver_four.running (by decide) (by decide) (Or.inr buddiesBelow_four)
  exact ⟨F, _, _, hs.core⟩

theorem fourPages_freePages {p : ℕ} (hp : p ∈ freePages fourPages) : 4 ≤ p ∧ p ≤ 7 := by
  obtain ⟨⟨F, hs⟩, -⟩ := handedOver_four.running (by decide) (by decide) (Or.inr buddiesBelow_four)
  rw [hs.freePages_eq] at hp
  have hmem : p ∈ [4, 5, 6, 7] := hp.1
  simp only [List.mem_cons, List.not_mem_nil, or_false] at hmem
  omega

theorem faultAgain_run (ok : VmState → ℕ → Prop) {k : ℕ}
    (hok : ∀ j < k, ∀ st, faultAgain j = some st → ok st 0x1000) (h : faultAgain k = some st) :
    ∃ mem₁ s₁ space,
      vmSpaceNew (fun _ _ => 0) fourPages 0 false 1 = some (mem₁, s₁, some space) ∧
      VmRun ok ⟨mem₁, s₁, space⟩ st := by
  induction k generalizing st with
  | zero =>
    unfold faultAgain mappedSpace at h
    obtain ⟨⟨mem₁, s₁, space?⟩, hnew, hmap⟩ := Option.bind_eq_some_iff.mp h
    obtain ⟨space, rfl, rfl⟩ := Option.map_eq_some_iff.mp hmap
    exact ⟨mem₁, s₁, space, hnew, .single (VmStep.addMap _ _ (by decide))⟩
  | succ k ih =>
    obtain ⟨st₀, hst₀, hmap⟩ := Option.bind_eq_some_iff.mp h
    obtain ⟨⟨r, st'⟩, hcall, rfl⟩ := Option.map_eq_some_iff.mp hmap
    obtain ⟨mem₁, s₁, space, hnew, hrun⟩ := ih (fun j hj => hok j (by omega)) hst₀
    exact ⟨mem₁, s₁, space, hnew,
      hrun.tail (VmStep.fault st₀ 0x1000 (hok k (by omega) st₀ hst₀) r st' hcall)⟩

/-- One fault: the page, the table and the directory come back. -/
theorem vmRun_teardown_oneFault : ∃ st, faultAgain 1 = some st ∧
    pgdPages st.mem st.space.pgdFrame = [5, 6, 4] ∧
    freePages (vmSpaceDestroy emptyImage st) = freePages fourPages \ slabPages fourPages false := by
  have hpages : (faultAgain 1).map (fun st => pgdPages st.mem st.space.pgdFrame) =
      some [5, 6, 4] := by decide +kernel
  obtain ⟨st, hst, hpgd⟩ := Option.map_eq_some_iff.mp hpages
  have hnone : (faultAgain 0).map (fun st => ptableGetPte st.mem st.space.pgdFrame 0x1000) =
      some none := by decide +kernel
  have hfirst : ∀ j < 1, ∀ st, faultAgain j = some st → FirstFault st 0x1000 := by
    intro j hj st hst _ f i hpte
    obtain rfl : j = 0 := by omega
    rw [hst, Option.map_some, hpte] at hnone
    cases hnone
  obtain ⟨mem₁, s₁, space, hnew, hrun⟩ := faultAgain_run _ hfirst hst
  exact ⟨st, hst, hpgd, (vmRun_teardown handedOver_four (by decide) (by decide)
    (fun p _ => outsideImage_empty p) buddiesBelow_four (by decide) Relation.ReflTransGen.refl
    (fun _ _ => by decide) hnew hrun).1⟩

theorem mem_freePages_iff : p ∈ freePages s ↔
    ∃ k ≤ orderMax, ∃ b ∈ freeList s k, b ≤ p ∧ p < b + 2 ^ k := by
  unfold freePages cover
  constructor
  · intro h
    obtain ⟨⟨b, k⟩, ⟨hk, hb⟩, hp⟩ := Set.mem_iUnion₂.mp h
    exact ⟨k, hk, b, hb, hp⟩
  · rintro ⟨k, hk, b, hb, hp⟩
    exact Set.mem_iUnion₂.mpr ⟨(b, k), ⟨hk, hb⟩, hp⟩

/-- **A second fault on the page** puts another page into its entry, and the first one is
    recorded nowhere. -/
theorem teardown_leaks_refaulted :
    ¬ ∀ (img : KernelImage) (n : ℕ) (ps : List ℕ) (s₀ s : BuddyAllocator) (L : Live)
      (mem mem₁ : PhysMem) (s₁ : BuddyAllocator) (space : VmSpace) (slab : Bool)
      (kernelPgd vms : ℕ) (st : VmState),
      HandedOver img n ps s₀ → ps.Nodup → (∀ p ∈ ps, p < n) → (∀ p ∈ ps, OutsideImage img p) →
      BuddiesBelow n {p | p ∈ ps} → n ≤ 2 ^ 20 →
      Run img (· < 2 ^ 32) (s₀, fun _ => none) (s, L) →
      (∀ i < kernelPdeStart, entryExists (mem kernelPgd i) = false) →
      vmSpaceNew mem s kernelPgd slab vms = some (mem₁, s₁, some space) →
      VmRun (fun _ _ => True) ⟨mem₁, s₁, space⟩ st →
      freePages (vmSpaceDestroy img st) = freePages s \ slabPages s slab := by
  intro h
  have hpages : (faultAgain 2).map (fun st => (st.space.pgdFrame, pgdPages st.mem 4)) =
      some (4, [7, 6, 4]) := by decide +kernel
  obtain ⟨st, hst, hpgd⟩ := Option.map_eq_some_iff.mp hpages
  obtain ⟨hframe, hlist⟩ := Prod.mk.inj hpgd
  obtain ⟨mem₁, s₁, space, hnew, hrun⟩ :=
    faultAgain_run (fun _ _ => True) (fun _ _ _ _ => trivial) hst
  have heq := h emptyImage 64 [4, 5, 6, 7] fourPages fourPages _ _ mem₁ s₁ space false 0 1 st
    handedOver_four (by decide) (by decide) (fun p _ => outsideImage_empty p) buddiesBelow_four
    (by decide) Relation.ReflTransGen.refl (fun _ _ => by decide) hnew hrun
  -- page 5, which the first fault took, was free before and is not free now
  have hbefore : 5 ∈ freePages fourPages \ slabPages fourPages false := by
    refine ⟨mem_freePages_iff.mpr ⟨2, by decide, 4, ?_, by decide⟩, Set.notMem_empty 5⟩
    have hlist : freeList fourPages 2 = [4] := by decide +kernel
    rw [hlist]
    exact List.mem_cons_self
  have hafter : (faultAgain 2).map (fun st => (List.range 7).map
      (freeList ([7, 6, 4].foldl (freePage emptyImage) st.buddy))) =
      some [[4], [6], [], [], [], [], []] := by decide +kernel
  rw [hst, Option.map_some, Option.some.injEq] at hafter
  have hdestroy : vmSpaceDestroy emptyImage st = [7, 6, 4].foldl (freePage emptyImage) st.buddy := by
    rw [← hlist, ← hframe]
    exact ptablePgdFree_eq _ _ _ (by rw [hframe]; decide)
  rw [← heq, hdestroy] at hbefore
  obtain ⟨k, hk, b, hb, hp⟩ := mem_freePages_iff.mp hbefore
  have hfree : ∀ k < 7, ∀ b ∈ [[4], [6], [], [], [], [], []].getD k [], ¬ (b ≤ 5 ∧ 5 < b + 2 ^ k) := by
    decide
  have hk7 : k < 7 := Nat.lt_succ_of_le hk
  refine hfree k hk7 b ?_ hp
  rw [← hafter]
  simpa [hk7] using hb

end Rotary
