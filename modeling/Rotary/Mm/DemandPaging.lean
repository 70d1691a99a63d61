import Mathlib.Data.Set.Subsingleton
import Rotary.Mm.CopyRange

namespace Rotary

open Lib

/-!
# Demand paging (`vm_space_page_fault` in `kernel/mm/vm.c`)

A fault inside a mapping is answered with a free page.  Two things come between the mapping and the
page table entry.  `vm_space_map_page` calls `ptable_map` with the flags `0x00` and not with those of
the mapping, so the page is never writable.  And it is sure of one page only: if there is no table for
the address, `ptable_map` takes another page for it, and clears it also if there was none.

* `VmState.Ready` — what a fault finds, kept by every call (`Ready.step`);
* `Ready.mapPage_cases` — the three outcomes of `vm_space_map_page`;
* `pageFault_iff` — a fault is answered as the mapping says exactly if the mapping is read-only and
  there is a page for the table.
-/

variable {st st' : VmState} {mem mem' : PhysMem} {s s' : BuddyAllocator} {addr : ℕ}
  {space : VmSpace} {map : VmMap}

/-! ### The state of an address space -/

/-- The free lists are in order, the tables of the space are apart from each other and from the free
    pages, the user's tables are open for the user, and all mappings are the user's. -/
structure VmState.Ready (st : VmState) : Prop where
  pages : ∃ n F L S, n ≤ 2 ^ 20 ∧ Core n st.buddy F L S S
  apart : PtableOk st.mem st.space.pgdFrame
  tables : ∀ i < kernelPdeStart, entryExists (st.mem st.space.pgdFrame i) = true →
    testFlag (st.mem st.space.pgdFrame i) pdeUser = true ∧
      testFlag (st.mem st.space.pgdFrame i) pdeWritable = true
  unused : ∀ p ∈ freePages st.buddy, Unused st.mem st.space.pgdFrame p
  below : ∀ map ∈ st.space.mappings, map.endAddr ≤ kernelStartVirt

/-- Both levels let the user access the page. -/
def Mapping.forUser (m : Mapping) : Bool := m.user && m.tableUser

/-- Both levels let the page be written. -/
def Mapping.canWrite (m : Mapping) : Bool := m.writable && m.tableWritable

/-- The page of the address is now in a frame that was free, for the user, and writable or not; no
    other translation has changed. -/
structure PageAdded (st : VmState) (addr : ℕ) (writable : Bool) (st' : VmState) : Prop where
  page : ∃ page ∈ freePages st.buddy, page ∉ freePages st'.buddy ∧
    ∃ m, walk st'.mem st.space.pgdFrame addr = some m ∧ m.frame = page * pageSize ∧
      m.forUser = true ∧ m.canWrite = writable
  elsewhere : ∀ va < 2 ^ 32, va / pageSize ≠ addr / pageSize →
    walk st'.mem st.space.pgdFrame va = walk st.mem st.space.pgdFrame va
  space : st'.space = st.space

/-- The page table tells whether the page is writable. -/
theorem PageAdded.writable_unique {b b' : Bool} (h : PageAdded st addr b st')
    (h' : PageAdded st addr b' st') : b = b' := by
  obtain ⟨-, -, -, m, hm, -, -, rfl⟩ := h.page
  obtain ⟨-, -, -, m', hm', -, -, rfl⟩ := h'.page
  rw [hm] at hm'
  rw [Option.some.inj hm']

/-! ### Mapping a page -/

/-- There is a table for the address, or a page for one besides the page to be mapped. -/
def TableAvailable (st : VmState) (addr : ℕ) : Prop :=
  entryExists (st.mem st.space.pgdFrame (pageDirectoryIndex addr)) = true ∨
    (freePages st.buddy).Nontrivial

/-- The entry for a page just taken, below a table that is open for the user. -/
theorem VmState.Ready.entered {page : ℕ} (h : st.Ready) (haddr : addr < kernelStartVirt)
    (hp : page < 2 ^ 20)
    (hentered : Entered st.mem mem' st.space.pgdFrame addr (some (requested (pfnToPa page) 0)))
    (hbits : (walk mem' st.space.pgdFrame addr).map (fun w => (w.tableUser, w.tableWritable)) =
      some (tableBits st.mem st.space.pgdFrame addr)) :
    ∃ m, walk mem' st.space.pgdFrame addr = some m ∧ m.frame = page * pageSize ∧
      m.forUser = true ∧ m.canWrite = false := by
  -- the rights of the table do not matter: old and new tables have them all
  have hopen : tableBits st.mem st.space.pgdFrame addr = (true, true) := by
    unfold tableBits
    by_cases hex : entryExists (st.mem st.space.pgdFrame (pageDirectoryIndex addr)) = true
    · obtain ⟨huser, hwritable⟩ := h.tables _ (pageDirectoryIndex_user haddr) hex
      simp [hex, huser, hwritable]
    · simp [hex]
  have hpa : pfnToPa page = page * pageSize := u32_of_lt (by unfold pageSize; omega)
  have hframe : pageFrame (BitVec.ofNat 32 (page * pageSize)) = page * pageSize := by
    rw [pageFrame_eq, BitVec.toNat_ofNat]
    unfold pageSize
    omega
  obtain ⟨m, hm, hinfo⟩ := Option.map_eq_some_iff.mp hentered.here
  rw [hm, hopen] at hbits
  obtain ⟨huser, hwritable⟩ := Prod.mk.inj (Option.some.inj hbits)
  have hinfo : m.frame = page * pageSize ∧ m.user = true ∧ m.writable = false := by
    unfold requested at hinfo
    rw [hpa, hframe] at hinfo
    exact ⟨congrArg PageInfo.frame hinfo, congrArg PageInfo.user hinfo,
      congrArg PageInfo.writable hinfo⟩
  refine ⟨m, hm, hinfo.1, ?_, ?_⟩
  · unfold Mapping.forUser
    rw [hinfo.2.1, huser]
    rfl
  · unfold Mapping.canWrite
    rw [hinfo.2.2]
    rfl

section Mapped

variable {n t : ℕ} {s₁ : BuddyAllocator} {F : ℕ → List ℕ} {L : Live} {S : Set ℕ}

/-- Behind the first page, there is a second one exactly if there were two. -/
theorem Core.second_page (hc : Core n s₁ F L S S) (hfree : t ∈ freePages s)
    (hrest : freePages s₁ = freePages s \ {t}) :
    ((allocPage s₁).1 = none ∧ ¬ (freePages s).Nontrivial) ∨
      ((freePages s).Nontrivial ∧ ∃ u s₂, allocPage s₁ = (some u, s₂) ∧ u < n ∧ u ∈ freePages s) := by
  rcases hc.allocPage_cases with ⟨hnone, hempty⟩ | ⟨u, s₂, -, -, hsome, hlt, hu, -, -⟩
  · left
    refine ⟨by rw [hnone], ?_⟩
    rintro ⟨p, hp, q, hq, hpq⟩
    have hone : ∀ r ∈ freePages s, r = t := by
      intro r hr
      by_contra hne
      have hmem : r ∈ freePages s \ {t} := ⟨hr, hne⟩
      rw [← hrest, hempty] at hmem
      exact hmem
    exact hpq ((hone p hp).trans (hone q hq).symm)
  · rw [hrest] at hu
    exact Or.inr ⟨⟨t, hfree, u, hu.1, fun heq => hu.2 heq.symm⟩, u, s₂, hsome, hlt, hu.1⟩

variable (h : st.Ready) (hc : Core n s₁ F L S S)
  (hrest : freePages s₁ = freePages st.buddy \ {t})
  (hdir : (s' = s₁ ∧ ∀ i, mem' st.space.pgdFrame i = st.mem st.space.pgdFrame i) ∨
    ∃ u, allocPage s₁ = (some u, s') ∧ u < 2 ^ 20 ∧
      mem' st.space.pgdFrame (pageDirectoryIndex addr) = newPde u ∧
      ∀ i, i ≠ pageDirectoryIndex addr → mem' st.space.pgdFrame i = st.mem st.space.pgdFrame i)

include h hc hrest hdir

/-- The free pages that are left, and the entries of the directory. -/
theorem VmState.Ready.left : freePages s' ⊆ freePages st.buddy \ {t} ∧
    (∃ F' L', Core n s' F' L' S S) ∧ (∀ p ∈ freePages s', Unused mem' st.space.pgdFrame p) ∧
    ∀ i, mem' st.space.pgdFrame i = st.mem st.space.pgdFrame i ∨
      ∃ page < 2 ^ 20, mem' st.space.pgdFrame i = newPde page := by
  rcases hdir with ⟨rfl, hkeep⟩ | ⟨u, hsome, hu, hself, hother⟩
  · refine ⟨hrest.subset, ⟨F, L, hc⟩, fun p hp => ?_, fun i => Or.inl (hkeep i)⟩
    rw [hrest] at hp
    exact (h.unused p hp.1).congr hkeep
  · rcases hc.allocPage_cases with ⟨hnone, -⟩ | ⟨u', s₂, F₂, L₂, hsome', -, -, hrest₂, hc₂⟩
    · rw [hnone] at hsome
      cases hsome
    rw [hsome'] at hsome
    obtain ⟨hueq, rfl⟩ := Prod.mk.inj hsome
    obtain rfl := Option.some.inj hueq
    rw [hrest] at hrest₂
    refine ⟨?_, ⟨F₂, L₂, hc₂⟩, fun p hp => ?_, fun i => ?_⟩
    · rw [hrest₂]
      exact Set.sdiff_subset
    · rw [hrest₂] at hp
      exact (h.unused p hp.1.1).of_pde hu (fun heq => hp.2 heq.symm) hself hother
    · by_cases hi : i = pageDirectoryIndex addr
      · subst hi
        exact Or.inr ⟨u', hu, hself⟩
      · exact Or.inl (hother i hi)

/-- The page is mapped, and the space is in order. -/
theorem VmState.Ready.mapped (haddr : addr < kernelStartVirt) (hn : n ≤ 2 ^ 20) (hlt : t < n)
    (hfree : t ∈ freePages st.buddy)
    (hentered : Entered st.mem mem' st.space.pgdFrame addr (some (requested (pfnToPa t) 0)))
    (hbits : (walk mem' st.space.pgdFrame addr).map (fun w => (w.tableUser, w.tableWritable)) =
      some (tableBits st.mem st.space.pgdFrame addr)) :
    PageAdded st addr false { st with mem := mem', buddy := s' } ∧
      VmState.Ready { st with mem := mem', buddy := s' } := by
  obtain ⟨hsub, ⟨F', L', hc'⟩, hunused, hwords⟩ := h.left hc hrest hdir
  obtain ⟨m, hm⟩ := h.entered haddr (hlt.trans_le hn) hentered hbits
  refine ⟨⟨⟨t, hfree, fun hmem => (hsub hmem).2 rfl, m, hm⟩, hentered.elsewhere, rfl⟩,
    ⟨n, F', L', S, hn, hc'⟩, hentered.ok, fun i hi hex => ?_, hunused, h.below⟩
  dsimp only at hex ⊢
  rcases hwords i with hsame | ⟨page, hpage, hnew⟩
  · rw [hsame] at hex ⊢
    exact h.tables i hi hex
  · rw [hnew]
    exact (newPde_spec hpage).2.2.2

end Mapped

/-- **`vm_space_map_page`**: there is no page; or there is one, but none for the table, and the null
    page is cleared; or the page is mapped, and read-only. -/
theorem VmState.Ready.mapPage_cases (h : st.Ready) (haddr : addr < kernelStartVirt) :
    (freePages st.buddy = ∅ ∧ vmSpaceMapPage st addr = some (.error, st)) ∨
    ((freePages st.buddy).Nonempty ∧ ¬ TableAvailable st addr ∧ vmSpaceMapPage st addr = none) ∨
    ((freePages st.buddy).Nonempty ∧ TableAvailable st addr ∧
      ∃ st', vmSpaceMapPage st addr = some (.success, st') ∧ PageAdded st addr false st' ∧
        st'.Ready) := by
  obtain ⟨n, F, L, S, hn, hc⟩ := h.pages
  rcases hc.allocPage_cases with ⟨hnone, hempty⟩ | ⟨t, s₁, F₁, L₁, hsome, hlt, hfree, hrest, hc₁⟩
  · refine Or.inl ⟨hempty, ?_⟩
    unfold vmSpaceMapPage
    rw [hnone]
  have hcall : vmSpaceMapPage st addr =
      (ptableMap allocPage st.mem s₁ st.space.pgdFrame addr (pfnToPa t) 0x00).map
        fun r => (.success, { st with mem := r.1, buddy := r.2 }) := by
    unfold vmSpaceMapPage
    rw [hsome]
  apply Or.inr
  by_cases htable : TableAvailable st addr
  · refine Or.inr ⟨⟨t, hfree⟩, htable, ?_⟩
    -- the second page, if a table is needed
    have hsup : entryExists (st.mem st.space.pgdFrame (pageDirectoryIndex addr)) = false →
        ∃ page s₂, allocPage s₁ = (some page, s₂) ∧ page < 2 ^ 20 ∧
          Unused st.mem st.space.pgdFrame page := by
      intro habsent
      have htwo : (freePages st.buddy).Nontrivial := htable.resolve_left (by
        rw [habsent]
        decide)
      rcases hc₁.second_page hfree hrest with ⟨-, hone⟩ | ⟨-, u, s₂, hsome₂, hlt₂, hu⟩
      · exact absurd htwo hone
      · exact ⟨u, s₂, hsome₂, hlt₂.trans_le hn, h.unused u hu⟩
    obtain ⟨mem', s', hmap, hentered, hbits, hdir⟩ := ptableMap_entered h.apart haddr hsup (pfnToPa t) 0
    exact ⟨{ st with mem := mem', buddy := s' }, by rw [hcall, hmap]; rfl,
      h.mapped hc₁ hrest hdir haddr hn hlt hfree hentered hbits⟩
  · refine Or.inl ⟨⟨t, hfree⟩, htable, ?_⟩
    unfold TableAvailable at htable
    rw [not_or, Bool.not_eq_true] at htable
    -- the page was the only one
    have hnone : (allocPage s₁).1 = none := by
      rcases hc₁.second_page hfree hrest with ⟨hnone, -⟩ | ⟨htwo, -⟩
      · exact hnone
      · exact absurd htwo htable.2
    rw [hcall]
    unfold ptableMap
    simp only [htable.1, Bool.false_eq_true, if_false]
    rw [← Prod.mk.eta (p := allocPage s₁), hnone]
    rfl

/-! ### Faults -/

/-- The first mapping of the space that contains the address. -/
def VmSpace.FirstMapping (space : VmSpace) (addr : ℕ) (map : VmMap) : Prop :=
  ∃ before after, space.mappings = before ++ map :: after ∧ map.contains addr = true ∧
    ∀ m ∈ before, m.contains addr = false

/-- That is where the loop stops. -/
theorem firstMapping_iff : space.FirstMapping addr map ↔
    space.mappings.find? (fun m => m.contains addr) = some map := by
  rw [List.find?_eq_some_iff_append]
  unfold VmSpace.FirstMapping
  simp only [Bool.not_eq_true']
  constructor
  · rintro ⟨before, after, heq, hin, hout⟩
    exact ⟨hin, before, after, heq, hout⟩
  · rintro ⟨hin, before, after, heq, hout⟩
    exact ⟨before, after, heq, hin, hout⟩

/-- A fault inside a mapping is a page to be mapped. -/
theorem VmState.Ready.fault_first (h : st.Ready) (hfirst : st.space.FirstMapping addr map) :
    vmSpacePageFault st addr = vmSpaceMapPage st addr ∧ addr < kernelStartVirt := by
  have hfind := firstMapping_iff.mp hfirst
  constructor
  · unfold vmSpacePageFault
    rw [hfind]
  · obtain ⟨before, after, heq, hin, -⟩ := hfirst
    have hmem : map ∈ st.space.mappings := by
      rw [heq]
      exact List.mem_append_right _ List.mem_cons_self
    exact (of_decide_eq_true hin).2.trans_le (h.below map hmem)

/-- A fault outside of them is an error. -/
theorem fault_unmapped (hout : ∀ map ∈ st.space.mappings, map.contains addr = false) :
    vmSpacePageFault st addr = some (.error, st) := by
  have hfind : st.space.mappings.find? (fun m => m.contains addr) = none := by
    rw [List.find?_eq_none]
    intro map hmem
    rw [hout map hmem]
    decide
  unfold vmSpacePageFault
  rw [hfind]

/-- **A fault keeps the space in order.** -/
theorem VmState.Ready.pageFault {r : Status} (h : st.Ready)
    (hcall : vmSpacePageFault st addr = some (r, st')) : st'.Ready := by
  cases hfind : st.space.mappings.find? (fun m => m.contains addr) with
  | none =>
    have hout := List.find?_eq_none.mp hfind
    rw [fault_unmapped fun map hmem => by simpa using hout map hmem] at hcall
    cases hcall
    exact h
  | some map =>
    obtain ⟨heq, haddr⟩ := h.fault_first (firstMapping_iff.mpr hfind)
    rw [heq] at hcall
    rcases h.mapPage_cases haddr with ⟨-, hres⟩ | ⟨-, -, hres⟩ | ⟨-, -, st₁, hres, -, hready⟩
    · rw [hres] at hcall
      cases hcall
      exact h
    · rw [hres] at hcall
      cases hcall
    · rw [hres] at hcall
      cases hcall
      exact hready

/-- So do mappings added, and stores that are not into its tables. -/
theorem VmState.Ready.step {ok : VmState → ℕ → Prop} (h : st.Ready) (hstep : VmStep ok st st') :
    st'.Ready := by
  cases hstep with
  | addMap map hbelow =>
    refine ⟨h.pages, h.apart, h.tables, h.unused, fun m hm => ?_⟩
    rcases List.mem_cons.mp hm with rfl | hm
    · exact hbelow
    · exact h.below m hm
  | fault addr hok r _ hcall => exact h.pageFault hcall
  | write mem' hdir htables =>
    have hwords : ∀ i, mem' st.space.pgdFrame i = st.mem st.space.pgdFrame i := fun i => by rw [hdir]
    refine ⟨h.pages, h.apart.congr hwords, ?_, fun p hp => (h.unused p hp).congr hwords, h.below⟩
    dsimp only
    rw [hdir]
    exact h.tables

/-- **Every state of a run** from a space in order is in order. -/
theorem VmState.Ready.run {ok : VmState → ℕ → Prop} (h : st.Ready) (hrun : VmRun ok st st') :
    st'.Ready := by
  induction hrun with
  | refl => exact h
  | tail _ hstep ih => exact ih.step hstep

/-- **`vm_space_new`** makes a space in order, from a kernel directory whose tables are not free. -/
theorem vmSpaceNew_ready {mem₁ : PhysMem} {s₁ : BuddyAllocator} {slab : Bool} {kernelPgd vms : ℕ}
    (hpages : ∃ n F L S, n ≤ 2 ^ 20 ∧ Core n (kmallocPages s slab) F L S S)
    (hkernel : ∀ i < kernelPdeStart, entryExists (mem kernelPgd i) = false)
    (hunused : ∀ p ∈ freePages (kmallocPages s slab), Unused mem kernelPgd p)
    (hnew : vmSpaceNew mem s kernelPgd slab vms = some (mem₁, s₁, some space)) :
    VmState.Ready ⟨mem₁, s₁, space⟩ := by
  obtain ⟨t, halloc, rfl, rfl⟩ := vmSpaceNew_eq_some hnew
  obtain ⟨n, F, L, S, hn, hc⟩ := hpages
  rcases hc.allocPage_cases with ⟨heq, -⟩ | ⟨q, s₂, F', L', heq, hlt, hfree, hrest, hc'⟩
  · rw [heq] at halloc
    cases halloc
  obtain ⟨hqt, rfl⟩ := Prod.mk.inj (heq.symm.trans halloc)
  obtain rfl := Option.some.inj hqt
  have hframe := pgdFrame_new (hlt.trans_le hn)
  -- the new directory is a copy of the kernel's
  have hwords : ∀ i, Function.update (clearFrame mem q) q (clearFrame mem q kernelPgd) q i =
      mem kernelPgd i := by
    intro i
    rw [Function.update_self]
    unfold clearFrame
    rw [Function.update_of_ne (hunused q hfree).1.symm]
  have hnone : ∀ i < kernelPdeStart, entryExists (Function.update (clearFrame mem q) q
      (clearFrame mem q kernelPgd) q i) = false := by
    intro i hi
    rw [hwords i]
    exact hkernel i hi
  have htables : ∀ p ∈ freePages (kmallocPages s slab), ∀ j < pageDirSize,
      IsTable (Function.update (clearFrame mem q) q (clearFrame mem q kernelPgd)) q j →
      frameOf (Function.update (clearFrame mem q) q (clearFrame mem q kernelPgd) q j) ≠ p := by
    intro p hp j hj ht
    unfold IsTable at ht
    rw [hwords j] at ht ⊢
    exact (hunused p hp).2 j hj ht
  constructor
  · exact ⟨n, F', L', S, hn, hc'⟩
  · dsimp only
    rw [hframe]
    refine ⟨fun i hi hex => ?_, fun i hi j hj hij hti => ?_, fun j hj ht => htables q hfree j hj ht⟩
    · rw [hnone i hi] at hex
      cases hex
    · rw [IsTable, hnone i hi] at hti
      cases hti.1
  · dsimp only
    rw [hframe]
    intro i hi hex
    rw [hnone i hi] at hex
    cases hex
  · dsimp only
    rw [hframe, hrest]
    rintro p ⟨hp, hpq⟩
    exact ⟨hpq, fun j hj ht => htables p hp j hj ht⟩
  · intro map hmem
    cases hmem

/-! ### What a fault is to do -/

/-- Outside the mappings a fault is an error and changes nothing.  Inside, if there is a page, it
    succeeds, and the first mapping that contains the address says whether the page is writable. -/
structure FaultHonoured (st : VmState) (addr : ℕ) : Prop where
  unmapped : (∀ map ∈ st.space.mappings, map.contains addr = false) →
    vmSpacePageFault st addr = some (.error, st)
  mapped : ∀ map, st.space.FirstMapping addr map → (freePages st.buddy).Nonempty →
    ∃ st', vmSpacePageFault st addr = some (.success, st') ∧
      PageAdded st addr (testFlag map.flags vmMapWrite) st'

/-- **Demand paging.**  A fault is honoured if and only if the first mapping that contains the
    address, if there is one and a page is free, is read-only, and the table for the address is there
    or a second page is free. -/
theorem pageFault_iff (h : st.Ready) : FaultHonoured st addr ↔
    ∀ map, st.space.FirstMapping addr map → (freePages st.buddy).Nonempty →
      testFlag map.flags vmMapWrite = false ∧ TableAvailable st addr := by
  constructor
  · intro hon map hfirst hpages
    obtain ⟨heq, haddr⟩ := h.fault_first hfirst
    obtain ⟨st', hcall, hadded⟩ := hon.mapped map hfirst hpages
    rw [heq] at hcall
    rcases h.mapPage_cases haddr with ⟨hempty, -⟩ | ⟨-, -, hres⟩ | ⟨-, htable, st₁, hres, hadded₁, -⟩
    · rw [hempty] at hpages
      exact absurd hpages Set.not_nonempty_empty
    · rw [hres] at hcall
      cases hcall
    · rw [hres] at hcall
      cases hcall
      exact ⟨hadded.writable_unique hadded₁, htable⟩
  · intro hcond
    refine ⟨fault_unmapped, fun map hfirst hpages => ?_⟩
    obtain ⟨heq, haddr⟩ := h.fault_first hfirst
    obtain ⟨hreadOnly, htable⟩ := hcond map hfirst hpages
    rw [heq, hreadOnly]
    rcases h.mapPage_cases haddr with ⟨hempty, -⟩ | ⟨-, hno, -⟩ | ⟨-, -, st₁, hres, hadded, -⟩
    · rw [hempty] at hpages
      exact absurd hpages Set.not_nonempty_empty
    · exact absurd htable hno
    · exact ⟨st₁, hres, hadded⟩

/-- A new space in four pages, with one mapping. -/
def spaceWith (flags : BitVec 32) : Option VmState :=
  (vmSpaceNew (fun _ _ => 0) fourPages 0 false 1).bind fun (mem, s, space) =>
    space.map fun space => ⟨mem, s, vmSpaceAddMap space ⟨0x1000, 0x2000, flags⟩⟩

theorem spaceWith_ready (flags : BitVec 32) : ∃ st, spaceWith flags = some st ∧ st.Ready ∧
    st.space.FirstMapping 0x1000 ⟨0x1000, 0x2000, flags⟩ ∧ (freePages st.buddy).Nontrivial := by
  have hnew : (vmSpaceNew (fun _ _ => 0) fourPages 0 false 1).map (fun r =>
      (r.2.2.map VmSpace.mappings, freeList r.2.1 0, freeList r.2.1 1)) =
      some (some [], [5], [6]) := by decide +kernel
  obtain ⟨⟨mem, s, space⟩, hcall, hres⟩ := Option.map_eq_some_iff.mp hnew
  obtain ⟨hmaps, hlists⟩ := Prod.mk.inj hres
  obtain ⟨hzero, hone⟩ := Prod.mk.inj hlists
  obtain ⟨space, rfl, hmappings⟩ := Option.map_eq_some_iff.mp hmaps
  obtain ⟨F, L, S, hc⟩ := fourPages_core
  have hslab : kmallocPages fourPages false = fourPages := by simp [kmallocPages]
  have hready : VmState.Ready ⟨mem, s, space⟩ := by
    refine vmSpaceNew_ready ?_ (fun i _ => show entryExists 0 = false by decide)
      (fun p hp => ?_) hcall
    · rw [hslab]
      exact ⟨64, F, L, S, by decide, hc⟩
    rw [hslab] at hp
    -- the free pages are not frame 0, where the kernel's empty directory lies
    have hp4 := fourPages_freePages hp
    refine ⟨by omega, fun j _ ht => ?_⟩
    have hex : entryExists 0 = true := ht.1
    exact absurd hex (by decide)
  refine ⟨⟨mem, s, vmSpaceAddMap space ⟨0x1000, 0x2000, flags⟩⟩, ?_, ?_, ?_, ?_⟩
  · unfold spaceWith
    rw [hcall]
    rfl
  · exact hready.step (show VmStep (fun _ _ => True) _ _ from
      .addMap _ ⟨0x1000, 0x2000, flags⟩ (show 0x2000 ≤ kernelStartVirt by decide))
  · refine ⟨[], [], ?_, by rfl, fun m hm => by cases hm⟩
    show ⟨0x1000, 0x2000, flags⟩ :: space.mappings = _
    rw [hmappings]
    rfl
  · refine ⟨5, mem_freePages_iff.mpr ⟨0, by decide, 5, ?_, by decide⟩, 6,
      mem_freePages_iff.mpr ⟨1, by decide, 6, ?_, by decide⟩, by decide⟩
    · exact hzero ▸ List.mem_cons_self
    · exact hone ▸ List.mem_cons_self

theorem pageFault_iff_readOnly : ∃ st, spaceWith vmMapRead = some st ∧
    st.space.FirstMapping 0x1000 ⟨0x1000, 0x2000, vmMapRead⟩ ∧ (freePages st.buddy).Nonempty ∧
    FaultHonoured st 0x1000 := by
  obtain ⟨st, hst, hready, hfirst, hpages⟩ := spaceWith_ready vmMapRead
  refine ⟨st, hst, hfirst, hpages.nonempty, (pageFault_iff hready).mpr fun map hmap _ => ⟨?_, ?_⟩⟩
  · have heq := (firstMapping_iff.mp hfirst).symm.trans (firstMapping_iff.mp hmap)
    obtain rfl := Option.some.inj heq
    decide
  · exact Or.inr hpages

/-- **A page of a writable mapping is not writable.** -/
theorem pageFault_drops_write : ¬ ∀ (st : VmState) (addr : ℕ), st.Ready → FaultHonoured st addr := by
  intro h
  obtain ⟨st, hst, hready, hfirst, hpages⟩ := spaceWith_ready (vmMapRead ||| vmMapWrite)
  obtain ⟨st', hcall, hadded⟩ := (h st 0x1000 hready).mapped _ hfirst hpages.nonempty
  have hreadOnly : (spaceWith (vmMapRead ||| vmMapWrite)).map (fun st =>
      (vmSpacePageFault st 0x1000).map fun r =>
        (walk r.2.mem st.space.pgdFrame 0x1000).map Mapping.canWrite) = some (some (some false)) := by
    decide +kernel
  obtain ⟨page, -, -, m, hm, -, -, hwritable⟩ := hadded.page
  rw [hst, Option.map_some, hcall, Option.map_some, hm, Option.map_some, hwritable] at hreadOnly
  revert hreadOnly
  decide

end Rotary
