import Rotary.Mm.DemandPaging
import Mathlib.Data.Set.Card

namespace Rotary

open Lib

/-!
# User accesses under demand paging (`paging_handle_page_fault` in `paging.c`)

The processor makes an access again after its fault.  `paging_handle_page_fault` returns whether
`vm_space_page_fault` has mapped a page or not, so that an access is repeated until it is allowed.

* `userAccess` — an access with its faults;
* `userReads_faults` — reads in the mappings fault once for each page;
* `VmState.ReadOnly.run` — no page of a user is writable, in any run from `vm_space_new`;
* `userWrite_drains` — a write is never done, and takes every free page.
-/

/-- What the processor lets a user do behind a walk: both entries must be the user's, and for a
    write both must be writable. -/
def Mapping.allows (m : Mapping) (write : Bool) : Bool := m.forUser && (!write || m.canWrite)

/-- The processor allows the access. -/
def userMay (st : VmState) (addr : ℕ) (write : Bool) : Bool :=
  match walk st.mem st.space.pgdFrame addr with
  | some m => m.allows write
  | none => false

/-- How far an access has come: it is done, a fault was not resolved, or more may follow. -/
inductive Access
  | done
  | unresolved
  | pending
  deriving DecidableEq, Repr

/-- A user's access to an address, with at most `faults` faults.  `none` is a store through a null
    pointer in the kernel. -/
def userAccess (write : Bool) (addr : ℕ) : ℕ → VmState → Option (Access × VmState)
  | 0, st => some (if userMay st addr write then .done else .pending, st)
  | faults + 1, st =>
    if userMay st addr write then some (.done, st)
    else
      match vmSpacePageFault st addr with
      | none => none
      | some (.error, st) => some (.unresolved, st)
      | some (.success, st) => userAccess write addr faults st

variable {st st' : VmState} {addr va : ℕ} {map : VmMap} {mem mem' : PhysMem}
  {s s' : BuddyAllocator} {space : VmSpace}

/-! ### What a page added allows -/

/-- The addresses of a page have one walk. -/
theorem walk_same_page {pgd va va' : ℕ} (h : va / pageSize = va' / pageSize) :
    walk mem pgd va = walk mem pgd va' := by
  have hd : pageDirectoryIndex va = pageDirectoryIndex va' := by
    rw [pageDirectoryIndex_eq, pageDirectoryIndex_eq]
    unfold pageSize at h
    omega
  have ht : pageTableIndex va = pageTableIndex va' := by
    rw [pageTableIndex_eq, pageTableIndex_eq]
    unfold pageSize at h
    omega
  unfold walk hugeMapping
  rw [hd, ht]

theorem walk_of_absent {pgd : ℕ} (h : entryExists (mem pgd (pageDirectoryIndex va)) = false) :
    walk mem pgd va = none := by
  unfold walk
  simp only [h, Bool.not_false, if_true]

/-- A page that has been added may be read. -/
theorem PageAdded.may_read {writable : Bool} (h : PageAdded st addr writable st') :
    userMay st' addr false = true := by
  obtain ⟨page, -, -, m, hm, -, huser, -⟩ := h.page
  unfold userMay
  rw [h.space, hm]
  simp [Mapping.allows, huser]

/-- There is now a table for the address. -/
theorem PageAdded.table {writable : Bool} (h : PageAdded st addr writable st') :
    TableAvailable st' addr := by
  obtain ⟨page, -, -, m, hm, -⟩ := h.page
  left
  rw [h.space]
  by_contra hno
  rw [Bool.not_eq_true] at hno
  rw [walk_of_absent hno] at hm
  cases hm

/-! ### No page is writable -/

/-- No page of the user's half is writable. -/
def VmState.ReadOnly (st : VmState) : Prop :=
  ∀ va < kernelStartVirt, ∀ m, walk st.mem st.space.pgdFrame va = some m → m.canWrite = false

theorem PageAdded.readOnly (h : st.ReadOnly) (hadded : PageAdded st addr false st') :
    st'.ReadOnly := by
  intro va hva m hm
  rw [hadded.space] at hm
  by_cases hpage : va / pageSize = addr / pageSize
  · obtain ⟨page, -, -, m', hm', -, -, hwritable⟩ := hadded.page
    rw [walk_same_page hpage, hm'] at hm
    rw [← Option.some.inj hm]
    exact hwritable
  · rw [hadded.elsewhere va (hva.trans (by decide)) hpage] at hm
    exact h va hva m hm

theorem VmState.ReadOnly.pageFault {r : Status} (h : st.ReadOnly) (hready : st.Ready)
    (hcall : vmSpacePageFault st addr = some (r, st')) : st'.ReadOnly := by
  cases hfind : st.space.mappings.find? (fun m => m.contains addr) with
  | none =>
    have hout := List.find?_eq_none.mp hfind
    rw [fault_unmapped fun map hmem => by simpa using hout map hmem] at hcall
    cases hcall
    exact h
  | some map =>
    obtain ⟨heq, haddr⟩ := hready.fault_first (firstMapping_iff.mpr hfind)
    rw [heq] at hcall
    rcases hready.mapPage_cases haddr with ⟨-, hres⟩ | ⟨-, -, hres⟩ | ⟨-, -, st₁, hres, hadded, -⟩
    · rw [hres] at hcall
      cases hcall
      exact h
    · rw [hres] at hcall
      cases hcall
    · rw [hres] at hcall
      cases hcall
      exact hadded.readOnly h

theorem VmState.ReadOnly.step {ok : VmState → ℕ → Prop} (h : st.ReadOnly) (hready : st.Ready)
    (hstep : VmStep ok st st') : st'.ReadOnly := by
  cases hstep with
  | addMap map hbelow => exact h
  | fault addr hok r _ hcall => exact h.pageFault hready hcall
  | write mem' hdir htables =>
    intro va hva m hm
    have hsame : walk mem' st.space.pgdFrame va = walk st.mem st.space.pgdFrame va :=
      walk_congr (by rw [hdir]) fun hex _ => by
        rw [htables _ (pageDirectoryIndex_user hva) hex]
    rw [show walk mem' st.space.pgdFrame va = some m from hm] at hsame
    exact h va hva m hsame.symm

/-- **No page of a user is ever writable.** -/
theorem VmState.ReadOnly.run {ok : VmState → ℕ → Prop} (h : st.ReadOnly) (hready : st.Ready)
    (hrun : VmRun ok st st') : st'.ReadOnly := by
  induction hrun with
  | refl => exact h
  | tail hrun hstep ih => exact ih.step (hready.run hrun) hstep

/-- A new space has no page of a user. -/
theorem vmSpaceNew_readOnly {mem₁ : PhysMem} {s₁ : BuddyAllocator} {slab : Bool} {kernelPgd vms : ℕ}
    (hpages : ∃ n F L S, n ≤ 2 ^ 20 ∧ Core n (kmallocPages s slab) F L S S)
    (hkernel : ∀ i < kernelPdeStart, entryExists (mem kernelPgd i) = false)
    (hnew : vmSpaceNew mem s kernelPgd slab vms = some (mem₁, s₁, some space)) :
    VmState.ReadOnly ⟨mem₁, s₁, space⟩ := by
  obtain ⟨t, halloc, rfl, rfl⟩ := vmSpaceNew_eq_some hnew
  obtain ⟨n, F, L, S, hn, hc⟩ := hpages
  rcases hc.allocPage_cases with ⟨heq, -⟩ | ⟨q, s₂, F', L', heq, hlt, -⟩
  · rw [heq] at halloc
    cases halloc
  obtain rfl := Option.some.inj (Prod.mk.inj (heq.symm.trans halloc)).1
  intro va hva m hm
  have hempty := newDirectory_empty hkernel q (pageDirectoryIndex va) (pageDirectoryIndex_user hva)
  dsimp only at hm
  rw [pgdFrame_new (hlt.trans_le hn), walk_of_absent hempty] at hm
  cases hm

/-! ### Free pages -/

theorem VmState.Ready.freePages_finite (h : st.Ready) : (freePages st.buddy).Finite := by
  obtain ⟨n, F, L, S, -, hc⟩ := h.pages
  rw [hc.freePages_eq]
  exact ((Set.finite_lt_nat n).subset fun p hp => hc.inRange p hp).subset Set.sdiff_subset

/-- **What a mapped page takes**: one or two of the free pages. -/
theorem VmState.Ready.mapPage_takes (h : st.Ready)
    (hcall : vmSpaceMapPage st addr = some (.success, st')) :
    (freePages st'.buddy).ncard < (freePages st.buddy).ncard ∧
      (freePages st.buddy).ncard ≤ (freePages st'.buddy).ncard + 2 := by
  have hfinite := h.freePages_finite
  obtain ⟨n, F, L, S, -, hc⟩ := h.pages
  unfold vmSpaceMapPage at hcall
  rcases hc.allocPage_cases with ⟨hnone, -⟩ | ⟨t, s₁, F₁, L₁, hsome, -, hfree, hrest, hc₁⟩
  · rw [hnone] at hcall
    cases hcall
  rw [hsome] at hcall
  obtain ⟨⟨mem', s'⟩, hmap, hst⟩ := Option.map_eq_some_iff.mp hcall
  obtain rfl := (Prod.mk.inj hst).2
  have hlt : (freePages s₁).ncard < (freePages st.buddy).ncard := by
    rw [hrest]
    exact Set.ncard_sdiff_singleton_lt_of_mem hfree hfinite
  have hone : (freePages st.buddy).ncard ≤ (freePages s₁).ncard + 1 := by
    rw [hrest]
    have hpred := Set.pred_ncard_le_ncard_sdiff_singleton (freePages st.buddy) t
    omega
  unfold ptableMap at hmap
  dsimp only at hmap
  split at hmap
  · cases hmap
    exact ⟨hlt, by dsimp only; omega⟩
  · rcases hc₁.allocPage_cases with ⟨hnone, -⟩ | ⟨u, s₂, F₂, L₂, hsome₂, -, -, hrest₂, -⟩
    · rw [hnone] at hmap
      cases hmap
    · rw [hsome₂] at hmap
      cases hmap
      have htwo : (freePages s₁).ncard ≤ (freePages s').ncard + 1 := by
        rw [hrest₂]
        have hpred := Set.pred_ncard_le_ncard_sdiff_singleton (freePages s₁) u
        omega
      have hle : (freePages s').ncard ≤ (freePages s₁).ncard := by
        rw [hrest₂]
        exact Set.ncard_sdiff_singleton_le _ u
      exact ⟨hle.trans_lt hlt, by dsimp only; omega⟩

/-! ### Reads -/

/-- Reads one after the other, each with at most one fault, and the number of their faults; `none`
    if one of them is not done. -/
def userReads : List ℕ → VmState → Option (ℕ × VmState)
  | [], st => some (0, st)
  | addr :: addrs, st =>
    match userAccess false addr 1 st with
    | some (.done, st') => (userReads addrs st').map fun r =>
        ((if userMay st addr false then 0 else 1) + r.1, r.2)
    | _ => none

/-- The pages of the addresses that a user may not read yet. -/
def unreadPages (st : VmState) (addrs : List ℕ) : Finset ℕ :=
  ((addrs.filter fun addr => !userMay st addr false).map (· / pageSize)).toFinset

theorem userMay_same_page {write : Bool} (h : addr / pageSize = va / pageSize) :
    userMay st addr write = userMay st va write := by
  unfold userMay
  rw [walk_same_page h]

theorem mem_unreadPages {addrs : List ℕ} {page : ℕ} : page ∈ unreadPages st addrs ↔
    ∃ addr ∈ addrs, userMay st addr false = false ∧ addr / pageSize = page := by
  unfold unreadPages
  simp [and_assoc]

theorem PageAdded.may_elsewhere {writable : Bool} (h : PageAdded st addr writable st')
    (hva : va < 2 ^ 32) (hne : va / pageSize ≠ addr / pageSize) :
    userMay st' va false = userMay st va false := by
  unfold userMay
  rw [h.space, h.elsewhere va hva hne]

/-- A page that has been added is not unread any more; the others are as before. -/
theorem PageAdded.unreadPages {writable : Bool} {addrs : List ℕ}
    (h : PageAdded st addr writable st') (haddrs : ∀ va ∈ addrs, va < 2 ^ 32) :
    unreadPages st' addrs = (unreadPages st addrs).erase (addr / pageSize) := by
  ext page
  rw [Finset.mem_erase, mem_unreadPages, mem_unreadPages]
  constructor
  · rintro ⟨va, hva, hno, rfl⟩
    have hne : va / pageSize ≠ addr / pageSize := by
      intro heq
      rw [userMay_same_page heq, h.may_read] at hno
      cases hno
    exact ⟨hne, va, hva, (h.may_elsewhere (haddrs va hva) hne).symm.trans hno, rfl⟩
  · rintro ⟨hne, va, hva, hno, rfl⟩
    exact ⟨va, hva, (h.may_elsewhere (haddrs va hva) hne).trans hno, rfl⟩

/-- One fault of a read. -/
theorem VmState.Ready.read_fault (h : st.Ready) (hfirst : st.space.FirstMapping addr map)
    (hpages : 2 ≤ (freePages st.buddy).ncard) (hfault : userMay st addr false = false) :
    ∃ st', PageAdded st addr false st' ∧ st'.Ready ∧
      (freePages st.buddy).ncard ≤ (freePages st'.buddy).ncard + 2 ∧
      userAccess false addr 1 st = some (.done, st') := by
  obtain ⟨heq, haddr⟩ := h.fault_first hfirst
  have htwo := (Set.one_lt_ncard_iff_nontrivial_and_finite.mp hpages).1
  rcases h.mapPage_cases haddr with ⟨hempty, -⟩ | ⟨-, hno, -⟩ | ⟨-, -, st', hcall, hadded, hready⟩
  · rw [hempty] at htwo
    exact absurd htwo Set.not_nontrivial_empty
  · exact absurd (Or.inr htwo) hno
  · refine ⟨st', hadded, hready, (h.mapPage_takes hcall).2, ?_⟩
    rw [userAccess, if_neg (by rw [hfault]; decide), heq, hcall]
    dsimp only
    rw [userAccess, if_pos hadded.may_read]

theorem unreadPages_cons_of_may {addrs : List ℕ} (h : userMay st addr false = true) :
    unreadPages st (addr :: addrs) = unreadPages st addrs := by
  unfold unreadPages
  rw [List.filter_cons_of_neg (by simp [h])]

/-- **Reads fault once for each page.**  Reads inside the mappings are all done, in any order and
    however often, with as many faults as there are pages that are read for the first time, if two
    pages are free for each of them. -/
theorem userReads_faults {addrs : List ℕ} (h : st.Ready)
    (hmapped : ∀ addr ∈ addrs, ∃ map, st.space.FirstMapping addr map)
    (hpages : 2 * (unreadPages st addrs).card ≤ (freePages st.buddy).ncard) :
    ∃ st', userReads addrs st = some ((unreadPages st addrs).card, st') ∧ st'.Ready ∧
      (∀ addr ∈ addrs, userMay st' addr false = true) ∧
      ∀ va < 2 ^ 32, userMay st va false = true → userMay st' va false = true := by
  induction addrs generalizing st with
  | nil => exact ⟨st, rfl, h, by simp, fun _ _ => id⟩
  | cons addr addrs ih =>
    have hmapped' := fun va hva => hmapped va (List.mem_cons_of_mem addr hva)
    obtain ⟨map, hfirst⟩ := hmapped addr List.mem_cons_self
    have hlt : ∀ va ∈ addr :: addrs, va < 2 ^ 32 := fun va hva => by
      obtain ⟨map, hva⟩ := hmapped va hva
      exact (h.fault_first hva).2.trans (by decide)
    cases hmay : userMay st addr false with
    | true =>
      rw [unreadPages_cons_of_may hmay] at hpages ⊢
      obtain ⟨st', hrun, hready, hread, hkeeps⟩ := ih h hmapped' hpages
      refine ⟨st', ?_, hready, fun va hva => ?_, hkeeps⟩
      · have hdone : userAccess false addr 1 st = some (.done, st) := by
          rw [userAccess, if_pos hmay]
        simp only [userReads, hdone, hmay, hrun, if_true, Option.map_some, Nat.zero_add]
      · rcases List.mem_cons.mp hva with rfl | hva
        · exact hkeeps va (hlt va List.mem_cons_self) hmay
        · exact hread va hva
    | false =>
      have hmem : addr / pageSize ∈ unreadPages st (addr :: addrs) :=
        mem_unreadPages.mpr ⟨addr, List.mem_cons_self, hmay, rfl⟩
      have hcard := Finset.card_erase_add_one hmem
      obtain ⟨st₁, hadded, hready₁, htaken, hdone⟩ := h.read_fault hfirst (by omega) hmay
      -- one page less is unread
      have hunread := hadded.unreadPages hlt
      rw [unreadPages_cons_of_may hadded.may_read] at hunread
      rw [← hunread] at hcard
      obtain ⟨st', hrun, hready, hread, hkeeps⟩ :=
        ih hready₁ (hadded.space ▸ hmapped') (by omega)
      have hkept : ∀ va < 2 ^ 32, userMay st va false = true → userMay st' va false = true := by
        intro va hva hva'
        refine hkeeps va hva ?_
        by_cases hpage : va / pageSize = addr / pageSize
        · rw [userMay_same_page hpage]
          exact hadded.may_read
        · rwa [hadded.may_elsewhere hva hpage]
      refine ⟨st', ?_, hready, fun va hva => ?_, hkept⟩
      · simp only [userReads, hdone, hmay, hrun, Bool.false_eq_true, if_false, Option.map_some]
        rw [Nat.add_comm, hcard]
      · rcases List.mem_cons.mp hva with rfl | hva
        · exact hkeeps va (hlt va List.mem_cons_self) hadded.may_read
        · exact hread va hva

/-- One address read twice: at most one fault. -/
theorem userReads_faults_twice : ∃ st n st', spaceWith vmMapRead = some st ∧ n ≤ 1 ∧
    userReads [0x1000, 0x1000] st = some (n, st') ∧ userMay st' 0x1000 false = true := by
  obtain ⟨st, hst, hready, hfirst, hpages⟩ := spaceWith_ready vmMapRead
  have hcard : (unreadPages st [0x1000, 0x1000]).card ≤ 1 := by
    refine Finset.card_le_one_iff_subset_singleton.mpr ⟨0x1000 / pageSize, fun page hpage => ?_⟩
    obtain ⟨addr, haddr, -, rfl⟩ := mem_unreadPages.mp hpage
    simp only [List.mem_cons, List.not_mem_nil, or_false, or_self] at haddr
    rw [haddr]
    exact Finset.mem_singleton_self _
  have htwo := Set.one_lt_ncard_iff_nontrivial_and_finite.mpr ⟨hpages, hready.freePages_finite⟩
  have hmapped : ∀ addr ∈ [0x1000, 0x1000], ∃ map, st.space.FirstMapping addr map := by
    intro addr haddr
    simp only [List.mem_cons, List.not_mem_nil, or_false, or_self] at haddr
    exact ⟨_, haddr ▸ hfirst⟩
  obtain ⟨st', hrun, -, hread, -⟩ := userReads_faults hready hmapped (by omega)
  exact ⟨st, _, st', hst, hcard, hrun, hread _ List.mem_cons_self⟩

/-! ### Writes -/

/-- A write is not allowed. -/
theorem VmState.ReadOnly.may_not (h : st.ReadOnly) (haddr : addr < kernelStartVirt) :
    userMay st addr true = false := by
  unfold userMay
  cases hw : walk st.mem st.space.pgdFrame addr with
  | none => rfl
  | some m => simp [Mapping.allows, h addr haddr m hw]

/-- One fault of a write: there is no page, or the same write faults again with fewer of them. -/
theorem VmState.ReadOnly.write_fault (h : st.ReadOnly) (hready : st.Ready)
    (hfirst : st.space.FirstMapping addr map) (htable : TableAvailable st addr) :
    (freePages st.buddy = ∅ ∧
      ∀ faults, userAccess true addr (faults + 1) st = some (.unresolved, st)) ∨
    ∃ st', st'.ReadOnly ∧ st'.Ready ∧ st'.space.FirstMapping addr map ∧ TableAvailable st' addr ∧
      (freePages st'.buddy).ncard < (freePages st.buddy).ncard ∧
      ∀ faults, userAccess true addr (faults + 1) st = userAccess true addr faults st' := by
  obtain ⟨heq, haddr⟩ := hready.fault_first hfirst
  have hmay := h.may_not haddr
  rcases hready.mapPage_cases haddr with ⟨hempty, hcall⟩ | ⟨-, hno, -⟩ |
    ⟨-, -, st', hcall, hadded, hready'⟩
  · refine Or.inl ⟨hempty, fun faults => ?_⟩
    rw [userAccess, if_neg (by rw [hmay]; decide), heq, hcall]
  · exact absurd htable hno
  · refine Or.inr ⟨st', hadded.readOnly h, hready', hadded.space ▸ hfirst, hadded.table,
      (hready.mapPage_takes hcall).1, fun faults => ?_⟩
    rw [userAccess, if_neg (by rw [hmay]; decide), heq, hcall]

theorem VmState.ReadOnly.write_not_done (h : st.ReadOnly) (hready : st.Ready)
    (hfirst : st.space.FirstMapping addr map) (htable : TableAvailable st addr) (faults : ℕ) :
    ∃ r st', userAccess true addr faults st = some (r, st') ∧ r ≠ .done := by
  induction faults generalizing st with
  | zero =>
    have hmay := h.may_not (hready.fault_first hfirst).2
    refine ⟨.pending, st, ?_, by decide⟩
    rw [userAccess, if_neg (by rw [hmay]; decide)]
  | succ faults ih =>
    rcases h.write_fault hready hfirst htable with ⟨-, hcall⟩ |
      ⟨st', h', hready', hfirst', htable', -, hcall⟩
    · exact ⟨_, _, hcall faults, by decide⟩
    · rw [hcall]
      exact ih h' hready' hfirst' htable'

theorem VmState.ReadOnly.write_drains {k : ℕ} (h : st.ReadOnly) (hready : st.Ready)
    (hfirst : st.space.FirstMapping addr map) (htable : TableAvailable st addr)
    (hk : (freePages st.buddy).ncard ≤ k) :
    ∃ st', freePages st'.buddy = ∅ ∧
      ∀ faults, k < faults → userAccess true addr faults st = some (.unresolved, st') := by
  induction k generalizing st with
  | zero =>
    rcases h.write_fault hready hfirst htable with ⟨hempty, hcall⟩ | ⟨st', -, -, -, -, hless, -⟩
    · refine ⟨st, hempty, fun faults hfaults => ?_⟩
      obtain ⟨faults, rfl⟩ := Nat.exists_eq_succ_of_ne_zero (Nat.ne_of_gt hfaults)
      exact hcall faults
    · omega
  | succ k ih =>
    rcases h.write_fault hready hfirst htable with ⟨hempty, hcall⟩ |
      ⟨st', h', hready', hfirst', htable', hless, hcall⟩
    · refine ⟨st, hempty, fun faults hfaults => ?_⟩
      obtain ⟨faults, rfl⟩ := Nat.exists_eq_succ_of_ne_zero (by omega : faults ≠ 0)
      exact hcall faults
    · obtain ⟨st'', hempty, hrun⟩ := ih h' hready' hfirst' htable' (by omega)
      refine ⟨st'', hempty, fun faults hfaults => ?_⟩
      obtain ⟨faults, rfl⟩ := Nat.exists_eq_succ_of_ne_zero (by omega : faults ≠ 0)
      rw [hcall]
      exact hrun faults (by omega)

end Rotary
