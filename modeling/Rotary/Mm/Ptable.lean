import Rotary.Arch.Ptable

namespace Rotary

/-!
# Page-table operations (`kernel/mm/ptable.c`)

`ptable_map` and its relatives edit a two-level tree of raw frames: a directory entry names
the frame of a table, and a missing table is allocated on the way.  A frame is reached at its
physical address, so that only the frame numbers in the entries say which table is which.

The allocator is a parameter: `alloc s` is what `page_alloc(0, ..)` returns in the allocator's
state `s`, with the state after it.

Against this stands the map from pages to frames that an address space is for (`pageMap`):

* `PtableOk` — no two tables of a directory share a frame;
* `ptableMap_spec` / `ptableUnmap_spec` — under `PtableOk`, one call is one update of the map;
* `ptableMapMany_spec` / `ptableUnmapMany_spec` — a run of calls is the fold of the updates.

Left out: the invalidation of TLB entries, and the log messages.
-/

def vmMapRead : BitVec 32 := 0x01
def vmMapWrite : BitVec 32 := 0x02

/-- `PAGE_DIRECTORY_INDEX(KERNEL_START_VIRT)`: the directory entries below it are the user's. -/
def kernelPdeStart : ℕ := pageDirectoryIndex kernelStartVirt

/-- `memset(PAGE_VA(page), 0, PAGE_SIZE)`. -/
def clearFrame (mem : PhysMem) (frame : ℕ) : PhysMem := Function.update mem frame fun _ => 0

/-- The entry `ptable_map` stores. -/
def mapEntry (physAddr : ℕ) (flags : BitVec 32) : BitVec 32 :=
  let entry := makeEntry physAddr (ptePresent ||| pteUser)
  if testFlag flags vmMapWrite then setFlag entry pteWritable else entry

section Model

variable {σ : Type} (alloc : σ → Option ℕ × σ)

/-- The directory entry for a new table in `page`. -/
def newPde (page : ℕ) : BitVec 32 :=
  makeEntry (pfnToPa page) (pdePresent ||| pdeWritable ||| pdeUser)

/-- `ptable_map`; `none` when `page_alloc` fails and the null page is dereferenced. -/
def ptableMap (mem : PhysMem) (s : σ) (pgd virtAddr physAddr : ℕ) (flags : BitVec 32) :
    Option (PhysMem × σ) :=
  let entry := mapEntry physAddr flags
  let idx := pageDirectoryIndex virtAddr
  if entryExists (mem pgd idx) then
    some (setWord mem (frameOf (mem pgd idx)) (pageTableIndex virtAddr) entry, s)
  else
    match alloc s with
    | (none, _) => none
    | (some page, s) =>
      let mem := clearFrame mem page
      let mem := setWord mem pgd idx (newPde page)
      some (setWord mem (frameOf (mem pgd idx)) (pageTableIndex virtAddr) entry, s)

/-- `ptable_map_many`. -/
def ptableMapMany (mem : PhysMem) (s : σ) (pgd virtAddr physAddr count : ℕ) (flags : BitVec 32) :
    Option (PhysMem × σ) :=
  (List.range count).foldlM (fun (x : PhysMem × σ) i =>
    ptableMap alloc x.1 x.2 pgd (u32 (virtAddr + i * pageSize)) (u32 (physAddr + i * pageSize))
      flags) (mem, s)

/-- `pte->address = 0; pte->present = 0`. -/
def clearPte (pte : BitVec 32) : BitVec 32 := pte &&& ~~~0xFFFFF001#32

/-- `ptable_unmap`: the memory, and the pfn it passes to `page_free`. -/
def ptableUnmap (mem : PhysMem) (pgd virtAddr : ℕ) (free : Bool) : PhysMem × Option ℕ :=
  let pde := mem pgd (pageDirectoryIndex virtAddr)
  if !entryExists pde then (mem, none)
  else
    let pte := mem (frameOf pde) (pageTableIndex virtAddr)
    (setWord mem (frameOf pde) (pageTableIndex virtAddr) (clearPte pte),
      if free then some (paToPfn (pageFrame pte)) else none)

/-- `ptable_unmap_many`: the memory, and the pfns it passes to `page_free`. -/
def ptableUnmapMany (mem : PhysMem) (pgd virtAddr count : ℕ) (free : Bool) :
    PhysMem × List ℕ :=
  (List.range count).foldl (fun (x : PhysMem × List ℕ) i =>
    let r := ptableUnmap x.1 pgd (u32 (virtAddr + i * pageSize)) free
    (r.1, x.2 ++ r.2.toList)) (mem, [])

/-- `ptable_get_pte`: the frame and index of the entry; `none` is the null pointer. -/
def ptableGetPte (mem : PhysMem) (pgd virtAddr : ℕ) : Option (ℕ × ℕ) :=
  let pde := mem pgd (pageDirectoryIndex virtAddr)
  if !entryExists pde then none else some (frameOf pde, pageTableIndex virtAddr)

/-- `ptable_pgd_new`: the new directory, with a copy of the kernel's entries.  `PAGE_VA` of the
    page comes before the null check, so that `none` also stands for a failed `page_alloc`. -/
def ptablePgdNew (mem : PhysMem) (s : σ) (kernelPgd : ℕ) : Option (ℕ × PhysMem × σ) :=
  match alloc s with
  | (none, _) => none
  | (some page, s) =>
    let mem := clearFrame mem page
    some (page, Function.update mem page (mem kernelPgd), s)

/-- `page_free_va(va, 0)`; `free s pfn` is the allocator after `page_free` of that page. -/
def pageFreeVa (free : σ → ℕ → σ) (s : σ) (va : ℕ) : σ := free s (paToPfn (virToPhy va))

/-- The inner loop of `ptable_pgd_free`, over the entries of the table in `frame`. -/
def ptablePgtFree (free : σ → ℕ → σ) (mem : PhysMem) (s : σ) (frame : ℕ) : σ :=
  (List.range pageTableSize).foldl (fun s pteIndex =>
    let pte := mem frame pteIndex
    if !entryExists pte then s else pageFreeVa free s (phyToVir (pageFrame pte))) s

/-- `ptable_pgd_free`. -/
def ptablePgdFree (free : σ → ℕ → σ) (mem : PhysMem) (s : σ) (pgd : ℕ) : σ :=
  let s := (List.range kernelPdeStart).foldl (fun s pdeIndex =>
    let pde := mem pgd pdeIndex
    if !entryExists pde then s
    else
      let s := if pdeIsHuge pde then s else ptablePgtFree free mem s (frameOf pde)
      pageFreeVa free s (phyToVir (pageFrame pde))) s
  pageFreeVa free s (phyToVir (pfnToPa pgd))

end Model

/-! ### The map an address space stands for -/

/-- A page as its table entry has it. -/
structure PageInfo where
  frame : ℕ
  user : Bool
  writable : Bool
  deriving DecidableEq, Repr

def Mapping.info (m : Mapping) : PageInfo := ⟨m.frame, m.user, m.writable⟩

/-- The pages of the address space behind the directory in frame `pgd`. -/
def pageMap (mem : PhysMem) (pgd : ℕ) : ℕ → Option PageInfo := fun n =>
  if n < 2 ^ 20 then (walk mem pgd (n * pageSize)).map Mapping.info else none

/-- What `ptable_map` is asked to enter. -/
def requested (physAddr : ℕ) (flags : BitVec 32) : PageInfo :=
  ⟨pageFrame (BitVec.ofNat 32 physAddr), true, testFlag flags vmMapWrite⟩

/-! ### Tables do not share frames -/

/-- The user entries point to tables in frames of their own: shared with no other entry, the
    kernel's included, and not with the directory. -/
structure PtableOk (mem : PhysMem) (pgd : ℕ) : Prop where
  small : ∀ i < kernelPdeStart, entryExists (mem pgd i) = true → pdeIsHuge (mem pgd i) = false
  distinct : ∀ i < kernelPdeStart, ∀ j < pageDirSize, i ≠ j → IsTable mem pgd i →
    IsTable mem pgd j → frameOf (mem pgd i) ≠ frameOf (mem pgd j)
  notDirectory : ∀ j < pageDirSize, IsTable mem pgd j → frameOf (mem pgd j) ≠ pgd

/-- A frame that is neither the directory nor one of its tables. -/
def Unused (mem : PhysMem) (pgd f : ℕ) : Prop :=
  f ≠ pgd ∧ ∀ j < pageDirSize, IsTable mem pgd j → frameOf (mem pgd j) ≠ f

variable {mem mem' : PhysMem} {pgd va va' pa page : ℕ} {flags : BitVec 32}

theorem kernelPdeStart_eq : kernelPdeStart = 768 := by decide

theorem PtableOk.isTable {i : ℕ} (h : PtableOk mem pgd) (hi : i < kernelPdeStart)
    (hex : entryExists (mem pgd i) = true) : IsTable mem pgd i :=
  ⟨hex, h.small i hi hex⟩

theorem pageDirectoryIndex_user (h : va < kernelStartVirt) :
    pageDirectoryIndex va < kernelPdeStart := by
  rw [pageDirectoryIndex_eq, kernelPdeStart_eq]
  unfold kernelStartVirt at h
  omega

theorem pageDirectoryIndex_lt (va : ℕ) : pageDirectoryIndex va < pageDirSize := by
  rw [pageDirectoryIndex_eq]
  exact Nat.mod_lt _ (by decide)

/-- The condition is about the words of the directory, which may also be a copy in another frame,
    apart from the tables. -/
theorem PtableOk.copy {pgd' : ℕ} (h : PtableOk mem pgd) (heq : ∀ j, mem' pgd' j = mem pgd j)
    (hdir : ∀ j < pageDirSize, IsTable mem pgd j → frameOf (mem pgd j) ≠ pgd') :
    PtableOk mem' pgd' := by
  refine ⟨?_, ?_, ?_⟩
  · intro i hi
    rw [heq]
    exact h.small i hi
  · intro i hi j hj hij hti htj
    unfold IsTable at hti htj
    rw [heq] at hti htj ⊢
    rw [heq]
    exact h.distinct i hi j hj hij hti htj
  · intro j hj ht
    unfold IsTable at ht
    rw [heq] at ht ⊢
    exact hdir j hj ht

theorem PtableOk.congr (h : PtableOk mem pgd) (heq : ∀ j, mem' pgd j = mem pgd j) :
    PtableOk mem' pgd := h.copy heq h.notDirectory

theorem Unused.congr {f : ℕ} (h : Unused mem pgd f) (heq : ∀ j, mem' pgd j = mem pgd j) :
    Unused mem' pgd f := by
  refine ⟨h.1, fun j hj ht => ?_⟩
  unfold IsTable at ht
  rw [heq] at ht ⊢
  exact h.2 j hj ht

/-! ### Entries -/

theorem mapEntry_eq (pa : ℕ) (flags : BitVec 32) :
    mapEntry pa flags = makeEntry pa (if testFlag flags vmMapWrite
      then ptePresent ||| pteUser ||| pteWritable else ptePresent ||| pteUser) := by
  unfold mapEntry
  split
  · exact setFlag_makeEntry pa _ (by decide)
  · rfl

theorem mapEntry_exists (pa : ℕ) (flags : BitVec 32) : entryExists (mapEntry pa flags) = true := by
  unfold entryExists
  rw [mapEntry_eq, testFlag_makeEntry _ _ (by decide)]
  split <;> decide

/-- The entry gives the page what was asked for, under whatever the directory entry allows. -/
theorem leafMapping_mapEntry (pde : BitVec 32) (pa : ℕ) (flags : BitVec 32) :
    leafMapping pde (mapEntry pa flags) =
      ⟨pageFrame (BitVec.ofNat 32 pa), true, testFlag flags vmMapWrite, testFlag pde pdeUser,
        testFlag pde pdeWritable⟩ := by
  have hframe : pageFrame (mapEntry pa flags) = pageFrame (BitVec.ofNat 32 pa) := by
    rw [mapEntry_eq, pageFrame_makeEntry, pageFrame_eq, BitVec.toNat_ofNat]
    rfl
  have huser : testFlag (mapEntry pa flags) pteUser = true := by
    rw [mapEntry_eq, testFlag_makeEntry _ _ (by decide)]
    split <;> decide
  have hwrite : testFlag (mapEntry pa flags) pteWritable = testFlag flags vmMapWrite := by
    rw [mapEntry_eq, testFlag_makeEntry _ _ (by decide)]
    split
    · rename_i h
      rw [h]
      decide
    · rename_i h
      rw [Bool.not_eq_true] at h
      rw [h]
      decide
  unfold leafMapping
  rw [hframe, huser, hwrite]

theorem newPde_spec (hp : page < 2 ^ 20) :
    entryExists (newPde page) = true ∧ pdeIsHuge (newPde page) = false ∧
      frameOf (newPde page) = page ∧ testFlag (newPde page) pdeUser = true ∧
      testFlag (newPde page) pdeWritable = true := by
  have hpa : pfnToPa page = page * 4096 := u32_of_lt (by unfold pageSize; omega)
  refine ⟨?_, ?_, ?_, ?_, ?_⟩
  · unfold entryExists newPde
    rw [testFlag_makeEntry _ _ (by decide)]
    decide
  · unfold pdeIsHuge newPde
    rw [testFlag_makeEntry _ _ (by decide)]
    decide
  · unfold newPde
    rw [frameOf_makeEntry, hpa, u32_of_lt (by omega)]
    omega
  · unfold newPde
    rw [testFlag_makeEntry _ _ (by decide)]
    decide
  · unfold newPde
    rw [testFlag_makeEntry _ _ (by decide)]
    decide

theorem clearPte_exists (pte : BitVec 32) : entryExists (clearPte pte) = false := by
  unfold entryExists testFlag clearPte pdePresent
  rw [BitVec.and_assoc]
  simp

/-! ### Storing into a table -/

/-- A store into the table of a user entry leaves the directory alone, and the words of every other
    page. -/
theorem PtableOk.store_words (h : PtableOk mem pgd) (hva : va < kernelStartVirt)
    (hex : entryExists (mem pgd (pageDirectoryIndex va)) = true) (v : BitVec 32) :
    let mem' := setWord mem (frameOf (mem pgd (pageDirectoryIndex va))) (pageTableIndex va) v
    (∀ j, mem' pgd j = mem pgd j) ∧
      ∀ va' < 2 ^ 32, va' / pageSize ≠ va / pageSize → IsTable mem pgd (pageDirectoryIndex va') →
        mem' (frameOf (mem pgd (pageDirectoryIndex va'))) (pageTableIndex va') =
          mem (frameOf (mem pgd (pageDirectoryIndex va'))) (pageTableIndex va') := by
  intro mem'
  have huser := pageDirectoryIndex_user hva
  have hva32 : va < 2 ^ 32 := hva.trans (by decide)
  have htable : IsTable mem pgd (pageDirectoryIndex va) := h.isTable huser hex
  have hdir : frameOf (mem pgd (pageDirectoryIndex va)) ≠ pgd :=
    h.notDirectory _ (pageDirectoryIndex_lt va) htable
  refine ⟨fun j => setWord_of_ne mem v fun heq => hdir heq.1.symm, ?_⟩
  intro va' hva' hne htable'
  apply setWord_of_ne
  rintro ⟨hf, ht⟩
  -- the same word means the same table and the same index in it
  by_cases hd : pageDirectoryIndex va = pageDirectoryIndex va'
  · exact hne (page_eq_of_index_eq hva' hva32 hd.symm ht)
  · exact h.distinct _ huser _ (pageDirectoryIndex_lt va') hd htable htable' hf.symm

/-- A store into the table of a user entry changes the walk of one page only. -/
theorem PtableOk.store_table (h : PtableOk mem pgd) (hva : va < kernelStartVirt)
    (hex : entryExists (mem pgd (pageDirectoryIndex va)) = true) (v : BitVec 32) :
    let mem' := setWord mem (frameOf (mem pgd (pageDirectoryIndex va))) (pageTableIndex va) v
    (∀ j, mem' pgd j = mem pgd j) ∧
      (walk mem' pgd va = if entryExists v then
        some (leafMapping (mem pgd (pageDirectoryIndex va)) v) else none) ∧
      ∀ va' < 2 ^ 32, va' / pageSize ≠ va / pageSize → walk mem' pgd va' = walk mem pgd va' := by
  intro mem'
  obtain ⟨hkeep, hwords⟩ := h.store_words hva hex v
  refine ⟨hkeep, ?_, ?_⟩
  · rw [walk_table (hkeep _) hex (h.small _ (pageDirectoryIndex_user hva) hex), setWord_self]
  · intro va' hva' hne
    exact walk_congr (hkeep _) fun hex' hhuge' => hwords va' hva' hne ⟨hex', hhuge'⟩

/-- An entry may be pointed at a frame of its own. -/
theorem PtableOk.point_at (h : PtableOk mem pgd) (hp : page < 2 ^ 20) (hfree : Unused mem pgd page)
    (d : ℕ) : PtableOk (setWord mem pgd d (newPde page)) pgd := by
  obtain ⟨-, hnhuge, hframe, -, -⟩ := newPde_spec hp
  have hself : setWord mem pgd d (newPde page) pgd d = newPde page := setWord_self _ _ _ _
  have hother : ∀ j, j ≠ d → setWord mem pgd d (newPde page) pgd j = mem pgd j := fun j hj =>
    setWord_of_ne _ _ fun heq => hj heq.2
  refine ⟨?_, ?_, ?_⟩
  · intro i hi hexi
    by_cases hid : i = d
    · rw [hid, hself]
      exact hnhuge
    · rw [hother i hid] at hexi ⊢
      exact h.small i hi hexi
  · -- two tables: at most one of them is the new one, whose page no entry had
    intro i hi j hj hij hti htj
    unfold IsTable at hti htj
    by_cases hid : i = d
    · have hjd : j ≠ d := fun hjd => hij (hid.trans hjd.symm)
      rw [hother j hjd] at htj ⊢
      rw [hid, hself, hframe]
      exact (hfree.2 j hj htj).symm
    · rw [hother i hid] at hti ⊢
      by_cases hjd : j = d
      · rw [hjd, hself, hframe]
        exact hfree.2 i (by rw [kernelPdeStart_eq] at hi; unfold pageDirSize; omega) hti
      · rw [hother j hjd] at htj ⊢
        exact h.distinct i hi j hj hij hti htj
  · intro j hj htj
    unfold IsTable at htj
    by_cases hjd : j = d
    · rw [hjd, hself, hframe]
      exact hfree.1
    · rw [hother j hjd] at htj ⊢
      exact h.notDirectory j hj htj

/-- A new, empty table changes no walk. -/
theorem PtableOk.add_table (h : PtableOk mem pgd)
    (hex : entryExists (mem pgd (pageDirectoryIndex va)) = false) (hp : page < 2 ^ 20)
    (hfree : Unused mem pgd page) :
    let mem' := setWord (clearFrame mem page) pgd (pageDirectoryIndex va) (newPde page)
    PtableOk mem' pgd ∧ mem' pgd (pageDirectoryIndex va) = newPde page ∧
      (∀ j, j ≠ pageDirectoryIndex va → mem' pgd j = mem pgd j) ∧
      ∀ va', walk mem' pgd va' = walk mem pgd va' := by
  intro mem'
  obtain ⟨hnew, hnhuge, hframe, -, -⟩ := newPde_spec hp
  have hclear : clearFrame mem page pgd = mem pgd := Function.update_of_ne hfree.1.symm _ _
  have hself : mem' pgd (pageDirectoryIndex va) = newPde page := setWord_self _ _ _ _
  have hother : ∀ j, j ≠ pageDirectoryIndex va → mem' pgd j = mem pgd j := by
    intro j hj
    show setWord _ pgd _ _ pgd j = _
    rw [setWord_of_ne _ _ fun heq => hj heq.2, hclear]
  refine ⟨?_, hself, hother, ?_⟩
  · have hwords : ∀ j, clearFrame mem page pgd j = mem pgd j := fun j => by rw [hclear]
    exact (h.congr hwords).point_at hp (hfree.congr hwords) _
  · intro va'
    by_cases hd : pageDirectoryIndex va' = pageDirectoryIndex va
    · -- the entry was absent, and its new table is empty
      have hzero : mem' page (pageTableIndex va') = 0 := by
        show setWord _ pgd _ _ page _ = 0
        rw [setWord_of_ne _ _ fun heq => hfree.1 heq.1]
        simp [clearFrame]
      have hnone : walk mem pgd va' = none := by
        unfold walk
        rw [hd]
        simp [hex]
      rw [hnone, walk_table (by rw [hd]; exact hself) hnew hnhuge, hframe, hzero]
      rfl
    · -- the other entries have their tables as before
      apply walk_congr (hother _ hd)
      intro hex' hhuge'
      have htable : IsTable mem pgd (pageDirectoryIndex va') := ⟨hex', hhuge'⟩
      have hlt := pageDirectoryIndex_lt va'
      show setWord _ pgd _ _ _ _ = _
      rw [setWord_of_ne _ _ fun heq => h.notDirectory _ hlt htable heq.1]
      show Function.update mem page _ _ _ = _
      rw [Function.update_of_ne (hfree.2 _ hlt htable)]

/-! ### Single pages -/

/-- The walk does not look at the offset in the page. -/
theorem walk_page (mem : PhysMem) (pgd va : ℕ) :
    walk mem pgd (va / pageSize * pageSize) = walk mem pgd va := by
  have hd : pageDirectoryIndex (va / pageSize * pageSize) = pageDirectoryIndex va := by
    rw [pageDirectoryIndex_eq, pageDirectoryIndex_eq]
    unfold pageSize
    omega
  have ht : pageTableIndex (va / pageSize * pageSize) = pageTableIndex va := by
    rw [pageTableIndex_eq, pageTableIndex_eq]
    unfold pageSize
    omega
  unfold walk hugeMapping
  rw [hd, ht]

/-- One page of the directory has changed to `o`, and the tables are still apart. -/
structure Entered (mem mem' : PhysMem) (pgd va : ℕ) (o : Option PageInfo) : Prop where
  ok : PtableOk mem' pgd
  here : (walk mem' pgd va).map Mapping.info = o
  elsewhere : ∀ va' < 2 ^ 32, va' / pageSize ≠ va / pageSize → walk mem' pgd va' = walk mem pgd va'

/-- A change of one page is an update of the map. -/
theorem Entered.pageMap_eq {o : Option PageInfo} (h : Entered mem mem' pgd va o)
    (hva : va < 2 ^ 32) :
    pageMap mem' pgd = Function.update (pageMap mem pgd) (va / pageSize) o := by
  funext n
  unfold pageMap
  by_cases hn : n = va / pageSize
  · have hlt : n < 2 ^ 20 := by
      unfold pageSize at hn
      omega
    rw [if_pos hlt, hn, walk_page, h.here, Function.update_self]
  · rw [Function.update_of_ne hn]
    by_cases hlt : n < 2 ^ 20
    · rw [if_pos hlt, if_pos hlt, h.elsewhere]
      · unfold pageSize
        omega
      · rwa [Nat.mul_div_cancel _ (by decide)]
    · rw [if_neg hlt, if_neg hlt]

section Calls

variable {σ : Type} {alloc : σ → Option ℕ × σ} {avail : σ → Set ℕ} {s : σ}

/-- What `page_alloc` promises: in state `s` it hands out frames of `avail s`, each once. -/
structure FrameSource (alloc : σ → Option ℕ × σ) (avail : σ → Set ℕ) : Prop where
  gives : ∀ s p s', alloc s = (some p, s') → p ∈ avail s ∧ p ∉ avail s' ∧ avail s' ⊆ avail s
  fits : ∀ s, ∀ p ∈ avail s, p < 2 ^ 20

/-- The next `n` calls of `page_alloc` succeed. -/
def Supplies (alloc : σ → Option ℕ × σ) : ℕ → σ → Prop
  | 0, _ => True
  | n + 1, s => ∃ p s', alloc s = (some p, s') ∧ Supplies alloc n s'

theorem Supplies.pred {n : ℕ} (h : Supplies alloc (n + 1) s) : Supplies alloc n s := by
  induction n generalizing s with
  | zero => trivial
  | succ n ih =>
    obtain ⟨p, s', heq, h'⟩ := h
    exact ⟨p, s', heq, ih h'⟩

/-- The permission bits a directory entry contributes once a page below it is mapped: its own,
    or those of a new table. -/
def tableBits (mem : PhysMem) (pgd va : ℕ) : Bool × Bool :=
  let pde := mem pgd (pageDirectoryIndex va)
  if entryExists pde then (testFlag pde pdeUser, testFlag pde pdeWritable) else (true, true)

/-- **`ptable_map`** enters one page, and points at most one entry of the directory to a new table. -/
theorem ptableMap_entered (hok : PtableOk mem pgd) (hva : va < kernelStartVirt)
    (hsup : entryExists (mem pgd (pageDirectoryIndex va)) = false →
      ∃ page s₁, alloc s = (some page, s₁) ∧ page < 2 ^ 20 ∧ Unused mem pgd page)
    (pa : ℕ) (flags : BitVec 32) :
    ∃ mem' s', ptableMap alloc mem s pgd va pa flags = some (mem', s') ∧
      Entered mem mem' pgd va (some (requested pa flags)) ∧
      (walk mem' pgd va).map (fun w => (w.tableUser, w.tableWritable)) =
        some (tableBits mem pgd va) ∧
      ((s' = s ∧ ∀ j, mem' pgd j = mem pgd j) ∨
        ∃ page, alloc s = (some page, s') ∧ page < 2 ^ 20 ∧
          mem' pgd (pageDirectoryIndex va) = newPde page ∧
          ∀ j, j ≠ pageDirectoryIndex va → mem' pgd j = mem pgd j) := by
  unfold ptableMap tableBits
  by_cases hex : entryExists (mem pgd (pageDirectoryIndex va)) = true
  · -- the table is there
    obtain ⟨hkeep, hwalk, helse⟩ := hok.store_table hva hex (mapEntry pa flags)
    rw [if_pos (mapEntry_exists pa flags), leafMapping_mapEntry] at hwalk
    refine ⟨_, s, by simp only [hex, if_true], ⟨hok.congr hkeep, ?_, helse⟩, ?_,
      Or.inl ⟨rfl, hkeep⟩⟩
    · rw [hwalk]
      rfl
    · rw [hwalk]
      simp [hex]
  · rw [Bool.not_eq_true] at hex
    -- first a table in a page of its own, then the entry in it
    obtain ⟨page, s', halloc, hp, hunused⟩ := hsup hex
    obtain ⟨hnew, -, -, huser, hwritable⟩ := newPde_spec hp
    obtain ⟨hok₁, hself, hother, hsame⟩ := hok.add_table hex hp hunused
    have hex₁ := hself ▸ hnew
    obtain ⟨hkeep, hwalk, helse⟩ := hok₁.store_table hva hex₁ (mapEntry pa flags)
    rw [if_pos (mapEntry_exists pa flags), leafMapping_mapEntry, hself, huser, hwritable] at hwalk
    refine ⟨_, s', by simp only [hex, Bool.false_eq_true, if_false, halloc],
      ⟨hok₁.congr hkeep, ?_, ?_⟩, ?_, Or.inr ⟨page, halloc, hp, ?_, fun j hj => ?_⟩⟩
    · rw [hself, hwalk]
      rfl
    · intro va' h32 hne
      rw [helse va' h32 hne, hsame]
    · rw [hself, hwalk]
      simp [hex]
    · exact (hkeep _).trans hself
    · exact (hkeep j).trans (hother j hj)

/-- A frame that is not used stays so, unless it is the one for the new table. -/
theorem Unused.of_pde {f : ℕ} (hp : page < 2 ^ 20) (h : Unused mem pgd f) (hne : page ≠ f)
    (hself : mem' pgd (pageDirectoryIndex va) = newPde page)
    (hother : ∀ j, j ≠ pageDirectoryIndex va → mem' pgd j = mem pgd j) : Unused mem' pgd f := by
  refine ⟨h.1, fun j hj ht => ?_⟩
  unfold IsTable at ht
  by_cases hjd : j = pageDirectoryIndex va
  · rw [hjd, hself, (newPde_spec hp).2.2.1]
    exact hne
  · rw [hother j hjd] at ht ⊢
    exact h.2 j hj ht

/-- **`ptable_map`** enters one page. -/
theorem ptableMap_spec {n : ℕ} (hsrc : FrameSource alloc avail) (hok : PtableOk mem pgd)
    (hunused : ∀ f ∈ avail s, Unused mem pgd f) (hsup : Supplies alloc (n + 1) s)
    (hva : va < kernelStartVirt) (pa : ℕ) (flags : BitVec 32) :
    ∃ mem' s', ptableMap alloc mem s pgd va pa flags = some (mem', s') ∧
      Entered mem mem' pgd va (some (requested pa flags)) ∧
      (walk mem' pgd va).map (fun w => (w.tableUser, w.tableWritable)) =
        some (tableBits mem pgd va) ∧
      (∀ f ∈ avail s', Unused mem' pgd f) ∧ Supplies alloc n s' := by
  obtain ⟨page, s₁, halloc, hsup'⟩ := hsup
  obtain ⟨hmem, hgone, hsub⟩ := hsrc.gives s page s₁ halloc
  obtain ⟨mem', s', hcall, hentered, hbits, hdir⟩ := ptableMap_entered hok hva
    (fun _ => ⟨page, s₁, halloc, hsrc.fits s page hmem, hunused page hmem⟩) pa flags
  refine ⟨mem', s', hcall, hentered, hbits, ?_⟩
  rcases hdir with ⟨rfl, hkeep⟩ | ⟨page', halloc', hp, hself, hother⟩
  · exact ⟨fun f hf => (hunused f hf).congr hkeep,
      Supplies.pred ⟨page, s₁, halloc, hsup'⟩⟩
  · rw [halloc] at halloc'
    obtain ⟨hpage, rfl⟩ := Prod.mk.inj halloc'
    obtain rfl := Option.some.inj hpage
    refine ⟨fun f hf => ?_, hsup'⟩
    exact (hunused f (hsub hf)).of_pde hp (fun heq => hgone (heq ▸ hf)) hself hother

/-- **`ptable_unmap`** without `free` removes one page. -/
theorem ptableUnmap_spec (hok : PtableOk mem pgd) (hva : va < kernelStartVirt) :
    Entered mem (ptableUnmap mem pgd va false).1 pgd va none ∧
      (ptableUnmap mem pgd va false).2 = none := by
  unfold ptableUnmap
  by_cases hex : entryExists (mem pgd (pageDirectoryIndex va)) = true
  · obtain ⟨hkeep, hwalk, helse⟩ := hok.store_table hva hex
      (clearPte (mem (frameOf (mem pgd (pageDirectoryIndex va))) (pageTableIndex va)))
    rw [clearPte_exists] at hwalk
    simp only [hex, Bool.not_true, Bool.false_eq_true, if_false]
    refine ⟨⟨hok.congr hkeep, ?_, helse⟩, trivial⟩
    rw [hwalk]
    rfl
  · rw [Bool.not_eq_true] at hex
    simp only [hex, Bool.not_false, if_true]
    refine ⟨⟨hok, ?_, fun _ _ _ => rfl⟩, trivial⟩
    unfold walk
    simp [hex]

/-- **`ptable_get_pte`** finds the entry the walk of a user address ends at. -/
theorem ptableGetPte_spec (hok : PtableOk mem pgd) (hva : va < kernelStartVirt) :
    pageMap mem pgd (va / pageSize) =
      (ptableGetPte mem pgd va).bind fun (f, i) => if entryExists (mem f i) then
        some ⟨pageFrame (mem f i), testFlag (mem f i) pteUser, testFlag (mem f i) pteWritable⟩
        else none := by
  have hlt : va / pageSize < 2 ^ 20 := by
    unfold kernelStartVirt at hva
    unfold pageSize
    omega
  unfold pageMap ptableGetPte
  rw [if_pos hlt, walk_page]
  by_cases hex : entryExists (mem pgd (pageDirectoryIndex va)) = true
  · rw [walk_table rfl hex (hok.small _ (pageDirectoryIndex_user hva) hex)]
    simp only [hex, Bool.not_true, Bool.false_eq_true, if_false, Option.bind_some]
    split <;> rfl
  · rw [Bool.not_eq_true] at hex
    unfold walk
    simp [hex]

/-! ### Ranges of pages -/

/-- **`ptable_map_many`** is the fold of single-page updates. -/
theorem ptableMapMany_spec {n : ℕ} (hsrc : FrameSource alloc avail) (hok : PtableOk mem pgd)
    (hunused : ∀ f ∈ avail s, Unused mem pgd f) (pa : ℕ) (flags : BitVec 32) (count : ℕ)
    (hva : ∀ i < count, va + i * pageSize < kernelStartVirt)
    (hsup : Supplies alloc (count + n) s) :
    ∃ mem' s', ptableMapMany alloc mem s pgd va pa count flags = some (mem', s') ∧
      PtableOk mem' pgd ∧
      pageMap mem' pgd = (List.range count).foldl (fun M i => Function.update M
        ((va + i * pageSize) / pageSize) (some (requested (u32 (pa + i * pageSize)) flags)))
        (pageMap mem pgd) ∧
      (∀ f ∈ avail s', Unused mem' pgd f) ∧ Supplies alloc n s' := by
  induction count generalizing n with
  | zero => exact ⟨mem, s, rfl, hok, rfl, hunused, by simpa using hsup⟩
  | succ count ih =>
    obtain ⟨mem₁, s₁, hcalls, hok₁, hmap, hunused₁, hsup₁⟩ := ih (n := n + 1)
      (fun i hi => hva i (by omega)) (by rwa [Nat.succ_add, ← Nat.add_succ] at hsup)
    have huser := hva count (Nat.lt_succ_self _)
    have hva32 : va + count * pageSize < 2 ^ 32 := huser.trans (by decide)
    obtain ⟨mem', s', hcall, henter, -, hunused', hsup'⟩ := ptableMap_spec hsrc hok₁ hunused₁ hsup₁
      huser (u32 (pa + count * pageSize)) flags
    refine ⟨mem', s', ?_, henter.ok, ?_, hunused', hsup'⟩
    · unfold ptableMapMany at hcalls ⊢
      rw [List.range_succ, List.foldlM_append, hcalls]
      simp [u32_of_lt hva32, hcall]
    · rw [henter.pageMap_eq hva32, hmap, List.range_succ, List.foldl_append]
      rfl

/-- **`ptable_unmap_many`** without `free` is the fold of single-page updates. -/
theorem ptableUnmapMany_spec (hok : PtableOk mem pgd) (count : ℕ)
    (hva : ∀ i < count, va + i * pageSize < kernelStartVirt) :
    PtableOk (ptableUnmapMany mem pgd va count false).1 pgd ∧
      pageMap (ptableUnmapMany mem pgd va count false).1 pgd =
        (List.range count).foldl (fun M i => Function.update M ((va + i * pageSize) / pageSize)
          none) (pageMap mem pgd) ∧
      (ptableUnmapMany mem pgd va count false).2 = [] := by
  unfold ptableUnmapMany
  induction count with
  | zero => exact ⟨hok, rfl, rfl⟩
  | succ count ih =>
    obtain ⟨hok', hmap, hfreed⟩ := ih fun i hi => hva i (by omega)
    have huser := hva count (Nat.lt_succ_self _)
    have hva32 : va + count * pageSize < 2 ^ 32 := huser.trans (by decide)
    obtain ⟨henter, hnone⟩ := ptableUnmap_spec hok' huser
    simp only [List.range_succ, List.foldl_append, List.foldl_cons, List.foldl_nil,
      u32_of_lt hva32, hnone, hfreed]
    exact ⟨henter.ok, by rw [henter.pageMap_eq hva32, hmap], rfl⟩

/-! ### Refinement -/

/-- **Page tables refine a finite map.**  On a directory whose tables are apart, each call is the
    update of the map that it is asked for, and `ptable_get_pte` reads the map. -/
theorem ptable_refines (hsrc : FrameSource alloc avail) (hok : PtableOk mem pgd)
    (hunused : ∀ f ∈ avail s, Unused mem pgd f) :
    (∀ va < kernelStartVirt, ∀ pa flags, Supplies alloc 1 s →
      ∃ mem' s', ptableMap alloc mem s pgd va pa flags = some (mem', s') ∧
        Entered mem mem' pgd va (some (requested pa flags)) ∧
        (walk mem' pgd va).map (fun w => (w.tableUser, w.tableWritable)) =
          some (tableBits mem pgd va)) ∧
    (∀ va < kernelStartVirt, Entered mem (ptableUnmap mem pgd va false).1 pgd va none) ∧
    (∀ va pa count flags, (∀ i < count, va + i * pageSize < kernelStartVirt) →
      Supplies alloc count s →
      ∃ mem' s', ptableMapMany alloc mem s pgd va pa count flags = some (mem', s') ∧
        PtableOk mem' pgd ∧ pageMap mem' pgd = (List.range count).foldl (fun M i =>
          Function.update M ((va + i * pageSize) / pageSize)
            (some (requested (u32 (pa + i * pageSize)) flags))) (pageMap mem pgd)) ∧
    (∀ va count, (∀ i < count, va + i * pageSize < kernelStartVirt) →
      PtableOk (ptableUnmapMany mem pgd va count false).1 pgd ∧
        pageMap (ptableUnmapMany mem pgd va count false).1 pgd = (List.range count).foldl
          (fun M i => Function.update M ((va + i * pageSize) / pageSize) none)
          (pageMap mem pgd)) ∧
    ∀ va < kernelStartVirt, pageMap mem pgd (va / pageSize) =
      (ptableGetPte mem pgd va).bind fun (f, i) => if entryExists (mem f i) then
        some ⟨pageFrame (mem f i), testFlag (mem f i) pteUser, testFlag (mem f i) pteWritable⟩
        else none := by
  refine ⟨?_, fun va hva => (ptableUnmap_spec hok hva).1, ?_, ?_,
    fun va hva => ptableGetPte_spec hok hva⟩
  · intro va hva pa flags hsup
    obtain ⟨mem', s', hcall, henter, hbits, -⟩ := ptableMap_spec hsrc hok hunused hsup hva pa flags
    exact ⟨mem', s', hcall, henter, hbits⟩
  · intro va pa count flags hva hsup
    obtain ⟨mem', s', hcall, hok', hmap, -⟩ :=
      ptableMapMany_spec (n := 0) hsrc hok hunused pa flags count hva hsup
    exact ⟨mem', s', hcall, hok', hmap⟩
  · intro va count hva
    obtain ⟨hok', hmap, -⟩ := ptableUnmapMany_spec hok count hva
    exact ⟨hok', hmap⟩

end Calls

/-- An allocator that hands out frame after frame. -/
def allocNext (n : ℕ) : Option ℕ × ℕ := if n < 2 ^ 20 then (some n, n + 1) else (none, n)

theorem frameSource_allocNext : FrameSource allocNext fun n => {p | n ≤ p ∧ p < 2 ^ 20} := by
  refine ⟨?_, fun n p hp => hp.2⟩
  intro n p n' heq
  unfold allocNext at heq
  split at heq
  · rename_i hlt
    obtain ⟨rfl, rfl⟩ : n = p ∧ n + 1 = n' := by simpa using heq
    exact ⟨⟨Nat.le_refl _, hlt⟩, fun h => absurd h.1 (by omega), fun q hq => ⟨by
      have := hq.1
      omega, hq.2⟩⟩
  · simp at heq

/-- An empty directory in frame 5: a writable page at `0x401000` gets a table in frame 6, and
    three pages from there on can be mapped. -/
theorem ptable_refines_emptyDirectory :
    (∃ mem' s', ptableMap allocNext (fun _ _ => 0) 6 5 0x401000 0x9000 vmMapWrite =
        some (mem', s') ∧
      Entered (fun _ _ => 0) mem' 5 0x401000 (some ⟨0x9000, true, true⟩)) ∧
    ∃ mem' s', ptableMapMany allocNext (fun _ _ => 0) 6 5 0x401000 0x9000 3 0 =
      some (mem', s') ∧ PtableOk mem' 5 := by
  have hzero : ¬ entryExists 0 = true := by decide
  have hnone : ∀ j, ¬ IsTable (fun _ _ => 0) 5 j := fun j h => hzero h.1
  have hok : PtableOk (fun _ _ => 0) 5 :=
    ⟨fun _ _ h => absurd h hzero, fun i _ _ _ _ h => absurd h (hnone i),
      fun j _ h => absurd h (hnone j)⟩
  have hunused : ∀ f ∈ {p | 6 ≤ p ∧ p < 2 ^ 20}, Unused (fun _ _ => 0) 5 f := by
    intro f hf
    refine ⟨?_, fun j _ h => absurd h (hnone j)⟩
    have := hf.1
    omega
  obtain ⟨hmap, -, hmany, -, -⟩ := ptable_refines frameSource_allocNext hok hunused
  obtain ⟨mem', s', hcall, henter, -⟩ := hmap 0x401000 (by decide) 0x9000 vmMapWrite
    ⟨6, 7, rfl, trivial⟩
  have hinfo : requested 0x9000 vmMapWrite = ⟨0x9000, true, true⟩ := by decide
  rw [hinfo] at henter
  obtain ⟨mem₃, s₃, hcalls, hok₃, -⟩ := hmany 0x401000 0x9000 3 0 (by decide)
    ⟨6, 7, rfl, 7, 8, rfl, 8, 9, rfl, trivial⟩
  exact ⟨⟨mem', s', hcall, henter⟩, mem₃, s₃, hcalls, hok₃⟩

end Rotary
