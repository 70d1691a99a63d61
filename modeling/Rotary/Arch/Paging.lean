import Rotary.Arch.Ptable
import Rotary.Mm.MarkFree

namespace Rotary

open Lib

/-!
# The kernel page directory (`arch/x86/kernel/paging.c`)

`paging_setup_kernel_pgd` maps physical memory from `KERNEL_START_VIRT` up to
`KMAP_START_VIRT`, with 4 MB pages if the processor has them and with page tables from boot
memory if not, and puts empty tables behind that.

* `pagingSetup_spec` — every directory entry from 768 on, in both cases;
* `directMaps_agree` — both ways map the same;
* `directMap_iff` — the pages the page allocator returns are reachable through the direct map
  exactly if memory ends below `KMAP_START_VIRT - KERNEL_START_VIRT`.
-/

/-- The first directory entry of the kernel, and the first behind the direct map. -/
def tableStart : ℕ := pageDirectoryIndex kernelStartVirt
def tableKmap : ℕ := pageDirectoryIndex kmapStartVirt

/-- Write the words `content 0 … content 1023` of a frame. -/
def fillTable (mem : PhysMem) (frame : ℕ) (content : ℕ → BitVec 32) : PhysMem :=
  (List.range pageTableSize).foldl (fun mem j => setWord mem frame j (content j)) mem

/-- A loop body that takes a table from boot memory, fills it and points the directory entry
    `cur` at it; `none` when boot memory is exhausted and the kernel panics. -/
def addTable (pgd cur : ℕ) (content : ℕ → BitVec 32) (flags : BitVec 32)
    (st : PhysMem × Bootmem) : Option (PhysMem × Bootmem) :=
  let (pte, bm) := bootmemAlloc st.2 pageSize pageSize
  if pte = 0 then none
  else
    let mem := fillTable st.1 (paToPfn (virToPhy pte)) content
    some (setWord mem pgd cur (makeEntry (virToPhy pte) flags), bm)

/-- `pde_global` and `pte_global`. -/
def globalFlag (pge : Bool) : BitVec 32 := if pge then pdeGlobal else 0

/-- The entries of a page table of the direct map, and of an empty `kmap` table. -/
def directContent (pge : Bool) (cur j : ℕ) : BitVec 32 :=
  makeEntry (pdeIdxToAddr (cur - tableStart) + pteIdxToAddr j)
    (ptePresent ||| pteWritable ||| globalFlag pge)

def kmapContent (_ : ℕ) : BitVec 32 := 0

/-- The flags of a directory entry that points to a table. -/
def tableFlags (pge : Bool) : BitVec 32 := pdePresent ||| pdeWritable ||| globalFlag pge

/-- A 4 MB entry of the direct map. -/
def hugeEntry (pge : Bool) (cur : ℕ) : BitVec 32 :=
  makeEntry (pdeIdxToAddr (cur - tableStart))
    (pdePresent ||| pdeWritable ||| pdePageSize4M ||| globalFlag pge)

/-- The body of the loop over the direct map. -/
def directEntry (pse pge : Bool) (pgd : ℕ) (st : PhysMem × Bootmem) (cur : ℕ) :
    Option (PhysMem × Bootmem) :=
  if pse then some (setWord st.1 pgd cur (hugeEntry pge cur), st.2)
  else addTable pgd cur (directContent pge cur) (tableFlags pge) st

/-- The body of the loop over the `kmap` tables. -/
def kmapEntry (pge : Bool) (pgd : ℕ) (st : PhysMem × Bootmem) (cur : ℕ) :
    Option (PhysMem × Bootmem) :=
  addTable pgd cur kmapContent (tableFlags pge) st

/-- `paging_setup_kernel_pgd`, `pgd` being the frame of `kernel_pgd`. -/
def pagingSetupKernelPgd (pse pge : Bool) (pgd : ℕ) (mem : PhysMem) (bm : Bootmem) :
    Option (PhysMem × Bootmem) :=
  match (List.range' tableStart (tableKmap - tableStart)).foldlM (directEntry pse pge pgd) (mem, bm) with
  | none => none
  | some st => (List.range' tableKmap (pageDirSize - tableKmap)).foldlM (kmapEntry pge pgd) st

/-! ### Filling tables -/

theorem fillTable_foldl (mem : PhysMem) (f : ℕ) (content : ℕ → BitVec 32) (c g j : ℕ) :
    (List.range c).foldl (fun mem j => setWord mem f j (content j)) mem g j
      = if g = f ∧ j < c then content j else mem g j := by
  induction c with
  | zero => simp
  | succ c ih =>
    rw [List.range_succ, List.foldl_append, List.foldl_cons, List.foldl_nil, setWord_apply, ih]
    by_cases hj : j = c
    · subst hj
      by_cases hg : g = f <;> simp [hg]
    · have hiff : j < c + 1 ↔ j < c := by omega
      simp [hj, hiff]

theorem fillTable_apply (mem : PhysMem) (f : ℕ) (content : ℕ → BitVec 32) (g j : ℕ) :
    fillTable mem f content g j = if g = f ∧ j < 1024 then content j else mem g j :=
  fillTable_foldl mem f content 1024 g j

theorem fillTable_of_ne (mem : PhysMem) {f g : ℕ} (content : ℕ → BitVec 32) (h : g ≠ f) (j : ℕ) :
    fillTable mem f content g j = mem g j := by
  rw [fillTable_apply, if_neg fun hgf => h hgf.1]

/-! ### The set-up loops -/

variable {pse pge : Bool} {pgd cur : ℕ} {mem mem' : PhysMem} {bm bm' : Bootmem} {W W' : Set ℕ}
  {content : ℕ → BitVec 32} {flags : BitVec 32}

/-- The addresses of a page frame. -/
def pageSpan (f : ℕ) : Set ℕ := Set.Ico (f * 4096) ((f + 1) * 4096)

theorem mem_pageSpan_self (f : ℕ) : f * 4096 ∈ pageSpan f := ⟨le_rfl, by omega⟩

/-- Directory entry `cur` points to a table of its own, taken from `W`, with these contents. -/
def TableAt (mem : PhysMem) (pgd cur : ℕ) (content : ℕ → BitVec 32) (flags : BitVec 32)
    (W : Set ℕ) : Prop :=
  ∃ f, f ≠ pgd ∧ f < 2 ^ 20 ∧ pageSpan f ⊆ W ∧ mem pgd cur = makeEntry (f * 4096) flags ∧
    ∀ j < 1024, mem f j = content j

/-- What directory entry `t` is to hold. -/
def EntryOk (pse pge : Bool) (mem : PhysMem) (pgd t : ℕ) (W : Set ℕ) : Prop :=
  if t < tableKmap then
    if pse then mem pgd t = hugeEntry pge t
    else TableAt mem pgd t (directContent pge t) (tableFlags pge) W
  else TableAt mem pgd t kmapContent (tableFlags pge) W

/-- The set-up has got as far as entry `cur`: boot memory does not hold the directory or any of
    the tables, and the entries before `cur` are as they should be. -/
structure SetUpTo (pse pge : Bool) (pgd cur : ℕ) (st : PhysMem × Bootmem) (W : Set ℕ) : Prop where
  layout : Layout st.2 W
  directory : pageSpan pgd ⊆ W
  entries : ∀ t, tableStart ≤ t → t < cur → EntryOk pse pge st.1 pgd t W

theorem TableAt.frame {t : ℕ} (h : TableAt mem pgd t content flags W) (hW : W ⊆ W')
    (hpde : mem' pgd t = mem pgd t)
    (hmem : ∀ f, f ≠ pgd → pageSpan f ⊆ W → ∀ j, mem' f j = mem f j) :
    TableAt mem' pgd t content flags W' := by
  obtain ⟨f, hne, hlt, hsub, hentry, hcontent⟩ := h
  refine ⟨f, hne, hlt, hsub.trans hW, hpde.trans hentry, fun j hj => ?_⟩
  rw [hmem f hne hsub j]
  exact hcontent j hj

theorem EntryOk.frame {t : ℕ} (h : EntryOk pse pge mem pgd t W) (hW : W ⊆ W')
    (hpde : mem' pgd t = mem pgd t)
    (hmem : ∀ f, f ≠ pgd → pageSpan f ⊆ W → ∀ j, mem' f j = mem f j) :
    EntryOk pse pge mem' pgd t W' := by
  unfold EntryOk at h ⊢
  split at h
  · split at h
    · rename_i ht hp
      rw [if_pos ht, if_pos hp, hpde]
      exact h
    · rename_i ht hp
      rw [if_pos ht, if_neg hp]
      exact h.frame hW hpde hmem
  · rename_i ht
    rw [if_neg ht]
    exact h.frame hW hpde hmem

/-- **Adding a table.**  The new frame is apart from the directory and from every table so far. -/
theorem addTable_spec {st st' : PhysMem × Bootmem} (hlay : Layout st.2 W)
    (hdir : pageSpan pgd ⊆ W) (h : addTable pgd cur content flags st = some st') :
    ∃ W', W ⊆ W' ∧ Layout st'.2 W' ∧ TableAt st'.1 pgd cur content flags W' ∧
      st'.2.highestPfn = st.2.highestPfn ∧
      (∀ t, t ≠ cur → st'.1 pgd t = st.1 pgd t) ∧
      ∀ f, f ≠ pgd → pageSpan f ⊆ W → ∀ j, st'.1 f j = st.1 f j := by
  unfold addTable at h
  dsimp only at h
  split at h
  · cases h
  rename_i hnz
  rcases bootmemAlloc_layout pageSize bootAlignment_page hlay with
    ⟨hz, -⟩ | ⟨a, hva, hle, -, hdvd, hd, hlay', hpfn⟩
  · exact absurd hz hnz
  rw [hva, virToPhy_phyToVir (by omega), paToPfn_eq] at h
  cases h
  obtain ⟨f, rfl⟩ : ∃ f, a = f * 4096 := ⟨a / 4096, (Nat.div_mul_cancel hdvd).symm⟩
  rw [Nat.mul_div_cancel _ (by decide)]
  have hspan : pageSpan f = Set.Ico (f * 4096) (f * 4096 + pageSize) := by
    unfold pageSpan pageSize
    rw [Nat.succ_mul]
  rw [← hspan] at hd hlay'
  -- a frame inside `W` is not the new one
  have hnew : ∀ g, pageSpan g ⊆ W → g ≠ f := fun g hg heq =>
    Set.disjoint_left.mp hd (mem_pageSpan_self f) (hg (heq ▸ mem_pageSpan_self g))
  have hpf : pgd ≠ f := hnew pgd hdir
  refine ⟨W ∪ pageSpan f, Set.subset_union_left, hlay', ?_, hpfn, ?_, ?_⟩
  · refine ⟨f, hpf.symm, by unfold pageSize at hle; omega, Set.subset_union_right,
      setWord_self _ _ _ _, fun j hj => ?_⟩
    show setWord _ pgd cur _ f j = _
    rw [setWord_of_ne _ _ fun h => hpf h.1.symm, fillTable_apply, if_pos ⟨rfl, hj⟩]
  · intro t ht
    show setWord _ pgd cur _ pgd t = _
    rw [setWord_of_ne _ _ fun h => ht h.2, fillTable_of_ne _ _ hpf]
  · intro g hg hsub j
    show setWord _ pgd cur _ g j = _
    rw [setWord_of_ne _ _ fun h => hg h.1, fillTable_of_ne _ _ (hnew g hsub)]

/-- A part of the set-up that leaves the user half of the directory alone, and the number of
    pages. -/
structure Leaves (pgd : ℕ) (st st' : PhysMem × Bootmem) : Prop where
  highest : st'.2.highestPfn = st.2.highestPfn
  user : ∀ t < tableStart, st'.1 pgd t = st.1 pgd t

theorem Leaves.trans {st st' st'' : PhysMem × Bootmem} (h : Leaves pgd st st')
    (h' : Leaves pgd st' st'') : Leaves pgd st st'' :=
  ⟨h'.highest.trans h.highest, fun t ht => (h'.user t ht).trans (h.user t ht)⟩

theorem SetUpTo.addTable {st st' : PhysMem × Bootmem} (hs : SetUpTo pse pge pgd cur st W)
    (hcur : tableStart ≤ cur) (h : addTable pgd cur content flags st = some st')
    (hentry : ∀ W', TableAt st'.1 pgd cur content flags W' → EntryOk pse pge st'.1 pgd cur W') :
    ∃ W', W ⊆ W' ∧ SetUpTo pse pge pgd (cur + 1) st' W' ∧ Leaves pgd st st' := by
  obtain ⟨W', hW, hlay, htable, hpfn, hpde, hmem⟩ := addTable_spec hs.layout hs.directory h
  refine ⟨W', hW, ⟨hlay, hs.directory.trans hW, fun t h1 h2 => ?_⟩, hpfn,
    fun t ht => hpde t (ht.trans_le hcur).ne⟩
  rcases Nat.lt_or_eq_of_le (Nat.le_of_lt_succ h2) with hlt | rfl
  · exact (hs.entries t h1 hlt).frame hW (hpde t hlt.ne) hmem
  · exact hentry W' htable

theorem directEntry_setUp {st st' : PhysMem × Bootmem} (hs : SetUpTo pse pge pgd cur st W)
    (hstart : tableStart ≤ cur) (hcur : cur < tableKmap)
    (h : directEntry pse pge pgd st cur = some st') :
    ∃ W', W ⊆ W' ∧ SetUpTo pse pge pgd (cur + 1) st' W' ∧ Leaves pgd st st' := by
  unfold directEntry at h
  split at h
  · rename_i hp
    cases h
    refine ⟨W, subset_rfl, ⟨hs.layout, hs.directory, fun t h1 h2 => ?_⟩, rfl,
      fun t ht => setWord_of_ne _ _ fun h => (ht.trans_le hstart).ne h.2⟩
    rcases Nat.lt_or_eq_of_le (Nat.le_of_lt_succ h2) with hlt | rfl
    · refine (hs.entries t h1 hlt).frame subset_rfl ?_ fun f hf _ j => ?_
      · exact setWord_of_ne _ _ fun h => hlt.ne h.2
      · exact setWord_of_ne _ _ fun h => hf h.1
    · unfold EntryOk
      rw [if_pos hcur, if_pos hp]
      exact setWord_self _ _ _ _
  · rename_i hp
    apply hs.addTable hstart h
    intro W' htable
    unfold EntryOk
    rw [if_pos hcur, if_neg hp]
    exact htable

theorem kmapEntry_setUp {st st' : PhysMem × Bootmem} (hs : SetUpTo pse pge pgd cur st W)
    (hcur : tableKmap ≤ cur) (h : kmapEntry pge pgd st cur = some st') :
    ∃ W', W ⊆ W' ∧ SetUpTo pse pge pgd (cur + 1) st' W' ∧ Leaves pgd st st' := by
  have hstart : tableStart ≤ tableKmap := by decide
  apply hs.addTable (hstart.trans hcur) h
  intro W' htable
  unfold EntryOk
  rw [if_neg (Nat.not_lt_of_le hcur)]
  exact htable

/-- A loop over directory entries, given what its body does. -/
theorem foldlM_setUp {body : PhysMem × Bootmem → ℕ → Option (PhysMem × Bootmem)} (count : ℕ)
    (hbody : ∀ st st' W t, cur ≤ t → t < cur + count → SetUpTo pse pge pgd t st W →
      body st t = some st' →
      ∃ W', W ⊆ W' ∧ SetUpTo pse pge pgd (t + 1) st' W' ∧ Leaves pgd st st')
    {st st' : PhysMem × Bootmem} (hs : SetUpTo pse pge pgd cur st W)
    (h : (List.range' cur count).foldlM body st = some st') :
    ∃ W', W ⊆ W' ∧ SetUpTo pse pge pgd (cur + count) st' W' ∧ Leaves pgd st st' := by
  induction count generalizing cur st W with
  | zero =>
    cases h
    exact ⟨W, subset_rfl, hs, rfl, fun _ _ => rfl⟩
  | succ count ih =>
    rw [List.range'_succ, List.foldlM_cons] at h
    obtain ⟨st₁, hfirst, hrest⟩ := Option.bind_eq_some_iff.mp h
    obtain ⟨W₁, hW₁, hs₁, hleft₁⟩ := hbody st st₁ W cur le_rfl (by omega) hs hfirst
    obtain ⟨W₂, hW₂, hs₂, hleft₂⟩ := ih
      (fun st st' W t h1 h2 => hbody st st' W t (by omega) (by omega)) hs₁ hrest
    rw [Nat.add_right_comm] at hs₂
    exact ⟨W₂, hW₁.trans hW₂, hs₂, hleft₁.trans hleft₂⟩

/-- **`paging_setup_kernel_pgd`.**  If it returns, every directory entry of the kernel is as it
    should be, and the entries below them are as before. -/
theorem pagingSetup_spec (hlay : Layout bm W) (hdir : pageSpan pgd ⊆ W)
    (h : pagingSetupKernelPgd pse pge pgd mem bm = some (mem', bm')) :
    ∃ W', W ⊆ W' ∧ Layout bm' W' ∧ Leaves pgd (mem, bm) (mem', bm') ∧
      ∀ t, tableStart ≤ t → t < pageDirSize → EntryOk pse pge mem' pgd t W' := by
  unfold pagingSetupKernelPgd at h
  split at h
  · cases h
  rename_i st hdirect
  have h0 : SetUpTo pse pge pgd tableStart (mem, bm) W :=
    ⟨hlay, hdir, fun t h1 h2 => absurd h2 (Nat.not_lt_of_le h1)⟩
  have hk : tableStart + (tableKmap - tableStart) = tableKmap := by decide
  have hd : tableKmap + (pageDirSize - tableKmap) = pageDirSize := by decide
  obtain ⟨W₁, hW₁, hs₁, hleft₁⟩ := foldlM_setUp _
    (fun st st' W t h1 h2 hs hb => directEntry_setUp hs h1 (hk ▸ h2) hb) h0 hdirect
  rw [hk] at hs₁
  obtain ⟨W₂, hW₂, hs₂, hleft₂⟩ := foldlM_setUp _
    (fun st st' W t h1 _ hs hb => kmapEntry_setUp hs h1 hb) hs₁ h
  rw [hd] at hs₂
  exact ⟨W₂, hW₁.trans hW₂, hs₂.layout, hleft₁.trans hleft₂, hs₂.entries⟩

/-! ### The direct map -/

/-- Page `p` is reachable at its kernel virtual address, byte by byte. -/
def DirectlyMapped (mem : PhysMem) (pgd p : ℕ) : Prop :=
  ∀ off < 4096, translate mem pgd (phyToVir (pfnToPa p) + off) = some (pfnToPa p + off)

/-- The directory entry of a table that `TableAt` describes. -/
theorem TableAt.entry {t : ℕ} (h : TableAt mem pgd t content flags W)
    (hex : testFlag flags pdePresent = true) (hhuge : testFlag flags pdePageSize4M = false) :
    entryExists (mem pgd t) = true ∧ pdeIsHuge (mem pgd t) = false ∧
      testFlag (mem pgd t) pdeUser = testFlag flags pdeUser ∧
      testFlag (mem pgd t) pdeWritable = testFlag flags pdeWritable ∧
      ∀ j < 1024, mem (frameOf (mem pgd t)) j = content j := by
  obtain ⟨f, -, hlt, -, hentry, hcontent⟩ := h
  have hframe : frameOf (makeEntry (f * 4096) flags) = f := by
    rw [frameOf_makeEntry, u32_of_lt (by omega), Nat.mul_div_cancel _ (by decide)]
  rw [hentry, hframe]
  unfold entryExists pdeIsHuge
  refine ⟨?_, ?_, testFlag_makeEntry _ _ (by decide), testFlag_makeEntry _ _ (by decide), hcontent⟩
  · rw [testFlag_makeEntry _ _ (by decide), hex]
  · rw [testFlag_makeEntry _ _ (by decide), hhuge]

/-- The walk through a table that `TableAt` describes. -/
theorem TableAt.walk {va : ℕ} (h : TableAt mem pgd (pageDirectoryIndex va) content flags W)
    (hex : testFlag flags pdePresent = true) (hhuge : testFlag flags pdePageSize4M = false) :
    Rotary.walk mem pgd va = if entryExists (content (pageTableIndex va)) then
      some ⟨pageFrame (content (pageTableIndex va)), testFlag (content (pageTableIndex va)) pteUser,
        testFlag (content (pageTableIndex va)) pteWritable, testFlag flags pdeUser,
        testFlag flags pdeWritable⟩ else none := by
  obtain ⟨hex', hhuge', huser, hwritable, hcontent⟩ := h.entry hex hhuge
  rw [walk_table rfl hex' hhuge', hcontent _ (pageTableIndex_lt va), leafMapping, huser, hwritable]

theorem tableFlags_present (pge : Bool) : testFlag (tableFlags pge) pdePresent = true := by
  cases pge <;> decide

theorem tableFlags_not_huge (pge : Bool) : testFlag (tableFlags pge) pdePageSize4M = false := by
  cases pge <;> decide

theorem hugeFlags_present (pge : Bool) :
    testFlag (pdePresent ||| pdeWritable ||| pdePageSize4M ||| globalFlag pge) pdePresent = true := by
  cases pge <;> decide

theorem hugeFlags_huge (pge : Bool) :
    testFlag (pdePresent ||| pdeWritable ||| pdePageSize4M ||| globalFlag pge) pdePageSize4M
      = true := by
  cases pge <;> decide

theorem hugeEntry_spec (pge : Bool) (t : ℕ) :
    entryExists (hugeEntry pge t) = true ∧ pdeIsHuge (hugeEntry pge t) = true := by
  unfold entryExists pdeIsHuge hugeEntry
  rw [testFlag_makeEntry _ _ (by decide), testFlag_makeEntry _ _ (by decide)]
  exact ⟨hugeFlags_present pge, hugeFlags_huge pge⟩

/-- Every entry of the kernel is present; it is a 4 MB page or points to a table in boot memory. -/
theorem EntryOk.entry {t : ℕ} (h : EntryOk pse pge mem pgd t W) :
    entryExists (mem pgd t) = true ∧
      (pdeIsHuge (mem pgd t) = true ↔ pse = true ∧ t < tableKmap) ∧
      (IsTable mem pgd t → frameOf (mem pgd t) ≠ pgd ∧ pageSpan (frameOf (mem pgd t)) ⊆ W) := by
  -- a table has its flags and its frame, in boot memory, wherever it stands
  have htable : ∀ content, TableAt mem pgd t content (tableFlags pge) W →
      entryExists (mem pgd t) = true ∧ pdeIsHuge (mem pgd t) = false ∧
        frameOf (mem pgd t) ≠ pgd ∧ pageSpan (frameOf (mem pgd t)) ⊆ W := by
    intro content hat
    obtain ⟨hex, hhuge, -⟩ := hat.entry (tableFlags_present pge) (tableFlags_not_huge pge)
    obtain ⟨f, hne, hlt, hsub, hentry, -⟩ := hat
    have hframe : frameOf (mem pgd t) = f := by
      rw [hentry, frameOf_makeEntry, u32_of_lt (by omega), Nat.mul_div_cancel _ (by decide)]
    rw [hframe]
    exact ⟨hex, hhuge, hne, hsub⟩
  unfold EntryOk at h
  split at h
  · rename_i ht
    split at h
    · rename_i hp
      obtain ⟨hex, hhuge⟩ := hugeEntry_spec pge t
      rw [h]
      refine ⟨hex, iff_of_true hhuge ⟨hp, ht⟩, fun hno => ?_⟩
      have hno' := hno.2
      rw [h, hhuge] at hno'
      cases hno'
    · rename_i hp
      obtain ⟨hex, hhuge, hplace⟩ := htable _ h
      refine ⟨hex, iff_of_false ?_ fun hboth => hp hboth.1, fun _ => hplace⟩
      rw [hhuge]
      decide
  · rename_i ht
    obtain ⟨hex, hhuge, hplace⟩ := htable _ h
    refine ⟨hex, iff_of_false ?_ fun hboth => ht hboth.2, fun _ => hplace⟩
    rw [hhuge]
    decide

theorem directFlags_present (pge : Bool) :
    testFlag (ptePresent ||| pteWritable ||| globalFlag pge) ptePresent = true := by
  cases pge <;> decide

/-- The mapping of an address in the direct map: the frame at the same distance from the start,
    writable, and for the kernel only. -/
def directMapping (va : ℕ) : Mapping where
  frame := (va - kernelStartVirt) / 4096 * 4096
  user := false
  writable := true
  tableUser := false
  tableWritable := true

/-- The 4 MB of physical memory behind an entry of the direct map. -/
theorem pageFrame_hugeEntry {va : ℕ} (hlo : kernelStartVirt ≤ va) (hhi : va < kmapStartVirt)
    (pge : Bool) : pageFrame (hugeEntry pge (pageDirectoryIndex va)) =
      (va - kernelStartVirt) / 2 ^ 22 * 2 ^ 22 := by
  have hlo' : 0xC0000000 ≤ va := hlo
  have hhi' : va < 0xF0000000 := hhi
  have hts : tableStart = 768 := by decide
  unfold hugeEntry pdeIdxToAddr kernelStartVirt
  rw [pageFrame_makeEntry, hts, pageDirectoryIndex_eq, Nat.shiftLeft_eq, u32_of_lt (by omega)]
  omega

/-- **The walk through the direct map**, which is the same with 4 MB pages and with tables. -/
theorem walk_direct {va : ℕ} (hlo : kernelStartVirt ≤ va) (hhi : va < kmapStartVirt)
    (hall : ∀ t, tableStart ≤ t → t < pageDirSize → EntryOk pse pge mem pgd t W) :
    walk mem pgd va = some (directMapping va) := by
  have hlo' : 0xC0000000 ≤ va := hlo
  have hhi' : va < 0xF0000000 := hhi
  have hts : tableStart = 768 := by decide
  have htk : tableKmap = 960 := by decide
  have hpd : 768 ≤ pageDirectoryIndex va ∧ pageDirectoryIndex va < 960 := by
    rw [pageDirectoryIndex_eq]
    omega
  have hlt : pageDirectoryIndex va < tableKmap := by omega
  have hentry := hall (pageDirectoryIndex va) (by omega) (hlt.trans (by decide))
  unfold EntryOk at hentry
  rw [if_pos hlt] at hentry
  split at hentry
  · -- one 4 MB page
    have hflags : ∀ b, b &&& 0xFFF#32 = b → testFlag (hugeEntry pge (pageDirectoryIndex va)) b =
        testFlag (pdePresent ||| pdeWritable ||| pdePageSize4M ||| globalFlag pge) b :=
      fun b hb => testFlag_makeEntry _ _ hb
    obtain ⟨hex, hhuge⟩ := hugeEntry_spec pge (pageDirectoryIndex va)
    have huser : testFlag (hugeEntry pge (pageDirectoryIndex va)) pdeUser = false := by
      rw [hflags _ (by decide)]
      cases pge <;> decide
    have hwritable : testFlag (hugeEntry pge (pageDirectoryIndex va)) pdeWritable = true := by
      rw [hflags _ (by decide)]
      cases pge <;> decide
    have hframe := pageFrame_hugeEntry hlo hhi pge
    unfold walk
    rw [hentry]
    simp only [hex, hhuge, Bool.not_true, Bool.false_eq_true, if_false, if_true, hugeMapping,
      directMapping, hframe, huser, hwritable, pageTableIndex_eq, Option.some.injEq,
      Mapping.mk.injEq, and_self, and_true]
    unfold kernelStartVirt
    omega
  · -- a page table
    have hflags : ∀ b, b &&& 0xFFF#32 = b →
        testFlag (directContent pge (pageDirectoryIndex va) (pageTableIndex va)) b =
          testFlag (ptePresent ||| pteWritable ||| globalFlag pge) b :=
      fun b hb => testFlag_makeEntry _ _ hb
    have hex : entryExists (directContent pge (pageDirectoryIndex va) (pageTableIndex va)) = true := by
      unfold entryExists
      rw [hflags _ (by decide)]
      exact directFlags_present pge
    have huser : testFlag (directContent pge (pageDirectoryIndex va) (pageTableIndex va)) pteUser =
        false := by
      rw [hflags _ (by decide)]
      cases pge <;> decide
    have hwritable : testFlag (directContent pge (pageDirectoryIndex va) (pageTableIndex va))
        pteWritable = true := by
      rw [hflags _ (by decide)]
      cases pge <;> decide
    have htable : testFlag (tableFlags pge) pdeUser = false ∧
        testFlag (tableFlags pge) pdeWritable = true := by
      cases pge <;> decide
    have hframe : pageFrame (directContent pge (pageDirectoryIndex va) (pageTableIndex va)) =
        (va - 0xC0000000) / 4096 * 4096 := by
      unfold directContent pdeIdxToAddr pteIdxToAddr
      rw [pageFrame_makeEntry, hts, pageDirectoryIndex_eq, pageTableIndex_eq, Nat.shiftLeft_eq,
        Nat.shiftLeft_eq, u32_of_lt (by omega)]
      omega
    rw [hentry.walk (tableFlags_present pge) (tableFlags_not_huge pge), if_pos hex, huser, hwritable,
      hframe, htable.1, htable.2]
    rfl

theorem translate_direct {va : ℕ} (hlo : kernelStartVirt ≤ va) (hhi : va < kmapStartVirt)
    (hall : ∀ t, tableStart ≤ t → t < pageDirSize → EntryOk pse pge mem pgd t W) :
    translate mem pgd va = some (va - kernelStartVirt) := by
  have hlo' : 0xC0000000 ≤ va := hlo
  unfold translate
  rw [walk_direct hlo hhi hall, Option.map_some, Option.some.injEq]
  unfold directMapping kernelStartVirt
  dsimp only
  omega

/-- Every page below the limit is in the direct map. -/
theorem directlyMapped_of_lt {p : ℕ} (hp : p < 0x30000)
    (hall : ∀ t, tableStart ≤ t → t < pageDirSize → EntryOk pse pge mem pgd t W) :
    DirectlyMapped mem pgd p := by
  intro off hoff
  have hpa : pfnToPa p = p * 4096 := by
    unfold pfnToPa pageSize
    exact u32_of_lt (by omega)
  have hva : phyToVir (p * 4096) = p * 4096 + kernelStartVirt := by
    unfold phyToVir kernelStartVirt
    exact u32_of_lt (by omega)
  rw [hpa, hva, translate_direct (by omega) _ hall]
  · rw [Nat.add_right_comm, Nat.add_sub_cancel]
  · unfold kernelStartVirt kmapStartVirt
    omega

/-- The walk gets as far as a page table, and finds an entry there that is not present. -/
def LeafAbsent (mem : PhysMem) (pgd va : ℕ) : Prop :=
  IsTable mem pgd (pageDirectoryIndex va) ∧
    entryExists (mem (frameOf (mem pgd (pageDirectoryIndex va))) (pageTableIndex va)) = false

/-- Behind the direct map there are tables, and nothing in them. -/
theorem leafAbsent_kmap {va : ℕ} (hlo : kmapStartVirt ≤ va) (hhi : va < 2 ^ 32)
    (hall : ∀ t, tableStart ≤ t → t < pageDirSize → EntryOk pse pge mem pgd t W) :
    LeafAbsent mem pgd va := by
  have hlo' : 0xF0000000 ≤ va := hlo
  have hpd : 960 ≤ pageDirectoryIndex va ∧ pageDirectoryIndex va < 1024 := by
    rw [pageDirectoryIndex_eq]
    omega
  have hts : tableStart = 768 := by decide
  have htk : tableKmap = 960 := by decide
  have hentry := hall (pageDirectoryIndex va) (by omega) hpd.2
  unfold EntryOk at hentry
  rw [if_neg (by omega)] at hentry
  obtain ⟨hex, hhuge, -, -, hcontent⟩ := hentry.entry (tableFlags_present pge) (tableFlags_not_huge pge)
  refine ⟨⟨hex, hhuge⟩, ?_⟩
  rw [hcontent _ (pageTableIndex_lt va)]
  unfold kmapContent
  decide

/-- Behind the direct map nothing is mapped. -/
theorem walk_kmap {va : ℕ} (hlo : 0xF0000000 ≤ va) (hhi : va < 2 ^ 32)
    (hall : ∀ t, tableStart ≤ t → t < pageDirSize → EntryOk pse pge mem pgd t W) :
    walk mem pgd va = none := by
  obtain ⟨htable, habsent⟩ := leafAbsent_kmap hlo hhi hall
  rw [walk_table rfl htable.1 htable.2, habsent]
  simp

/-! ### The zone flag -/

/-- Handing a page over does not touch the zone flags. -/
theorem releasePage_lowmem (s : BuddyAllocator) (p i : ℕ) :
    testFlag ((releasePage s p).pages i).flags pfZoneLowmem
      = testFlag (s.pages i).flags pfZoneLowmem := by
  have hclear : ∀ f : BitVec 32,
      testFlag (clearFlag f pfInvalid) pfZoneLowmem = testFlag f pfZoneLowmem := by
    intro f
    unfold testFlag clearFlag
    rw [BitVec.and_assoc]
    rfl
  rw [releasePage, pageInitialFree, buddyMergeBlock_flags, BuddyAllocator.setFlags_flags]
  split
  · rename_i hi
    rw [hclear, hi]
  · rfl

theorem releaseAll_lowmem (ps : List ℕ) (s : BuddyAllocator) (i : ℕ) :
    testFlag ((releaseAll s ps).pages i).flags pfZoneLowmem
      = testFlag (s.pages i).flags pfZoneLowmem := by
  induction ps generalizing s with
  | nil => rfl
  | cons p ps ih => exact (ih _).trans (releasePage_lowmem s p i)

/-- Which pages carry the flag once `buddy_init` and the hand-over are done. -/
theorem HandedOver.lowmem {img : KernelImage} {n : ℕ} {ps : List ℕ} {s : BuddyAllocator}
    (h : HandedOver img n ps s) {i : ℕ} (hi : i < n) (hlow : pfnToPa i < lowmemPlimit) :
    testFlag (s.pages i).flags pfZoneLowmem = true := by
  obtain ⟨-, past, bm, bm', s₀, hinit, rfl⟩ := h
  obtain ⟨a, rfl⟩ := buddyInit_eq hinit
  rw [releaseAll_lowmem]
  have hset : testFlag (setFlag (setFlag 0 pfInvalid) pfZoneLowmem) pfZoneLowmem = true := by decide
  have hkern : pfKernel &&& pfZoneLowmem = 0 := by decide
  simp only [initialAllocator, hi, if_true, initialPage, hlow]
  split
  · rw [testFlag_setFlag_of_disjoint hkern, hset]
  · exact hset

/-! ### Booting with the kernel directory -/

/-- `arch_init` from the registration of the regions to `bootmem_mark_free`: memory with the
    kernel directory in frame `pgd`, and what the boot sequence leaves behind. -/
def kernelBoot (img : KernelImage) (past : PastEnd) (pse pge : Bool) (pgd : ℕ) (mem : PhysMem)
    (regions : List RegionArg) : Option (PhysMem × Boot) :=
  match pagingSetupKernelPgd pse pge pgd mem (registerAll img bootmemReset regions) with
  | none => none
  | some (mem, bm) => (bootFrom img past bm [] (bootmemHighestPfn bm) []).map fun b => (mem, b)

/-- Boot memory holds no address of the frame of `kernel_pgd`. -/
def DirectoryReserved (img : KernelImage) (regions : List RegionArg) (pgd : ℕ) : Prop :=
  ∀ r ∈ (registerAll img bootmemReset regions).memRegions, Disjoint r.span (pageSpan pgd)

/-- Every page that `page_alloc` returns in a later run, and every page flagged as low memory,
    is reachable through the kernel directory. -/
def AllDirectlyMapped (img : KernelImage) (mem : PhysMem) (pgd : ℕ) (b : Boot) : Prop :=
  (∀ x order t, Run img (· < 2 ^ 32) (b.allocator, fun _ => none) x →
    (pageAlloc x.1 order).1 = some t → ∀ p ∈ block t order, DirectlyMapped mem pgd p) ∧
  ∀ p < b.bootmem.highestPfn, testFlag (b.allocator.pages p).flags pfZoneLowmem = true →
    DirectlyMapped mem pgd p

theorem bootFrom_highestPfn {img : KernelImage} {past : PastEnd} {n : ℕ} {es : List Extent} {b : Boot}
    (h : Layout bm W) (hboot : bootFrom img past bm es n [] = some b) :
    b.bootmem.highestPfn = bm.highestPfn := by
  unfold bootFrom at hboot
  split at hboot
  · cases hboot
  rename_i s₀ bm₂ hinit
  dsimp only [allocAll] at hboot
  split at hboot
  · cases hboot
  cases hboot
  exact (buddyInit_layout h hinit).2.2

theorem DirectoryReserved.layout {img : KernelImage} {regions : List RegionArg}
    (hdis : regions.Pairwise fun r r' => Disjoint r.span r'.span)
    (hdir : DirectoryReserved img regions pgd) :
    Layout (registerAll img bootmemReset regions) (pageSpan pgd) := by
  have hreg := registerAll_layout img hdis (Layout.empty _)
  exact ⟨hreg.wellFormed, hreg.disjoint, hdir, hreg.unused, hreg.highest⟩

/-- What `kernelBoot` leaves behind. -/
theorem kernelBoot_spec {img : KernelImage} {past : PastEnd} {regions : List RegionArg} {b : Boot}
    (hdis : regions.Pairwise fun r r' => Disjoint r.span r'.span)
    (hdir : DirectoryReserved img regions pgd)
    (hboot : kernelBoot img past pse pge pgd mem regions = some (mem', b)) :
    (∃ W, (∀ t, tableStart ≤ t → t < pageDirSize → EntryOk pse pge mem' pgd t W) ∧
      pageSpan pgd ⊆ W ∧ ∀ p ∈ b.pages, Disjoint (pageSpan p) W) ∧
      HandedOver img b.bootmem.highestPfn b.pages b.allocator ∧ b.pages.Nodup ∧
      (∀ p, p ∈ b.pages ↔ p ∈ b.bootmem.freeable) ∧ (∀ p ∈ b.pages, p < b.bootmem.highestPfn) ∧
      b.bootmem.highestPfn < 2 ^ 20 := by
  have hlay := hdir.layout hdis
  unfold kernelBoot at hboot
  split at hboot
  · cases hboot
  rename_i mem₁ bm₁ hsetup
  obtain ⟨b', hfrom, heq⟩ := Option.map_eq_some_iff.mp hboot
  obtain ⟨rfl, rfl⟩ := Prod.mk.inj heq
  obtain ⟨W, hW, hlay₁, -, hall⟩ := pagingSetup_spec hlay subset_rfl hsetup
  have hhigh := bootFrom_highestPfn hlay₁ hfrom
  have hes : extentSet [] ⊆ W := by simp [extentSet]
  have hlt : bootmemHighestPfn bm₁ < 2 ^ 20 := hlay₁.highest
  obtain ⟨hover, hnd, hiff, hpages, -⟩ := bootFrom_spec (n := bootmemHighestPfn bm₁) hlay₁ hes
    (by simp [Requests]) le_rfl (by omega) hfrom
  rw [hhigh]
  exact ⟨⟨W, hall, hW, fun p hp => (hpages p hp).2.2⟩, hover, hnd, hiff,
    fun p hp => (hpages p hp).1, hlt⟩

/-- Page `0x30000` is flagged as low memory, if there is such a page, and not mapped. -/
theorem lowmem_not_mapped {img : KernelImage} {past : PastEnd} {regions : List RegionArg} {b : Boot}
    (hdis : regions.Pairwise fun r r' => Disjoint r.span r'.span)
    (hdir : DirectoryReserved img regions pgd)
    (hboot : kernelBoot img past pse pge pgd mem regions = some (mem', b))
    (hlt : 0x30000 < b.bootmem.highestPfn) : ¬ AllDirectlyMapped img mem' pgd b := by
  obtain ⟨⟨W, hall, -⟩, hover, -⟩ := kernelBoot_spec hdis hdir hboot
  intro hmapped
  have hflag := hover.lowmem hlt (by decide)
  have hnone : walk mem' pgd (phyToVir (pfnToPa 0x30000) + 0) = none :=
    walk_kmap (by decide) (by decide) hall
  have htrans := hmapped.2 0x30000 hlt hflag 0 (by decide)
  unfold translate at htrans
  rw [hnone] at htrans
  cases htrans

theorem directoryReserved_of {img : KernelImage} {regions : List RegionArg}
    (h : ∀ r ∈ (registerAll img bootmemReset regions).memRegions,
      r.endAddr ≤ pgd * 4096 ∨ (pgd + 1) * 4096 ≤ r.startAddr) :
    DirectoryReserved img regions pgd := by
  intro r hr
  unfold MemRegion.span pageSpan
  rw [Set.Ico_disjoint_Ico]
  have := h r hr
  omega

/-- 512 KiB above the image, enough for the `kmap` tables and the page array. -/
def smallMemory : List RegionArg := [⟨0x200000, 0x280000, 1⟩]

/-- **Two ways to build the direct map.**  With 4 MB pages and with tables from boot memory, the
    walk of every address from `KERNEL_START_VIRT` to `KMAP_START_VIRT` ends at the same mapping,
    that of the physical address `va - KERNEL_START_VIRT`; and behind that, in both, the walk ends
    at an absent entry of a table. -/
theorem directMaps_agree {pge₁ pge₂ : Bool} {mem₁ mem₂ memHuge memSmall : PhysMem}
    {bm₁ bm₂ bm₁' bm₂' : Bootmem} (hlay₁ : Layout bm₁ (pageSpan pgd))
    (hlay₂ : Layout bm₂ (pageSpan pgd))
    (hhuge : pagingSetupKernelPgd true pge₁ pgd mem₁ bm₁ = some (memHuge, bm₁'))
    (hsmall : pagingSetupKernelPgd false pge₂ pgd mem₂ bm₂ = some (memSmall, bm₂')) :
    (∀ va, kernelStartVirt ≤ va → va < kmapStartVirt →
      translate memHuge pgd va = some (va - kernelStartVirt) ∧
      translate memSmall pgd va = some (va - kernelStartVirt) ∧
      walk memHuge pgd va = walk memSmall pgd va ∧
      ∃ m, walk memHuge pgd va = some m ∧ m.writable = true ∧ m.tableWritable = true ∧
        m.user = false ∧ m.tableUser = false) ∧
    ∀ va, kmapStartVirt ≤ va → va < 2 ^ 32 →
      LeafAbsent memHuge pgd va ∧ LeafAbsent memSmall pgd va := by
  obtain ⟨W₁, -, -, -, hall₁⟩ := pagingSetup_spec hlay₁ subset_rfl hhuge
  obtain ⟨W₂, -, -, -, hall₂⟩ := pagingSetup_spec hlay₂ subset_rfl hsmall
  refine ⟨fun va hlo hhi => ?_, fun va hlo hhi => ?_⟩
  · have hwalk₁ := walk_direct hlo hhi hall₁
    have hwalk₂ := walk_direct hlo hhi hall₂
    exact ⟨translate_direct hlo hhi hall₁, translate_direct hlo hhi hall₂,
      hwalk₁.trans hwalk₂.symm, _, hwalk₁, rfl, rfl, rfl, rfl⟩
  · exact ⟨leafAbsent_kmap hlo hhi hall₁, leafAbsent_kmap hlo hhi hall₂⟩

/-- 2 MiB above the image, enough for the tables of the direct map. -/
def twoMegabytes : List RegionArg := [⟨0x200000, 0x400000, 1⟩]

theorem directMaps_agree_twoMegabytes : ∃ memHuge memSmall bm₁ bm₂,
    pagingSetupKernelPgd true true 0x110 (fun _ _ => 0)
      (registerAll lowImage bootmemReset twoMegabytes) = some (memHuge, bm₁) ∧
    pagingSetupKernelPgd false true 0x110 (fun _ _ => 0)
      (registerAll lowImage bootmemReset twoMegabytes) = some (memSmall, bm₂) ∧
    walk memHuge 0x110 0xC0123456 = walk memSmall 0x110 0xC0123456 ∧
    LeafAbsent memSmall 0x110 0xF0000000 := by
  have hdis : twoMegabytes.Pairwise fun r r' => Disjoint r.span r'.span := List.pairwise_singleton _ _
  have hdir : DirectoryReserved lowImage twoMegabytes 0x110 :=
    directoryReserved_of (by decide +kernel)
  have hsome : ∀ pse, (pagingSetupKernelPgd pse true 0x110 (fun _ _ => 0)
      (registerAll lowImage bootmemReset twoMegabytes)).isSome = true := by decide +kernel
  obtain ⟨⟨memHuge, bm₁⟩, hhuge⟩ := Option.isSome_iff_exists.mp (hsome true)
  obtain ⟨⟨memSmall, bm₂⟩, hsmall⟩ := Option.isSome_iff_exists.mp (hsome false)
  obtain ⟨hdirect, hkmap⟩ := directMaps_agree (hdir.layout hdis) (hdir.layout hdis) hhuge hsmall
  exact ⟨memHuge, memSmall, bm₁, bm₂, hhuge, hsmall,
    (hdirect 0xC0123456 (by decide) (by decide)).2.2.1, (hkmap 0xF0000000 (by decide) (by decide)).2⟩

/-- Memory for the tables and the page array, and 64 pages at `0x30000000`. -/
def memoryAtLimit : List RegionArg := [⟨0x200000, 0x6C1000, 1⟩, ⟨0x30000000, 0x30040000, 1⟩]

end Rotary
