import Rotary.Arch.Paging
import Rotary.Mm.CopyRange

namespace Rotary

open Lib

/-!
# All address spaces together

A page directory gets its kernel half from `ptable_pgd_new`, as a copy of `kernel_pgd`, and no
later call writes there.  The state of this module has every live address space, and the physical
memory that all of their directories and tables lie in.  A store into a table of one directory could
in principle hit another directory; that it does not is what has to be carried along.

* `InUse` — the frames that hold a directory or a table;
* `Directories` — the directories have the kernel half of `kernel_pgd` as it was after boot, and
  no table lies in the frame of a directory;
* `SpaceStep` — the calls, each under the condition that `page_alloc` returns pages not in use;
* `kernelHalf_agrees` — the kernel half in every reachable state;
* `softwareWalk_iff` — when `ptable_get_pte` finds what the processor finds.
-/

variable {boot mem mem' : PhysMem} {kernelPgd d p i : ℕ} {D D' : Set ℕ}

/-! ### Frames in use -/

/-- The frames of the directories `D` and of their tables. -/
def InUse (mem : PhysMem) (D : Set ℕ) : Set ℕ :=
  D ∪ {f | ∃ d ∈ D, ∃ j < pageDirSize, IsTable mem d j ∧ frameOf (mem d j) = f}

/-- A table of one of the directories is in use. -/
theorem InUse.table {j : ℕ} (hd : d ∈ D) (hj : j < pageDirSize) (ht : IsTable mem d j) :
    frameOf (mem d j) ∈ InUse mem D := Or.inr ⟨d, hd, j, hj, ht, rfl⟩

theorem InUse.unused (hd : d ∈ D) (hp : p ∉ InUse mem D) : Unused mem d p := by
  refine ⟨fun heq => hp (Or.inl (heq ▸ hd)), fun j hj ht heq => ?_⟩
  exact hp (heq ▸ InUse.table hd hj ht)

theorem InUse.congr (heq : ∀ d ∈ D, mem' d = mem d) : InUse mem' D = InUse mem D := by
  unfold InUse
  congr 1
  ext f
  constructor
  · rintro ⟨d, hd, j, hj, ht, hf⟩
    unfold IsTable at ht
    rw [heq d hd] at ht hf
    exact ⟨d, hd, j, hj, ht, hf⟩
  · rintro ⟨d, hd, j, hj, ht, hf⟩
    refine ⟨d, hd, j, hj, ?_, ?_⟩
    · unfold IsTable
      rw [heq d hd]
      exact ht
    · rw [heq d hd]
      exact hf

/-- With one more directory entry, at most the frame it points to is in use besides. -/
theorem InUse.setWord_subset (v : BitVec 32) :
    InUse (setWord mem d i v) D ⊆ insert (frameOf v) (InUse mem D) := by
  rintro f (hf | ⟨d', hd', j, hj, ht, rfl⟩)
  · exact Or.inr (Or.inl hf)
  · unfold IsTable at ht
    by_cases hhere : d' = d ∧ j = i
    · rw [hhere.1, hhere.2, setWord_self]
      exact Or.inl rfl
    · rw [setWord_of_ne _ _ hhere] at ht ⊢
      exact Or.inr (InUse.table hd' hj ht)

/-! ### The directories -/

/-- What holds of the directories `D` at any time after boot. -/
structure Directories (boot : PhysMem) (kernelPgd : ℕ) (D : Set ℕ) (mem : PhysMem) : Prop where
  present : ∀ i, kernelPdeStart ≤ i → i < pageDirSize → entryExists (boot kernelPgd i) = true
  kernel : kernelPgd ∈ D
  half : ∀ d ∈ D, ∀ i, kernelPdeStart ≤ i → i < pageDirSize → mem d i = boot kernelPgd i
  ok : ∀ d ∈ D, PtableOk mem d
  apart : ∀ d ∈ D, ∀ j < pageDirSize, IsTable mem d j → frameOf (mem d j) ∉ D
  tables : ∀ i, kernelPdeStart ≤ i → i < pageDirSize → IsTable boot kernelPgd i →
    mem (frameOf (boot kernelPgd i)) = boot (frameOf (boot kernelPgd i))

/-- The tables of the kernel half are in use. -/
theorem Directories.kernelTable (h : Directories boot kernelPgd D mem) (hlo : kernelPdeStart ≤ i)
    (hhi : i < pageDirSize) (ht : IsTable boot kernelPgd i) :
    frameOf (boot kernelPgd i) ∈ InUse mem D := by
  have hword := h.half kernelPgd h.kernel i hlo hhi
  rw [← hword]
  apply InUse.table h.kernel hhi
  unfold IsTable
  rw [hword]
  exact ht

/-- Stores that hit neither a directory nor a table of the kernel half. -/
theorem Directories.congr (h : Directories boot kernelPgd D mem) (hdirs : ∀ d ∈ D, mem' d = mem d)
    (htables : ∀ i, kernelPdeStart ≤ i → i < pageDirSize → IsTable boot kernelPgd i →
      mem' (frameOf (boot kernelPgd i)) = mem (frameOf (boot kernelPgd i))) :
    Directories boot kernelPgd D mem' := by
  refine ⟨h.present, h.kernel, ?_, ?_, ?_, ?_⟩
  · intro d hd i hlo hhi
    rw [hdirs d hd]
    exact h.half d hd i hlo hhi
  · intro d hd
    exact (h.ok d hd).congr fun j => by rw [hdirs d hd]
  · intro d hd j hj ht
    unfold IsTable at ht
    rw [hdirs d hd] at ht ⊢
    exact h.apart d hd j hj ht
  · intro i hlo hhi ht
    rw [htables i hlo hhi ht]
    exact h.tables i hlo hhi ht

/-- Stores into a frame that is not in use. -/
theorem Directories.unused_store (h : Directories boot kernelPgd D mem) (hp : p ∉ InUse mem D)
    (w : ℕ → BitVec 32) : Directories boot kernelPgd D (Function.update mem p w) := by
  apply h.congr
  · intro d hd
    have hne : d ≠ p := fun heq => hp (Or.inl (heq ▸ hd))
    exact Function.update_of_ne hne _ _
  · intro i hlo hhi ht
    have hne : frameOf (boot kernelPgd i) ≠ p := fun heq => hp (heq ▸ h.kernelTable hlo hhi ht)
    exact Function.update_of_ne hne _ _

/-- A store into a user table of one of the directories leaves all directories alone. -/
theorem Directories.table_store (h : Directories boot kernelPgd D mem) (hd : d ∈ D)
    (hi : i < kernelPdeStart) (hex : entryExists (mem d i) = true) (t : ℕ) (v : BitVec 32) :
    Directories boot kernelPgd D (setWord mem (frameOf (mem d i)) t v) ∧
      ∀ d' ∈ D, setWord mem (frameOf (mem d i)) t v d' = mem d' := by
  have hdir : i < pageDirSize := hi.trans (by decide)
  have htable : IsTable mem d i := (h.ok d hd).isTable hi hex
  have hkeep : ∀ d' ∈ D, setWord mem (frameOf (mem d i)) t v d' = mem d' := by
    intro d' hd'
    have hne : d' ≠ frameOf (mem d i) := fun heq => h.apart d hd i hdir htable (heq ▸ hd')
    exact Function.update_of_ne hne _ _
  refine ⟨h.congr hkeep fun j hlo hhi ht => ?_, hkeep⟩
  -- the user's tables are not the kernel's, since both hang off the directory `d`
  have hword := h.half d hd j hlo hhi
  have hne : frameOf (mem d i) ≠ frameOf (mem d j) := by
    apply (h.ok d hd).distinct i hi j hhi (hi.trans_le hlo).ne htable
    unfold IsTable
    rw [hword]
    exact ht
  rw [hword] at hne
  exact Function.update_of_ne hne.symm _ _

/-- **A new table.**  A user entry of one of the directories now points to a page that was not in
    use, whatever that page holds. -/
theorem Directories.add_table (h : Directories boot kernelPgd D mem) (hd : d ∈ D)
    (hi : i < kernelPdeStart) (hlt : p < 2 ^ 20) (hp : p ∉ InUse mem D) :
    Directories boot kernelPgd D (setWord mem d i (newPde p)) := by
  obtain ⟨-, -, hframe, -, -⟩ := newPde_spec hlt
  have hpD : p ∉ D := fun hmem => hp (Or.inl hmem)
  refine ⟨h.present, h.kernel, ?_, ?_, ?_, ?_⟩
  · intro d' hd' j hlo hhi
    rw [setWord_of_ne _ _ fun heq => (hi.trans_le hlo).ne heq.2.symm]
    exact h.half d' hd' j hlo hhi
  · intro d' hd'
    by_cases hdd : d' = d
    · rw [hdd]
      exact (h.ok d hd).point_at hlt (InUse.unused hd hp) i
    · exact (h.ok d' hd').congr fun j => setWord_of_ne _ _ fun heq => hdd heq.1
  · intro d' hd' j hj ht
    unfold IsTable at ht
    -- the new table is no directory, and the other tables are where they were
    by_cases hhere : d' = d ∧ j = i
    · rw [hhere.1, hhere.2, setWord_self, hframe]
      exact hpD
    · rw [setWord_of_ne _ _ hhere] at ht ⊢
      exact h.apart d' hd' j hj ht
  · intro j hlo hhi ht
    have hword := h.half kernelPgd h.kernel j hlo hhi
    -- the tables of the kernel are not written to, since the entry is in a directory
    have hne : frameOf (boot kernelPgd j) ≠ d := by
      rw [← hword]
      intro heq
      refine h.apart kernelPgd h.kernel j hhi ?_ (heq ▸ hd)
      unfold IsTable
      rw [hword]
      exact ht
    show Function.update mem d _ _ = _
    rw [Function.update_of_ne hne]
    exact h.tables j hlo hhi ht

/-- **A new directory**, with the entries of `kernel_pgd`. -/
theorem Directories.add_directory (h : Directories boot kernelPgd D mem) (hp : p ∉ InUse mem D) :
    Directories boot kernelPgd (insert p D) (Function.update mem p (mem kernelPgd)) := by
  have hold : ∀ d ∈ D, Function.update mem p (mem kernelPgd) d = mem d := by
    intro d hd
    have hne : d ≠ p := fun heq => hp (Or.inl (heq ▸ hd))
    exact Function.update_of_ne hne _ _
  have hself : Function.update mem p (mem kernelPgd) p = mem kernelPgd := Function.update_self _ _ _
  -- no table lies in the page of the new directory
  have hnew : ∀ d ∈ D, ∀ j < pageDirSize, IsTable mem d j → frameOf (mem d j) ∉ insert p D := by
    rintro d hd j hj ht (heq | hmem)
    · exact hp (heq ▸ InUse.table hd hj ht)
    · exact h.apart d hd j hj ht hmem
  refine ⟨h.present, Set.mem_insert_of_mem p h.kernel, ?_, ?_, ?_, ?_⟩
  · rintro d (rfl | hd) i hlo hhi
    · rw [hself]
      exact h.half kernelPgd h.kernel i hlo hhi
    · rw [hold d hd]
      exact h.half d hd i hlo hhi
  · rintro d (rfl | hd)
    · refine (h.ok kernelPgd h.kernel).copy (fun j => by rw [hself]) fun j hj ht heq => ?_
      exact hnew kernelPgd h.kernel j hj ht (heq ▸ Set.mem_insert d D)
    · exact (h.ok d hd).congr fun j => by rw [hold d hd]
  · rintro d (rfl | hd) j hj ht
    · unfold IsTable at ht
      rw [hself] at ht ⊢
      exact hnew kernelPgd h.kernel j hj ht
    · unfold IsTable at ht
      rw [hold d hd] at ht ⊢
      exact hnew d hd j hj ht
  · intro i hlo hhi ht
    have hne : frameOf (boot kernelPgd i) ≠ p := fun heq => hp (heq ▸ h.kernelTable hlo hhi ht)
    rw [Function.update_of_ne hne]
    exact h.tables i hlo hhi ht

/-- Directories may go away, except for `kernel_pgd`. -/
theorem Directories.subset (h : Directories boot kernelPgd D mem) (hsub : D' ⊆ D)
    (hk : kernelPgd ∈ D') : Directories boot kernelPgd D' mem :=
  ⟨h.present, hk, fun d hd => h.half d (hsub hd), fun d hd => h.ok d (hsub hd),
    fun d hd j hj ht hmem => h.apart d (hsub hd) j hj ht (hsub hmem), h.tables⟩

/-! ### The calls -/

section Calls

variable {σ : Type} {alloc : σ → Option ℕ × σ} {incUses : σ → ℕ → σ} {s s' : σ}
  {x y : PhysMem × σ} {flags : BitVec 32} {src dst va pa startAddr endAddr cur : ℕ}

/-- The directories are in order, and `page_alloc` returns pages that are not in use. -/
structure Safe (boot : PhysMem) (kernelPgd : ℕ) (D : Set ℕ) (alloc : σ → Option ℕ × σ)
    (x : PhysMem × σ) : Prop where
  dirs : Directories boot kernelPgd D x.1
  offers : Offers alloc x.2 (InUse x.1 D)

theorem Safe.table_store (h : Safe boot kernelPgd D alloc x) (hd : d ∈ D) (hi : i < kernelPdeStart)
    (hex : entryExists (x.1 d i) = true) (t : ℕ) (v : BitVec 32) :
    Safe boot kernelPgd D alloc (setWord x.1 (frameOf (x.1 d i)) t v, x.2) := by
  obtain ⟨hdirs, hkeep⟩ := h.dirs.table_store hd hi hex t v
  refine ⟨hdirs, ?_⟩
  rw [InUse.congr hkeep]
  exact h.offers

theorem Safe.unused_store (h : Safe boot kernelPgd D alloc x) (hp : p ∉ InUse x.1 D)
    (w : ℕ → BitVec 32) : Safe boot kernelPgd D alloc (Function.update x.1 p w, x.2) := by
  refine ⟨h.dirs.unused_store hp w, ?_⟩
  have hkeep : ∀ d ∈ D, Function.update x.1 p w d = x.1 d := by
    intro d hd
    have hne : d ≠ p := fun heq => hp (Or.inl (heq ▸ hd))
    exact Function.update_of_ne hne _ _
  rw [InUse.congr hkeep]
  exact h.offers

/-- A page is allocated, for any purpose. -/
theorem Safe.take (h : Safe boot kernelPgd D alloc x) (heq : alloc x.2 = (some p, s')) :
    p < 2 ^ 20 ∧ p ∉ InUse x.1 D ∧ Safe boot kernelPgd D alloc (x.1, s') := by
  obtain ⟨hlt, hout, hoffers⟩ := h.offers.take heq
  exact ⟨hlt, hout, h.dirs, hoffers.mono (Set.subset_insert p _)⟩

/-- A page is allocated and made a table. -/
theorem Safe.add_table (h : Safe boot kernelPgd D alloc x) (hd : d ∈ D) (hi : i < kernelPdeStart)
    (heq : alloc x.2 = (some p, s')) :
    Safe boot kernelPgd D alloc (setWord x.1 d i (newPde p), s') := by
  obtain ⟨hlt, hout, hoffers⟩ := h.offers.take heq
  obtain ⟨-, -, hframe, -, -⟩ := newPde_spec hlt
  have hsub : InUse (setWord x.1 d i (newPde p)) D ⊆ insert p (InUse x.1 D) := by
    have hinsert : InUse (setWord x.1 d i (newPde p)) D ⊆
        insert (frameOf (newPde p)) (InUse x.1 D) := InUse.setWord_subset (newPde p)
    rwa [hframe] at hinsert
  exact ⟨h.dirs.add_table hd hi hlt hout, hoffers.mono hsub⟩

/-- **`ptable_map`** of a user address. -/
theorem Safe.ptableMap (h : Safe boot kernelPgd D alloc x) (hd : d ∈ D) (hva : va < kernelStartVirt)
    (hcall : ptableMap alloc x.1 x.2 d va pa flags = some y) : Safe boot kernelPgd D alloc y := by
  have hi := pageDirectoryIndex_user hva
  unfold Rotary.ptableMap at hcall
  dsimp only at hcall
  split at hcall
  · rename_i hex
    cases hcall
    exact h.table_store hd hi hex _ _
  · split at hcall
    · cases hcall
    · rename_i page s₁ halloc
      cases hcall
      obtain ⟨hlt, hout, -⟩ := h.take halloc
      have hclear : Safe boot kernelPgd D alloc (clearFrame x.1 page, x.2) := h.unused_store hout _
      have hnew := hclear.add_table hd hi halloc
      have hex : entryExists (setWord (clearFrame x.1 page) d (pageDirectoryIndex va) (newPde page)
          d (pageDirectoryIndex va)) = true := by
        rw [setWord_self]
        exact (newPde_spec hlt).1
      exact hnew.table_store hd hi hex _ _

/-- **`ptable_unmap`** of a user address, with or without giving the page back. -/
theorem Directories.ptableUnmap (h : Directories boot kernelPgd D mem) (hd : d ∈ D)
    (hva : va < kernelStartVirt) (free : Bool) :
    Directories boot kernelPgd D (ptableUnmap mem d va free).1 := by
  unfold Rotary.ptableUnmap
  dsimp only
  split
  · exact h
  · rename_i hex
    exact (h.table_store hd (pageDirectoryIndex_user hva) (by simpa using hex) _ _).1

/-- **`ptable_pgd_new`.** -/
theorem Safe.ptablePgdNew (h : Safe boot kernelPgd D alloc (mem, s))
    (hcall : ptablePgdNew alloc mem s kernelPgd = some (p, mem', s')) :
    p < 2 ^ 20 ∧ Directories boot kernelPgd (insert p D) mem' := by
  unfold Rotary.ptablePgdNew at hcall
  split at hcall
  · cases hcall
  · rename_i page s₁ halloc
    cases hcall
    obtain ⟨hlt, hout, -⟩ := h.take halloc
    have hne : kernelPgd ≠ p := fun heq => hout (Or.inl (heq ▸ h.dirs.kernel))
    have hcopy := h.dirs.add_directory hout
    unfold clearFrame
    rw [Function.update_idem, Function.update_of_ne hne]
    exact ⟨hlt, hcopy⟩

/-- The destination's table in `ptable_copy_range`. -/
theorem Safe.copyTable (h : Safe boot kernelPgd D alloc x) (hd : dst ∈ D) (hi : cur < kernelPdeStart)
    (hcall : copyTable alloc dst x cur = some y) :
    Safe boot kernelPgd D alloc y ∧ entryExists (y.1 dst cur) = true := by
  unfold Rotary.copyTable at hcall
  split at hcall
  · rename_i hex
    cases hcall
    exact ⟨h, hex⟩
  · split at hcall
    · cases hcall
    · rename_i page s₁ halloc
      cases hcall
      refine ⟨h.add_table hd hi halloc, ?_⟩
      show entryExists (setWord _ dst cur _ dst cur) = true
      rw [setWord_self]
      exact (newPde_spec (h.take halloc).1).1

/-- One turn of the inner loop of `ptable_copy_range`, which leaves the directories alone. -/
theorem Safe.copyPte {pgtNew pgtOld t : ℕ} (hign : CountsIgnored alloc incUses)
    (h : Safe boot kernelPgd D alloc x) (hd : dst ∈ D) (hi : cur < kernelPdeStart)
    (hex : entryExists (x.1 dst cur) = true) (hnew : frameOf (x.1 dst cur) = pgtNew)
    (hcall : copyPte alloc incUses flags pgtNew pgtOld x t = some y) :
    Safe boot kernelPgd D alloc y ∧ y.1 dst cur = x.1 dst cur := by
  subst hnew
  -- both flags end in a store to the destination's table
  have hstore : ∀ z : PhysMem × σ, Safe boot kernelPgd D alloc z → z.1 dst cur = x.1 dst cur →
      ∀ v, Safe boot kernelPgd D alloc (setWord z.1 (frameOf (x.1 dst cur)) t v, z.2) ∧
        setWord z.1 (frameOf (x.1 dst cur)) t v dst cur = x.1 dst cur := by
    intro z hz hword v
    rw [← hword] at hex ⊢
    refine ⟨hz.table_store hd hi hex t v, ?_⟩
    rw [(hz.dirs.table_store hd hi hex t v).2 dst hd]
  unfold Rotary.copyPte at hcall
  dsimp only at hcall
  split at hcall
  · cases hcall
    exact ⟨h, rfl⟩
  split at hcall
  · -- `PTC_SHARE`
    cases hcall
    exact hstore (x.1, incUses x.2 (frameOf (x.1 pgtOld t))) ⟨h.dirs, h.offers.counted hign _⟩ rfl _
  split at hcall
  · -- `PTC_COPY`
    split at hcall
    · cases hcall
    · rename_i page s₁ halloc
      cases hcall
      obtain ⟨-, hout, htake⟩ := h.take halloc
      have hne : dst ≠ page := fun heq => hout (Or.inl (heq ▸ hd))
      refine hstore (copyFrame x.1 page _, s₁) (htake.unused_store hout _) ?_ _
      exact congrFun (Function.update_of_ne hne _ _) cur
  · cases hcall
    exact ⟨h, rfl⟩

theorem Safe.foldlM_copyPte {pgtNew pgtOld : ℕ} {ts : List ℕ} (hign : CountsIgnored alloc incUses)
    (h : Safe boot kernelPgd D alloc x) (hd : dst ∈ D) (hi : cur < kernelPdeStart)
    (hex : entryExists (x.1 dst cur) = true) (hnew : frameOf (x.1 dst cur) = pgtNew)
    (hcall : ts.foldlM (Rotary.copyPte alloc incUses flags pgtNew pgtOld) x = some y) :
    Safe boot kernelPgd D alloc y := by
  induction ts generalizing x with
  | nil =>
    cases hcall
    exact h
  | cons t ts ih =>
    rw [List.foldlM_cons] at hcall
    obtain ⟨z, hfirst, hrest⟩ := Option.bind_eq_some_iff.mp hcall
    obtain ⟨hz, hword⟩ := h.copyPte hign hd hi hex hnew hfirst
    rw [← hword] at hex hnew
    exact ih hz hex hnew hrest

/-- The last directory entry of a range that ends at `KERNEL_START_VIRT` has no part of its
    table in the range. -/
theorem copiedPart_kernel (hstart : startAddr < kernelStartVirt) (hend : endAddr ≤ kernelStartVirt)
    (hcur : cur ≤ pageDirectoryIndex endAddr) (hk : kernelPdeStart ≤ cur) :
    cur = kernelPdeStart ∧ copiedPart startAddr endAddr cur = [] := by
  have hs : pageDirectoryIndex startAddr < kernelPdeStart := pageDirectoryIndex_user hstart
  have hendeq : endAddr = kernelStartVirt := by
    by_contra hne
    have := pageDirectoryIndex_user (Nat.lt_of_le_of_ne hend hne)
    omega
  subst hendeq
  obtain rfl : cur = kernelPdeStart := Nat.le_antisymm hcur hk
  have hpart : currEndPte startAddr kernelStartVirt kernelPdeStart = 0 := by
    unfold currEndPte
    rw [if_neg hs.ne']
    decide
  refine ⟨rfl, ?_⟩
  unfold copiedPart
  rw [hpart]
  simp

/-- One turn of the outer loop of `ptable_copy_range`. -/
theorem Safe.copyPde (hign : CountsIgnored alloc incUses) (h : Safe boot kernelPgd D alloc x)
    (hd : dst ∈ D) (hstart : startAddr < kernelStartVirt) (hend : endAddr ≤ kernelStartVirt)
    (hcur : cur ≤ pageDirectoryIndex endAddr)
    (hcall : copyPde alloc incUses flags src dst startAddr endAddr x cur = some y) :
    Safe boot kernelPgd D alloc y := by
  unfold Rotary.copyPde at hcall
  split at hcall
  · cases hcall
    exact h
  split at hcall
  · cases hcall
  rename_i z htable
  rcases Nat.lt_or_ge cur kernelPdeStart with hi | hk
  · obtain ⟨hz, hex⟩ := h.copyTable hd hi htable
    exact hz.foldlM_copyPte hign hd hi hex rfl hcall
  · -- the kernel's first entry: the destination has it, and nothing below it is copied
    obtain ⟨rfl, hpart⟩ := copiedPart_kernel hstart hend hcur hk
    have hex : entryExists (x.1 dst kernelPdeStart) = true := by
      rw [h.dirs.half dst hd kernelPdeStart le_rfl (by decide)]
      exact h.dirs.present kernelPdeStart le_rfl (by decide)
    unfold Rotary.copyTable at htable
    rw [if_pos hex] at htable
    cases htable
    rw [hpart] at hcall
    cases hcall
    exact h

/-- **`ptable_copy_range`** over a user range, with any flags. -/
theorem Safe.ptableCopyRange (hign : CountsIgnored alloc incUses) (h : Safe boot kernelPgd D alloc x)
    (hd : dst ∈ D) (hstart : startAddr < kernelStartVirt) (hend : endAddr ≤ kernelStartVirt)
    (hcall : ptableCopyRange alloc incUses flags x.1 x.2 src dst startAddr endAddr = some y) :
    Safe boot kernelPgd D alloc y := by
  unfold Rotary.ptableCopyRange at hcall
  have hle : ∀ cur ∈ copiedPdes startAddr endAddr, cur ≤ pageDirectoryIndex endAddr := by
    intro cur hcur
    unfold copiedPdes at hcur
    have := List.mem_range'_1.mp hcur
    omega
  revert hcall hle
  generalize copiedPdes startAddr endAddr = curs
  intro hcall hle
  induction curs generalizing x with
  | nil =>
    cases hcall
    exact h
  | cons cur curs ih =>
    rw [List.foldlM_cons] at hcall
    obtain ⟨z, hfirst, hrest⟩ := Option.bind_eq_some_iff.mp hcall
    have hz := h.copyPde hign hd hstart hend (hle cur List.mem_cons_self) hfirst
    exact ih hz hrest fun c hc => hle c (List.mem_cons_of_mem cur hc)

end Calls

/-! ### Runs -/

/-- Physical memory, the page allocator and the live address spaces. -/
structure SpaceState where
  mem : PhysMem
  buddy : BuddyAllocator
  spaces : List VmSpace

/-- The frames of `kernel_pgd` and of the live page directories. -/
def SpaceState.directories (kernelPgd : ℕ) (st : SpaceState) : Set ℕ :=
  insert kernelPgd {d | ∃ space ∈ st.spaces, space.pgdFrame = d}

/-- From the allocator's state `s` on, `page_alloc` returns only pages not in use. -/
def SpaceState.ReturnsUnused (kernelPgd : ℕ) (st : SpaceState) (s : BuddyAllocator) : Prop :=
  Offers allocPage s (InUse st.mem (st.directories kernelPgd))

/-- `page_free` of the page that `ptable_unmap` gives back, if it does. -/
def freeUnmapped (img : KernelImage) (s : BuddyAllocator) (pfn : Option ℕ) : BuddyAllocator :=
  pfn.elim s (freePage img s)

/-- One call on an address space or a page directory, or something else that is done with the
    memory they do not use. -/
inductive SpaceStep (img : KernelImage) (kernelPgd : ℕ) : SpaceState → SpaceState → Prop
  /-- `vm_space_new`; for a null result there is no new space. -/
  | new (st : SpaceState) (slab : Bool) (vms : ℕ) (mem' : PhysMem) (s' : BuddyAllocator)
      (space : Option VmSpace) (hpages : st.ReturnsUnused kernelPgd (kmallocPages st.buddy slab))
      (hcall : vmSpaceNew st.mem st.buddy kernelPgd slab vms = some (mem', s', space)) :
      SpaceStep img kernelPgd st ⟨mem', s', space.toList ++ st.spaces⟩
  /-- `vm_space_destroy`. -/
  | destroy (st : SpaceState) (space : VmSpace) (hspace : space ∈ st.spaces) :
      SpaceStep img kernelPgd st
        ⟨st.mem, vmSpaceDestroy img ⟨st.mem, st.buddy, space⟩, st.spaces.erase space⟩
  /-- `vm_space_add_map` and `vm_space_delete_map`. -/
  | mappings (st : SpaceState) (spaces : List VmSpace)
      (hsame : spaces.map VmSpace.pgd = st.spaces.map VmSpace.pgd) :
      SpaceStep img kernelPgd st { st with spaces := spaces }
  /-- `ptable_map` of a user address. -/
  | map (st : SpaceState) (d va pa : ℕ) (flags : BitVec 32) (mem' : PhysMem) (s' : BuddyAllocator)
      (hd : d ∈ st.directories kernelPgd) (hva : va < kernelStartVirt)
      (hpages : st.ReturnsUnused kernelPgd st.buddy)
      (hcall : ptableMap allocPage st.mem st.buddy d va pa flags = some (mem', s')) :
      SpaceStep img kernelPgd st ⟨mem', s', st.spaces⟩
  /-- `ptable_unmap` of a user address. -/
  | unmap (st : SpaceState) (d va : ℕ) (free : Bool) (hd : d ∈ st.directories kernelPgd)
      (hva : va < kernelStartVirt) :
      SpaceStep img kernelPgd st ⟨(ptableUnmap st.mem d va free).1,
        freeUnmapped img st.buddy (ptableUnmap st.mem d va free).2, st.spaces⟩
  /-- `vm_space_page_fault` on a user address. -/
  | fault (st : SpaceState) (space : VmSpace) (addr : ℕ) (r : Status) (vm : VmState)
      (hspace : space ∈ st.spaces) (hva : addr < kernelStartVirt)
      (hpages : st.ReturnsUnused kernelPgd st.buddy)
      (hcall : vmSpacePageFault ⟨st.mem, st.buddy, space⟩ addr = some (r, vm)) :
      SpaceStep img kernelPgd st ⟨vm.mem, vm.buddy, st.spaces⟩
  /-- `ptable_copy_range` over a user range; the two directories may be the same. -/
  | copy (st : SpaceState) (flags : BitVec 32) (src dst startAddr endAddr : ℕ) (mem' : PhysMem)
      (s' : BuddyAllocator) (hsrc : src ∈ st.directories kernelPgd)
      (hdst : dst ∈ st.directories kernelPgd) (hstart : startAddr < kernelStartVirt)
      (hend : endAddr ≤ kernelStartVirt) (hpages : st.ReturnsUnused kernelPgd st.buddy)
      (hcall : ptableCopyRange allocPage pageIncUses flags st.mem st.buddy src dst startAddr endAddr =
        some (mem', s')) :
      SpaceStep img kernelPgd st ⟨mem', s', st.spaces⟩
  /-- Pages are allocated and freed for other purposes, and memory changes where no directory and
      no table is. -/
  | other (st : SpaceState) (mem' : PhysMem) (s' : BuddyAllocator)
      (hmem : ∀ f ∈ InUse st.mem (st.directories kernelPgd), mem' f = st.mem f) :
      SpaceStep img kernelPgd st ⟨mem', s', st.spaces⟩

/-- A run of calls. -/
abbrev SpaceRun (img : KernelImage) (kernelPgd : ℕ) := Relation.ReflTransGen (SpaceStep img kernelPgd)

/-- The directories are in order. -/
def SpaceState.Ok (boot : PhysMem) (kernelPgd : ℕ) (st : SpaceState) : Prop :=
  Directories boot kernelPgd (st.directories kernelPgd) st.mem

section Runs

variable {img : KernelImage} {st st' : SpaceState} {space : VmSpace} {pse pge : Bool}
  {bm bm' : Bootmem} {s s' : BuddyAllocator}

theorem SpaceState.kernel_mem (st : SpaceState) : kernelPgd ∈ st.directories kernelPgd :=
  Set.mem_insert _ _

theorem SpaceState.space_mem (hspace : space ∈ st.spaces) :
    space.pgdFrame ∈ st.directories kernelPgd := Or.inr ⟨space, hspace, rfl⟩

/-- **`vm_space_new`.** -/
theorem SpaceState.Ok.new {slab : Bool} {vms : ℕ} {new : Option VmSpace}
    (h : st.Ok boot kernelPgd) (hpages : st.ReturnsUnused kernelPgd (kmallocPages st.buddy slab))
    (hcall : vmSpaceNew st.mem st.buddy kernelPgd slab vms = some (mem', s', new)) :
    SpaceState.Ok boot kernelPgd ⟨mem', s', new.toList ++ st.spaces⟩ := by
  unfold vmSpaceNew at hcall
  dsimp only at hcall
  split at hcall
  · cases hcall
    exact h
  · obtain ⟨⟨pgd, mem₁, s₁⟩, hnew, heq⟩ := Option.map_eq_some_iff.mp hcall
    cases heq
    have hsafe : Safe boot kernelPgd (st.directories kernelPgd) allocPage
        (st.mem, kmallocPages st.buddy slab) := ⟨h, hpages⟩
    obtain ⟨hlt, hdirs⟩ := hsafe.ptablePgdNew hnew
    have hframe := pgdFrame_new hlt
    refine hdirs.subset ?_ (SpaceState.kernel_mem _)
    rintro d (rfl | ⟨space, hspace, rfl⟩)
    · exact Set.mem_insert_of_mem pgd (SpaceState.kernel_mem st)
    · rcases List.mem_append.mp hspace with hhere | hold
      · obtain rfl : space = ⟨virToPhy (pageVa pgd), []⟩ := by simpa using hhere
        rw [hframe]
        exact Set.mem_insert _ _
      · exact Set.mem_insert_of_mem pgd (SpaceState.space_mem hold)

/-- **`vm_space_page_fault`.** -/
theorem SpaceState.Ok.fault {addr : ℕ} {r : Status} {vm : VmState} (h : st.Ok boot kernelPgd)
    (hspace : space ∈ st.spaces) (hva : addr < kernelStartVirt)
    (hpages : st.ReturnsUnused kernelPgd st.buddy)
    (hcall : vmSpacePageFault ⟨st.mem, st.buddy, space⟩ addr = some (r, vm)) :
    Directories boot kernelPgd (st.directories kernelPgd) vm.mem := by
  have hsafe : Safe boot kernelPgd (st.directories kernelPgd) allocPage (st.mem, st.buddy) :=
    ⟨h, hpages⟩
  unfold vmSpacePageFault at hcall
  split at hcall
  · unfold vmSpaceMapPage at hcall
    split at hcall
    · cases hcall
      exact h
    · rename_i newPage s₁ halloc
      obtain ⟨⟨mem₁, s₂⟩, hmap, heq⟩ := Option.map_eq_some_iff.mp hcall
      cases heq
      obtain ⟨-, -, htake⟩ := hsafe.take halloc
      exact (htake.ptableMap (SpaceState.space_mem hspace) hva hmap).dirs
  · cases hcall
    exact h

/-- **One step** leaves the directories in order. -/
theorem SpaceState.Ok.step (h : st.Ok boot kernelPgd) (hstep : SpaceStep img kernelPgd st st') :
    st'.Ok boot kernelPgd := by
  cases hstep with
  | new slab vms mem' s' space hpages hcall => exact h.new hpages hcall
  | destroy space hspace =>
    refine Directories.subset h ?_ (SpaceState.kernel_mem _)
    apply Set.insert_subset_insert
    rintro d ⟨space', hspace', rfl⟩
    exact ⟨space', List.mem_of_mem_erase hspace', rfl⟩
  | mappings spaces hsame =>
    refine Directories.subset h ?_ (SpaceState.kernel_mem _)
    apply Set.insert_subset_insert
    rintro d ⟨space, hspace, rfl⟩
    have hpgd : space.pgd ∈ st.spaces.map VmSpace.pgd := hsame ▸ List.mem_map_of_mem hspace
    obtain ⟨space', hspace', heq⟩ := List.mem_map.mp hpgd
    exact ⟨space', hspace', congrArg paToPfn heq⟩
  | map d va pa flags mem' s' hd hva hpages hcall =>
    exact (Safe.ptableMap (x := (st.mem, st.buddy)) ⟨h, hpages⟩ hd hva hcall).dirs
  | unmap d va free hd hva => exact Directories.ptableUnmap h hd hva free
  | fault space addr r vm hspace hva hpages hcall => exact h.fault hspace hva hpages hcall
  | copy flags src dst startAddr endAddr mem' s' hsrc hdst hstart hend hpages hcall =>
    exact (Safe.ptableCopyRange (x := (st.mem, st.buddy)) countsIgnored_pageAlloc ⟨h, hpages⟩ hdst
      hstart hend hcall).dirs
  | other mem' s' hmem =>
    apply Directories.congr h
    · intro d hd
      exact hmem d (Or.inl hd)
    · intro i hlo hhi ht
      exact hmem _ (Directories.kernelTable h hlo hhi ht)

theorem SpaceState.Ok.run (h : st.Ok boot kernelPgd) (hrun : SpaceRun img kernelPgd st st') :
    st'.Ok boot kernelPgd := by
  induction hrun with
  | refl => exact h
  | tail _ hstep ih => exact ih.step hstep

/-! ### After boot -/

/-- `paging_setup_kernel_pgd` has returned.  Before it, `kernel_pgd` was zero, as every static
    object without an initialiser, and its frame was no part of boot memory. -/
structure SetUp (pse pge : Bool) (kernelPgd : ℕ) (mem : PhysMem) (bm : Bootmem) (boot : PhysMem) :
    Prop where
  layout : Layout bm (pageSpan kernelPgd)
  zero : ∀ i < tableStart, mem kernelPgd i = 0
  returned : ∃ bm', pagingSetupKernelPgd pse pge kernelPgd mem bm = some (boot, bm')

/-- The entries of `kernel_pgd` after boot. -/
theorem SetUp.entries (h : SetUp pse pge kernelPgd mem bm boot) :
    (∀ i < kernelPdeStart, boot kernelPgd i = 0) ∧
      ∃ W, ∀ t, tableStart ≤ t → t < pageDirSize → EntryOk pse pge boot kernelPgd t W := by
  obtain ⟨bm', hsetup⟩ := h.returned
  obtain ⟨W, -, -, hleft, hall⟩ := pagingSetup_spec h.layout subset_rfl hsetup
  exact ⟨fun i hi => (hleft.user i hi).trans (h.zero i hi), W, hall⟩

theorem SpaceState.directories_none (mem : PhysMem) (s : BuddyAllocator) :
    SpaceState.directories kernelPgd ⟨mem, s, []⟩ = {kernelPgd} := by
  unfold SpaceState.directories
  simp

theorem SetUp.ok (h : SetUp pse pge kernelPgd mem bm boot) (s : BuddyAllocator) :
    SpaceState.Ok boot kernelPgd ⟨boot, s, []⟩ := by
  obtain ⟨huser, W, hall⟩ := h.entries
  have hnone : ∀ i < kernelPdeStart, ¬ entryExists (boot kernelPgd i) = true := by
    intro i hi
    rw [huser i hi]
    decide
  have hframe : ∀ j < pageDirSize, IsTable boot kernelPgd j →
      frameOf (boot kernelPgd j) ≠ kernelPgd := by
    intro j hj ht
    rcases Nat.lt_or_ge j kernelPdeStart with hlt | hge
    · exact absurd ht.1 (hnone j hlt)
    · exact ((hall j hge hj).entry.2.2 ht).1
  unfold SpaceState.Ok
  rw [SpaceState.directories_none]
  refine ⟨fun i hlo hhi => (hall i hlo hhi).entry.1, rfl, ?_, ?_, ?_, fun _ _ _ _ => rfl⟩
  · rintro d rfl i hlo hhi
    rfl
  · rintro d rfl
    exact ⟨fun i hi hex => absurd hex (hnone i hi), fun i hi _ _ _ ht => absurd ht.1 (hnone i hi),
      hframe⟩
  · rintro d rfl j hj ht
    exact hframe j hj ht

/-! ### A machine with one address space -/

/-- After boot, the page allocator returns neither `kernel_pgd` nor one of its tables. -/
theorem kernelBoot_unused {past : PastEnd} {regions : List RegionArg} {b : Boot}
    (hdis : regions.Pairwise fun r r' => Disjoint r.span r'.span)
    (hdir : DirectoryReserved img regions kernelPgd) (hzero : ∀ i < tableStart, mem kernelPgd i = 0)
    (hboot : kernelBoot img past pse pge kernelPgd mem regions = some (boot, b))
    (hbelow : BuddiesBelow b.bootmem.highestPfn b.bootmem.freeable) :
    SetUp pse pge kernelPgd mem (registerAll img bootmemReset regions) boot ∧
      (∀ p ∈ b.pages, p ∉ InUse boot {kernelPgd}) ∧
      Offers allocPage b.allocator (InUse boot {kernelPgd}) ∧
      (b.pages ≠ [] → ∃ p s', allocPage b.allocator = (some p, s')) := by
  have hsetup : SetUp pse pge kernelPgd mem (registerAll img bootmemReset regions) boot := by
    refine ⟨hdir.layout hdis, hzero, ?_⟩
    unfold kernelBoot at hboot
    split at hboot
    · cases hboot
    rename_i mem₁ bm₁ hsetup
    obtain ⟨b', -, heq⟩ := Option.map_eq_some_iff.mp hboot
    cases heq
    exact ⟨bm₁, hsetup⟩
  obtain ⟨⟨W, hall, hW, havoid⟩, hover, hnd, hiff, hpages, hlt⟩ := kernelBoot_spec hdis hdir hboot
  have hset : {p | p ∈ b.pages} = b.bootmem.freeable := Set.ext hiff
  rw [← hset] at hbelow
  obtain ⟨⟨F, hs⟩, -⟩ := hover.running hnd hpages (Or.inr hbelow)
  have hfree : freePages b.allocator = {p | p ∈ b.pages} := by
    rw [hs.freePages_eq]
    simp [liveBlocks, cover]
  have hunused : ∀ p ∈ b.pages, p ∉ InUse boot {kernelPgd} := by
    intro p hp hmem
    -- the directory and its tables are boot memory, which is not handed over
    have hin : pageSpan p ⊆ W := by
      rcases hmem with rfl | ⟨d, rfl, j, hj, ht, rfl⟩
      · exact hW
      · rcases Nat.lt_or_ge j kernelPdeStart with hlo | hge
        · have hnot := ht.1
          rw [hsetup.entries.1 j hlo] at hnot
          exact absurd hnot (by decide)
        · exact ((hall j hge hj).entry.2.2 ht).2
    exact Set.disjoint_left.mp (havoid p hp) (mem_pageSpan_self p) (hin (mem_pageSpan_self p))
  refine ⟨hsetup, hunused, ?_, fun hne => ?_⟩
  · apply hs.core.offers hlt.le
    rw [hfree]
    exact hunused
  · obtain ⟨p, hp⟩ := List.exists_mem_of_ne_nil _ hne
    have hmem : p ∈ freePages b.allocator := by
      rw [hfree]
      exact hp
    rcases hs.core.allocPage_cases with ⟨-, hempty⟩ | ⟨t, s', -, -, heq, -⟩
    · rw [hempty] at hmem
      cases hmem
    · exact ⟨t, s', heq⟩

/-- `vm_space_new` on a machine without address spaces. -/
theorem first_space (hpages : Offers allocPage s (InUse mem {kernelPgd}))
    (halloc : allocPage s = (some p, s')) :
    SpaceStep img kernelPgd ⟨mem, s, []⟩
      ⟨Function.update mem p (mem kernelPgd), s', [⟨virToPhy (pageVa p), []⟩]⟩ := by
  have hne : kernelPgd ≠ p := fun heq => (hpages.take halloc).2.1 (Or.inl heq.symm)
  refine SpaceStep.new ⟨mem, s, []⟩ false 1 _ _ (some ⟨virToPhy (pageVa p), []⟩) ?_ ?_
  · unfold SpaceState.ReturnsUnused
    rw [SpaceState.directories_none]
    exact hpages
  · unfold vmSpaceNew kmallocPages ptablePgdNew clearFrame
    simp [halloc, Function.update_of_ne hne]

/-- 3 MiB above the image. -/
def threeMegabytes : List RegionArg := [⟨0x200000, 0x500000, 1⟩]

/-- The machine after boot: the page at 4 MiB has been handed over. -/
theorem threeMegabytes_booted : ∃ boot, ∃ b : Boot,
    SetUp true true 0x110 (fun _ _ => 0) (registerAll lowImage bootmemReset threeMegabytes) boot ∧
      1024 ∈ b.pages ∧ (∀ p ∈ b.pages, p ∉ InUse boot {0x110}) ∧
      Offers allocPage b.allocator (InUse boot {0x110}) ∧
      ∃ p s', allocPage b.allocator = (some p, s') := by
  have hresult : (kernelBoot lowImage zeroPast true true 0x110 (fun _ _ => 0) threeMegabytes).map
      (fun r => (r.2.bootmem.highestPfn, decide (1024 ∈ r.2.pages))) = some (1280, true) := by
    decide +kernel
  obtain ⟨⟨boot, b⟩, hboot, heq⟩ := Option.map_eq_some_iff.mp hresult
  obtain ⟨hhigh, hpage⟩ := Prod.mk.inj heq
  have hdis : threeMegabytes.Pairwise fun r r' => Disjoint r.span r'.span :=
    List.pairwise_singleton _ _
  have hdir : DirectoryReserved lowImage threeMegabytes 0x110 :=
    directoryReserved_of (by decide +kernel)
  obtain ⟨-, -, -, hiff, hpages, -⟩ := kernelBoot_spec hdis hdir hboot
  have hbelow : BuddiesBelow b.bootmem.highestPfn b.bootmem.freeable := by
    refine buddiesBelow_of_dvd ?_ fun p hp => hpages p ((hiff p).mpr hp)
    rw [hhigh]
    decide
  obtain ⟨hsetup, hunused, hoffers, halloc⟩ :=
    kernelBoot_unused hdis hdir (fun _ _ => rfl) hboot hbelow
  have hmem : 1024 ∈ b.pages := of_decide_eq_true hpage
  exact ⟨boot, b, hsetup, hmem, hunused, hoffers, halloc (List.ne_nil_of_mem hmem)⟩

/-! ### The kernel half -/

/-- **The kernel half.**  In every state reached from the one that `paging_setup_kernel_pgd` leaves
    behind, the entries 768 to 1023 of `kernel_pgd` are present and as they were then, and every
    live directory has the same ones. -/
theorem kernelHalf_agrees (hboot : SetUp pse pge kernelPgd mem bm boot)
    (hrun : SpaceRun img kernelPgd ⟨boot, s, []⟩ st) :
    ∀ i, 768 ≤ i → i < 1024 →
      entryExists (st.mem kernelPgd i) = true ∧ st.mem kernelPgd i = boot kernelPgd i ∧
      ∀ space ∈ st.spaces, st.mem space.pgdFrame i = st.mem kernelPgd i := by
  have hok : Directories boot kernelPgd (st.directories kernelPgd) st.mem :=
    (hboot.ok s).run hrun
  intro i hlo hhi
  rw [← kernelPdeStart_eq] at hlo
  have hkernel := hok.half kernelPgd hok.kernel i hlo hhi
  refine ⟨?_, hkernel, fun space hspace => ?_⟩
  · rw [hkernel]
    exact hok.present i hlo hhi
  · rw [hok.half _ (SpaceState.space_mem hspace) i hlo hhi, hkernel]

theorem kernelHalf_agrees_threeMegabytes : ∃ boot s st space,
    SpaceRun lowImage 0x110 ⟨boot, s, []⟩ st ∧ st.spaces = [space] ∧
      entryExists (st.mem 0x110 800) = true ∧ st.mem 0x110 800 = boot 0x110 800 ∧
      st.mem space.pgdFrame 800 = st.mem 0x110 800 := by
  obtain ⟨boot, b, hsetup, -, -, hoffers, p, s', halloc⟩ := threeMegabytes_booted
  have hrun : SpaceRun lowImage 0x110 ⟨boot, b.allocator, []⟩ _ :=
    Relation.ReflTransGen.single (first_space hoffers halloc)
  obtain ⟨hex, hsame, hspaces⟩ := kernelHalf_agrees hsetup hrun 800 (by decide) (by decide)
  exact ⟨boot, b.allocator, _, _, hrun, rfl, hex, hsame, hspaces _ List.mem_cons_self⟩

theorem kernelPdeStart_le_index {va : ℕ} (hlo : kernelStartVirt ≤ va) (hhi : va < 2 ^ 32) :
    kernelPdeStart ≤ pageDirectoryIndex va := by
  have hlo' : 0xC0000000 ≤ va := hlo
  rw [kernelPdeStart_eq, pageDirectoryIndex_eq]
  omega

theorem index_lt_tableKmap {va : ℕ} (hlo : kernelStartVirt ≤ va) (hhi : va < 2 ^ 32) :
    pageDirectoryIndex va < tableKmap ↔ va < kmapStartVirt := by
  have hlo' : 0xC0000000 ≤ va := hlo
  have htk : tableKmap = 960 := by decide
  have hks : kmapStartVirt = 0xF0000000 := rfl
  rw [htk, hks, pageDirectoryIndex_eq]
  omega

/-- So the processor finds the same for a kernel address, whatever directory is loaded. -/
theorem SpaceState.Ok.walk_kernel {va : ℕ} (h : st.Ok boot kernelPgd)
    (hd : d ∈ st.directories kernelPgd) (hlo : kernelStartVirt ≤ va) (hhi : va < 2 ^ 32) :
    walk st.mem d va = walk boot kernelPgd va := by
  have hidx := kernelPdeStart_le_index hlo hhi
  have hlt := pageDirectoryIndex_lt va
  have hword := Directories.half h d hd _ hidx hlt
  unfold walk
  rw [hword]
  dsimp only
  split
  · rfl
  split
  · rfl
  rename_i hex hhuge
  rw [Directories.tables h _ hidx hlt ⟨by simpa using hex, by simpa using hhuge⟩]

/-! ### The software walk -/

/-- `ptable_get_pte` and the processor agree on an address: a present entry has the frame that the
    processor finds, and where the processor finds a frame there is a present entry. -/
def WalksAgree (mem : PhysMem) (pgd va : ℕ) : Prop :=
  (∀ f i, ptableGetPte mem pgd va = some (f, i) → entryExists (mem f i) = true →
    (walk mem pgd va).map Mapping.frame = some (pageFrame (mem f i))) ∧
  ((walk mem pgd va).isSome = true →
    ∃ f i, ptableGetPte mem pgd va = some (f, i) ∧ entryExists (mem f i) = true)

/-- They agree where no 4 MB page is in the way. -/
theorem walksAgree_of_small {va : ℕ} (hsmall : entryExists (mem d (pageDirectoryIndex va)) = true →
    pdeIsHuge (mem d (pageDirectoryIndex va)) = false) : WalksAgree mem d va := by
  by_cases hex : entryExists (mem d (pageDirectoryIndex va)) = true
  · unfold WalksAgree
    rw [ptableGetPte_of_exists hex, walk_table rfl hex (hsmall hex)]
    constructor
    · rintro f i heq hpte
      obtain ⟨rfl, rfl⟩ := Prod.mk.inj (Option.some.inj heq)
      rw [if_pos hpte]
      rfl
    · intro hsome
      refine ⟨_, _, rfl, ?_⟩
      by_contra hpte
      rw [if_neg hpte] at hsome
      cases hsome
  · rw [Bool.not_eq_true] at hex
    constructor
    · intro f i heq
      unfold ptableGetPte at heq
      simp [hex] at heq
    · intro hsome
      unfold walk at hsome
      simp [hex] at hsome

/-- The word that `ptable_get_pte` takes for the entry of an address in a 4 MB page of the direct
    map: the first frame of the 4 MB is read as if it were a table. -/
def wordInDirectMap (mem : PhysMem) (va : ℕ) : BitVec 32 :=
  mem ((va - kernelStartVirt) / 2 ^ 22 * 1024) (pageTableIndex va)

/-- In a 4 MB page of the direct map. -/
theorem SpaceState.Ok.walksAgree_huge {W : Set ℕ} {va : ℕ} (h : st.Ok boot kernelPgd)
    (hall : ∀ t, tableStart ≤ t → t < pageDirSize → EntryOk true pge boot kernelPgd t W)
    (hd : d ∈ st.directories kernelPgd) (hlo : kernelStartVirt ≤ va) (hhi : va < kmapStartVirt) :
    WalksAgree st.mem d va ↔ entryExists (wordInDirectMap st.mem va) = true ∧
      pageFrame (wordInDirectMap st.mem va) = (va - kernelStartVirt) / 4096 * 4096 := by
  have hhi' : va < 2 ^ 32 := hhi.trans (by decide)
  have hidx := kernelPdeStart_le_index hlo hhi'
  have hlt := pageDirectoryIndex_lt va
  have hword := Directories.half h d hd _ hidx hlt
  have hentry := hall _ hidx hlt
  obtain ⟨hex, -⟩ := hentry.entry
  unfold EntryOk at hentry
  rw [if_pos ((index_lt_tableKmap hlo hhi').mpr hhi), if_pos rfl] at hentry
  -- `ptable_get_pte` does not look at the size bit
  have hframe : frameOf (st.mem d (pageDirectoryIndex va)) =
      (va - kernelStartVirt) / 2 ^ 22 * 1024 := by
    rw [hword, hentry]
    unfold frameOf
    rw [paToPfn_eq, pageFrame_hugeEntry hlo hhi]
    omega
  have hpte : ptableGetPte st.mem d va =
      some ((va - kernelStartVirt) / 2 ^ 22 * 1024, pageTableIndex va) := by
    rw [ptableGetPte_of_exists (by rw [hword]; exact hex), hframe]
  -- the processor does, and finds the direct map
  have hwalk : walk st.mem d va = some (directMapping va) :=
    (h.walk_kernel hd hlo hhi').trans (walk_direct hlo hhi hall)
  unfold WalksAgree
  rw [hpte, hwalk]
  constructor
  · rintro ⟨hsame, hfound⟩
    obtain ⟨f, i, heq, hpresent⟩ := hfound rfl
    obtain ⟨rfl, rfl⟩ := Prod.mk.inj (Option.some.inj heq)
    exact ⟨hpresent, (Option.some.inj (hsame _ _ rfl hpresent)).symm⟩
  · rintro ⟨hpresent, hsame⟩
    refine ⟨?_, fun _ => ⟨_, _, rfl, hpresent⟩⟩
    rintro f i heq -
    obtain ⟨rfl, rfl⟩ := Prod.mk.inj (Option.some.inj heq)
    exact congrArg some hsame.symm

/-- **The software walk.**  `ptable_get_pte` and the processor agree on every address of every
    live directory, except in the direct map if it is made of 4 MB pages.  There they agree only
    if the word read as an entry happens to be a present entry for the frame itself. -/
theorem softwareWalk_iff {va : ℕ} (hboot : SetUp pse pge kernelPgd mem bm boot)
    (hrun : SpaceRun img kernelPgd ⟨boot, s, []⟩ st) (hd : d ∈ st.directories kernelPgd)
    (hva : va < 2 ^ 32) :
    WalksAgree st.mem d va ↔
      (pse = true → kernelStartVirt ≤ va → va < kmapStartVirt →
        entryExists (wordInDirectMap st.mem va) = true ∧
          pageFrame (wordInDirectMap st.mem va) = (va - kernelStartVirt) / 4096 * 4096) := by
  have hok : st.Ok boot kernelPgd := (hboot.ok s).run hrun
  obtain ⟨-, W, hall⟩ := hboot.entries
  by_cases hhuge : pse = true ∧ kernelStartVirt ≤ va ∧ va < kmapStartVirt
  · obtain ⟨rfl, hlo, hhi⟩ := hhuge
    rw [hok.walksAgree_huge hall hd hlo hhi]
    exact ⟨fun h _ _ _ => h, fun h => h rfl hlo hhi⟩
  refine iff_of_true (walksAgree_of_small fun hex => ?_)
    fun hp hlo hhi => absurd ⟨hp, hlo, hhi⟩ hhuge
  rcases Nat.lt_or_ge va kernelStartVirt with huser | hkernel
  · exact (Directories.ok hok d hd).small _ (pageDirectoryIndex_user huser) hex
  · -- the kernel's entry points to a table from boot memory
    have hidx := kernelPdeStart_le_index hkernel hva
    have hlt := pageDirectoryIndex_lt va
    rw [Directories.half hok d hd _ hidx hlt, ← Bool.not_eq_true, (hall _ hidx hlt).entry.2.1,
      index_lt_tableKmap hkernel hva]
    exact fun hno => hhuge ⟨hno.1, hkernel, hno.2⟩

theorem softwareWalk_iff_threeMegabytes : ∃ boot s st space,
    SpaceRun lowImage 0x110 ⟨boot, s, []⟩ st ∧ st.spaces = [space] ∧
      WalksAgree st.mem space.pgdFrame 0xF0000000 := by
  obtain ⟨boot, b, hsetup, -, -, hoffers, p, s', halloc⟩ := threeMegabytes_booted
  have hrun : SpaceRun lowImage 0x110 ⟨boot, b.allocator, []⟩ _ :=
    Relation.ReflTransGen.single (first_space hoffers halloc)
  refine ⟨boot, b.allocator, _, _, hrun, rfl, (softwareWalk_iff hsetup hrun
    (SpaceState.space_mem List.mem_cons_self) (by decide)).mpr fun _ _ hlim => ?_⟩
  exact absurd hlim (by decide)

/-- **`ptable_get_pte` in a 4 MB page.**  The page at 4 MiB is zero, and `ptable_get_pte` of its
    kernel address takes its first word for the entry: the processor finds the page, and
    `ptable_get_pte` an absent one. -/
theorem softwareWalk_fails_directMap :
    ¬ ∀ (img : KernelImage) (pse pge : Bool) (kernelPgd : ℕ) (mem boot : PhysMem) (bm : Bootmem)
      (s : BuddyAllocator) (st : SpaceState), SetUp pse pge kernelPgd mem bm boot →
      SpaceRun img kernelPgd ⟨boot, s, []⟩ st →
      ∀ space ∈ st.spaces, ∀ va < 2 ^ 32, WalksAgree st.mem space.pgdFrame va := by
  intro h
  obtain ⟨boot, b, hsetup, hpage, hunused, hoffers, p, s', halloc⟩ := threeMegabytes_booted
  have hkeep : ∀ f ∈ InUse boot {0x110}, clearFrame boot 1024 f = boot f := by
    intro f hf
    have hne : f ≠ 1024 := fun heq => hunused 1024 hpage (heq ▸ hf)
    exact Function.update_of_ne hne _ _
  -- the page is cleared before the first space is made
  have hclear : SpaceStep lowImage 0x110 ⟨boot, b.allocator, []⟩
      ⟨clearFrame boot 1024, b.allocator, []⟩ := by
    apply SpaceStep.other
    rw [SpaceState.directories_none]
    exact hkeep
  rw [← InUse.congr fun d hd => hkeep d (Or.inl hd)] at hoffers
  have hrun := (Relation.ReflTransGen.single hclear).tail
    (first_space hoffers halloc)
  have hzero : wordInDirectMap (Function.update (clearFrame boot 1024) p
      (clearFrame boot 1024 0x110)) 0xC0400000 = 0 := by
    show Function.update (clearFrame boot 1024) p (clearFrame boot 1024 0x110) 1024 0 = 0
    by_cases hp : p = 1024
    · -- the new directory lies there, and its first entry is the user's
      rw [hp, Function.update_self, hkeep 0x110 (Or.inl rfl)]
      exact hsetup.entries.1 0 (by decide)
    · rw [Function.update_of_ne (Ne.symm hp)]
      simp [clearFrame]
  have hagree := h lowImage true true 0x110 _ boot _ b.allocator _ hsetup hrun _ List.mem_cons_self
    0xC0400000 (by decide)
  obtain ⟨-, W, hall⟩ := hsetup.entries
  rw [((hsetup.ok b.allocator).run hrun).walksAgree_huge hall
    (SpaceState.space_mem List.mem_cons_self) (by decide) (by decide), hzero] at hagree
  exact absurd hagree.1 (by decide)

end Runs

end Rotary
