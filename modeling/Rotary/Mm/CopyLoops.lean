import Rotary.Mm.Spaces
import Rotary.Mm.UnmapFree

namespace Rotary

open Lib

/-!
# The loops of `ptable_copy_range`

The call works on two directories at once, and takes pages while it goes along: tables for the
destination, and with `PTC_COPY` a page for every page copied.  `U` is the set of frames in use, and
grows with every page taken; all that is said about the rest of a loop is about frames in `U`.

* `Copying` — what holds between two turns of the outer loop;
* `TableReady` — the destination's table, found or made at the start of a turn;
* `copyPart_share` — the inner loop with `PTC_SHARE`;
* `Copied` — the addresses that the loops copy, `copied_iff` their indices.
-/

variable {boot mem mem' : PhysMem} {kernelPgd src dst d g p f : ℕ} {D U U' : Set ℕ}
  {x y : PhysMem × BuddyAllocator} {s s' : BuddyAllocator} {flags : BitVec 32} {ds : List ℕ}

/-! ### Between two turns -/

/-- The directories are in order, the two at hand have no user table in common at different entries,
    and `page_alloc` returns pages outside `U`, where all directories and tables are.  That the two
    are different, or have different tables at the same entry, is not asked for. -/
structure Copying (boot : PhysMem) (kernelPgd : ℕ) (D : Set ℕ) (src dst : ℕ) (U : Set ℕ)
    (x : PhysMem × BuddyAllocator) : Prop where
  dirs : Directories boot kernelPgd D x.1
  source : src ∈ D
  dest : dst ∈ D
  disjoint : ∀ i < kernelPdeStart, ∀ j < kernelPdeStart, i ≠ j → IsTable x.1 src i →
    IsTable x.1 dst j → frameOf (x.1 src i) ≠ frameOf (x.1 dst j)
  used : InUse x.1 D ⊆ U
  offers : Offers allocPage x.2 U

/-- The destination's table at a user entry is neither a directory nor a table of the source at
    another entry. -/
theorem Copying.table_apart (h : Copying boot kernelPgd D src dst U x) (hd : d < kernelPdeStart)
    (hex : entryExists (x.1 dst d) = true) :
    frameOf (x.1 dst d) ∉ D ∧ frameOf (x.1 dst d) ∈ U ∧
      ∀ i < pageDirSize, i ≠ d → IsTable x.1 src i → frameOf (x.1 src i) ≠ frameOf (x.1 dst d) := by
  have hdir : d < pageDirSize := hd.trans (by decide)
  have htable : IsTable x.1 dst d := (h.dirs.ok dst h.dest).isTable hd hex
  refine ⟨h.dirs.apart dst h.dest d hdir htable, h.used (InUse.table h.dest hdir htable), ?_⟩
  intro i hi hne hti
  rcases Nat.lt_or_ge i kernelPdeStart with huser | hkernel
  · exact h.disjoint i huser d hd hne hti htable
  · -- a table of the kernel half, which the destination has as well
    have hword : x.1 src i = x.1 dst i := by
      rw [h.dirs.half src h.source i hkernel hi, h.dirs.half dst h.dest i hkernel hi]
    unfold IsTable at hti
    rw [hword] at hti ⊢
    exact ((h.dirs.ok dst h.dest).distinct d hd i hi (hd.trans_le hkernel).ne htable hti).symm

/-- The destination gets a table in a page just taken. -/
theorem Copying.add_table (h : Copying boot kernelPgd D src dst U x) (hd : d < kernelPdeStart)
    (halloc : allocPage x.2 = (some g, s')) :
    g ∉ U ∧ g < 2 ^ 20 ∧
      Copying boot kernelPgd D src dst (insert g U) (setWord x.1 dst d (newPde g), s') := by
  obtain ⟨hlt, hout, hoffers⟩ := h.offers.take halloc
  obtain ⟨-, -, hframe, -, -⟩ := newPde_spec hlt
  have hfree : g ∉ InUse x.1 D := fun hmem => hout (h.used hmem)
  -- a table is the new one, or one from before
  have htables : ∀ e ∈ D, ∀ i < kernelPdeStart, IsTable (setWord x.1 dst d (newPde g)) e i →
      (i = d ∧ frameOf (setWord x.1 dst d (newPde g) e i) = g) ∨
        (IsTable x.1 e i ∧ frameOf (setWord x.1 dst d (newPde g) e i) = frameOf (x.1 e i) ∧
          frameOf (x.1 e i) ≠ g) := by
    intro e he i hi ht
    unfold IsTable at ht
    by_cases hhere : e = dst ∧ i = d
    · obtain ⟨rfl, rfl⟩ := hhere
      left
      rw [setWord_self, hframe]
      exact ⟨rfl, rfl⟩
    · rw [setWord_of_ne _ _ hhere] at ht ⊢
      refine Or.inr ⟨ht, rfl, fun heq => hfree ?_⟩
      rw [← heq]
      exact InUse.table he (hi.trans (by decide)) ht
  refine ⟨hout, hlt, h.dirs.add_table h.dest hd hlt hfree, h.source, h.dest, ?_, ?_, hoffers⟩
  · intro i hi j hj hij hti htj
    dsimp only at hti htj ⊢
    rcases htables src h.source i hi hti with ⟨hid, hnew⟩ | ⟨hti, hold, hng⟩
    · rcases htables dst h.dest j hj htj with ⟨hjd, -⟩ | ⟨-, hold, hng⟩
      · exact absurd (hid.trans hjd.symm) hij
      · rw [hnew, hold]
        exact hng.symm
    · rcases htables dst h.dest j hj htj with ⟨-, hnew⟩ | ⟨htj, hold', -⟩
      · rw [hold, hnew]
        exact hng
      · rw [hold, hold']
        exact h.disjoint i hi j hj hij hti htj
  · have hsub : InUse (setWord x.1 dst d (newPde g)) D ⊆ insert (frameOf (newPde g)) (InUse x.1 D) :=
      InUse.setWord_subset (newPde g)
    rw [hframe] at hsub
    exact hsub.trans (Set.insert_subset_insert h.used)

/-- Stores into a user table of the destination do not touch a directory. -/
theorem Copying.store_directories (h : Copying boot kernelPgd D src dst U x)
    (hd : d < kernelPdeStart) (hex : entryExists (x.1 dst d) = true)
    (hkeep : ∀ f ∈ U, f ≠ frameOf (x.1 dst d) → mem' f = x.1 f) : ∀ d' ∈ D, mem' d' = x.1 d' := by
  intro d' hd'
  obtain ⟨hdir, -, -⟩ := h.table_apart hd hex
  exact hkeep d' (h.used (Or.inl hd')) fun heq => hdir (heq ▸ hd')

/-- Stores into a user table of the destination, and into frames not in use. -/
theorem Copying.store (h : Copying boot kernelPgd D src dst U x) (hd : d < kernelPdeStart)
    (hex : entryExists (x.1 dst d) = true)
    (hkeep : ∀ f ∈ U, f ≠ frameOf (x.1 dst d) → y.1 f = x.1 f) (hU : U ⊆ U')
    (hoffers : Offers allocPage y.2 U') : Copying boot kernelPgd D src dst U' y := by
  obtain ⟨-, -, hsrc⟩ := h.table_apart hd hex
  have hdirs := h.store_directories hd hex hkeep
  refine ⟨h.dirs.congr hdirs fun i hlo hhi ht => ?_, h.source, h.dest, ?_, ?_, hoffers⟩
  · -- the tables of the kernel half are tables of the source
    have hword := h.dirs.half src h.source i hlo hhi
    apply hkeep _ (h.used (h.dirs.kernelTable hlo hhi ht))
    rw [← hword]
    apply hsrc i hhi (hd.trans_le hlo).ne'
    unfold IsTable
    rw [hword]
    exact ht
  · intro i hi j hj hij hti htj
    unfold IsTable at hti htj
    rw [hdirs src h.source] at hti ⊢
    rw [hdirs dst h.dest] at htj ⊢
    exact h.disjoint i hi j hj hij hti htj
  · rw [InUse.congr hdirs]
    exact h.used.trans hU

/-! ### The destination's table -/

/-- The directory entries among `ds` that the source has. -/
def sourcePdes (mem : PhysMem) (src : ℕ) (ds : List ℕ) : List ℕ :=
  ds.filter fun c => entryExists (mem src c)

/-- The directory entries among `ds` that the source has and the destination does not. -/
def missingPdes (mem : PhysMem) (src dst : ℕ) (ds : List ℕ) : List ℕ :=
  ds.filter fun c => entryExists (mem src c) && !entryExists (mem dst c)

theorem mem_sourcePdes {c : ℕ} : c ∈ sourcePdes mem src ds ↔ c ∈ ds ∧ entryExists (mem src c) = true :=
  List.mem_filter

theorem sourcePdes_cons_pos (hsrc : entryExists (mem src d) = true) (ds : List ℕ) :
    sourcePdes mem src (d :: ds) = d :: sourcePdes mem src ds := by
  unfold sourcePdes
  rw [List.filter_cons, if_pos hsrc]

theorem sourcePdes_cons_neg (hsrc : ¬ entryExists (mem src d) = true) (ds : List ℕ) :
    sourcePdes mem src (d :: ds) = sourcePdes mem src ds := by
  unfold sourcePdes
  rw [List.filter_cons, if_neg hsrc]

theorem mem_missingPdes {c : ℕ} : c ∈ missingPdes mem src dst ds ↔
    c ∈ ds ∧ entryExists (mem src c) = true ∧ entryExists (mem dst c) = false := by
  unfold missingPdes
  simp

/-- Nothing is missing where the destination has a table. -/
theorem missingPdes_of_exists (hex : entryExists (mem dst d) = true) :
    missingPdes mem src dst [d] = [] := by
  unfold missingPdes
  simp [hex]

theorem missingPdes_of_absent (hsrc : entryExists (mem src d) = true)
    (hex : entryExists (mem dst d) = false) : missingPdes mem src dst [d] = [d] := by
  unfold missingPdes
  simp [hsrc, hex]

/-- The destination's table at entry `c`, the page `g c` if it had none. -/
def tableFrame (mem : PhysMem) (dst : ℕ) (g : ℕ → ℕ) (c : ℕ) : ℕ :=
  if entryExists (mem dst c) then frameOf (mem dst c) else g c

theorem tableFrame_of_exists (hex : entryExists (mem dst d) = true) (g : ℕ → ℕ) :
    tableFrame mem dst g d = frameOf (mem dst d) :=
  if_pos hex

theorem tableFrame_of_absent (hex : entryExists (mem dst d) = false) (g : ℕ → ℕ) :
    tableFrame mem dst g d = g d :=
  if_neg (by simp [hex])

/-- There is a table at entry `d` of the destination: the one from before, or one in a page taken
    for it, which keeps what it held. -/
structure TableReady (boot : PhysMem) (kernelPgd : ℕ) (D : Set ℕ) (src dst : ℕ) (U : Set ℕ)
    (mem : PhysMem) (s : BuddyAllocator) (g : ℕ → ℕ) (d : ℕ) (y : PhysMem × BuddyAllocator) :
    Prop where
  ready : entryExists (y.1 dst d) = true
  frame : frameOf (y.1 dst d) = tableFrame mem dst g d
  fresh : entryExists (mem dst d) = false → g d < 2 ^ 20 ∧ g d ∉ U
  pde : ∀ c, y.1 dst c = if c = d ∧ entryExists (mem dst d) = false then newPde (g d) else mem dst c
  others : ∀ f, f ≠ dst → y.1 f = mem f
  took : Took allocPage s ((missingPdes mem src dst [d]).map g) y.2
  copying : Copying boot kernelPgd D src dst (insert (tableFrame mem dst g d) U) y

theorem Copying.table {g : ℕ → ℕ} (h : Copying boot kernelPgd D src dst U (mem, s))
    (hd : d < kernelPdeStart) (hsrc : entryExists (mem src d) = true)
    (hands : Hands allocPage s ((missingPdes mem src dst [d]).map g)) :
    ∃ y, copyTable allocPage dst (mem, s) d = some y ∧
      TableReady boot kernelPgd D src dst U mem s g d y := by
  by_cases hex : entryExists (mem dst d) = true
  · have hT := tableFrame_of_exists hex g
    have hmissing : missingPdes mem src dst [d] = [] := missingPdes_of_exists hex
    -- the destination has a table: nothing is stored
    refine ⟨(mem, s), by unfold copyTable; rw [if_pos hex], hex, hT.symm,
      fun hno => absurd (hex.symm.trans hno) (by decide), fun c => ?_,
      fun _ _ => rfl, by rw [hmissing]; rfl, ?_⟩
    · rw [hex, if_neg (by simp)]
    · rw [hT, Set.insert_eq_of_mem (h.table_apart hd hex).2.1]
      exact h
  · rw [Bool.not_eq_true] at hex
    have hT := tableFrame_of_absent hex g
    have hmissing := missingPdes_of_absent hsrc hex
    rw [hmissing] at hands
    -- a page is taken for the table, and is not cleared
    obtain ⟨s₁, halloc, -⟩ := hands
    obtain ⟨hout, hlt, hnew⟩ := h.add_table hd halloc
    obtain ⟨hnex, -, hframe, -, -⟩ := newPde_spec hlt
    have hself : setWord mem dst d (newPde (g d)) dst d = newPde (g d) := setWord_self _ _ _ _
    have hcall : copyTable allocPage dst (mem, s) d =
        some (setWord mem dst d (newPde (g d)), s₁) := by
      unfold copyTable
      simp only [hex, Bool.false_eq_true, if_false, halloc]
    refine ⟨_, hcall, ?_, ?_, fun _ => ⟨hlt, hout⟩, fun c => ?_, fun f hf => ?_, ?_, ?_⟩
    · dsimp only
      rw [hself]
      exact hnex
    · dsimp only
      rw [hself, hframe, hT]
    · dsimp only
      rw [setWord_apply]
      by_cases hc : c = d
      · rw [if_pos ⟨rfl, hc⟩, if_pos ⟨hc, hex⟩]
      · rw [if_neg fun hand => hc hand.2, if_neg fun hand => hc hand.1]
    · exact Function.update_of_ne hf _ _
    · rw [hmissing]
      exact ⟨s₁, halloc, rfl⟩
    · rw [hT]
      exact hnew

/-- The source is as before, also if it is the destination. -/
theorem TableReady.source {g : ℕ → ℕ} (ht : TableReady boot kernelPgd D src dst U mem s g d y)
    (hsrc : entryExists (mem src d) = true) : y.1 src = mem src := by
  by_cases hne : src = dst
  · subst hne
    funext c
    rw [ht.pde c, if_neg]
    rintro ⟨-, habs⟩
    exact absurd (hsrc.symm.trans habs) (by decide)
  · exact ht.others src hne

/-- The table was one before, or is in a page that was not in use. -/
theorem TableReady.origin {g : ℕ → ℕ} (ht : TableReady boot kernelPgd D src dst U mem s g d y)
    (h : Copying boot kernelPgd D src dst U (mem, s)) (hd : d < kernelPdeStart) :
    tableFrame mem dst g d ∈ InUse mem D ∨ tableFrame mem dst g d ∉ U := by
  by_cases hex : entryExists (mem dst d) = true
  · rw [tableFrame_of_exists hex]
    have htable : IsTable mem dst d := (h.dirs.ok dst h.dest).isTable hd hex
    exact Or.inl (InUse.table h.dest (hd.trans (by decide)) htable)
  · rw [Bool.not_eq_true] at hex
    rw [tableFrame_of_absent hex]
    exact Or.inr (ht.fresh hex).2

/-- The tables at other entries are not the one at `d`. -/
theorem TableReady.apart {g : ℕ → ℕ} {e c : ℕ}
    (ht : TableReady boot kernelPgd D src dst U mem s g d y)
    (h : Copying boot kernelPgd D src dst U (mem, s)) (hd : d < kernelPdeStart)
    (he : e = src ∨ e = dst) (hc : c < kernelPdeStart) (hcd : c ≠ d) (htable : IsTable mem e c) :
    frameOf (mem e c) ≠ tableFrame mem dst g d := by
  have hcdir : c < pageDirSize := hc.trans (by decide)
  by_cases hex : entryExists (mem dst d) = true
  · rw [tableFrame_of_exists hex]
    rcases he with rfl | rfl
    · exact (h.table_apart hd hex).2.2 c hcdir hcd htable
    · have hok := h.dirs.ok e h.dest
      exact hok.distinct c hc d (hd.trans (by decide)) hcd htable (hok.isTable hd hex)
  · rw [Bool.not_eq_true] at hex
    rw [tableFrame_of_absent hex]
    have heD : e ∈ D := by
      rcases he with rfl | rfl
      · exact h.source
      · exact h.dest
    exact fun heq => (ht.fresh hex).2 (heq ▸ h.used (InUse.table heD hcdir htable))

/-- No other frame becomes a table. -/
theorem TableReady.inUse {g : ℕ → ℕ} (ht : TableReady boot kernelPgd D src dst U mem s g d y) :
    InUse y.1 D ⊆ insert (tableFrame mem dst g d) (InUse mem D) := by
  rintro f (hdir | ⟨e, he, j, hj, hte, rfl⟩)
  · exact Or.inr (Or.inl hdir)
  · by_cases hed : e = dst
    · subst hed
      unfold IsTable at hte
      rw [ht.pde j] at hte ⊢
      by_cases hnew : j = d ∧ entryExists (mem e d) = false
      · obtain ⟨-, -, hframe, -, -⟩ := newPde_spec (ht.fresh hnew.2).1
        left
        rw [if_pos hnew, hframe, tableFrame_of_absent hnew.2]
      · rw [if_neg hnew] at hte ⊢
        exact Or.inr (InUse.table he hj hte)
    · have hword : y.1 e = mem e := ht.others e hed
      unfold IsTable at hte
      rw [hword] at hte ⊢
      exact Or.inr (InUse.table he hj hte)

/-- If a table could be had, the page for it was there. -/
theorem hands_of_copyTable (hsrc : entryExists (mem src d) = true)
    (hcall : copyTable allocPage dst (mem, s) d = some y) :
    ∃ g : ℕ → ℕ, Hands allocPage s ((missingPdes mem src dst [d]).map g) := by
  unfold copyTable at hcall
  split at hcall
  · rename_i hex
    rw [missingPdes_of_exists hex]
    exact ⟨fun _ => 0, trivial⟩
  · rename_i hex
    rw [Bool.not_eq_true] at hex
    rw [missingPdes_of_absent hsrc hex]
    split at hcall
    · cases hcall
    · rename_i page s₁ halloc
      exact ⟨fun _ => page, s₁, halloc, trivial⟩

/-! ### The inner loop -/

/-- The indices among `is` at which the table in frame `t` has a present entry. -/
def presentPart (mem : PhysMem) (t : ℕ) (is : List ℕ) : List ℕ :=
  is.filter fun i => entryExists (mem t i)

theorem presentPart_congr {t : ℕ} (heq : mem' t = mem t) (is : List ℕ) :
    presentPart mem' t is = presentPart mem t is := by
  unfold presentPart
  rw [heq]

theorem presentPart_cons_pos {t i : ℕ} (hex : entryExists (mem t i) = true) (is : List ℕ) :
    presentPart mem t (i :: is) = i :: presentPart mem t is := by
  unfold presentPart
  rw [List.filter_cons, if_pos hex]

theorem presentPart_cons_neg {t i : ℕ} (hex : ¬ entryExists (mem t i) = true) (is : List ℕ) :
    presentPart mem t (i :: is) = presentPart mem t is := by
  unfold presentPart
  rw [List.filter_cons, if_neg hex]

/-- The frames behind them. -/
def presentFrames (mem : PhysMem) (t : ℕ) (is : List ℕ) : List ℕ :=
  (presentPart mem t is).map fun i => frameOf (mem t i)

/-- **`PTC_SHARE`.**  The entries are copied as they are, and every page behind them has one more
    use. -/
theorem copyPart_share {tNew tOld : ℕ} (hshare : testFlag flags ptcShare = true)
    (hne : tOld ≠ tNew) (is : List ℕ) (mem : PhysMem) (s : BuddyAllocator) :
    is.foldlM (copyPte allocPage pageIncUses flags tNew tOld) (mem, s) =
      some (Function.update mem tNew fun i =>
          if i ∈ presentPart mem tOld is then mem tOld i else mem tNew i,
        (presentFrames mem tOld is).foldl pageIncUses s) := by
  induction is generalizing mem s with
  | nil => simp [presentPart, presentFrames]
  | cons i is ih =>
    rw [List.foldlM_cons]
    by_cases hex : entryExists (mem tOld i) = true
    · have hstep : copyPte allocPage pageIncUses flags tNew tOld (mem, s) i =
          some (setWord mem tNew i (mem tOld i), pageIncUses s (frameOf (mem tOld i))) := by
        unfold copyPte
        simp [hex, hshare]
      have hold : setWord mem tNew i (mem tOld i) tOld = mem tOld := Function.update_of_ne hne _ _
      rw [hstep]
      show List.foldlM _ _ is = _
      -- the old table is not the new one, so the words still to be read are those of before
      rw [ih, presentFrames, presentFrames, presentPart_congr hold, hold, presentPart_cons_pos hex]
      congr 2
      unfold setWord
      rw [Function.update_idem]
      congr 1
      funext j
      by_cases hj : j = i
      · simp [hj]
      · simp [hj]
    · have hstep : copyPte allocPage pageIncUses flags tNew tOld (mem, s) i = some (mem, s) := by
        unfold copyPte
        simp [hex]
      rw [hstep, presentFrames, presentPart_cons_neg hex]
      exact ih mem s

/-! ### The range -/

/-- The directory entries of the user that the outer loop goes through. -/
def userPdes (startAddr endAddr : ℕ) : List ℕ :=
  (copiedPdes startAddr endAddr).filter fun c => decide (c < kernelPdeStart)

/-- Where copying stops: if both addresses are below one directory entry, the index of the end
    address is not looked at. -/
def copyEnd (startAddr endAddr : ℕ) : ℕ :=
  if pageDirectoryIndex startAddr = pageDirectoryIndex endAddr then
    (pageDirectoryIndex startAddr + 1) * 2 ^ 22
  else endAddr

section Range

variable {startAddr endAddr c i va : ℕ}

theorem nodup_userPdes (startAddr endAddr : ℕ) : (userPdes startAddr endAddr).Nodup := by
  apply List.Nodup.filter
  exact List.nodup_range'

theorem userPdes_lt (hc : c ∈ userPdes startAddr endAddr) : c < kernelPdeStart :=
  of_decide_eq_true (List.mem_filter.mp hc).2

theorem copyEnd_le (hstart : startAddr < kernelStartVirt) (hend : endAddr ≤ kernelStartVirt) :
    copyEnd startAddr endAddr ≤ kernelStartVirt := by
  unfold copyEnd
  split
  · have := pageDirectoryIndex_user hstart
    rw [kernelPdeStart_eq] at this
    unfold kernelStartVirt
    omega
  · exact hend

theorem le_copyEnd (startAddr : ℕ) (hend : endAddr ≤ kernelStartVirt) :
    endAddr ≤ copyEnd startAddr endAddr := by
  unfold copyEnd
  split
  · rename_i heq
    rw [heq, pageDirectoryIndex_eq]
    unfold kernelStartVirt at hend
    omega
  · exact le_rfl

/-- A range that ends at `KERNEL_START_VIRT` makes the loop look at the first entry of the kernel,
    where there is nothing to copy. -/
theorem copiedPdes_eq (hstart : startAddr < kernelStartVirt) (hend : endAddr ≤ kernelStartVirt) :
    copiedPdes startAddr endAddr = userPdes startAddr endAddr ∨
      copiedPdes startAddr endAddr = userPdes startAddr endAddr ++ [kernelPdeStart] ∧
        copiedPart startAddr endAddr kernelPdeStart = [] := by
  have hs := pageDirectoryIndex_user hstart
  rcases Nat.lt_or_eq_of_le hend with hlt | rfl
  · left
    have he := pageDirectoryIndex_user hlt
    unfold userPdes
    refine (List.filter_eq_self.mpr fun c hc => ?_).symm
    unfold copiedPdes at hc
    have := List.mem_range'_1.mp hc
    exact decide_eq_true (by omega)
  · right
    refine ⟨?_, (copiedPart_kernel hstart le_rfl le_rfl le_rfl).2⟩
    -- the index of `KERNEL_START_VIRT` is one more than the last of the user half
    have hcount : kernelPdeStart + 1 - pageDirectoryIndex startAddr =
        kernelPdeStart - pageDirectoryIndex startAddr + 1 := by omega
    have hlast : pageDirectoryIndex startAddr + 1 * (kernelPdeStart - pageDirectoryIndex startAddr) =
        kernelPdeStart := by omega
    have hall : copiedPdes startAddr kernelStartVirt =
        List.range' (pageDirectoryIndex startAddr) (kernelPdeStart - pageDirectoryIndex startAddr) ++
          [kernelPdeStart] := by
      unfold copiedPdes
      show List.range' _ (kernelPdeStart + 1 - _) = _
      rw [hcount, List.range'_concat, hlast]
    unfold userPdes
    rw [hall, List.filter_append, List.filter_eq_self.mpr]
    · simp
    · intro c hc
      have := List.mem_range'_1.mp hc
      exact decide_eq_true (by omega)

/-- So the call is the loop over the user's directory entries. -/
theorem ptableCopyRange_eq (hstart : startAddr < kernelStartVirt) (hend : endAddr ≤ kernelStartVirt)
    (hkernel : ∀ y, (userPdes startAddr endAddr).foldlM
      (copyPde allocPage pageIncUses flags src dst startAddr endAddr) (mem, s) = some y →
      entryExists (y.1 dst kernelPdeStart) = true) :
    ptableCopyRange allocPage pageIncUses flags mem s src dst startAddr endAddr =
      (userPdes startAddr endAddr).foldlM
        (copyPde allocPage pageIncUses flags src dst startAddr endAddr) (mem, s) := by
  unfold ptableCopyRange
  rcases copiedPdes_eq hstart hend with hpdes | ⟨hpdes, hpart⟩
  · rw [hpdes]
  · rw [hpdes, List.foldlM_append]
    cases hfold : (userPdes startAddr endAddr).foldlM
        (copyPde allocPage pageIncUses flags src dst startAddr endAddr) (mem, s) with
    | none => rfl
    | some y =>
      have hex := hkernel y hfold
      show List.foldlM _ y [kernelPdeStart] = some y
      rw [List.foldlM_cons]
      have hlast : copyPde allocPage pageIncUses flags src dst startAddr endAddr y kernelPdeStart =
          some y := by
        unfold copyPde copyTable
        rw [if_pos hex, hpart]
        split <;> rfl
      rw [hlast]
      rfl

/-- **The pages of the loops** are those from the start address to `copyEnd`. -/
theorem mem_copied (hstart : 4096 ∣ startAddr) (hend : 4096 ∣ endAddr) (hlt : startAddr < endAddr)
    (hle : endAddr ≤ kernelStartVirt) :
    c ∈ userPdes startAddr endAddr ∧ i ∈ copiedPart startAddr endAddr c ↔
      i < 1024 ∧ startAddr ≤ c * 2 ^ 22 + i * 4096 ∧ c * 2 ^ 22 + i * 4096 < copyEnd startAddr endAddr := by
  obtain ⟨a, rfl⟩ := hstart
  obtain ⟨b, rfl⟩ := hend
  unfold kernelStartVirt at hle
  have hsp : pageDirectoryIndex (4096 * a) = a / 1024 := by
    rw [pageDirectoryIndex_eq]
    omega
  have hep : pageDirectoryIndex (4096 * b) = b / 1024 := by
    rw [pageDirectoryIndex_eq]
    omega
  have hst : pageTableIndex (4096 * a) = a % 1024 := by
    rw [pageTableIndex_eq]
    omega
  have het : pageTableIndex (4096 * b) = b % 1024 := by
    rw [pageTableIndex_eq]
    omega
  unfold userPdes copiedPdes copiedPart currStartPte currEndPte copyEnd pageTableSize
  rw [List.mem_filter, List.mem_range'_1, List.mem_range'_1, hsp, hep, hst, het, kernelPdeStart_eq,
    decide_eq_true_eq]
  split_ifs <;> omega

/-! ### Pages -/

/-- An address is mapped if both of its entries are present. -/
theorem mapped_iff (hok : PtableOk mem src) (hva : va < kernelStartVirt) :
    (pageMap mem src (va / pageSize)).isSome = true ↔
      entryExists (mem src (pageDirectoryIndex va)) = true ∧
        entryExists (mem (frameOf (mem src (pageDirectoryIndex va))) (pageTableIndex va)) = true := by
  have hmap := congrArg Option.isSome (pageMap_pteAt hok hva)
  rw [Option.isSome_map, Option.isSome_map] at hmap
  rw [hmap]
  by_cases hex : entryExists (mem src (pageDirectoryIndex va)) = true
  · rw [pteAt_of_exists hex, Option.filter_some]
    cases hpte : entryExists (mem (frameOf (mem src (pageDirectoryIndex va))) (pageTableIndex va)) <;>
      simp [hex]
  · rw [pteAt_of_absent (by simpa using hex)]
    simp [hex]

/-- The page of a user address, by its indices. -/
theorem page_of_index (hva : va < kernelStartVirt) :
    pageDirectoryIndex va * 2 ^ 22 + pageTableIndex va * 4096 = va / 4096 * 4096 := by
  rw [pageDirectoryIndex_eq, pageTableIndex_eq]
  unfold kernelStartVirt at hva
  omega

theorem pageNumber_of_index (hva : va < kernelStartVirt) :
    pageDirectoryIndex va * 1024 + pageTableIndex va = va / pageSize := by
  rw [pageDirectoryIndex_eq, pageTableIndex_eq]
  unfold kernelStartVirt at hva
  unfold pageSize
  omega

/-- The address of the page at two indices. -/
theorem page_at (hc : c < kernelPdeStart) (hi : i < 1024) :
    c * 2 ^ 22 + i * 4096 < kernelStartVirt ∧ pageDirectoryIndex (c * 2 ^ 22 + i * 4096) = c ∧
      pageTableIndex (c * 2 ^ 22 + i * 4096) = i ∧
      (c * 2 ^ 22 + i * 4096) / pageSize = c * 1024 + i := by
  rw [kernelPdeStart_eq] at hc
  have hlt : c * 2 ^ 22 + i * 4096 < 0xC0000000 := by omega
  have hpage : (c * 2 ^ 22 + i * 4096) / 4096 = c * 1024 + i := by omega
  refine ⟨hlt, ?_, ?_, hpage⟩
  · rw [pageDirectoryIndex_eq]
    omega
  · rw [pageTableIndex_eq]
    omega

/-- The addresses that the call copies. -/
def Copied (mem : PhysMem) (src startAddr endAddr va : ℕ) : Prop :=
  startAddr ≤ va ∧ va < copyEnd startAddr endAddr ∧ (pageMap mem src (va / pageSize)).isSome = true

theorem copyEnd_dvd (startAddr : ℕ) (hend : 4096 ∣ endAddr) : 4096 ∣ copyEnd startAddr endAddr := by
  unfold copyEnd
  split
  · exact Dvd.dvd.mul_left (by decide) _
  · exact hend

/-- The call copies the present entries that its loops come across. -/
theorem copied_iff (hok : PtableOk mem src) (hstart : 4096 ∣ startAddr) (hend : 4096 ∣ endAddr)
    (hlt : startAddr < endAddr) (hle : endAddr ≤ kernelStartVirt) (hva : va < kernelStartVirt) :
    Copied mem src startAddr endAddr va ↔
      pageDirectoryIndex va ∈ sourcePdes mem src (userPdes startAddr endAddr) ∧
        pageTableIndex va ∈ presentPart mem (frameOf (mem src (pageDirectoryIndex va)))
          (copiedPart startAddr endAddr (pageDirectoryIndex va)) := by
  have hloop := mem_copied (c := pageDirectoryIndex va) (i := pageTableIndex va) hstart hend hlt hle
  rw [page_of_index hva] at hloop
  have hrange : startAddr ≤ va ∧ va < copyEnd startAddr endAddr ↔
      pageTableIndex va < 1024 ∧ startAddr ≤ va / 4096 * 4096 ∧
        va / 4096 * 4096 < copyEnd startAddr endAddr := by
    have hti := pageTableIndex_lt va
    obtain ⟨a, ha⟩ := hstart
    obtain ⟨b, hb⟩ := copyEnd_dvd startAddr hend
    rw [hb, ha]
    omega
  unfold Copied
  rw [mapped_iff hok hva, ← and_assoc, hrange, ← hloop, mem_sourcePdes]
  unfold presentPart
  rw [List.mem_filter]
  tauto

/-- The indices of a page, from its number. -/
theorem indices_of_page {n : ℕ} (hn : n * 4096 < kernelStartVirt) :
    pageDirectoryIndex (n * 4096) = n / 1024 ∧ pageTableIndex (n * 4096) = n % 1024 := by
  rw [pageDirectoryIndex_eq, pageTableIndex_eq]
  unfold kernelStartVirt at hn
  omega

end Range

/-! ### Two directories -/

/-- Directories in frames 1 and 2, with 4 MB pages for the kernel.  The one in frame 1 has a table
    in frame 3, and maps `0x400000` with the flags given, and `0x401000` if `second` is set. -/
def twoDirectories (flags : BitVec 32) (second : Bool) : PhysMem := fun f i =>
  if (f = 1 ∨ f = 2) ∧ kernelPdeStart ≤ i then 0x83#32
  else if f = 1 ∧ i = 1 then newPde 3
  else if f = 3 ∧ i = 0 then mapEntry 0x9000 flags
  else if f = 3 ∧ i = 1 ∧ second = true then mapEntry 0xA000 flags
  else 0

theorem twoDirectories_user {second : Bool} {d i : ℕ} (hd : d = 1 ∨ d = 2) (hi : i < kernelPdeStart) :
    twoDirectories flags second d i = if d = 1 ∧ i = 1 then newPde 3 else 0 := by
  have h3 : d ≠ 3 := by
    rcases hd with rfl | rfl <;> decide
  unfold twoDirectories
  rw [if_neg fun h => absurd h.2 (Nat.not_le_of_lt hi)]
  simp [h3]

theorem twoDirectories_kernel {second : Bool} {d i : ℕ} (hd : d = 1 ∨ d = 2)
    (hi : kernelPdeStart ≤ i) : twoDirectories flags second d i = 0x83#32 := by
  unfold twoDirectories
  rw [if_pos ⟨hd, hi⟩]

/-- There is one table. -/
theorem twoDirectories_table {second : Bool} {d i : ℕ} (hd : d = 1 ∨ d = 2)
    (ht : IsTable (twoDirectories flags second) d i) :
    d = 1 ∧ i = 1 ∧ frameOf (twoDirectories flags second d i) = 3 := by
  rcases Nat.lt_or_ge i kernelPdeStart with huser | hkernel
  · obtain ⟨-, -, hframe, -, -⟩ := newPde_spec (show 3 < 2 ^ 20 by decide)
    have hex := ht.1
    rw [twoDirectories_user hd huser] at hex ⊢
    by_cases hhere : d = 1 ∧ i = 1
    · rw [if_pos hhere]
      exact ⟨hhere.1, hhere.2, hframe⟩
    · rw [if_neg hhere] at hex
      exact absurd hex (by decide)
  · have hhuge := ht.2
    rw [twoDirectories_kernel hd hkernel] at hhuge
    exact absurd hhuge (by decide)

theorem directories_twoDirectories (flags : BitVec 32) (second : Bool) :
    Directories (twoDirectories flags second) 1 {1, 2} (twoDirectories flags second) := by
  have htable : ∀ d ∈ ({1, 2} : Set ℕ), ∀ i, IsTable (twoDirectories flags second) d i →
      d = 1 ∧ i = 1 ∧ frameOf (twoDirectories flags second d i) = 3 := fun d hd i ht =>
    twoDirectories_table (by simpa using hd) ht
  have hapart : ∀ d ∈ ({1, 2} : Set ℕ), ∀ j < pageDirSize, IsTable (twoDirectories flags second) d j →
      frameOf (twoDirectories flags second d j) ∉ ({1, 2} : Set ℕ) := by
    intro d hd j _ ht
    rw [(htable d hd j ht).2.2]
    simp
  refine ⟨fun i hlo _ => ?_, Or.inl rfl, fun d hd i hlo _ => ?_, fun d hd => ⟨?_, ?_, ?_⟩, hapart,
    fun _ _ _ _ => rfl⟩
  · rw [twoDirectories_kernel (Or.inl rfl) hlo]
    decide
  · rw [twoDirectories_kernel (by simpa using hd) hlo, twoDirectories_kernel (Or.inl rfl) hlo]
  · intro i hi hex
    rw [twoDirectories_user (by simpa using hd) hi] at hex ⊢
    split
    · exact (newPde_spec (by decide)).2.1
    · decide
  · intro i _ j _ hij hti htj
    exact absurd ((htable d hd i hti).2.1.trans (htable d hd j htj).2.1.symm) hij
  · intro j hj ht heq
    have hout := hapart d hd j hj ht
    rw [heq] at hout
    exact hout hd

/-- The frames in use are 1, 2 and 3. -/
theorem inUse_twoDirectories {second : Bool} {p : ℕ}
    (hp : p ∈ InUse (twoDirectories flags second) {1, 2}) : p = 1 ∨ p = 2 ∨ p = 3 := by
  rcases hp with hdir | ⟨d, hd, j, -, ht, rfl⟩
  · have : p = 1 ∨ p = 2 := by simpa using hdir
    omega
  · rw [(twoDirectories_table (by simpa using hd) ht).2.2]
    exact Or.inr (Or.inr rfl)

/-- The entries of the pages mapped. -/
theorem pteAt_twoDirectories {second : Bool} {va : ℕ} (hva : va < kernelStartVirt)
    (hmapped : (pageMap (twoDirectories flags second) 1 (va / pageSize)).isSome = true) :
    pteAt (twoDirectories flags second) 1 va = some (mapEntry 0x9000 flags) ∨
      pteAt (twoDirectories flags second) 1 va = some (mapEntry 0xA000 flags) := by
  have hok := (directories_twoDirectories flags second).ok 1 (Or.inl rfl)
  obtain ⟨hex, hpte⟩ := (mapped_iff hok hva).mp hmapped
  have htable := twoDirectories_table (Or.inl rfl)
    (hok.isTable (pageDirectoryIndex_user hva) hex)
  rw [pteAt_of_exists hex]
  rw [htable.2.2] at hpte ⊢
  unfold twoDirectories at hpte ⊢
  simp only [Nat.reduceEqDiff, or_self, false_and, if_false, true_and] at hpte ⊢
  by_cases h0 : pageTableIndex va = 0
  · rw [if_pos h0]
    exact Or.inl rfl
  · rw [if_neg h0] at hpte ⊢
    by_cases h1 : pageTableIndex va = 1 ∧ second = true
    · rw [if_pos h1]
      exact Or.inr rfl
    · rw [if_neg h1] at hpte
      exact absurd hpte (by decide)

/-- The pages mapped are in frames 9 and 10. -/
theorem mapped_twoDirectories {second : Bool} {va : ℕ} {info : PageInfo} (hva : va < kernelStartVirt)
    (hinfo : pageMap (twoDirectories flags second) 1 (va / pageSize) = some info) :
    paToPfn info.frame = 9 ∨ paToPfn info.frame = 10 := by
  have hok := (directories_twoDirectories flags second).ok 1 (Or.inl rfl)
  have hmapped : (pageMap (twoDirectories flags second) 1 (va / pageSize)).isSome = true := by
    rw [hinfo]
    rfl
  have hmap := pageMap_pteAt hok hva
  have hframe9 : frameOf (mapEntry 0x9000 flags) = 9 :=
    frameOf_mapEntry (show 9 < 2 ^ 20 by decide) flags
  have hframe10 : frameOf (mapEntry 0xA000 flags) = 10 :=
    frameOf_mapEntry (show 10 < 2 ^ 20 by decide) flags
  rw [hinfo, Option.map_some] at hmap
  rcases pteAt_twoDirectories hva hmapped with hpte | hpte
  · rw [hpte, Option.filter_some] at hmap
    split at hmap
    · exact Or.inl ((Option.some.inj hmap).trans hframe9)
    · cases hmap
  · rw [hpte, Option.filter_some] at hmap
    split at hmap
    · exact Or.inr ((Option.some.inj hmap).trans hframe10)
    · cases hmap

/-- The second directory has no tables, and four pages from 4 on are neither tables nor mapped. -/
theorem twoDirectories_disjoint (flags : BitVec 32) (second : Bool) : ∀ i < kernelPdeStart,
    ∀ j < kernelPdeStart, IsTable (twoDirectories flags second) 1 i →
    IsTable (twoDirectories flags second) 2 j →
    frameOf (twoDirectories flags second 1 i) ≠ frameOf (twoDirectories flags second 2 j) :=
  fun _ _ _ _ _ ht => absurd (twoDirectories_table (Or.inr rfl) ht).1 (by decide)

theorem twoDirectories_unused (flags : BitVec 32) (second : Bool) :
    ∀ p ∈ freePages fourPages, p ∉ InUse (twoDirectories flags second) {1, 2} := by
  intro p hp hmem
  have hused := inUse_twoDirectories hmem
  have hpage := fourPages_freePages hp
  omega

theorem twoDirectories_live (flags : BitVec 32) (second : Bool) : ∀ va < kernelStartVirt, ∀ info,
    pageMap (twoDirectories flags second) 1 (va / pageSize) = some info →
    paToPfn info.frame ∉ freePages fourPages ∧
      paToPfn info.frame ∉ InUse (twoDirectories flags second) {1, 2} := by
  intro va hva info hinfo
  have hframe := mapped_twoDirectories hva hinfo
  constructor
  · intro hp
    have hpage := fourPages_freePages hp
    omega
  · intro hmem
    have hused := inUse_twoDirectories hmem
    omega

end Rotary
