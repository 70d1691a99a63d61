import Rotary.Mm.CopyLoops

namespace Rotary

open Lib

/-!
# `ptable_copy_range` with `PTC_SHARE`

Sharing takes pages only for the tables that the destination lacks, so it is known beforehand which
ones: `g c` is the page for the table at entry `c`.  Three things can keep the call from sharing
exactly the range.  A page for a table can be missing; such a page is used as it is, with whatever it
holds; and in the first directory entry the loop goes on to the end of the table.

* `Sharing.share_pde`, `Sharing.share_run` — one turn of the outer loop, and the loop, with the pages
  it needs;
* `sharedFrames_perm` — the frames that get one more use, by pages;
* `shareRange_iff` — when exactly the range is shared.
-/

variable {boot mem mem' : PhysMem} {kernelPgd src dst d f startAddr endAddr : ℕ} {D U : Set ℕ}
  {x y : PhysMem × BuddyAllocator} {s s' : BuddyAllocator} {flags : BitVec 32} {g : ℕ → ℕ}
  {ds ps : List ℕ}

/-! ### Directories without a table in common -/

/-- The two directories are different and have different tables, also at the same entry. -/
structure Sharing (boot : PhysMem) (kernelPgd : ℕ) (D : Set ℕ) (src dst : ℕ) (U : Set ℕ)
    (x : PhysMem × BuddyAllocator) : Prop extends Copying boot kernelPgd D src dst U x where
  ne : src ≠ dst
  same : ∀ i < kernelPdeStart, IsTable x.1 src i → IsTable x.1 dst i →
    frameOf (x.1 src i) ≠ frameOf (x.1 dst i)

/-- The destination's table at a user entry is neither a directory nor a table of the source. -/
theorem Sharing.tables_apart (h : Sharing boot kernelPgd D src dst U x) (hd : d < kernelPdeStart)
    (hex : entryExists (x.1 dst d) = true) :
    frameOf (x.1 dst d) ∉ D ∧ frameOf (x.1 dst d) ∈ U ∧
      ∀ i < pageDirSize, IsTable x.1 src i → frameOf (x.1 src i) ≠ frameOf (x.1 dst d) := by
  obtain ⟨hdir, hused, hsrc⟩ := h.table_apart hd hex
  refine ⟨hdir, hused, fun i hi hti => ?_⟩
  by_cases hid : i = d
  · subst hid
    exact h.same i hd hti ((h.dirs.ok dst h.dest).isTable hd hex)
  · exact hsrc i hi hid hti

theorem TableReady.sharing (ht : TableReady boot kernelPgd D src dst U mem s g d y)
    (h : Sharing boot kernelPgd D src dst U (mem, s)) :
    Sharing boot kernelPgd D src dst (insert (tableFrame mem dst g d) U) y := by
  refine ⟨ht.copying, h.ne, fun i hi hti htj => ?_⟩
  have hsrc : y.1 src = mem src := ht.others src h.ne
  unfold IsTable at hti htj
  rw [hsrc] at hti ⊢
  rw [ht.pde i] at htj ⊢
  by_cases hnew : i = d ∧ entryExists (mem dst d) = false
  · obtain ⟨hlt, hout⟩ := ht.fresh hnew.2
    obtain ⟨-, -, hframe, -, -⟩ := newPde_spec hlt
    rw [if_pos hnew, hframe]
    intro heq
    exact hout (heq ▸ h.used (InUse.table h.source (hi.trans (by decide)) hti))
  · rw [if_neg hnew] at htj ⊢
    exact h.same i hi hti htj

theorem Sharing.store (h : Sharing boot kernelPgd D src dst U x) (hd : d < kernelPdeStart)
    (hex : entryExists (x.1 dst d) = true)
    (hkeep : ∀ f ∈ U, f ≠ frameOf (x.1 dst d) → y.1 f = x.1 f) (hoffers : Offers allocPage y.2 U) :
    Sharing boot kernelPgd D src dst U y := by
  have hdirs := h.toCopying.store_directories hd hex hkeep
  refine ⟨h.toCopying.store hd hex hkeep subset_rfl hoffers, h.ne, fun i hi hti htj => ?_⟩
  unfold IsTable at hti htj
  rw [hdirs src h.source] at hti ⊢
  rw [hdirs dst h.dest] at htj ⊢
  exact h.same i hi hti htj

theorem Hands.append {qs : List ℕ} (h : Hands allocPage s (ps ++ qs)) : Hands allocPage s ps := by
  induction ps generalizing s with
  | nil => trivial
  | cons p ps ih =>
    obtain ⟨s', heq, hrest⟩ := h
    exact ⟨s', heq, ih hrest⟩

theorem Hands.foldl_counted_iff (fs : List ℕ) :
    Hands allocPage (fs.foldl pageIncUses s) ps ↔ Hands allocPage s ps := by
  induction fs generalizing s with
  | nil => exact Iff.rfl
  | cons f fs ih =>
    rw [List.foldl_cons, ih]
    exact Hands.counted_iff countsIgnored_pageAlloc f

theorem Offers.foldl_counted (h : Offers allocPage s U) (fs : List ℕ) :
    Offers allocPage (fs.foldl pageIncUses s) U :=
  fun ps hps => h ps ((Hands.foldl_counted_iff fs).mp hps)

/-! ### One turn -/

/-- What one turn at the directory entry `d` does, `js` being the table indices copied. -/
structure SharedTurn (mem : PhysMem) (s : BuddyAllocator) (src dst : ℕ) (U : Set ℕ) (g : ℕ → ℕ)
    (d : ℕ) (js : List ℕ) (y : PhysMem × BuddyAllocator) : Prop where
  pde : ∀ c, y.1 dst c = if c = d ∧ entryExists (mem dst d) = false then newPde (g d) else mem dst c
  ready : entryExists (y.1 dst d) = true ∧ frameOf (y.1 dst d) = tableFrame mem dst g d
  table : ∀ i, y.1 (tableFrame mem dst g d) i =
    if i ∈ js then mem (frameOf (mem src d)) i else mem (tableFrame mem dst g d) i
  others : ∀ f, f ≠ dst → f ≠ tableFrame mem dst g d → y.1 f = mem f
  uses : ∀ f ∈ U, (y.2.pages f).useCount =
    inc32^[(js.map fun i => frameOf (mem (frameOf (mem src d)) i)).count f] (s.pages f).useCount

/-- **One turn of the outer loop**, with enough pages for it. -/
theorem Sharing.share_pde (startAddr endAddr : ℕ)
    (h : Sharing boot kernelPgd D src dst U (mem, s))
    (hshare : testFlag flags ptcShare = true) (hd : d < kernelPdeStart)
    (hsrc : entryExists (mem src d) = true)
    (hands : Hands allocPage s ((missingPdes mem src dst [d]).map g)) :
    ∃ y, copyPde allocPage pageIncUses flags src dst startAddr endAddr (mem, s) d = some y ∧
      SharedTurn mem s src dst U g d
        (presentPart mem (frameOf (mem src d)) (copiedPart startAddr endAddr d)) y ∧
      Sharing boot kernelPgd D src dst (insert (tableFrame mem dst g d) U) y ∧
      ∀ rest, Hands allocPage s ((missingPdes mem src dst [d]).map g ++ rest) ↔
        Hands allocPage y.2 rest := by
  obtain ⟨z, htable, hz⟩ := h.toCopying.table hd hsrc hands
  have hzs := hz.sharing h
  have hdir : d < pageDirSize := hd.trans (by decide)
  have hstable : IsTable mem src d := (h.dirs.ok src h.source).isTable hd hsrc
  have hsame : z.1 src = mem src := hz.others src h.ne
  -- the table written to is neither a directory nor a table of the source
  obtain ⟨hTD, -, hapart⟩ := hzs.tables_apart hd hz.ready
  rw [hz.frame] at hTD hapart
  have hTdst : tableFrame mem dst g d ≠ dst := by
    intro heq
    rw [heq] at hTD
    exact hTD h.dest
  have hold : frameOf (mem src d) ≠ tableFrame mem dst g d := by
    have := hapart d hdir (by unfold IsTable; rw [hsame]; exact hstable)
    rwa [hsame] at this
  have holdw : z.1 (frameOf (mem src d)) = mem (frameOf (mem src d)) := by
    apply hz.others
    intro heq
    exact h.dirs.apart src h.source d hdir hstable (heq ▸ h.dest)
  -- with the table in place, what is left of the turn is the inner loop
  have hcall : copyPde allocPage pageIncUses flags src dst startAddr endAddr (mem, s) d =
      (copiedPart startAddr endAddr d).foldlM (copyPte allocPage pageIncUses flags
        (tableFrame mem dst g d) (frameOf (mem src d))) z := by
    unfold copyPde
    simp only [hsrc, Bool.not_true, Bool.false_eq_true, if_false, htable, hz.frame, hsame]
  rw [← Prod.mk.eta (p := z), copyPart_share hshare hold, presentFrames, presentPart_congr holdw,
    holdw, hz.others _ hTdst] at hcall
  refine ⟨_, hcall, ⟨fun c => ?_, ?_, fun i => ?_, fun f hfd hf => ?_, fun f hf => ?_⟩, ?_,
    fun rest => ?_⟩
  · dsimp only
    rw [Function.update_of_ne hTdst.symm]
    exact hz.pde c
  · dsimp only
    rw [Function.update_of_ne hTdst.symm]
    exact ⟨hz.ready, hz.frame⟩
  · dsimp only
    rw [Function.update_self]
  · dsimp only
    rw [Function.update_of_ne hf]
    exact hz.others f hfd
  · dsimp only
    -- the counts of the pages just taken are not among those compared
    rw [foldl_pageIncUses_useCount, hz.took.useCount (f := f)]
    exact fun hmem => h.offers.not_mem hz.took.hands hmem hf
  · refine hzs.store hd hz.ready (fun f _ hf => ?_) (hzs.offers.foldl_counted _)
    rw [hz.frame] at hf
    exact Function.update_of_ne hf _ _
  · rw [hz.took.hands_iff rest]
    exact (Hands.foldl_counted_iff _).symm

/-! ### The outer loop -/

/-- The frames that the loop over `ds` comes across, in its order. -/
def sharedFrames (mem : PhysMem) (src : ℕ) (part : ℕ → List ℕ) (ds : List ℕ) : List ℕ :=
  (sourcePdes mem src ds).flatMap fun c => presentFrames mem (frameOf (mem src c)) (part c)

/-- What the loop over the directory entries `ds` does. -/
structure SharedRun (mem : PhysMem) (s : BuddyAllocator) (src dst : ℕ) (U : Set ℕ) (g : ℕ → ℕ)
    (part : ℕ → List ℕ) (ds : List ℕ) (y : PhysMem × BuddyAllocator) : Prop where
  pde : ∀ c, y.1 dst c = if c ∈ missingPdes mem src dst ds then newPde (g c) else mem dst c
  table : ∀ c ∈ sourcePdes mem src ds, ∀ i, y.1 (tableFrame mem dst g c) i =
    if i ∈ presentPart mem (frameOf (mem src c)) (part c) then mem (frameOf (mem src c)) i
    else mem (tableFrame mem dst g c) i
  others : ∀ f ∈ U, f ≠ dst → (∀ c ∈ sourcePdes mem src ds, f ≠ tableFrame mem dst g c) → y.1 f = mem f
  uses : ∀ f ∈ U, (y.2.pages f).useCount =
    inc32^[(sharedFrames mem src part ds).count f] (s.pages f).useCount

/-- The table that the destination is going to have at an entry of `ds`. -/
theorem Sharing.tableFrame_apart {c : ℕ} (h : Sharing boot kernelPgd D src dst U (mem, s))
    (hands : Hands allocPage s ((missingPdes mem src dst ds).map g))
    (hc : c ∈ sourcePdes mem src ds) (huser : c < kernelPdeStart) :
    tableFrame mem dst g c ∉ D ∧
      (∀ i < pageDirSize, IsTable mem src i → frameOf (mem src i) ≠ tableFrame mem dst g c) ∧
      ∀ d < kernelPdeStart, d ≠ c → entryExists (mem dst d) = true →
        tableFrame mem dst g c ≠ frameOf (mem dst d) := by
  obtain ⟨hcd, hsrc⟩ := mem_sourcePdes.mp hc
  by_cases hex : entryExists (mem dst c) = true
  · rw [tableFrame_of_exists hex]
    obtain ⟨hD, -, hsrcs⟩ := h.tables_apart huser hex
    refine ⟨hD, hsrcs, fun d hd hne hexd => ?_⟩
    have hok := h.dirs.ok dst h.dest
    exact hok.distinct c huser d (hd.trans (by decide)) hne.symm
      (hok.isTable huser hex) (hok.isTable hd hexd)
  · rw [Bool.not_eq_true] at hex
    rw [tableFrame_of_absent hex]
    have hout : g c ∉ U := h.offers.not_mem hands
      (List.mem_map_of_mem (mem_missingPdes.mpr ⟨hcd, hsrc, hex⟩))
    refine ⟨fun hmem => hout (h.used (Or.inl hmem)), fun i hi ht heq => ?_, fun d hd _ hexd heq => ?_⟩
    · exact hout (heq ▸ h.used (InUse.table h.source hi ht))
    · exact hout (heq ▸ (h.tables_apart hd hexd).2.1)

/-- What a turn at `d` leaves as it was for the entries still to come. -/
theorem SharedTurn.later {js : List ℕ} (ht : SharedTurn mem s src dst U g d js y)
    (hne : src ≠ dst) (hTsrc : src ≠ tableFrame mem dst g d) (hd : d ∉ ds) :
    y.1 src = mem src ∧ (∀ c ∈ ds, y.1 dst c = mem dst c) ∧
      (∀ c ∈ ds, tableFrame y.1 dst g c = tableFrame mem dst g c) ∧
      sourcePdes y.1 src ds = sourcePdes mem src ds ∧
      missingPdes y.1 src dst ds = missingPdes mem src dst ds := by
  have hsrc : y.1 src = mem src := ht.others src hne hTsrc
  have hdst : ∀ c ∈ ds, y.1 dst c = mem dst c := by
    intro c hc
    rw [ht.pde c, if_neg]
    rintro ⟨rfl, -⟩
    exact hd hc
  refine ⟨hsrc, hdst, fun c hc => ?_, ?_, ?_⟩
  · unfold tableFrame
    rw [hdst c hc]
  · unfold sourcePdes
    rw [hsrc]
  · unfold missingPdes
    apply List.filter_congr
    intro c hc
    rw [hsrc, hdst c hc]

theorem missingPdes_cons (d : ℕ) (ds : List ℕ) :
    missingPdes mem src dst (d :: ds) = missingPdes mem src dst [d] ++ missingPdes mem src dst ds := by
  unfold missingPdes
  rw [← List.filter_append]
  rfl

theorem mem_missingPdes_cons {c : ℕ} (hsrc : entryExists (mem src d) = true) :
    c ∈ missingPdes mem src dst (d :: ds) ↔
      (c = d ∧ entryExists (mem dst d) = false) ∨ c ∈ missingPdes mem src dst ds := by
  rw [missingPdes_cons, List.mem_append]
  apply or_congr_left
  rw [mem_missingPdes, List.mem_singleton]
  constructor
  · rintro ⟨rfl, -, habs⟩
    exact ⟨rfl, habs⟩
  · rintro ⟨rfl, habs⟩
    exact ⟨rfl, hsrc, habs⟩

/-- The source's tables are not written in a turn. -/
theorem SharedTurn.source_table {js : List ℕ} {c : ℕ}
    (hc : Sharing boot kernelPgd D src dst (insert (tableFrame mem dst g d) U) y)
    (ht : SharedTurn mem s src dst U g d js y) (hd : d < kernelPdeStart)
    (hsame : y.1 src = mem src) (huser : c < kernelPdeStart) (htable : IsTable mem src c) :
    y.1 (frameOf (mem src c)) = mem (frameOf (mem src c)) := by
  obtain ⟨hex, hframe⟩ := ht.ready
  have hst : IsTable y.1 src c := by
    unfold IsTable
    rw [hsame]
    exact htable
  have hdir : c < pageDirSize := huser.trans (by decide)
  have hne := (hc.tables_apart hd hex).2.2 c hdir hst
  have hnd := hc.dirs.apart src hc.source c hdir hst
  rw [hsame] at hne hnd
  rw [hframe] at hne
  exact ht.others _ (fun heq => hnd (heq ▸ hc.dest)) hne

/-- The first turn, then the others. -/
theorem SharedTurn.cons {part : ℕ → List ℕ} {z : PhysMem × BuddyAllocator}
    (hc : Sharing boot kernelPgd D src dst (insert (tableFrame mem dst g d) U) y)
    (ht : SharedTurn mem s src dst U g d (presentPart mem (frameOf (mem src d)) (part d)) y)
    (hsrc : entryExists (mem src d) = true) (hd : d < kernelPdeStart) (hnot : d ∉ ds)
    (huser : ∀ c ∈ ds, c < kernelPdeStart)
    (hsmall : ∀ c < kernelPdeStart, entryExists (mem src c) = true → IsTable mem src c)
    (hands : Hands allocPage y.2 ((missingPdes y.1 src dst ds).map g))
    (hr : SharedRun y.1 y.2 src dst (insert (tableFrame mem dst g d) U) g part ds z) :
    SharedRun mem s src dst U g part (d :: ds) z := by
  obtain ⟨hex, hframe⟩ := ht.ready
  have hTD := (hc.tables_apart hd hex).1
  rw [hframe] at hTD
  have hTne : tableFrame mem dst g d ≠ dst := by
    intro heq
    rw [heq] at hTD
    exact hTD hc.dest
  obtain ⟨hwords, hpdes, hframes, hsources, hmissings⟩ := ht.later hc.ne
    (fun heq => hTD (heq ▸ hc.source)) hnot
  have hold : ∀ c < kernelPdeStart, entryExists (mem src c) = true →
      y.1 (frameOf (mem src c)) = mem (frameOf (mem src c)) := fun c huser hexc =>
    ht.source_table hc hd hwords huser (hsmall c huser hexc)
  -- the later turns write to tables of their own
  have hapart : ∀ c ∈ sourcePdes mem src ds, tableFrame mem dst g c ≠ dst ∧
      tableFrame mem dst g c ≠ tableFrame mem dst g d := by
    intro c hcs
    have hcd := (mem_sourcePdes.mp hcs).1
    obtain ⟨hD, -, hother⟩ := hc.tableFrame_apart hands (hsources.symm ▸ hcs) (huser c hcd)
    rw [hframes c hcd] at hD hother
    refine ⟨fun heq => hD (by rw [heq]; exact hc.dest), ?_⟩
    have := hother d hd (fun heq => hnot (heq ▸ hcd)) hex
    rwa [hframe] at this
  have hsplit := sourcePdes_cons_pos hsrc ds
  refine ⟨fun c => ?_, fun c hcs i => ?_, fun f hf hfd hft => ?_, fun f hf => ?_⟩
  · -- each entry is installed in the turn that finds it absent
    have hmem : c ∈ missingPdes mem src dst (d :: ds) ↔ _ := mem_missingPdes_cons hsrc
    rw [hr.pde c, hmissings, ht.pde c]
    by_cases hin : c ∈ missingPdes mem src dst ds
    · rw [if_pos hin, if_pos (hmem.mpr (Or.inr hin))]
    · rw [if_neg hin]
      by_cases hcd : c = d ∧ entryExists (mem dst d) = false
      · rw [if_pos hcd, if_pos (hmem.mpr (Or.inl hcd)), hcd.1]
      · rw [if_neg hcd, if_neg fun hlisted => (hmem.mp hlisted).elim hcd hin]
  · rw [hsplit] at hcs
    rcases List.mem_cons.mp hcs with rfl | hcs
    · -- its own table, which the later turns leave alone
      rw [hr.others _ (Set.mem_insert _ _) hTne, ht.table i]
      intro c' hc'
      rw [hsources] at hc'
      rw [hframes c' (mem_sourcePdes.mp hc').1]
      exact (hapart c' hc').2.symm
    · obtain ⟨hcd, hexc⟩ := mem_sourcePdes.mp hcs
      have hrun := hr.table c (hsources.symm ▸ hcs) i
      rw [hframes c hcd, hwords, presentPart_congr (hold c (huser c hcd) hexc),
        hold c (huser c hcd) hexc,
        ht.others _ (hapart c hcs).1 (hapart c hcs).2] at hrun
      exact hrun
  · rw [hsplit] at hft
    rw [hr.others f (Set.mem_insert_of_mem _ hf) hfd, ht.others f hfd (hft d List.mem_cons_self)]
    intro c hcs
    rw [hsources] at hcs
    rw [hframes c (mem_sourcePdes.mp hcs).1]
    exact hft c (List.mem_cons_of_mem d hcs)
  · -- the later turns count what the memory held at the start
    have hlist : sharedFrames y.1 src part ds = sharedFrames mem src part ds := by
      unfold sharedFrames
      rw [hsources]
      apply List.flatMap_congr
      intro c hcs
      obtain ⟨hcd, hexc⟩ := mem_sourcePdes.mp hcs
      rw [hwords]
      unfold presentFrames
      rw [presentPart_congr (hold c (huser c hcd) hexc), hold c (huser c hcd) hexc]
    rw [hr.uses f (Set.mem_insert_of_mem _ hf), ht.uses f hf, hlist, ← Function.iterate_add_apply]
    unfold sharedFrames
    rw [hsplit, List.flatMap_cons, List.count_append, Nat.add_comm]
    rfl

/-- **The outer loop**, with enough pages for it. -/
theorem Sharing.share_run (startAddr endAddr : ℕ)
    (h : Sharing boot kernelPgd D src dst U (mem, s))
    (hshare : testFlag flags ptcShare = true) (hnd : ds.Nodup)
    (huser : ∀ d ∈ ds, d < kernelPdeStart)
    (hands : Hands allocPage s ((missingPdes mem src dst ds).map g)) :
    ∃ y U', ds.foldlM (copyPde allocPage pageIncUses flags src dst startAddr endAddr) (mem, s) =
        some y ∧ SharedRun mem s src dst U g (copiedPart startAddr endAddr) ds y ∧
      Sharing boot kernelPgd D src dst U' y := by
  induction ds generalizing mem s U with
  | nil =>
    refine ⟨(mem, s), U, rfl, ⟨fun c => ?_, fun c hc => ?_, fun _ _ _ _ => rfl, fun _ _ => rfl⟩, h⟩
    · simp [missingPdes]
    · simp [sourcePdes] at hc
  | cons d ds ih =>
    obtain ⟨hnot, hnd'⟩ := List.nodup_cons.mp hnd
    have huser' : ∀ c ∈ ds, c < kernelPdeStart := fun c hc => huser c (List.mem_cons_of_mem d hc)
    have hd := huser d List.mem_cons_self
    rw [List.foldlM_cons]
    by_cases hsrc : entryExists (mem src d) = true
    · -- the pages for this turn come first; those left are for the others
      rw [missingPdes_cons, List.map_append] at hands
      obtain ⟨y, hcall, hturn, hc, hiff⟩ := h.share_pde startAddr endAddr
        hshare hd hsrc hands.append
      have hTD := (hc.tables_apart hd hturn.ready.1).1
      rw [hturn.ready.2] at hTD
      obtain ⟨-, -, -, -, hmissings⟩ := hturn.later hc.ne (fun heq => hTD (heq ▸ hc.source)) hnot
      rw [hiff, ← hmissings] at hands
      obtain ⟨z, U', hrest, hr, hc'⟩ := ih hc hnd' huser' hands
      refine ⟨z, U', by rw [hcall]; exact hrest, ?_, hc'⟩
      exact hturn.cons hc hsrc hd hnot huser' (fun c hc768 hex =>
        (h.dirs.ok src h.source).isTable hc768 hex) hands hr
    · -- the source has no table here, and the turn does nothing
      have hmissing : missingPdes mem src dst (d :: ds) = missingPdes mem src dst ds := by
        unfold missingPdes
        rw [List.filter_cons, if_neg (by simp [hsrc])]
      have hsources := sourcePdes_cons_neg hsrc ds
      rw [hmissing] at hands
      obtain ⟨z, U', hrest, hr, hc'⟩ := ih h hnd' huser' hands
      refine ⟨z, U', by rw [copyPde_absent hsrc]; exact hrest, ⟨?_, ?_, ?_, ?_⟩, hc'⟩
      · rw [hmissing]
        exact hr.pde
      · rw [hsources]
        exact hr.table
      · rw [hsources]
        exact hr.others
      · unfold sharedFrames
        rw [hsources]
        exact hr.uses

/-- If the loop gets to its end, the pages for it were there. -/
theorem Sharing.share_hands (h : Sharing boot kernelPgd D src dst U (mem, s))
    (hshare : testFlag flags ptcShare = true) (hnd : ds.Nodup)
    (huser : ∀ d ∈ ds, d < kernelPdeStart)
    (hcall : ds.foldlM (copyPde allocPage pageIncUses flags src dst startAddr endAddr) (mem, s) =
      some y) : ∃ g : ℕ → ℕ, Hands allocPage s ((missingPdes mem src dst ds).map g) := by
  induction ds generalizing mem s U with
  | nil => exact ⟨fun _ => 0, trivial⟩
  | cons d ds ih =>
    obtain ⟨hnot, hnd'⟩ := List.nodup_cons.mp hnd
    have huser' : ∀ c ∈ ds, c < kernelPdeStart := fun c hc => huser c (List.mem_cons_of_mem d hc)
    have hd := huser d List.mem_cons_self
    rw [List.foldlM_cons] at hcall
    obtain ⟨z, hfirst, hrest⟩ := Option.bind_eq_some_iff.mp hcall
    by_cases hsrc : entryExists (mem src d) = true
    · obtain ⟨g₁, hands₁⟩ : ∃ g : ℕ → ℕ, Hands allocPage s ((missingPdes mem src dst [d]).map g) := by
        unfold copyPde at hfirst
        simp only [hsrc, Bool.not_true, Bool.false_eq_true, if_false] at hfirst
        split at hfirst
        · cases hfirst
        · rename_i y htable
          exact hands_of_copyTable hsrc htable
      obtain ⟨y, hcall₁, hturn, hc, hiff⟩ := h.share_pde startAddr endAddr
        hshare hd hsrc hands₁
      rw [hcall₁] at hfirst
      obtain rfl := Option.some.inj hfirst
      have hTD := (hc.tables_apart hd hturn.ready.1).1
      rw [hturn.ready.2] at hTD
      obtain ⟨-, -, -, -, hmissings⟩ := hturn.later hc.ne (fun heq => hTD (heq ▸ hc.source)) hnot
      obtain ⟨g', hands'⟩ := ih hc hnd' huser' hrest
      rw [hmissings, ← hiff] at hands'
      -- the page of `d` and the pages of the other entries
      refine ⟨fun c => if c = d then g₁ c else g' c, ?_⟩
      rw [missingPdes_cons, List.map_append]
      have hleft : (missingPdes mem src dst [d]).map (fun c => if c = d then g₁ c else g' c) =
          (missingPdes mem src dst [d]).map g₁ := by
        apply List.map_congr_left
        intro c hcm
        rw [if_pos (List.mem_singleton.mp (mem_missingPdes.mp hcm).1)]
      have hright : (missingPdes mem src dst ds).map (fun c => if c = d then g₁ c else g' c) =
          (missingPdes mem src dst ds).map g' := by
        apply List.map_congr_left
        intro c hcm
        have hcd : c ≠ d := fun heq => hnot (heq ▸ (mem_missingPdes.mp hcm).1)
        rw [if_neg hcd]
      rw [hleft, hright]
      exact hands'
    · have hmissing : missingPdes mem src dst (d :: ds) = missingPdes mem src dst ds := by
        unfold missingPdes
        rw [List.filter_cons, if_neg (by simp [hsrc])]
      rw [copyPde_absent hsrc] at hfirst
      obtain rfl := Option.some.inj hfirst
      rw [hmissing]
      exact ih h hnd' huser' hrest

/-! ### Pages -/

section Pages

variable {va : ℕ}

/-- The translation of an address that is not copied, in a table that was there. -/
theorem SharedRun.walk_existing
    (hr : SharedRun mem s src dst U g (copiedPart startAddr endAddr) (userPdes startAddr endAddr) y)
    (hsource : pageDirectoryIndex va ∈ sourcePdes mem src (userPdes startAddr endAddr))
    (hpart : pageTableIndex va ∉ presentPart mem (frameOf (mem src (pageDirectoryIndex va)))
      (copiedPart startAddr endAddr (pageDirectoryIndex va)))
    (hex : entryExists (mem dst (pageDirectoryIndex va)) = true) :
    walk y.1 dst va = walk mem dst va := by
  have hpde := hr.pde (pageDirectoryIndex va)
  rw [if_neg fun hmiss => by simp [(mem_missingPdes.mp hmiss).2.2] at hex] at hpde
  have htable := hr.table _ hsource (pageTableIndex va)
  rw [tableFrame_of_exists hex, if_neg hpart] at htable
  exact walk_congr hpde fun _ _ => htable

/-! The frames, counted by pages -/

/-- The frame behind page `n` of the source. -/
def frameAt (mem : PhysMem) (src n : ℕ) : ℕ :=
  frameOf (mem (frameOf (mem src (n / 1024))) (n % 1024))

/-- The pages that the loops come across, in their order. -/
def loopPages (mem : PhysMem) (src startAddr endAddr : ℕ) : List ℕ :=
  (sourcePdes mem src (userPdes startAddr endAddr)).flatMap fun c =>
    (presentPart mem (frameOf (mem src c)) (copiedPart startAddr endAddr c)).map fun i => c * 1024 + i

/-- The pages mapped among the `count` pages from an address on. -/
def rangePages (mem : PhysMem) (src va count : ℕ) : List ℕ :=
  (List.range count).filterMap fun k =>
    (pageMap mem src ((va + k * pageSize) / pageSize)).map fun _ => (va + k * pageSize) / pageSize

theorem mappedFrames_pages {count : ℕ} (hok : PtableOk mem src) (hva : 4096 ∣ va)
    (hle : va + count * 4096 ≤ kernelStartVirt) :
    mappedFrames mem src va count = (rangePages mem src va count).map (frameAt mem src) := by
  unfold mappedFrames rangePages
  rw [List.map_filterMap]
  apply List.filterMap_congr
  intro k hk
  have hk := List.mem_range.mp hk
  obtain ⟨a, rfl⟩ := hva
  have hpage : (4096 * a + k * pageSize) / pageSize = a + k := by
    unfold pageSize
    omega
  have huser : (a + k) * 4096 < kernelStartVirt := by
    unfold kernelStartVirt at hle ⊢
    omega
  rw [hpage]
  have hmap := pageMap_pteAt hok huser
  have hcancel : (a + k) * 4096 / pageSize = a + k := Nat.mul_div_cancel _ (by decide)
  rw [hcancel] at hmap
  rw [hmap, Option.map_map]
  -- what is mapped is behind the entry at the page's indices
  obtain ⟨hd, ht⟩ := indices_of_page huser
  have hiff := mapped_iff hok huser
  rw [hcancel, hd, ht] at hiff
  cases hmapped : pageMap mem src (a + k) with
  | none =>
    rw [hmapped] at hmap
    exact hmap.symm
  | some info =>
    rw [hmapped] at hiff
    obtain ⟨hex, hpte⟩ := hiff.mp rfl
    rw [pteAt_of_exists (by rw [hd]; exact hex), hd, ht, Option.filter_some, if_pos hpte]
    rfl

theorem mem_rangePages {count n : ℕ} (hva : 4096 ∣ va) :
    n ∈ rangePages mem src va count ↔
      va ≤ n * 4096 ∧ n * 4096 < va + count * 4096 ∧ (pageMap mem src n).isSome = true := by
  obtain ⟨a, rfl⟩ := hva
  unfold rangePages
  rw [List.mem_filterMap]
  have hpage : ∀ k, (4096 * a + k * pageSize) / pageSize = a + k := by
    intro k
    unfold pageSize
    omega
  constructor
  · rintro ⟨k, hk, heq⟩
    have hk := List.mem_range.mp hk
    rw [hpage k] at heq
    obtain ⟨info, hmapped, rfl⟩ := Option.map_eq_some_iff.mp heq
    refine ⟨by omega, by omega, ?_⟩
    rw [hmapped]
    rfl
  · rintro ⟨hlo, hhi, hmapped⟩
    obtain ⟨info, hinfo⟩ := Option.isSome_iff_exists.mp hmapped
    refine ⟨n - a, List.mem_range.mpr (by omega), ?_⟩
    rw [hpage, show a + (n - a) = n by omega, hinfo]
    rfl

theorem nodup_rangePages {count : ℕ} (hva : 4096 ∣ va) : (rangePages mem src va count).Nodup := by
  apply List.nodup_range.filterMap
  intro k k' n hk hk'
  obtain ⟨-, -, rfl⟩ := Option.map_eq_some_iff.mp hk
  obtain ⟨-, -, heq⟩ := Option.map_eq_some_iff.mp hk'
  unfold pageSize at heq
  omega

section Loop

variable (hstart : 4096 ∣ startAddr) (hend : 4096 ∣ endAddr) (hlt : startAddr < endAddr)
  (hle : endAddr ≤ kernelStartVirt)

include hstart hend hlt hle

theorem mem_loopPages {n : ℕ} (hok : PtableOk mem src) : n ∈ loopPages mem src startAddr endAddr ↔
    n * 4096 < kernelStartVirt ∧ Copied mem src startAddr endAddr (n * 4096) := by
  have haddr : ∀ c i, (c * 1024 + i) * 4096 = c * 2 ^ 22 + i * 4096 := fun c i => by omega
  unfold loopPages
  rw [List.mem_flatMap]
  constructor
  · rintro ⟨c, hc, hn⟩
    obtain ⟨i, hi, rfl⟩ := List.mem_map.mp hn
    have hcd := (mem_sourcePdes.mp hc).1
    have hpart : i ∈ copiedPart startAddr endAddr c := (List.mem_filter.mp hi).1
    -- the two indices of a page that the loops get to are those of its address
    obtain ⟨hi1024, -, hhi⟩ := (mem_copied hstart hend hlt hle).mp ⟨hcd, hpart⟩
    have huser : (c * 1024 + i) * 4096 < kernelStartVirt := by
      rw [haddr]
      exact hhi.trans_le (copyEnd_le (hlt.trans_le hle) hle)
    obtain ⟨hd, ht⟩ := indices_of_page huser
    have hd' : pageDirectoryIndex ((c * 1024 + i) * 4096) = c := by
      rw [hd]
      clear hhi
      omega
    have ht' : pageTableIndex ((c * 1024 + i) * 4096) = i := by
      rw [ht]
      clear hhi
      omega
    refine ⟨huser, (copied_iff hok hstart hend hlt hle huser).mpr ?_⟩
    rw [hd', ht']
    exact ⟨hc, hi⟩
  · rintro ⟨huser, hcopied⟩
    obtain ⟨hc, hi⟩ := (copied_iff hok hstart hend hlt hle huser).mp hcopied
    obtain ⟨hd, ht⟩ := indices_of_page huser
    refine ⟨_, hc, List.mem_map.mpr ⟨_, hi, ?_⟩⟩
    rw [hd, ht]
    omega

theorem nodup_loopPages : (loopPages mem src startAddr endAddr).Nodup := by
  have hbound : ∀ c ∈ userPdes startAddr endAddr, ∀ i ∈ copiedPart startAddr endAddr c, i < 1024 :=
    fun c hc i hi => ((mem_copied hstart hend hlt hle).mp ⟨hc, hi⟩).1
  unfold loopPages
  rw [List.nodup_flatMap]
  constructor
  · intro c _
    apply List.Nodup.map
    · intro i j hij
      exact Nat.add_left_cancel hij
    · apply List.Nodup.filter
      exact List.nodup_range'
  · have hnd : (sourcePdes mem src (userPdes startAddr endAddr)).Nodup :=
      (nodup_userPdes startAddr endAddr).filter _
    refine List.Pairwise.imp_of_mem ?_ hnd
    intro c c' hc hc' hne n hn hn'
    obtain ⟨i, hi, rfl⟩ := List.mem_map.mp hn
    obtain ⟨i', hi', heq⟩ := List.mem_map.mp hn'
    have h1 := hbound c (mem_sourcePdes.mp hc).1 i (List.mem_filter.mp hi).1
    have h2 := hbound c' (mem_sourcePdes.mp hc').1 i' (List.mem_filter.mp hi').1
    omega

/-- **The frames that get one more use** are those of the pages up to `copyEnd`. -/
theorem sharedFrames_perm (hok : PtableOk mem src) :
    (sharedFrames mem src (copiedPart startAddr endAddr) (userPdes startAddr endAddr)).Perm
      (mappedFrames mem src startAddr ((copyEnd startAddr endAddr - startAddr) / pageSize)) := by
  have hendle := copyEnd_le (hlt.trans_le hle) hle
  have hge := hlt.le.trans (le_copyEnd startAddr hle)
  obtain ⟨a, ha⟩ := hstart
  obtain ⟨b, hb⟩ := copyEnd_dvd startAddr hend
  have hcount : startAddr + (copyEnd startAddr endAddr - startAddr) / pageSize * 4096 =
      copyEnd startAddr endAddr := by
    unfold pageSize
    omega
  -- both lists are the frames of a list of pages, and these have the same members, each once
  have hframes : sharedFrames mem src (copiedPart startAddr endAddr) (userPdes startAddr endAddr) =
      (loopPages mem src startAddr endAddr).map (frameAt mem src) := by
    unfold sharedFrames loopPages
    rw [List.map_flatMap]
    apply List.flatMap_congr
    intro c hc
    unfold presentFrames
    rw [List.map_map]
    apply List.map_congr_left
    intro i hi
    have hi1024 := ((mem_copied ⟨a, ha⟩ hend hlt hle).mp
      ⟨(mem_sourcePdes.mp hc).1, (List.mem_filter.mp hi).1⟩).1
    unfold frameAt
    dsimp only [Function.comp]
    rw [show (c * 1024 + i) / 1024 = c by omega, show (c * 1024 + i) % 1024 = i by omega]
  rw [hframes, mappedFrames_pages hok ⟨a, ha⟩ (by rw [hcount]; exact hendle)]
  apply List.Perm.map
  rw [List.perm_ext_iff_of_nodup (nodup_loopPages ⟨a, ha⟩ hend hlt hle) (nodup_rangePages ⟨a, ha⟩)]
  intro n
  rw [mem_loopPages ⟨a, ha⟩ hend hlt hle hok, mem_rangePages ⟨a, ha⟩, hcount]
  unfold Copied
  rw [show n * 4096 / pageSize = n from Nat.mul_div_cancel n (by decide)]
  constructor
  · rintro ⟨-, hcopied⟩
    exact hcopied
  · intro hcopied
    exact ⟨hcopied.2.1.trans_le hendle, hcopied⟩

end Loop

variable (hok : Sharing boot kernelPgd D src dst U (mem, s))
  (hands : Hands allocPage s ((missingPdes mem src dst (userPdes startAddr endAddr)).map g))
  (hr : SharedRun mem s src dst U g (copiedPart startAddr endAddr) (userPdes startAddr endAddr) y)

include hok hands hr

/-- A copied page has the entry of the source. -/
theorem SharedRun.pteAt_copied
    (hsource : pageDirectoryIndex va ∈ sourcePdes mem src (userPdes startAddr endAddr))
    (hpart : pageTableIndex va ∈ presentPart mem (frameOf (mem src (pageDirectoryIndex va)))
      (copiedPart startAddr endAddr (pageDirectoryIndex va))) :
    pteAt y.1 dst va = pteAt mem src va := by
  have htable := hr.table _ hsource (pageTableIndex va)
  rw [if_pos hpart] at htable
  obtain ⟨hin, hsrc⟩ := mem_sourcePdes.mp hsource
  have hpde := hr.pde (pageDirectoryIndex va)
  rw [pteAt_of_exists hsrc, ← htable]
  by_cases hex : entryExists (mem dst (pageDirectoryIndex va)) = true
  · rw [if_neg fun hmiss => by simp [(mem_missingPdes.mp hmiss).2.2] at hex] at hpde
    rw [pteAt_of_exists (by rw [hpde]; exact hex), hpde, tableFrame_of_exists hex]
  · rw [Bool.not_eq_true] at hex
    have hmiss : pageDirectoryIndex va ∈ missingPdes mem src dst (userPdes startAddr endAddr) :=
      mem_missingPdes.mpr ⟨hin, hsrc, hex⟩
    have hlt := ((hok.offers _ hands).2 _ (List.mem_map_of_mem hmiss)).1
    obtain ⟨hnew, -, hframe, -, -⟩ := newPde_spec hlt
    rw [if_pos hmiss] at hpde
    rw [pteAt_of_exists (by rw [hpde]; exact hnew), hpde, hframe, tableFrame_of_absent hex]

/-- A frame in use that is no directory, and no table of the destination at an entry copied, is as
    before. -/
theorem SharedRun.table_kept {c : ℕ} (hc : c < pageDirSize) (ht : IsTable mem dst c)
    (hnot : c ∉ sourcePdes mem src (userPdes startAddr endAddr)) :
    y.1 (frameOf (mem dst c)) = mem (frameOf (mem dst c)) := by
  have hD := hok.dirs.apart dst hok.dest c hc ht
  have hne : frameOf (mem dst c) ≠ dst := by
    intro heq
    dsimp only at hD
    rw [heq] at hD
    exact hD hok.dest
  have hused : frameOf (mem dst c) ∈ U := hok.used (InUse.table hok.dest hc ht)
  apply hr.others _ hused hne
  intro c' hc' heq
  have hc'lt := userPdes_lt (mem_sourcePdes.mp hc').1
  obtain ⟨-, hsrcs, hdsts⟩ := hok.tableFrame_apart hands hc' hc'lt
  rcases Nat.lt_or_ge c kernelPdeStart with huser | hkernel
  · have hne : c ≠ c' := fun h => hnot (h ▸ hc')
    exact hdsts c huser hne ht.1 heq.symm
  · -- the kernel's tables are the source's too
    have hword : mem src c = mem dst c :=
      (hok.dirs.half src hok.source c hkernel hc).trans (hok.dirs.half dst hok.dest c hkernel hc).symm
    have hsrc : IsTable mem src c := by
      unfold IsTable
      rw [hword]
      exact ht
    rw [← hword] at heq
    exact hsrcs c hc hsrc heq

/-- The translation of an address below an entry that is not copied. -/
theorem SharedRun.walk_outside
    (hnot : pageDirectoryIndex va ∉ sourcePdes mem src (userPdes startAddr endAddr)) :
    walk y.1 dst va = walk mem dst va := by
  have hlt := pageDirectoryIndex_lt va
  have hpde := hr.pde (pageDirectoryIndex va)
  rw [if_neg fun hmiss => hnot (mem_sourcePdes.mpr
    ⟨(mem_missingPdes.mp hmiss).1, (mem_missingPdes.mp hmiss).2.1⟩)] at hpde
  exact walk_congr hpde fun hex hhuge => by rw [hr.table_kept hok hands hlt ⟨hex, hhuge⟩ hnot]

/-- The translation of an address that is not copied, in a table that was not there: the page taken
    for the table shows through. -/
theorem SharedRun.walk_new (va : ℕ)
    (hmiss : pageDirectoryIndex va ∈ missingPdes mem src dst (userPdes startAddr endAddr))
    (hpart : pageTableIndex va ∉ presentPart mem (frameOf (mem src (pageDirectoryIndex va)))
      (copiedPart startAddr endAddr (pageDirectoryIndex va))) :
    walk mem dst va = none ∧ ((walk y.1 dst va).isSome = true ↔
      entryExists (mem (g (pageDirectoryIndex va)) (pageTableIndex va)) = true) := by
  obtain ⟨hin, hsrc, hex⟩ := mem_missingPdes.mp hmiss
  have hlt := ((hok.offers _ hands).2 _ (List.mem_map_of_mem hmiss)).1
  obtain ⟨hnew, hsmall, hframe, -, -⟩ := newPde_spec hlt
  have hpde := hr.pde (pageDirectoryIndex va)
  rw [if_pos hmiss] at hpde
  have htable := hr.table _ (mem_sourcePdes.mpr ⟨hin, hsrc⟩) (pageTableIndex va)
  rw [tableFrame_of_absent hex, if_neg hpart] at htable
  constructor
  · unfold walk
    simp [hex]
  · rw [walk_table hpde hnew hsmall, hframe, htable]
    split
    · rename_i hpte
      exact iff_of_true rfl hpte
    · rename_i hpte
      exact iff_of_false (by simp) hpte

/-- The source and its tables are as before. -/
theorem SharedRun.source_kept : y.1 src = mem src ∧ ∀ j < pageDirSize, IsTable mem src j →
    y.1 (frameOf (mem src j)) = mem (frameOf (mem src j)) := by
  have happart : ∀ c ∈ sourcePdes mem src (userPdes startAddr endAddr),
      tableFrame mem dst g c ∉ D ∧
        ∀ i < pageDirSize, IsTable mem src i → frameOf (mem src i) ≠ tableFrame mem dst g c := by
    intro c hc
    obtain ⟨hD, hsrcs, -⟩ := hok.tableFrame_apart hands hc (userPdes_lt (mem_sourcePdes.mp hc).1)
    exact ⟨hD, hsrcs⟩
  constructor
  · apply hr.others src (hok.used (Or.inl hok.source)) hok.ne
    intro c hc heq
    exact (happart c hc).1 (heq ▸ hok.source)
  · intro j hj ht
    have hD := hok.dirs.apart src hok.source j hj ht
    exact hr.others _ (hok.used (InUse.table hok.source hj ht)) (fun heq => hD (heq ▸ hok.dest))
      fun c hc => (happart c hc).2 j hj ht

end Pages

/-! ### Exactly the range -/

/-- What sharing a range is to do: every page of it that the source maps gets the entry of the source
    and one more use, no other translation of the destination changes, and the source is as
    before. -/
structure SharedExactly (mem : PhysMem) (s : BuddyAllocator) (src dst startAddr endAddr : ℕ)
    (mem' : PhysMem) (s' : BuddyAllocator) : Prop where
  copied : ∀ va, startAddr ≤ va → va < endAddr → (pageMap mem src (va / pageSize)).isSome = true →
    pteAt mem' dst va = pteAt mem src va
  counted : ∀ f, f ∉ freePages s → (s'.pages f).useCount =
    inc32^[(mappedFrames mem src startAddr ((endAddr - startAddr) / pageSize)).count f]
      (s.pages f).useCount
  kept : ∀ va < 2 ^ 32, ¬ (startAddr ≤ va ∧ va < endAddr ∧
    (pageMap mem src (va / pageSize)).isSome = true) → walk mem' dst va = walk mem dst va
  source : mem' src = mem src ∧ ∀ j < pageDirSize, IsTable mem src j →
    mem' (frameOf (mem src j)) = mem (frameOf (mem src j))

theorem mappedFrames_add (mem : PhysMem) (src va a b : ℕ) :
    mappedFrames mem src va (a + b) =
      mappedFrames mem src va a ++ mappedFrames mem src (va + a * pageSize) b := by
  unfold mappedFrames
  rw [List.range_add, List.filterMap_append, List.filterMap_map]
  congr 2
  funext k
  show Option.map _ (pageMap mem src ((va + (a + k) * pageSize) / pageSize)) = _
  rw [Nat.add_mul, Nat.add_assoc]

theorem mappedFrames_length (mem : PhysMem) (src va count : ℕ) :
    (mappedFrames mem src va count).length ≤ count := by
  have := List.length_filterMap_le (fun i => (pageMap mem src ((va + i * pageSize) / pageSize)).map
    fun info => paToPfn info.frame) (List.range count)
  rwa [List.length_range] at this

/-- The frames that the call comes across, those of the range first. -/
theorem mappedFrames_copyEnd (hstart : 4096 ∣ startAddr) (hend : 4096 ∣ endAddr)
    (hlt : startAddr < endAddr) (hle : endAddr ≤ kernelStartVirt) (mem : PhysMem) (src : ℕ) :
    mappedFrames mem src startAddr ((copyEnd startAddr endAddr - startAddr) / pageSize) =
      mappedFrames mem src startAddr ((endAddr - startAddr) / pageSize) ++
        mappedFrames mem src endAddr ((copyEnd startAddr endAddr - endAddr) / pageSize) := by
  have hge := le_copyEnd startAddr hle
  obtain ⟨e, he⟩ := copyEnd_dvd startAddr hend
  obtain ⟨a, ha⟩ := hstart
  obtain ⟨b, hb⟩ := hend
  rw [he] at hge ⊢
  have hsplit : (4096 * e - startAddr) / pageSize =
      (endAddr - startAddr) / pageSize + (4096 * e - endAddr) / pageSize := by
    unfold pageSize
    omega
  have hat : startAddr + (endAddr - startAddr) / pageSize * pageSize = endAddr := by
    unfold pageSize
    omega
  rw [hsplit, mappedFrames_add, hat]

/-- The frame of a mapped page is listed. -/
theorem mem_mappedFrames {va count : ℕ} {info : PageInfo} (hstart : 4096 ∣ startAddr)
    (hlo : startAddr ≤ va) (hhi : va < startAddr + count * 4096)
    (hinfo : pageMap mem src (va / pageSize) = some info) :
    paToPfn info.frame ∈ mappedFrames mem src startAddr count := by
  obtain ⟨a, rfl⟩ := hstart
  unfold mappedFrames
  refine List.mem_filterMap.mpr ⟨(va - 4096 * a) / pageSize, List.mem_range.mpr ?_, ?_⟩
  · unfold pageSize
    omega
  · have hpage : (4096 * a + (va - 4096 * a) / pageSize * pageSize) / pageSize = va / pageSize := by
      unfold pageSize
      omega
    rw [hpage, hinfo]
    rfl

/-- Fewer than `2 ^ 32` increments can be told apart. -/
theorem inc32_iterate_inj {a b x : ℕ} (ha : a < 2 ^ 32) (hb : b < 2 ^ 32)
    (heq : inc32^[a] x = inc32^[b] x) : a = b := by
  have hsucc : ∀ k, inc32^[k + 1] x = u32 (x + (k + 1)) := by
    intro k
    induction k with
    | zero => rfl
    | succ k ih =>
      rw [Function.iterate_succ_apply', ih]
      unfold inc32 u32
      omega
  cases a with
  | zero =>
    cases b with
    | zero => rfl
    | succ b =>
      rw [hsucc, Function.iterate_zero, id] at heq
      unfold u32 at heq
      omega
  | succ a =>
    cases b with
    | zero =>
      rw [hsucc, Function.iterate_zero, id] at heq
      unfold u32 at heq
      omega
    | succ b =>
      rw [hsucc, hsucc] at heq
      unfold u32 at heq
      omega

/-- With nothing mapped behind the end of the range, only pages of the range are copied. -/
theorem Copied.in_range {va : ℕ} (h : Copied mem src startAddr endAddr va)
    (hbehind : ∀ va, endAddr ≤ va → va < copyEnd startAddr endAddr →
      pageMap mem src (va / pageSize) = none) :
    startAddr ≤ va ∧ va < endAddr ∧ (pageMap mem src (va / pageSize)).isSome = true := by
  obtain ⟨hlo, hhi, hmapped⟩ := h
  refine ⟨hlo, ?_, hmapped⟩
  by_contra hnot
  rw [hbehind va (Nat.le_of_not_lt hnot) hhi] at hmapped
  cases hmapped

section Exactly

variable (hok : Sharing boot kernelPgd D src dst (freePages s)ᶜ (mem, s))
  (hstart : 4096 ∣ startAddr) (hend : 4096 ∣ endAddr) (hlt : startAddr < endAddr)
  (hle : endAddr ≤ kernelStartVirt)
  (hr : SharedRun mem s src dst (freePages s)ᶜ g (copiedPart startAddr endAddr)
    (userPdes startAddr endAddr) y)

include hok hstart hend hlt hle hr

/-- If exactly the range is shared, nothing is mapped behind its end as far as the call goes. -/
theorem SharedRun.behind_of_exactly
    (hlive : ∀ va < kernelStartVirt, ∀ info, pageMap mem src (va / pageSize) = some info →
      paToPfn info.frame ∉ freePages s)
    (hex : SharedExactly mem s src dst startAddr endAddr y.1 y.2) :
    ∀ va, endAddr ≤ va → va < copyEnd startAddr endAddr → pageMap mem src (va / pageSize) = none := by
  intro va hlo hhi
  by_contra hmapped
  obtain ⟨info, hinfo⟩ := Option.ne_none_iff_exists'.mp hmapped
  have hsok : PtableOk mem src := hok.dirs.ok src hok.source
  have hendle := copyEnd_le (hlt.trans_le hle) hle
  have hge := le_copyEnd startAddr hle
  have hfree := hlive va (hhi.trans_le hendle) info hinfo
  have hcount := (sharedFrames_perm hstart hend hlt hle hsok).count_eq (paToPfn info.frame)
  have hsame := hex.counted _ hfree
  rw [hr.uses _ hfree, hcount] at hsame
  rw [mappedFrames_copyEnd hstart hend hlt hle, List.count_append] at hsame
  -- the page adds to the uses of its frame
  obtain ⟨e, he⟩ := copyEnd_dvd startAddr hend
  obtain ⟨b, hb⟩ := hend
  rw [he] at hge hhi hendle hsame
  have hmem : paToPfn info.frame ∈ mappedFrames mem src endAddr ((4096 * e - endAddr) / pageSize) :=
    mem_mappedFrames ⟨b, hb⟩ hlo (by unfold pageSize; omega) hinfo
  have hpos := List.count_pos_iff.mpr hmem
  have hbound : ∀ va' count, count ≤ 2 ^ 20 →
      (mappedFrames mem src va' count).count (paToPfn info.frame) ≤ 2 ^ 20 := fun va' count hc =>
    (List.count_le_length.trans (mappedFrames_length mem src va' count)).trans hc
  unfold kernelStartVirt at hendle
  have hb1 := hbound startAddr ((endAddr - startAddr) / pageSize) (by unfold pageSize; omega)
  have hb2 := hbound endAddr ((4096 * e - endAddr) / pageSize) (by unfold pageSize; omega)
  have := inc32_iterate_inj (by omega) (by omega) hsame
  omega

variable (hands : Hands allocPage s ((missingPdes mem src dst (userPdes startAddr endAddr)).map g))

include hands

/-- With nothing behind the end of the range, and no stray entries in the new tables, exactly the
    range is shared. -/
theorem SharedRun.exactly
    (hbehind : ∀ va, endAddr ≤ va → va < copyEnd startAddr endAddr →
      pageMap mem src (va / pageSize) = none)
    (hclean : ∀ c ∈ missingPdes mem src dst (userPdes startAddr endAddr), ∀ i < 1024,
      entryExists (mem (g c) i) = true → startAddr ≤ c * 2 ^ 22 + i * 4096 ∧
        c * 2 ^ 22 + i * 4096 < endAddr ∧ (pageMap mem src (c * 1024 + i)).isSome = true) :
    SharedExactly mem s src dst startAddr endAddr y.1 y.2 := by
  have hsok : PtableOk mem src := hok.dirs.ok src hok.source
  have hge := le_copyEnd startAddr hle
  refine ⟨fun va hlo hhi hmapped => ?_, fun f hf => ?_, fun va hva hnot => ?_,
    hr.source_kept hok hands⟩
  · have huser : va < kernelStartVirt := hhi.trans_le hle
    obtain ⟨hsource, hpart⟩ := (copied_iff hsok hstart hend hlt hle huser).mp
      ⟨hlo, hhi.trans_le hge, hmapped⟩
    exact hr.pteAt_copied hok hands hsource hpart
  · -- the frames behind the end are none
    have hcount := (sharedFrames_perm hstart hend hlt hle hsok).count_eq f
    have hnone : mappedFrames mem src endAddr ((copyEnd startAddr endAddr - endAddr) / pageSize) =
        [] := by
      unfold mappedFrames
      rw [List.filterMap_eq_nil_iff]
      intro k hk
      have hk := List.mem_range.mp hk
      rw [hbehind]
      · rfl
      · omega
      · obtain ⟨e, he⟩ := copyEnd_dvd startAddr hend
        obtain ⟨b, hb⟩ := hend
        rw [he] at hge hk ⊢
        unfold pageSize at hk ⊢
        omega
    rw [hr.uses f hf, hcount, mappedFrames_copyEnd hstart hend hlt hle, hnone, List.append_nil]
  · by_cases hsource : pageDirectoryIndex va ∈ sourcePdes mem src (userPdes startAddr endAddr)
    · have huser : va < kernelStartVirt := by
        have := userPdes_lt (mem_sourcePdes.mp hsource).1
        rw [kernelPdeStart_eq, pageDirectoryIndex_eq] at this
        unfold kernelStartVirt
        omega
      have hpart : pageTableIndex va ∉ presentPart mem (frameOf (mem src (pageDirectoryIndex va)))
          (copiedPart startAddr endAddr (pageDirectoryIndex va)) := fun hin =>
        hnot (((copied_iff hsok hstart hend hlt hle huser).mpr ⟨hsource, hin⟩).in_range hbehind)
      -- a table of the destination keeps its entries; a new one is judged by what its page held
      by_cases hex : entryExists (mem dst (pageDirectoryIndex va)) = true
      · exact hr.walk_existing hsource hpart hex
      · obtain ⟨hin, hsrc⟩ := mem_sourcePdes.mp hsource
        have hmiss : pageDirectoryIndex va ∈ missingPdes mem src dst (userPdes startAddr endAddr) :=
          mem_missingPdes.mpr ⟨hin, hsrc, by simpa using hex⟩
        obtain ⟨hbefore, hafter⟩ := hr.walk_new hok hands va hmiss hpart
        rw [hbefore, ← Option.not_isSome_iff_eq_none, hafter]
        intro hpresent
        obtain ⟨hlo, hhi, hmapped⟩ := hclean _ hmiss _ (pageTableIndex_lt va) hpresent
        rw [page_of_index huser] at hlo hhi
        rw [pageNumber_of_index huser] at hmapped
        have hle' : va / 4096 * 4096 ≤ va := Nat.div_mul_le_self va 4096
        have hvaend : va < endAddr := by
          obtain ⟨b, rfl⟩ := hend
          clear hge
          omega
        exact hnot ⟨hlo.trans hle', hvaend, hmapped⟩
    · exact hr.walk_outside hok hands hsource

/-- If exactly the range is shared, the new tables have no entries besides. -/
theorem SharedRun.clean_of_exactly
    (hbehind : ∀ va, endAddr ≤ va → va < copyEnd startAddr endAddr →
      pageMap mem src (va / pageSize) = none)
    (hex : SharedExactly mem s src dst startAddr endAddr y.1 y.2) :
    ∀ c ∈ missingPdes mem src dst (userPdes startAddr endAddr), ∀ i < 1024,
      entryExists (mem (g c) i) = true → startAddr ≤ c * 2 ^ 22 + i * 4096 ∧
        c * 2 ^ 22 + i * 4096 < endAddr ∧ (pageMap mem src (c * 1024 + i)).isSome = true := by
  intro c hc i hi hpresent
  have hsok : PtableOk mem src := hok.dirs.ok src hok.source
  obtain ⟨huser, hd, ht, hpage⟩ := page_at (userPdes_lt (mem_missingPdes.mp hc).1) hi
  rw [← hpage]
  by_contra hnot
  have hkept := hex.kept _ (huser.trans (by decide)) hnot
  have hpart : i ∉ presentPart mem (frameOf (mem src c)) (copiedPart startAddr endAddr c) := by
    intro hin
    obtain ⟨hcd, hsrc, -⟩ := mem_missingPdes.mp hc
    have hcopied := (copied_iff hsok hstart hend hlt hle huser).mpr
      (by rw [hd, ht]; exact ⟨mem_sourcePdes.mpr ⟨hcd, hsrc⟩, hin⟩)
    exact hnot (hcopied.in_range hbehind)
  obtain ⟨hbefore, hafter⟩ := hr.walk_new hok hands (c * 2 ^ 22 + i * 4096)
    (by rw [hd]; exact hc) (by rw [hd, ht]; exact hpart)
  rw [hd, ht, hkept, hbefore] at hafter
  exact absurd (hafter.mpr hpresent) (by decide)

end Exactly

/-- **`ptable_copy_range` with `PTC_SHARE`** shares exactly the range if and only if there are pages
    for the tables that the destination lacks, the source maps nothing between the end of the range
    and the end of the table there if the range starts below the same directory entry, and the pages
    for the tables hold no entries that count as present, except where the range has pages. -/
theorem shareRange_iff {n : ℕ} {F : ℕ → List ℕ} {L : Live} {S : Set ℕ} (hc : Core n s F L S S)
    (hn : n ≤ 2 ^ 20) (hdirs : Directories boot kernelPgd D mem) (hsrc : src ∈ D) (hdst : dst ∈ D)
    (hne : src ≠ dst)
    (hdisjoint : ∀ i < kernelPdeStart, ∀ j < kernelPdeStart, IsTable mem src i → IsTable mem dst j →
      frameOf (mem src i) ≠ frameOf (mem dst j))
    (hfree : ∀ p ∈ freePages s, p ∉ InUse mem D)
    (hlive : ∀ va < kernelStartVirt, ∀ info, pageMap mem src (va / pageSize) = some info →
      paToPfn info.frame ∉ freePages s)
    (hshare : testFlag flags ptcShare = true) (hstart : 4096 ∣ startAddr) (hend : 4096 ∣ endAddr)
    (hlt : startAddr < endAddr) (hle : endAddr ≤ kernelStartVirt) :
    (∃ mem' s', ptableCopyRange allocPage pageIncUses flags mem s src dst startAddr endAddr =
      some (mem', s') ∧ SharedExactly mem s src dst startAddr endAddr mem' s') ↔
    ∃ g : ℕ → ℕ, Hands allocPage s ((missingPdes mem src dst (userPdes startAddr endAddr)).map g) ∧
      (pageDirectoryIndex startAddr = pageDirectoryIndex endAddr → ∀ va, endAddr ≤ va →
        va < (pageDirectoryIndex startAddr + 1) * 2 ^ 22 → pageMap mem src (va / pageSize) = none) ∧
      ∀ c ∈ missingPdes mem src dst (userPdes startAddr endAddr), ∀ i < 1024,
        entryExists (mem (g c) i) = true → startAddr ≤ c * 2 ^ 22 + i * 4096 ∧
          c * 2 ^ 22 + i * 4096 < endAddr ∧ (pageMap mem src (c * 1024 + i)).isSome = true := by
  have hok : Sharing boot kernelPgd D src dst (freePages s)ᶜ (mem, s) :=
    ⟨⟨hdirs, hsrc, hdst, fun i hi j hj _ => hdisjoint i hi j hj, fun f hf hmem => hfree f hmem hf,
      hc.offers hn fun p hp hnot => hnot hp⟩, hne, fun i hi => hdisjoint i hi i hi⟩
  have hnd := nodup_userPdes startAddr endAddr
  have huser : ∀ d ∈ userPdes startAddr endAddr, d < kernelPdeStart := fun d hd => userPdes_lt hd
  -- the run, from the pages that it takes
  have hrun : ∀ g, Hands allocPage s ((missingPdes mem src dst (userPdes startAddr endAddr)).map g) →
      ∃ y, ptableCopyRange allocPage pageIncUses flags mem s src dst startAddr endAddr = some y ∧
        SharedRun mem s src dst (freePages s)ᶜ g (copiedPart startAddr endAddr)
          (userPdes startAddr endAddr) y := by
    intro g hands
    obtain ⟨y, U', hfold, hr, hc'⟩ := hok.share_run startAddr endAddr
      hshare hnd huser hands
    refine ⟨y, ?_, hr⟩
    rw [ptableCopyRange_eq (hlt.trans_le hle) hle, hfold]
    intro y' hy'
    rw [hfold] at hy'
    obtain rfl := Option.some.inj hy'
    rw [hc'.dirs.half dst hdst kernelPdeStart le_rfl (by decide)]
    exact hdirs.present kernelPdeStart le_rfl (by decide)
  have hbehind : (∀ va, endAddr ≤ va → va < copyEnd startAddr endAddr →
      pageMap mem src (va / pageSize) = none) ↔
      (pageDirectoryIndex startAddr = pageDirectoryIndex endAddr → ∀ va, endAddr ≤ va →
        va < (pageDirectoryIndex startAddr + 1) * 2 ^ 22 → pageMap mem src (va / pageSize) = none) := by
    unfold copyEnd
    split
    · rename_i hsame
      exact ⟨fun h _ => h, fun h => h hsame⟩
    · rename_i hdiff
      exact iff_of_true (fun va hlo hhi => absurd hhi (Nat.not_lt_of_le hlo))
        fun hsame => absurd hsame hdiff
  rw [← hbehind]
  constructor
  · rintro ⟨mem', s', hcall, hexact⟩
    obtain ⟨g, hands⟩ : ∃ g : ℕ → ℕ, Hands allocPage s
        ((missingPdes mem src dst (userPdes startAddr endAddr)).map g) := by
      obtain ⟨z, hz⟩ : ∃ z, (userPdes startAddr endAddr).foldlM
          (copyPde allocPage pageIncUses flags src dst startAddr endAddr) (mem, s) = some z := by
        unfold ptableCopyRange at hcall
        rcases copiedPdes_eq (hlt.trans_le hle) hle with hpdes | ⟨hpdes, -⟩
        · rw [hpdes] at hcall
          exact ⟨_, hcall⟩
        · rw [hpdes, List.foldlM_append] at hcall
          obtain ⟨z, hz, -⟩ := Option.bind_eq_some_iff.mp hcall
          exact ⟨z, hz⟩
      exact hok.share_hands hshare hnd huser hz
    obtain ⟨y, hcall', hr⟩ := hrun g hands
    rw [hcall] at hcall'
    obtain rfl := Option.some.inj hcall'
    have hnone := hr.behind_of_exactly hok hstart hend hlt hle hlive hexact
    exact ⟨g, hands, hnone, hr.clean_of_exactly hok hstart hend hlt hle hands hnone hexact⟩
  · rintro ⟨g, hands, hnone, hclean⟩
    obtain ⟨y, hcall, hr⟩ := hrun g hands
    exact ⟨y.1, y.2, hcall, hr.exactly hok hstart hend hlt hle hands hnone hclean⟩

theorem shareRange_iff_onePage : ∃ mem' s',
    ptableCopyRange allocPage pageIncUses ptcShare (twoDirectories 0 false) fourPages 1 2 0x400000
      0x401000 = some (mem', s') ∧
    SharedExactly (twoDirectories 0 false) fourPages 1 2 0x400000 0x401000 mem' s' := by
  obtain ⟨F, L, S, hc⟩ := fourPages_core
  have hok := (directories_twoDirectories 0 false).ok 1 (Or.inl rfl)
  have hmissing : missingPdes (twoDirectories 0 false) 1 2 (userPdes 0x400000 0x401000) = [1] := by
    decide
  have hfirst : (allocPage fourPages).1 = some 4 := by decide
  refine (shareRange_iff hc (by decide) (directories_twoDirectories 0 false) (Or.inl rfl) (Or.inr rfl)
    (by decide) (twoDirectories_disjoint 0 false) (twoDirectories_unused 0 false)
    (fun va hva info hinfo => (twoDirectories_live 0 false va hva info hinfo).1)
    (by decide) (by decide) (by decide) (by decide) (by decide)).mpr
    ⟨fun _ => 4, ?_, fun _ va hlo hhi => ?_, fun c _ i _ hpresent => ?_⟩
  · rw [hmissing]
    exact ⟨_, Prod.ext hfirst rfl, trivial⟩
  · -- only the first page of the table is mapped
    have hva : va < kernelStartVirt := hhi.trans (by decide)
    have hti : pageTableIndex va ≠ 0 := by
      have hlt : va < 0x800000 := hhi
      rw [pageTableIndex_eq]
      omega
    rw [← Option.not_isSome_iff_eq_none, mapped_iff hok hva]
    rintro ⟨hex, hpte⟩
    have htable := twoDirectories_table (Or.inl rfl)
      (hok.isTable (pageDirectoryIndex_user hva) hex)
    rw [htable.2.2] at hpte
    unfold twoDirectories at hpte
    simp [hti] at hpte
    exact absurd hpte (by decide)
  · unfold twoDirectories at hpresent
    simp at hpresent
    exact absurd hpresent (by decide)

/-- **The page behind the range.**  Start and end of the range are below one directory entry, and the
    page at the end is shared too. -/
theorem shareRange_copies_behind :
    ¬ ∀ (boot mem : PhysMem) (kernelPgd src dst startAddr endAddr n : ℕ) (D S : Set ℕ)
      (s : BuddyAllocator) (F : ℕ → List ℕ) (L : Live), Core n s F L S S → n ≤ 2 ^ 20 →
      Directories boot kernelPgd D mem → src ∈ D → dst ∈ D → src ≠ dst →
      (∀ i < kernelPdeStart, ∀ j < kernelPdeStart, IsTable mem src i → IsTable mem dst j →
        frameOf (mem src i) ≠ frameOf (mem dst j)) →
      (∀ p ∈ freePages s, p ∉ InUse mem D) →
      (∀ va < kernelStartVirt, ∀ info, pageMap mem src (va / pageSize) = some info →
        paToPfn info.frame ∉ freePages s) →
      4096 ∣ startAddr → 4096 ∣ endAddr → startAddr < endAddr → endAddr ≤ kernelStartVirt →
      ∃ mem' s', ptableCopyRange allocPage pageIncUses ptcShare mem s src dst startAddr endAddr =
        some (mem', s') ∧ SharedExactly mem s src dst startAddr endAddr mem' s' := by
  intro h
  obtain ⟨F, L, S, hc⟩ := fourPages_core
  obtain ⟨mem', s', hcall, hexact⟩ := h _ _ 1 1 2 0x400000 0x401000 64 {1, 2} S fourPages F L hc
    (by decide) (directories_twoDirectories 0 true) (Or.inl rfl) (Or.inr rfl) (by decide)
    (twoDirectories_disjoint 0 true) (twoDirectories_unused 0 true)
    (fun va hva info hinfo => (twoDirectories_live 0 true va hva info hinfo).1)
    (by decide) (by decide) (by decide) (by decide)
  -- the page behind the range is mapped after the call, and was not before
  have hshared : (ptableCopyRange allocPage pageIncUses ptcShare (twoDirectories 0 true) fourPages
      1 2 0x400000 0x401000).map (fun r => (walk r.1 2 0x401000).isSome) = some true := by
    decide +kernel
  have hbefore : walk (twoDirectories 0 true) 2 0x401000 = none := by decide
  have hkept := hexact.kept 0x401000 (by decide) fun hin => absurd hin.2.1 (by decide)
  rw [hcall, Option.map_some, hkept, hbefore] at hshared
  cases hshared

end Rotary
