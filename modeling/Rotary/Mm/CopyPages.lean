import Rotary.Mm.CopyLoops

namespace Rotary

open Lib

/-!
# `ptable_copy_range` with `PTC_COPY`

Every page copied gets a frame of its own, with the contents of the source's frame.  The entry for it
is made with `PTE_PRESENT | PTE_USER`, whatever the source's entry says, so a page that was writable
is not writable in the copy.

The frames taken along the way are told apart by when they are taken: `ps` lists them, `U` is what
was in use before, and what comes later is outside both.

* `copyPart_copy`, `Copying.copy_pde`, `Copying.copy_run` — the inner loop, one turn of the outer
  loop, the outer loop;
* `copyRange_iff` — the copy is equivalent exactly if all pages copied are read-only pages of the
  user.
-/

variable {boot mem mem' : PhysMem} {kernelPgd src dst d f page startAddr endAddr : ℕ} {D U : Set ℕ}
  {x y z : PhysMem × BuddyAllocator} {s s' : BuddyAllocator} {flags : BitVec 32} {ps qs ds : List ℕ}

/-- The entry of a copied page: present and for the user, but not writable. -/
theorem copiedEntry_spec (hp : page < 2 ^ 20) :
    entryExists (copiedEntry page) = true ∧ frameOf (copiedEntry page) = page ∧
      testFlag (copiedEntry page) pteUser = true ∧
      testFlag (copiedEntry page) pteWritable = false := by
  unfold copiedEntry
  refine ⟨?_, ?_, ?_, ?_⟩
  · unfold entryExists
    rw [testFlag_makeEntry _ _ (by decide)]
    decide
  · rw [frameOf_makeEntry, virToPhy_pageVa hp, u32_of_lt (by omega)]
    omega
  · rw [testFlag_makeEntry _ _ (by decide)]
    decide
  · rw [testFlag_makeEntry _ _ (by decide)]
    decide

/-! ### The inner loop -/

/-- What copying the entries at the indices `js` of a table does, `ps` being the pages taken. -/
structure CopiedPart (mem : PhysMem) (s : BuddyAllocator) (tNew tOld : ℕ) (U : Set ℕ)
    (js ps : List ℕ) (y : PhysMem × BuddyAllocator) : Prop where
  took : Took allocPage s ps y.2
  new : ∀ i ∈ js, ∃ page ∈ ps, y.1 tNew i = copiedEntry page ∧ y.1 page = mem (frameOf (mem tOld i))
  distinct : ∀ i ∈ js, ∀ j ∈ js, frameOf (y.1 tNew i) = frameOf (y.1 tNew j) → i = j
  kept : ∀ i ∉ js, y.1 tNew i = mem tNew i
  others : ∀ f ∈ U, f ≠ tNew → y.1 f = mem f

/-- One entry, then the others. -/
theorem CopiedPart.cons {tNew tOld i : ℕ} {js : List ℕ} (hoffers : Offers allocPage s U)
    (halloc : allocPage s = (some page, s')) (hnew : tNew ∈ U)
    (hframes : ∀ j ∈ i :: js, frameOf (mem tOld j) ∈ U ∧ frameOf (mem tOld j) ≠ tNew)
    (hi : i ∉ js) (hold : ∀ j ∈ js, mem' tOld j = mem tOld j)
    (hmem' : mem' = setWord (copyFrame mem page (frameOf (mem tOld i))) tNew i (copiedEntry page))
    (h : CopiedPart mem' s' tNew tOld (insert page U) js ps y) :
    CopiedPart mem s tNew tOld U (i :: js) (page :: ps) y := by
  obtain ⟨hlt, hout, hoffers'⟩ := hoffers.take halloc
  have hpages := (hoffers'.took h.took).2.1
  have hpt : page ≠ tNew := fun heq => hout (heq ▸ hnew)
  have hnewpage : mem' page = mem (frameOf (mem tOld i)) := by
    rw [hmem']
    unfold setWord copyFrame
    rw [Function.update_of_ne hpt, Function.update_self]
  have hothers : ∀ f ∈ U, f ≠ tNew → mem' f = mem f := by
    intro f hf hft
    have hfp : f ≠ page := fun heq => hout (heq ▸ hf)
    rw [hmem']
    unfold setWord copyFrame
    rw [Function.update_of_ne hft, Function.update_of_ne hfp]
  have hword : ∀ j, j ≠ i → mem' tNew j = mem tNew j := by
    intro j hj
    rw [hmem', setWord_of_ne _ _ fun heq => hj heq.2]
    unfold copyFrame
    rw [Function.update_of_ne hpt.symm]
  -- the entry for `i` stays as it is made
  have hentry : y.1 tNew i = copiedEntry page := by
    rw [h.kept i hi, hmem']
    exact setWord_self _ _ _ _
  have hlater : ∀ j ∈ js, frameOf (y.1 tNew j) ≠ page := by
    intro j hj heq
    obtain ⟨q, hq, hqe, -⟩ := h.new j hj
    obtain ⟨hqlt, hqout⟩ := hpages q hq
    rw [hqe, (copiedEntry_spec hqlt).2.1] at heq
    exact hqout (Or.inl heq)
  have hfirst : frameOf (y.1 tNew i) = page := by
    rw [hentry]
    exact (copiedEntry_spec hlt).2.1
  refine ⟨⟨s', halloc, h.took⟩, fun j hj => ?_, fun j hj k hk heq => ?_, fun j hj => ?_,
    fun f hf hft => ?_⟩
  · rcases List.mem_cons.mp hj with rfl | hj
    · refine ⟨page, List.mem_cons_self, hentry, ?_⟩
      rw [h.others page (Set.mem_insert _ _) hpt, hnewpage]
    · obtain ⟨q, hq, hqe, hqc⟩ := h.new j hj
      obtain ⟨hfU, hft⟩ := hframes j (List.mem_cons_of_mem i hj)
      refine ⟨q, List.mem_cons_of_mem page hq, hqe, ?_⟩
      rw [hqc, hold j hj, hothers _ hfU hft]
  · rcases List.mem_cons.mp hj with hji | hjs
    · rcases List.mem_cons.mp hk with hki | hks
      · rw [hji, hki]
      · rw [hji, hfirst] at heq
        exact absurd heq.symm (hlater k hks)
    · rcases List.mem_cons.mp hk with hki | hks
      · rw [hki, hfirst] at heq
        exact absurd heq (hlater j hjs)
      · exact h.distinct j hjs k hks heq
  · rw [h.kept j fun hmem => hj (List.mem_cons_of_mem i hmem)]
    exact hword j fun heq => hj (heq ▸ List.mem_cons_self)
  · rw [h.others f (Set.mem_insert_of_mem _ hf) hft, hothers f hf hft]

/-- **`PTC_COPY`.**  Each present entry is copied into a page of its own.  The two tables may be the
    same one: an entry is not looked at again after it has been replaced. -/
theorem copyPart_copy {tNew tOld : ℕ} {is : List ℕ} (hshare : testFlag flags ptcShare = false)
    (hcopy : testFlag flags ptcCopy = true) (hnd : is.Nodup) (hoffers : Offers allocPage s U)
    (hnew : tNew ∈ U) (hold : tOld ∈ U)
    (hframes : ∀ i ∈ presentPart mem tOld is, frameOf (mem tOld i) ∈ U ∧ frameOf (mem tOld i) ≠ tNew)
    (hcall : is.foldlM (copyPte allocPage pageIncUses flags tNew tOld) (mem, s) = some y) :
    ∃ ps, CopiedPart mem s tNew tOld U (presentPart mem tOld is) ps y := by
  induction is generalizing mem s U with
  | nil =>
    obtain rfl : y = (mem, s) := (Option.some.inj hcall).symm
    refine ⟨[], rfl, ?_, ?_, fun _ _ => rfl, fun _ _ _ => rfl⟩
    · intro i hi
      cases hi
    · intro i hi
      cases hi
  | cons i is ih =>
    obtain ⟨hi, hnd'⟩ := List.nodup_cons.mp hnd
    rw [List.foldlM_cons] at hcall
    obtain ⟨x, hstep, hrest⟩ := Option.bind_eq_some_iff.mp hcall
    unfold copyPte at hstep
    by_cases hex : entryExists (mem tOld i) = true
    · rw [presentPart_cons_pos hex] at hframes ⊢
      simp only [hex, hshare, hcopy, Bool.not_true, Bool.false_eq_true, if_false, if_true] at hstep
      split at hstep
      · cases hstep
      · rename_i page s₁ halloc
        obtain rfl := Option.some.inj hstep
        obtain ⟨-, hout, hoffers'⟩ := hoffers.take halloc
        have hpo : tOld ≠ page := fun heq => hout (heq ▸ hold)
        -- the entries still to come are those of before
        have hsame : ∀ j ∈ is, setWord (copyFrame mem page (frameOf (mem tOld i))) tNew i
            (copiedEntry page) tOld j = mem tOld j := by
          intro j hj
          have hji : j ≠ i := fun heq => hi (heq ▸ hj)
          rw [setWord_of_ne _ _ fun heq => hji heq.2]
          unfold copyFrame
          rw [Function.update_of_ne hpo]
        have hpart : presentPart (setWord (copyFrame mem page (frameOf (mem tOld i))) tNew i
            (copiedEntry page)) tOld is = presentPart mem tOld is := by
          unfold presentPart
          apply List.filter_congr
          intro j hj
          rw [hsame j hj]
        have hin : ∀ j ∈ presentPart mem tOld is, j ∈ is := fun j hj => (List.mem_filter.mp hj).1
        obtain ⟨ps, hps⟩ := ih hnd' hoffers' (Set.mem_insert_of_mem _ hnew)
          (Set.mem_insert_of_mem _ hold) (fun j hj => by
            rw [hpart] at hj
            rw [hsame j (hin j hj)]
            obtain ⟨hU, hne⟩ := hframes j (List.mem_cons_of_mem i hj)
            exact ⟨Set.mem_insert_of_mem _ hU, hne⟩) hrest
        rw [hpart] at hps
        exact ⟨page :: ps, hps.cons hoffers halloc hnew hframes (fun hmem => hi (hin i hmem))
          (fun j hj => hsame j (hin j hj)) rfl⟩
    · rw [presentPart_cons_neg hex] at hframes ⊢
      simp only [hex, Bool.not_false, if_true] at hstep
      obtain rfl := Option.some.inj hstep
      exact ih hnd' hoffers hnew hold hframes hrest

/-! ### One turn -/

/-- The words of the source's table at entry `c` that are copied. -/
def copiedWords (mem : PhysMem) (src : ℕ) (part : ℕ → List ℕ) (c : ℕ) : List ℕ :=
  presentPart mem (frameOf (mem src c)) (part c)

/-- What the loop over the directory entries `ds` does, `ps` being the pages taken for tables and
    copies. -/
structure CopiedRun (mem : PhysMem) (s : BuddyAllocator) (src dst : ℕ) (D U : Set ℕ)
    (part : ℕ → List ℕ) (ds ps : List ℕ) (y : PhysMem × BuddyAllocator) : Prop where
  took : Took allocPage s ps y.2
  new : ∀ c ∈ sourcePdes mem src ds, ∀ i ∈ copiedWords mem src part c,
    ∃ page ∈ ps, page ∉ InUse y.1 D ∧ entryExists (y.1 dst c) = true ∧
      y.1 (frameOf (y.1 dst c)) i = copiedEntry page ∧
      y.1 page = mem (frameOf (mem (frameOf (mem src c)) i))
  distinct : ∀ c ∈ sourcePdes mem src ds, ∀ i ∈ copiedWords mem src part c,
    ∀ c' ∈ sourcePdes mem src ds, ∀ i' ∈ copiedWords mem src part c',
    frameOf (y.1 (frameOf (y.1 dst c)) i) = frameOf (y.1 (frameOf (y.1 dst c')) i') → c = c' ∧ i = i'
  source : y.1 src = mem src
  pdes : ∀ c, entryExists (mem dst c) = true → y.1 dst c = mem dst c
  tables : ∀ e, e = src ∨ e = dst → ∀ c < kernelPdeStart, c ∉ ds → IsTable mem e c →
    y.1 (frameOf (mem e c)) = mem (frameOf (mem e c))
  inUse : ∀ f ∈ U, f ∈ InUse y.1 D → f ∈ InUse mem D
  others : ∀ f ∈ U, f ∉ InUse mem D → y.1 f = mem f

/-- The frames that the copied words of the source point to are in use, but not as tables. -/
def SourceFrames (mem : PhysMem) (src : ℕ) (D U : Set ℕ) (part : ℕ → List ℕ) (ds : List ℕ) : Prop :=
  ∀ c ∈ sourcePdes mem src ds, ∀ i ∈ copiedWords mem src part c,
    frameOf (mem (frameOf (mem src c)) i) ∈ U ∧ frameOf (mem (frameOf (mem src c)) i) ∉ InUse mem D

/-- The table, then its entries. -/
theorem CopiedPart.turn {part : ℕ → List ℕ} {g : ℕ → ℕ}
    (h : Copying boot kernelPgd D src dst U (mem, s)) (hd : d < kernelPdeStart)
    (hsrc : entryExists (mem src d) = true) (hframes : SourceFrames mem src D U part [d])
    (hz : TableReady boot kernelPgd D src dst U mem s g d z)
    (hp : CopiedPart z.1 z.2 (tableFrame mem dst g d) (frameOf (mem src d))
      (insert (tableFrame mem dst g d) U) (copiedWords mem src part d) qs y) :
    CopiedRun mem s src dst D U part [d] ((missingPdes mem src dst [d]).map g ++ qs) y ∧
      Copying boot kernelPgd D src dst
        (U ∪ {p | p ∈ (missingPdes mem src dst [d]).map g ++ qs}) y := by
  have hone : sourcePdes mem src [d] = [d] := sourcePdes_cons_pos hsrc []
  have hstable : IsTable mem src d := (h.dirs.ok src h.source).isTable hd hsrc
  have hold : frameOf (mem src d) ∉ D := h.dirs.apart src h.source d (hd.trans (by decide)) hstable
  have htook := hz.took.append hp.took
  have hkeptz : ∀ f, f ∉ D → z.1 f = mem f := fun f hf => hz.others f fun heq => hf (heq ▸ h.dest)
  have hfresh : ∀ p ∈ qs, p ∉ insert (tableFrame mem dst g d) U := fun p hmem =>
    ((hz.copying.offers.took hp.took).2.1 p hmem).2
  -- neither the directories nor what is in use besides the table is written
  have hkeep : ∀ f ∈ insert (tableFrame mem dst g d) U, f ≠ frameOf (z.1 dst d) → y.1 f = z.1 f := by
    intro f hf hne
    rw [hz.frame] at hne
    exact hp.others f hf hne
  have hdirs := hz.copying.store_directories hd hz.ready hkeep
  have hsame : ∀ f ∈ U, f ∉ D → f ≠ tableFrame mem dst g d → y.1 f = mem f := by
    intro f hf hfD hne
    rw [hp.others f (Set.mem_insert_of_mem _ hf) hne, hkeptz f hfD]
  have hinUse : InUse y.1 D ⊆ insert (tableFrame mem dst g d) (InUse mem D) := by
    rw [InUse.congr hdirs]
    exact hz.inUse
  have hdst : entryExists (y.1 dst d) = true ∧ frameOf (y.1 dst d) = tableFrame mem dst g d := by
    rw [hdirs dst h.dest]
    exact ⟨hz.ready, hz.frame⟩
  have hsub : insert (tableFrame mem dst g d) U ⊆
      U ∪ {p | p ∈ (missingPdes mem src dst [d]).map g ++ qs} := by
    rintro f (rfl | hf)
    · by_cases hex : entryExists (mem dst d) = true
      · rw [tableFrame_of_exists hex]
        exact Or.inl (h.table_apart hd hex).2.1
      · rw [Bool.not_eq_true] at hex
        rw [tableFrame_of_absent hex]
        refine Or.inr (List.mem_append_left _ (List.mem_map_of_mem ?_))
        exact mem_missingPdes.mpr ⟨List.mem_singleton_self d, hsrc, hex⟩
    · exact Or.inl hf
  refine ⟨⟨htook, fun c hc i hi => ?_, fun c hc i hi c' hc' i' hi' heq => ?_, ?_, fun c hex => ?_,
    fun e he c hc hcd ht => ?_, fun f hf hmem => ?_, fun f hf hfree => ?_⟩,
    hz.copying.store hd hz.ready hkeep hsub (h.offers.took htook).2.2⟩
  · rw [hone] at hc
    obtain rfl := List.mem_singleton.mp hc
    obtain ⟨page, hpage, hentry, hcontents⟩ := hp.new i hi
    obtain ⟨hfU, hfI⟩ := hframes c (hone.symm ▸ List.mem_singleton_self c) i hi
    refine ⟨page, List.mem_append_right _ hpage, ?_, hdst.1, by rw [hdst.2]; exact hentry, ?_⟩
    · intro hmem
      apply hfresh page hpage
      exact (Set.insert_subset_insert h.used) (hinUse hmem)
    · rw [hcontents, hkeptz _ hold]
      exact hkeptz _ fun hmem => hfI (Or.inl hmem)
  · rw [hone] at hc hc'
    obtain rfl := List.mem_singleton.mp hc
    obtain rfl := List.mem_singleton.mp hc'
    rw [hdst.2] at heq
    exact ⟨rfl, hp.distinct i hi i' hi' heq⟩
  · rw [hdirs src h.source]
    exact hz.source hsrc
  · rw [hdirs dst h.dest, hz.pde c, if_neg]
    rintro ⟨rfl, habs⟩
    exact absurd (hex.symm.trans habs) (by decide)
  · have heD : e ∈ D := by
      rcases he with rfl | rfl
      · exact h.source
      · exact h.dest
    have hcdir : c < pageDirSize := hc.trans (by decide)
    have hcd' : c ≠ d := fun heq => hcd (heq ▸ List.mem_singleton_self d)
    exact hsame _ (h.used (InUse.table heD hcdir ht)) (h.dirs.apart e heD c hcdir ht)
      (hz.apart h hd he hc hcd' ht)
  · rcases hinUse hmem with rfl | hmem
    · rcases hz.origin h hd with hin | hout
      · exact hin
      · exact absurd hf hout
    · exact hmem
  · refine hsame f hf (fun hmem => hfree (Or.inl hmem)) ?_
    rintro rfl
    rcases hz.origin h hd with hin | hout
    · exact hfree hin
    · exact hout hf

/-- **One turn of the outer loop**, if it got to its end. -/
theorem Copying.copy_pde (h : Copying boot kernelPgd D src dst U (mem, s))
    (hshare : testFlag flags ptcShare = false) (hcopy : testFlag flags ptcCopy = true)
    (hd : d < kernelPdeStart) (hsrc : entryExists (mem src d) = true)
    (hframes : SourceFrames mem src D U (copiedPart startAddr endAddr) [d])
    (hcall : copyPde allocPage pageIncUses flags src dst startAddr endAddr (mem, s) d = some y) :
    ∃ ps, CopiedRun mem s src dst D U (copiedPart startAddr endAddr) [d] ps y ∧
      Copying boot kernelPgd D src dst (U ∪ {p | p ∈ ps}) y := by
  have hdir : d < pageDirSize := hd.trans (by decide)
  have hstable : IsTable mem src d := (h.dirs.ok src h.source).isTable hd hsrc
  -- the destination's table
  unfold copyPde at hcall
  simp only [hsrc, Bool.not_true, Bool.false_eq_true, if_false] at hcall
  split at hcall
  · cases hcall
  rename_i z htable
  obtain ⟨g, hands⟩ := hands_of_copyTable hsrc htable
  obtain ⟨z', htable', hz⟩ := h.table hd hsrc hands
  obtain rfl : z' = z := Option.some.inj (htable'.symm.trans htable)
  rw [hz.frame, hz.source hsrc] at hcall
  -- the source's table, which is not a directory
  have hsame : z'.1 (frameOf (mem src d)) = mem (frameOf (mem src d)) := by
    apply hz.others
    intro heq
    exact h.dirs.apart src h.source d hdir hstable (heq ▸ h.dest)
  have hpart := presentPart_congr hsame (copiedPart startAddr endAddr d)
  have hold : frameOf (mem src d) ∈ insert (tableFrame mem dst g d) U :=
    Set.mem_insert_of_mem _ (h.used (InUse.table h.source hdir hstable))
  have hnd : (copiedPart startAddr endAddr d).Nodup := List.nodup_range'
  have hpages : ∀ i ∈ presentPart z'.1 (frameOf (mem src d)) (copiedPart startAddr endAddr d),
      frameOf (z'.1 (frameOf (mem src d)) i) ∈ insert (tableFrame mem dst g d) U ∧
        frameOf (z'.1 (frameOf (mem src d)) i) ≠ tableFrame mem dst g d := by
    intro i hi
    rw [hpart] at hi
    obtain ⟨hU, hI⟩ := hframes d (mem_sourcePdes.mpr ⟨List.mem_singleton_self d, hsrc⟩) i hi
    rw [hsame]
    refine ⟨Set.mem_insert_of_mem _ hU, fun heq => ?_⟩
    rw [heq] at hU hI
    exact (hz.origin h hd).elim hI fun hout => hout hU
  obtain ⟨qs, hp⟩ := copyPart_copy hshare hcopy hnd hz.copying.offers (Set.mem_insert _ _) hold hpages
    hcall
  rw [hpart] at hp
  exact ⟨_, hp.turn h hd hsrc hframes hz⟩

/-! ### The outer loop -/

/-- What the source has at the entries to come is as before. -/
theorem CopiedRun.later {part : ℕ → List ℕ} (h : Copying boot kernelPgd D src dst U (mem, s))
    (hr : CopiedRun mem s src dst D U part [d] ps y) (hnot : d ∉ ds)
    (huser : ∀ c ∈ ds, c < kernelPdeStart) :
    sourcePdes y.1 src ds = sourcePdes mem src ds ∧ ∀ c ∈ sourcePdes mem src ds,
      y.1 (frameOf (y.1 src c)) = mem (frameOf (mem src c)) ∧
        copiedWords y.1 src part c = copiedWords mem src part c := by
  have hsource := hr.source
  refine ⟨by unfold sourcePdes; rw [hsource], fun c hc => ?_⟩
  obtain ⟨hcd, hex⟩ := mem_sourcePdes.mp hc
  have hne : c ∉ [d] := fun hmem => hnot (List.mem_singleton.mp hmem ▸ hcd)
  have htable := hr.tables src (Or.inl rfl) c (huser c hcd) hne
    ((h.dirs.ok src h.source).isTable (huser c hcd) hex)
  unfold copiedWords
  rw [hsource]
  exact ⟨htable, presentPart_congr htable _⟩

/-- So are the frames behind it. -/
theorem CopiedRun.sourceFrames {part : ℕ → List ℕ} (h : Copying boot kernelPgd D src dst U (mem, s))
    (hr : CopiedRun mem s src dst D U part [d] ps y) (hnot : d ∉ ds)
    (huser : ∀ c ∈ ds, c < kernelPdeStart) (hframes : SourceFrames mem src D U part ds) :
    SourceFrames y.1 src D (U ∪ {p | p ∈ ps}) part ds := by
  obtain ⟨hsources, hlater⟩ := hr.later h hnot huser
  intro c hc i hi
  rw [hsources] at hc
  obtain ⟨htable, hwords⟩ := hlater c hc
  rw [hwords] at hi
  obtain ⟨hU, hI⟩ := hframes c hc i hi
  rw [htable]
  exact ⟨Or.inl hU, fun hmem => hI (hr.inUse _ hU hmem)⟩

section Cons

variable {part : ℕ → List ℕ} (h : Copying boot kernelPgd D src dst U (mem, s))
  (hc : Copying boot kernelPgd D src dst (U ∪ {p | p ∈ ps}) y)
  (hsrc : entryExists (mem src d) = true) (hd : d < kernelPdeStart) (hnot : d ∉ ds)
  (huser : ∀ c ∈ ds, c < kernelPdeStart) (hframes : SourceFrames mem src D U part (d :: ds))
  (hr : CopiedRun mem s src dst D U part [d] ps y)
  (hr' : CopiedRun y.1 y.2 src dst D (U ∪ {p | p ∈ ps}) part ds qs z)

include hc hsrc hd hnot hr hr' in
/-- The copies of the first turn are not touched later. -/
theorem CopiedRun.first {i : ℕ} (hi : i ∈ copiedWords mem src part d) :
    ∃ page ∈ ps, page ∉ InUse z.1 D ∧ entryExists (z.1 dst d) = true ∧
      z.1 (frameOf (z.1 dst d)) i = copiedEntry page ∧
      z.1 (frameOf (z.1 dst d)) i = y.1 (frameOf (y.1 dst d)) i ∧
      z.1 page = mem (frameOf (mem (frameOf (mem src d)) i)) := by
  have hone : d ∈ sourcePdes mem src [d] := mem_sourcePdes.mpr ⟨List.mem_singleton_self d, hsrc⟩
  obtain ⟨page, hpage, hI, hex, hentry, hcontents⟩ := hr.new d hone i hi
  have hpde := hr'.pdes d hex
  have htable := hr'.tables dst (Or.inr rfl) d hd hnot ((hc.dirs.ok dst hc.dest).isTable hd hex)
  refine ⟨page, hpage, fun hmem => hI (hr'.inUse page (Or.inr hpage) hmem), ?_, ?_, ?_, ?_⟩
  · rw [hpde]
    exact hex
  · rw [hpde, htable]
    exact hentry
  · rw [hpde, htable]
  · rw [hr'.others page (Or.inr hpage) hI, hcontents]

include h hsrc hnot huser hframes hr hr' in
/-- The copies of the later turns are copies of what was there at the start. -/
theorem CopiedRun.rest {c i : ℕ} (hcs : c ∈ sourcePdes mem src ds)
    (hi : i ∈ copiedWords mem src part c) :
    ∃ page ∈ qs, page ∉ InUse z.1 D ∧ entryExists (z.1 dst c) = true ∧
      z.1 (frameOf (z.1 dst c)) i = copiedEntry page ∧
      z.1 page = mem (frameOf (mem (frameOf (mem src c)) i)) := by
  obtain ⟨hsources, hlater⟩ := hr.later h hnot huser
  obtain ⟨htable, hwords⟩ := hlater c hcs
  obtain ⟨page, hpage, hI, hex, hentry, hcontents⟩ := hr'.new c (hsources.symm ▸ hcs) i
    (hwords.symm ▸ hi)
  have hlisted : c ∈ sourcePdes mem src (d :: ds) := by
    rw [sourcePdes_cons_pos hsrc]
    exact List.mem_cons_of_mem d hcs
  obtain ⟨hfU, hfI⟩ := hframes c hlisted i hi
  refine ⟨page, hpage, hI, hex, hentry, ?_⟩
  rw [hcontents, htable, hr.others _ hfU hfI]

include h hc hsrc hd hnot huser hframes hr hr'

/-- The first turn, then the others. -/
theorem CopiedRun.cons : CopiedRun mem s src dst D U part (d :: ds) (ps ++ qs) z := by
  obtain ⟨hsources, hlater⟩ := hr.later h hnot huser
  have hsplit := sourcePdes_cons_pos hsrc ds
  have hone : d ∈ sourcePdes mem src [d] := mem_sourcePdes.mpr ⟨List.mem_singleton_self d, hsrc⟩
  have hfresh : ∀ p ∈ ps, p < 2 ^ 20 ∧ p ∉ U := (h.offers.took hr.took).2.1
  have hfresh' : ∀ p ∈ qs, p < 2 ^ 20 ∧ p ∉ U ∪ {p | p ∈ ps} := (hc.offers.took hr'.took).2.1
  have hfirst := fun i hi => CopiedRun.first hc hsrc hd hnot hr hr' (i := i) hi
  have hrest := fun c hcs i hi =>
    CopiedRun.rest h hsrc hnot huser hframes hr hr' (c := c) (i := i) hcs hi
  -- a page taken later is not one of those of the first turn
  have hapart : ∀ i ∈ copiedWords mem src part d, ∀ c ∈ sourcePdes mem src ds,
      ∀ i' ∈ copiedWords mem src part c,
      frameOf (z.1 (frameOf (z.1 dst d)) i) ≠ frameOf (z.1 (frameOf (z.1 dst c)) i') := by
    intro i hi c hcs i' hi'
    obtain ⟨page, hpage, -, -, hentry, -⟩ := hfirst i hi
    obtain ⟨page', hpage', -, -, hentry', -⟩ := hrest c hcs i' hi'
    rw [hentry, hentry', (copiedEntry_spec (hfresh page hpage).1).2.1,
      (copiedEntry_spec (hfresh' page' hpage').1).2.1]
    rintro rfl
    exact (hfresh' page hpage').2 (Or.inr hpage)
  refine ⟨hr.took.append hr'.took, fun c hcs i hi => ?_, fun c hcs i hi c' hcs' i' hi' heq => ?_,
    hr'.source.trans hr.source, fun c hex => ?_, fun e he c hc768 hcd ht => ?_, fun f hf hmem => ?_,
    fun f hf hfree => ?_⟩
  · rw [hsplit] at hcs
    rcases List.mem_cons.mp hcs with rfl | hcs
    · obtain ⟨page, hpage, hI, hex, hentry, -, hcontents⟩ := hfirst i hi
      exact ⟨page, List.mem_append_left _ hpage, hI, hex, hentry, hcontents⟩
    · obtain ⟨page, hpage, hrest⟩ := hrest c hcs i hi
      exact ⟨page, List.mem_append_right _ hpage, hrest⟩
  · rw [hsplit] at hcs hcs'
    rcases List.mem_cons.mp hcs with rfl | hin
    · rcases List.mem_cons.mp hcs' with rfl | hin'
      · obtain ⟨-, -, -, -, -, hsame, -⟩ := hfirst i hi
        obtain ⟨-, -, -, -, -, hsame', -⟩ := hfirst i' hi'
        rw [hsame, hsame'] at heq
        exact hr.distinct c' hone i hi c' hone i' hi' heq
      · exact absurd heq (hapart i hi c' hin' i' hi')
    · rcases List.mem_cons.mp hcs' with rfl | hin'
      · exact absurd heq.symm (hapart i' hi' c hin i hi)
      · exact hr'.distinct c (hsources.symm ▸ hin) i ((hlater c hin).2.symm ▸ hi) c'
          (hsources.symm ▸ hin') i' ((hlater c' hin').2.symm ▸ hi') heq
  · have hpde := hr.pdes c hex
    rw [hr'.pdes c (by rw [hpde]; exact hex), hpde]
  · have hne : c ∉ [d] := fun hmem => hcd (List.mem_singleton.mp hmem ▸ List.mem_cons_self)
    have hword : y.1 e c = mem e c := by
      rcases he with rfl | rfl
      · rw [hr.source]
      · exact hr.pdes c ht.1
    have ht' : IsTable y.1 e c := by
      unfold IsTable
      rw [hword]
      exact ht
    have hsecond := hr'.tables e he c hc768 (fun hmem => hcd (List.mem_cons_of_mem d hmem)) ht'
    rw [hword] at hsecond
    rw [hsecond, hr.tables e he c hc768 hne ht]
  · exact hr.inUse f hf (hr'.inUse f (Or.inl hf) hmem)
  · rw [hr'.others f (Or.inl hf) fun hmem => hfree (hr.inUse f hf hmem), hr.others f hf hfree]

end Cons

/-- **The outer loop**, if it got to its end. -/
theorem Copying.copy_run (h : Copying boot kernelPgd D src dst U (mem, s))
    (hshare : testFlag flags ptcShare = false) (hcopy : testFlag flags ptcCopy = true)
    (hnd : ds.Nodup) (huser : ∀ d ∈ ds, d < kernelPdeStart)
    (hframes : SourceFrames mem src D U (copiedPart startAddr endAddr) ds)
    (hcall : ds.foldlM (copyPde allocPage pageIncUses flags src dst startAddr endAddr) (mem, s) =
      some y) :
    ∃ ps, CopiedRun mem s src dst D U (copiedPart startAddr endAddr) ds ps y ∧
      Copying boot kernelPgd D src dst (U ∪ {p | p ∈ ps}) y := by
  induction ds generalizing mem s U with
  | nil =>
    obtain rfl : y = (mem, s) := (Option.some.inj hcall).symm
    refine ⟨[], ⟨rfl, ?_, ?_, rfl, fun _ _ => rfl, fun _ _ _ _ _ _ => rfl, fun _ _ hmem => hmem,
      fun _ _ _ => rfl⟩, ?_⟩
    · intro c hc
      cases hc
    · intro c hc
      cases hc
    · simpa using h
  | cons d ds ih =>
    obtain ⟨hnot, hnd'⟩ := List.nodup_cons.mp hnd
    have huser' : ∀ c ∈ ds, c < kernelPdeStart := fun c hc => huser c (List.mem_cons_of_mem d hc)
    have hd := huser d List.mem_cons_self
    rw [List.foldlM_cons] at hcall
    obtain ⟨x, hfirst, hrest⟩ := Option.bind_eq_some_iff.mp hcall
    by_cases hsrc : entryExists (mem src d) = true
    · -- the source has a table at `d`: one turn, then the induction hypothesis with the pages it took
      have hsplit := sourcePdes_cons_pos hsrc ds
      have hone : SourceFrames mem src D U (copiedPart startAddr endAddr) [d] := by
        intro c hc
        apply hframes c
        rw [hsplit, List.mem_singleton.mp (mem_sourcePdes.mp hc).1]
        exact List.mem_cons_self
      have hothers : SourceFrames mem src D U (copiedPart startAddr endAddr) ds := by
        intro c hc
        apply hframes c
        rw [hsplit]
        exact List.mem_cons_of_mem d hc
      obtain ⟨ps, hr, hc⟩ := h.copy_pde hshare hcopy hd hsrc hone hfirst
      obtain ⟨qs, hr', hc'⟩ := ih hc hnd' huser' (hr.sourceFrames h hnot huser' hothers) hrest
      refine ⟨ps ++ qs, CopiedRun.cons h hc hsrc hd hnot huser' hframes hr hr', ?_⟩
      have hU : U ∪ {p | p ∈ ps ++ qs} = U ∪ {p | p ∈ ps} ∪ {p | p ∈ qs} := by
        ext p
        simp [or_assoc]
      rw [hU]
      exact hc'
    · -- the source has no table here, and the turn does nothing
      have hsources := sourcePdes_cons_neg hsrc ds
      rw [copyPde_absent hsrc] at hfirst
      obtain rfl := Option.some.inj hfirst
      unfold SourceFrames at hframes
      rw [hsources] at hframes
      obtain ⟨ps, hr, hc⟩ := ih h hnd' huser' hframes hrest
      refine ⟨ps, ⟨hr.took, ?_, ?_, hr.source, hr.pdes, fun e he c hc768 hcd => ?_, hr.inUse,
        hr.others⟩, hc⟩
      · rw [hsources]
        exact hr.new
      · rw [hsources]
        exact hr.distinct
      · exact hr.tables e he c hc768 fun hmem => hcd (List.mem_cons_of_mem d hmem)

/-! ### Private copies -/

/-- The entry `new` is for a private copy of the page that `old` is for: a frame taken in the call,
    with the same contents, and the same rights. -/
structure PrivateEntry (mem : PhysMem) (s : BuddyAllocator) (D : Set ℕ) (mem' : PhysMem)
    (s' : BuddyAllocator) (old new : BitVec 32) : Prop where
  present : entryExists new = entryExists old
  user : testFlag new pteUser = testFlag old pteUser
  writable : testFlag new pteWritable = testFlag old pteWritable
  taken : frameOf new ∈ freePages s ∧ frameOf new ∉ freePages s'
  apart : frameOf new ∉ InUse mem' D
  contents : mem' (frameOf new) = mem (frameOf old)

/-- What copying a range is to do: each page copied is in a frame of its own, and what the source
    maps is as before. -/
structure PrivateCopy (mem : PhysMem) (s : BuddyAllocator) (D : Set ℕ)
    (src dst startAddr endAddr : ℕ) (mem' : PhysMem) (s' : BuddyAllocator) : Prop where
  entries : ∀ va, Copied mem src startAddr endAddr va → ∃ old new, pteAt mem src va = some old ∧
    pteAt mem' dst va = some new ∧ PrivateEntry mem s D mem' s' old new
  distinct : ∀ va va', Copied mem src startAddr endAddr va → Copied mem src startAddr endAddr va' →
    (pteAt mem' dst va).map frameOf = (pteAt mem' dst va').map frameOf → va / pageSize = va' / pageSize
  source : ∀ va < kernelStartVirt, ∀ info, pageMap mem src (va / pageSize) = some info →
    mem' (paToPfn info.frame) = mem (paToPfn info.frame) ∧
      (s'.pages (paToPfn info.frame)).useCount = (s.pages (paToPfn info.frame)).useCount

section Range

variable {va : ℕ} (hstart : 4096 ∣ startAddr) (hend : 4096 ∣ endAddr) (hlt : startAddr < endAddr)
  (hle : endAddr ≤ kernelStartVirt)

include hstart hend hlt hle

/-- The frames that the loops come across are mapped by the source. -/
theorem sourceFrames_of_mapped (hok : PtableOk mem src)
    (hlive : ∀ va < kernelStartVirt, ∀ info, pageMap mem src (va / pageSize) = some info →
      paToPfn info.frame ∈ U ∧ paToPfn info.frame ∉ InUse mem D) :
    SourceFrames mem src D U (copiedPart startAddr endAddr) (userPdes startAddr endAddr) := by
  intro c hc i hi
  obtain ⟨hcd, hex⟩ := mem_sourcePdes.mp hc
  obtain ⟨hpart, hpte⟩ := List.mem_filter.mp hi
  have hi1024 := ((mem_copied hstart hend hlt hle).mp ⟨hcd, hpart⟩).1
  obtain ⟨huser, hd, ht, -⟩ := page_at (userPdes_lt hcd) hi1024
  have hmap := pageMap_pteAt hok huser
  rw [pteAt_of_exists (by rw [hd]; exact hex), hd, ht, Option.filter_some, if_pos hpte] at hmap
  obtain ⟨info, hinfo, hframe⟩ := Option.map_eq_some_iff.mp hmap
  rw [← hframe]
  exact hlive _ huser info hinfo

variable (hok : PtableOk mem src)
  (hr : CopiedRun mem s src dst D U (copiedPart startAddr endAddr) (userPdes startAddr endAddr) ps y)

include hok hr

/-- The entries of a copied page. -/
theorem CopiedRun.entry (hcopied : Copied mem src startAddr endAddr va) :
    ∃ old, ∃ page ∈ ps, pteAt mem src va = some old ∧ entryExists old = true ∧
      pteAt y.1 dst va = some (copiedEntry page) ∧ page ∉ InUse y.1 D ∧
      y.1 page = mem (frameOf old) := by
  have huser := hcopied.2.1.trans_le (copyEnd_le (hlt.trans_le hle) hle)
  obtain ⟨hc, hi⟩ := (copied_iff hok hstart hend hlt hle huser).mp hcopied
  obtain ⟨page, hpage, hI, hex, hentry, hcontents⟩ := hr.new _ hc _ hi
  refine ⟨_, page, hpage, pteAt_of_exists (mem_sourcePdes.mp hc).2, (List.mem_filter.mp hi).2, ?_, hI,
    hcontents⟩
  rw [pteAt_of_exists hex, hentry]

theorem CopiedRun.entry_distinct {va' : ℕ} (hcopied : Copied mem src startAddr endAddr va)
    (hcopied' : Copied mem src startAddr endAddr va')
    (heq : (pteAt y.1 dst va).map frameOf = (pteAt y.1 dst va').map frameOf) :
    va / pageSize = va' / pageSize := by
  have hbound := copyEnd_le (hlt.trans_le hle) hle
  have huser := hcopied.2.1.trans_le hbound
  have huser' := hcopied'.2.1.trans_le hbound
  obtain ⟨hc, hi⟩ := (copied_iff hok hstart hend hlt hle huser).mp hcopied
  obtain ⟨hc', hi'⟩ := (copied_iff hok hstart hend hlt hle huser').mp hcopied'
  obtain ⟨-, -, -, hex, -, -⟩ := hr.new _ hc _ hi
  obtain ⟨-, -, -, hex', -, -⟩ := hr.new _ hc' _ hi'
  rw [pteAt_of_exists hex, pteAt_of_exists hex'] at heq
  obtain ⟨hd, ht⟩ := hr.distinct _ hc _ hi _ hc' _ hi' (Option.some.inj heq)
  exact page_eq_of_index_eq (huser.trans (by decide)) (huser'.trans (by decide)) hd ht

end Range

/-- **`ptable_copy_range` with `PTC_COPY`** makes an equivalent private copy if and only if every page
    it copies is read-only and for the user in the source. -/
theorem copyRange_iff {n : ℕ} {F : ℕ → List ℕ} {L : Live} {S : Set ℕ} (hc : Core n s F L S S)
    (hn : n ≤ 2 ^ 20) (hdirs : Directories boot kernelPgd D mem) (hsrc : src ∈ D) (hdst : dst ∈ D)
    (hdisjoint : ∀ i < kernelPdeStart, ∀ j < kernelPdeStart, i ≠ j → IsTable mem src i →
      IsTable mem dst j → frameOf (mem src i) ≠ frameOf (mem dst j))
    (hfree : ∀ p ∈ freePages s, p ∉ InUse mem D)
    (hlive : ∀ va < kernelStartVirt, ∀ info, pageMap mem src (va / pageSize) = some info →
      paToPfn info.frame ∉ freePages s ∧ paToPfn info.frame ∉ InUse mem D)
    (hshare : testFlag flags ptcShare = false) (hcopy : testFlag flags ptcCopy = true)
    (hstart : 4096 ∣ startAddr) (hend : 4096 ∣ endAddr) (hlt : startAddr < endAddr)
    (hle : endAddr ≤ kernelStartVirt)
    (hcall : ptableCopyRange allocPage pageIncUses flags mem s src dst startAddr endAddr =
      some (mem', s')) :
    PrivateCopy mem s D src dst startAddr endAddr mem' s' ↔
      ∀ va, Copied mem src startAddr endAddr va → ∀ old, pteAt mem src va = some old →
        testFlag old pteUser = true ∧ testFlag old pteWritable = false := by
  have hok : Copying boot kernelPgd D src dst (freePages s)ᶜ (mem, s) :=
    ⟨hdirs, hsrc, hdst, hdisjoint, fun f hf hmem => hfree f hmem hf,
      hc.offers hn fun p hp hnot => hnot hp⟩
  have hsok : PtableOk mem src := hdirs.ok src hsrc
  have hrun := fun z => hok.copy_run (y := z) hshare hcopy (nodup_userPdes startAddr endAddr)
    (fun d hd => userPdes_lt hd) (sourceFrames_of_mapped hstart hend hlt hle hsok hlive)
  rw [ptableCopyRange_eq (hlt.trans_le hle) hle] at hcall
  swap
  · intro z hz
    obtain ⟨qs, -, hcz⟩ := hrun z hz
    rw [hcz.dirs.half dst hdst kernelPdeStart le_rfl (by decide)]
    exact hdirs.present kernelPdeStart le_rfl (by decide)
  obtain ⟨ps, hr, -⟩ := hrun _ hcall
  obtain ⟨-, hpages, hfree'⟩ := hc.took hr.took
  -- every new entry has the same rights, whatever those of the source are
  have hspec : ∀ page ∈ ps, frameOf (copiedEntry page) = page ∧
      testFlag (copiedEntry page) pteUser = true ∧
      testFlag (copiedEntry page) pteWritable = false ∧ entryExists (copiedEntry page) = true := by
    intro page hpage
    obtain ⟨hex, hframe, huser, hwritable⟩ := copiedEntry_spec ((hpages page hpage).1.trans_le hn)
    exact ⟨hframe, huser, hwritable, hex⟩
  constructor
  · intro h va hcopied old hold
    obtain ⟨old', new, hold', hnew, hprivate⟩ := h.entries va hcopied
    obtain ⟨-, page, hpage, -, -, hentry, -, -⟩ := hr.entry hstart hend hlt hle hsok hcopied
    obtain rfl := Option.some.inj (hold.symm.trans hold')
    obtain rfl := Option.some.inj (hnew.symm.trans hentry)
    obtain ⟨-, huser, hwritable, -⟩ := hspec page hpage
    rw [← hprivate.user, ← hprivate.writable]
    exact ⟨huser, hwritable⟩
  · intro hrights
    refine ⟨fun va hcopied => ?_, fun va va' hcopied hcopied' => ?_, fun va hva info hinfo => ?_⟩
    · obtain ⟨old, page, hpage, hold, hex, hentry, hI, hcontents⟩ :=
        hr.entry hstart hend hlt hle hsok hcopied
      obtain ⟨hframe, huser, hwritable, hexists⟩ := hspec page hpage
      obtain ⟨holduser, holdwritable⟩ := hrights va hcopied old hold
      refine ⟨old, copiedEntry page, hold, hentry, ?_, ?_, ?_, ?_, ?_, ?_⟩
      · rw [hexists, hex]
      · rw [huser, holduser]
      · rw [hwritable, holdwritable]
      · rw [hframe, hfree']
        exact ⟨(hpages page hpage).2, fun hmem => hmem.2 hpage⟩
      · rw [hframe]
        exact hI
      · rw [hframe]
        exact hcontents
    · exact hr.entry_distinct hstart hend hlt hle hsok hcopied hcopied'
    · obtain ⟨hused, hI⟩ := hlive va hva info hinfo
      have hnot : paToPfn info.frame ∉ ps := fun hmem => hused (hpages _ hmem).2
      exact ⟨hr.others _ hused hI, hr.took.useCount hnot⟩

theorem copyRange_iff_readOnly : ∃ mem' s',
    ptableCopyRange allocPage pageIncUses ptcCopy (twoDirectories 0 true) fourPages 1 2 0x400000
      0x402000 = some (mem', s') ∧
    PrivateCopy (twoDirectories 0 true) fourPages {1, 2} 1 2 0x400000 0x402000 mem' s' := by
  obtain ⟨F, L, S, hc⟩ := fourPages_core
  have hdone : (ptableCopyRange allocPage pageIncUses ptcCopy (twoDirectories 0 true) fourPages 1 2
      0x400000 0x402000).isSome = true := by decide +kernel
  obtain ⟨⟨mem', s'⟩, hcall⟩ := Option.isSome_iff_exists.mp hdone
  refine ⟨mem', s', hcall, (copyRange_iff hc (by decide) (directories_twoDirectories 0 true)
    (Or.inl rfl) (Or.inr rfl) (fun i hi j hj _ => twoDirectories_disjoint 0 true i hi j hj)
    (twoDirectories_unused 0 true) (twoDirectories_live 0 true) (by decide) (by decide) (by decide)
    (by decide) (by decide) (by decide) hcall).mpr fun va hcopied old hold => ?_⟩
  -- both pages are mapped for the user, and read-only
  have huser : va < kernelStartVirt := hcopied.2.1.trans_le (by decide)
  rcases pteAt_twoDirectories huser hcopied.2.2 with hpte | hpte
  · obtain rfl := Option.some.inj (hold.symm.trans hpte)
    decide
  · obtain rfl := Option.some.inj (hold.symm.trans hpte)
    decide

/-- **The right to write is lost** in the copy of a writable page. -/
theorem copyRange_drops_writable :
    ¬ ∀ (boot mem mem' : PhysMem) (kernelPgd src dst startAddr endAddr n : ℕ) (D S : Set ℕ)
      (s s' : BuddyAllocator) (F : ℕ → List ℕ) (L : Live), Core n s F L S S → n ≤ 2 ^ 20 →
      Directories boot kernelPgd D mem → src ∈ D → dst ∈ D →
      (∀ i < kernelPdeStart, ∀ j < kernelPdeStart, i ≠ j → IsTable mem src i → IsTable mem dst j →
        frameOf (mem src i) ≠ frameOf (mem dst j)) →
      (∀ p ∈ freePages s, p ∉ InUse mem D) →
      (∀ va < kernelStartVirt, ∀ info, pageMap mem src (va / pageSize) = some info →
        paToPfn info.frame ∉ freePages s ∧ paToPfn info.frame ∉ InUse mem D) →
      4096 ∣ startAddr → 4096 ∣ endAddr → startAddr < endAddr → endAddr ≤ kernelStartVirt →
      ptableCopyRange allocPage pageIncUses ptcCopy mem s src dst startAddr endAddr =
        some (mem', s') → PrivateCopy mem s D src dst startAddr endAddr mem' s' := by
  intro h
  obtain ⟨F, L, S, hc⟩ := fourPages_core
  have hlost : (ptableCopyRange allocPage pageIncUses ptcCopy (twoDirectories vmMapWrite false)
      fourPages 1 2 0x400000 0x401000).map (fun r =>
        (pteAt r.1 2 0x400000).map fun new => testFlag new pteWritable) = some (some false) := by
    decide +kernel
  obtain ⟨⟨mem', s'⟩, hcall, hnew⟩ := Option.map_eq_some_iff.mp hlost
  have hcopy := h _ _ mem' 1 1 2 0x400000 0x401000 64 {1, 2} S fourPages s' F L hc (by decide)
    (directories_twoDirectories vmMapWrite false) (Or.inl rfl) (Or.inr rfl)
    (fun i hi j hj _ => twoDirectories_disjoint vmMapWrite false i hi j hj)
    (twoDirectories_unused vmMapWrite false) (twoDirectories_live vmMapWrite false)
    (by decide) (by decide) (by decide) (by decide) hcall
  obtain ⟨old, new, hold, hpte, hprivate⟩ := hcopy.entries 0x400000 ⟨le_rfl, by decide, by decide⟩
  -- the entry of the source has the right to write, that of the copy has not
  have hwas : (pteAt (twoDirectories vmMapWrite false) 1 0x400000).map
      (fun old => testFlag old pteWritable) = some true := by decide
  rw [hold] at hwas
  rw [hpte] at hnew
  have hwritable : testFlag old pteWritable = true := Option.some.inj hwas
  have hreadOnly : testFlag new pteWritable = false := Option.some.inj hnew
  have heq := hprivate.writable
  rw [hwritable, hreadOnly] at heq
  cases heq

end Rotary
