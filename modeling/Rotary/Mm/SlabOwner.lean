import Rotary.Mm.SlabRun

namespace Rotary

open Lib

/-!
# Which addresses a slab owns

`slab_cache_has_addr` compares an address with the stored `end_addr` of a slab, `slab_free` with
`start_addr` plus the size of the block.  The objects begin `sizeof(slab_header_t)` bytes into the
block, so the second bound lies that much behind the first.

* `ownership_iff` — the two agree on an address exactly if it is not among these bytes behind the
  end of a slab.
-/

/-- The address lies between the `start_addr` and the `end_addr` of a slab of the cache. -/
def SlabState.Owns (st : SlabState) (p : ℕ) : Prop :=
  ∃ h ∈ slabList st.mem st.cache,
    load st.mem (SlabHeader.startAddr h) ≤ p ∧ p < load st.mem (SlabHeader.endAddr h)

/-- The address lies in the `sizeof(slab_header_t)` bytes behind the end of a slab. -/
def SlabState.Behind (st : SlabState) (p : ℕ) : Prop :=
  ∃ h ∈ slabList st.mem st.cache, load st.mem (SlabHeader.endAddr h) ≤ p ∧
    p < load st.mem (SlabHeader.endAddr h) + sizeofSlabHeader

/-- `slab_free` and `slab_cache_has_addr` agree on who owns the address. -/
structure SlabState.AgreesOn (st : SlabState) (p : ℕ) : Prop where
  free_iff : (∃ m', slabFree st.mem st.cache p = some (.success, m')) ↔
    slabCacheHasAddr st.mem st.cache p = some true
  owns_iff : slabCacheHasAddr st.mem st.cache p = some true ↔ st.Owns p
  refused : ¬ st.Owns p → slabFree st.mem st.cache p = some (.error, st.mem)

variable {m : ByteMem} {z p : ℕ} {cache : SlabCache} {slabs : List Slab} {st : SlabState}

/-- The inner loop of `slab_free` comes to an end, whatever the address. -/
theorem insertCell_ends {c fuel : ℕ} {f : List ℕ} (h : Chain m (load m c) f)
    (hfuel : f.length < fuel) : ∃ cell, insertCell m p fuel c = some cell := by
  induction f generalizing c fuel with
  | nil =>
    obtain ⟨fuel, rfl⟩ := Nat.exists_eq_succ_of_ne_zero (Nat.ne_zero_of_lt hfuel)
    have hnull : load m c = 0 := h
    exact ⟨c, if_pos hnull⟩
  | cons y f ih =>
    obtain ⟨fuel, rfl⟩ := Nat.exists_eq_succ_of_ne_zero (Nat.ne_zero_of_lt hfuel)
    obtain ⟨rfl, hne, htail⟩ := chain_cons.mp h
    rw [insertCell, if_neg hne]
    split
    · exact ⟨c, rfl⟩
    · exact ih htail (Nat.lt_of_succ_lt_succ hfuel)

/-- **`slab_free`** of any address: accepted if it passes the range test of some slab, and else
    refused without a store. -/
theorem slabFree_cases (h : CacheAt m cache slabs) (p : ℕ) :
    (∃ s ∈ slabs, inSlab m p s.base = true ∧ ∃ m', slabFree m cache p = some (.success, m')) ∨
    (∀ s ∈ slabs, inSlab m p s.base = false) ∧ slabFree m cache p = some (.error, m) := by
  rcases h.firstSuch_cases (inSlab m p) with ⟨hnone, heq⟩ | ⟨pre, s, post, rfl, -, htest, heq⟩
  · refine Or.inr ⟨hnone, ?_⟩
    unfold slabFree
    rw [heq]
    rfl
  · have hs : s ∈ pre ++ s :: post := by simp
    have hslab := h.slab s hs
    obtain ⟨cell, hcell⟩ := insertCell_ends (p := p) hslab.chain
      (hslab.chain.length_lt (load_lt m _))
    have hne : s.base ≠ 0 := Nat.ne_of_gt hslab.placed.pos
    refine Or.inl ⟨s, hs, htest, linkObject m s.base p cell, ?_⟩
    unfold slabFree
    rw [heq]
    show (if s.base = 0 then _ else _) = _
    rw [if_neg hne]
    show (insertCell m p (2 ^ 32) _).bind _ = _
    rw [hcell]
    rfl

/-- The two bounds in the headers, in terms of the blocks. -/
theorem SlabState.Inv.exists_header_iff (h : st.Inv z slabs) (P : ℕ → ℕ → Prop) :
    (∃ b ∈ slabList st.mem st.cache, P (load st.mem (SlabHeader.startAddr b))
      (load st.mem (SlabHeader.endAddr b))) ↔
      ∃ s ∈ slabs, P (s.base + sizeofSlabHeader) (s.base + slabBytes) := by
  rw [h.cacheAt.slabList_eq]
  simp only [List.mem_map, exists_exists_and_eq_and]
  refine exists_congr fun s => and_congr_right fun hs => ?_
  rw [(h.cacheAt.slab s hs).start, (h.cacheAt.slab s hs).stop]

theorem SlabState.Inv.owns_iff (h : st.Inv z slabs) :
    st.Owns p ↔ ∃ s ∈ slabs, s.base + sizeofSlabHeader ≤ p ∧ p < s.base + slabBytes :=
  h.exists_header_iff fun start stop => start ≤ p ∧ p < stop

theorem SlabState.Inv.behind_iff (h : st.Inv z slabs) :
    st.Behind p ↔ ∃ s ∈ slabs, s.base + slabBytes ≤ p ∧
      p < s.base + slabBytes + sizeofSlabHeader :=
  h.exists_header_iff fun _ stop => stop ≤ p ∧ p < stop + sizeofSlabHeader

theorem SlabState.Inv.hasAddr_iff (h : st.Inv z slabs) :
    slabCacheHasAddr st.mem st.cache p = some true ↔ st.Owns p := by
  obtain ⟨b, hb, hiff⟩ := slabCacheHasAddr_spec h.cacheAt p
  rw [hb, h.owns_iff, Option.some.injEq]
  exact hiff

/-- No slab owns the bytes behind the end of another: a block begins with its header. -/
theorem SlabState.Inv.not_owns_of_behind (h : st.Inv z slabs) (hbehind : st.Behind p) :
    ¬ st.Owns p := by
  rw [h.owns_iff]
  rw [h.behind_iff] at hbehind
  intro ⟨s, hs, hlo, hhi⟩
  obtain ⟨t, ht, hlo', hhi'⟩ := hbehind
  by_cases hbase : s.base = t.base
  · omega
  · have hap := h.cacheAt.apart_of_ne hs ht hbase
    unfold Apart at hap
    omega

/-- **Ownership**, in any state with the invariant. -/
theorem SlabState.Inv.agreesOn_iff (h : st.Inv z slabs) : st.AgreesOn p ↔ ¬ st.Behind p := by
  constructor
  · intro hagrees hbehind
    -- such an address passes the test of `slab_free` for the slab before it
    have hnot := h.not_owns_of_behind hbehind
    obtain ⟨s, hs, hlo, hhi⟩ := h.behind_iff.mp hbehind
    have hle : sizeofSlabHeader ≤ slabBytes := by decide
    have hin : inSlab st.mem p s.base = true :=
      (h.cacheAt.slab s hs).inSlab_iff.mpr (by omega)
    rcases slabFree_cases h.cacheAt p with ⟨-, -, -, hfree⟩ | ⟨hnone, -⟩
    · exact hnot (hagrees.owns_iff.mp (hagrees.free_iff.mp hfree))
    · rw [hnone s hs] at hin
      cases hin
  · intro hbehind
    have hin : ∀ s ∈ slabs, inSlab st.mem p s.base = true → st.Owns p := by
      intro s hs htest
      obtain ⟨hlo, hhi⟩ := (h.cacheAt.slab s hs).inSlab_iff.mp htest
      by_contra hnot
      rw [h.owns_iff] at hnot
      refine hbehind (h.behind_iff.mpr ⟨s, hs, ?_, by omega⟩)
      by_contra hlt
      exact hnot ⟨s, hs, hlo, by omega⟩
    rcases slabFree_cases h.cacheAt p with ⟨s, hs, htest, hfree⟩ | ⟨hnone, hfree⟩
    · have howns := hin s hs htest
      exact ⟨iff_of_true hfree (h.hasAddr_iff.mpr howns), h.hasAddr_iff,
        fun hnot => absurd howns hnot⟩
    · have hnot : ¬ st.Owns p := by
        rw [h.owns_iff]
        intro ⟨s, hs, hlo, hhi⟩
        have htest : inSlab st.mem p s.base = true :=
          (h.cacheAt.slab s hs).inSlab_iff.mpr (by omega)
        rw [hnone s hs] at htest
        cases htest
      refine ⟨iff_of_false ?_ fun hhas => hnot (h.hasAddr_iff.mp hhas), h.hasAddr_iff,
        fun _ => hfree⟩
      rw [hfree]
      simp

/-- **`slab_free` and `slab_cache_has_addr`**, in every state of a run: they agree on an address
    exactly if it does not lie in the `sizeof(slab_header_t)` bytes behind the end of a slab. -/
theorem ownership_iff (hz : 4 ≤ z) (hmax : z ≤ 16 * pageSize - sizeofSlabHeader)
    (hrun : SlabRun (SlabState.start z m) st) (p : ℕ) : st.AgreesOn p ↔ ¬ st.Behind p := by
  obtain ⟨slabs, h⟩ := SlabRun.inv hz hmax hrun
  exact h.agreesOn_iff

/-- A cache with one slab, made by one call. -/
theorem oneSlab : ∃ st, SlabRun (SlabState.start 32768 fun _ => 0) st ∧
    slabList st.mem st.cache = [pageVa 16] ∧
      load st.mem (SlabHeader.endAddr (pageVa 16)) = pageVa 16 + slabBytes := by
  have hempty : slabList (fun _ => 0) (initSlabCache 32768) = [] :=
    (SlabState.start_inv 32768 fun _ => 0).cacheAt.slabList_eq
  have hfresh : ∀ p ∈ some 16, FreshBlock (slabList (fun _ => 0) (initSlabCache 32768)) p := by
    intro p hp
    obtain rfl : 16 = p := Option.some.inj hp
    rw [hempty]
    exact ⟨by decide, by decide, by simp⟩
  have hcalled : (slabMalloc (fun _ => 0) (initSlabCache 32768) (some 16)).map
      (fun r => (slabList r.2.1 r.2.2, load r.2.1 (SlabHeader.endAddr (pageVa 16)))) =
      some ([pageVa 16], pageVa 16 + slabBytes) := by decide +kernel
  obtain ⟨⟨x, m', cache'⟩, hcall, heq⟩ := Option.map_eq_some_iff.mp hcalled
  obtain ⟨hlist, hend⟩ := Prod.mk.inj heq
  exact ⟨_, .single (.malloc _ (some 16) hfresh x m' cache' hcall), hlist, hend⟩

theorem ownership_iff_null :
    ∃ st, SlabRun (SlabState.start 32768 fun _ => 0) st ∧ st.AgreesOn 0 := by
  obtain ⟨st, hrun, hlist, hend⟩ := oneSlab
  refine ⟨st, hrun, (ownership_iff (by decide) (by decide) hrun 0).mpr ?_⟩
  rintro ⟨h, hmem, hlo, -⟩
  rw [hlist, List.mem_singleton] at hmem
  rw [hmem, hend] at hlo
  exact absurd hlo (by decide)

/-- **The end of a slab** is accepted by `slab_free`, and `slab_cache_has_addr` disowns it. -/
theorem slab_free_behind_end :
    ¬ ∀ (z : ℕ) (m : ByteMem) (st : SlabState), 4 ≤ z → z ≤ 16 * pageSize - sizeofSlabHeader →
      SlabRun (SlabState.start z m) st → ∀ p < 2 ^ 32, st.AgreesOn p := by
  intro h
  obtain ⟨st, hrun, hlist, hend⟩ := oneSlab
  obtain ⟨slabs, hinv⟩ := SlabRun.inv (by decide) (by decide) hrun
  have hagrees := h 32768 _ st (by decide) (by decide) hrun (pageVa 16 + slabBytes) (by decide)
  refine hinv.agreesOn_iff.mp hagrees ⟨pageVa 16, ?_, ?_⟩
  · rw [hlist]
    exact List.mem_singleton_self _
  · rw [hend]
    exact ⟨le_rfl, by decide⟩

end Rotary
