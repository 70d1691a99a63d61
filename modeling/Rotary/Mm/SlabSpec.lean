import Rotary.Mm.SlabInv

namespace Rotary

open Lib

/-!
# The slab operations on the representation

One specification per function of `kernel/mm/slab.c`: the abstract slabs after the call, the
value returned, and the bytes that stay as they were.

* `slabAllocFromSlab_spec` — the head of the free list is taken off;
* `linkObject_spec` — the sorted insertion puts the object back in its place;
* `newSlab_spec` — the carving loop threads every slot;
* `slabMalloc_spec` / `slabFree_spec` — the two entry points, over a whole cache.
-/

variable {m m' : ByteMem} {z base page x y : ℕ} {s : Slab} {cache : SlabCache}
  {slabs pre post : List Slab} {f f' rest : List ℕ}

/-! ### One slab -/

theorem slotCount_le (z : ℕ) : slotCount z ≤ slabBytes - sizeofSlabHeader := Nat.div_le_self _ _

theorem SlabAt.length_le (h : SlabAt m z s) : s.free.length ≤ slotCount z := by
  have hnd : s.free.Nodup := h.chain.nodup
  have hsub : s.free ⊆ allSlots z s.base := fun x hx => mem_allSlots.mpr (h.slot x hx)
  have hlen := (hnd.subperm hsub).length_le
  simpa [allSlots] using hlen

/-- A new free list in the same slab, from stores into `free_count`, `free_list` and objects. -/
theorem SlabAt.refill (h : SlabAt m z ⟨base, f⟩)
    (hsame : ∀ a, base + 4 ≤ a → a < base + 36 → ¬ (base + 20 ≤ a ∧ a < base + 24) → m' a = m a)
    (hcount : load m' (SlabHeader.freeCount base) = f'.length)
    (hchain : Chain m' (load m' (SlabHeader.freeList base)) f')
    (hsorted : f'.Pairwise (· < ·)) (hslot : ∀ x ∈ f', IsSlot z base x) :
    SlabAt m' z ⟨base, f'⟩ := by
  have hword : ∀ d, 4 ≤ d → d ≤ 32 → d ≤ 16 ∨ 24 ≤ d →
      load m' (base + d) = load m (base + d) := by
    intro d h4 h32 hd
    apply load_congr
    intro a h1 h2
    exact hsame a (by omega) (by omega) (by omega)
  exact ⟨h.placed, (hword 4 (by decide) (by decide) (by decide)).trans h.start,
    (hword 8 (by decide) (by decide) (by decide)).trans h.stop,
    (hword 12 (by decide) (by decide) (by decide)).trans h.count,
    (hword 24 (by decide) (by decide) (by decide)).trans h.order,
    hcount, hchain, hsorted, hslot⟩

/-- **`slab_alloc_from_slab`** on a slab with a free object takes the first one. -/
theorem slabAllocFromSlab_spec (h : SlabAt m z ⟨base, x :: rest⟩) :
    ∃ m', slabAllocFromSlab m base = (x, m') ∧ SlabAt m' z ⟨base, rest⟩ ∧
      ∀ a, a < base + 4 ∨ base + sizeofSlabHeader ≤ a → m' a = m a := by
  obtain ⟨hhead, hne, htail⟩ := chain_cons.mp h.chain
  have hcount : load m (SlabHeader.freeCount base) = rest.length + 1 := h.freeCount
  have hlt : rest.length + 1 < 2 ^ 32 := hcount ▸ load_lt m _
  let m₁ := store m (SlabHeader.freeList base) (load m x)
  let m₂ := store m₁ (SlabHeader.freeCount base) (dec32 (load m₁ (SlabHeader.freeCount base)))
  have hframe : ∀ a, ¬ (base + 36 ≤ a ∧ a < base + 40) → ¬ (base + 20 ≤ a ∧ a < base + 24) →
      m₂ a = m a := by
    intro a h1 h2
    show store (store m (base + 36) _) (base + 20) _ a = m a
    rw [store_of_not_mem (by omega), store_of_not_mem (by omega)]
  have hcount₁ : load m₁ (SlabHeader.freeCount base) = rest.length + 1 := by
    rw [← hcount]
    exact load_store_of_disjoint (Or.inl (by unfold SlabHeader.freeList SlabHeader.freeCount; omega))
  have hlink : load m₂ (SlabHeader.freeList base) = load m x := by
    have hdisj : load m₂ (SlabHeader.freeList base) = load m₁ (SlabHeader.freeList base) :=
      load_store_of_disjoint
        (Or.inr (by unfold SlabHeader.freeList SlabHeader.freeCount; omega))
    rw [hdisj]
    exact load_store m _ (load_lt m x)
  -- the free objects are behind the header, where nothing is stored
  have hrest : ∀ y ∈ rest, load m₂ y = load m y := by
    intro y hy
    have hb : base + 40 ≤ y := (h.slot y (List.mem_cons_of_mem x hy)).header_le
    apply load_congr
    intro a h1 h2
    exact hframe a (by omega) (by omega)
  refine ⟨m₂, ?_, ?_, ?_⟩
  · have hlist : load m (SlabHeader.freeList base) = x := hhead
    have hpos : ¬ load m (SlabHeader.freeCount base) = 0 := by omega
    unfold slabAllocFromSlab
    rw [if_neg hpos, if_neg (hlist ▸ hne)]
    simp only [hlist]
    rfl
  · refine h.refill ?_ ?_ ?_ (List.pairwise_cons.mp h.sorted).2 ?_
    · intro a h1 h2 h3
      exact hframe a (by omega) h3
    · show load (store m₁ (SlabHeader.freeCount base) _) (SlabHeader.freeCount base) = rest.length
      rw [hcount₁, dec32_of_pos (Nat.succ_pos _) hlt]
      exact load_store m₁ _ (by omega)
    · rw [hlink]
      exact htail.congr hrest
    · exact fun y hy => h.slot y (List.mem_cons_of_mem x hy)
  · intro a ha
    unfold sizeofSlabHeader at ha
    exact hframe a (by omega) (by omega)

/-- The inner loop of `slab_free` stops between the smaller and the larger free objects. -/
theorem insertCell_spec {c fuel : ℕ} (h : Chain m (load m c) f) (hsorted : f.Pairwise (· < ·))
    (hx : x ∉ f) (hfuel : f.length < fuel) :
    ∃ pre post, f = pre ++ post ∧ (∀ y ∈ pre, y < x) ∧ (∀ y ∈ post, x < y) ∧
      insertCell m x fuel c = some (lastCell c pre) := by
  induction f generalizing c fuel with
  | nil =>
    obtain ⟨fuel, rfl⟩ := Nat.exists_eq_succ_of_ne_zero (Nat.ne_of_gt hfuel)
    have hnull : load m c = 0 := h
    exact ⟨[], [], rfl, by simp, by simp, by simp [insertCell, hnull]⟩
  | cons y f ih =>
    obtain ⟨fuel, rfl⟩ := Nat.exists_eq_succ_of_ne_zero (Nat.ne_of_gt (Nat.zero_lt_of_lt hfuel))
    obtain ⟨hhead, hne, htail⟩ := chain_cons.mp h
    obtain ⟨habove, hsorted'⟩ := List.pairwise_cons.mp hsorted
    by_cases hlt : x < y
    · refine ⟨[], y :: f, rfl, by simp, ?_, by simp [insertCell, hhead, hne, hlt]⟩
      intro w hw
      rcases List.mem_cons.mp hw with rfl | hw
      · exact hlt
      · exact hlt.trans (habove w hw)
    · have hxy : x ≠ y := fun heq => hx (heq ▸ List.mem_cons_self)
      have hyx : y < x := by omega
      obtain ⟨pre, post, rfl, hpre, hpost, hcell⟩ := ih htail hsorted'
        (fun hmem => hx (List.mem_cons_of_mem y hmem)) (by simpa using hfuel)
      refine ⟨y :: pre, post, rfl, ?_, hpost, ?_⟩
      · intro w hw
        rcases List.mem_cons.mp hw with rfl | hw
        · exact hyx
        · exact hpre w hw
      · simp [insertCell, hhead, hne, hlt, hcell]

/-- Words of the free list: the link in the header, or the first word of a slot. -/
theorem words_apart {u w : ℕ} (hz : 4 ≤ z) (hu : u = base + 36 ∨ IsSlot z base u)
    (hw : w = base + 36 ∨ IsSlot z base w) (hne : u ≠ w) : u + 4 ≤ w ∨ w + 4 ≤ u := by
  rcases hu with rfl | hu
  · rcases hw with rfl | hw
    · exact absurd rfl hne
    · have := hw.header_le
      omega
  · rcases hw with rfl | hw
    · have := hu.header_le
      omega
    · have := hu.apart hw hne
      omega

/-- The words behind the stores of `slab_free`, which goes to `x` from the word at `cell`. -/
theorem linkObject_words {cell : ℕ} (hx : base + 40 ≤ x) (hx32 : x < 2 ^ 32) (hc : base + 36 ≤ cell)
    (hcx : cell + 4 ≤ x ∨ x + 4 ≤ cell) :
    load (linkObject m base x cell) cell = x ∧
      load (linkObject m base x cell) x = load m cell ∧
      (∀ y, base + 36 ≤ y → y + 4 ≤ cell ∨ cell + 4 ≤ y → y + 4 ≤ x ∨ x + 4 ≤ y →
        load (linkObject m base x cell) y = load m y) ∧
      load (linkObject m base x cell) (base + 20) = inc32 (load m (base + 20)) ∧
      ∀ a, a < x ∨ x + 4 ≤ a → a < cell ∨ cell + 4 ≤ a → a < base + 20 ∨ base + 24 ≤ a →
        linkObject m base x cell a = m a := by
  let m₁ := store m x (load m cell)
  let m₂ := store m₁ cell x
  let m₃ := store m₂ (base + 20) (inc32 (load m₂ (base + 20)))
  have hunfold : linkObject m base x cell = m₃ := rfl
  have hword : ∀ y, base + 36 ≤ y → load m₃ y = load m₂ y := fun y hy =>
    load_store_of_disjoint (by omega)
  -- a word apart from both stores
  have hapart : ∀ y, y + 4 ≤ cell ∨ cell + 4 ≤ y → y + 4 ≤ x ∨ x + 4 ≤ y →
      load m₂ y = load m y := by
    intro y hyc hyx
    have h12 : load m₂ y = load m₁ y := load_store_of_disjoint (by omega)
    have h01 : load m₁ y = load m y := load_store_of_disjoint (by omega)
    exact h12.trans h01
  rw [hunfold]
  refine ⟨?_, ?_, ?_, ?_, ?_⟩
  · rw [hword cell hc]
    exact load_store m₁ cell hx32
  · rw [hword x (by omega)]
    have h12 : load m₂ x = load m₁ x := load_store_of_disjoint (by omega)
    exact h12.trans (load_store m x (load_lt m cell))
  · intro y hy hyc hyx
    rw [hword y hy]
    exact hapart y hyc hyx
  · have hcount : load m₂ (base + 20) = load m (base + 20) := hapart _ (by omega) (by omega)
    rw [← hcount]
    exact load_store m₂ _ (Nat.mod_lt _ (by decide))
  · intro a hax hac hacount
    show store (store (store m x _) cell _) (base + 20) _ a = m a
    rw [store_of_not_mem (by omega), store_of_not_mem (by omega), store_of_not_mem (by omega)]

/-- **The stores of `slab_free`.**  A slot that is not free gets its place in the free list. -/
theorem linkObject_spec (h : SlabAt m z ⟨base, f⟩) (hz : 4 ≤ z) (hx : IsSlot z base x)
    (hnot : x ∉ f) :
    ∃ cell f', insertCell m x walkLimit (SlabHeader.freeList base) = some cell ∧
      SlabAt (linkObject m base x cell) z ⟨base, f'⟩ ∧ (∀ y, y ∈ f' ↔ y = x ∨ y ∈ f) ∧
      ∀ a, a < base + 4 ∨ base + slabBytes ≤ a → linkObject m base x cell a = m a := by
  have hchain : Chain m (load m (base + 36)) f := h.chain
  have hlen : f.length < walkLimit := hchain.length_lt (load_lt m _)
  obtain ⟨pre, post, rfl, hpre, hpost, hcell⟩ := insertCell_spec hchain h.sorted hnot hlen
  have hslot : ∀ y ∈ pre ++ post, IsSlot z base y := h.slot
  have hx40 : base + 40 ≤ x := hx.header_le
  have hx32 : x < 2 ^ 32 := by
    have h1 := hx.bounds.2
    have h2 : base + slabBytes < 2 ^ 32 := h.placed.fits
    omega
  set cell := lastCell (base + 36) pre with hdef
  -- every word involved is the link in the header or the first word of a slot
  have hwords : ∀ y ∈ (base + 36) :: (pre ++ post), y = base + 36 ∨ IsSlot z base y := by
    intro y hy
    rcases List.mem_cons.mp hy with rfl | hy
    · exact Or.inl rfl
    · exact Or.inr (hslot y hy)
  have hcmem : cell ∈ (base + 36) :: (pre ++ post) := by
    have hm := lastCell_mem (base + 36) pre
    simp only [List.mem_cons, List.mem_append] at hm ⊢
    exact hm.imp id Or.inl
  have hge : ∀ y ∈ (base + 36) :: (pre ++ post), base + 36 ≤ y := by
    intro y hy
    rcases hwords y hy with rfl | hy
    · exact Nat.le_refl _
    · have := hy.header_le
      omega
  have hnex : ∀ y ∈ (base + 36) :: (pre ++ post), y ≠ x := by
    rintro y hy rfl
    rcases List.mem_cons.mp hy with heq | hy
    · omega
    · exact hnot hy
  have hcx := words_apart hz (hwords cell hcmem) (Or.inr hx) (hnex cell hcmem)
  have hc36 := hge cell hcmem
  obtain ⟨hat, hnew, hapart, hcount, hframe⟩ := linkObject_words (m := m) hx40 hx32 hc36 hcx
  have hother : ∀ y ∈ (base + 36) :: (pre ++ post), y ≠ cell →
      load (linkObject m base x cell) y = load m y := fun y hy hyc =>
    hapart y (hge y hy) (words_apart hz (hwords y hy) (hwords cell hcmem) hyc)
      (words_apart hz (hwords y hy) (Or.inr hx) (hnex y hy))
  refine ⟨cell, pre ++ x :: post, hcell, ?_, by simp; tauto, ?_⟩
  · refine h.refill ?_ ?_ ?_ ?_ ?_
    · intro a h1 h2 h3
      exact hframe a (by omega) (by omega) (by omega)
    · have hle : (pre ++ post).length ≤ slotCount z := h.length_le
      have hsmall := slotCount_le z
      unfold slabBytes sizeofSlabHeader slabDefaultOrder pageSize at hsmall
      have hfree : load m (base + 20) = (pre ++ post).length := h.freeCount
      show load (linkObject m base x cell) (base + 20) = _
      rw [hcount, hfree, inc32_of_lt (by omega)]
      simp only [List.length_append, List.length_cons]
      omega
    · have hc : base + 36 ∉ pre ++ post := by
        intro hmem
        have := (hslot _ hmem).header_le
        omega
      exact hchain.insert hc (by omega) hat hnew hother
    · obtain ⟨hp, hq, -⟩ := List.pairwise_append.mp h.sorted
      refine List.pairwise_append.mpr ⟨hp, List.pairwise_cons.mpr ⟨hpost, hq⟩, ?_⟩
      intro y hy w hw
      rcases List.mem_cons.mp hw with rfl | hw
      · exact hpre y hy
      · exact (hpre y hy).trans (hpost w hw)
    · intro y hy
      rcases List.mem_append.mp hy with hy | hy
      · exact hslot y (List.mem_append_left _ hy)
      · rcases List.mem_cons.mp hy with rfl | hy
        · exact hx
        · exact hslot y (List.mem_append_right _ hy)
  · intro a ha
    have hin : cell + 4 ≤ base + slabBytes := by
      rcases hwords cell hcmem with heq | hc
      · have hsize : 40 ≤ slabBytes := by decide
        omega
      · have := hc.bounds
        omega
    have hxin := hx.bounds
    exact hframe a (by omega) (by omega) (by omega)

/-! ### A new slab -/

/-- The carving loop from the second object on: the words behind `prev` thread `count` objects
    from `current`. -/
theorem carve_spec (hz : 4 ≤ z) (link count prev current : ℕ) (m : ByteMem)
    (hprev : prev ≠ 0) (hnext : prev + 4 ≤ current) (hfits : current + count * z < 2 ^ 32) :
    ∃ last m', carve link z count prev current m = (last, m') ∧ last ≠ 0 ∧
      Chain (store m' last 0) (load (store m' last 0) prev)
        ((List.range count).map fun i => current + i * z) ∧
      ∀ a, a < prev ∨ (prev + 4 ≤ a ∧ a < current) ∨ current + count * z ≤ a →
        store m' last 0 a = m a := by
  induction count generalizing prev current m with
  | zero =>
    refine ⟨prev, m, rfl, hprev, ?_, ?_⟩
    · exact load_store m prev (by decide)
    · intro a ha
      exact store_of_not_mem (by omega)
  | succ count ih =>
    rw [Nat.succ_mul] at hfits
    have hcur : current ≠ 0 := by omega
    have hwrap : u32 (current + z) = current + z := u32_of_lt (by omega)
    -- this turn links the object to the one before; the rest of the list hangs on it
    obtain ⟨last, m', heq, hlast, hchain, hframe⟩ := ih current (current + z)
      (store m prev current) hcur (by omega) (by omega)
    refine ⟨last, m', ?_, hlast, ?_, ?_⟩
    · simp only [carve, hprev, ne_eq, not_false_eq_true, if_true, hwrap]
      exact heq
    · have hlist : (List.range (count + 1)).map (fun i => current + i * z) =
          current :: (List.range count).map fun i => current + z + i * z := by
        rw [List.range_succ_eq_map, List.map_cons, List.map_map]
        congr 1
        · omega
        · apply List.map_congr_left
          intro i _
          show current + (i + 1) * z = current + z + i * z
          rw [Nat.succ_mul]
          omega
      have hword : load (store m' last 0) prev = current := by
        have hsame : load (store m' last 0) prev = load (store m prev current) prev :=
          load_congr fun a _ h2 => hframe a (Or.inl (by omega))
        rw [hsame]
        exact load_store m prev (by omega)
      rw [hlist]
      exact chain_cons.mpr ⟨hword, hcur, hchain⟩
    · intro a ha
      rw [Nat.succ_mul] at ha
      rw [hframe a (by omega)]
      exact store_of_not_mem (by omega)

/-- **The free list of a new slab** threads all its slots in increasing order. -/
theorem initFreeList_spec (hz : 4 ≤ z) (hmax : z ≤ slabBytes - sizeofSlabHeader)
    (hp : Placed base) (hcount : load m (SlabHeader.objectCount base) = slotCount z)
    (hstart : load m (SlabHeader.startAddr base) = base + sizeofSlabHeader) :
    Chain (initFreeList m base z) (load (initFreeList m base z) (SlabHeader.freeList base))
        (allSlots z base) ∧
      ∀ a, a < base + 36 ∨ base + slabBytes ≤ a → initFreeList m base z a = m a := by
  have hpos : 0 < slotCount z := Nat.div_pos hmax (by omega)
  obtain ⟨c, hc⟩ := Nat.exists_eq_succ_of_ne_zero (Nat.ne_of_gt hpos)
  have hroom : slotCount z * z ≤ slabBytes - sizeofSlabHeader := Nat.div_mul_le_self _ z
  have hfits : base + slabBytes < 2 ^ 32 := hp.fits
  have hsize : slabBytes = 65536 := rfl
  have hhead : sizeofSlabHeader = 40 := rfl
  rw [hc, Nat.succ_mul, hsize, hhead] at hroom
  rw [hsize] at hfits ⊢
  rw [hhead] at hstart
  have hwrap : u32 (base + 40 + z) = base + 40 + z := u32_of_lt (by omega)
  -- the first turn stores into the header, the others behind the object before
  obtain ⟨last, m', heq, hlast, hchain, hframe⟩ := carve_spec hz (base + 36) c (base + 40)
    (base + 40 + z) (store m (base + 36) (base + 40)) (by omega) (by omega) (by omega)
  have hfirst : carve (SlabHeader.freeList base) z (c + 1) 0 (base + 40) m = (last, m') := by
    simp only [carve, ne_eq, not_true_eq_false, if_false, hwrap]
    exact heq
  have hinit : initFreeList m base z = store m' last 0 := by
    unfold initFreeList
    rw [hcount, hstart, hc, hfirst]
    exact if_pos hlast
  have hlist : allSlots z base =
      (base + 40) :: (List.range c).map fun i => base + 40 + z + i * z := by
    unfold allSlots
    rw [hc, List.range_succ_eq_map, List.map_cons, List.map_map]
    congr 1
    · show base + 40 + 0 * z = base + 40
      omega
    · apply List.map_congr_left
      intro i _
      show base + 40 + (i + 1) * z = base + 40 + z + i * z
      rw [Nat.succ_mul]
      omega
  rw [hinit, hlist]
  refine ⟨chain_cons.mpr ⟨?_, by omega, hchain⟩, ?_⟩
  · have hsame : load (store m' last 0) (base + 36) =
        load (store m (base + 36) (base + 40)) (base + 36) :=
      load_congr fun a _ h2 => hframe a (Or.inl (by omega))
    exact hsame.trans (load_store m _ (by omega))
  · intro a ha
    rw [hframe a (by omega)]
    exact store_of_not_mem (by omega)

/-- The stores into a new header. -/
theorem initHeader_spec (m : ByteMem) (z : ℕ) (hp : Placed base) :
    load (initHeader m base z) (SlabHeader.startAddr base) = base + sizeofSlabHeader ∧
      load (initHeader m base z) (SlabHeader.endAddr base) = base + slabBytes ∧
      load (initHeader m base z) (SlabHeader.objectCount base) = slotCount z ∧
      load (initHeader m base z) (SlabHeader.pageOrder base) = slabDefaultOrder ∧
      load (initHeader m base z) (SlabHeader.freeCount base) = slotCount z ∧
      load (initHeader m base z) (SlabHeader.nextSlab base) = 0 ∧
      ∀ a, a < base ∨ base + sizeofSlabHeader ≤ a → initHeader m base z a = m a := by
  have hfits : base + 65536 < 2 ^ 32 := hp.fits
  have hcount : slotCount z ≤ 65496 := slotCount_le z
  have hstart : u32 (base + 40) = base + 40 := u32_of_lt (by omega)
  have hstop : u32 (base + 65536) = base + 65536 := u32_of_lt hfits
  have hunfold : initHeader m base z = store (store (store (store (store (store (store m
      (base + 24) 4) (base + 4) (u32 (base + 40))) (base + 8) (u32 (base + 65536)))
      (base + 12) (slotCount z)) (base + 16) z) (base + 20) (slotCount z)) base 0 := rfl
  rw [hunfold, hstart, hstop]
  refine ⟨?_, ?_, ?_, ?_, ?_, ?_, ?_⟩
  · show load _ (base + 4) = base + 40
    simp (disch := omega) only [load_store_of_disjoint, load_store]
  · show load _ (base + 8) = base + 65536
    simp (disch := omega) only [load_store_of_disjoint, load_store]
  · show load _ (base + 12) = slotCount z
    simp (disch := omega) only [load_store_of_disjoint, load_store]
  · show load _ (base + 24) = 4
    simp (disch := omega) only [load_store_of_disjoint, load_store]
  · show load _ (base + 20) = slotCount z
    simp (disch := omega) only [load_store_of_disjoint, load_store]
  · exact load_store _ base (by decide)
  · intro a ha
    have ha' : a < base ∨ base + 40 ≤ a := ha
    simp (disch := omega) only [store_of_not_mem]

/-! ### The slabs of a cache -/

theorem CacheAt.firstSlab_lt (h : CacheAt m cache slabs) : cache.firstSlab < 2 ^ 32 := by
  cases slabs with
  | nil =>
    have hnull : cache.firstSlab = 0 := h.chain
    rw [hnull]
    decide
  | cons s slabs =>
    have hfirst : cache.firstSlab = s.base := (chain_cons.mp h.chain).1
    have hfits := (h.slab s List.mem_cons_self).placed.fits
    omega

theorem CacheAt.length_lt (h : CacheAt m cache slabs) : slabs.length < walkLimit := by
  have hlen := h.chain.length_lt h.firstSlab_lt
  rwa [List.length_map] at hlen

/-- Each search over the slab list finds the first slab that passes, or runs to its end. -/
theorem CacheAt.firstSuch_cases (h : CacheAt m cache slabs) (test : ℕ → Bool) :
    ((∀ s ∈ slabs, test s.base = false) ∧ firstSuch m test walkLimit cache.firstSlab = some 0) ∨
      ∃ pre s post, slabs = pre ++ s :: post ∧ (∀ t ∈ pre, test t.base = false) ∧
        test s.base = true ∧ firstSuch m test walkLimit cache.firstSlab = some s.base := by
  have hlen : (slabs.map Slab.base).length < walkLimit := by
    rw [List.length_map]
    exact h.length_lt
  rw [h.chain.firstSuch_eq test hlen, List.find?_map]
  cases hfind : slabs.find? (test ∘ Slab.base) with
  | none =>
    refine Or.inl ⟨fun s hs => ?_, rfl⟩
    simpa using List.find?_eq_none.mp hfind s hs
  | some s =>
    obtain ⟨htest, pre, post, hslabs, hpre⟩ := List.find?_eq_some_iff_append.mp hfind
    refine Or.inr ⟨pre, s, post, hslabs, fun t ht => ?_, htest, rfl⟩
    simpa using hpre t ht

theorem CacheAt.apart_of_ne (h : CacheAt m cache slabs) {s t : Slab} (hs : s ∈ slabs)
    (ht : t ∈ slabs) (hne : s.base ≠ t.base) : Apart s.base t.base :=
  h.apart.forall (List.mem_map_of_mem hs) (List.mem_map_of_mem ht) hne

theorem CacheAt.eq_of_base_eq (h : CacheAt m cache slabs) {s t : Slab} (hs : s ∈ slabs)
    (ht : t ∈ slabs) (heq : s.base = t.base) : s = t :=
  List.inj_on_of_nodup_map h.chain.nodup hs ht heq

/-- The representation of a cache depends on its own bytes only. -/
theorem CacheAt.congr (h : CacheAt m cache slabs)
    (heq : ∀ s ∈ slabs, ∀ a, s.Bytes a → m' a = m a) : CacheAt m' cache slabs := by
  refine ⟨h.chain.congr ?_, fun s hs => (h.slab s hs).congr fun a ha _ => heq s hs a ha, h.apart⟩
  intro b hb
  obtain ⟨s, hs, rfl⟩ := List.mem_map.mp hb
  apply load_congr
  intro a h1 h2
  exact heq s hs a (Or.inl ⟨h1, by unfold sizeofSlabHeader; omega⟩)

/-- The other slabs lie in other blocks. -/
theorem CacheAt.apart_of_mem (h : CacheAt m cache (pre ++ s :: post)) {t : Slab}
    (ht : t ∈ pre ++ post) : t ∈ pre ++ s :: post ∧ Apart s.base t.base := by
  have ht' : t ∈ pre ++ s :: post := by
    simp only [List.mem_append, List.mem_cons] at ht ⊢
    tauto
  refine ⟨ht', h.apart_of_ne (by simp) ht' fun heq => ?_⟩
  have hperm : ((s :: (pre ++ post)).map Slab.base).Nodup :=
    (List.perm_middle.map Slab.base).nodup_iff.mp h.chain.nodup
  exact (List.nodup_cons.mp hperm).1 (List.mem_map.mpr ⟨t, ht, heq.symm⟩)

/-- The statistics of a cache say nothing about its slabs. -/
theorem CacheAt.restat (h : CacheAt m cache slabs) (total count : ℕ) :
    CacheAt m { cache with totalSize := total, allocCount := count } slabs :=
  ⟨h.chain, h.slab, h.apart⟩

/-- A change inside one block, away from its `next_slab`, concerns that slab only. -/
theorem CacheAt.replace (h : CacheAt m cache (pre ++ ⟨base, f⟩ :: post)) (hz : 4 ≤ cache.objectSize)
    (hs : SlabAt m' cache.objectSize ⟨base, f'⟩)
    (hframe : ∀ a, a < base + 4 ∨ base + slabBytes ≤ a → m' a = m a) :
    CacheAt m' cache (pre ++ ⟨base, f'⟩ :: post) := by
  have hbases : (pre ++ ⟨base, f'⟩ :: post).map Slab.base =
      (pre ++ ⟨base, f⟩ :: post).map Slab.base := by simp
  have hmem : (⟨base, f⟩ : Slab) ∈ pre ++ ⟨base, f⟩ :: post := by simp
  have hsize : 4 ≤ slabBytes := by decide
  refine ⟨?_, ?_, ?_⟩
  · -- `next_slab` is the first word of a slab, and no block but this one was written
    rw [hbases]
    refine h.chain.congr fun b hb => load_congr fun a h1 h2 => hframe a ?_
    obtain ⟨t, ht, rfl⟩ := List.mem_map.mp hb
    by_cases heq : t.base = base
    · omega
    · have hap : Apart base t.base := h.apart_of_ne hmem ht fun hb => heq hb.symm
      unfold Apart at hap
      omega
  · intro t ht
    by_cases hin : t ∈ pre ++ post
    · obtain ⟨ht', hap⟩ : t ∈ _ ∧ Apart base t.base := h.apart_of_mem hin
      refine (h.slab t ht').congr fun a ha _ => hframe a ?_
      have hb := (h.slab t ht').bytes_bounds hz ha
      unfold Apart at hap
      omega
    · have ht' : t = ⟨base, f'⟩ := by
        simp only [List.mem_append, List.mem_cons] at ht hin
        tauto
      exact ht' ▸ hs
  · rw [hbases]
    exact h.apart

/-! ### Allocation -/

theorem CacheAt.hasFree_eq (h : CacheAt m cache slabs) (hs : s ∈ slabs) :
    hasFree m s.base = decide (0 < s.free.length) := by
  unfold hasFree
  rw [(h.slab s hs).freeCount]

/-- **`slab_alloc_from_cache`** finds no free object, or takes the first one of the first slab
    that has one. -/
theorem slabAllocFromCache_spec (h : CacheAt m cache slabs) (hz : 4 ≤ cache.objectSize) :
    ((∀ s ∈ slabs, s.free = []) ∧ slabAllocFromCache m cache = some (0, m)) ∨
      ∃ pre base x rest post m', slabs = pre ++ ⟨base, x :: rest⟩ :: post ∧
        slabAllocFromCache m cache = some (x, m') ∧
        CacheAt m' cache (pre ++ ⟨base, rest⟩ :: post) ∧
        ∀ a, a < base + 4 ∨ base + sizeofSlabHeader ≤ a → m' a = m a := by
  unfold slabAllocFromCache
  rcases h.firstSuch_cases (hasFree m) with ⟨hnone, heq⟩ | ⟨pre, s, post, rfl, -, htest, heq⟩
  · refine Or.inl ⟨fun s hs => ?_, by rw [heq]; rfl⟩
    have hfree := hnone s hs
    rw [h.hasFree_eq hs] at hfree
    simpa using hfree
  · have hs : s ∈ pre ++ s :: post := by simp
    rw [h.hasFree_eq hs] at htest
    obtain ⟨base, free⟩ := s
    cases free with
    | nil => simp at htest
    | cons x rest =>
      obtain ⟨m', halloc, hslab, hframe⟩ := slabAllocFromSlab_spec (h.slab _ hs)
      have hne : base ≠ 0 := Nat.ne_of_gt (h.slab _ hs).placed.pos
      refine Or.inr ⟨pre, base, x, rest, post, m', rfl, ?_, ?_, hframe⟩
      · rw [heq]
        show some (if base = 0 then _ else _) = _
        rw [if_neg hne, halloc]
      · refine h.replace hz hslab fun a ha => hframe a ?_
        have hle : sizeofSlabHeader ≤ slabBytes := by decide
        omega

/-! ### Growing a cache -/

theorem allSlots_sorted (hz : 4 ≤ z) (base : ℕ) : (allSlots z base).Pairwise (· < ·) := by
  refine List.pairwise_map.mpr (List.pairwise_lt_range.imp fun {i j} hij => ?_)
  have hmul := Nat.mul_le_mul_right z hij
  rw [Nat.succ_mul] at hmul
  unfold slotAddr
  omega

/-- **The slab in a fresh block**: a header and all slots free. -/
theorem newSlab_spec (hz : 4 ≤ z) (hmax : z ≤ slabBytes - sizeofSlabHeader) (hp : Placed base)
    (hsame : ∀ a, base ≤ a → a < base + slabBytes → m' a = initHeader m base z a) :
    SlabAt (initFreeList m' base z) z ⟨base, allSlots z base⟩ ∧
      load (initFreeList m' base z) (SlabHeader.nextSlab base) = 0 ∧
      ∀ a, a < base ∨ base + slabBytes ≤ a → initFreeList m' base z a = m' a := by
  obtain ⟨hstart, hstop, hcount, horder, hfree, hnext, -⟩ := initHeader_spec m z hp
  have hword : ∀ d, d ≤ 36 → load m' (base + d) = load (initHeader m base z) (base + d) :=
    fun d hd => load_congr fun a h1 h2 => hsame a (by omega) (by
      have : slabBytes = 65536 := rfl
      omega)
  obtain ⟨hchain, hframe⟩ := initFreeList_spec hz hmax hp
    ((hword 12 (by decide)).trans hcount) ((hword 4 (by decide)).trans hstart)
  have hkeep : ∀ d, d ≤ 32 → load (initFreeList m' base z) (base + d) =
      load (initHeader m base z) (base + d) := by
    intro d hd
    rw [← hword d (by omega)]
    exact load_congr fun a _ h2 => hframe a (Or.inl (by omega))
  refine ⟨⟨hp, (hkeep 4 (by decide)).trans hstart, (hkeep 8 (by decide)).trans hstop,
    (hkeep 12 (by decide)).trans hcount, (hkeep 24 (by decide)).trans horder, ?_, hchain,
    allSlots_sorted hz base, fun x hx => mem_allSlots.mp hx⟩, (hkeep 0 (by decide)).trans hnext,
    fun a ha => hframe a (by omega)⟩
  show _ = (allSlots z base).length
  rw [allSlots, List.length_map, List.length_range]
  exact (hkeep 20 (by decide)).trans hfree

/-- `*curr_slab = header`: the word that gets the new header, if it is not `first_slab`, is the
    `next_slab` of a slab of the cache. -/
theorem appendSlab_spec (h : CacheAt m cache slabs) (base : ℕ) :
    ∃ m' cache', appendSlab m cache base = some (m', cache') ∧
      cache'.objectSize = cache.objectSize ∧
      (∀ a, (∀ s ∈ slabs, ¬ (s.base ≤ a ∧ a < s.base + 4)) → m' a = m a) ∧
      ∀ m'', base ≠ 0 → base < 2 ^ 32 → load m'' base = 0 → (∀ s ∈ slabs, s.base ≠ base) →
        (∀ s ∈ slabs, load m'' s.base = load m' s.base) →
        Chain m'' cache'.firstSlab (slabs.map Slab.base ++ [base]) := by
  cases slabs with
  | nil =>
    have hnull : cache.firstSlab = 0 := h.chain
    refine ⟨m, { cache with firstSlab := base }, if_pos hnull, rfl, fun a _ => rfl, ?_⟩
    intro m'' hne _ hend _ _
    exact chain_cons.mpr ⟨rfl, hne, hend⟩
  | cons s₀ slabs =>
    have hlen : (slabs.map Slab.base).length < walkLimit := by
      have hlt := h.length_lt
      rw [List.length_cons] at hlt
      rw [List.length_map]
      omega
    obtain ⟨hfirst, hne₀, htail⟩ := chain_cons.mp h.chain
    have hfirst0 : cache.firstSlab ≠ 0 := hfirst ▸ hne₀
    set last := lastCell s₀.base (slabs.map Slab.base) with hlast
    have hmem : last ∈ (s₀ :: slabs).map Slab.base := lastCell_mem _ _
    -- the walk over the list ends at its last slab
    have hfind : firstSuch m (fun p => decide (load m (SlabHeader.nextSlab p) = 0)) walkLimit
        cache.firstSlab = some last := h.chain.firstSuch_last hlen
    have hnull : load m last = 0 := Path.end_eq htail
    refine ⟨store m last base, cache, ?_, rfl, ?_, ?_⟩
    · unfold appendSlab
      rw [if_neg hfirst0, hfind]
      rfl
    · intro a ha
      obtain ⟨t, ht, hbase⟩ := List.mem_map.mp hmem
      have hat := ha t ht
      exact store_of_not_mem (by omega)
    · intro m'' hne hlt hend hnew hkeep
      have hword : ∀ y ∈ (s₀ :: slabs).map Slab.base, load m'' y = load (store m last base) y := by
        intro y hy
        obtain ⟨t, ht, rfl⟩ := List.mem_map.mp hy
        exact hkeep t ht
      refine chain_cons.mpr ⟨hfirst, hne₀, ?_⟩
      refine Chain.insert (m := m) (c := s₀.base) ?_ ?_ hne ?_ ?_ ?_
      · rw [List.append_nil]
        exact htail
      · rw [List.append_nil]
        exact (List.nodup_cons.mp h.chain.nodup).1
      · rw [hword last hmem]
        exact load_store m last hlt
      · rw [hend, hnull]
      · rw [List.append_nil]
        intro y hy hyl
        rw [hword y hy]
        have hap : Apart y last := h.apart.forall hy hmem hyl
        unfold Apart at hap
        have hsize : 4 ≤ slabBytes := by decide
        exact load_store_of_disjoint (by omega)

/-- The work of `slab_add_cache_frame` on a fresh block, whatever the statistics become. -/
theorem addFrame_spec (h : CacheAt m cache slabs) (hz : 4 ≤ cache.objectSize)
    (hmax : cache.objectSize ≤ slabBytes - sizeofSlabHeader) (hp : Placed base)
    (hfresh : ∀ s ∈ slabs, Apart s.base base) (total count : ℕ) :
    ∃ m₂ cache', appendSlab (initHeader m base cache.objectSize)
        { cache with totalSize := total, allocCount := count } base = some (m₂, cache') ∧
      cache'.objectSize = cache.objectSize ∧
      CacheAt (initFreeList m₂ base cache.objectSize) cache'
        (slabs ++ [⟨base, allSlots cache.objectSize base⟩]) ∧
      ∀ a, a < base ∨ base + slabBytes ≤ a →
        (∀ s ∈ slabs, ¬ (s.base ≤ a ∧ a < s.base + 4)) →
        initFreeList m₂ base cache.objectSize a = m a := by
  have hsize : slabBytes = 65536 := rfl
  have hhead : sizeofSlabHeader = 40 := rfl
  have hinit := (initHeader_spec m cache.objectSize hp).2.2.2.2.2.2
  have hout : ∀ s ∈ slabs, ∀ a, s.Bytes a → a < base ∨ base + slabBytes ≤ a := by
    intro s hs a ha
    have hbounds := (h.slab s hs).bytes_bounds hz ha
    have hap := hfresh s hs
    unfold Apart at hap
    omega
  let grown : SlabCache := { cache with totalSize := total, allocCount := count }
  have h₁ : CacheAt (initHeader m base cache.objectSize) grown slabs := by
    have hkeep : CacheAt (initHeader m base cache.objectSize) cache slabs :=
      h.congr fun s hs a ha => hinit a (by have := hout s hs a ha; omega)
    exact hkeep.restat _ _
  obtain ⟨m₂, cache₂, happend, hosize, hframe₂, hchain⟩ := appendSlab_spec h₁ base
  have hosize' : cache₂.objectSize = cache.objectSize := hosize
  -- the appended link is in the block of another slab
  have hblock : ∀ a, base ≤ a → a < base + slabBytes →
      m₂ a = initHeader m base cache.objectSize a := by
    intro a h1 h2
    apply hframe₂ a
    intro s hs hin
    have hap := hfresh s hs
    unfold Apart at hap
    omega
  obtain ⟨hnew, hnext, hframe₃⟩ := newSlab_spec hz hmax hp hblock
  refine ⟨m₂, cache₂, happend, hosize', ⟨?_, ?_, ?_⟩, ?_⟩
  · rw [List.map_append]
    refine hchain _ (Nat.ne_of_gt hp.pos) (by have := hp.fits; omega) hnext ?_ ?_
    · intro s hs heq
      have hap := hfresh s hs
      unfold Apart at hap
      omega
    · intro s hs
      refine load_congr fun a h1 h2 => hframe₃ a (hout s hs a (Or.inl ?_))
      omega
  · rw [hosize']
    intro t ht
    rcases List.mem_append.mp ht with ht | ht
    · apply (h₁.slab t ht).congr
      intro a ha h4
      rw [hframe₃ a (hout t ht a ha)]
      apply hframe₂ a
      intro s hs hin
      -- only the `next_slab` word of `t` itself could be meant, and `a` is behind it
      by_cases heq : s.base = t.base
      · omega
      · have hbounds := (h.slab t ht).bytes_bounds hz ha
        have hap := h.apart_of_ne hs ht heq
        unfold Apart at hap
        omega
    · obtain rfl := List.mem_singleton.mp ht
      exact hnew
  · rw [List.map_append]
    refine List.pairwise_append.mpr ⟨h.apart, List.pairwise_singleton _ _, ?_⟩
    intro b hb' c hc
    obtain ⟨s, hs, rfl⟩ := List.mem_map.mp hb'
    obtain rfl : c = base := List.mem_singleton.mp hc
    exact hfresh s hs
  · intro a ha hs
    rw [hframe₃ a ha, hframe₂ a hs]
    exact hinit a (by omega)

/-- **`slab_add_cache_frame`** with a fresh block appends a slab with every slot free. -/
theorem slabAddCacheFrame_spec (h : CacheAt m cache slabs) (hz : 4 ≤ cache.objectSize)
    (hmax : cache.objectSize ≤ slabBytes - sizeofSlabHeader) (hp : Placed (pageVa page))
    (hfresh : ∀ s ∈ slabs, Apart s.base (pageVa page)) :
    ∃ m' cache', slabAddCacheFrame m cache (some page) = some (m', cache') ∧
      cache'.objectSize = cache.objectSize ∧
      CacheAt m' cache' (slabs ++ [⟨pageVa page, allSlots cache.objectSize (pageVa page)⟩]) ∧
      ∀ a, a < pageVa page ∨ pageVa page + slabBytes ≤ a →
        (∀ s ∈ slabs, ¬ (s.base ≤ a ∧ a < s.base + 4)) → m' a = m a := by
  obtain ⟨m₂, cache', happend, hosize, hcache, hframe⟩ := addFrame_spec h hz hmax hp hfresh
    (u32 (cache.totalSize + slabBytes)) (u32 (cache.allocCount + 2 ^ slabDefaultOrder))
  refine ⟨_, cache', ?_, hosize, hcache, hframe⟩
  unfold slabAddCacheFrame
  dsimp only
  rw [happend, Option.map_some, hosize]

/-! ### The entry points -/

/-- What `slab_malloc` does to the slabs of a cache, with the object it returns: the first free
    object of the first slab that has one, else the first slot of a new slab, else nothing. -/
inductive Served (z : ℕ) : List Slab → Option ℕ → List Slab → ℕ → Prop
  | reused (pre post : List Slab) (base x : ℕ) (rest : List ℕ) (newPage : Option ℕ) :
      Served z (pre ++ ⟨base, x :: rest⟩ :: post) newPage (pre ++ ⟨base, rest⟩ :: post) x
  | grown (slabs : List Slab) (hfull : ∀ s ∈ slabs, s.free = []) (page x : ℕ) (rest : List ℕ)
      (hslots : allSlots z (pageVa page) = x :: rest) :
      Served z slabs (some page) (slabs ++ [⟨pageVa page, rest⟩]) x
  | refused (slabs : List Slab) (hfull : ∀ s ∈ slabs, s.free = []) : Served z slabs none slabs 0

theorem allSlots_ne_nil (hz : 4 ≤ z) (hmax : z ≤ slabBytes - sizeofSlabHeader) (base : ℕ) :
    ∃ x rest, allSlots z base = x :: rest := by
  have hpos : 0 < slotCount z := Nat.div_pos hmax (by omega)
  have hlen : (allSlots z base).length ≠ 0 := by
    rw [allSlots, List.length_map, List.length_range]
    exact Nat.ne_of_gt hpos
  exact List.exists_cons_of_ne_nil fun hnil => hlen (by rw [hnil]; rfl)

theorem CacheAt.head_ne_zero (h : CacheAt m cache (pre ++ ⟨base, x :: rest⟩ :: post)) : x ≠ 0 :=
  (h.slab ⟨base, x :: rest⟩ (by simp)).chain.ne_zero List.mem_cons_self

/-- A search that passes full slabs only stops at the slab behind them. -/
theorem append_singleton_inj (hfull : ∀ s ∈ slabs, s.free = []) {b y : ℕ} {ys : List ℕ}
    (heq : slabs ++ [⟨base, x :: rest⟩] = pre ++ ⟨b, y :: ys⟩ :: post) :
    pre = slabs ∧ post = [] ∧ b = base ∧ y = x ∧ ys = rest := by
  rcases List.eq_nil_or_concat post with rfl | ⟨l, t, rfl⟩
  · obtain ⟨hpre, hlast⟩ := List.append_inj' heq rfl
    simp only [List.cons.injEq, Slab.mk.injEq, and_true] at hlast
    exact ⟨hpre.symm, rfl, hlast.1.symm, hlast.2.1.symm, hlast.2.2.symm⟩
  · have hsplit : slabs ++ [⟨base, x :: rest⟩] = (pre ++ ⟨b, y :: ys⟩ :: l) ++ [t] := by
      rw [heq]
      simp
    obtain ⟨hslabs, -⟩ := List.append_inj' hsplit rfl
    have hnil := hfull ⟨b, y :: ys⟩ (by rw [hslabs]; simp)
    simp at hnil

/-- **`slab_malloc`** returns, and does what `Served` says; it stores into the blocks of the
    cache only. -/
theorem slabMalloc_spec (h : CacheAt m cache slabs) (hz : 4 ≤ cache.objectSize)
    (hmax : cache.objectSize ≤ slabBytes - sizeofSlabHeader) (newPage : Option ℕ)
    (hp : ∀ p ∈ newPage, Placed (pageVa p))
    (hfresh : ∀ p ∈ newPage, ∀ s ∈ slabs, Apart s.base (pageVa p)) :
    ∃ x m' cache' slabs', slabMalloc m cache newPage = some (x, m', cache') ∧
      Served cache.objectSize slabs newPage slabs' x ∧ CacheAt m' cache' slabs' ∧
      cache'.objectSize = cache.objectSize ∧ (x = 0 → m' = m ∧ cache' = cache) ∧
      ∀ a, (∀ s ∈ slabs', a < s.base ∨ s.base + slabBytes ≤ a) → m' a = m a := by
  have hle : sizeofSlabHeader ≤ slabBytes := by decide
  unfold slabMalloc
  rcases slabAllocFromCache_spec h hz with
    ⟨hfull, heq⟩ | ⟨pre, base, x, rest, post, m', rfl, heq, hcache, hframe⟩
  · cases newPage with
    | none =>
      refine ⟨0, m, cache, slabs, ?_, .refused slabs hfull, h, rfl, fun _ => ⟨rfl, rfl⟩,
        fun _ _ => rfl⟩
      simp [heq, slabAddCacheFrame]
    | some page =>
      obtain ⟨m₁, cache₁, hadd, hosize, hcache₁, hframe₁⟩ :=
        slabAddCacheFrame_spec h hz hmax (hp page rfl) (hfresh page rfl)
      obtain ⟨x, rest, hslots⟩ := allSlots_ne_nil hz hmax (pageVa page)
      rw [hslots] at hcache₁
      have hne : x ≠ 0 := hcache₁.head_ne_zero
      -- the second search passes the full slabs and meets the new one
      rcases slabAllocFromCache_spec hcache₁ (hosize ▸ hz) with
        ⟨hnone, -⟩ | ⟨pre, base, y, ys, post, m₂, hsplit, heq₂, hcache₂, hframe₂⟩
      · exact absurd (hnone ⟨pageVa page, x :: rest⟩ (by simp)) (by simp)
      · obtain ⟨rfl, rfl, hb, rfl, rfl⟩ := append_singleton_inj hfull hsplit
        rw [hb] at hcache₂ hframe₂
        refine ⟨y, m₂, cache₁, _, ?_, .grown pre hfull page y ys hslots, hcache₂, hosize,
          fun hy => absurd hy hne, ?_⟩
        · simp [heq, hadd, heq₂]
        · intro a ha
          have hnew := ha ⟨pageVa page, ys⟩ (by simp)
          dsimp only at hnew
          rw [hframe₂ a (by omega)]
          apply hframe₁ a hnew
          intro s hs hin
          have hold := ha s (by simp [hs])
          have hsize : 4 ≤ slabBytes := by decide
          omega
  · have hne : x ≠ 0 := h.head_ne_zero
    refine ⟨x, m', cache, _, by simp [heq, hne], .reused pre post base x rest newPage, hcache,
      rfl, fun hx => absurd hx hne, fun a ha => hframe a ?_⟩
    have hbase := ha ⟨base, rest⟩ (by simp)
    dsimp only at hbase
    omega

/-- The range test of `slab_free`, whose upper bound lies `sizeof(slab_header_t)` bytes behind
    the end of the block. -/
theorem SlabAt.inSlab_iff (h : SlabAt m z s) :
    inSlab m x s.base = true ↔
      s.base + sizeofSlabHeader ≤ x ∧ x < s.base + sizeofSlabHeader + slabBytes := by
  obtain ⟨q, hq⟩ := h.placed.aligned
  have hfits := h.placed.fits
  have hsize : slabBytes = 65536 := rfl
  have hhead : sizeofSlabHeader = 40 := rfl
  rw [show pageSize = 4096 from rfl] at hq
  have hshift : pageSize <<< slabDefaultOrder = slabBytes := by decide
  have hend : u32 (s.base + sizeofSlabHeader + slabBytes) = s.base + sizeofSlabHeader + slabBytes :=
    u32_of_lt (by omega)
  unfold inSlab
  simp only [h.start, h.order, hshift, hend, decide_eq_true_eq]

/-- **`slab_free`** of a slot that is not free puts it back into its own slab. -/
theorem slabFree_spec (h : CacheAt m cache slabs) (hz : 4 ≤ cache.objectSize) (hs : s ∈ slabs)
    (hx : IsSlot cache.objectSize s.base x) (hnot : x ∉ s.free) :
    ∃ m' pre post f', slabs = pre ++ s :: post ∧ slabFree m cache x = some (.success, m') ∧
      CacheAt m' cache (pre ++ ⟨s.base, f'⟩ :: post) ∧ (∀ y, y ∈ f' ↔ y = x ∨ y ∈ s.free) ∧
      ∀ a, a < s.base ∨ s.base + slabBytes ≤ a → m' a = m a := by
  have hb := hx.bounds
  have hself : inSlab m x s.base = true := (h.slab s hs).inSlab_iff.mpr (by omega)
  rcases h.firstSuch_cases (inSlab m x) with ⟨hnone, -⟩ | ⟨pre, t, post, rfl, -, htest, heq⟩
  · rw [hnone s hs] at hself
    cases hself
  · have ht : t ∈ pre ++ t :: post := by simp
    have hrange := (h.slab t ht).inSlab_iff.mp htest
    -- the test of another slab reaches at most into the header behind it
    have hbase : s.base = t.base := by
      by_contra hne
      have hap := h.apart_of_ne hs ht hne
      unfold Apart at hap
      omega
    obtain rfl : s = t := h.eq_of_base_eq hs ht hbase
    obtain ⟨base, f⟩ := s
    obtain ⟨cell, f', hcell, hslab, hmem, hframe⟩ := linkObject_spec (h.slab _ hs) hz hx hnot
    have hne : base ≠ 0 := Nat.ne_of_gt (h.slab _ hs).placed.pos
    refine ⟨linkObject m base x cell, pre, post, f', rfl, ?_, h.replace hz hslab hframe, hmem,
      fun a ha => hframe a (ha.imp_left (Nat.lt_add_right 4))⟩
    unfold slabFree
    simp [heq, hne, hcell]

/-- **`slab_cache_has_addr`** tells whether the address is behind the header of some slab. -/
theorem slabCacheHasAddr_spec (h : CacheAt m cache slabs) (a : ℕ) :
    ∃ b, slabCacheHasAddr m cache a = some b ∧
      (b = true ↔ ∃ s ∈ slabs, s.base + sizeofSlabHeader ≤ a ∧ a < s.base + slabBytes) := by
  have htest : ∀ s ∈ slabs, holdsAddr m a s.base = true ↔
      s.base + sizeofSlabHeader ≤ a ∧ a < s.base + slabBytes := by
    intro s hs
    unfold holdsAddr
    rw [(h.slab s hs).start, (h.slab s hs).stop, decide_eq_true_eq]
  unfold slabCacheHasAddr
  rcases h.firstSuch_cases (holdsAddr m a) with ⟨hnone, heq⟩ | ⟨pre, s, post, rfl, -, hhit, heq⟩
  · refine ⟨false, by rw [heq]; rfl, ?_⟩
    simp only [Bool.false_eq_true, false_iff]
    intro ⟨s, hs, hin⟩
    have hmiss := hnone s hs
    rw [(htest s hs).mpr hin] at hmiss
    cases hmiss
  · have hs : s ∈ pre ++ s :: post := by simp
    have hne : s.base ≠ 0 := Nat.ne_of_gt (h.slab s hs).placed.pos
    refine ⟨true, by rw [heq]; simp [hne], ?_⟩
    simp only [true_iff]
    exact ⟨s, hs, (htest s hs).mp hhit⟩

end Rotary
