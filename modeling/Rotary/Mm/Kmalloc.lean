import Mathlib.Data.Fin.VecNotation
import Mathlib.Data.List.FinRange
import Mathlib.Data.List.Sort
import Rotary.Mm.SlabRun

namespace Rotary

open Lib

/-!
# The kernel heap (`kernel/mm/kmalloc.c`)

Thirteen slab caches in one memory.  `kmalloc` picks the cache by size, `kfree` finds it again
by address; what makes the two searches agree is that no two slabs of any two caches overlap.

* `KernelHeap.Inv` — every cache is represented, and all blocks are apart;
* `kmalloc_spec` / `kfree_spec` — the two calls over the thirteen caches;
* `HeapRun` — runs of calls, with the size each live result was requested with.
-/

/-- The object sizes of `slab_caches`. -/
def slabCacheSizes : Fin 13 → ℕ :=
  ![8, 16, 32, 64, 128, 256, 512, 1024, 2048, 4096, 8192, 16384, 32768]

/-- `slab_caches` and the memory their slabs are in. -/
structure KernelHeap where
  mem : ByteMem
  slabCaches : Fin 13 → SlabCache

/-- The heap before the first call. -/
def KernelHeap.init (m : ByteMem) : KernelHeap := ⟨m, fun i => initSlabCache (slabCacheSizes i)⟩

/-- The loop of `kmalloc`: the first cache whose objects are large enough. -/
def KernelHeap.acceptable (k : KernelHeap) (size : ℕ) : Option (Fin 13) :=
  (List.finRange 13).find? fun i => decide (size ≤ (k.slabCaches i).objectSize)

/-- `kmalloc`; `newPage` is what `page_alloc` returns if it is called. -/
def kmalloc (k : KernelHeap) (size : ℕ) (newPage : Option ℕ) : Option (ℕ × KernelHeap) :=
  match k.acceptable size with
  | none => some (0, k)
  | some i =>
    (slabMalloc k.mem (k.slabCaches i) newPage).map fun (object, m, cache) =>
      (object, ⟨m, Function.update k.slabCaches i cache⟩)

/-- The loop of `kfree` over the caches that are left. -/
def kfreeFrom (k : KernelHeap) (addr : ℕ) : List (Fin 13) → Option (Status × KernelHeap)
  | [] => some (.error, k)
  | i :: is => do
    if ← slabCacheHasAddr k.mem (k.slabCaches i) addr then
      -- the status of `slab_free` is dropped
      let (_, m) ← slabFree k.mem (k.slabCaches i) addr
      return (.success, { k with mem := m })
    kfreeFrom k addr is

/-- `kfree`. -/
def kfree (k : KernelHeap) (addr : ℕ) : Option (Status × KernelHeap) :=
  kfreeFrom k addr (List.finRange 13)

variable {k k' : KernelHeap} {S : Fin 13 → List Slab} {i j : Fin 13} {m m' : ByteMem} {s : Slab}
  {slabs' : List Slab} {cache' : SlabCache} {x p a size : ℕ} {newPage : Option ℕ}

/-! ### The invariant -/

/-- The memory holds the slabs `S i` of each cache, in blocks that do not overlap. -/
structure KernelHeap.Inv (k : KernelHeap) (S : Fin 13 → List Slab) : Prop where
  size : ∀ i, (k.slabCaches i).objectSize = slabCacheSizes i
  cacheAt : ∀ i, CacheAt k.mem (k.slabCaches i) (S i)
  apart : ∀ i j, i ≠ j → ∀ s ∈ S i, ∀ t ∈ S j, Apart s.base t.base

theorem slabCacheSizes_ge (i : Fin 13) : 4 ≤ slabCacheSizes i := by
  revert i
  decide

theorem slabCacheSizes_le (i : Fin 13) :
    slabCacheSizes i ≤ 32768 ∧ slabCacheSizes i ≤ slabBytes - sizeofSlabHeader := by
  revert i
  decide

theorem KernelHeap.init_inv (m : ByteMem) : (KernelHeap.init m).Inv fun _ => [] :=
  ⟨fun _ => rfl, fun i => (SlabState.start_inv (slabCacheSizes i) m).cacheAt, by simp⟩

theorem KernelHeap.Inv.size_ge (h : k.Inv S) (i : Fin 13) : 4 ≤ (k.slabCaches i).objectSize :=
  h.size i ▸ slabCacheSizes_ge i

theorem KernelHeap.Inv.size_le (h : k.Inv S) (i : Fin 13) :
    (k.slabCaches i).objectSize ≤ slabBytes - sizeofSlabHeader :=
  h.size i ▸ (slabCacheSizes_le i).2

/-- Stores into the blocks of one cache concern that cache only. -/
theorem KernelHeap.Inv.update (h : k.Inv S) (hc : CacheAt m' cache' slabs')
    (hsize : cache'.objectSize = slabCacheSizes i)
    (hframe : ∀ a, (∀ s ∈ slabs', a < s.base ∨ s.base + slabBytes ≤ a) → m' a = k.mem a)
    (hapart : ∀ j, j ≠ i → ∀ s ∈ slabs', ∀ t ∈ S j, Apart s.base t.base) :
    KernelHeap.Inv ⟨m', Function.update k.slabCaches i cache'⟩ (Function.update S i slabs') := by
  refine ⟨?_, ?_, ?_⟩
  · intro j
    by_cases hj : j = i
    · subst hj
      simpa using hsize
    · simpa [hj] using h.size j
  · intro j
    by_cases hj : j = i
    · subst hj
      simpa using hc
    · -- the bytes of the other caches lie outside the blocks that were written
      have hother : CacheAt m' (k.slabCaches j) (S j) := by
        refine (h.cacheAt j).congr fun t ht a ha => hframe a fun s hs => ?_
        have hb := ((h.cacheAt j).slab t ht).bytes_bounds (h.size_ge j) ha
        have hap := hapart j hj s hs t ht
        unfold Apart at hap
        omega
      simpa [hj] using hother
  · -- two caches, at most one of which is the cache written to
    intro a b hab s hs t ht
    by_cases ha : a = i
    · subst ha
      have hb : b ≠ a := hab.symm
      rw [Function.update_self] at hs
      rw [Function.update_of_ne hb] at ht
      exact hapart b hb s hs t ht
    · rw [Function.update_of_ne ha] at hs
      by_cases hb : b = i
      · subst hb
        rw [Function.update_self] at ht
        exact Or.symm (hapart a ha t ht s hs)
      · rw [Function.update_of_ne hb] at ht
        exact h.apart a b hab s hs t ht

/-- Two slabs at one address are one slab. -/
theorem KernelHeap.Inv.slab_unique (h : k.Inv S) {t : Slab} (hs : s ∈ S i) (ht : t ∈ S j)
    (hover : ¬ Apart s.base t.base) : i = j ∧ s = t := by
  by_cases hij : i = j
  · subst hij
    refine ⟨rfl, ?_⟩
    by_contra hne
    exact hover ((h.cacheAt i).apart_of_ne hs ht fun hb => hne ((h.cacheAt i).eq_of_base_eq hs ht hb))
  · exact absurd (h.apart i j hij s hs t ht) hover

/-! ### `kmalloc` -/

/-- The cache for requests of `size` bytes, as `slab_caches` is defined. -/
def cacheFor (size : ℕ) : Option (Fin 13) :=
  (List.finRange 13).find? fun i => decide (size ≤ slabCacheSizes i)

theorem KernelHeap.Inv.acceptable_eq (h : k.Inv S) (size : ℕ) :
    k.acceptable size = cacheFor size := by
  unfold KernelHeap.acceptable cacheFor
  simp only [h.size]

theorem cacheFor_le (h : cacheFor size = some i) : size ≤ slabCacheSizes i := by
  simpa using List.find?_some h

theorem cacheFor_eq_none (h : 32768 < size) : cacheFor size = none := by
  refine List.find?_eq_none.mpr fun i _ => ?_
  have := (slabCacheSizes_le i).1
  simp only [decide_eq_true_eq]
  omega

/-- The headers of all slabs. -/
def KernelHeap.slabs (k : KernelHeap) : List ℕ :=
  (List.finRange 13).flatMap fun i => slabList k.mem (k.slabCaches i)

theorem KernelHeap.Inv.mem_slabs (h : k.Inv S) : a ∈ k.slabs ↔ ∃ i, ∃ s ∈ S i, s.base = a := by
  simp only [KernelHeap.slabs, List.mem_flatMap, List.mem_finRange, true_and,
    (h.cacheAt _).slabList_eq, List.mem_map]

theorem KernelHeap.Inv.fresh_apart (h : k.Inv S) (hfresh : ∀ p ∈ newPage, FreshBlock k.slabs p) :
    ∀ p ∈ newPage, ∀ j, ∀ s ∈ S j, Apart s.base (pageVa p) := fun p hp j s hs =>
  (hfresh p hp).apart _ (h.mem_slabs.mpr ⟨j, s, hs, rfl⟩)

/-- What `slab_malloc` adds to a cache is the given block. -/
theorem Served.mem_base {z : ℕ} {slabs : List Slab} (h : Served z slabs newPage slabs' x)
    (hs : s ∈ slabs') : (∃ t ∈ slabs, t.base = s.base) ∨ ∃ p ∈ newPage, s.base = pageVa p := by
  cases h with
  | reused pre post base x rest newPage =>
    apply Or.inl
    simp only [List.mem_append, List.mem_cons] at hs ⊢
    rcases hs with hs | rfl | hs
    · exact ⟨s, Or.inl hs, rfl⟩
    · exact ⟨⟨base, x :: rest⟩, Or.inr (Or.inl rfl), rfl⟩
    · exact ⟨s, Or.inr (Or.inr hs), rfl⟩
  | grown _ hfull page x rest hslots =>
    rcases List.mem_append.mp hs with hs | hs
    · exact Or.inl ⟨s, hs, rfl⟩
    · obtain rfl := List.mem_singleton.mp hs
      exact Or.inr ⟨page, rfl, rfl⟩
  | refused _ hfull => exact Or.inl ⟨s, hs, rfl⟩

/-- **`kmalloc`** is `slab_malloc` on the cache for the size. -/
theorem kmalloc_spec (h : k.Inv S) (hfresh : ∀ p ∈ newPage, FreshBlock k.slabs p) (size : ℕ) :
    (cacheFor size = none ∧ kmalloc k size newPage = some (0, k)) ∨
      ∃ i x m' cache' slabs', cacheFor size = some i ∧
        kmalloc k size newPage = some (x, ⟨m', Function.update k.slabCaches i cache'⟩) ∧
        Served (slabCacheSizes i) (S i) newPage slabs' x ∧
        KernelHeap.Inv ⟨m', Function.update k.slabCaches i cache'⟩ (Function.update S i slabs') ∧
        (x = 0 → m' = k.mem ∧ cache' = k.slabCaches i) := by
  have hpages := h.fresh_apart hfresh
  unfold kmalloc
  rw [h.acceptable_eq]
  cases hcache : cacheFor size with
  | none => exact Or.inl ⟨rfl, rfl⟩
  | some i =>
    obtain ⟨x, m', cache', slabs', heq, hserved, hc, hsize, hsame, hframe⟩ :=
      slabMalloc_spec (h.cacheAt i) (h.size_ge i) (h.size_le i) newPage
        (fun p hp => (hfresh p hp).placed) (fun p hp => hpages p hp i)
    refine Or.inr ⟨i, x, m', cache', slabs', rfl, ?_, h.size i ▸ hserved, ?_, hsame⟩
    · simp only [heq, Option.map_some]
    · apply h.update hc (hsize.trans (h.size i)) hframe
      intro j hj s hs t ht
      rcases hserved.mem_base hs with ⟨u, hu, hbase⟩ | ⟨p, hp, hbase⟩
      · rw [← hbase]
        exact h.apart i j hj.symm u hu t ht
      · rw [hbase]
        exact Or.symm (hpages p hp j t ht)

/-! ### `kfree` -/

theorem kfreeFrom_hit {is : List (Fin 13)} (hi : i ∈ is)
    (hmiss : ∀ j, j ≠ i → slabCacheHasAddr k.mem (k.slabCaches j) a = some false)
    (hhit : slabCacheHasAddr k.mem (k.slabCaches i) a = some true)
    (hfree : slabFree k.mem (k.slabCaches i) a = some (.success, m')) :
    kfreeFrom k a is = some (.success, { k with mem := m' }) := by
  induction is with
  | nil => simp at hi
  | cons j is ih =>
    by_cases hj : j = i
    · subst hj
      simp [kfreeFrom, hhit, hfree]
    · have htail : i ∈ is := (List.mem_cons.mp hi).resolve_left fun heq => hj heq.symm
      simp [kfreeFrom, hmiss j hj, ih htail]

theorem kfreeFrom_miss (is : List (Fin 13))
    (hmiss : ∀ j, slabCacheHasAddr k.mem (k.slabCaches j) a = some false) :
    kfreeFrom k a is = some (.error, k) := by
  induction is with
  | nil => rfl
  | cons j is ih => simp [kfreeFrom, hmiss j, ih]

/-- **`kfree`** of a slot that is not free goes to its own slab and to no other cache. -/
theorem kfree_spec (h : k.Inv S) (hs : s ∈ S i) (hslot : IsSlot (slabCacheSizes i) s.base p)
    (hnot : p ∉ s.free) :
    ∃ m' pre post f', S i = pre ++ s :: post ∧
      kfree k p = some (.success, ⟨m', k.slabCaches⟩) ∧
      KernelHeap.Inv ⟨m', k.slabCaches⟩ (Function.update S i (pre ++ ⟨s.base, f'⟩ :: post)) ∧
      ∀ y, y ∈ f' ↔ y = p ∨ y ∈ s.free := by
  have hslot' : IsSlot (k.slabCaches i).objectSize s.base p := (h.size i).symm ▸ hslot
  have hb := hslot.bounds
  have hge := slabCacheSizes_ge i
  obtain ⟨m', pre, post, f', hsplit, hfree, hc, hmem, hframe⟩ :=
    slabFree_spec (h.cacheAt i) (h.size_ge i) hs hslot' hnot
  -- the loop of `kfree` passes over the other caches: slabs of different caches are apart
  have hhas : ∀ j, slabCacheHasAddr k.mem (k.slabCaches j) p = some (decide (j = i)) := by
    intro j
    obtain ⟨b, heq, hiff⟩ := slabCacheHasAddr_spec (h.cacheAt j) p
    rw [heq, Option.some.injEq]
    by_cases hj : j = i
    · subst hj
      simpa using hiff.mpr ⟨s, hs, by omega⟩
    · have hno : ¬ b = true := by
        rw [hiff]
        intro ⟨t, ht, hin⟩
        have hap := h.apart j i hj t ht s hs
        unfold Apart at hap
        omega
      simpa [hj] using hno
  have hcall : kfree k p = some (.success, ⟨m', k.slabCaches⟩) :=
    kfreeFrom_hit (List.mem_finRange i) (fun j hj => by simpa [hj] using hhas j)
      (by simpa using hhas i) hfree
  refine ⟨m', pre, post, f', hsplit, hcall, ?_, hmem⟩
  have hinv := h.update hc (h.size i)
    (fun a ha => hframe a (by simpa using ha ⟨s.base, f'⟩ (by simp)))
    (fun j hj t ht u hu => ?_)
  · rwa [Function.update_eq_self] at hinv
  · have hbase : ∃ t' ∈ S i, t'.base = t.base := by
      rw [hsplit]
      simp only [List.mem_append, List.mem_cons] at ht ⊢
      rcases ht with ht | rfl | ht
      · exact ⟨t, Or.inl ht, rfl⟩
      · exact ⟨s, Or.inr (Or.inl rfl), rfl⟩
      · exact ⟨t, Or.inr (Or.inr ht), rfl⟩
    obtain ⟨t', ht', heq⟩ := hbase
    rw [← heq]
    exact h.apart i j hj.symm t' ht' u hu

/-- **`kfree`** of an address in no slab finds no cache and changes nothing. -/
theorem kfree_outside (h : k.Inv S) (hout : ∀ j, ∀ s ∈ S j,
    ¬ (s.base + sizeofSlabHeader ≤ a ∧ a < s.base + slabBytes)) :
    kfree k a = some (.error, k) := by
  apply kfreeFrom_miss _
  intro j
  obtain ⟨b, heq, hiff⟩ := slabCacheHasAddr_spec (h.cacheAt j) a
  have hno : ¬ b = true := by
    rw [hiff]
    exact fun ⟨t, ht, hin⟩ => hout j t ht hin
  rw [heq]
  simpa using hno

/-! ### Runs -/

/-- The heap, and for each live result of `kmalloc` the size it was requested with. -/
structure HeapState where
  heap : KernelHeap
  live : ℕ → Option ℕ

/-- One call, or the stores of the clients between two calls. -/
inductive HeapStep : HeapState → HeapState → Prop
  | kmalloc (st : HeapState) (size : ℕ) (newPage : Option ℕ)
      (hfresh : ∀ p ∈ newPage, FreshBlock st.heap.slabs p) (x : ℕ) (k' : KernelHeap)
      (hcall : kmalloc st.heap size newPage = some (x, k')) :
      HeapStep st ⟨k', if x = 0 then st.live else Function.update st.live x (some size)⟩
  | kfree (st : HeapState) (p size : ℕ) (hlive : st.live p = some size) (r : Status)
      (k' : KernelHeap) (hcall : kfree st.heap p = some (r, k')) :
      HeapStep st ⟨k', Function.update st.live p none⟩
  /-- Clients store into the bytes they asked for, and others into memory outside the slabs. -/
  | write (st : HeapState) (m' : ByteMem)
      (hstore : ∀ a, m' a ≠ st.heap.mem a →
        (∃ p size, st.live p = some size ∧ p ≤ a ∧ a < p + size) ∨
          ∀ h ∈ st.heap.slabs, a < h ∨ h + slabBytes ≤ a) :
      HeapStep st ⟨{ st.heap with mem := m' }, st.live⟩

/-- A run of calls. -/
abbrev HeapRun := Relation.ReflTransGen HeapStep

/-- The heap before the first call. -/
def HeapState.start (m : ByteMem) : HeapState := ⟨KernelHeap.init m, fun _ => none⟩

/-- The invariant of a run: what a cache has handed out is what clients hold of its sizes. -/
structure HeapState.Inv (st : HeapState) (S : Fin 13 → List Slab) : Prop where
  heap : st.heap.Inv S
  sized : ∀ p size, st.live p = some size → ∃ i, cacheFor size = some i
  live : ∀ i p, p ∈ liveSlots (slabCacheSizes i) (S i) ↔
    ∃ size, st.live p = some size ∧ cacheFor size = some i

theorem HeapState.start_inv (m : ByteMem) : (HeapState.start m).Inv fun _ => [] :=
  ⟨KernelHeap.init_inv m, by simp [HeapState.start], by simp [liveSlots, HeapState.start]⟩

/-- A slot belongs to one cache. -/
theorem KernelHeap.Inv.slot_unique (h : k.Inv S)
    (hi : p ∈ liveSlots (slabCacheSizes i) (S i)) (hj : p ∈ liveSlots (slabCacheSizes j) (S j)) :
    i = j := by
  obtain ⟨s, hs, hslot, -⟩ := hi
  obtain ⟨t, ht, hslot', -⟩ := hj
  by_contra hne
  exact hslot.not_of_apart (h.apart i j hne s hs t ht) hslot'

variable {st st' : HeapState}

theorem HeapState.Inv.kmalloc_step (h : st.Inv S)
    (hfresh : ∀ p ∈ newPage, FreshBlock st.heap.slabs p)
    (hcall : kmalloc st.heap size newPage = some (x, k')) :
    ∃ S', HeapState.Inv
      ⟨k', if x = 0 then st.live else Function.update st.live x (some size)⟩ S' := by
  rcases kmalloc_spec h.heap hfresh size with
    ⟨-, heq⟩ | ⟨i, y, m', cache', slabs', hi, heq, hserved, hinv, -⟩
  · rw [hcall] at heq
    obtain ⟨rfl, rfl⟩ : x = 0 ∧ k' = st.heap := by simpa using heq
    exact ⟨S, h.heap, by simpa using h.sized, by simpa using h.live⟩
  · rw [hcall] at heq
    obtain ⟨rfl, rfl⟩ : x = y ∧ k' = _ := by simpa using heq
    have hslots := hserved.liveSlots_eq (h.heap.cacheAt i) (h.heap.size i) (slabCacheSizes_ge i)
    refine ⟨_, hinv, fun p sz hp => ?_, fun j p => ?_⟩
    · -- the sizes: only the new object has got one
      by_cases hpx : x ≠ 0 ∧ p = x
      · obtain ⟨hx, rfl⟩ := hpx
        simp only [hx, if_false, Function.update_self, Option.some.injEq] at hp
        exact ⟨i, hp ▸ hi⟩
      · apply h.sized p sz
        by_cases hx : x = 0
        · simpa [hx] using hp
        · have hne : p ≠ x := fun heq => hpx ⟨hx, heq⟩
          simpa [hx, hne] using hp
    by_cases hx : x = 0
    · -- nothing was handed out
      rw [if_pos hx] at hslots
      have hsame : liveSlots (slabCacheSizes j) (Function.update S i slabs' j) =
          liveSlots (slabCacheSizes j) (S j) := by
        by_cases hj : j = i
        · subst hj
          rw [Function.update_self, hslots]
        · rw [Function.update_of_ne hj]
      rw [hsame, if_pos hx]
      exact h.live j p
    · rw [if_neg hx] at hslots ⊢
      by_cases hp : p = x
      · -- the new object is live in the cache for its size, and in no other
        subst hp
        have hnew : p ∈ liveSlots (slabCacheSizes i) (Function.update S i slabs' i) := by
          rw [Function.update_self, hslots]
          exact Set.mem_insert p _
        simp only [Function.update_self, Option.some.injEq]
        constructor
        · intro hmem
          obtain rfl := hinv.slot_unique hnew hmem
          exact ⟨size, rfl, hi⟩
        · rintro ⟨_, rfl, hj⟩
          obtain rfl : i = j := Option.some.inj (hi.symm.trans hj)
          exact hnew
      · simp only [Function.update_of_ne hp]
        rw [← h.live j p]
        by_cases hj : j = i
        · subst hj
          rw [Function.update_self, hslots]
          simp [hp]
        · rw [Function.update_of_ne hj]

/-- A live result is a slot of the cache for its size. -/
theorem HeapState.Inv.exists_slab (h : st.Inv S) (hlive : st.live p = some size) :
    ∃ i, cacheFor size = some i ∧ ∃ s ∈ S i, IsSlot (slabCacheSizes i) s.base p ∧ p ∉ s.free := by
  obtain ⟨i, hi⟩ := h.sized p size hlive
  exact ⟨i, hi, (h.live i p).mpr ⟨size, hlive, hi⟩⟩

theorem HeapState.Inv.kfree_step {r : Status} (h : st.Inv S) (hlive : st.live p = some size)
    (hcall : kfree st.heap p = some (r, k')) :
    ∃ S', HeapState.Inv ⟨k', Function.update st.live p none⟩ S' := by
  obtain ⟨i, hi, s, hs, hslot, hnot⟩ := h.exists_slab hlive
  obtain ⟨m', pre, post, f', hsplit, heq, hinv, hmem⟩ := kfree_spec h.heap hs hslot hnot
  rw [hcall] at heq
  obtain ⟨-, rfl⟩ : r = .success ∧ k' = _ := by simpa using heq
  have hslots : liveSlots (slabCacheSizes i) (pre ++ ⟨s.base, f'⟩ :: post) =
      liveSlots (slabCacheSizes i) (S i) \ {p} := by
    have hc := h.heap.cacheAt i
    rw [hsplit] at hc ⊢
    rw [← h.heap.size i] at hslot ⊢
    exact liveSlots_free hc hslot hmem
  refine ⟨_, hinv, fun q sz hq => ?_, fun j q => ?_⟩
  · by_cases hqp : q = p
    · simp [hqp] at hq
    · exact h.sized q sz (by simpa [hqp] using hq)
  -- no other cache has a slot there
  have hother : j ≠ i → p ∉ liveSlots (slabCacheSizes j) (S j) := fun hj hmem =>
    hj (h.heap.slot_unique hmem ⟨s, hs, hslot, hnot⟩)
  by_cases hq : q = p
  · subst hq
    simp only [Function.update_self, reduceCtorEq, false_and, exists_false, iff_false]
    by_cases hj : j = i
    · subst hj
      rw [Function.update_self, hslots]
      exact fun hin => hin.2 rfl
    · rw [Function.update_of_ne hj]
      exact hother hj
  · simp only [Function.update_of_ne hq]
    rw [← h.live j q]
    by_cases hj : j = i
    · subst hj
      rw [Function.update_self, hslots]
      simp [hq]
    · rw [Function.update_of_ne hj]

theorem HeapState.Inv.write_step (h : st.Inv S)
    (hstore : ∀ a, m' a ≠ st.heap.mem a →
      (∃ p size, st.live p = some size ∧ p ≤ a ∧ a < p + size) ∨
        ∀ b ∈ st.heap.slabs, a < b ∨ b + slabBytes ≤ a) :
    HeapState.Inv ⟨{ st.heap with mem := m' }, st.live⟩ S := by
  refine ⟨⟨h.heap.size, fun j => ?_, h.heap.apart⟩, h.sized, h.live⟩
  apply (h.heap.cacheAt j).client_store (h.heap.size_ge j)
  intro a ha
  rcases hstore a ha with ⟨p, size, hlive, h1, h2⟩ | hout
  · obtain ⟨i, hi, s, hs, hslot, hnot⟩ := h.exists_slab hlive
    have hle := cacheFor_le hi
    by_cases hij : i = j
    · subst hij
      rw [h.heap.size i]
      exact Or.inl ⟨p, ⟨s, hs, hslot, hnot⟩, h1, by omega⟩
    · -- the object is in a block of another cache
      apply Or.inr
      intro b hb
      obtain ⟨t, ht, rfl⟩ := List.mem_map.mp hb
      have hap := h.heap.apart i j hij s hs t ht
      have hbounds := hslot.bounds
      unfold Apart at hap
      omega
  · apply Or.inr
    intro b hb
    obtain ⟨t, ht, rfl⟩ := List.mem_map.mp hb
    exact hout _ (h.heap.mem_slabs.mpr ⟨j, t, ht, rfl⟩)

/-- **A step keeps the invariant.** -/
theorem HeapState.Inv.step (h : st.Inv S) (hstep : HeapStep st st') : ∃ S', st'.Inv S' := by
  cases hstep with
  | kmalloc size newPage hfresh x k' hcall => exact h.kmalloc_step hfresh hcall
  | kfree p size hlive r k' hcall => exact h.kfree_step hlive hcall
  | write m' hstore => exact ⟨S, h.write_step hstore⟩

/-- **Every state of a run keeps the invariant.** -/
theorem HeapRun.inv (hrun : HeapRun (HeapState.start m) st) : ∃ S, st.Inv S := by
  induction hrun with
  | refl => exact ⟨_, HeapState.start_inv m⟩
  | tail _ hstep ih =>
    obtain ⟨S, h⟩ := ih
    exact h.step hstep

/-! ### The guarantees -/

/-- The slabs of cache `i`, their free lists and their free counts are the same in both heaps. -/
def SameLists (k k' : KernelHeap) (i : Fin 13) : Prop :=
  slabList k'.mem (k'.slabCaches i) = slabList k.mem (k.slabCaches i) ∧
    ∀ h ∈ slabList k.mem (k.slabCaches i), slabFreeList k'.mem h = slabFreeList k.mem h ∧
      load k'.mem (SlabHeader.freeCount h) = load k.mem (SlabHeader.freeCount h)

theorem KernelHeap.Inv.sameLists {S' : Fin 13 → List Slab} (h : k.Inv S) (h' : k'.Inv S')
    (heq : S' i = S i) : SameLists k k' i := by
  have hlist := (h.cacheAt i).slabList_eq
  refine ⟨by rw [hlist, (h'.cacheAt i).slabList_eq, heq], fun b hb => ?_⟩
  rw [hlist] at hb
  obtain ⟨s, hs, rfl⟩ := List.mem_map.mp hb
  have hat := (h.cacheAt i).slab s hs
  have hat' := (h'.cacheAt i).slab s (heq ▸ hs)
  exact ⟨hat'.slabFreeList_eq.trans hat.slabFreeList_eq.symm,
    hat'.freeCount.trans hat.freeCount.symm⟩

/-- The slots of two live results do not overlap. -/
theorem HeapState.Inv.live_apart {q size' : ℕ} (h : st.Inv S) (hp : st.live p = some size)
    (hq : st.live q = some size') (hne : p ≠ q) :
    ∃ z z', 4 ≤ z ∧ size ≤ z ∧ 4 ≤ z' ∧ size' ≤ z' ∧ (p + z ≤ q ∨ q + z' ≤ p) := by
  obtain ⟨i, hi, s, hs, hslot, -⟩ := h.exists_slab hp
  obtain ⟨j, hj, t, ht, hslot', -⟩ := h.exists_slab hq
  refine ⟨slabCacheSizes i, slabCacheSizes j, slabCacheSizes_ge i, cacheFor_le hi,
    slabCacheSizes_ge j, cacheFor_le hj, ?_⟩
  have hb := hslot.bounds
  have hb' := hslot'.bounds
  by_cases hap : Apart s.base t.base
  · unfold Apart at hap
    omega
  · obtain ⟨rfl, rfl⟩ := h.heap.slab_unique hs ht hap
    exact hslot.apart hslot' hne

/-- What a live result gives its owner: bytes of a slab that no other live result and no slab
    header shares. -/
def HeapState.Usable (st : HeapState) (p size : ℕ) : Prop :=
  (∃ h ∈ st.heap.slabs, h + sizeofSlabHeader ≤ p ∧ p + size ≤ h + slabBytes) ∧
    (∀ q size', st.live q = some size' → q ≠ p → p + size ≤ q ∨ q + size' ≤ p) ∧
    ∀ h ∈ st.heap.slabs, p + size ≤ h ∨ h + sizeofSlabHeader ≤ p

theorem HeapState.Inv.usable (h : st.Inv S) (hlive : st.live p = some size) :
    st.Usable p size := by
  obtain ⟨i, hi, s, hs, hslot, -⟩ := h.exists_slab hlive
  have hle := cacheFor_le hi
  have hbounds := hslot.bounds
  have hmem : s.base ∈ st.heap.slabs := h.heap.mem_slabs.mpr ⟨i, s, hs, rfl⟩
  refine ⟨⟨s.base, hmem, by omega⟩, fun q size' hq hne => ?_, fun b hb => ?_⟩
  · obtain ⟨z, z', -, hz, -, hz', hap⟩ := h.live_apart hlive hq hne.symm
    omega
  · -- the header of the same slab, or of one that is apart
    obtain ⟨j, t, ht, rfl⟩ := h.heap.mem_slabs.mp hb
    have hsize : sizeofSlabHeader ≤ slabBytes := by decide
    by_cases hap : Apart s.base t.base
    · unfold Apart at hap
      omega
    · obtain ⟨-, rfl⟩ := h.heap.slab_unique hs ht hap
      omega

/-- `kmalloc` returns an address that nobody holds, and null for more than 32768 bytes. -/
theorem HeapState.Inv.kmalloc_fresh (h : st.Inv S)
    (hfresh : ∀ p ∈ newPage, FreshBlock st.heap.slabs p) (size : ℕ) :
    ∃ x k', kmalloc st.heap size newPage = some (x, k') ∧ st.live x = none ∧
      (32768 < size → x = 0 ∧ k' = st.heap) := by
  have hnull : st.live 0 = none := by
    -- null lies below every slab
    by_contra hsome
    obtain ⟨sz, hsz⟩ := Option.ne_none_iff_exists'.mp hsome
    obtain ⟨i, -, s, -, hslot, -⟩ := h.exists_slab hsz
    have := hslot.header_le
    omega
  rcases kmalloc_spec h.heap hfresh size with
    ⟨-, heq⟩ | ⟨i, x, m', cache', slabs', hi, heq, hserved, hinv, -⟩
  · exact ⟨0, st.heap, heq, hnull, fun _ => ⟨rfl, rfl⟩⟩
  · refine ⟨x, _, heq, ?_, fun hbig => ?_⟩
    · by_contra hsome
      have hx : x ≠ 0 := fun hx => hsome (hx ▸ hnull)
      obtain ⟨sz, hsz⟩ := Option.ne_none_iff_exists'.mp hsome
      obtain ⟨j, hj⟩ := h.sized x sz hsz
      have hheld := (h.live j x).mpr ⟨sz, hsz, hj⟩
      have hslots := hserved.liveSlots_eq (h.heap.cacheAt i) (h.heap.size i) (slabCacheSizes_ge i)
      rw [if_neg hx] at hslots
      -- a free object of its own cache is not live, and it is a slot of one cache only
      by_cases hij : j = i
      · subst hij
        exact hserved.not_live (h.heap.cacheAt j) (h.heap.size j)
          (fun p hp => h.heap.fresh_apart hfresh p hp j) hheld
      · refine hij (hinv.slot_unique (j := i) (p := x) ?_ ?_)
        · rw [Function.update_of_ne hij]
          exact hheld
        · rw [Function.update_self, hslots]
          exact Set.mem_insert x _
    · rw [cacheFor_eq_none hbig] at hi
      cases hi

/-- `kfree` of a live result succeeds and puts it on a free list of the cache that `kmalloc`
    takes for its size, all other caches staying as they were. -/
def HeapState.GivesBack (st : HeapState) (p size : ℕ) : Prop :=
  ∃ k' i h, kfree st.heap p = some (.success, k') ∧ st.heap.acceptable size = some i ∧
    h ∈ slabList k'.mem (k'.slabCaches i) ∧ p ∉ slabFreeList st.heap.mem h ∧
    p ∈ slabFreeList k'.mem h ∧ ∀ j, j ≠ i → SameLists st.heap k' j

theorem HeapState.Inv.givesBack (h : st.Inv S) (hlive : st.live p = some size) :
    st.GivesBack p size := by
  obtain ⟨i, hi, s, hs, hslot, hnot⟩ := h.exists_slab hlive
  obtain ⟨m', pre, post, f', hsplit, heq, hinv, hmem⟩ := kfree_spec h.heap hs hslot hnot
  have hs' : (⟨s.base, f'⟩ : Slab) ∈ Function.update S i (pre ++ ⟨s.base, f'⟩ :: post) i := by
    rw [Function.update_self]
    simp
  refine ⟨_, i, s.base, heq, (h.heap.acceptable_eq size).trans hi, ?_, ?_, ?_, fun j hj => ?_⟩
  · rw [(hinv.cacheAt i).slabList_eq]
    exact List.mem_map.mpr ⟨_, hs', rfl⟩
  · rw [((h.heap.cacheAt i).slab s hs).slabFreeList_eq]
    exact hnot
  · have hlist := ((hinv.cacheAt i).slab _ hs').slabFreeList_eq
    dsimp only at hlist
    rw [hlist, hmem]
    exact Or.inl rfl
  · exact h.heap.sameLists hinv (Function.update_of_ne hj _ _)

/-- When a request is served without a new slab, giving the object back restores everything. -/
def HeapState.Restores (st : HeapState) : Prop :=
  ∀ size newPage x k', (∀ p ∈ newPage, FreshBlock st.heap.slabs p) →
    kmalloc st.heap size newPage = some (x, k') → x ≠ 0 →
    (∀ i, slabList k'.mem (k'.slabCaches i) = slabList st.heap.mem (st.heap.slabCaches i)) →
    ∃ k'', kfree k' x = some (.success, k'') ∧ ∀ i, SameLists st.heap k'' i

theorem HeapState.Inv.restores (h : st.Inv S) : st.Restores := by
  intro size newPage x k' hfresh hcall hx hsame
  rcases kmalloc_spec h.heap hfresh size with
    ⟨-, heq⟩ | ⟨i, y, m', cache', slabs', hi, heq, hserved, hinv, -⟩
  · rw [hcall] at heq
    exact absurd (by simpa using heq) fun hzero : x = 0 ∧ k' = st.heap => hx hzero.1
  · rw [hcall] at heq
    obtain ⟨rfl, rfl⟩ : x = y ∧ k' = _ := by simpa using heq
    have hbases := hsame i
    rw [(hinv.cacheAt i).slabList_eq, (h.heap.cacheAt i).slabList_eq, Function.update_self] at hbases
    generalize hS : S i = slabs at hserved hbases
    cases hserved with
    | refused _ _ => exact absurd rfl hx
    | grown _ _ page x rest _ =>
      have hlen := congrArg List.length hbases
      simp at hlen
    | reused pre post base x rest newPage =>
      have hat := (h.heap.cacheAt i).slab ⟨base, x :: rest⟩ (by rw [hS]; simp)
      have hslot : IsSlot (slabCacheSizes i) base x :=
        h.heap.size i ▸ hat.slot x List.mem_cons_self
      have hs : (⟨base, rest⟩ : Slab) ∈
          Function.update S i (pre ++ ⟨base, rest⟩ :: post) i := by
        rw [Function.update_self]
        simp
      obtain ⟨m'', pre', post', f', hsplit, heq', hinv', hmem⟩ :=
        kfree_spec hinv hs hslot (not_mem_of_sorted hat.sorted)
      refine ⟨_, heq', fun j => h.heap.sameLists hinv' ?_⟩
      by_cases hj : j = i
      · subst hj
        -- the insertion finds the old place of the object
        have hsorted := ((hinv'.cacheAt j).slab ⟨base, f'⟩ (by simp)).sorted
        have hf : f' = x :: rest := hsorted.eq_of_mem_iff hat.sorted fun w => by simp [hmem]
        have hnd := (hinv.cacheAt j).chain.nodup.of_map
        rw [Function.update_self] at hsplit hnd
        rw [List.nodup_middle, List.nodup_cons, List.mem_append, not_or] at hnd
        obtain ⟨rfl, -, rfl⟩ := (List.append_cons_inj_of_notMem hnd.1.1 hnd.1.2).mp hsplit
        rw [Function.update_self, hf, hS]
      · rw [Function.update_of_ne hj, Function.update_of_ne hj]

/-- **The `kmalloc` / `kfree` contract**, in every state a run from the empty caches reaches. -/
theorem heapRun_contract (hrun : HeapRun (HeapState.start m) st) :
    (∀ p size, st.live p = some size → st.Usable p size ∧ st.GivesBack p size) ∧
      (∀ size newPage, (∀ p ∈ newPage, FreshBlock st.heap.slabs p) →
        ∃ x k', kmalloc st.heap size newPage = some (x, k') ∧ st.live x = none ∧
          (32768 < size → x = 0 ∧ k' = st.heap)) ∧
      (∀ a, (∀ h ∈ st.heap.slabs, ¬ (load st.heap.mem (SlabHeader.startAddr h) ≤ a ∧
        a < load st.heap.mem (SlabHeader.endAddr h))) → kfree st.heap a = some (.error, st.heap)) ∧
      st.Restores := by
  obtain ⟨S, h⟩ := HeapRun.inv hrun
  refine ⟨fun p size hlive => ⟨h.usable hlive, h.givesBack hlive⟩,
    fun size newPage hfresh => h.kmalloc_fresh hfresh size, fun a hout => ?_, h.restores⟩
  apply kfree_outside h.heap
  intro j s hs hin
  have hat := (h.heap.cacheAt j).slab s hs
  refine hout s.base (h.heap.mem_slabs.mpr ⟨j, s, hs, rfl⟩) ?_
  rw [hat.start, hat.stop]
  exact hin

/-- One result for 20000 bytes, from a new slab of the last cache. -/
theorem heapRun_contract_oneResult :
    ∃ st, HeapRun (HeapState.start fun _ => 0) st ∧
      st.live (pageVa 16 + 40) = some 20000 ∧ st.Usable (pageVa 16 + 40) 20000 ∧
      st.GivesBack (pageVa 16 + 40) 20000 ∧ st.Restores := by
  have hempty : (KernelHeap.init fun _ => 0).slabs = [] := by
    have hnone : ∀ a, a ∉ (KernelHeap.init fun _ => 0).slabs := by
      intro a ha
      rw [(KernelHeap.init_inv _).mem_slabs] at ha
      simp at ha
    exact List.eq_nil_iff_forall_not_mem.mpr hnone
  have hfresh : ∀ p ∈ some 16, FreshBlock (KernelHeap.init fun _ => 0).slabs p := by
    intro p hp
    obtain rfl : 16 = p := Option.some.inj hp
    rw [hempty]
    exact ⟨by decide, by decide, by simp⟩
  have hcalled : (kmalloc (KernelHeap.init fun _ => 0) 20000 (some 16)).map Prod.fst =
      some (pageVa 16 + 40) := by decide +kernel
  obtain ⟨⟨x, k'⟩, hcall, hx⟩ := Option.map_eq_some_iff.mp hcalled
  obtain rfl : x = pageVa 16 + 40 := hx
  have hrun : HeapRun (HeapState.start fun _ => 0) _ :=
    .single (.kmalloc _ 20000 (some 16) hfresh _ k' hcall)
  obtain ⟨hheld, -, -, hrestores⟩ := heapRun_contract hrun
  have hlive : (if pageVa 16 + 40 = 0 then (HeapState.start fun _ => 0).live
      else Function.update (HeapState.start fun _ => 0).live (pageVa 16 + 40) (some 20000))
        (pageVa 16 + 40) = some 20000 := by simp
  exact ⟨_, hrun, hlive, (hheld _ _ hlive).1, (hheld _ _ hlive).2, hrestores⟩

end Rotary
