import Mathlib.Data.List.Pairwise
import Rotary.Mm.Slab

namespace Rotary

open Lib

/-!
# What a slab and a cache look like in memory

The abstract slab is the address of its block and the list of its free objects.

* `SlabAt m z s` — the memory holds slab `s` with objects of `z` bytes: the header fields have
  the values `slab_add_cache_frame` gave them, the free list is null-terminated, strictly
  increasing, made of slots, and `free_count` long;
* `CacheAt m cache slabs` — the slabs of a cache, chained from `first_slab`, in blocks that do
  not overlap.

`Slab.Bytes` are the bytes the allocator itself reads: the header and the first word of every
free object.  Nothing else matters to the representation (`SlabAt.congr`, `CacheAt.congr`), and
each operation is specified by the new abstract state and by the bytes it leaves alone.
-/

/-- A slab: its block, and its free objects in list order. -/
structure Slab where
  base : ℕ
  free : List ℕ

variable {m m' : ByteMem} {z base page x y : ℕ} {s : Slab} {cache : SlabCache}
  {slabs pre post : List Slab} {rest : List ℕ}

/-! ### Slots -/

/-- The `i`-th object of the slab at `base`. -/
def slotAddr (z base i : ℕ) : ℕ := base + sizeofSlabHeader + i * z

/-- An address that `slab_add_cache_frame` carves out of the block at `base`. -/
def IsSlot (z base x : ℕ) : Prop := ∃ i < slotCount z, x = slotAddr z base i

/-- Every slot lies behind the header and inside the block. -/
theorem IsSlot.bounds (h : IsSlot z base x) :
    base + sizeofSlabHeader ≤ x ∧ x + z ≤ base + slabBytes := by
  obtain ⟨i, hi, rfl⟩ := h
  have hmul : (i + 1) * z ≤ slabBytes - sizeofSlabHeader :=
    (Nat.mul_le_mul_right z hi).trans (Nat.div_mul_le_self _ z)
  rw [Nat.succ_mul] at hmul
  have hsub : slabBytes - sizeofSlabHeader + sizeofSlabHeader = slabBytes := by decide
  unfold slotAddr
  omega

theorem IsSlot.header_le (h : IsSlot z base x) : base + 40 ≤ x := h.bounds.1

/-- Two slots of a slab do not overlap. -/
theorem IsSlot.apart (hx : IsSlot z base x) (hy : IsSlot z base y) (hne : x ≠ y) :
    x + z ≤ y ∨ y + z ≤ x := by
  obtain ⟨i, -, rfl⟩ := hx
  obtain ⟨j, -, rfl⟩ := hy
  unfold slotAddr at *
  rcases Nat.lt_trichotomy i j with hij | rfl | hij
  · have hmul := Nat.mul_le_mul_right z hij
    rw [Nat.succ_mul] at hmul
    omega
  · exact absurd rfl hne
  · have hmul := Nat.mul_le_mul_right z hij
    rw [Nat.succ_mul] at hmul
    omega

/-- All slots of a slab, in increasing order. -/
def allSlots (z base : ℕ) : List ℕ := (List.range (slotCount z)).map (slotAddr z base)

theorem mem_allSlots : x ∈ allSlots z base ↔ IsSlot z base x := by
  simp [allSlots, IsSlot, eq_comm]

/-! ### The representation -/

/-- A block of pages as the kernel addresses it. -/
structure Placed (base : ℕ) : Prop where
  pos : 0 < base
  aligned : pageSize ∣ base
  fits : base + slabBytes < 2 ^ 32

/-- Two blocks of `slabBytes` bytes do not overlap. -/
def Apart (a b : ℕ) : Prop := a + slabBytes ≤ b ∨ b + slabBytes ≤ a

instance : Std.Symm Apart := ⟨fun _ _ h => Or.symm h⟩

/-- The memory holds the slab `s` with objects of `z` bytes. -/
structure SlabAt (m : ByteMem) (z : ℕ) (s : Slab) : Prop where
  placed : Placed s.base
  start : load m (SlabHeader.startAddr s.base) = s.base + sizeofSlabHeader
  stop : load m (SlabHeader.endAddr s.base) = s.base + slabBytes
  count : load m (SlabHeader.objectCount s.base) = slotCount z
  order : load m (SlabHeader.pageOrder s.base) = slabDefaultOrder
  freeCount : load m (SlabHeader.freeCount s.base) = s.free.length
  chain : Chain m (load m (SlabHeader.freeList s.base)) s.free
  sorted : s.free.Pairwise (· < ·)
  slot : ∀ x ∈ s.free, IsSlot z s.base x

/-- The bytes of a slab that the allocator reads. -/
def Slab.Bytes (s : Slab) (a : ℕ) : Prop :=
  (s.base ≤ a ∧ a < s.base + sizeofSlabHeader) ∨ ∃ x ∈ s.free, x ≤ a ∧ a < x + 4

/-- The memory holds the slabs of the cache. -/
structure CacheAt (m : ByteMem) (cache : SlabCache) (slabs : List Slab) : Prop where
  chain : Chain m cache.firstSlab (slabs.map Slab.base)
  slab : ∀ s ∈ slabs, SlabAt m cache.objectSize s
  apart : (slabs.map Slab.base).Pairwise Apart

/-- `next_slab` is the link of the cache's list; the rest of a slab does not depend on it. -/
theorem SlabAt.congr (h : SlabAt m z s)
    (heq : ∀ a, s.Bytes a → s.base + 4 ≤ a → m' a = m a) : SlabAt m' z s := by
  have hword : ∀ d, 4 ≤ d → d ≤ 36 → load m' (s.base + d) = load m (s.base + d) := by
    intro d h4 h36
    apply load_congr
    intro a h1 h2
    exact heq a (Or.inl ⟨by omega, by unfold sizeofSlabHeader; omega⟩) (by omega)
  have hlink : ∀ x ∈ s.free, load m' x = load m x := by
    intro x hx
    have hb := (h.slot x hx).bounds
    unfold sizeofSlabHeader at hb
    apply load_congr
    intro a h1 h2
    exact heq a (Or.inr ⟨x, hx, h1, h2⟩) (by omega)
  have hchain : Chain m' (load m (SlabHeader.freeList s.base)) s.free := h.chain.congr hlink
  exact ⟨h.placed, (hword 4 (by decide) (by decide)).trans h.start,
    (hword 8 (by decide) (by decide)).trans h.stop,
    (hword 12 (by decide) (by decide)).trans h.count,
    (hword 24 (by decide) (by decide)).trans h.order,
    (hword 20 (by decide) (by decide)).trans h.freeCount,
    (hword 36 (by decide) (by decide)).symm ▸ hchain, h.sorted, h.slot⟩

/-- Everything the allocator reads of a slab is inside its block. -/
theorem SlabAt.bytes_bounds (h : SlabAt m z s) (hz : 4 ≤ z) {a : ℕ} (ha : s.Bytes a) :
    s.base ≤ a ∧ a < s.base + slabBytes := by
  have hle : sizeofSlabHeader ≤ slabBytes := by decide
  rcases ha with ⟨h1, h2⟩ | ⟨x, hx, h1, h2⟩
  · omega
  · have hb := (h.slot x hx).bounds
    omega

end Rotary
