import Rotary.Core.String
import Rotary.Mm.HeapFrame

namespace Rotary

open Lib

/-!
# Clearing an object that has been freed

A free object begins with the link to the next one.  Clearing it after `kfree` therefore writes a
null link, which is what stands there only if the object is the last one of its free list.

* `KernelHeap.CountsMatch` — each free list has as many objects as its slab counts;
* `KernelHeap.Inv.clear` — clearing the last free object of a slab changes nothing that matters;
* `KernelHeap.Inv.clear_cuts` — clearing any other one cuts the list off behind it, while the
  count stays.
-/

variable {m m' : ByteMem} {z a t v w x y n : ℕ} {s u : Slab} {xs pre post : List ℕ}
  {k k' : KernelHeap} {S : Fin 13 → List Slab} {i j : Fin 13}

/-- Each slab's free list has exactly `free_count` objects. -/
def KernelHeap.CountsMatch (k : KernelHeap) : Prop :=
  ∀ b ∈ k.slabs, (slabFreeList k.mem b).length = load k.mem (SlabHeader.freeCount b)

theorem KernelHeap.Inv.countsMatch (h : k.Inv S) : k.CountsMatch := by
  intro b hb
  obtain ⟨i, s, hs, rfl⟩ := h.mem_slabs.mp hb
  have hat := (h.cacheAt i).slab s hs
  rw [hat.slabFreeList_eq, hat.freeCount]

/-! ### The cleared bytes -/

theorem bytes_of_load_eq_zero (h : load m x = 0) (h1 : x ≤ a) (h2 : a < x + 4) : m a = 0 := by
  have hzero : ∀ b, (m b).toNat = 0 → m b = 0 := fun b hb => UInt8.toNat_inj.mp hb
  unfold load at h
  rcases (by omega : a = x ∨ a = x + 1 ∨ a = x + 2 ∨ a = x + 3) with rfl | rfl | rfl | rfl
  · exact hzero _ (by omega)
  · exact hzero _ (by omega)
  · exact hzero _ (by omega)
  · exact hzero _ (by omega)

/-- A free object is apart from the header of every slab and from every other free object. -/
theorem KernelHeap.Inv.free_apart (h : k.Inv S) (hs : s ∈ S i) (ht : t ∈ s.free) (hu : u ∈ S j)
    (ha : u.Bytes a) : a < t ∨ t + slabCacheSizes i ≤ a ∨ t ≤ a ∧ a < t + 4 ∧ u = s := by
  have hslot := ((h.cacheAt i).slab s hs).slot t ht
  rw [h.size i] at hslot
  have hb := hslot.bounds
  have hin := ((h.cacheAt j).slab u hu).bytes_bounds (h.size_ge j) ha
  by_cases hap : Apart s.base u.base
  · unfold Apart at hap
    omega
  · obtain ⟨rfl, rfl⟩ := h.slab_unique hs hu hap
    rcases ha with hhead | ⟨y, hy, h1, h2⟩
    · omega
    · by_cases hyt : y = t
      · subst hyt
        exact Or.inr (Or.inr ⟨h1, h2, rfl⟩)
      · have hslot' := ((h.cacheAt i).slab s hs).slot y hy
        rw [h.size i] at hslot'
        have hge := slabCacheSizes_ge i
        have hap' := hslot.apart hslot' fun heq => hyt heq.symm
        omega

/-- The last object of a free list has a null link. -/
theorem chain_load_last (h : Chain m v xs) (hsorted : xs.Pairwise (· < ·)) (ht : t ∈ xs)
    (hlast : ∀ y ∈ xs, y ≤ t) : load m t = 0 := by
  obtain ⟨pre, post, rfl⟩ := List.append_of_mem ht
  obtain ⟨u, -, hpost⟩ := Path.append_iff.mp h
  obtain ⟨-, -, htail⟩ := chain_cons.mp hpost
  cases post with
  | nil => exact htail
  | cons y post =>
    -- the list is increasing
    have hpair := (List.pairwise_append.mp hsorted).2.1
    have hlt := (List.pairwise_cons.mp hpair).1 y List.mem_cons_self
    have hle := hlast y (by simp)
    omega

/-- **Clearing the last free object** of a slab keeps the heap. -/
theorem KernelHeap.Inv.clear (h : k.Inv S) (hs : s ∈ S i) (ht : t ∈ s.free)
    (hn : n ≤ slabCacheSizes i) (hlast : ∀ y ∈ s.free, y ≤ t) :
    KernelHeap.Inv { k with mem := memset k.mem t 0 n } S := by
  have hat := (h.cacheAt i).slab s hs
  have hnull := chain_load_last hat.chain hat.sorted ht hlast
  refine ⟨h.size, fun j => (h.cacheAt j).congr fun u hu a ha => ?_, h.apart⟩
  dsimp only
  rw [memset_apply]
  split
  · rename_i hin
    -- the only such bytes are those of the link
    rcases h.free_apart hs ht hu ha with hlt | hge | ⟨h1, h2, -⟩
    · omega
    · omega
    · exact (bytes_of_load_eq_zero hnull h1 h2).symm
  · rfl

/-- Clearing a free object changes no byte of a slab but its link. -/
theorem KernelHeap.Inv.memset_bytes (h : k.Inv S) (hs : s ∈ S i) (ht : t ∈ s.free)
    (hn : n ≤ slabCacheSizes i) (hu : u ∈ S j) (ha : u.Bytes a) (hout : a < t ∨ t + 4 ≤ a) :
    memset k.mem t 0 n a = k.mem a := by
  rcases h.free_apart hs ht hu ha with hlt | hge | ⟨h1, h2, -⟩
  · exact memset_of_not_mem (Or.inl hlt)
  · exact memset_of_not_mem (Or.inr (by omega))
  · omega

/-- The header of a slab is kept. -/
theorem KernelHeap.Inv.memset_header (h : k.Inv S) (hs : s ∈ S i) (ht : t ∈ s.free)
    (hn : n ≤ slabCacheSizes i) (hu : u ∈ S j) (h1 : u.base ≤ a)
    (h2 : a < u.base + sizeofSlabHeader) : memset k.mem t 0 n a = k.mem a := by
  have hslot := ((h.cacheAt i).slab s hs).slot t ht
  have hhead := hslot.header_le
  have hb := hslot.bounds
  have hge := h.size_ge i
  have hsize : sizeofSlabHeader ≤ slabBytes := by decide
  apply h.memset_bytes hs ht hn hu (Or.inl ⟨h1, h2⟩)
  by_cases hap : Apart s.base u.base
  · unfold Apart at hap
    omega
  · obtain ⟨-, rfl⟩ := h.slab_unique hs hu hap
    omega

/-- The slabs of a heap are found through their headers. -/
theorem KernelHeap.Inv.mem_slabs_of_header (h : k.Inv S) (hs : s ∈ S i)
    (hkeep : ∀ u ∈ S i, ∀ a, u.base ≤ a → a < u.base + sizeofSlabHeader → m' a = k.mem a) :
    s.base ∈ KernelHeap.slabs { k with mem := m' } := by
  have hchain : Chain m' (k.slabCaches i).firstSlab ((S i).map Slab.base) := by
    apply (h.cacheAt i).chain.congr
    intro b hb
    obtain ⟨u, hu, rfl⟩ := List.mem_map.mp hb
    exact load_congr fun a h1 h2 => hkeep u hu a h1 (by unfold sizeofSlabHeader; omega)
  have hlist : slabList m' (k.slabCaches i) = (S i).map Slab.base :=
    hchain.chainList_eq (Nat.le_of_lt (hchain.length_lt (h.cacheAt i).firstSlab_lt))
  unfold KernelHeap.slabs
  refine List.mem_flatMap.mpr ⟨i, List.mem_finRange i, ?_⟩
  show s.base ∈ slabList m' (k.slabCaches i)
  rw [hlist]
  exact List.mem_map_of_mem hs

/-- A chain ends at a cell whose link is cleared. -/
theorem chain_cut (h : Chain m v (pre ++ t :: post)) (hpre : ∀ x ∈ pre, load m' x = load m x)
    (ht : load m' t = 0) : Chain m' v (pre ++ [t]) := by
  obtain ⟨w, hbefore, hbehind⟩ := Path.append_iff.mp h
  obtain ⟨hw, hne, -⟩ := chain_cons.mp hbehind
  exact Path.append_iff.mpr ⟨w, hbefore.congr hpre, hw, hne, ht⟩

/-- The free list of a slab ends at the object that has been cleared. -/
theorem KernelHeap.Inv.memset_freeList (h : k.Inv S) (hs : s ∈ S i)
    (hsplit : s.free = pre ++ t :: post) (h4 : 4 ≤ n) (hn : n ≤ slabCacheSizes i) :
    slabFreeList (memset k.mem t 0 n) s.base = pre ++ [t] := by
  have hat := (h.cacheAt i).slab s hs
  have ht : t ∈ s.free := by
    rw [hsplit]
    exact List.mem_append_right _ List.mem_cons_self
  have hfirst : load (memset k.mem t 0 n) (SlabHeader.freeList s.base) =
      load k.mem (SlabHeader.freeList s.base) :=
    load_congr fun a h1 h2 => h.memset_header hs ht hn hs
      (by unfold SlabHeader.freeList at h1; omega)
      (by unfold SlabHeader.freeList at h2; unfold sizeofSlabHeader; omega)
  have hchain := hat.chain
  rw [hsplit] at hchain
  have hpre : ∀ x ∈ pre, load (memset k.mem t 0 n) x = load k.mem x := by
    intro x hx
    have hxt : x ≠ t := by
      rintro rfl
      exact (List.nodup_append.mp hchain.nodup).2.2 x hx x List.mem_cons_self rfl
    have hxf : x ∈ s.free := by
      rw [hsplit]
      exact List.mem_append_left _ hx
    have hap := (hat.slot t ht).apart (hat.slot x hxf) fun heq => hxt heq.symm
    have hge := h.size_ge i
    exact load_congr fun a h1 h2 => h.memset_bytes hs ht hn hs (Or.inr ⟨x, hxf, h1, h2⟩) (by omega)
  have hcut := chain_cut hchain hpre (load_memset_zero (Nat.le_refl t) (by omega))
  rw [← hfirst] at hcut
  exact hcut.chainList_eq (Nat.le_of_lt (hcut.length_lt (load_lt _ _)))

/-- **Clearing another free object** cuts the free list off behind it: fewer objects are on the
    list than the slab counts. -/
theorem KernelHeap.Inv.clear_cuts (h : k.Inv S) (hs : s ∈ S i) (ht : t ∈ s.free) (h4 : 4 ≤ n)
    (hn : n ≤ slabCacheSizes i) (hy : y ∈ s.free) (hty : t < y) :
    ¬ KernelHeap.CountsMatch { k with mem := memset k.mem t 0 n } := by
  intro hmatch
  have hat := (h.cacheAt i).slab s hs
  obtain ⟨pre, post, hsplit⟩ := List.append_of_mem ht
  have hcount : load (memset k.mem t 0 n) (SlabHeader.freeCount s.base) = s.free.length := by
    rw [← hat.freeCount]
    exact load_congr fun a h1 h2 => h.memset_header hs ht hn hs
      (by unfold SlabHeader.freeCount at h1; omega)
      (by unfold SlabHeader.freeCount at h2; unfold sizeofSlabHeader; omega)
  have hlen := hmatch s.base
    (h.mem_slabs_of_header hs fun u hu a h1 h2 => h.memset_header hs ht hn hu h1 h2)
  dsimp only at hlen
  rw [h.memset_freeList hs hsplit h4 hn, hcount, hsplit] at hlen
  simp only [List.length_append, List.length_cons, List.length_nil] at hlen
  -- so nothing was behind it, but `y` was
  have hnil : post = [] := List.length_eq_zero_iff.mp (by omega)
  have hsorted := hat.sorted
  rw [hsplit, hnil] at hy hsorted
  rcases List.mem_append.mp hy with hy | hy
  · have hyt := (List.pairwise_append.mp hsorted).2.2 y hy t List.mem_cons_self
    omega
  · have hyt := List.mem_singleton.mp hy
    omega

end Rotary
