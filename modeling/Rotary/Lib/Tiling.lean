import Rotary.Lib.Dyadic
import Mathlib.Data.Set.Pairwise.Lattice

namespace Rotary.Lib

/-!
# Tilings by aligned blocks

A set of pages cut into pairwise disjoint aligned blocks, a block `(p, k)` being `block p k`:

* `Tiling B U` — the blocks `B` are aligned, pairwise disjoint and cover exactly `U`;
* `Tiling.insert` / `Tiling.erase` — add a block outside `U`, take a block out;
* `Tiling.eq_head_of_buddy_outside` — a page whose buddy block lies outside `U` can only be
  the *head* of the block it belongs to.  This is what makes a flag kept on heads alone
  enough to decide a merge;
* `Coalesced B m` — below size `m` no block lies in `B` together with its buddy.  A coalesced
  tiling is determined by the set it covers (`Tiling.mem_iff`, `Tiling.eq_of_cover_eq`).
-/

variable {B C : Set (ℕ × ℕ)} {U V : Set ℕ} {p q k m : ℕ} {b c : ℕ × ℕ}

/-- The pages of a block given as a (head, order) pair. -/
def pages (b : ℕ × ℕ) : Set ℕ := block b.1 b.2

/-- The aligned, pairwise disjoint blocks `B` cover exactly `U`. -/
structure Tiling (B : Set (ℕ × ℕ)) (U : Set ℕ) : Prop where
  aligned : ∀ b ∈ B, 2 ^ b.2 ∣ b.1
  disjoint : B.PairwiseDisjoint pages
  cover : ⋃ b ∈ B, pages b = U

namespace Tiling

theorem empty : Tiling ∅ ∅ := ⟨by simp, by simp, by simp⟩

theorem subset (ht : Tiling B U) (hb : b ∈ B) : pages b ⊆ U := by
  rw [← ht.cover]
  exact Set.subset_biUnion_of_mem hb

theorem head_mem (ht : Tiling B U) (hb : b ∈ B) : b.1 ∈ U :=
  ht.subset hb (self_mem_block b.1 b.2)

theorem exists_block (ht : Tiling B U) (hp : p ∈ U) : ∃ b ∈ B, p ∈ pages b := by
  rw [← ht.cover] at hp
  simpa using hp

/-- Two blocks of a tiling that share a page are the same block. -/
theorem eq_of_mem (ht : Tiling B U) (hb : b ∈ B) (hc : c ∈ B) (hpb : p ∈ pages b)
    (hpc : p ∈ pages c) : b = c := by
  by_contra hne
  exact Set.disjoint_left.mp (ht.disjoint hb hc hne) hpb hpc

/-- Add an aligned block that lies outside the covered set. -/
theorem insert (ht : Tiling B U) (hp : 2 ^ k ∣ p) (hd : Disjoint (block p k) U) :
    Tiling (insert (p, k) B) (U ∪ block p k) where
  aligned := by
    rintro b (rfl | hb)
    · exact hp
    · exact ht.aligned b hb
  disjoint := by
    apply ht.disjoint.insert
    intro c hc _
    exact hd.mono_right (ht.subset hc)
  cover := by
    rw [Set.biUnion_insert, ht.cover, Set.union_comm]
    rfl

/-- Take a block out. -/
theorem erase (ht : Tiling B U) (hb : b ∈ B) : Tiling (B \ {b}) (U \ pages b) where
  aligned c hc := ht.aligned c hc.1
  disjoint := ht.disjoint.subset Set.sdiff_subset
  cover := by
    ext x
    simp only [Set.mem_iUnion, Set.mem_sdiff, Set.mem_singleton_iff, exists_prop]
    constructor
    · rintro ⟨c, ⟨hc, hne⟩, hx⟩
      exact ⟨ht.subset hc hx, fun hxb => hne (ht.eq_of_mem hc hb hx hxb)⟩
    · rintro ⟨hxU, hxb⟩
      obtain ⟨c, hc, hx⟩ := ht.exists_block hxU
      exact ⟨c, ⟨hc, fun heq => hxb (heq ▸ hx)⟩, hx⟩

/-- Part of a tiling is a tiling of what it covers. -/
theorem restrict (ht : Tiling B U) (hCB : C ⊆ B) : Tiling C (⋃ b ∈ C, pages b) where
  aligned b hb := ht.aligned b (hCB hb)
  disjoint := ht.disjoint.subset hCB
  cover := rfl

/-- The two parts of a tiling cover complementary sets. -/
theorem cover_sdiff (ht : Tiling (B ∪ C) U) (hd : Disjoint B C) :
    ⋃ b ∈ B, pages b = U \ ⋃ c ∈ C, pages c := by
  ext x
  simp only [Set.mem_iUnion, Set.mem_sdiff, exists_prop, not_exists, not_and]
  constructor
  · rintro ⟨b, hb, hx⟩
    refine ⟨ht.subset (Or.inl hb) hx, fun c hc hxc => ?_⟩
    have heq := ht.eq_of_mem (Or.inl hb) (Or.inr hc) hx hxc
    exact Set.disjoint_left.mp hd hb (heq ▸ hc)
  · rintro ⟨hxU, hout⟩
    obtain ⟨b, hb | hb, hx⟩ := ht.exists_block hxU
    · exact ⟨b, hb, hx⟩
    · exact absurd hx (hout b hb)

/-- **Heads only.**  If the buddy block of `q` reaches outside the covered set, then `q` is
    the head of the block it belongs to: any larger block would hold the whole pair. -/
theorem eq_head_of_buddy_outside (ht : Tiling B U) (hq : 2 ^ k ∣ q) (hqU : q ∈ U)
    (hout : ¬ block (buddy q k) k ⊆ U) : ∃ j ≤ k, (q, j) ∈ B := by
  obtain ⟨⟨h, j⟩, hb, hmem⟩ := ht.exists_block hqU
  have hal : 2 ^ j ∣ h := ht.aligned _ hb
  have hpair : ∀ {n}, block (pairBase n k) (k + 1) ⊆ block h j → 2 ^ k ∣ n →
      block (buddy n k) k ⊆ U := by
    intro n hsub hn
    rw [block_pairBase hn] at hsub
    exact Set.subset_union_right.trans (hsub.trans (ht.subset hb))
  have hqh : q = h := by
    by_contra hne
    exact hout (hpair (pair_subset_of_mem_ne hq hal hmem hne).2 hq)
  subst hqh
  refine ⟨j, ?_, hb⟩
  by_contra hlt
  have hsub : block (pairBase q k) (k + 1) ⊆ block q j :=
    block_subset_of_mem (Nat.lt_of_not_le hlt) (pairBase_dvd q k) hal
      (mem_block_pairBase.mpr rfl) hmem
  exact hout (hpair hsub hq)

end Tiling

/-! ### Coalesced tilings -/

/-- Below size `m`, no block lies in `B` together with its buddy. -/
def Coalesced (B : Set (ℕ × ℕ)) (m : ℕ) : Prop :=
  ∀ p k, k < m → (p, k) ∈ B → (buddy p k, k) ∉ B

namespace Tiling

/-- In a coalesced tiling the buddy of a block is never completely covered. -/
theorem buddy_not_subset (ht : Tiling B U) (hc : Coalesced B m) (hk : k < m)
    (hb : (p, k) ∈ B) : ¬ block (buddy p k) k ⊆ U := by
  -- induction on the size: a smaller block inside the buddy would have a covered buddy too
  induction k using Nat.strong_induction_on generalizing p with
  | _ k ih =>
    intro hsub
    have hp : 2 ^ k ∣ p := ht.aligned _ hb
    have hq : 2 ^ k ∣ buddy p k := buddy_dvd hp
    have hqU : buddy p k ∈ U := hsub (self_mem_block _ _)
    have hrest : Tiling (B \ {(p, k)}) (U \ block p k) := ht.erase hb
    have hqU' : buddy p k ∈ U \ block p k :=
      ⟨hqU, fun hin => Set.disjoint_left.mp (disjoint_block_buddy hp) hin (self_mem_block _ _)⟩
    obtain ⟨j, hjk, hj, -⟩ := hrest.eq_head_of_buddy_outside hq hqU' (by
      rw [buddy_buddy]
      exact fun hin => (hin (self_mem_block p k)).2 (self_mem_block p k))
    rcases Nat.lt_or_eq_of_le hjk with hlt | rfl
    · refine ih j hlt (Nat.lt_trans hlt hk) hj (Set.Subset.trans ?_ hsub)
      have hqj : 2 ^ j ∣ buddy p k := (pow_dvd_pow 2 hjk).trans hq
      refine Set.Subset.trans ?_ (block_subset_of_mem hlt (pairBase_dvd _ j) hq
        (mem_block_pairBase.mpr rfl) (self_mem_block _ _))
      rw [block_pairBase hqj]
      exact Set.subset_union_right
    · exact hc p j hk hb hj

/-- **Canonical form.**  The blocks of a coalesced tiling, in terms of the covered set alone. -/
theorem mem_iff (ht : Tiling B U) (hc : Coalesced B m) (hle : ∀ b ∈ B, b.2 ≤ m) :
    (p, k) ∈ B ↔ k ≤ m ∧ 2 ^ k ∣ p ∧ block p k ⊆ U ∧ (k = m ∨ ¬ block (buddy p k) k ⊆ U) := by
  constructor
  · intro hb
    refine ⟨hle _ hb, ht.aligned _ hb, ht.subset hb, ?_⟩
    rcases Nat.lt_or_eq_of_le (hle _ hb) with hlt | heq
    · exact Or.inr (ht.buddy_not_subset hc hlt hb)
    · exact Or.inl heq
  · rintro ⟨hkm, hp, hsub, hor⟩
    obtain ⟨⟨h, j⟩, hb, hmem⟩ := ht.exists_block (hsub (self_mem_block p k))
    have hal : 2 ^ j ∣ h := ht.aligned _ hb
    have hbase : j ≤ k → p = h := by
      intro hjk
      by_contra hne
      exact absurd (pair_subset_of_mem_ne hp hal hmem hne).1 (by omega)
    rcases Nat.lt_trichotomy j k with hlt | rfl | hgt
    · -- a smaller block at the base of `block p k` has a covered buddy
      exfalso
      obtain rfl := hbase hlt.le
      apply ht.buddy_not_subset hc (Nat.lt_of_lt_of_le hlt hkm) hb
      refine Set.Subset.trans ?_ ((block_subset_of_mem hlt (pairBase_dvd p j) hp
        (mem_block_pairBase.mpr rfl) (self_mem_block p k)).trans hsub)
      rw [block_pairBase hal]
      exact Set.subset_union_right
    · rw [hbase le_rfl]
      exact hb
    · -- a larger block holds the whole pair
      exfalso
      rcases hor with rfl | hnot
      · exact absurd (hle _ hb) (by simpa using hgt)
      · refine hnot (Set.Subset.trans ?_ (ht.subset hb))
        refine Set.Subset.trans ?_ (block_subset_of_mem hgt (pairBase_dvd p k) hal
          (mem_block_pairBase.mpr rfl) hmem)
        rw [block_pairBase hp]
        exact Set.subset_union_right

/-- Coalesced tilings of one set are equal. -/
theorem eq_of_cover_eq (hB : Tiling B U) (hC : Tiling C U) (hcB : Coalesced B m)
    (hcC : Coalesced C m) (hlB : ∀ b ∈ B, b.2 ≤ m) (hlC : ∀ b ∈ C, b.2 ≤ m) : B = C := by
  ext ⟨p, k⟩
  rw [hB.mem_iff hcB hlB, hC.mem_iff hcC hlC]

end Tiling

end Rotary.Lib
